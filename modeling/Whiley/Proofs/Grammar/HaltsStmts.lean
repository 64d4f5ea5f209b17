import Whiley.Grammar.Stmts
import Whiley.Proofs.Grammar.HaltsExprs

namespace Whiley.Grammar

open Whiley.Parser

variable {σ : Type} {r : Anchored} {i j k start : Nat} {s : Scope}

theorem clauses_halts {g : ExprParsers} (hg : g.Halting r) {keyword : Kind}
    (hkeyword : keyword.isSpace = false) : Halts r i (clauses g keyword s) fun j _ => i ≤ j :=
  afterEach_halts hkeyword fun _ _ => hg.moves

theorem aligned_halts {indent : Indent} {item : σ → Parser σ} {x : σ}
    (hitem : ∀ x j, i ≤ j → Moves r j (item x)) :
    Halts r i (aligned indent item x) fun j _ => i ≤ j := by
  refine .foldUntil (I := (i ≤ ·)) (Q := (i ≤ ·)) (Nat.le_refl i) fun x j hj => ?_
  refine lineStart_halts.bind fun o k hk => ?_
  cases o with
  | none => exact .pure (Nat.le_trans hj hk.1)
  | some line =>
    have hsize := hk.2 rfl
    dsimp only
    split
    · exact .pure (Nat.le_trans hj hk.1)
    · split
      · refine (hitem x k (by omega)).bind fun y l hl => .pure ?_
        exact ⟨by omega, by omega⟩
      · exact .reject

theorem deeperIndent_halts : Halts r i (deeperIndent s) fun j _ => i ≤ j := by
  refine lineIndent_halts.bind fun o j hj => ?_
  cases o with
  | none => exact .pure hj
  | some indent =>
    dsimp only
    split <;> exact .pure hj

namespace StmtParsers

structure HaltsPast (r : Anchored) (i : Nat) (g : StmtParsers) : Prop where
  exprs : g.exprs.Halting r
  target : ∀ {j s}, Moves r j (g.target s)
  block : ∀ {j s inLoop}, r.input.Past i j → Halts r j (g.block s inLoop) fun k _ => j ≤ k
  ifElse : ∀ {j s}, r.input.Past i j → Moves r j (g.ifElse s)

theorem HaltsPast.mono {g : StmtParsers} (hg : g.HaltsPast r i) (hij : i ≤ j) : g.HaltsPast r j where
  exprs := hg.exprs
  target := hg.target
  block _ := hg.block (by omega)
  ifElse _ := hg.ifElse (by omega)

theorem simple_moves {build : Mark → Stmt} : Moves r i (simple build) := by
  refine .here (advance_halts.bind fun _ j ht => .making fun _ => endLine_halts.bind fun _ k hk => ?_)
  have hpast := ht.past
  exact .pure (by omega)

theorem loopOnly_moves {build : Mark → Stmt} {fault : SyntaxFault} :
    Moves r i (loopOnly build fault s) := by
  refine .showing fun t _ => simple_moves.bind fun st j hj => ?_
  have hle := r.input.le_skip true i
  split
  · exact .pure (by omega)
  · exact .reject

theorem headerEnd_moves : Moves r i headerEnd :=
  expect_moves.bind fun _ _ hj => endLine_halts.imp fun _ _ hk => by omega

section Rules

variable {g : StmtParsers} (hg : g.HaltsPast r i)

include hg

theorem expressions_moves : Moves r j (g.expressions s) := by
  refine hg.exprs.moves.bind fun first k hk => ?_
  refine (afterEach_halts (by decide) fun _ _ => hg.exprs.moves).bind fun rest l hl => .pure ?_
  omega

theorem condition_moves {keyword : Kind} {build : Mark → Expr → Stmt} :
    Moves r i (g.condition keyword build s) := by
  refine .here (expect_moves.bind fun _ j hj => hg.exprs.moves.bind fun e k hk => ?_)
  exact .making fun _ => endLine_halts.bind fun _ l hl => .pure (by omega)

theorem returns_moves : Moves r i (g.returns s) := by
  refine .here (expect_moves.bind fun _ j hj => .lookingAtLineEnd fun b => ?_)
  have hrest : ∀ {es k}, j ≤ k → Halts r k (do
      let st ← make i (Stmt.return · es)
      endLine
      return st) fun l _ => r.input.Past i l :=
    fun hk => .making fun _ => endLine_halts.bind fun _ l hl => .pure (by omega)
  split
  · exact hrest (Nat.le_refl j)
  · exact (expressions_moves hg).bind fun es k hk => hrest (by omega)

theorem doLoop_moves : Moves r i (g.doLoop s) := by
  refine .here (expect_moves.bind fun _ j hj => headerEnd_moves.bind fun _ k hk => ?_)
  refine (hg.block (by omega)).bind fun body l hl => expect_moves.bind fun _ m hm => ?_
  refine hg.exprs.moves.bind fun condition n hn => ?_
  refine (clauses_halts hg.exprs (by decide)).bind fun invariants p hp => .making fun _ => ?_
  exact endLine_halts.bind fun _ q hq => .pure (by omega)

theorem whileLoop_moves : Moves r i (g.whileLoop s) := by
  refine .here (expect_moves.bind fun _ j hj => hg.exprs.moves.bind fun condition k hk => ?_)
  refine (clauses_halts hg.exprs (by decide)).bind fun invariants l hl => ?_
  refine headerEnd_moves.bind fun _ m hm => (hg.block (by omega)).bind fun body n hn => ?_
  exact .make fun _ => by omega

theorem elseBranch_moves (hj : r.input.Past i j) : Moves r j (g.elseBranch s) := by
  refine .here (.looking fun b => ?_)
  split
  · exact (hg.ifElse hj).bind fun chained k hk => .make fun _ => hk
  · exact headerEnd_moves.bind fun _ k hk => (hg.block (by omega)).imp fun _ l hl => by omega

theorem ifThen_moves : Moves r i (g.ifThen s) := by
  refine .here (expect_moves.bind fun _ j hj => hg.exprs.moves.bind fun condition k hk => ?_)
  refine headerEnd_moves.bind fun _ l hl => (hg.block (by omega)).bind fun trueBranch m hm => ?_
  refine .acceptingAtIndent (by decide) (fun t n hn => ?_) (.make fun _ => by omega)
  exact (elseBranch_moves hg (by omega)).bind fun falseBranch p hp => .make fun _ => by omega

theorem case_moves : Moves r i (g.case s) := by
  have hrest : ∀ {es j}, r.input.Past i j → Halts r j (do
      headerEnd
      let body ← g.block s s.inLoop
      make i (Case.mk · es body)) fun k _ => r.input.Past i k := by
    intro es j hj
    refine headerEnd_moves.bind fun _ k hk => (hg.block (by omega)).bind fun body l hl => ?_
    exact .make fun _ => by omega
  refine .here (.accepting (by decide) (fun t j ht _ => hrest ht.past) fun _ => ?_)
  refine expect_moves.bind fun _ j hj => hg.exprs.moves.bind fun first k hk => ?_
  refine (afterEach_halts (by decide) fun _ _ => hg.exprs.moves).bind fun rest l hl => hrest ?_
  omega

theorem cases_halts (hj : i ≤ j) : Halts r j (g.cases s) fun k _ => j ≤ k := by
  refine deeperIndent_halts.bind fun o k hk => ?_
  cases o with
  | none => exact .pure hk
  | some indent =>
    refine (aligned_halts fun found l hl => ?_).bind fun found l hl => ?_
    · exact (case_moves (hg.mono (by omega))).bind fun c m hm => .pure hm
    · exact .checking fun _ => .pure (Nat.le_trans hk hl)

theorem switch_moves : Moves r i (g.switch s) := by
  refine .here (expect_moves.bind fun _ j hj => hg.exprs.moves.bind fun condition k hk => ?_)
  refine headerEnd_moves.bind fun _ l hl => (cases_halts hg (by omega)).bind fun cases m hm => ?_
  exact .make fun _ => by omega

theorem assign_moves : Moves r i (g.assign s) := by
  refine .here (hg.target.bind fun first j hj => ?_)
  refine (afterEach_halts (by decide) fun _ _ => hg.target).bind fun rest k hk => ?_
  refine expect_moves.bind fun _ l hl => (expressions_moves hg).bind fun values m hm => ?_
  exact .making fun _ => endLine_halts.bind fun _ n hn => .pure (by omega)

theorem declaration_moves : Moves r i (g.declaration s) := by
  refine .here (hg.exprs.types.type.bind fun type j hj => identifier_moves.bind fun name k hk => ?_)
  refine .checking fun _ => ?_
  have hrest : ∀ {initialiser l}, k ≤ l → Halts r l (do
      let t ← make i fun m => Stmt.variable ⟨m, name, type⟩ initialiser
      endLine
      return (t, ← ofExcept (s.declareVariable ⟨t.mark, name, type⟩)))
        fun m _ => r.input.Past i m :=
    fun hl => .making fun _ => endLine_halts.bind fun _ m hm => .checking fun _ => .pure (by omega)
  refine .accepting (by decide) (fun t l ht _ => ?_) fun _ => hrest (Nat.le_refl k)
  have hpast := ht.past
  have hvalue : Moves r l (some <$> g.expression s false) :=
    hg.exprs.moves.bind fun e _ hm => .pure hm
  exact hvalue.bind fun initialiser m hm => hrest (by omega)

theorem unlabelled_moves : Moves r i (g.unlabelled s) := by
  refine .here ((forcedType_halts hg.exprs.types).bind fun o j ho => ?_)
  have hle := ho.le
  cases o with
  | some _ => exact .moved (declaration_moves hg)
  | none =>
    refine hg.exprs.moves.bind fun e k hk => ?_
    split
    · exact endLine_halts.bind fun _ l hl => .pure (by omega)
    · refine .accepting (by decide) (fun t l _ _ => ?_) fun _ => .moved (declaration_moves hg)
      exact .moved ((assign_moves hg).bind fun st m hm => .pure hm)

theorem headless_moves : Moves r i (g.headless s) := by
  refine .here (optionalIdentifier_halts.bind fun o j ho => ?_)
  cases o with
  | none =>
    obtain rfl : j = i := ho
    exact unlabelled_moves hg
  | some name =>
    have hpast : r.input.Past i j := ho
    refine (accept_halts (by decide)).bind fun c k hc => .lookingAtLineEnd fun b => ?_
    have hjk : j ≤ k := by
      cases c with
      | none => exact Nat.le_of_eq hc.1.symm
      | some t => exact Nat.le_of_lt hc.1.lt
    split
    · refine endLine_halts.bind fun _ l hl => .checking fun inner => ?_
      refine (hg.block (by omega)).bind fun body m hm => .making fun _ => .pure ?_
      omega
    · exact .moved (unlabelled_moves hg)

end Rules

theorem statement_moves {g : StmtParsers} (hg : g.HaltsPast r i) : Moves r i (g.statement s) := by
  refine .showing fun t ht => ?_
  have hle := r.input.le_skip true i
  obtain ⟨hsize, -⟩ := Array.getElem?_eq_some_iff.mp ht
  have hrest := hg.mono hle
  generalize r.input.skip true i = start at *
  have hkeeping : ∀ {p : Parser Stmt}, Moves r start p →
      Halts r start (keeping s p) fun j _ => r.input.Past i j :=
    fun hp => hp.bind fun _ _ hj => .pure (by omega)
  split
  · exact hkeeping (condition_moves hrest)
  · exact hkeeping (condition_moves hrest)
  · exact hkeeping loopOnly_moves
  · exact hkeeping loopOnly_moves
  · exact hkeeping (doLoop_moves hrest)
  · exact hkeeping (condition_moves hrest)
  · exact hkeeping simple_moves
  · exact hkeeping (ifThen_moves hrest)
  · exact hkeeping (returns_moves hrest)
  · exact hkeeping (whileLoop_moves hrest)
  · exact hkeeping simple_moves
  · exact hkeeping (switch_moves hrest)
  · exact (headless_moves hrest).imp fun _ _ hj => by omega

theorem blockOf_halts {g : StmtParsers} (hg : g.HaltsPast r i) {inLoop : Bool} :
    Halts r i (g.blockOf s inLoop) fun j _ => i ≤ j := by
  refine .here (deeperIndent_halts.bind fun o j hj => ?_)
  cases o with
  | none => exact .make fun _ => hj
  | some indent =>
    have hstatements : Halts r j (g.statements indent ((s.deeper indent).looping inLoop))
        fun k _ => j ≤ k := by
      refine (aligned_halts fun x k hk => ?_).bind fun x k hk => .pure hk
      exact (statement_moves (hg.mono (by omega))).bind fun y l hl => .pure hl
    exact hstatements.bind fun sts k hk => .make fun _ => Nat.le_trans hj hk

structure HaltsWithin (r : Anchored) (depth : Nat) (g : StmtParsers) : Prop where
  exprs : g.exprs.Halting r
  target : ∀ {i s}, Moves r i (g.target s)
  block : ∀ {i s inLoop}, r.input.tokens.size - i < depth →
    Halts r i (g.block s inLoop) fun j _ => i ≤ j
  ifElse : ∀ {i s}, r.input.tokens.size - i < depth → Moves r i (g.ifElse s)

theorem HaltsWithin.past {g : StmtParsers} {depth : Nat} (hg : g.HaltsWithin r depth)
    (hdepth : r.input.tokens.size - i ≤ depth) : g.HaltsPast r i where
  exprs := hg.exprs
  target := hg.target
  block _ := hg.block (by omega)
  ifElse _ := hg.ifElse (by omega)

theorem ofDepth_haltsWithin {exprs : ExprParsers} {target : TargetParser} (he : exprs.Halting r)
    (ht : ∀ {i s}, Moves r i (target s)) (depth : Nat) :
    (ofDepth exprs target depth).HaltsWithin r depth := by
  induction depth with
  | zero => exact ⟨he, ht, fun h => absurd h (Nat.not_lt_zero _), fun h => absurd h (Nat.not_lt_zero _)⟩
  | succ depth ih =>
    rw [ofDepth_succ]
    exact ⟨he, ht, fun h => blockOf_halts (ih.past (by omega)),
      fun h => ifThen_moves (ih.past (by omega))⟩

end StmtParsers

end Whiley.Grammar
