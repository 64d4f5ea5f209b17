import Whiley.Proofs.Grammar.AlikeExprs

namespace Whiley.Grammar

open Whiley.Parser

variable {σ : Simulation} {P : Spot}

theorem indent_alike {s s' : Scope} (hs : σ.Alike s s') : s.indent = s'.indent := by
  have hindent := congrArg Scope.indent hs
  exact hindent

theorem inLoop_alike {s s' : Scope} (hs : σ.Alike s s') : s.inLoop = s'.inLoop := by
  have hinLoop := congrArg Scope.inLoop hs
  exact hinLoop

theorem deeper_alike {s s' : Scope} (hs : σ.Alike s s') (indent : Indent) :
    σ.Alike (s.deeper indent) (s'.deeper indent) :=
  congrArg (·.deeper indent) hs

theorem looping_alike {s s' : Scope} (hs : σ.Alike s s') (inLoop : Bool) :
    σ.Alike (s.looping inLoop) (s'.looping inLoop) :=
  congrArg (·.looping inLoop) hs

theorem checkCases_alike {cs cs' : List Case} (hcs : σ.Alike cs cs') :
    σ.Alike (checkCases cs) (checkCases cs') := by
  have hcs' : cs.map (relabel σ.lhs) = cs'.map (relabel σ.rhs) := hcs
  rw [Simulation.Alike, checkCases_relabel, checkCases_relabel, hcs']

theorem clauses_matches {g g' : ExprParsers} (hg : g.Agree σ g') {s s' : Scope} (hs : σ.Alike s s')
    {keyword : Kind} (hk : keyword.isSpace = false) :
    Matches σ .within .within (clauses g keyword s) (clauses g' keyword s') σ.Alike :=
  .afterEach hk (ExprParsers.expression_matches hg hs)

theorem aligned_matches {ρ τ : Type} {indent : Indent} {item : ρ → Parser ρ} {item' : τ → Parser τ}
    {x : ρ} {y : τ} (I : ρ → τ → Prop) (hx : I x y)
    (hitem : ∀ x y, I x y → Matches σ .anywhere .anywhere (item x) (item' y) I) :
    Matches σ .anywhere .anywhere (aligned indent item x) (aligned indent item' y) I := by
  refine Matches.foldWhile I hx fun x y hxy => Matches.lineStart.bind fun line line' hline => ?_
  cases hline with
  | none => exact .pure .none
  | some h =>
    obtain ⟨hspan, hindent⟩ := h
    dsimp only
    rw [← hindent]
    split
    · exact .pure .none
    · split
      · exact (hitem x y hxy).bind fun x' y' h => .pure (.some h)
      · exact .reject hspan

theorem deeperIndent_matches {s s' : Scope} (hs : σ.Alike s s') :
    Matches σ .anywhere .anywhere (deeperIndent s) (deeperIndent s') Eq := by
  refine Matches.lineIndent.bind fun i i' hi => ?_
  obtain rfl : i = i' := hi
  rw [indent_alike hs]
  cases i with
  | none => exact .pure rfl
  | some i =>
    dsimp only
    split
    · exact .pure rfl
    · exact .pure rfl

namespace StmtParsers

structure Agree (σ : Simulation) (g g' : StmtParsers) : Prop where
  exprs : g.exprs.Agree σ g'.exprs
  target : ∀ s s', σ.Alike s s' → Matches σ .within .within (g.target s) (g'.target s') σ.Alike
  block : ∀ s s' inLoop, σ.Alike s s' →
    Matches σ .anywhere .anywhere (g.block s inLoop) (g'.block s' inLoop) σ.Alike
  ifElse : ∀ s s', σ.Alike s s' →
    Matches σ .anywhere .anywhere (g.ifElse s) (g'.ifElse s') σ.Alike

theorem simple_matches {build : Mark → Stmt}
    (hbuild : ∀ m m', σ.Alike m m' → σ.Alike (build m) (build m')) :
    Matches σ P .anywhere (simple build) (simple build) σ.Alike := by
  refine Matches.position.bind fun start start' hstart => Matches.advance.bind fun _ _ _ => ?_
  refine (Matches.make hstart hbuild).bind fun st st' hst => ?_
  exact Matches.endLine.bind fun _ _ _ => .pure hst

theorem headerEnd_matches : Matches σ P .anywhere headerEnd headerEnd fun _ _ => True :=
  Matches.expect.bind fun _ _ _ => Matches.endLine

section Rules

variable {g g' : StmtParsers} (hg : g.Agree σ g') {s s' : Scope} (hs : σ.Alike s s')

include hs in
theorem loopOnly_matches {build : Mark → Stmt} {fault : SyntaxFault}
    (hbuild : ∀ m m', σ.Alike m m' → σ.Alike (build m) (build m')) :
    Matches σ P .anywhere (loopOnly build fault s) (loopOnly build fault s') σ.Alike := by
  refine Matches.current.bind fun t t' ht => ?_
  refine (simple_matches hbuild).bind fun st st' hst => ?_
  rw [inLoop_alike hs]
  split
  · exact .pure hst
  · exact .reject ht.span

include hg hs

theorem expression_matches {lines : Bool} :
    Matches σ .within .within (g.expression s lines) (g'.expression s' lines) σ.Alike :=
  ExprParsers.expression_matches hg.exprs hs

theorem expressions_matches :
    Matches σ .within .within (g.expressions s) (g'.expressions s') σ.Alike := by
  refine (expression_matches hg hs).bind fun first first' hfirst => ?_
  refine (Matches.afterEach rfl (expression_matches hg hs)).bind fun rest rest' hrest => .pure ?_
  exact congrArg₂ List.cons hfirst hrest

theorem condition_matches {keyword : Kind} {build : Mark → Expr → Stmt}
    (hbuild : ∀ m m' e e', σ.Alike m m' → σ.Alike e e' → σ.Alike (build m e) (build m' e')) :
    Matches σ P .anywhere (g.condition keyword build s) (g'.condition keyword build s')
      σ.Alike := by
  refine Matches.position.bind fun start start' hstart => Matches.expect.bind fun _ _ _ => ?_
  refine (expression_matches hg hs).bind fun e e' he => ?_
  refine (Matches.make hstart (R := σ.Alike) fun m m' hm => ?_).bind fun st st' hst => ?_
  · exact hbuild m m' e e' hm he
  · exact Matches.endLine.bind fun _ _ _ => .pure hst

theorem returns_matches : Matches σ P .anywhere (g.returns s) (g'.returns s') σ.Alike := by
  refine Matches.position.bind fun start start' hstart => Matches.expect.bind fun _ _ _ => ?_
  have hrest : ∀ values values', σ.Alike values values' → Matches σ .within .anywhere
      (do
        let st ← make start (Stmt.return · values)
        endLine
        return st)
      (do
        let st ← make start' (Stmt.return · values')
        endLine
        return st) σ.Alike := by
    intro values values' hvalues
    refine (Matches.make hstart (R := σ.Alike) fun m m' hm => ?_).bind fun st st' hst => ?_
    · simpa using ⟨hm, hvalues⟩
    · exact Matches.endLine.bind fun _ _ _ => .pure hst
  refine Matches.atLineEnd.bind fun atEnd _ h => ?_
  obtain rfl := h
  dsimp only
  split
  · exact (Matches.pure (R := σ.Alike) rfl).bind hrest
  · exact (expressions_matches hg hs).bind hrest

theorem doLoop_matches : Matches σ P .anywhere (g.doLoop s) (g'.doLoop s') σ.Alike := by
  refine Matches.position.bind fun start start' hstart => Matches.expect.bind fun _ _ _ => ?_
  refine headerEnd_matches.bind fun _ _ _ => ?_
  refine (hg.block s s' true hs).bind fun body body' hbody => ?_
  refine Matches.expect.bind fun _ _ _ => ?_
  refine (expression_matches hg hs).bind fun condition condition' hcondition => ?_
  refine (clauses_matches hg.exprs hs rfl).bind fun invariants invariants' hinvariants => ?_
  refine (Matches.make hstart (R := σ.Alike) fun m m' hm => ?_).bind fun st st' hst => ?_
  · simpa using ⟨hm, hcondition, hinvariants, hbody⟩
  · exact Matches.endLine.bind fun _ _ _ => .pure hst

theorem whileLoop_matches : Matches σ P .anywhere (g.whileLoop s) (g'.whileLoop s') σ.Alike := by
  refine Matches.position.bind fun start start' hstart => Matches.expect.bind fun _ _ _ => ?_
  refine (expression_matches hg hs).bind fun condition condition' hcondition => ?_
  refine (clauses_matches hg.exprs hs rfl).bind fun invariants invariants' hinvariants => ?_
  refine headerEnd_matches.bind fun _ _ _ => ?_
  refine (hg.block s s' true hs).bind fun body body' hbody => ?_
  exact .make hstart fun m m' hm => by simpa using ⟨hm, hcondition, hinvariants, hbody⟩

theorem elseBranch_matches :
    Matches σ .anywhere .anywhere (g.elseBranch s) (g'.elseBranch s') σ.Alike := by
  refine Matches.position.bind fun start start' hstart => ?_
  refine (Matches.aheadAt (.inr rfl) (by decide)).bind fun chains _ h => ?_
  obtain rfl := h
  split
  · refine (hg.ifElse s s' hs).bind fun chained chained' hchained => ?_
    exact .make hstart fun m m' hm => by simpa using ⟨hm, hchained⟩
  · refine headerEnd_matches.bind fun _ _ _ => ?_
    rw [inLoop_alike hs]
    exact hg.block s s' s'.inLoop hs

theorem ifThen_matches : Matches σ P .anywhere (g.ifThen s) (g'.ifThen s') σ.Alike := by
  refine Matches.position.bind fun start start' hstart => Matches.expect.bind fun _ _ _ => ?_
  refine (expression_matches hg hs).bind fun condition condition' hcondition => ?_
  refine headerEnd_matches.bind fun _ _ _ => ?_
  rw [inLoop_alike hs, indent_alike hs]
  refine (hg.block s s' s'.inLoop hs).bind fun trueBranch trueBranch' htrue => ?_
  refine (Matches.acceptAtIndent rfl).bind fun o o' ho => ?_
  cases ho with
  | none => exact .make hstart fun m m' hm => by simpa using ⟨hm, hcondition, htrue⟩
  | some _ =>
    refine (elseBranch_matches hg hs).bind fun falseBranch falseBranch' hfalse => ?_
    exact .make hstart fun m m' hm => by simpa using ⟨hm, hcondition, htrue, hfalse⟩

theorem case_matches : Matches σ .anywhere .anywhere (g.case s) (g'.case s') σ.Alike := by
  refine Matches.position.bind fun start start' hstart => ?_
  have hrest : ∀ (P : Spot) conditions conditions', σ.Alike conditions conditions' →
      Matches σ P .anywhere
        (do
          headerEnd
          let body ← g.block s s.inLoop
          make start (Case.mk · conditions body))
        (do
          headerEnd
          let body ← g'.block s' s'.inLoop
          make start' (Case.mk · conditions' body)) σ.Alike := by
    intro P conditions conditions' hconditions
    refine headerEnd_matches.bind fun _ _ _ => ?_
    rw [inLoop_alike hs]
    refine (hg.block s s' s'.inLoop hs).bind fun body body' hbody => ?_
    exact .make hstart fun m m' hm => by simpa using ⟨hm, hconditions, hbody⟩
  refine (Matches.acceptAt (.inr rfl) (by decide)).bind fun o o' ho => ?_
  cases ho with
  | some _ => exact (Matches.pure (R := σ.Alike) rfl).bind (hrest .anywhere)
  | none =>
    refine Matches.expect.bind fun _ _ _ => ?_
    refine (expression_matches hg hs).bind fun first first' hfirst => ?_
    refine (Matches.afterEach rfl (expression_matches hg hs)).bind fun rest rest' hafter => ?_
    exact (Matches.pure (R := σ.Alike) (congrArg₂ List.cons hfirst hafter)).bind (hrest .within)

theorem cases_matches : Matches σ .anywhere .anywhere (g.cases s) (g'.cases s') σ.Alike := by
  refine (deeperIndent_matches hs).bind fun indent _ h => ?_
  obtain rfl := h
  cases indent with
  | none => exact .pure rfl
  | some indent =>
    refine (aligned_matches σ.Alike rfl fun found found' hfound => ?_).bind
      fun found found' hfound => ?_
    · refine (case_matches hg (deeper_alike hs indent)).bind fun c c' hc => .pure ?_
      exact congrArg₂ List.cons hc hfound
    · have hreverse : σ.Alike found.reverse found'.reverse := by simpa using hfound
      refine (Matches.ofExcept (checkCases_alike hreverse)).bind fun _ _ _ => .pure hreverse

theorem switch_matches : Matches σ P .anywhere (g.switch s) (g'.switch s') σ.Alike := by
  refine Matches.position.bind fun start start' hstart => Matches.expect.bind fun _ _ _ => ?_
  refine (expression_matches hg hs).bind fun condition condition' hcondition => ?_
  refine headerEnd_matches.bind fun _ _ _ => (cases_matches hg hs).bind fun cases cases' hcases => ?_
  exact .make hstart fun m m' hm => by simpa using ⟨hm, hcondition, hcases⟩

theorem assign_matches : Matches σ .within .anywhere (g.assign s) (g'.assign s') σ.Alike := by
  refine Matches.position.bind fun start start' hstart => ?_
  refine (hg.target s s' hs).bind fun first first' hfirst => ?_
  refine (Matches.afterEach rfl (hg.target s s' hs)).bind fun rest rest' hrest => ?_
  refine Matches.expect.bind fun _ _ _ => ?_
  refine (expressions_matches hg hs).bind fun values values' hvalues => ?_
  refine (Matches.make hstart (R := σ.Alike) fun m m' hm => ?_).bind fun st st' hst => ?_
  · simpa using ⟨hm, ⟨hfirst, hrest⟩, hvalues⟩
  · exact Matches.endLine.bind fun _ _ _ => .pure hst

theorem declaration_matches :
    Matches σ .within .anywhere (g.declaration s) (g'.declaration s') σ.Alike := by
  refine Matches.position.bind fun start start' hstart => ?_
  refine (hg.exprs.types.type s s' hs).bind fun type type' htype => ?_
  refine identifier_matches.bind fun name name' hname => ?_
  refine (Matches.ofExcept (checkAvailable_alike hs hname)).bind fun _ _ _ => ?_
  have hrest : ∀ initialiser initialiser', σ.Alike initialiser initialiser' →
      Matches σ .within .anywhere
        (do
          let st ← make start fun m => Stmt.variable ⟨m, name, type⟩ initialiser
          endLine
          return (st, ← ofExcept (s.declareVariable ⟨st.mark, name, type⟩)))
        (do
          let st ← make start' fun m => Stmt.variable ⟨m, name', type'⟩ initialiser'
          endLine
          return (st, ← ofExcept (s'.declareVariable ⟨st.mark, name', type'⟩))) σ.Alike := by
    intro initialiser initialiser' hinitialiser
    refine (Matches.make hstart (R := σ.Alike) fun m m' hm => ?_).bind fun st st' hst => ?_
    · simpa [Variable.relabel] using ⟨⟨hm, hname, htype⟩, hinitialiser⟩
    refine Matches.endLine.bind fun _ _ _ => ?_
    have hvariable : σ.Alike (Variable.mk st.mark name type) ⟨st'.mark, name', type'⟩ := by
      have hmark := congrArg Stmt.mark hst
      rw [relabel_stmt, relabel_stmt, Stmt.mark_relabel, Stmt.mark_relabel] at hmark
      simpa [Variable.relabel] using ⟨hmark, hname, htype⟩
    refine (Matches.ofExcept (declareVariable_alike hs hvariable)).bind fun t t' ht => .pure ?_
    exact congrArg₂ Prod.mk hst ht
  refine (Matches.accept (by decide)).bind fun o o' ho => ?_
  cases ho with
  | none => exact (Matches.pure (R := σ.Alike) rfl).bind hrest
  | some _ =>
    refine Matches.bind (R := σ.Alike) (O := .within) ?_ hrest
    exact (expression_matches hg hs).bind fun e e' he => .pure (congrArg some he)

theorem unlabelled_matches :
    Matches σ .within .anywhere (g.unlabelled s) (g'.unlabelled s') σ.Alike := by
  refine Matches.position.bind fun start start' hstart => ?_
  have hdeclaration : Matches σ .within .anywhere (do moveTo start; g.declaration s)
      (do moveTo start'; g'.declaration s') σ.Alike :=
    (Matches.moveTo hstart).bind fun _ _ _ => declaration_matches hg hs
  refine (forcedType_matches hg.exprs.types hs).bind fun o o' ho => ?_
  cases ho with
  | some _ => exact hdeclaration
  | none =>
    refine (expression_matches hg hs).bind fun e e' he => ?_
    have hcall : e.isInvocation = e'.isInvocation := by
      have he' : e.relabel σ.lhs = e'.relabel σ.rhs := he
      rw [← Expr.isInvocation_relabel σ.lhs e, he', Expr.isInvocation_relabel]
    rw [hcall]
    split
    · refine Matches.endLine.bind fun _ _ _ => .pure ?_
      simpa using ⟨he, hs⟩
    · refine (Matches.accept (by decide)).bind fun o o' ho => ?_
      cases ho with
      | none => exact hdeclaration
      | some _ =>
        refine (Matches.moveTo hstart).bind fun _ _ _ => ?_
        exact (assign_matches hg hs).bind fun st st' hst => .pure (congrArg₂ Prod.mk hst hs)

theorem headless_matches :
    Matches σ .within .anywhere (g.headless s) (g'.headless s') σ.Alike := by
  refine Matches.position.bind fun start start' hstart => ?_
  refine optionalIdentifier_matches.bind fun o o' ho => ?_
  cases ho with
  | none => exact unlabelled_matches hg hs
  | some hname =>
    refine (Matches.accept (by decide)).bind fun colon colon' hcolon => ?_
    refine Matches.atLineEnd.bind fun atEnd _ h => ?_
    obtain rfl := h
    have hsome : colon.isSome = colon'.isSome := by cases hcolon <;> rfl
    rw [hsome]
    split
    · refine Matches.endLine.bind fun _ _ _ => ?_
      refine (Matches.ofExcept (declareLifetime_alike hs hname)).bind fun inner inner' hinner => ?_
      rw [inLoop_alike hs]
      refine (hg.block inner inner' s'.inLoop hinner).bind fun body body' hbody => ?_
      refine (Matches.make hstart (R := σ.Alike) fun m m' hm => ?_).bind fun st st' hst => .pure ?_
      · simpa using ⟨hm, hname, hbody⟩
      · exact congrArg₂ Prod.mk hst hs
    · exact (Matches.moveTo hstart).bind fun _ _ _ => unlabelled_matches hg hs

omit hg in
theorem keeping_matches {p p' : Parser Stmt} (hp : Matches σ P .anywhere p p' σ.Alike) :
    Matches σ P .anywhere (keeping s p) (keeping s' p') σ.Alike :=
  hp.bind fun _ _ hst => .pure (congrArg₂ Prod.mk hst hs)

theorem statement_matches : Matches σ P .anywhere (g.statement s) (g'.statement s') σ.Alike := by
  refine Matches.current.bind fun t t' ht => ?_
  rw [← ht.kind]
  split
  · exact keeping_matches hs (condition_matches hg hs fun _ _ _ _ hm he => by simpa using ⟨hm, he⟩)
  · exact keeping_matches hs (condition_matches hg hs fun _ _ _ _ hm he => by simpa using ⟨hm, he⟩)
  · exact keeping_matches hs (loopOnly_matches hs fun _ _ hm => by simpa using hm)
  · exact keeping_matches hs (loopOnly_matches hs fun _ _ hm => by simpa using hm)
  · exact keeping_matches hs (doLoop_matches hg hs)
  · exact keeping_matches hs (condition_matches hg hs fun _ _ _ _ hm he => by simpa using ⟨hm, he⟩)
  · exact keeping_matches hs (simple_matches fun _ _ hm => by simpa using hm)
  · exact keeping_matches hs (ifThen_matches hg hs)
  · exact keeping_matches hs (returns_matches hg hs)
  · exact keeping_matches hs (whileLoop_matches hg hs)
  · exact keeping_matches hs (simple_matches fun _ _ hm => by simpa using hm)
  · exact keeping_matches hs (switch_matches hg hs)
  · exact headless_matches hg hs

theorem statements_matches {indent : Indent} :
    Matches σ .anywhere .anywhere (g.statements indent s) (g'.statements indent s') σ.Alike := by
  refine (aligned_matches σ.Alike ?_ fun x x' hx => ?_).bind fun x x' hx => .pure ?_
  · simpa using hs
  · obtain ⟨hfound, hinner⟩ := Prod.mk.inj hx
    refine (statement_matches hg hinner).bind fun y y' hy => .pure ?_
    obtain ⟨hst, hnext⟩ := Prod.mk.inj hy
    simpa using ⟨⟨hst, hfound⟩, hnext⟩
  · obtain ⟨hfound, -⟩ := Prod.mk.inj hx
    simpa using hfound

theorem blockOf_matches {inLoop : Bool} :
    Matches σ .anywhere .anywhere (g.blockOf s inLoop) (g'.blockOf s' inLoop) σ.Alike := by
  refine Matches.position.bind fun start start' hstart => ?_
  refine (deeperIndent_matches hs).bind fun indent _ h => ?_
  obtain rfl := h
  cases indent with
  | none => exact .make hstart fun m m' hm => by simpa using hm
  | some indent =>
    have hinner := looping_alike (deeper_alike hs indent) inLoop
    refine (statements_matches hg hinner).bind fun sts sts' hsts => ?_
    exact .make hstart fun m m' hm => by simpa using ⟨hm, hsts⟩

end Rules

theorem next_agree {g g' : StmtParsers} (hg : g.Agree σ g') : g.next.Agree σ g'.next where
  exprs := hg.exprs
  target := hg.target
  block _ _ _ hs := blockOf_matches hg hs
  ifElse _ _ hs := ifThen_matches hg hs

theorem ofDepth_agree {exprs exprs' : ExprParsers} {target target' : TargetParser}
    (hexprs : exprs.Agree σ exprs')
    (htarget : ∀ s s', σ.Alike s s' → Matches σ .within .within (target s) (target' s') σ.Alike)
    {d d' : Nat} (hd : d = d' ∨ σ.uneven) :
    (ofDepth exprs target d).Agree σ (ofDepth exprs' target' d') := by
  refine depths_induction (C := fun d d' =>
    (ofDepth exprs target d).Agree σ (ofDepth exprs' target' d')) hd ?_ ?_ ?_ ?_
  · exact ⟨hexprs, htarget, fun _ _ _ _ => .fail rfl, fun _ _ _ => .fail rfl⟩
  · exact fun h _ =>
      ⟨hexprs, htarget, fun _ _ _ _ => .exhausted_left h, fun _ _ _ => .exhausted_left h⟩
  · exact fun h _ =>
      ⟨hexprs, htarget, fun _ _ _ _ => .exhausted_right h, fun _ _ _ => .exhausted_right h⟩
  · intro d d' ih
    rw [ofDepth_succ, ofDepth_succ]
    exact next_agree ih

end StmtParsers

end Whiley.Grammar
