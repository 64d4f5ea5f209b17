import Whiley.Proofs.Grammar.StoresExprs

namespace Whiley.Grammar

open Whiley.Parser

variable {w : Whole} {n : Nat} {s : Scope}

theorem clauses_stores {g : ExprParsers} (hg : g.Storing w) {keyword : Kind} (hs : w.Knows n s) :
    Stores w n (clauses g keyword s) :=
  .afterEach fun _ _ => ExprParsers.expression_stores hg (hs.mono (by omega))

theorem aligned_stores {σ : Type} [Known σ] {indent : Indent} {item : σ → Parser σ} {x : σ}
    (hx : w.Knows n x) (hitem : ∀ x m, n ≤ m → w.Knows m x → Stores w m (item x)) :
    Stores w n (aligned indent item x) := by
  refine Yields.foldWhile hx fun x m hm hx => Yields.lineStart.bind fun o k hk _ => ?_
  split
  · exact .known .none
  · split
    · exact .known .none
    · split
      · exact (hitem x k (by omega) (hx.mono (by omega))).bind fun y _ _ hy => .known (.some hy)
      · exact .reject

theorem deeperIndent_keeps : Keeps w n (deeperIndent s) := by
  refine Yields.lineIndent.bind fun o m hm _ => ?_
  cases o with
  | none => exact .kept
  | some i =>
    dsimp only
    split <;> exact .kept

namespace StmtParsers

structure Storing (w : Whole) (g : StmtParsers) : Prop where
  exprs : g.exprs.Storing w
  target : ∀ {n s}, w.Knows n s → Stores w n (g.target s)
  block : ∀ {n s inLoop}, w.Knows n s → Stores w n (g.block s inLoop)
  ifElse : ∀ {n s}, w.Knows n s → Stores w n (g.ifElse s)

theorem simple_stores {build : Mark → Stmt} {label : String}
    (hbuild : ∀ m, (ToNode.toNode (build m)).outline = .node label m []) : Stores w n
      (simple build) := by
  refine Yields.position.bind fun start m hm _ => Yields.advance.bind fun _ m hm _ => ?_
  refine Yields.bind (.make hbuild (fun _ => trivial)) fun stmt m hm hstmt => ?_
  exact Yields.endLine.bind fun _ _ _ _ => .known (hstmt.mono (by omega))

theorem loopOnly_stores {build : Mark → Stmt} {label : String} {fault : SyntaxFault}
    (hbuild : ∀ m, (ToNode.toNode (build m)).outline = .node label m []) : Stores w n
      (loopOnly build fault s) := by
  refine Yields.current.bind fun t m hm _ => (simple_stores hbuild).bind fun stmt m hm hstmt => ?_
  split
  · exact .known hstmt
  · exact .reject

theorem headerEnd_keeps : Keeps w n headerEnd :=
  Yields.expect.bind fun _ _ _ _ => .endLine

section Rules

variable {g : StmtParsers} (hg : g.Storing w) (hs : w.Knows n s)

include hg hs

theorem expression_stores {lines : Bool} : Stores w n (g.expression s lines) :=
  hg.exprs.level hs

theorem expressions_stores : Stores w n (g.expressions s) := by
  refine (expression_stores hg hs).bind fun first m hm hfirst => ?_
  refine (Yields.afterEach fun _ _ => expression_stores hg (hs.mono (by omega))).bind
    fun rest m hm hrest => ?_
  exact .known (.cons (hfirst.mono (by omega)) hrest)

theorem condition_stores {keyword : Kind} {build : Mark → Expr → Stmt} {label name : String}
    (hbuild : ∀ m e, (ToNode.toNode (build m e)).outline =
      .node label m [.mk name (.child e.outline)]) : Stores w n (g.condition keyword build s) := by
  refine Yields.position.bind fun start m hm _ => Yields.expect.bind fun _ m hm _ => ?_
  refine (expression_stores hg (hs.mono (by omega))).bind fun e m hm he => ?_
  refine Yields.bind (.make (fun m => hbuild m e) (fun _ => ⟨he, trivial⟩))
    fun stmt m hm hstmt => ?_
  exact Yields.endLine.bind fun _ _ _ _ => .known (hstmt.mono (by omega))

theorem returns_stores : Stores w n (g.returns s) := by
  refine Yields.position.bind fun start m hm _ => Yields.expect.bind fun _ m hm _ => ?_
  refine Yields.atLineEnd.bind fun b m hm _ => ?_
  have hrest : ∀ {k es}, w.Knows k es → Stores w k (do
      let s ← make start (Stmt.return · es)
      endLine
      return s) := by
    intro k es hes
    refine Yields.bind (.make (fun _ => rfl) fun _ => ⟨hes.outlines rfl, trivial⟩)
      fun stmt m hm hstmt => ?_
    exact Yields.endLine.bind fun _ _ _ _ => .known (hstmt.mono (by omega))
  split
  · exact (Yields.known .nil).bind fun es _ _ hes => hrest hes
  · exact (expressions_stores hg (hs.mono (by omega))).bind fun es _ _ hes => hrest hes

theorem doLoop_stores : Stores w n (g.doLoop s) := by
  refine Yields.position.bind fun start m hm _ => Yields.expect.bind fun _ m hm _ => ?_
  refine headerEnd_keeps.bind fun _ m hm _ => (hg.block (hs.mono (by omega))).bind
    fun body m hm hbody => ?_
  refine Yields.expect.bind fun _ m hm _ => ?_
  refine (expression_stores hg (hs.mono (by omega))).bind fun condition m hm hcondition => ?_
  refine (clauses_stores hg.exprs (hs.mono (by omega))).bind fun invariants m hm hinvariants => ?_
  refine Yields.bind (.make (fun _ => rfl) fun _ =>
    ⟨hcondition.mono (by omega), hinvariants.outlines rfl, hbody.mono (by omega), trivial⟩)
      fun stmt m hm hstmt => ?_
  exact Yields.endLine.bind fun _ _ _ _ => .known (hstmt.mono (by omega))

theorem whileLoop_stores : Stores w n (g.whileLoop s) := by
  refine Yields.position.bind fun start m hm _ => Yields.expect.bind fun _ m hm _ => ?_
  refine (expression_stores hg (hs.mono (by omega))).bind fun condition m hm hcondition => ?_
  refine (clauses_stores hg.exprs (hs.mono (by omega))).bind fun invariants m hm hinvariants => ?_
  refine headerEnd_keeps.bind fun _ m hm _ => (hg.block (hs.mono (by omega))).bind
    fun body m hm hbody => ?_
  have hinvariants' : w.Knows m invariants := hinvariants.mono (by omega)
  exact .make (fun _ => rfl) fun _ =>
    ⟨hcondition.mono (by omega), hinvariants'.outlines rfl, hbody, trivial⟩

theorem elseBranch_stores : Stores w n (g.elseBranch s) := by
  refine Yields.position.bind fun start m hm _ => Yields.ahead.bind fun b m hm _ => ?_
  split
  · refine (hg.ifElse (hs.mono (by omega))).bind fun chained m hm hchained => ?_
    have hall : w.Knows m [chained] := .cons hchained .nil
    exact .make (fun _ => rfl) fun _ => ⟨hall.outlines (Stmt.outlines_eq _), trivial⟩
  · exact headerEnd_keeps.bind fun _ _ _ _ => hg.block (hs.mono (by omega))

theorem ifThen_stores : Stores w n (g.ifThen s) := by
  refine Yields.position.bind fun start m hm _ => Yields.expect.bind fun _ m hm _ => ?_
  refine (expression_stores hg (hs.mono (by omega))).bind fun condition m hm hcondition => ?_
  refine headerEnd_keeps.bind fun _ m hm _ => (hg.block (hs.mono (by omega))).bind
    fun branch m hm hbranch => ?_
  refine Yields.acceptAtIndent.bind fun o m hm _ => ?_
  cases o with
  | some _ =>
    refine (elseBranch_stores hg (hs.mono (by omega))).bind fun other m hm hother => ?_
    exact .make (fun _ => rfl) fun _ =>
      ⟨hcondition.mono (by omega), hbranch.mono (by omega), hother, trivial⟩
  | none =>
    exact .make (fun _ => rfl) fun _ =>
      ⟨hcondition.mono (by omega), hbranch.mono (by omega), trivial, trivial⟩

theorem case_stores : Stores w n (g.case s) := by
  refine Yields.position.bind fun start m hm _ => Yields.accept.bind fun o m hm _ => ?_
  have hrest : ∀ {k es}, m ≤ k → w.Knows k es → Stores w k (do
      headerEnd
      let body ← g.block s s.inLoop
      make start (Case.mk · es body)) := by
    intro k es hk hes
    refine headerEnd_keeps.bind fun _ m hm _ => (hg.block (hs.mono (by omega))).bind
      fun body m hm hbody => ?_
    have hes' : w.Knows m es := hes.mono (by omega)
    exact .make (fun _ => rfl) fun _ => ⟨hes'.outlines rfl, hbody, trivial⟩
  cases o with
  | some _ => exact (Yields.known .nil).bind fun es k hk hes => hrest hk hes
  | none =>
    refine Yields.expect.bind fun _ m hm _ => ?_
    refine (expression_stores hg (hs.mono (by omega))).bind fun first m hm hfirst => ?_
    refine (Yields.afterEach fun _ _ => expression_stores hg (hs.mono (by omega))).bind
      fun rest m hm hrest' => ?_
    have hall : w.Knows m (first :: rest) := .cons (hfirst.mono (by omega)) hrest'
    exact (Yields.known hall).bind fun es k hk hes => hrest (by omega) hes

theorem cases_stores : Stores w n (g.cases s) := by
  refine deeperIndent_keeps.bind fun o m hm _ => ?_
  cases o with
  | none => exact .known .nil
  | some indent =>
    have hinner : w.Knows m (s.deeper indent) := (hs.mono (by omega)).of_locals rfl
    refine Yields.bind (aligned_stores .nil fun found k hk hfound => ?_) fun found m hm hfound => ?_
    · exact (case_stores hg (hinner.mono (by omega))).bind fun c _ _ hc => .known
        (.cons hc (hfound.mono (by omega)))
    · exact (Yields.ofExcept (Q := fun _ _ => True) fun _ _ _ _ => trivial).bind fun _ _ _ _ =>
        .known (hfound.reverse.mono (by omega))

theorem switch_stores : Stores w n (g.switch s) := by
  refine Yields.position.bind fun start m hm _ => Yields.expect.bind fun _ m hm _ => ?_
  refine (expression_stores hg (hs.mono (by omega))).bind fun condition m hm hcondition => ?_
  refine headerEnd_keeps.bind fun _ m hm _ => (cases_stores hg (hs.mono (by omega))).bind
    fun cases m hm hcases => ?_
  exact .make (fun _ => rfl) fun _ =>
    ⟨hcondition.mono (by omega), hcases.outlines (Case.outlines_eq _), trivial⟩

theorem assign_stores : Stores w n (g.assign s) := by
  refine Yields.position.bind fun start m hm _ => (hg.target (hs.mono (by omega))).bind
    fun first m hm hfirst => ?_
  refine (Yields.afterEach fun _ _ => hg.target (hs.mono (by omega))).bind fun rest m hm hrest => ?_
  refine Yields.expect.bind fun _ m hm _ => ?_
  refine (expressions_stores hg (hs.mono (by omega))).bind fun values m hm hvalues => ?_
  have htargets : w.Knows m (first :: rest) := .cons (hfirst.mono (by omega))
    (hrest.mono (by omega))
  refine Yields.bind (.make (fun _ => rfl) fun _ =>
    ⟨htargets.outlines rfl, hvalues.outlines rfl, trivial⟩) fun stmt m hm hstmt => ?_
  exact Yields.endLine.bind fun _ _ _ _ => .known (hstmt.mono (by omega))

theorem declaration_stores : Stores w n (g.declaration s) := by
  refine Yields.position.bind fun start m hm _ => ?_
  refine (hg.exprs.types.type (hs.mono (by omega))).bind fun type m hm htype => ?_
  refine identifier_stores.bind fun name m hm hname => ?_
  refine (Yields.ofExcept (Q := fun _ _ => True) fun _ _ _ _ => trivial).bind fun _ m hm _ => ?_
  have hrest : ∀ {k initialiser}, m ≤ k → w.Knows k initialiser → Stores w k (do
      let t ← make start fun m => Stmt.variable ⟨m, name, type⟩ initialiser
      endLine
      return (t, ← ofExcept (s.declareVariable ⟨t.mark, name, type⟩))) := by
    intro k initialiser hk hinitialiser
    refine (Yields.makeLocal (hname.mono (by omega)) (htype.mono (by omega)) hinitialiser).bind
      fun t k hk ht => ?_
    refine Yields.endLine.bind fun _ j hj _ => ?_
    have hscope : w.Knows j s := hs.mono (by omega)
    have hdeclares : w.Declares j ⟨t.mark, name, type⟩ := ⟨Nat.lt_of_lt_of_le ht.2.1 hj, ht.2.2⟩
    refine (Yields.ofExcept fun s' i hs' hi => (hscope.declareVariable hs' hdeclares).mono hi).bind
      fun s' i hi hs' => .known ⟨ht.1.mono (by omega), hs'⟩
  refine Yields.accept.bind fun o k hk _ => ?_
  cases o with
  | some _ =>
    have hvalue : Stores w k (some <$> g.expression s false) :=
      (expression_stores hg (hs.mono (by omega))).bind fun e _ _ he => .known (.some he)
    exact hvalue.bind fun initialiser j hj h => hrest (by omega) h
  | none => exact (Yields.known .none).bind fun initialiser j hj h => hrest (by omega) h

theorem unlabelled_stores : Stores w n (g.unlabelled s) := by
  refine Yields.position.bind fun start m hm _ => ?_
  refine (forcedType_stores hg.exprs.types (hs.mono (by omega))).bind fun o m hm _ => ?_
  cases o with
  | some _ => exact Yields.moveTo.bind fun _ _ _ _ => declaration_stores hg (hs.mono (by omega))
  | none =>
    refine (expression_stores hg (hs.mono (by omega))).bind fun e m hm he => ?_
    split
    · exact Yields.endLine.bind fun _ _ _ _ => .known ⟨he.mono (by omega), hs.mono (by omega)⟩
    · refine Yields.accept.bind fun o m hm _ => ?_
      cases o with
      | some _ =>
        refine Yields.moveTo.bind fun _ m hm _ => ?_
        exact (assign_stores hg (hs.mono (by omega))).bind fun stmt _ _ hstmt => .known
          ⟨hstmt, hs.mono (by omega)⟩
      | none => exact Yields.moveTo.bind fun _ _ _ _ => declaration_stores hg (hs.mono (by omega))

theorem headless_stores : Stores w n (g.headless s) := by
  refine Yields.position.bind fun start m hm _ => optionalIdentifier_stores.bind fun o m hm ho => ?_
  cases o with
  | none => exact unlabelled_stores hg (hs.mono (by omega))
  | some name =>
    refine Yields.accept.bind fun c m hm _ => Yields.atLineEnd.bind fun b m hm _ => ?_
    split
    · have hscope : w.Knows m s := hs.mono (by omega)
      refine Yields.endLine.bind fun _ j hj _ => ?_
      refine (Yields.ofExcept fun s' k hs' hk => (hscope.declareLifetime hs').mono (by omega)).bind
        fun inner m hm hinner => (hg.block hinner).bind fun body m hm hbody => ?_
      exact Yields.bind
        (.make (fun _ => rfl) fun _ => ⟨(ho name rfl).mono (by omega), hbody, trivial⟩)
        fun stmt _ _ hstmt => .known ⟨hstmt, hs.mono (by omega)⟩
    · exact Yields.moveTo.bind fun _ _ _ _ => unlabelled_stores hg (hs.mono (by omega))

omit hg in
theorem keeping_stores {p : Parser Stmt} (hp : Stores w n p) : Stores w n (keeping s p) :=
  hp.bind fun _ _ _ hstmt => .known ⟨hstmt, hs.mono (by omega)⟩

theorem statement_stores : Stores w n (g.statement s) := by
  refine Yields.current.bind fun t m hm _ => ?_
  have hs' : w.Knows m s := hs.mono (by omega)
  split
  · exact keeping_stores hs' (condition_stores hg hs' fun _ _ => rfl)
  · exact keeping_stores hs' (condition_stores hg hs' fun _ _ => rfl)
  · exact keeping_stores hs' (loopOnly_stores fun _ => rfl)
  · exact keeping_stores hs' (loopOnly_stores fun _ => rfl)
  · exact keeping_stores hs' (doLoop_stores hg hs')
  · exact keeping_stores hs' (condition_stores hg hs' fun _ _ => rfl)
  · exact keeping_stores hs' (simple_stores fun _ => rfl)
  · exact keeping_stores hs' (ifThen_stores hg hs')
  · exact keeping_stores hs' (returns_stores hg hs')
  · exact keeping_stores hs' (whileLoop_stores hg hs')
  · exact keeping_stores hs' (simple_stores fun _ => rfl)
  · exact keeping_stores hs' (switch_stores hg hs')
  · exact headless_stores hg hs'

theorem statements_stores {indent : Indent} : Stores w n (g.statements indent s) := by
  have hstart : w.Knows n (([] : List Stmt), s) := ⟨.nil, hs⟩
  refine Yields.bind (aligned_stores hstart fun x m hm hx => ?_) fun x _ _ hx => .known hx.1.reverse
  exact (statement_stores hg hx.2).bind fun y _ _ hy => .known
    ⟨.cons hy.1 (hx.1.mono (by omega)), hy.2⟩

theorem blockOf_stores {inLoop : Bool} : Stores w n (g.blockOf s inLoop) := by
  refine Yields.position.bind fun start m hm _ => deeperIndent_keeps.bind fun o m hm _ => ?_
  cases o with
  | none => exact .make (fun _ => rfl) fun _ => ⟨nofun, trivial⟩
  | some indent =>
    have hinner : w.Knows m ((s.deeper indent).looping inLoop) := (hs.mono (by omega)).of_locals rfl
    refine (statements_stores hg hinner).bind fun ss m hm hss => ?_
    exact .make (fun _ => rfl) fun _ => ⟨hss.outlines (Stmt.outlines_eq _), trivial⟩

end Rules

theorem ofDepth_storing {exprs : ExprParsers} {target : TargetParser} (he : exprs.Storing w)
    (ht : ∀ {n s}, w.Knows n s → Stores w n (target s)) (depth : Nat) :
    (ofDepth exprs target depth).Storing w := by
  induction depth with
  | zero => exact ⟨he, ht, fun _ => .fail, fun _ => .fail⟩
  | succ depth ih =>
    rw [ofDepth_succ]
    exact ⟨he, ht, fun hs => blockOf_stores ih hs, fun hs => ifThen_stores ih hs⟩

end StmtParsers

end Whiley.Grammar
