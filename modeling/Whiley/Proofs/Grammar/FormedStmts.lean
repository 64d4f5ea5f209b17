import Whiley.Proofs.Grammar.FormedExprs

namespace Whiley

def Stmt.FormedKeeping (a : Arena Node) (s : Scope) (st : Stmt) : Prop :=
  st.Formed a s ∧ st.after s = s

def Stmt.FormedThen (a : Arena Node) (s : Scope) (x : Stmt × Scope) : Prop :=
  x.1.Formed a s ∧ x.2 = x.1.after s

def Stmt.scopeAfter (s : Scope) (sts : List Stmt) : Scope :=
  sts.foldl Stmt.after s

theorem Stmt.sequenceFormed_append {a : Arena Node} {s : Scope} {sts sts' : List Stmt} :
    Stmt.SequenceFormed a s (sts ++ sts') ↔
      Stmt.SequenceFormed a s sts ∧ Stmt.SequenceFormed a (Stmt.scopeAfter s sts) sts' := by
  induction sts generalizing s with
  | nil => simp [Stmt.SequenceFormed, Stmt.scopeAfter]
  | cons st sts ih => simp [Stmt.SequenceFormed, ih, Stmt.scopeAfter, and_assoc]

theorem Case.allFormed_iff {a : Arena Node} {s : Scope} {cs : List Case} :
    Case.AllFormed a s cs ↔
      ∀ c ∈ cs, (∀ e ∈ c.conditions, e.Formed a s) ∧ c.body.Formed a s s.inLoop := by
  induction cs with
  | nil => simp [Case.AllFormed]
  | cons c cs ih =>
    obtain ⟨m, conditions, body⟩ := c
    simp [Case.AllFormed, Case.conditions, Case.body, ih, and_assoc]

namespace Grammar

open Whiley.Parser

variable {r : Run} {s : Scope}

structure StmtParsers.Sound (r : Run) (g : StmtParsers) : Prop where
  exprs : g.exprs.Sound r
  target : ∀ s, Ensures r (g.target s) (·.FormedTarget r.arena s)
  block : ∀ s inLoop, Ensures r (g.block s inLoop) (·.Formed r.arena s inLoop)
  ifElse : ∀ s, Ensures r (g.ifElse s) (·.Formed r.arena s)

theorem clauses_ensures {g : ExprParsers} (hg : g.Sound r) {keyword : Kind} :
    Ensures r (clauses g keyword s) fun es => ∀ e ∈ es, e.Formed r.arena s :=
  Ensures.afterEach (ExprParsers.expression_ensures hg)

theorem aligned_ensures {σ : Type} {indent : Indent} {item : σ → Parser σ} {x : σ} (I : σ → Prop)
    (hx : I x) (hitem : ∀ x, I x → Ensures r (item x) I) : Ensures r (aligned indent item x) I := by
  refine Ensures.foldWhile I hx fun x hx => Ensures.lineStart.bind fun line _ => ?_
  cases line with
  | none => exact .pure nofun
  | some line =>
    dsimp only
    split
    · exact .pure nofun
    · split
      · exact (hitem x hx).found
      · exact .reject

theorem deeperIndent_ensures : Ensures r (deeperIndent s) fun _ => True := by
  refine Ensures.lineIndent.bind fun i _ => ?_
  cases i with
  | none => exact .pure trivial
  | some i =>
    dsimp only
    split <;> exact .pure trivial

theorem checkCases_ok {cases : List Case} {u : Unit} (h : checkCases cases = .ok u) :
    ∀ c ∈ cases.dropLast, ¬ c.isDefault := by
  fun_induction checkCases cases with
  | case1 => cases h
  | case2 c next rest hc ih =>
    intro d hd
    rw [List.dropLast_cons_cons] at hd
    rcases List.mem_cons.mp hd with rfl | hd
    · exact hc
    · exact ih h d hd
  | case3 cases hshort =>
    intro d hd
    rcases cases with _ | ⟨c, _ | ⟨next, rest⟩⟩
    · cases hd
    · cases hd
    · exact absurd rfl (hshort c next rest)

namespace StmtParsers

variable {g : StmtParsers}

theorem expression_ensures (hg : g.Sound r) {lines : Bool} :
    Ensures r (g.expression s lines) (Expr.Formed r.arena s) :=
  ExprParsers.expression_ensures hg.exprs

theorem expressions_ensures (hg : g.Sound r) :
    Ensures r (g.expressions s) fun es => es ≠ [] ∧ ∀ e ∈ es, e.Formed r.arena s := by
  refine (expression_ensures hg).bind fun first hfirst => ?_
  refine (Ensures.afterEach (expression_ensures hg)).bind fun rest hrest => .pure ⟨by simp, ?_⟩
  exact List.forall_mem_cons.mpr ⟨hfirst, hrest⟩

theorem condition_ensures (hg : g.Sound r) {keyword : Kind} {build : Mark → Expr → Stmt}
    (hbuild : ∀ m e, e.Formed r.arena s → Stmt.FormedKeeping r.arena s (build m e)) :
    Ensures r (g.condition keyword build s) (Stmt.FormedKeeping r.arena s) := by
  refine Ensures.position.bind fun start _ => Ensures.expect.bind fun _ _ => ?_
  refine (expression_ensures hg).bind fun e he => ?_
  refine (Ensures.make fun m _ => by exact hbuild m e he).bind fun st hst => ?_
  exact Ensures.endLine.bind fun _ _ => .pure hst

theorem simple_ensures {build : Mark → Stmt} {Q : Stmt → Prop} (hbuild : ∀ m, Q (build m)) :
    Ensures r (simple build) Q := by
  refine Ensures.position.bind fun start _ => Ensures.advance.bind fun _ _ => ?_
  refine (Ensures.make fun m _ => by exact hbuild m).bind fun st hst => ?_
  exact Ensures.endLine.bind fun _ _ => .pure hst

theorem loopOnly_ensures {build : Mark → Stmt} {fault : SyntaxFault}
    (hbuild : ∀ m, s.inLoop → Stmt.FormedKeeping r.arena s (build m)) :
    Ensures r (loopOnly build fault s) (Stmt.FormedKeeping r.arena s) := by
  refine Ensures.current.bind fun t _ => ?_
  refine (simple_ensures (Q := fun st => s.inLoop → Stmt.FormedKeeping r.arena s st) hbuild).bind
    fun st hst => ?_
  split
  · rename_i hloop
    exact .pure (hst hloop)
  · exact .reject

theorem returns_ensures (hg : g.Sound r) :
    Ensures r (g.returns s) (Stmt.FormedKeeping r.arena s) := by
  refine Ensures.position.bind fun start _ => Ensures.expect.bind fun _ _ => ?_
  have hrest {values : List Expr} (hvalues : ∀ v ∈ values, v.Formed r.arena s) : Ensures r (do
      let st ← make start (Stmt.return · values)
      endLine
      return st) (Stmt.FormedKeeping r.arena s) := by
    refine (Ensures.make (Q := Stmt.FormedKeeping r.arena s) fun _ _ => by
      exact ⟨hvalues, rfl⟩).bind fun st hst => ?_
    exact Ensures.endLine.bind fun _ _ => .pure hst
  refine Ensures.atLineEnd.bind fun atEnd _ => ?_
  dsimp only
  split
  · exact (Ensures.pure (by simp)).bind fun values hvalues => hrest hvalues
  · exact (expressions_ensures hg).bind fun values hvalues => hrest hvalues.2

theorem headerEnd_ensures : Ensures r headerEnd fun _ => True :=
  Ensures.expect.bind fun _ _ => Ensures.endLine

theorem doLoop_ensures (hg : g.Sound r) :
    Ensures r (g.doLoop s) (Stmt.FormedKeeping r.arena s) := by
  refine Ensures.position.bind fun start _ => Ensures.expect.bind fun _ _ => ?_
  refine headerEnd_ensures.bind fun _ _ => (hg.block s true).bind fun body hbody => ?_
  refine Ensures.expect.bind fun _ _ => (expression_ensures hg).bind fun condition hcondition => ?_
  refine (clauses_ensures hg.exprs).bind fun invariants hinvariants => ?_
  refine (Ensures.make (Q := Stmt.FormedKeeping r.arena s) fun _ _ => by
    exact ⟨⟨hcondition, hinvariants, hbody⟩, rfl⟩).bind fun st hst => ?_
  exact Ensures.endLine.bind fun _ _ => .pure hst

theorem whileLoop_ensures (hg : g.Sound r) :
    Ensures r (g.whileLoop s) (Stmt.FormedKeeping r.arena s) := by
  refine Ensures.position.bind fun start _ => Ensures.expect.bind fun _ _ => ?_
  refine (expression_ensures hg).bind fun condition hcondition => ?_
  refine (clauses_ensures hg.exprs).bind fun invariants hinvariants => ?_
  refine headerEnd_ensures.bind fun _ _ => (hg.block s true).bind fun body hbody => ?_
  exact .make fun _ _ => ⟨⟨hcondition, hinvariants, hbody⟩, rfl⟩

theorem elseBranch_ensures (hg : g.Sound r) :
    Ensures r (g.elseBranch s) (·.Formed r.arena s s.inLoop) := by
  refine Ensures.position.bind fun start _ => Ensures.ahead.bind fun chains _ => ?_
  split
  · refine (hg.ifElse s).bind fun chained hchained => .make fun _ _ => ?_
    exact ⟨s.indent, hchained, trivial⟩
  · exact headerEnd_ensures.bind fun _ _ => hg.block s s.inLoop

theorem ifThen_ensures (hg : g.Sound r) :
    Ensures r (g.ifThen s) (Stmt.FormedKeeping r.arena s) := by
  refine Ensures.position.bind fun start _ => Ensures.expect.bind fun _ _ => ?_
  refine (expression_ensures hg).bind fun condition hcondition => ?_
  refine headerEnd_ensures.bind fun _ _ => ?_
  refine (hg.block s s.inLoop).bind fun trueBranch htrue => ?_
  refine Ensures.acceptAtIndent.bind fun found _ => ?_
  cases found with
  | none => exact .make fun _ _ => ⟨⟨hcondition, htrue, trivial⟩, rfl⟩
  | some _ =>
    refine (elseBranch_ensures hg).bind fun falseBranch hfalse => .make fun _ _ => ?_
    exact ⟨⟨hcondition, htrue, hfalse⟩, rfl⟩

theorem case_ensures (hg : g.Sound r) : Ensures r (g.case s)
    fun c => (∀ e ∈ c.conditions, e.Formed r.arena s) ∧ c.body.Formed r.arena s s.inLoop := by
  refine Ensures.position.bind fun start _ => ?_
  have hrest {conditions : List Expr} (hconditions : ∀ e ∈ conditions, e.Formed r.arena s) :
      Ensures r (do
        headerEnd
        let body ← g.block s s.inLoop
        make start (Case.mk · conditions body))
        fun c => (∀ e ∈ c.conditions, e.Formed r.arena s) ∧ c.body.Formed r.arena s s.inLoop := by
    refine headerEnd_ensures.bind fun _ _ => ?_
    exact (hg.block s s.inLoop).bind fun body hbody => .make fun _ _ => ⟨hconditions, hbody⟩
  refine Ensures.accept.bind fun default _ => ?_
  cases default with
  | some _ => exact (Ensures.pure (by simp)).bind fun conditions h => hrest h
  | none =>
    refine Ensures.expect.bind fun _ _ => (expression_ensures hg).bind fun first hfirst => ?_
    refine (Ensures.afterEach (expression_ensures hg)).bind fun rest hafter => ?_
    exact (Ensures.pure (List.forall_mem_cons.mpr ⟨hfirst, hafter⟩)).bind fun conditions h => hrest h

theorem cases_ensures (hg : g.Sound r) : Ensures r (g.cases s) fun cases =>
    (∀ c ∈ cases.dropLast, ¬ c.isDefault) ∧ ∃ i, Case.AllFormed r.arena (s.deeper i) cases := by
  refine deeperIndent_ensures.bind fun indent _ => ?_
  cases indent with
  | none => exact .pure ⟨by simp, s.indent, trivial⟩
  | some indent =>
    refine (aligned_ensures (fun found => Case.AllFormed r.arena (s.deeper indent) found.reverse)
      (by exact trivial) fun found hfound => ?_).bind fun found hfound => ?_
    · refine (case_ensures hg).bind fun c hc => .pure ?_
      rw [Case.allFormed_iff] at hfound ⊢
      intro d hd
      rw [List.mem_reverse] at hd
      rcases List.mem_cons.mp hd with rfl | hd
      · exact hc
      · exact hfound d (List.mem_reverse.mpr hd)
    · refine (Ensures.ofExcept fun _ h => checkCases_ok h).bind fun _ hdefault => .pure ?_
      exact ⟨hdefault, indent, hfound⟩

theorem switch_ensures (hg : g.Sound r) :
    Ensures r (g.switch s) (Stmt.FormedKeeping r.arena s) := by
  refine Ensures.position.bind fun start _ => Ensures.expect.bind fun _ _ => ?_
  refine (expression_ensures hg).bind fun condition hcondition => ?_
  refine headerEnd_ensures.bind fun _ _ => (cases_ensures hg).bind fun cases hcases => ?_
  exact .make fun _ _ => ⟨⟨hcondition, hcases⟩, rfl⟩

theorem assign_ensures (hg : g.Sound r) :
    Ensures r (g.assign s) (Stmt.FormedKeeping r.arena s) := by
  refine Ensures.position.bind fun start _ => (hg.target s).bind fun first hfirst => ?_
  refine (Ensures.afterEach (hg.target s)).bind fun rest hrest => ?_
  refine Ensures.expect.bind fun _ _ => (expressions_ensures hg).bind fun values hvalues => ?_
  refine (Ensures.make (Q := Stmt.FormedKeeping r.arena s) fun _ _ => ?_).bind fun st hst =>
    Ensures.endLine.bind fun _ _ => .pure hst
  exact ⟨⟨by simp, hvalues.1, List.forall_mem_cons.mpr ⟨hfirst, hrest⟩, hvalues.2⟩, rfl⟩

theorem declaration_ensures (hg : g.Sound r) :
    Ensures r (g.declaration s) (Stmt.FormedThen r.arena s) := by
  refine Ensures.position.bind fun start _ => ?_
  refine (hg.exprs.types.type s).bind fun type htype => ?_
  refine identifier_ensures.bind fun name hname => ?_
  refine (Ensures.ofExcept (Q := fun _ => s.isAvailable name.text) fun _ h =>
    Scope.checkAvailable_ok h).bind fun _ hfree => ?_
  have hrest {initialiser : Option Expr}
      (hinitialiser : ∀ e, initialiser = some e → e.Formed r.arena s) : Ensures r (do
        let st ← make start fun m => Stmt.variable ⟨m, name, type⟩ initialiser
        endLine
        return (st, ← ofExcept (s.declareVariable ⟨st.mark, name, type⟩)))
        (Stmt.FormedThen r.arena s) := by
    refine (Ensures.make (Q := fun st => ∃ m, st = .variable ⟨m, name, type⟩ initialiser ∧
      r.arena.Holds m.index (.variable ⟨m, name, type⟩ initialiser)) fun m hm => by
        exact ⟨m, rfl, hm⟩).bind fun st hst => ?_
    obtain ⟨m, rfl, hstored⟩ := hst
    refine Ensures.endLine.bind fun _ _ => ?_
    refine (Ensures.ofExcept fun s' hs' => (Scope.declareVariable_ok hs').2).bind
      fun s' hs' => .pure ⟨?_, hs'⟩
    exact ⟨hname, htype, hfree, hstored, hinitialiser⟩
  refine Ensures.accept.bind fun assigns _ => ?_
  cases assigns with
  | none => exact (Ensures.pure (by simp)).bind fun initialiser h => hrest h
  | some _ => exact (expression_ensures hg).found.bind fun initialiser h => hrest h

theorem unlabelled_ensures (hg : g.Sound r) :
    Ensures r (g.unlabelled s) (Stmt.FormedThen r.arena s) := by
  refine Ensures.position.bind fun start _ => ?_
  refine (forcedType_ensures hg.exprs.types).bind fun type _ => ?_
  cases type with
  | some _ => exact Ensures.moveTo.bind fun _ _ => declaration_ensures hg
  | none =>
    refine (expression_ensures hg).bind fun e he => ?_
    split
    · rename_i hcall
      exact Ensures.endLine.bind fun _ _ => .pure ⟨⟨hcall, he⟩, rfl⟩
    · refine Ensures.accept.bind fun assigns _ => ?_
      cases assigns with
      | none => exact Ensures.moveTo.bind fun _ _ => declaration_ensures hg
      | some _ =>
        refine Ensures.moveTo.bind fun _ _ => (assign_ensures hg).bind fun st hst => .pure ?_
        exact ⟨hst.1, hst.2.symm⟩

theorem headless_ensures (hg : g.Sound r) :
    Ensures r (g.headless s) (Stmt.FormedThen r.arena s) := by
  refine Ensures.position.bind fun start _ => ?_
  refine optionalIdentifier_ensures.bind fun found hfound => ?_
  cases found with
  | none => exact unlabelled_ensures hg
  | some name =>
    refine Ensures.accept.bind fun colon _ => Ensures.atLineEnd.bind fun atEnd _ => ?_
    split
    · refine Ensures.endLine.bind fun _ _ => ?_
      refine (Ensures.ofExcept fun s' hs' => Scope.declareLifetime_ok hs').bind fun inner hinner => ?_
      obtain ⟨hfree, rfl⟩ := hinner
      refine (hg.block (s.addLifetime name) s.inLoop).bind fun body hbody => ?_
      refine (Ensures.make (Q := Stmt.FormedKeeping r.arena s) fun _ _ => by
        exact ⟨⟨hfound name rfl, hfree, hbody⟩, rfl⟩).bind fun st hst => .pure ?_
      exact ⟨hst.1, hst.2.symm⟩
    · exact Ensures.moveTo.bind fun _ _ => unlabelled_ensures hg

theorem keeping_ensures {p : Parser Stmt} (hp : Ensures r p (Stmt.FormedKeeping r.arena s)) :
    Ensures r (keeping s p) (Stmt.FormedThen r.arena s) :=
  hp.bind fun _ hst => .pure ⟨hst.1, hst.2.symm⟩

theorem statement_ensures (hg : g.Sound r) :
    Ensures r (g.statement s) (Stmt.FormedThen r.arena s) := by
  refine Ensures.current.bind fun t _ => ?_
  split
  · exact keeping_ensures (condition_ensures hg fun _ _ he => ⟨he, rfl⟩)
  · exact keeping_ensures (condition_ensures hg fun _ _ he => ⟨he, rfl⟩)
  · exact keeping_ensures (loopOnly_ensures fun _ hloop => ⟨hloop, rfl⟩)
  · exact keeping_ensures (loopOnly_ensures fun _ hloop => ⟨hloop, rfl⟩)
  · exact keeping_ensures (doLoop_ensures hg)
  · exact keeping_ensures (condition_ensures hg fun _ _ he => ⟨he, rfl⟩)
  · exact keeping_ensures (simple_ensures fun _ => ⟨trivial, rfl⟩)
  · exact keeping_ensures (ifThen_ensures hg)
  · exact keeping_ensures (returns_ensures hg)
  · exact keeping_ensures (whileLoop_ensures hg)
  · exact keeping_ensures (simple_ensures fun _ => ⟨trivial, rfl⟩)
  · exact keeping_ensures (switch_ensures hg)
  · exact headless_ensures hg

theorem statements_ensures (hg : g.Sound r) {indent : Indent} :
    Ensures r (g.statements indent s) (Stmt.SequenceFormed r.arena s) := by
  refine (aligned_ensures (fun x => Stmt.SequenceFormed r.arena s x.1.reverse ∧
    x.2 = Stmt.scopeAfter s x.1.reverse) (by exact ⟨trivial, rfl⟩) fun x hx => ?_).bind
      fun x hx => .pure hx.1
  obtain ⟨found, inner⟩ := x
  obtain ⟨hfound, hinner⟩ := hx
  obtain rfl : inner = Stmt.scopeAfter s found.reverse := hinner
  refine (statement_ensures hg).bind fun y hy => .pure ?_
  obtain ⟨hst, hnext⟩ := hy
  simp only [List.reverse_cons, Stmt.sequenceFormed_append]
  exact ⟨⟨hfound, hst, trivial⟩, by simp [hnext, Stmt.scopeAfter]⟩

theorem blockOf_ensures (hg : g.Sound r) {inLoop : Bool} :
    Ensures r (g.blockOf s inLoop) (·.Formed r.arena s inLoop) := by
  refine Ensures.position.bind fun start _ => deeperIndent_ensures.bind fun indent _ => ?_
  cases indent with
  | none => exact .make fun _ _ => ⟨s.indent, trivial⟩
  | some indent =>
    exact (statements_ensures hg).bind fun sts hsts => .make fun _ _ => ⟨indent, hsts⟩

theorem next_sound (hg : g.Sound r) : g.next.Sound r where
  exprs := hg.exprs
  target := hg.target
  block _ _ := blockOf_ensures hg
  ifElse _ := (ifThen_ensures hg).mono fun _ h => h.1

theorem ofDepth_sound {exprs : ExprParsers} {target : TargetParser} (hexprs : exprs.Sound r)
    (htarget : ∀ s, Ensures r (target s) (·.FormedTarget r.arena s)) (depth : Nat) :
    (ofDepth exprs target depth).Sound r := by
  induction depth with
  | zero => exact ⟨hexprs, htarget, fun _ _ => .exhausted, fun _ => .exhausted⟩
  | succ depth ih =>
    rw [ofDepth_succ]
    exact next_sound ih

end StmtParsers

end Grammar

end Whiley
