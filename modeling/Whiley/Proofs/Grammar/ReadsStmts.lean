import Whiley.Proofs.Grammar.Offside
import Whiley.Proofs.Grammar.ReadsExprs

namespace Whiley

theorem Stmt.mark_outline (st : Stmt) : st.outline.mark = st.mark := by
  cases st with
  | invocation e => exact e.mark_outline
  | _ => rfl

def Stmt.Starts (input : Input) (i : Nat) (st : Stmt) : Prop :=
  st.mark.span.start = input.startAt (input.skip true i) ∨
    ∃ e j, st = .invocation e ∧ input.Enclosed i j e.mark.span

theorem Stmt.Starts.leads {input : Input} {indent : Indent} {i : Nat} {st : Stmt}
    (h : st.Starts input i) (hi : input.Heads indent (input.skip true i)) :
    st.Leads input indent :=
  ⟨_, hi, h.imp id fun ⟨e, j, he, hj⟩ => ⟨e, j, he, hj.afterSkip⟩⟩

theorem Stmt.Starts.unskip {input : Input} {i j : Nat} {st : Stmt} (h : st.Starts input j)
    (hij : input.Skipped true i j) : st.Starts input i := by
  rcases h with hstart | ⟨e, k, he, hk⟩
  · exact .inl (by rw [hstart, hij.skip_eq])
  · exact .inr ⟨e, k, he, hk.unskip hij⟩

/-- The statement is made of tokens from `i` to before `j`, where its last line has ended, and it
keeps the offside rule when it stands on a line of the indent. -/
structure Input.States (input : Input) (indent : Indent) (i j : Nat) (st : Stmt) : Prop where
  le : i ≤ j
  holds : input.Holds i j st
  line : input.AtLine j
  starts : st.Starts input i
  offside : st.Offside input indent

theorem Input.States.unskip {input : Input} {indent : Indent} {i j k : Nat} {st : Stmt}
    (h : input.States indent j k st) (hij : input.Skipped true i j) :
    input.States indent i k st where
  le := Nat.le_trans hij.1 h.le
  holds := h.holds.mono hij.1 (Nat.le_refl k)
  line := h.line
  starts := h.starts.unskip hij
  offside := h.offside

theorem Stmt.passes {input : Input} {i j : Nat} {st : Stmt} (h : input.Holds i j st) :
    input.Passes i j := by
  refine Input.Nests.passes h ?_
  rw [ToNode.outline_stmt]
  exact st.label_ne_block

namespace Grammar

open Whiley.Parser

variable {input : Input} {i j start : Nat} {s : Scope}

theorem clauses_gives {g : ExprParsers} (hg : g.Giving input) {keyword : Kind}
    (hkeyword : keyword.isSpace = false) : Gives input i (clauses g keyword s) :=
  afterEach_gives hkeyword fun _ _ => ExprParsers.expression_gives hg

theorem aligned_reads {σ : Type} {indent : Indent} {item : σ → Parser σ} {x : σ}
    {I : Nat → σ → Prop} (hi : input.AtLine i) (hx : I i x)
    (hlater : ∀ x j k, j ≤ k → I j x → I k x)
    (hitem : ∀ x j, I j x → input.Heads indent (input.skip true j) →
      Reads input j (item x) fun k y => input.AtLine k ∧ I k y) :
    Reads input i (aligned indent item x) fun j y => input.AtLine j ∧ I j y := by
  refine .foldWhile (I := fun j y => input.AtLine j ∧ I j y) ⟨hi, hx⟩ fun x j hx => ?_
  refine (lineStart_reads hx.1).bind fun o k hk ho => ?_
  have hx' := hlater x j k hk hx.2
  cases o with
  | none => exact .pure ⟨ho.1, hx'⟩
  | some y =>
    obtain ⟨ht, hheads⟩ := ho.2
    dsimp only
    split
    · exact .pure ⟨ho.1, hx'⟩
    · split
      · rename_i heq
        exact (hitem x k hx' (heq ▸ hheads)).bind fun z l hz => .pure hz
      -- a deeper line is refused, and so is one whose tabs and spaces do not compare
      · exact .reject (input.marks_token ht)

theorem deeperIndent_reads (hi : input.AtLine i) : Goes input i (deeperIndent s) fun j o =>
    input.AtLine j ∧ ∀ inner ∈ o, s.indent < inner := by
  refine (lineIndent_reads hi).bind fun o j hj ho => ?_
  cases o with
  | none => exact .pure ⟨hj, ho.1, fun _ h => by cases h⟩
  | some indent =>
    dsimp only
    split
    · rename_i hlt
      refine .pure ⟨hj, ho.1, fun inner hinner => ?_⟩
      obtain rfl := Option.some.inj hinner
      exact hlt
    · exact .pure ⟨hj, ho.1, fun _ h => by cases h⟩

theorem checkCases_error {cs : List Case} {e : SyntaxError} (h : checkCases cs = .error e) :
    ∃ c ∈ cs, e.span = c.mark.span := by
  induction cs with
  | nil => cases h
  | cons c cs ih =>
    cases cs with
    | nil => cases h
    | cons next rest =>
      rw [checkCases] at h
      split at h
      · exact ⟨next, by simp, by rw [← Except.error.inj h]⟩
      · obtain ⟨c', hc', hspan⟩ := ih h
        exact ⟨c', List.mem_cons_of_mem c hc', hspan⟩

theorem case_marks {c : Case} (h : input.Holds i j c) : input.Marks c.mark.span := by
  obtain ⟨m, conditions, body⟩ := c
  exact Input.Nests.marks h (by simp [ToNode.toNode, Node.outline, Case.outline, Outline.label])

theorem checkCases_reads {k : Nat} {cs : List Case} (hcs : input.Holds i j cs) :
    Stays input k (ofExcept (checkCases cs)) fun _ => True := by
  refine .ofExcept (fun _ _ => trivial) fun e he => ?_
  obtain ⟨c, hc, hspan⟩ := checkCases_error he
  rw [hspan]
  exact case_marks (hcs c hc)

namespace StmtParsers

structure Giving (input : Input) (g : StmtParsers) : Prop where
  exprs : g.exprs.Giving input
  target : ∀ {i s}, Gives input i (g.target s)
  block : ∀ {i s inLoop}, input.AtLine i → Goes input i (g.block s inLoop) fun j b =>
    input.Holds i j b ∧ input.AtLine j ∧ b.Offside input s.indent
  ifElse : ∀ {i s}, Reads input i (g.ifElse s) fun j st =>
    input.States s.indent i j st ∧ ∃ m condition trueBranch falseBranch,
      st = .ifElse m condition trueBranch falseBranch ∧
        m.span.start = input.startAt (input.skip true i)

section Made

variable {build : Mark → Stmt} {label : String} {es : Mark → List Entry} {indent : Indent}

theorem states_made {m : Mark} (hpasses : input.Passes start i)
    (hbuild : (ToNode.toNode (build m)).outline = .node label m (es m))
    (hm : m.span = input.span start i) (hholds : input.Holds start i (build m))
    (hij : i ≤ j) (hline : input.AtLine j) (hoffside : (build m).Offside input indent) :
    input.States indent start j (build m) where
  le := Nat.le_trans (Nat.le_of_lt hpasses.lt) hij
  holds := hholds.mono (Nat.le_refl start) hij
  line := hline
  starts := by
    have hmark : (build m).mark = m := by
      rw [ToNode.outline_stmt] at hbuild
      rw [← Stmt.mark_outline, hbuild, Outline.mark]
    left
    rw [hmark, hm]
    exact hpasses.fills.start_eq
  offside := hoffside

theorem making_states {Q : Nat → Stmt → Prop} (hpasses : input.Passes start i)
    (hline : input.AtLine i)
    (hbuild : ∀ m, (ToNode.toNode (build m)).outline = .node label m (es m))
    (hes : ∀ m, input.NestsAll start i (es m))
    (hoffside : ∀ m, m.span = input.span start i → (build m).Offside input indent)
    (h : ∀ m, m.span = input.span start i → input.States indent start i (build m) →
      Q i (build m)) : Reads input i (make start build) Q :=
  .make hpasses hbuild hes fun m hm hholds => h m hm <|
    states_made hpasses (hbuild m) hm hholds (Nat.le_refl i) hline (hoffside m hm)

theorem make_states (hpasses : input.Passes start i) (hline : input.AtLine i)
    (hbuild : ∀ m, (ToNode.toNode (build m)).outline = .node label m (es m))
    (hes : ∀ m, input.NestsAll start i (es m))
    (hoffside : ∀ m, (build m).Offside input indent) :
    Reads input i (make start build) (input.States indent start) :=
  making_states hpasses hline hbuild hes (fun m _ => hoffside m) fun _ _ h => h

theorem makingLine_states {β : Type} {f : Stmt → Parser β} {Q : Nat → β → Prop}
    (hpasses : input.Passes start i)
    (hbuild : ∀ m, (ToNode.toNode (build m)).outline = .node label m (es m))
    (hes : ∀ m, input.NestsAll start i (es m))
    (hoffside : ∀ m, (build m).Offside input indent)
    (h : ∀ m j, input.States indent start j (build m) → Reads input j (f (build m)) Q) :
    Reads input i (do
      let st ← make start build
      endLine
      f st) Q :=
  .making hpasses hbuild hes fun m hm hholds => endLine_reads.bind fun _ j hj hline => h m j <|
    states_made hpasses (hbuild m) hm hholds hj hline.2 (hoffside m)

theorem makeLine_states (hpasses : input.Passes start i)
    (hbuild : ∀ m, (ToNode.toNode (build m)).outline = .node label m (es m))
    (hes : ∀ m, input.NestsAll start i (es m))
    (hoffside : ∀ m, (build m).Offside input indent) :
    Reads input i (do
      let st ← make start build
      endLine
      return st) (input.States indent start) :=
  makingLine_states hpasses hbuild hes hoffside fun _ _ hst => .pure hst

end Made

theorem simple_reads {build : Mark → Stmt} {label : String} {indent : Indent}
    (hbuild : ∀ m, (ToNode.toNode (build m)).outline = .node label m [])
    (hoffside : ∀ m, (build m).Offside input indent) :
    Reads input i (simple build) (input.States indent i) :=
  .here (advance_reads.bind fun _ _ _ htakes =>
    makeLine_states htakes.passes hbuild (fun _ => trivial) hoffside)

theorem loopOnly_reads {build : Mark → Stmt} {label : String} {fault : SyntaxFault}
    {indent : Indent} (hbuild : ∀ m, (ToNode.toNode (build m)).outline = .node label m [])
    (hoffside : ∀ m, (build m).Offside input indent) :
    Reads input i (loopOnly build fault s) (input.States indent i) := by
  refine .showing fun t start _ hstart ht _ => (simple_reads hbuild hoffside).bind
    fun st j hst => ?_
  split
  · exact .pure (hst.unskip hstart)
  · exact .reject (input.marks_token ht)

theorem headerEnd_reads : Goes input i headerEnd fun j _ => input.AtLine j ∧ input.NextIs i .colon := by
  refine expect_reads.bind fun t j hj ht => endLine_reads.imp fun _ k hk => ?_
  exact ⟨Nat.le_trans hj hk.1, hk.2.2, t, ht.1.token, ht.2⟩

section Rules

variable {g : StmtParsers} (hg : g.Giving input)

include hg

theorem expression_reads {lines : Bool} :
    Reads input i (g.expression s lines) (input.Expresses i) :=
  hg.exprs.level

theorem expressions_reads : Goes input i (g.expressions s) fun j es =>
    input.Holds i j es ∧ input.Passes i j := by
  refine (expression_reads hg).bind fun first j hfirst => ?_
  refine (afterEach_gives (by decide) fun _ _ => ExprParsers.expression_gives hg.exprs).bind
    fun rest k hk hrest => .pure ?_
  have hle := hfirst.le
  refine ⟨by omega, .cons (hfirst.holds.mono (Nat.le_refl i) hk) (hrest.mono hle (Nat.le_refl k)), ?_⟩
  exact hfirst.holds.passes.mono (Nat.le_refl i) hk

theorem condition_reads {keyword : Kind} {build : Mark → Expr → Stmt} {label name : String}
    {indent : Indent} (hbuild : ∀ m e, (ToNode.toNode (build m e)).outline =
      .node label m [.mk name (.child e.outline)])
    (hoffside : ∀ m e, (build m e).Offside input indent) :
    Reads input i (g.condition keyword build s) (input.States indent i) := by
  refine .here (expect_reads.bind fun _ j hj hkeyword => (expression_reads hg).bind
    fun e k he => ?_)
  exact makeLine_states (hkeyword.1.passes.mono (Nat.le_refl i) he.le) (fun m => hbuild m e)
    (fun _ => ⟨he.holds.mono hj (Nat.le_refl k), trivial⟩) fun m => hoffside m e

theorem returns_reads {indent : Indent} :
    Reads input i (g.returns s) (input.States indent i) := by
  refine .here (expect_reads.bind fun _ j hj hkeyword => atLineEnd_reads.bind fun b _ => ?_)
  have hrest : ∀ {l es}, j ≤ l → input.Holds j l es → Reads input l (do
      let st ← make i (Stmt.return · es)
      endLine
      return st) (input.States indent i) := by
    intro l es hl hes
    have hes' : input.Holds i l es := hes.mono hj (Nat.le_refl l)
    exact makeLine_states (hkeyword.1.passes.mono (Nat.le_refl i) hl) (fun _ => rfl)
      (fun _ => ⟨hes'.outlines rfl, trivial⟩) fun _ => trivial
  split
  · exact hrest (Nat.le_refl j) .nil
  · exact (expressions_reads hg).bind fun es l hl hes => hrest hl hes.1

theorem doLoop_reads : Reads input i (g.doLoop s) (input.States s.indent i) := by
  refine .here (expect_reads.bind fun _ j hj hkeyword => headerEnd_reads.bind fun _ k hk hline => ?_)
  refine (hg.block hline.1).bind fun body l hl hbody => expect_reads.bind fun _ m hm _ => ?_
  refine (expression_reads hg).bind fun condition n hcondition => ?_
  refine (clauses_gives hg.exprs (by decide)).bind fun invariants q hq hinvariants => ?_
  have hle := hcondition.le
  have hinvariants' : input.Holds i q invariants := hinvariants.mono (by omega) (Nat.le_refl q)
  refine makeLine_states (hkeyword.1.passes.mono (Nat.le_refl i) (by omega)) (fun _ => rfl)
    (fun _ => ?_) fun _ => hbody.2.2
  exact ⟨hcondition.holds.mono (by omega) hq, hinvariants'.outlines rfl,
    hbody.1.mono (by omega) (by omega), trivial⟩

theorem whileLoop_reads : Reads input i (g.whileLoop s) (input.States s.indent i) := by
  refine .here (expect_reads.bind fun _ j hj hkeyword => (expression_reads hg).bind
    fun condition k hcondition => ?_)
  refine (clauses_gives hg.exprs (by decide)).bind fun invariants l hl hinvariants => ?_
  refine headerEnd_reads.bind fun _ m hm hline => (hg.block hline.1).bind fun body n hn hbody => ?_
  have hle := hcondition.le
  have hinvariants' : input.Holds i n invariants := hinvariants.mono (by omega) (by omega)
  refine make_states (hkeyword.1.passes.mono (Nat.le_refl i) (by omega)) hbody.2.1 (fun _ => rfl)
    (fun _ => ?_) fun _ => hbody.2.2
  exact ⟨hcondition.holds.mono hj (by omega), hinvariants'.outlines rfl,
    hbody.1.mono (by omega) (Nat.le_refl n), trivial⟩

omit hg in
theorem makeBlock_reads {sts : List Stmt} {Q : Nat → Block → Prop} (hsts : input.Holds start i sts)
    (h : ∀ m, input.Holds start i (Block.mk m sts) → Q i (.mk m sts)) :
    Reads input i (make start (Block.mk · sts)) Q := by
  cases sts with
  | nil => exact fun arena => h ⟨_, _⟩ .empty
  | cons st sts =>
    exact .make (Stmt.passes (hsts st List.mem_cons_self)) (fun _ => rfl)
      (fun _ => ⟨hsts.outlines (Stmt.outlines_eq _), trivial⟩) fun m _ => h m

theorem elseBranch_reads : Goes input i (g.elseBranch s) fun j b =>
    input.Holds i j b ∧ input.AtLine j ∧
      ((input.NextIs i .kwIf ∧ b.Chains input i ∧ b.InnerOffside input s.indent) ∨
        (input.NextIs i .colon ∧ b.Offside input s.indent)) := by
  refine .here (ahead_reads.bind fun b hb => ?_)
  subst hb
  split
  · rename_i hcomes
    have hnext : input.NextIs i .kwIf := by
      rw [comes] at hcomes
      split at hcomes
      · rename_i t ht
        exact ⟨t, ht, by simpa [comes] using hcomes⟩
      · cases hcomes
    refine hg.ifElse.bind fun chained k hchained => ?_
    obtain ⟨hstates, m, condition, trueBranch, falseBranch, rfl, hstart⟩ := hchained
    refine makeBlock_reads (.cons hstates.holds .nil) fun m' hb => ⟨hstates.le, hb, hstates.line, ?_⟩
    exact .inl ⟨hnext, ⟨m, _, _, _, rfl, hstart⟩, hstates.offside, trivial⟩
  · refine headerEnd_reads.bind fun _ k hk hline => (hg.block hline.1).imp fun b l hb => ?_
    exact ⟨Nat.le_trans hk hb.1, hb.2.1.mono hk (Nat.le_refl l), hb.2.2.1, .inr ⟨hline.2, hb.2.2.2⟩⟩

theorem ifThen_reads : Reads input i (g.ifThen s) fun j st =>
    input.States s.indent i j st ∧ ∃ m condition trueBranch falseBranch,
      st = .ifElse m condition trueBranch falseBranch ∧
        m.span.start = input.startAt (input.skip true i) := by
  refine .here (expect_reads.bind fun _ j hj hkeyword => (expression_reads hg).bind
    fun condition k hcondition => ?_)
  refine headerEnd_reads.bind fun _ l hl hline => (hg.block hline.1).bind
    fun trueBranch m hm htrue => ?_
  have hle := hcondition.le
  have hpasses : input.Passes i j := hkeyword.1.passes
  refine (acceptAtIndent_reads htrue.2.1 (by decide)).bind fun o n hn ho => ?_
  cases o with
  | none =>
    obtain rfl := ho
    have hpasses' := hpasses.mono (Nat.le_refl i) (by omega : j ≤ n)
    refine making_states hpasses' htrue.2.1 (fun _ => rfl) (fun _ => ?_)
      (fun _ _ => ⟨htrue.2.2, trivial⟩) fun mark hmark hstates =>
        ⟨hstates, mark, _, _, _, rfl, hmark ▸ hpasses'.fills.start_eq⟩
    exact ⟨hcondition.holds.mono hj (by omega), htrue.1.mono (by omega) (Nat.le_refl _), trivial,
      trivial⟩
  | some t =>
    obtain ⟨e, hme, rfl, hheads, ht, hk⟩ := ho
    refine (elseBranch_reads hg).bind fun falseBranch q hq hfalse => ?_
    have hpasses' := hpasses.mono (Nat.le_refl i) (by omega : j ≤ q)
    -- the span of the statement is known only once the node is made
    have hdivides : ∀ mark : Mark, mark.span = input.span i q →
        input.Divides s.indent mark condition trueBranch e falseBranch := fun mark hmark => {
      heads := hheads
      token := ⟨t, ht, hk⟩
      inside := hmark ▸ hpasses'.fills.within hheads.1 (by omega) (by omega)
      condition := hcondition.holds.mono (Nat.zero_le j) (by omega)
      before := htrue.1.mono (Nat.zero_le l) hme
      after := hfalse.1.to_size }
    refine making_states hpasses' hfalse.2.1 (fun _ => rfl) (fun _ => ?_)
      (fun mark hmark => ⟨htrue.2.2, e, hdivides mark hmark, hfalse.2.2⟩) fun mark hmark hstates =>
        ⟨hstates, mark, _, _, _, rfl, hmark ▸ hpasses'.fills.start_eq⟩
    exact ⟨hcondition.holds.mono hj (by omega), htrue.1.mono (by omega) (by omega),
      hfalse.1.mono (by omega) (Nat.le_refl q), trivial⟩

theorem case_reads : Reads input i (g.case s) fun j c =>
    i ≤ j ∧ input.Holds i j c ∧ input.AtLine j ∧
      c.mark.span.start = input.startAt (input.skip true i) ∧ c.body.Offside input s.indent := by
  refine .here ((accept_reads (by decide)).bind fun o j hj ho => ?_)
  -- a `case` and a `default` go on alike, with conditions or without
  have hrest : ∀ {k l es}, i < k → input.Passes i k → k ≤ l → input.Holds k l es → Reads input l (do
      headerEnd
      let body ← g.block s s.inLoop
      make i (Case.mk · es body)) fun j c => i ≤ j ∧ input.Holds i j c ∧ input.AtLine j ∧
        c.mark.span.start = input.startAt (input.skip true i) ∧ c.body.Offside input s.indent := by
    intro k l es hik hpasses hl hes
    refine headerEnd_reads.bind fun _ m hm hline => (hg.block hline.1).bind fun body n hn hbody => ?_
    have hes' : input.Holds i n es := hes.mono (by omega) (by omega)
    have hpasses' := hpasses.mono (Nat.le_refl i) (by omega : k ≤ n)
    refine .make hpasses' (fun _ => rfl) (fun _ => ?_) fun mark hmark hc =>
      ⟨by omega, hc, hbody.2.1, hmark ▸ hpasses'.fills.start_eq, hbody.2.2⟩
    exact ⟨hes'.outlines rfl, hbody.1.mono (by omega) (Nat.le_refl n), trivial⟩
  cases o with
  | some t => exact hrest ho.1.lt ho.1.passes (Nat.le_refl j) .nil
  | none =>
    obtain rfl := ho
    refine expect_reads.bind fun _ k hk hkeyword => (expression_reads hg).bind fun first l hfirst => ?_
    refine (afterEach_gives (by decide) fun _ _ => ExprParsers.expression_gives hg.exprs).bind
      fun rest m hm hrest' => ?_
    have hle := hfirst.le
    have hall : input.Holds k m (first :: rest) :=
      .cons (hfirst.holds.mono (Nat.le_refl k) hm) (hrest'.mono hle (Nat.le_refl m))
    exact hrest hkeyword.1.lt hkeyword.1.passes (by omega) hall

theorem cases_reads (hi : input.AtLine i) : Goes input i (g.cases s) fun j cs =>
    input.Holds i j cs ∧ input.AtLine j ∧ ∃ inner, (cs ≠ [] → s.indent < inner) ∧
      (∀ c ∈ cs, c.Leads input inner) ∧ Case.AllOffside input inner cs := by
  refine (deeperIndent_reads hi).bind fun o j hj ho => ?_
  cases o with
  | none =>
    exact .pure ⟨hj, .nil, ho.1, s.indent, fun h => absurd rfl h, List.forall_mem_nil _, trivial⟩
  | some inner =>
    refine Reads.bind (aligned_reads (I := fun k (found : List Case) => i ≤ k ∧ input.Holds i k found ∧
        ∀ c ∈ found, c.Leads input inner ∧ c.body.Offside input inner) ho.1
      ⟨hj, .nil, List.forall_mem_nil _⟩
      (fun found k l hl h => ⟨Nat.le_trans h.1 hl, h.2.1.mono (Nat.le_refl i) hl, h.2.2⟩)
      fun found k hfound hheads => ?_) fun found k hfound => ?_
    · refine (case_reads hg).bind fun c l hc => .pure ?_
      refine ⟨hc.2.2.1, Nat.le_trans hfound.1 hc.1, ?_, ?_⟩
      · exact .cons (hc.2.1.mono hfound.1 (Nat.le_refl l)) (hfound.2.1.mono (Nat.le_refl i) hc.1)
      · exact List.forall_mem_cons.mpr ⟨⟨⟨_, hheads, hc.2.2.2.1⟩, hc.2.2.2.2⟩, hfound.2.2⟩
    · obtain ⟨hline, hik, hholds, hcases⟩ := hfound
      have hall : ∀ c ∈ found.reverse, c.Leads input inner ∧ c.body.Offside input inner :=
        fun c hc => hcases c (List.mem_reverse.mp hc)
      refine (checkCases_reads hholds.reverse).bind fun _ _ => ?_
      exact .pure ⟨hik, hholds.reverse, hline, inner, fun _ => ho.2 inner rfl,
          fun c hc => (hall c hc).1, Case.allOffside_iff.mpr fun c hc => (hall c hc).2⟩

theorem switch_reads : Reads input i (g.switch s) (input.States s.indent i) := by
  refine .here (expect_reads.bind fun _ j hj hkeyword => (expression_reads hg).bind
    fun condition k hcondition => ?_)
  refine headerEnd_reads.bind fun _ l hl hline => (cases_reads hg hline.1).bind
    fun cases m hm hcases => ?_
  have hle := hcondition.le
  have hcases' : input.Holds i m cases := hcases.1.mono (by omega) (Nat.le_refl m)
  refine make_states (hkeyword.1.passes.mono (Nat.le_refl i) (by omega)) hcases.2.1 (fun _ => rfl)
    (fun _ => ?_) fun _ => hcases.2.2
  exact ⟨hcondition.holds.mono hj (by omega), hcases'.outlines (Case.outlines_eq _), trivial⟩

theorem assign_reads {indent : Indent} : Reads input i (g.assign s) (input.States indent i) := by
  refine .here (hg.target.bind fun first j hj hfirst => ?_)
  refine (afterEach_gives (by decide) fun _ _ => hg.target).bind fun rest k hk hrest => ?_
  refine expect_reads.bind fun _ l hl _ => (expressions_reads hg).bind fun values m hm hvalues => ?_
  have htargets : input.Holds i m (first :: rest) :=
    .cons (hfirst.mono (Nat.le_refl i) (by omega)) (hrest.mono hj (by omega))
  have hvalues' : input.Holds i m values := hvalues.1.mono (by omega) (Nat.le_refl m)
  exact makeLine_states (hfirst.passes.mono (Nat.le_refl i) (by omega)) (fun _ => rfl)
    (fun _ => ⟨htargets.outlines rfl, hvalues'.outlines rfl, trivial⟩) fun _ => trivial

theorem declaration_reads : Reads input i (g.declaration s) fun j x =>
    input.States s.indent i j x.1 ∧ x.2.indent = s.indent := by
  refine .here (hg.exprs.types.type.bind fun type j hj htype => ?_)
  refine identifier_gives.bind fun name k hk hname => ?_
  refine (checkAvailable_reads hname).bind fun _ _ => ?_
  have hpasses := TypeParsers.holds_passes htype
  have hrest : ∀ {m initialiser}, k ≤ m → input.Holds k m initialiser → Reads input m (do
      let t ← make i fun m => Stmt.variable ⟨m, name, type⟩ initialiser
      endLine
      return (t, ← ofExcept (s.declareVariable ⟨t.mark, name, type⟩))) fun j x =>
        input.States s.indent i j x.1 ∧ x.2.indent = s.indent := by
    intro m initialiser hm hinitialiser
    have hinitialiser' : input.Holds i m initialiser := hinitialiser.mono (by omega) (Nat.le_refl m)
    refine makingLine_states (hpasses.mono (Nat.le_refl i) (by omega)) (fun _ => rfl) (fun _ => ?_)
      (fun _ => trivial) fun mark n (hst : input.States s.indent i n _) => ?_
    · exact ⟨hname.mono hj (by omega), htype.mono (Nat.le_refl i) (by omega),
        hinitialiser'.option, trivial⟩
    · exact (declareVariable_reads hname).bind fun s' hindent => .pure ⟨hst, hindent⟩
  refine (accept_reads (by decide)).bind fun o m hm ho => ?_
  cases o with
  | some _ =>
    have hvalue : Gives input m (some <$> g.expression s false) :=
      (ExprParsers.expression_gives hg.exprs).bind fun e _ hle he => .pure ⟨hle, .some he⟩
    exact hvalue.bind fun initialiser n hn h => hrest (by omega) (h.mono hm (Nat.le_refl n))
  | none =>
    obtain rfl := ho
    exact hrest (Nat.le_refl m) .none

theorem unlabelled_reads : Reads input i (g.unlabelled s) fun j x =>
    input.States s.indent i j x.1 ∧ x.2.indent = s.indent := by
  refine .here ((forcedType_reads hg.exprs.types).bind fun o j hj ho => ?_)
  cases o with
  | some _ => exact .moved (declaration_reads hg)
  | none =>
    obtain rfl := ho
    refine (expression_reads hg).bind fun e k he => ?_
    split
    · rename_i hcall
      refine endLine_reads.bind fun _ l hl hline => .pure ⟨?_, rfl⟩
      exact {
        le := Nat.le_trans he.le hl
        holds := he.holds.mono (Nat.le_refl j) hl
        line := hline.2
        starts := (he.call hcall).imp (·.start_eq) fun h => ⟨e, k, rfl, h⟩
        offside := trivial }
    · refine (accept_reads (by decide)).bind fun o l hl _ => ?_
      cases o with
      | some _ => exact .moved ((assign_reads hg).bind fun st m hst => .pure ⟨hst, rfl⟩)
      | none => exact .moved (declaration_reads hg)

theorem headless_reads : Reads input i (g.headless s) fun j x =>
    input.States s.indent i j x.1 ∧ x.2.indent = s.indent := by
  refine .here (optionalIdentifier_reads.bind fun o j hj ho => ?_)
  cases o with
  | none =>
    obtain rfl := ho
    exact unlabelled_reads hg
  | some name =>
    have hname : input.Holds i j name := ho
    have hpasses : input.Passes i j := Input.Nests.passes hname name.label_ne_block
    refine (accept_reads (by decide)).bind fun c k hk _ => atLineEnd_reads.bind fun b _ => ?_
    split
    · refine endLine_reads.bind fun _ m hm hline => (declareLifetime_reads hname).bind
        fun inner hindent => ?_
      refine (hg.block hline.2).bind fun body q hq hbody => ?_
      rw [hindent] at hbody
      refine Reads.bind (make_states (hpasses.mono (Nat.le_refl i) (by omega)) hbody.2.1
        (fun _ => rfl) (fun _ => ?_) fun _ => hbody.2.2) fun st r hst => .pure ⟨hst, rfl⟩
      exact ⟨hname.mono (Nat.le_refl i) (by omega), hbody.1.mono (by omega) (Nat.le_refl q), trivial⟩
    · exact .moved (unlabelled_reads hg)

omit hg in
theorem keeping_reads {p : Parser Stmt} (hij : input.Skipped true i j)
    (hp : Reads input j p (input.States s.indent j)) :
    Reads input j (keeping s p) fun k x =>
      input.States s.indent i k x.1 ∧ x.2.indent = s.indent :=
  hp.bind fun _ _ hst => .pure ⟨hst.unskip hij, rfl⟩

theorem statement_reads : Reads input i (g.statement s) fun j x =>
    input.States s.indent i j x.1 ∧ x.2.indent = s.indent := by
  refine .showing fun t start _ hstart ht _ => ?_
  split
  · exact keeping_reads hstart (condition_reads hg (fun _ _ => rfl) fun _ _ => trivial)
  · exact keeping_reads hstart (condition_reads hg (fun _ _ => rfl) fun _ _ => trivial)
  · exact keeping_reads hstart (loopOnly_reads (fun _ => rfl) fun _ => trivial)
  · exact keeping_reads hstart (loopOnly_reads (fun _ => rfl) fun _ => trivial)
  · exact keeping_reads hstart (doLoop_reads hg)
  · exact keeping_reads hstart (condition_reads hg (fun _ _ => rfl) fun _ _ => trivial)
  · exact keeping_reads hstart (simple_reads (fun _ => rfl) fun _ => trivial)
  · exact keeping_reads hstart ((ifThen_reads hg).imp fun _ _ hst => hst.1)
  · exact keeping_reads hstart (returns_reads hg)
  · exact keeping_reads hstart (whileLoop_reads hg)
  · exact keeping_reads hstart (simple_reads (fun _ => rfl) fun _ => trivial)
  · exact keeping_reads hstart (switch_reads hg)
  · exact (headless_reads hg).imp fun _ _ hx => ⟨hx.1.unskip hstart, hx.2⟩

theorem statements_reads {indent : Indent} (hi : input.AtLine i) (hindent : s.indent = indent) :
    Goes input i (g.statements indent s) fun j sts =>
      input.Holds i j sts ∧ input.AtLine j ∧ (∀ st ∈ sts, st.Leads input indent) ∧
        Stmt.AllOffside input indent sts := by
  -- a declaration changes the scope, but never the indent of it
  refine Reads.bind (aligned_reads (I := fun k (x : List Stmt × Scope) => i ≤ k ∧
      input.Holds i k x.1 ∧ (∀ st ∈ x.1, st.Leads input indent ∧ st.Offside input indent) ∧
        x.2.indent = indent) hi ⟨Nat.le_refl i, .nil, List.forall_mem_nil _, hindent⟩
    (fun x k l hl h => ⟨Nat.le_trans h.1 hl, h.2.1.mono (Nat.le_refl i) hl, h.2.2⟩)
    fun x k hx hheads => ?_) fun x k hx => .pure ?_
  · obtain ⟨hik, hholds, hall, hscope⟩ := hx
    refine (statement_reads hg).bind fun y l hy => .pure ?_
    rw [hscope] at hy
    obtain ⟨hstates, hindent'⟩ := hy
    refine ⟨hstates.line, Nat.le_trans hik hstates.le, ?_, ?_, hindent'⟩
    · exact .cons (hstates.holds.mono hik (Nat.le_refl l)) (hholds.mono (Nat.le_refl i) hstates.le)
    · exact List.forall_mem_cons.mpr ⟨⟨hstates.starts.leads hheads, hstates.offside⟩, hall⟩
  · obtain ⟨hline, hik, hholds, hall, -⟩ := hx
    have hall' : ∀ st ∈ x.1.reverse, st.Leads input indent ∧ st.Offside input indent :=
      fun st hst => hall st (List.mem_reverse.mp hst)
    exact ⟨hik, hholds.reverse, hline, fun st hst => (hall' st hst).1,
      Stmt.allOffside_iff.mpr fun st hst => (hall' st hst).2⟩

theorem blockOf_reads {inLoop : Bool} (hi : input.AtLine i) :
    Goes input i (g.blockOf s inLoop) fun j b =>
      input.Holds i j b ∧ input.AtLine j ∧ b.Offside input s.indent := by
  refine .here ((deeperIndent_reads hi).bind fun o j hj ho => ?_)
  cases o with
  | none =>
    exact makeBlock_reads .nil fun m hb => ⟨hj, hb, ho.1, s.indent, fun h => absurd rfl h,
      List.forall_mem_nil _, trivial⟩
  | some inner =>
    have hscope : ((s.deeper inner).looping inLoop).indent = inner := rfl
    refine (statements_reads hg ho.1 hscope).bind fun sts k hk hsts => ?_
    exact makeBlock_reads (hsts.1.mono hj (Nat.le_refl k)) fun m hb =>
      ⟨Nat.le_trans hj hk, hb, hsts.2.1, inner, fun _ => ho.2 inner rfl, hsts.2.2⟩

end Rules

theorem ofDepth_giving {exprs : ExprParsers} {target : TargetParser} (he : exprs.Giving input)
    (ht : ∀ {i s}, Gives input i (target s)) (depth : Nat) :
    (ofDepth exprs target depth).Giving input := by
  induction depth with
  | zero => exact ⟨he, ht, fun _ => .exhausted, .exhausted⟩
  | succ depth ih =>
    rw [ofDepth_succ]
    exact ⟨he, ht, blockOf_reads ih, ifThen_reads ih⟩

end StmtParsers

end Grammar

end Whiley
