import Whiley.Proofs.Grammar.Literals
import Whiley.Proofs.Grammar.ReadsTypes

namespace Whiley

namespace Token

variable {t : Token} {f : Failure}

def Blames (t : Token) (f : Failure) : Prop :=
  ∀ e, f = .error e → e.span = t.span

theorem blames_failure (t : Token) (fault : SyntaxFault) : t.Blames (t.failure fault) := by
  intro e he
  rw [← Failure.error.inj he]

theorem byteValue_error (h : t.byteValue = .error f) : t.Blames f := by
  unfold byteValue at h
  split at h
  · rw [← Except.error.inj h]
    exact t.blames_failure _
  · split at h
    · cases h
    · rw [← Except.error.inj h]
      exact t.blames_failure _

theorem charValue_error (h : t.charValue = .error f) : t.Blames f := by
  unfold charValue at h
  split at h
  · split at h
    · split at h
      · cases h
      · rw [← Except.error.inj h]
        exact t.blames_failure _
    · rw [← Except.error.inj h]
      exact t.blames_failure _
  · cases h
  · rw [← Except.error.inj h]
    exact fun e he => by cases he

theorem codePoints_error {cs : List Char} (h : t.codePoints cs = .error f) : t.Blames f := by
  fun_induction codePoints t cs with
  | case1 => cases h
  | case2 =>
    rw [← Except.error.inj h]
    exact fun e he => by cases he
  | case3 _ _ _ _ _ _ _ ih => exact ih (map_error h)
  | case4 =>
    rw [← Except.error.inj h]
    exact t.blames_failure _
  | case5 =>
    rw [← Except.error.inj h]
    exact t.blames_failure _
  | case6 _ _ _ _ _ _ ih => exact ih (map_error h)
  | case7 =>
    rw [← Except.error.inj h]
    exact t.blames_failure _
  | case8 _ _ _ _ _ ih => exact ih (map_error h)

theorem stringValue_error (h : t.stringValue = .error f) : t.Blames f := by
  unfold stringValue at h
  cases hpoints : t.codePoints t.quotedBody with
  | error f' =>
    rw [hpoints] at h
    obtain rfl : f' = f := Except.error.inj h
    exact codePoints_error hpoints
  | ok ns =>
    rw [hpoints] at h
    simp only [bind, Except.bind] at h
    split at h
    · cases h
    · rw [← Except.error.inj h]
      exact t.blames_failure _

theorem integerValue_error (h : t.integerValue = .error f) : t.Blames f := by
  unfold integerValue at h
  split at h
  · cases h
  · rw [← Except.error.inj h]
    exact fun e he => by cases he

theorem Blames.located {input : Input} {i : Nat} (h : t.Blames f)
    (ht : input.tokens[i]? = some t) : f.Located input := by
  cases f with
  | error e =>
    intro _
    rw [h e rfl]
    exact input.marks_token ht
  | _ => trivial

end Token

namespace Input

variable {input : Input} {i j k : Nat} {e : Expr}

/-- The expression is made of tokens from `i` to before `j`; a call is made of all of them, or all
but the brackets around it. -/
structure Expresses (input : Input) (i j : Nat) (e : Expr) : Prop where
  le : i ≤ j
  holds : input.Holds i j e
  call : e.isInvocation → input.Fills i j e.mark.span ∨ input.Enclosed i j e.mark.span

theorem Holds.passes (h : input.Holds i j e) : input.Passes i j :=
  Nests.passes h e.label_ne_block

theorem Expresses.unskip (h : input.Expresses j k e) (hij : input.Skipped true i j) :
    input.Expresses i k e where
  le := Nat.le_trans hij.1 h.le
  holds := h.holds.mono hij.1 (Nat.le_refl k)
  call he := (h.call he).imp (·.unskip hij) (·.unskip hij)

theorem Expresses.enclosed {l : Nat} {t u : Token} (h : input.Expresses j k e)
    (ht : input.Takes true i t j) (hopen : t.kind = .lparen) (hu : input.Takes true k u l)
    (hclose : u.kind = .rparen) : input.Expresses i l e where
  le := Nat.le_trans (Nat.le_of_lt ht.lt) (Nat.le_trans h.le (Nat.le_of_lt hu.lt))
  holds := h.holds.mono (Nat.le_of_lt ht.lt) (Nat.le_of_lt hu.lt)
  call he := .inr <| by
    rcases h.call he with hfills | henclosed
    · exact .once ht hopen hfills hu hclose
    · exact .more ht hopen henclosed hu hclose

end Input

theorem Expr.mark_outline (e : Expr) : e.outline.mark = e.mark := by
  cases e <;> rfl

namespace Parser.Reads

variable {input : Input} {i k start : Nat} {build : Mark → Expr} {label : String}
  {es : Mark → List Entry}

theorem expresses_made {m : Mark} (hpasses : input.Passes start i)
    (hbuild : (build m).outline = .node label m (es m)) (hm : m.span = input.span start i)
    (hholds : input.Holds start i (build m)) : input.Expresses start i (build m) where
  le := Nat.le_of_lt hpasses.lt
  holds := hholds
  call _ := by
    rw [← Expr.mark_outline, hbuild, Outline.mark, hm]
    exact .inl hpasses.fills

theorem makeExpr (hpasses : input.Passes start i)
    (hbuild : ∀ m, (build m).outline = .node label m (es m))
    (hes : ∀ m, input.NestsAll start i (es m)) :
    Reads input i (Parser.make start build) (input.Expresses start) :=
  make hpasses hbuild hes fun m hm hholds => expresses_made hpasses (hbuild m) hm hholds

theorem makingExpr {β : Type} {f : Expr → Parser β} {Q : Nat → β → Prop}
    (hpasses : input.Passes start i)
    (hbuild : ∀ m, (build m).outline = .node label m (es m))
    (hes : ∀ m, input.NestsAll start i (es m))
    (h : ∀ e, input.Expresses start i e → Reads input i (f e) Q) :
    Reads input i (Parser.make start build >>= f) Q :=
  making hpasses hbuild hes fun m hm hholds =>
    h _ (expresses_made hpasses (hbuild m) hm hholds)

theorem unskip {p : Parser Expr} (h : Reads input k p (input.Expresses start))
    (hstart : input.Skipped true i start) : Reads input k p (input.Expresses i) :=
  h.imp fun _ _ he => he.unskip hstart

end Parser.Reads

namespace Grammar

open Whiley.Parser

variable {input : Input} {i j start : Nat} {s : Scope}

section Parameters

variable {types : TypeParsers} (ht : types.Giving input)

theorem declareVariable_reads {v : Variable} (hv : input.Holds i j v.name) {k : Nat} :
    Stays input k (ofExcept (s.declareVariable v)) (·.indent = s.indent) := by
  refine .ofExcept (fun s' hs' => ?_) fun e he => ?_
  · rw [(Scope.declareVariable_ok hs').2]
    rfl
  · rw [Scope.declareVariable_error he]
    exact holds_marks hv

include ht

theorem parameter_reads : Goes input i (parameter types s) fun j x =>
    input.Holds i j x.1 ∧ x.2.indent = s.indent := by
  refine .here ((TypeParsers.named_gives ht).bind fun x j hj hx => ?_)
  refine .making (TypeParsers.holds_passes hx.1) (fun _ => rfl)
    (fun _ => ⟨hx.2, hx.1, trivial, trivial⟩) fun m _ hv => ?_
  exact (declareVariable_reads (v := ⟨m, x.2, x.1⟩) hx.2).bind fun s' hindent =>
    .pure ⟨hj, hv, hindent⟩

theorem parameters_reads {close : Kind} : Goes input i (parameters types close s) fun j x =>
    input.Holds i j x.1 ∧ x.2.indent = s.indent := by
  refine expect_reads.bind fun _ j hj _ => ?_
  refine (Reads.untilClose (I := fun k (x : List Variable × Scope) =>
      i ≤ k ∧ input.Holds i k x.1 ∧ x.2.indent = s.indent) ⟨hj, .nil, rfl⟩
    (fun x k l hl hx => ⟨Nat.le_trans hx.1 hl, hx.2.1.mono (Nat.le_refl i) hl, hx.2.2⟩)
    fun x k hx => ?_).bind fun x k hx => .pure ⟨hx.1, hx.2.1.reverse, hx.2.2⟩
  refine (parameter_reads ht).bind fun y l hl hy => .pure ⟨Nat.le_trans hx.1 hl, ?_, ?_⟩
  · exact .cons (hy.1.mono hx.1 (Nat.le_refl l)) (hx.2.1.mono (Nat.le_refl i) hl)
  · exact hy.2.trans hx.2.2

theorem forcedType_reads : Goes input i (forcedType types s) (Offers input i) := by
  refine .here (Reads.bind (.attempt ht.type) fun o j ho => ?_)
  cases o with
  | none =>
    obtain rfl := ho
    exact .pure ⟨Nat.le_refl _, rfl⟩
  | some t =>
    dsimp only
    split
    · exact .pure ho
    · exact .moved (.pure ⟨Nat.le_refl i, rfl⟩)

end Parameters

namespace ExprParsers

structure Giving (input : Input) (g : ExprParsers) : Prop where
  types : g.types.Giving input
  level : ∀ {i l s lines}, Reads input i (g.level l s lines) (input.Expresses i)

section Rules

variable {g : ExprParsers} (hg : g.Giving input) {lines : Bool}

include hg

theorem expression_reads : Reads input i (g.expression s lines) (input.Expresses i) :=
  hg.level

theorem expression_gives : Gives input i (g.expression s lines) :=
  (expression_reads hg).imp fun _ _ he => ⟨he.le, he.holds⟩

theorem rightGrouped_reads {operand self : Level} {ks : List Kind}
    (hks : ∀ k ∈ ks, k.isSpace = false) :
    Reads input i (g.rightGrouped operand self ks s lines) (input.Expresses i) := by
  refine .settled fun start _ hstart => hg.level.bind fun left j hleft => ?_
  refine (accept_reads hks).bind fun o k hk ho => ?_
  cases o with
  | none =>
    obtain rfl := ho
    exact .pure (hleft.unskip hstart)
  | some op =>
    refine hg.level.bind fun right l hright => ?_
    have hle := hleft.le
    have hle' := hright.le
    refine .unskip (.makeExpr (hleft.holds.passes.mono (by omega) (by omega)) (fun _ => rfl)
      fun _ => ?_) hstart
    exact ⟨hleft.holds.mono (by omega) (by omega), trivial,
      hright.holds.mono (by omega) (by omega), trivial⟩

theorem leftGrouped_reads {operand : Level} {ks : List Kind} (hks : ∀ k ∈ ks, k.isSpace = false) :
    Reads input i (g.leftGrouped operand ks s lines) (input.Expresses i) := by
  refine .settled fun start _ hstart => hg.level.bind fun first j hfirst => ?_
  refine .unskip (.foldWhile hfirst fun left k hleft => ?_) hstart
  refine (accept_reads hks).bind fun o l hl ho => ?_
  cases o with
  | none =>
    obtain rfl := ho
    exact .pure hleft
  | some op =>
    refine hg.level.bind fun right m hright => ?_
    have hle := hleft.le
    have hle' := hright.le
    refine .makingExpr (hleft.holds.passes.mono (by omega) (by omega)) (fun _ => rfl)
      (fun _ => ?_) fun _ he => .pure he
    exact ⟨hleft.holds.mono (by omega) (by omega), trivial,
      hright.holds.mono (by omega) (by omega), trivial⟩

omit hg in
theorem boundRange_reads {name : Identifier} {low high : Expr} (hname : input.Holds start i name)
    (hlow : input.Holds start i low) (hhigh : input.Holds start i high) :
    Stays input i (boundRange start name low high) fun x =>
      input.Holds start i x.1 ∧ x.2.name = name := by
  refine .making (hlow.passes) (fun _ => rfl) (fun _ => ⟨hname, hlow, hhigh, trivial⟩)
    fun m _ hr => ?_
  refine Stays.bind (.allocateOver (o := name.outline) hname name.label_ne_block (fun _ => rfl)
    fun _ c hc => absurd hc List.not_mem_nil) fun t htype => ?_
  exact .making hlow.passes (fun _ => rfl) (fun _ => ⟨hname, htype, trivial, trivial⟩) fun _ _ _ =>
    .pure ⟨rfl, hr, rfl⟩

theorem range_reads : Goes input i (g.range s) fun j x => input.Holds i j x.1 := by
  refine .here (identifier_gives.bind fun name j hj hname => ?_)
  refine (checkAvailable_reads hname).bind fun _ _ => ?_
  refine expect_reads.bind fun _ l hl _ => hg.level.bind fun low m hlow => ?_
  refine expect_reads.bind fun _ n hn _ => hg.level.bind fun high q hhigh => ?_
  have hle := hlow.le
  have hle' := hhigh.le
  refine (boundRange_reads (hname.mono (Nat.le_refl i) (by omega))
    (hlow.holds.mono (by omega) (by omega)) (hhigh.holds.mono (by omega) (by omega))).bind
      fun x hx => ?_
  have hvariable : input.Holds i j x.2.name := hx.2 ▸ hname
  exact (declareVariable_reads hvariable).bind fun s' _ => .pure ⟨by omega, hx.1⟩

theorem quantifier_reads {keyword : Token} (hpasses : input.Passes start i) :
    Reads input i (g.quantifier start keyword s) (input.Expresses start) := by
  have hstart := hpasses.lt
  refine expect_reads.bind fun _ j hj _ => ?_
  refine Reads.bind (.repeating (I := fun k (x : List Range × Scope) => j ≤ k ∧ input.Holds j k x.1)
    (Q := fun k (x : List Range × Scope) => j ≤ k ∧ input.Holds j k x.1) ⟨Nat.le_refl j, .nil⟩
    fun x k hx => ?_) fun x k hx => ?_
  · refine (range_reads hg).bind fun y l hl hy => acceptNext_reads.bind fun o m hm _ => ?_
    have hmore : ∀ n, m ≤ n → j ≤ n ∧ input.Holds j n (y.1 :: x.1) := fun n hn =>
      ⟨by omega, .cons (hy.mono hx.1 (by omega)) (hx.2.mono (Nat.le_refl j) (by omega))⟩
    cases o with
    | some _ => exact .pure (hmore m (Nat.le_refl m))
    | none => exact expect_reads.bind fun _ n hn _ => .pure (hmore n hn)
  · refine (expression_reads hg).bind fun condition l hcondition => ?_
    have hle := hcondition.le
    refine expect_reads.bind fun _ m hm _ => ?_
    have hranges : input.Holds start m x.1.reverse := hx.2.reverse.mono (by omega) (by omega)
    exact .makeExpr (hpasses.mono (Nat.le_refl start) (by omega)) (fun _ => rfl) fun _ =>
      ⟨trivial, hranges.outlines (Range.outlines_eq _),
        hcondition.holds.mono (by omega) (by omega), trivial⟩

theorem condition_reads : Reads input i (g.condition s lines) (input.Expresses i) := by
  refine .settled fun start _ hstart => (accept_reads (by decide)).bind fun o j hj ho => ?_
  cases o with
  | some keyword => exact .unskip (quantifier_reads hg ho.1.passes) hstart
  | none =>
    obtain rfl := ho
    refine hg.level.bind fun left k hleft => (accept_reads (by decide)).bind fun o l hl ho => ?_
    have hle := hleft.le
    have hpasses := hleft.holds.passes
    cases o with
    | none =>
      obtain rfl := ho
      exact .pure (hleft.unskip hstart)
    | some op =>
      dsimp only
      split
      · refine hg.types.type.bind fun type m hm htype => ?_
        refine .unskip (.makeExpr (hpasses.mono (Nat.le_refl _) (by omega)) (fun _ => rfl)
          fun _ => ?_) hstart
        exact ⟨hleft.holds.mono (Nat.le_refl _) (by omega), htype.mono (by omega) (Nat.le_refl m),
          trivial⟩
      · refine hg.level.bind fun right m hright => ?_
        have hle' := hright.le
        refine .unskip (.makeExpr (hpasses.mono (Nat.le_refl _) (by omega)) (fun _ => rfl)
          fun _ => ?_) hstart
        exact ⟨hleft.holds.mono (Nat.le_refl _) (by omega), trivial,
          hright.holds.mono (by omega) (Nat.le_refl m), trivial⟩

theorem arguments_gives : Gives input i (g.arguments s) :=
  listUntil_gives fun _ _ => expression_gives hg

omit hg in
theorem nests_lifetimes {lifetimes : Option (List Identifier)} (h : input.Holds i j lifetimes) :
    input.NestsContent i j (.ofLifetimes lifetimes) := by
  cases lifetimes with
  | none => trivial
  | some ls => exact (h ls rfl).outlines rfl

theorem qualified_reads : Reads input i (g.qualified s lines) (input.Expresses i) := by
  refine .here (qualifiedName_gives.bind fun name j hj hname => ?_)
  have hpasses : input.Passes i j := Input.Nests.passes hname name.label_ne_block
  refine (accept_reads (by decide)).bind fun o k hk _ => ?_
  have hname' : input.Holds i k name := hname.mono (Nat.le_refl i) hk
  have hpasses' : input.Passes i k := hpasses.mono (Nat.le_refl i) hk
  cases o with
  | none => exact .makeExpr hpasses' (fun _ => rfl) fun _ => ⟨hname', trivial⟩
  | some _ =>
    refine (arguments_gives hg).bind fun es l hl hes => ?_
    have hes' : input.Holds i l es := hes.mono (by omega) (Nat.le_refl l)
    exact .makeExpr (hpasses'.mono (Nat.le_refl i) hl) (fun _ => rfl) fun _ =>
      ⟨hname'.mono (Nat.le_refl i) hl, trivial, hes'.outlines (Expr.outlines_eq _), trivial⟩

theorem fieldAccess_reads {source : Expr} (hsource : input.Holds start i source) :
    Reads input i (g.fieldAccess s lines start source) (input.Expresses start) := by
  have hstart := hsource.passes.lt
  refine identifier_gives.bind fun name j hj hname => ?_
  refine .makingExpr (hsource.passes.mono (Nat.le_refl start) hj) (fun _ => rfl)
    (fun _ => ⟨hsource.mono (Nat.le_refl start) hj, hname.mono (by omega) (Nat.le_refl j), trivial⟩)
    fun access haccess => ?_
  have hpasses := haccess.holds.passes
  have hcall : ∀ {k} (lifetimes : Option (List Identifier)), j ≤ k → input.Holds j k lifetimes →
      Reads input k (do
        let arguments ← g.arguments s
        make start (Expr.indirectInvoke · access lifetimes arguments)) (input.Expresses start) := by
    intro k lifetimes hk hlifetimes
    refine (arguments_gives hg).bind fun es l hl hes => ?_
    have hes' : input.Holds start l es := hes.mono (by omega) (Nat.le_refl l)
    have hlifetimes' : input.Holds start l lifetimes := hlifetimes.mono (by omega) hl
    exact .makeExpr (hpasses.mono (Nat.le_refl start) (by omega)) (fun _ => rfl) fun _ =>
      ⟨haccess.holds.mono (Nat.le_refl start) (by omega), nests_lifetimes hlifetimes',
        hes'.outlines (Expr.outlines_eq _), trivial⟩
  refine (accept_reads (by decide)).bind fun o k hk ho => ?_
  cases o with
  | some _ => exact hcall none hk .none
  | none =>
    obtain rfl := ho
    refine ahead_reads.bind fun b _ => ?_
    split
    · refine optionalLifetimeArguments_reads.bind fun o m hm ho => ?_
      cases o with
      | some ls => exact hcall (some ls) hm ho.holds
      | none =>
        obtain rfl := ho
        exact .pure haccess
    · exact .pure haccess

theorem accessStep_reads {source : Expr} (hsource : input.Expresses start i source) :
    Reads input i (g.accessStep s lines start source) fun j o =>
      o.elim (input.Expresses start j source) (input.Expresses start j) := by
  have hpasses := hsource.holds.passes
  have hstart := hsource.le
  have hfield : ∀ {k} {e : Expr}, input.Holds start k e → Reads input k (do
      return some (← g.fieldAccess s lines start e)) fun j o =>
        o.elim (input.Expresses start j source) (input.Expresses start j) :=
    fun he => (fieldAccess_reads hg he).bind fun _ _ he' => .pure he'
  refine (accept_reads (by decide)).bind fun o j hj ho => ?_
  cases o with
  | some _ =>
    refine hg.level.bind fun index k hindex => expect_reads.bind fun _ l hl _ => ?_
    have hle := hindex.le
    refine .makingExpr (hpasses.mono (Nat.le_refl start) (by omega)) (fun _ => rfl) (fun _ => ?_)
      fun _ he => .pure he
    exact ⟨hsource.holds.mono (Nat.le_refl start) (by omega), hindex.holds.mono (by omega) hl,
      trivial⟩
  | none =>
    obtain rfl := ho
    refine (accept_reads (by decide)).bind fun o k hk ho => ?_
    cases o with
    | none =>
      obtain rfl := ho
      exact .pure hsource
    | some t =>
      have hsource' := hsource.holds.mono (Nat.le_refl start) hk
      dsimp only
      split
      -- a name of another module: the path is read once more, from its first name
      · exact .moved ((qualified_reads hg).bind fun _ _ he => .pure he)
      · split
        · exact .makingExpr (hpasses.mono (Nat.le_refl start) hk) (fun _ => rfl)
            (fun _ => ⟨hsource', trivial⟩) fun _ he => hfield he.holds
        · exact hfield hsource'

theorem access_reads : Reads input i (g.access s lines) (input.Expresses i) :=
  .settled fun _ _ hstart => hg.level.bind fun _ _ hfirst =>
    .unskip (.foldWhile hfirst fun _ _ hsource => accessStep_reads hg hsource) hstart

theorem call_reads {name : Identifier} {lifetimes : Option (List Identifier)}
    (hpasses : input.Passes start i) (hname : input.Holds start i name)
    (hlifetimes : input.Holds start i lifetimes) :
    Reads input i (g.call s start name lifetimes) (input.Expresses start) := by
  have hstart := hpasses.lt
  refine (arguments_gives hg).bind fun es j hj hes => ?_
  have hname' : input.Holds start j name := hname.mono (Nat.le_refl start) hj
  have hcontent := nests_lifetimes (hlifetimes.mono (Nat.le_refl start) hj)
  have hes' : input.Holds start j es := hes.mono (by omega) (Nat.le_refl j)
  have hpasses' := hpasses.mono (Nat.le_refl start) hj
  split
  · refine Stays.bind (.allocateOver (o := name.outline) hname' name.label_ne_block (fun _ => rfl)
      fun _ c hc => List.mem_singleton.mp hc) fun source hsource => ?_
    exact .makeExpr hpasses' (fun _ => rfl) fun _ =>
      ⟨hsource, hcontent, hes'.outlines (Expr.outlines_eq _), trivial⟩
  · refine (nameOf_reads hname').bind fun n hn => ?_
    exact .makeExpr hpasses' (fun _ => rfl) fun _ =>
      ⟨hn, hcontent, hes'.outlines (Expr.outlines_eq _), trivial⟩

omit hg in
theorem plainName_reads {name : Identifier} (hname : input.Holds start i name) :
    Reads input i (plainName s start name) (input.Expresses start) := by
  have hpasses : input.Passes start i := Input.Nests.passes hname name.label_ne_block
  unfold plainName
  split
  · exact .makeExpr hpasses (fun _ => rfl) fun _ => ⟨hname, trivial, trivial⟩
  · split
    · refine Stays.bind (.allocateOver (o := name.outline) hname name.label_ne_block (fun _ => rfl)
        fun _ c hc => absurd hc List.not_mem_nil) fun dollar hdollar => ?_
      refine .makingExpr hpasses (fun _ => rfl) (fun _ => ⟨hdollar, trivial, trivial⟩)
        fun source hsource => ?_
      exact .makeExpr hpasses (fun _ => rfl) fun _ => ⟨hsource.holds, hname, trivial⟩
    · refine (nameOf_reads hname).bind fun n hn => ?_
      exact .makeExpr hpasses (fun _ => rfl) fun _ => ⟨hn, trivial⟩

theorem recordFields_reads {name : Option Identifier} (hstart : start ≤ i)
    (hname : input.Holds start i name) :
    Reads input i (g.recordFields start name s) (input.Expresses start) := by
  refine expect_reads.bind fun _ j hj hopen => ?_
  have hpasses : input.Passes start j := hopen.1.passes.mono hstart (Nat.le_refl j)
  refine (Reads.untilClose (I := fun k (fs : List FieldValue) => start ≤ k ∧ j ≤ k ∧
      input.Holds start k fs) ⟨by omega, Nat.le_refl j, .nil⟩
    (fun fs k l hl h => ⟨by omega, by omega, h.2.2.mono (Nat.le_refl start) hl⟩)
    fun found k hfound => ?_).bind fun found k hfound => ?_
  · refine identifier_gives.bind fun key l hl hkey => ?_
    obtain ⟨hstartk, hjk, hrest⟩ := hfound
    have hfield : Reads input l (do
        let _ ← expect .colon
        return FieldValue.mk key (← g.expression s true) :: found) fun m fs =>
          start ≤ m ∧ j ≤ m ∧ input.Holds start m fs := by
      refine expect_reads.bind fun _ m hm _ => (expression_reads hg).bind fun value n hvalue => ?_
      have hle := hvalue.le
      have hkey' : input.Holds start n key := hkey.mono hstartk (by omega)
      have hvalue' : input.Holds start n value := hvalue.holds.mono (by omega) (Nat.le_refl n)
      have hnew : input.Holds start n (FieldValue.mk key value) := ⟨hkey', hvalue'⟩
      exact .pure ⟨by omega, by omega, .cons hnew (hrest.mono (Nat.le_refl start) (by omega))⟩
    split
    · exact (Reads.reject (Q := fun _ _ => False) (holds_marks hkey)).bind fun _ _ h => h.elim
    · exact hfield
  · obtain ⟨-, hjk, hfields⟩ := hfound
    have hname' := (hname.mono (Nat.le_refl start) (by omega : i ≤ k)).option
    exact .makeExpr (hpasses.mono (Nat.le_refl start) hjk) (fun _ => rfl) fun _ =>
      ⟨hname', hfields.reverse.pairs, trivial⟩

theorem allocation_reads : Reads input i (g.allocation s lines) (input.Expresses i) := by
  refine .here (optionalLifetime_reads.bind fun o j hj ho => ?_)
  cases o with
  | some l =>
    have hlifetime : input.Holds i j l := ho
    refine (checkLifetime_reads hlifetime).bind fun _ _ => ?_
    have hpasses : input.Passes i j := Input.Nests.passes hlifetime l.label_ne_block
    refine expect_reads.bind fun _ m hm _ => expect_reads.bind fun _ n hn _ => ?_
    refine (expression_reads hg).bind fun operand q hoperand => ?_
    have hle := hoperand.le
    exact .makeExpr (hpasses.mono (Nat.le_refl i) (by omega)) (fun _ => rfl) fun _ =>
      ⟨hoperand.holds.mono (by omega) (Nat.le_refl q),
        hlifetime.mono (Nat.le_refl i) (by omega), trivial⟩
  | none =>
    obtain rfl := ho
    refine expect_reads.bind fun keyword k hk hkeyword => ?_
    refine Stays.bind (.allocateToken hkeyword.1 (fun _ => rfl) fun _ => rfl) fun l hl => ?_
    refine (expression_reads hg).bind fun operand n hoperand => ?_
    have hle := hoperand.le
    exact .makeExpr (hkeyword.1.passes.mono (Nat.le_refl _) hle) (fun _ => rfl) fun _ =>
      ⟨hoperand.holds.mono hk (Nat.le_refl n), hl.mono (Nat.le_refl _) hle, trivial⟩

theorem name_reads : Reads input i (g.name s lines) (input.Expresses i) := by
  refine .here (identifier_gives.bind fun name j hj hname => ?_)
  have hpasses : input.Passes i j := Input.Nests.passes hname name.label_ne_block
  refine (accept_reads (by decide)).bind fun o k hk ho => ?_
  cases o with
  | some _ =>
    exact call_reads hg (hpasses.mono (Nat.le_refl i) hk) (hname.mono (Nat.le_refl i) hk) .none
  | none =>
    obtain rfl := ho
    refine ahead_reads.bind fun b _ => ?_
    split
    · exact .moved (allocation_reads hg)
    · refine ahead_reads.bind fun b _ => ?_
      split
      · refine optionalLifetimeArguments_reads.bind fun o n hn ho => ?_
        cases o with
        | some ls =>
          exact call_reads hg (hpasses.mono (Nat.le_refl i) hn) (hname.mono (Nat.le_refl i) hn)
            (ho.holds.mono hj (Nat.le_refl n))
        | none => exact plainName_reads (hname.mono (Nat.le_refl i) hn)
      · refine ahead_reads.bind fun b _ => ?_
        split
        · exact recordFields_reads hg hj (.some hname)
        · exact plainName_reads hname

omit hg in
theorem termFollows_reads : Stays input i termFollows fun _ => True :=
  fun _ => ⟨rfl, trivial⟩

theorem inBrackets_reads : Reads input i (g.inBrackets s lines start) (input.Expresses start) := by
  refine .moved (expect_reads.bind fun _ j hj hopen => (expression_reads hg).bind fun e k he => ?_)
  refine expect_reads.bind fun _ l hl hclose => termFollows_reads.bind fun b _ => ?_
  split
  · refine .moved (hg.types.type.bind fun type n hn htype => ?_)
    refine (expression_reads hg).bind fun operand q hoperand => ?_
    have hle := hoperand.le
    exact .makeExpr ((TypeParsers.holds_passes htype).mono (Nat.le_refl start) hle) (fun _ => rfl)
      fun _ => ⟨htype.mono (Nat.le_refl start) hle, hoperand.holds.mono hn (Nat.le_refl q), trivial⟩
  · exact .pure (he.enclosed hopen.1 hopen.2 hclose.1 hclose.2)

theorem bracketed_reads : Reads input i (g.bracketed s lines) (input.Expresses i) := by
  refine .here (expect_reads.bind fun _ j hj hopen => ?_)
  refine (forcedType_reads hg.types).bind fun o k hk ho => ?_
  cases o with
  | none => exact inBrackets_reads hg
  | some type =>
    refine (accept_reads (by decide)).bind fun o l hl _ => ?_
    cases o with
    | none => exact inBrackets_reads hg
    | some _ =>
      refine (expression_reads hg).bind fun operand m hoperand => ?_
      have hle := hoperand.le
      have htype : input.Holds j k type := ho
      exact .makeExpr (hopen.1.passes.mono (Nat.le_refl i) (by omega)) (fun _ => rfl) fun _ =>
        ⟨htype.mono hj (by omega), hoperand.holds.mono (by omega) (Nat.le_refl m), trivial⟩

theorem array_reads : Reads input i (g.array s) (input.Expresses i) := by
  refine .here (expect_reads.bind fun _ j hj hopen => acceptNext_reads.bind fun o k hk _ => ?_)
  cases o with
  | some _ =>
    exact .makeExpr (hopen.1.passes.mono (Nat.le_refl i) hk) (fun _ => rfl) fun _ =>
      ⟨fun _ ho => absurd ho List.not_mem_nil, trivial⟩
  | none =>
    refine (expression_reads hg).bind fun _ l _ => (accept_reads (by decide)).bind fun o m _ _ => ?_
    refine .moved (expect_reads.bind fun _ j hj hopen => (expression_reads hg).bind
      fun first k hfirst => ?_)
    have hle := hfirst.le
    have hpasses : input.Passes i j := hopen.1.passes
    have hfirst' : input.Holds i k first := hfirst.holds.mono hj (Nat.le_refl k)
    cases o with
    | some _ =>
      refine expect_reads.bind fun _ l hl _ => (expression_reads hg).bind fun length m hlength => ?_
      refine expect_reads.bind fun _ n hn _ => ?_
      have hle' := hlength.le
      exact .makeExpr (hpasses.mono (Nat.le_refl i) (by omega)) (fun _ => rfl) fun _ =>
        ⟨hfirst'.mono (Nat.le_refl i) (by omega), hlength.holds.mono (by omega) hn, trivial⟩
    | none =>
      refine (collect_gives hfirst.le (.cons hfirst.holds .nil)
        fun _ _ _ _ => expression_gives hg).bind fun found l hfound => ?_
      have helements : input.Holds i l found.reverse := hfound.2.reverse.mono hj (Nat.le_refl l)
      exact .makeExpr (hpasses.mono (Nat.le_refl i) hfound.1) (fun _ => rfl) fun _ =>
        ⟨helements.outlines (Expr.outlines_eq _), trivial⟩

theorem lambda_reads : Reads input i (g.lambda s) (input.Expresses i) := by
  refine .here (expect_reads.bind fun _ j hj hamp => optionalCaptures_gives.bind
    fun captures k hk hcaptures => ?_)
  refine optionalLifetimeParameters_reads.bind fun x l hl hx => ?_
  refine (parameters_reads hg.types).bind fun y m hm hy => ?_
  refine (expression_reads hg).bind fun body n hbody => expect_reads.bind fun _ q hq _ => ?_
  have hle := hbody.le
  have hcaptures' : input.Holds i q captures := hcaptures.mono (by omega) (by omega)
  have hlifetimes : input.Holds i q x.1 := hx.1.mono (by omega) (by omega)
  have hparameters : input.Holds i q y.1 := hy.1.mono (by omega) (by omega)
  exact .makeExpr (hamp.1.passes.mono (Nat.le_refl i) (by omega)) (fun _ => rfl) fun _ =>
    ⟨hparameters.outlines rfl, hcaptures'.outlines rfl, hlifetimes.outlines rfl,
      hbody.holds.mono (by omega) hq, trivial⟩

theorem lambdaConstant_reads : Reads input i (g.lambdaConstant s lines) (input.Expresses i) := by
  refine .here (expect_reads.bind fun _ j hj hamp => qualifiedName_gives.bind
    fun name k hk hname => ahead_reads.bind fun b _ => ?_)
  have hpasses : input.Passes i k := hamp.1.passes.mono (Nat.le_refl i) hk
  have hname' : input.Holds i k name := hname.mono hj (Nat.le_refl k)
  split
  · refine (TypeParsers.parameterTypes_reads hg.types).bind fun ts m hm hts => ?_
    have htypes : input.Holds i m ts := hts.1.mono (by omega) (Nat.le_refl m)
    exact .makeExpr (hpasses.mono (Nat.le_refl i) hm) (fun _ => rfl) fun _ =>
      ⟨hname'.mono (Nat.le_refl i) hm, htypes.outlines rfl, trivial⟩
  · exact .makeExpr hpasses (fun _ => rfl) fun _ =>
      ⟨hname', fun _ ho => absurd ho List.not_mem_nil, trivial⟩

theorem functionValue_reads : Reads input i (g.functionValue s lines) (input.Expresses i) := by
  refine .here (expect_reads.bind fun _ j _ _ => (accept_reads (by decide)).bind
    fun opening k _ _ => .moved ?_)
  cases opening with
  | some _ => exact lambda_reads hg
  | none => exact lambdaConstant_reads hg

omit hg in
theorem literal_reads {α : Type} {t : Token} {value : Except Failure α} {build : Mark → α → Expr}
    {label : String} {es : Mark → α → List Entry} (ht : input.tokens[i]? = some t)
    (hvalue : ∀ f, value = .error f → t.Blames f)
    (hbuild : ∀ m a, (build m a).outline = .node label m (es m a))
    (hes : ∀ m a k, input.NestsAll i k (es m a)) :
    Reads input i (do
      let _ ← advance
      let a ← ofReading value
      make i (build · a)) (input.Expresses i) := by
  refine advance_reads.bind fun _ j _ htakes => ?_
  refine (Reads.ofReading (Q := fun k _ => k = j) (fun _ => rfl)
    fun f hf => (hvalue f hf).located ht).bind fun a k hk => ?_
  subst hk
  exact .makeExpr htakes.passes (fun m => hbuild m a) fun m => hes m a k

omit hg in
theorem keyword_reads {build : Mark → Expr} {label : String} {es : Mark → List Entry}
    (hbuild : ∀ m, (build m).outline = .node label m (es m))
    (hes : ∀ m k, input.NestsAll i k (es m)) :
    Reads input i (do
      let _ ← advance
      make i build) (input.Expresses i) :=
  advance_reads.bind fun _ j _ htakes => .makeExpr htakes.passes hbuild fun m => hes m j

theorem prefixed_reads {level : Level} {inner : Bool} {build : Mark → Expr → Expr}
    {label : String} {es : Mark → Expr → List Entry}
    (hbuild : ∀ m e, (build m e).outline = .node label m (es m e))
    (hes : ∀ m e k, input.Holds i k e → input.NestsAll i k (es m e)) :
    Reads input i (do
      let _ ← advance
      let operand ← g.level level s inner
      make i (build · operand)) (input.Expresses i) := by
  refine advance_reads.bind fun _ j hj htakes => hg.level.bind fun operand k hoperand => ?_
  exact .makeExpr (htakes.passes.mono (Nat.le_refl i) hoperand.le) (fun m => hbuild m operand)
    fun m => hes m operand k (hoperand.holds.mono hj (Nat.le_refl k))

theorem term_reads : Reads input i (g.term s lines) (input.Expresses i) := by
  refine .showing fun t start _ hstart ht _ => .here (.unskip ?_ hstart)
  split
  · exact bracketed_reads hg
  · exact allocation_reads hg
  · exact allocation_reads hg
  · exact name_reads hg
  · exact keyword_reads (fun _ => rfl) fun _ _ => trivial
  · exact keyword_reads (fun _ => rfl) fun _ _ => ⟨trivial, trivial⟩
  · exact keyword_reads (fun _ => rfl) fun _ _ => ⟨trivial, trivial⟩
  · exact literal_reads ht (fun _ => Token.byteValue_error) (fun _ _ => rfl) fun _ _ _ =>
      ⟨trivial, trivial⟩
  · exact literal_reads ht (fun _ => Token.charValue_error) (fun _ _ => rfl) fun _ _ _ =>
      ⟨trivial, trivial⟩
  · exact literal_reads ht (fun _ => Token.integerValue_error) (fun _ _ => rfl) fun _ _ _ =>
      ⟨trivial, trivial⟩
  · exact literal_reads ht (fun _ => Token.stringValue_error) (fun _ _ => rfl) fun _ _ _ =>
      ⟨trivial, trivial⟩
  · exact prefixed_reads hg (fun _ _ => rfl) fun _ _ _ he => ⟨trivial, he, trivial⟩
  · refine advance_reads.bind fun _ j hj htakes => hg.level.bind fun operand k hoperand => ?_
    refine expect_reads.bind fun _ l hl _ => ?_
    have hle := hoperand.le
    exact .makeExpr (htakes.passes.mono (Nat.le_refl start) (by omega)) (fun _ => rfl) fun _ =>
      ⟨hoperand.holds.mono hj hl, trivial⟩
  · exact array_reads hg
  · exact recordFields_reads hg (Nat.le_refl start) .none
  · exact prefixed_reads hg (fun _ _ => rfl) fun _ _ _ he => ⟨trivial, he, trivial⟩
  · refine ahead_reads.bind fun b _ => ?_
    split
    · exact allocation_reads hg
    · exact prefixed_reads hg (fun _ _ => rfl) fun _ _ _ he => ⟨he, trivial⟩
  · exact prefixed_reads hg (fun _ _ => rfl) fun _ _ _ he => ⟨trivial, he, trivial⟩
  · exact functionValue_reads hg
  · exact .reject (input.marks_token ht)

end Rules

theorem next_giving {g : ExprParsers} (hg : g.Giving input) : g.next.Giving input where
  types := hg.types
  level {i l s lines} := by
    cases l with
    | logical => exact rightGrouped_reads hg (by decide)
    | connective => exact rightGrouped_reads hg (by decide)
    | bitOr => exact rightGrouped_reads hg (by decide)
    | bitXor => exact rightGrouped_reads hg (by decide)
    | bitAnd => exact rightGrouped_reads hg (by decide)
    | condition => exact condition_reads hg
    | shift => exact leftGrouped_reads hg (by decide)
    | additive => exact leftGrouped_reads hg (by decide)
    | multiplicative => exact leftGrouped_reads hg (by decide)
    | access => exact access_reads hg
    | term => exact term_reads hg

theorem ofDepth_giving {types : TypeParsers} (ht : types.Giving input) (depth : Nat) :
    (ofDepth types depth).Giving input := by
  induction depth with
  | zero => exact ⟨ht, .exhausted⟩
  | succ depth ih =>
    rw [ofDepth_succ]
    exact next_giving ih

end ExprParsers

namespace TargetParser

variable {g : ExprParsers} (hg : g.Giving input)

include hg in
theorem step_reads {source : Expr} (hsource : input.Holds start i source) :
    Reads input i (step g s start source) fun j o =>
      start ≤ j ∧ o.elim (input.Holds start j source) (input.Holds start j) := by
  have hpasses := hsource.passes
  have hstart := hpasses.lt
  refine (accept_reads (by decide)).bind fun o j hj ho => ?_
  cases o with
  | some _ =>
    refine hg.level.bind fun index k hindex => expect_reads.bind fun _ l hl _ => ?_
    have hle := hindex.le
    refine .making (hpasses.mono (Nat.le_refl start) (by omega)) (fun _ => rfl) (fun _ => ?_)
      fun _ _ he => .pure ⟨by omega, he⟩
    exact ⟨hsource.mono (Nat.le_refl start) (by omega), hindex.holds.mono (by omega) hl, trivial⟩
  | none =>
    obtain rfl := ho
    refine (accept_reads (by decide)).bind fun o k hk ho => ?_
    cases o with
    | none =>
      obtain rfl := ho
      exact .pure ⟨by omega, hsource⟩
    | some t =>
      have hfield : ∀ {e : Expr}, input.Holds start k e → Reads input k (do
          let field ← identifier
          return some (← make start (Expr.recordAccess · e field))) fun j o =>
            start ≤ j ∧ o.elim (input.Holds start j source) (input.Holds start j) := by
        intro e he
        refine identifier_gives.bind fun field l hl hfield => ?_
        exact .making (he.passes.mono (Nat.le_refl start) hl) (fun _ => rfl)
          (fun _ => ⟨he.mono (Nat.le_refl start) hl, hfield.mono (by omega) (Nat.le_refl l), trivial⟩)
          fun _ _ he => .pure ⟨by omega, he⟩
      have hsource' := hsource.mono (Nat.le_refl start) hk
      dsimp only
      split
      · exact .making (hpasses.mono (Nat.le_refl start) hk) (fun _ => rfl)
          (fun _ => ⟨hsource', trivial⟩) fun _ _ he => hfield he
      · exact hfield hsource'

theorem term_gives {target : TargetParser} (ht : ∀ {i s}, Gives input i (target s)) :
    Gives input i (term target s) := by
  refine .showing fun t start hi _ ht' _ => .here ?_
  split
  · refine identifier_gives.bind fun name j hj hname => ?_
    exact .made hi (Input.Nests.passes hname name.label_ne_block) (fun _ => rfl) fun _ =>
      ⟨hname, trivial, trivial⟩
  · refine advance_reads.bind fun _ j hj _ => ht.bind fun inner k hk hinner => ?_
    exact expect_reads.bind fun _ l hl _ => .pure ⟨by omega, hinner.mono (by omega) hl⟩
  · refine advance_reads.bind fun _ j hj hstar => ht.bind fun operand k hk hoperand => ?_
    exact .made hi (hstar.passes.mono (Nat.le_refl start) hk) (fun _ => rfl) fun _ =>
      ⟨hoperand.mono hj (Nat.le_refl k), trivial⟩
  · exact .reject (input.marks_token ht')

include hg in
theorem ofDepth_gives (depth : Nat) : Gives input i (ofDepth g depth s) := by
  induction depth generalizing i s with
  | zero => exact .exhausted
  | succ depth ih =>
    rw [ofDepth_succ]
    refine .settled fun start hi _ => (term_gives ih).bind fun first j hj hfirst => ?_
    refine (Reads.foldWhile (I := fun k (e : Expr) => start ≤ k ∧ input.Holds start k e)
      ⟨hj, hfirst⟩ fun source k hsource => ?_).imp fun e k he =>
        ⟨Nat.le_trans hi he.1, he.2.mono hi (Nat.le_refl k)⟩
    refine (step_reads hg hsource.2).imp fun o l ho => ?_
    cases o with
    | none => exact ho
    | some e => exact ho

end TargetParser

end Grammar

end Whiley
