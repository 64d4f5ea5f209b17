import Whiley.Proofs.Grammar.Reads

namespace Whiley.Grammar

open Whiley.Parser

variable {input : Input} {i j k : Nat}

def Offers {α : Type} [Held α] (input : Input) (i j : Nat) (o : Option α) : Prop :=
  o.elim (j = i) (input.Holds i j)

theorem Offers.holds {α : Type} [Held α] {o : Option α} (h : Offers input i j o) :
    input.Holds i j o := by
  cases o with
  | none => exact .none
  | some x => exact .some h

theorem identifierOf_reads {lines : Bool} {t : Token} (ht : input.Takes lines k t i) :
    Stays input i (identifierOf t) (input.Holds k i) :=
  .allocateToken ht (fun _ => rfl) fun _ => rfl

theorem identifier_gives : Gives input i identifier :=
  expect_reads.bind fun _ _ hj ht => (identifierOf_reads ht.1).imp fun _ hx => ⟨hj, hx⟩

theorem holds_marks {x : Identifier} (h : input.Holds i j x) : input.Marks x.mark.span :=
  Input.Nests.marks h x.label_ne_block

theorem optionalIdentifier_reads : Goes input i optionalIdentifier (Offers input i) := by
  refine (accept_reads (by decide)).bind fun o j hj ho => ?_
  cases o with
  | none => exact .pure ⟨hj, ho⟩
  | some t => exact (identifierOf_reads ho.1).bind fun x hx => .pure ⟨hj, hx⟩

theorem nameOf_reads {x : Identifier} (hx : input.Holds i j x) :
    Stays input k (nameOf x) (input.Holds i j) :=
  .allocateOver (o := x.outline) hx x.label_ne_block (fun _ => rfl)
    fun _ _ hc => List.mem_singleton.mp hc

theorem qualifiedName_gives : Gives input i qualifiedName := by
  refine .settled fun start hi _ => identifier_gives.bind fun first j hj hfirst => ?_
  refine (afterEach_gives (by decide) fun _ _ => identifier_gives).bind fun rest k hk hrest => ?_
  have hall : input.Holds start k (first :: rest) :=
    .cons (hfirst.mono (by omega) hk) (hrest.mono hj (by omega))
  have hpasses : input.Passes start j := Input.Nests.passes hfirst first.label_ne_block
  exact .made hi (hpasses.mono (by omega) hk) (fun _ => rfl) fun _ => ⟨hall.outlines rfl, trivial⟩

theorem optionalLifetime_reads {lines : Bool} :
    Goes input i (optionalLifetime lines) (Offers input i) := by
  refine (accept_reads (by decide)).bind fun o j hj ho => ?_
  cases o with
  | none => exact .pure ⟨hj, ho⟩
  | some t => exact (identifierOf_reads ho.1).bind fun x hx => .pure ⟨hj, hx⟩

theorem lifetime_gives : Gives input i lifetime := by
  refine optionalLifetime_reads.bind fun o j hj ho => ?_
  cases o with
  | some l => exact .pure ⟨hj, ho⟩
  | none => exact .showing fun t _ _ _ ht _ => .reject (input.marks_token ht)

section Lifetimes

variable {s : Scope}

theorem checkAvailable_reads {x : Identifier} (hx : input.Holds i j x) :
    Stays input k (ofExcept (s.checkAvailable x)) fun _ => True := by
  refine .ofExcept (fun _ _ => trivial) fun e he => ?_
  rw [Scope.checkAvailable_error he]
  exact holds_marks hx

theorem checkLifetime_reads {x : Identifier} (hx : input.Holds i j x) :
    Stays input k (ofExcept (s.checkLifetime x)) fun _ => True := by
  refine .ofExcept (fun _ _ => trivial) fun e he => ?_
  rw [Scope.checkLifetime_error he]
  exact holds_marks hx

theorem declareLifetime_reads {x : Identifier} (hx : input.Holds i j x) :
    Stays input k (ofExcept (s.declareLifetime x)) (·.indent = s.indent) := by
  refine .ofExcept (fun s' hs' => ?_) fun e he => ?_
  · rw [(Scope.declareLifetime_ok hs').2]
    rfl
  · rw [Scope.declareLifetime_error he]
    exact holds_marks hx

theorem lifetimeParameter_reads : Goes input i (lifetimeParameter s) fun j x =>
    input.Holds i j x.1 ∧ x.2.indent = s.indent := by
  refine identifier_gives.bind fun l j hj hl => ?_
  exact (declareLifetime_reads hl).bind fun s' hindent => .pure ⟨hj, hl, hindent⟩

theorem lifetimeParameters_reads : Goes input i (lifetimeParameters s) fun j x =>
    input.Holds i j x.1 ∧ x.2.indent = s.indent := by
  refine lifetimeParameter_reads.bind fun x j hj hx => ?_
  refine (Reads.foldWhile (I := fun k (y : List Identifier × Scope) =>
    i ≤ k ∧ input.Holds i k y.1 ∧ y.2.indent = s.indent) ?_ fun y k hy => ?_).bind fun y k hy => ?_
  · exact ⟨hj, .cons hx.1 .nil, hx.2⟩
  · refine (accept_reads (by decide)).bind fun o l hl _ => ?_
    have hfound : input.Holds i l y.1 := hy.2.1.mono (by omega) hl
    cases o with
    | none => exact .pure ⟨Nat.le_trans hy.1 hl, hfound, hy.2.2⟩
    | some _ =>
      refine lifetimeParameter_reads.bind fun z m hm hz => .pure ?_
      have hi : i ≤ l := Nat.le_trans hy.1 hl
      exact ⟨Nat.le_trans hi hm, .cons (hz.1.mono hi (Nat.le_refl m)) (hfound.mono (Nat.le_refl i) hm),
        hz.2.trans hy.2.2⟩
  · refine expect_reads.bind fun _ l hl _ => .pure ?_
    exact ⟨Nat.le_trans hy.1 hl, hy.2.1.reverse.mono (Nat.le_refl i) hl, hy.2.2⟩

theorem optionalLifetimeParameters_reads : Goes input i (optionalLifetimeParameters s) fun j x =>
    input.Holds i j x.1 ∧ x.2.indent = s.indent := by
  refine (accept_reads (by decide)).bind fun o j hj _ => ?_
  cases o with
  | none => exact .pure ⟨hj, .nil, rfl⟩
  | some _ =>
    refine (accept_reads (by decide)).bind fun o k hk _ => ?_
    cases o with
    | some _ => exact .pure ⟨Nat.le_trans hj hk, .nil, rfl⟩
    | none =>
      have hi : i ≤ k := Nat.le_trans hj hk
      exact lifetimeParameters_reads.imp fun x l hx =>
        ⟨Nat.le_trans hi hx.1, hx.2.1.mono hi (Nat.le_refl l), hx.2.2⟩

end Lifetimes

theorem optionalLifetimeArguments_reads {s : Scope} {lines : Bool} :
    Goes input i (optionalLifetimeArguments s lines) (Offers input i) := by
  refine .here (expect_reads.bind fun _ j hj _ => ?_)
  refine .here ((accept_reads (by decide)).bind fun first k hk _ => ?_)
  split
  · refine .moved ((listUntil_gives fun _ _ => lifetime_gives).bind fun ls l hl hls => ?_)
    refine expect_reads.bind fun _ m hm _ => .pure ⟨by omega, ?_⟩
    exact hls.mono hj hm
  · exact .moved (.pure ⟨Nat.le_refl i, rfl⟩)

theorem optionalCaptures_gives : Gives input i optionalCaptures := by
  refine (accept_reads (by decide)).bind fun o j hj _ => ?_
  cases o with
  | none => exact .pure ⟨hj, .nil⟩
  | some _ =>
    refine (accept_reads (by decide)).bind fun o k hk _ => ?_
    cases o with
    | some _ => exact .pure ⟨Nat.le_trans hj hk, .nil⟩
    | none =>
      refine lifetime_gives.bind fun first l hl hfirst => ?_
      refine (afterEach_gives (by decide) fun _ _ => lifetime_gives).bind fun rest m hm hrest => ?_
      refine expect_reads.bind fun _ n hn _ => .pure ⟨by omega, ?_⟩
      exact .cons (hfirst.mono (by omega) (by omega)) (hrest.mono (by omega) (by omega))

namespace TypeParsers

/-- What the rules for types need of the grammar that they go back to. -/
structure Giving (input : Input) (g : TypeParsers) : Prop where
  type : ∀ {i s}, Gives input i (g.type s)
  array : ∀ {i s}, Gives input i (g.array s)

theorem holds_passes {t : TypeExpr} (h : input.Holds i j t) : input.Passes i j :=
  Input.Nests.passes h t.label_ne_block

theorem separated_gives {level : Scope → Parser TypeExpr} {separator : Kind}
    {build : Mark → List TypeExpr → TypeExpr} {label : String} {s : Scope}
    (hseparator : separator.isSpace = false) (hlevel : ∀ {j}, Gives input j (level s))
    (hbuild : ∀ m ts, (build m ts).outline =
      .node label m [.mk "operands" (.children (TypeExpr.outlines ts))]) :
    Gives input i (separated level separator build s) := by
  refine .settled fun start hi _ => hlevel.bind fun first j hj hfirst => ?_
  refine (afterEach_gives hseparator fun _ _ => hlevel).bind fun rest k hk hrest => ?_
  cases rest with
  | nil => exact .pure ⟨by omega, hfirst.mono hi hk⟩
  | cons t ts =>
    have hall : input.Holds start k (first :: t :: ts) :=
      .cons (hfirst.mono (by omega) hk) (hrest.mono hj (by omega))
    exact .made hi ((holds_passes hfirst).mono (by omega) hk) (fun m => hbuild m _)
      fun _ => ⟨hall.outlines (TypeExpr.outlines_eq _), trivial⟩

section Rules

variable {g : TypeParsers} (hg : g.Giving input) {s : Scope}

include hg

theorem parameterTypes_reads : Goes input i (g.parameterTypes s) fun j ts =>
    input.Holds i j ts ∧ input.Passes i j := by
  refine expect_reads.bind fun _ j hj hopen => ?_
  refine (listUntil_gives fun _ _ => hg.type).imp fun ts k hts => ?_
  exact ⟨by omega, hts.2.mono hj (Nat.le_refl k), hopen.1.passes.mono (Nat.le_refl i) hts.1⟩

theorem returnTypes_gives : Gives input i (g.returnTypes s) := by
  refine ahead_reads.bind fun b _ => ?_
  split
  · exact (parameterTypes_reads hg).imp fun ts k hts => ⟨hts.1, hts.2.1⟩
  · exact hg.type.bind fun t k hk ht => .pure ⟨hk, .cons ht .nil⟩

theorem optionalReturnTypes_gives : Gives input i (g.optionalReturnTypes s) := by
  refine (accept_reads (by decide)).bind fun o j hj _ => ?_
  cases o with
  | none => exact .pure ⟨hj, .nil⟩
  | some _ =>
    exact (returnTypes_gives hg).imp fun ts k hts => ⟨by omega, hts.2.mono hj (Nat.le_refl k)⟩

theorem typeThenName_gives : Gives input i (g.typeThenName s) :=
  hg.type.bind fun _ _ hj ht => identifier_gives.bind fun _ k hk hx =>
    .pure ⟨by omega, ht.mono (by omega) hk, hx.mono hj (Nat.le_refl k)⟩

theorem namedMethod_gives {start : Nat} (hstart : start < i) (hpasses : input.Passes start i)
    (x : List Identifier × Scope) (hx : input.Holds start i x.1) :
    Reads input i (do
      match ← optionalIdentifier with
      | none =>
        moveTo start
        g.typeThenName s
      | some name =>
        let parameters ← g.parameterTypes x.2
        let returns ← g.optionalReturnTypes x.2
        return (← make start (TypeExpr.method · parameters returns [] x.1), name))
      fun j y => start ≤ j ∧ input.Holds start j y := by
  refine optionalIdentifier_reads.bind fun o j hj ho => ?_
  cases o with
  -- without a name the keyword began a type, which is read again from its start
  | none => exact .moved (typeThenName_gives hg)
  | some name =>
    refine (parameterTypes_reads hg).bind fun ps k hk hps => ?_
    refine (optionalReturnTypes_gives hg).bind fun rs l hl hrs => ?_
    have hps' : input.Holds start l ps := hps.1.mono (by omega) (by omega)
    have hrs' : input.Holds start l rs := hrs.mono (by omega) (by omega)
    have hls : input.Holds start l x.1 := hx.mono (by omega) (by omega)
    refine .making (hpasses.mono (by omega) (by omega)) (fun _ => rfl) (fun _ =>
      ⟨hps'.outlines (TypeExpr.outlines_eq _), hrs'.outlines (TypeExpr.outlines_eq _),
        fun _ h => absurd h List.not_mem_nil, hls.outlines rfl, trivial⟩) fun _ _ ht => .pure ?_
    exact ⟨by omega, ht, ho.holds.mono (by omega) (by omega) name rfl⟩

theorem named_gives : Gives input i (g.named s) := by
  refine .here ((accept_reads (by decide)).bind fun o j hj ho => ?_)
  cases o with
  | none =>
    obtain rfl := ho
    exact typeThenName_gives hg
  | some keyword =>
    have hpasses : input.Passes i j := ho.1.passes
    have hij := hpasses.lt
    dsimp only
    split
    · refine optionalIdentifier_reads.bind fun o k hk ho => ?_
      cases o with
      | none => exact .moved (typeThenName_gives hg)
      | some name =>
        refine (parameterTypes_reads hg).bind fun ps l hl hps => ?_
        refine expect_reads.bind fun _ m hm _ => (returnTypes_gives hg).bind fun rs n hn hrs => ?_
        have hps' : input.Holds i n ps := hps.1.mono (by omega) (by omega)
        have hrs' : input.Holds i n rs := hrs.mono (by omega) (by omega)
        refine .making (hpasses.mono (by omega) (by omega)) (fun _ => rfl) (fun _ =>
          ⟨hps'.outlines (TypeExpr.outlines_eq _), hrs'.outlines (TypeExpr.outlines_eq _),
            trivial⟩) fun _ _ ht => .pure ?_
        exact ⟨by omega, ht, ho.holds.mono (by omega) (by omega) name rfl⟩
    · refine (accept_reads (by decide)).bind fun o k hk _ => ?_
      cases o with
      | none =>
        exact Reads.bind (.pure (Q := fun l (x : List Identifier × Scope) => k ≤ l ∧
            input.Holds k l x.1) ⟨Nat.le_refl k, .nil⟩) fun x l hx =>
          namedMethod_gives hg (by omega) (hpasses.mono (by omega) (by omega)) x
            (hx.2.mono (by omega) (by omega))
      | some _ =>
        exact lifetimeParameters_reads.bind fun x l hl hx =>
          namedMethod_gives hg (by omega) (hpasses.mono (by omega) (by omega)) x
            (hx.1.mono (by omega) (by omega))

theorem field_gives : Gives input i (g.field s) := by
  refine .settled fun start hi _ => (named_gives hg).bind fun x j hj hx => ?_
  exact .made hi (holds_passes hx.1) (fun _ => rfl) fun _ => ⟨hx.1, hx.2, trivial⟩

omit hg in
theorem holds_fieldName {f : Field} (h : input.Holds i j f) : input.Holds i j f.name := by
  obtain ⟨m, type, name⟩ := f
  exact Input.Nests.children h name.outline (by simp [ToNode.toNode, Node.outline, Field.outline,
    Outline.children, Outline.entries, Entry.nodes, Content.nodes])

theorem record_gives : Gives input i (g.record s) := by
  refine .here (expect_reads.bind fun _ j hj hopen => (field_gives hg).bind fun first k hk hfirst => ?_)
  have hpasses : input.Passes i j := hopen.1.passes
  have hij := hpasses.lt
  refine Reads.bind (.repeating (I := fun l (found : List Field) => j ≤ l ∧ input.Holds j l found)
    (Q := fun l (x : Bool × List Field) => j ≤ l ∧ input.Holds j l x.2) ⟨hk, .cons hfirst .nil⟩
    fun found l hfound => ?_) fun x l hx => ?_
  · refine acceptNext_reads.bind fun o m hm _ => ?_
    have hmore : ∀ n, m ≤ n → j ≤ n ∧ input.Holds j n found := fun n hn =>
      ⟨by omega, hfound.2.mono (Nat.le_refl j) (by omega)⟩
    cases o with
    | some _ => exact .pure (hmore m (Nat.le_refl m))
    | none =>
      refine expect_reads.bind fun _ n hn _ => (accept_reads (by decide)).bind fun o p hp _ => ?_
      cases o with
      | some _ => exact expect_reads.bind fun _ q hq _ => .pure (hmore q (by omega))
      | none =>
        refine (field_gives hg).bind fun next q hq hnext => ?_
        split
        · exact .reject (holds_marks (holds_fieldName hnext))
        · obtain ⟨hjq, hrest⟩ := hmore q (by omega)
          exact .pure ⟨hjq, .cons (hnext.mono (by omega) (Nat.le_refl q)) hrest⟩
  · have hfields : input.Holds i l x.2.reverse := hx.2.reverse.mono (by omega) (Nat.le_refl l)
    exact .made (Nat.le_refl i) (hpasses.mono (Nat.le_refl i) hx.1) (fun _ => rfl) fun _ =>
      ⟨trivial, hfields.outlines (Field.outlines_eq _), trivial⟩

theorem plainReference_gives {start inside : Nat} (hstart : start ≤ inside)
    (hpasses : input.Passes start inside) :
    Reads input i (g.plainReference s start inside) fun j t => start ≤ j ∧ input.Holds start j t := by
  refine .moved (hg.array.bind fun element j hj helement => ?_)
  exact .made (Nat.le_refl start) (hpasses.mono (Nat.le_refl start) hj) (fun _ => rfl) fun _ =>
    ⟨helement.mono hstart (Nat.le_refl j), trivial, trivial⟩

theorem reference_gives : Gives input i (g.reference s) := by
  refine .here (expect_reads.bind fun _ j hj hamp => .here ?_)
  have hpasses : input.Passes i j := hamp.1.passes
  refine optionalLifetime_reads.bind fun o k hk ho => ?_
  cases o with
  | none => exact plainReference_gives hg hj hpasses
  | some l =>
    refine (accept_reads (by decide)).bind fun o m hm _ => ?_
    cases o with
    | none => exact plainReference_gives hg hj hpasses
    | some _ =>
      have hl : input.Holds j k l := ho
      refine atLineEnd_reads.bind fun b _ => ?_
      split
      · exact plainReference_gives hg hj hpasses
      · refine (checkLifetime_reads hl).bind fun _ _ => hg.array.bind fun element n hn helement => ?_
        exact .made (Nat.le_refl i) (hpasses.mono (Nat.le_refl i) (by omega)) (fun _ => rfl)
          fun _ => ⟨helement.mono (by omega) (Nat.le_refl n), hl.mono hj (by omega), trivial⟩

theorem function_gives : Gives input i (g.function s) := by
  refine .here (advance_reads.bind fun _ j hj hkeyword => ?_)
  refine (parameterTypes_reads hg).bind fun ps k hk hps => ?_
  refine expect_reads.bind fun _ l hl _ => (returnTypes_gives hg).bind fun rs m hm hrs => ?_
  have hps' : input.Holds i m ps := hps.1.mono (by omega) (by omega)
  have hrs' : input.Holds i m rs := hrs.mono (by omega) (by omega)
  exact .made (Nat.le_refl i) (hkeyword.passes.mono (Nat.le_refl i) (by omega)) (fun _ => rfl)
    fun _ => ⟨hps'.outlines (TypeExpr.outlines_eq _), hrs'.outlines (TypeExpr.outlines_eq _), trivial⟩

theorem method_gives : Gives input i (g.method s) := by
  refine .here (advance_reads.bind fun _ j hj hkeyword => ?_)
  refine optionalCaptures_gives.bind fun captures k hk hcaptures => ?_
  refine optionalLifetimeParameters_reads.bind fun x l hl hx => ?_
  refine (parameterTypes_reads hg).bind fun ps m hm hps => ?_
  refine (optionalReturnTypes_gives hg).bind fun rs n hn hrs => ?_
  have hps' : input.Holds i n ps := hps.1.mono (by omega) (by omega)
  have hrs' : input.Holds i n rs := hrs.mono (by omega) (by omega)
  have hcaptures' : input.Holds i n captures := hcaptures.mono (by omega) (by omega)
  have hlifetimes : input.Holds i n x.1 := hx.1.mono (by omega) (by omega)
  exact .made (Nat.le_refl i) (hkeyword.passes.mono (Nat.le_refl i) (by omega)) (fun _ => rfl)
    fun _ => ⟨hps'.outlines (TypeExpr.outlines_eq _), hrs'.outlines (TypeExpr.outlines_eq _),
      hcaptures'.outlines rfl, hlifetimes.outlines rfl, trivial⟩

theorem base_gives : Gives input i (g.base s) := by
  refine .showing fun t start hi _ ht _ => .here ?_
  have hprimitive : Reads input start (do
      let _ ← advance
      make start (TypeExpr.primitive · t.text)) fun j x => i ≤ j ∧ input.Holds i j x :=
    advance_reads.bind fun _ _ _ hkeyword => .made hi hkeyword.passes (fun _ => rfl) fun _ =>
      ⟨trivial, trivial⟩
  have hlater : ∀ {p : Parser TypeExpr}, Gives input start p →
      Reads input start p fun j x => i ≤ j ∧ input.Holds i j x :=
    fun h => h.imp fun x j hx => ⟨Nat.le_trans hi hx.1, hx.2.mono hi (Nat.le_refl j)⟩
  split
  · exact hprimitive
  · exact hprimitive
  · exact hprimitive
  · exact hprimitive
  · exact hprimitive
  · exact hprimitive
  · refine advance_reads.bind fun _ j hj _ => hg.type.bind fun inner k hk hinner => ?_
    exact expect_reads.bind fun _ l hl _ => .pure ⟨by omega, hinner.mono (by omega) hl⟩
  · refine advance_reads.bind fun _ j hj hopen => hg.type.bind fun element k hk helement => ?_
    exact expect_reads.bind fun _ l hl _ => .made hi (hopen.passes.mono (Nat.le_refl start) (by omega))
      (fun _ => rfl) fun _ => ⟨helement.mono hj hl, trivial⟩
  · exact hlater (record_gives hg)
  · refine advance_reads.bind fun _ j hj hbang => hg.array.bind fun element k hk helement => ?_
    exact .made hi (hbang.passes.mono (Nat.le_refl start) hk) (fun _ => rfl) fun _ =>
      ⟨helement.mono hj (Nat.le_refl k), trivial⟩
  · exact hlater (reference_gives hg)
  · refine qualifiedName_gives.bind fun name j hj hname => ?_
    exact .made hi (Input.Nests.passes hname name.label_ne_block) (fun _ => rfl) fun _ =>
      ⟨hname, trivial⟩
  · exact hlater (function_gives hg)
  · exact hlater (method_gives hg)
  · exact .reject (input.marks_token ht)

theorem arrayOf_gives : Gives input i (g.arrayOf s) := by
  refine .settled fun start hi _ => (base_gives hg).bind fun first j hj hfirst => ?_
  refine (Reads.foldWhile (I := fun k (t : TypeExpr) => start ≤ k ∧ input.Holds start k t)
    ⟨hj, hfirst⟩ fun element k helement => ?_).imp fun t k ht =>
      ⟨Nat.le_trans hi ht.1, ht.2.mono hi (Nat.le_refl k)⟩
  refine (accept_reads (by decide)).bind fun o l hl _ => ?_
  cases o with
  | none => exact .pure ⟨Nat.le_trans helement.1 hl, helement.2.mono (Nat.le_refl start) hl⟩
  | some _ =>
    refine expect_reads.bind fun _ m hm _ => ?_
    exact .making ((holds_passes helement.2).mono (Nat.le_refl start) (by omega)) (fun _ => rfl)
      (fun _ => ⟨helement.2.mono (Nat.le_refl start) (by omega), trivial⟩) fun _ _ ht => .pure
        ⟨by omega, ht⟩

end Rules

theorem next_giving {g : TypeParsers} (hg : g.Giving input) : g.next.Giving input where
  type :=
    separated_gives (by decide) (separated_gives (by decide) hg.array fun _ _ => rfl) fun _ _ => rfl
  array := arrayOf_gives hg

theorem ofDepth_giving (depth : Nat) : (ofDepth depth).Giving input := by
  induction depth with
  | zero => exact ⟨.exhausted, .exhausted⟩
  | succ depth ih =>
    rw [ofDepth_succ]
    exact next_giving ih

end TypeParsers

end Whiley.Grammar
