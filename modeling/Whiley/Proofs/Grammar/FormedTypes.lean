import Mathlib.Data.List.Nodup
import Whiley.Proofs.Grammar.Ensures
import Whiley.Proofs.Tree.Formed

namespace Whiley.Grammar

open Whiley.Parser

variable {r : Run}

theorem identifierOf_ensures {t : Token} : Ensures r (identifierOf t) (·.text = t.text) :=
  .allocate fun _ _ => rfl

theorem identifier_ensures : Ensures r identifier (·.IsWord) := by
  refine Ensures.expect.bind fun t ht => identifierOf_ensures.mono fun i hi => ?_
  rw [Identifier.IsWord, hi]
  exact r.word ht.1 ht.2

theorem optionalIdentifier_ensures :
    Ensures r optionalIdentifier fun o => ∀ i, o = some i → i.IsWord := by
  refine Ensures.accept.bind fun found hfound => ?_
  cases found with
  | none => exact .pure nofun
  | some t =>
    refine (identifierOf_ensures.mono fun i hi => ?_).found
    obtain ⟨ht, hk⟩ := hfound t rfl
    rw [Identifier.IsWord, hi]
    exact r.word ht (by simpa using hk)

theorem nameOf_ensures {i : Identifier} (hi : i.IsWord) : Ensures r (nameOf i) (·.Formed) :=
  .allocate fun _ _ => ⟨by simp, by simpa using hi⟩

theorem qualifiedName_ensures : Ensures r qualifiedName (·.Formed) := by
  refine Ensures.settle.bind fun start _ => ?_
  refine identifier_ensures.bind fun first hfirst => ?_
  refine (Ensures.afterEach identifier_ensures).bind fun rest hrest => ?_
  exact .make fun _ _ => ⟨by simp, by simpa using ⟨hfirst, hrest⟩⟩

theorem isLifetime_of_token {t : Token} {i : Identifier} (ht : t ∈ r.input.tokens)
    (hk : t.kind ∈ [Kind.identifier, .kwThis, .star]) (hi : i.text = t.text) : i.IsLifetime := by
  simp only [List.mem_cons, List.not_mem_nil, or_false] at hk
  rcases hk with hk | hk | hk
  · left
    rw [Identifier.IsWord, hi]
    exact r.word ht hk
  · right; left
    rw [hi, r.text_of_fixed ht (by rw [hk]; decide), hk]
    rfl
  · right; right
    rw [hi, r.text_of_fixed ht (by rw [hk]; decide), hk]
    rfl

theorem optionalLifetime_ensures {lines : Bool} :
    Ensures r (optionalLifetime lines) fun o => ∀ l, o = some l → l.IsLifetime := by
  refine Ensures.accept.bind fun found hfound => ?_
  cases found with
  | none => exact .pure nofun
  | some t =>
    refine (identifierOf_ensures.mono fun i hi => ?_).found
    obtain ⟨ht, hk⟩ := hfound t rfl
    exact isLifetime_of_token ht hk hi

theorem lifetime_ensures : Ensures r lifetime (·.IsLifetime) := by
  refine optionalLifetime_ensures.bind fun found hfound => ?_
  cases found with
  | some l => exact .pure (hfound l rfl)
  | none => exact Ensures.current.bind fun _ _ => .reject

theorem lifetimeParameter_ensures {s : Scope} : Ensures r (lifetimeParameter s)
    fun x => x.1.IsWord ∧ s.isAvailable x.1.text ∧ x.2 = s.addLifetime x.1 := by
  refine identifier_ensures.bind fun l hl => ?_
  refine (Ensures.ofExcept fun s' hs' => ?_).bind fun s' hs' => .pure ⟨hl, hs'⟩
  exact Scope.declareLifetime_ok hs'

theorem declares_append {s : Scope} {ls ls' : List Identifier} :
    s.Declares (ls ++ ls') ↔ s.Declares ls ∧ (s.addLifetimes ls).Declares ls' := by
  induction ls generalizing s with
  | nil => simp [Scope.Declares, Scope.addLifetimes]
  | cons l ls ih => simp [Scope.Declares, ih, Scope.addLifetimes, and_assoc]

theorem addLifetimes_append {s : Scope} {ls ls' : List Identifier} :
    s.addLifetimes (ls ++ ls') = (s.addLifetimes ls).addLifetimes ls' := by
  simp [Scope.addLifetimes]

theorem lifetimeParameters_ensures {s : Scope} : Ensures r (lifetimeParameters s)
    fun x => s.Declares x.1 ∧ x.2 = s.addLifetimes x.1 := by
  refine lifetimeParameter_ensures.bind fun x hx => ?_
  obtain ⟨first, s'⟩ := x
  refine (Ensures.foldWhile (fun y => s.Declares y.1.reverse ∧ y.2 = s.addLifetimes y.1.reverse) ?_
    fun y hy => ?_).bind fun y hy => Ensures.expect.bind fun _ _ => .pure hy
  · exact ⟨⟨hx.1, hx.2.1, trivial⟩, hx.2.2⟩
  · obtain ⟨found, s''⟩ := y
    obtain ⟨hdeclares, hscope⟩ := hy
    obtain rfl : s'' = s.addLifetimes found.reverse := hscope
    refine Ensures.accept.bind fun t _ => ?_
    cases t with
    | none => exact .pure nofun
    | some _ =>
      refine lifetimeParameter_ensures.bind fun x hx => .pure ?_
      rintro _ ⟨⟩
      obtain ⟨hword, havailable, hscope⟩ := hx
      simp only [List.reverse_cons, declares_append, addLifetimes_append]
      exact ⟨⟨hdeclares, hword, havailable, trivial⟩, hscope⟩

theorem optionalLifetimeParameters_ensures {s : Scope} : Ensures r (optionalLifetimeParameters s)
    fun x => s.Declares x.1 ∧ x.2 = s.addLifetimes x.1 := by
  refine Ensures.accept.bind fun opening _ => ?_
  cases opening with
  | none => exact .pure ⟨trivial, rfl⟩
  | some _ =>
    refine Ensures.accept.bind fun closing _ => ?_
    cases closing with
    | some _ => exact .pure ⟨trivial, rfl⟩
    | none => exact lifetimeParameters_ensures

theorem optionalLifetimeArguments_ensures {s : Scope} {lines : Bool} :
    Ensures r (optionalLifetimeArguments s lines)
      fun o => ∀ ls, o = some ls → ∀ l ∈ ls, l.IsLifetime := by
  refine Ensures.position.bind fun start _ => ?_
  refine Ensures.expect.bind fun _ _ => ?_
  refine Ensures.position.bind fun inside _ => ?_
  refine Ensures.accept.bind fun first _ => ?_
  split
  · refine Ensures.moveTo.bind fun _ _ => ?_
    refine (Ensures.listUntil lifetime_ensures).bind fun ls hls => ?_
    refine Ensures.expect.bind fun _ _ => .pure ?_
    rintro _ ⟨⟩
    exact hls
  · exact Ensures.moveTo.bind fun _ _ => .pure nofun

theorem optionalCaptures_ensures :
    Ensures r optionalCaptures fun ls => ∀ l ∈ ls, l.IsLifetime := by
  refine Ensures.accept.bind fun opening _ => ?_
  cases opening with
  | none => exact .pure (by simp)
  | some _ =>
    refine Ensures.accept.bind fun closing _ => ?_
    cases closing with
    | some _ => exact .pure (by simp)
    | none =>
      refine lifetime_ensures.bind fun first hfirst => ?_
      refine (Ensures.afterEach lifetime_ensures).bind fun rest hrest => ?_
      exact Ensures.expect.bind fun _ _ => .pure (by simpa using ⟨hfirst, hrest⟩)

structure TypeParsers.Sound (r : Run) (g : TypeParsers) : Prop where
  type : ∀ s, Ensures r (g.type s) (·.Formed s)
  array : ∀ s, Ensures r (g.array s) (·.Formed s)

namespace TypeParsers

variable {g : TypeParsers} {s : Scope}

theorem separated_ensures {level : Scope → Parser TypeExpr} {separator : Kind}
    {build : Mark → List TypeExpr → TypeExpr} (hlevel : Ensures r (level s) (·.Formed s))
    (hbuild : ∀ m ts, 2 ≤ ts.length → TypeExpr.AllFormed s ts → (build m ts).Formed s) :
    Ensures r (separated level separator build s) (·.Formed s) := by
  refine Ensures.settle.bind fun start _ => ?_
  refine hlevel.bind fun first hfirst => ?_
  refine (Ensures.afterEach hlevel).bind fun rest hrest => ?_
  cases rest with
  | nil => exact .pure hfirst
  | cons second rest =>
    refine .make fun m _ => hbuild m _ (by simp) ?_
    rw [TypeExpr.allFormed_iff]
    intro t ht
    rcases List.mem_cons.mp ht with rfl | ht
    · exact hfirst
    · exact hrest t ht

theorem parameterTypes_ensures (hg : g.Sound r) :
    Ensures r (g.parameterTypes s) (TypeExpr.AllFormed s) := by
  refine Ensures.expect.bind fun _ _ => ?_
  exact (Ensures.listUntil (hg.type s)).mono fun ts hts => TypeExpr.allFormed_iff.mpr hts

theorem returnTypes_ensures (hg : g.Sound r) :
    Ensures r (g.returnTypes s) (TypeExpr.AllFormed s) := by
  refine Ensures.ahead.bind fun b _ => ?_
  split
  · exact parameterTypes_ensures hg
  · exact (hg.type s).bind fun t ht => .pure ⟨ht, trivial⟩

theorem optionalReturnTypes_ensures (hg : g.Sound r) :
    Ensures r (g.optionalReturnTypes s) (TypeExpr.AllFormed s) := by
  refine Ensures.accept.bind fun arrow _ => ?_
  cases arrow with
  | none => exact .pure trivial
  | some _ => exact returnTypes_ensures hg

theorem typeThenName_ensures (hg : g.Sound r) :
    Ensures r (g.typeThenName s) fun x => x.1.Formed s ∧ x.2.IsWord := by
  refine (hg.type s).bind fun t ht => ?_
  exact identifier_ensures.bind fun i hi => .pure ⟨ht, hi⟩

theorem namedMethod_ensures (hg : g.Sound r) (start : Nat) (x : List Identifier × Scope)
    (hx : s.Declares x.1 ∧ x.2 = s.addLifetimes x.1) :
    Ensures r (do
      match ← optionalIdentifier with
      | none =>
        moveTo start
        g.typeThenName s
      | some name =>
        let parameters ← g.parameterTypes x.2
        let returns ← g.optionalReturnTypes x.2
        return (← make start (TypeExpr.method · parameters returns [] x.1), name))
      fun x => x.1.Formed s ∧ x.2.IsWord := by
  obtain ⟨lifetimes, inner⟩ := x
  obtain ⟨hdeclares, hinner⟩ := hx
  obtain rfl : inner = s.addLifetimes lifetimes := hinner
  refine optionalIdentifier_ensures.bind fun name hname => ?_
  cases name with
  | none => exact Ensures.moveTo.bind fun _ _ => typeThenName_ensures hg
  | some name =>
    refine (parameterTypes_ensures hg).bind fun parameters hparameters => ?_
    refine (optionalReturnTypes_ensures hg).bind fun returns hreturns => ?_
    refine (Ensures.make (Q := (·.Formed s)) fun m _ => ?_).bind fun t ht =>
      .pure ⟨ht, hname name rfl⟩
    exact ⟨by simp, hdeclares, hparameters, hreturns⟩

theorem named_ensures (hg : g.Sound r) :
    Ensures r (g.named s) fun x => x.1.Formed s ∧ x.2.IsWord := by
  refine Ensures.position.bind fun start _ => ?_
  refine Ensures.accept.bind fun keyword _ => ?_
  cases keyword with
  | none => exact typeThenName_ensures hg
  | some keyword =>
    dsimp only
    split
    · refine optionalIdentifier_ensures.bind fun name hname => ?_
      cases name with
      | none => exact Ensures.moveTo.bind fun _ _ => typeThenName_ensures hg
      | some name =>
        refine (parameterTypes_ensures hg).bind fun parameters hparameters => ?_
        refine Ensures.expect.bind fun _ _ => ?_
        refine (returnTypes_ensures hg).bind fun returns hreturns => ?_
        refine (Ensures.make (Q := (·.Formed s)) fun m _ => ?_).bind fun t ht =>
          .pure ⟨ht, hname name rfl⟩
        exact ⟨hparameters, hreturns⟩
    · refine Ensures.accept.bind fun opening _ => ?_
      cases opening with
      | none => exact (Ensures.pure ⟨trivial, rfl⟩).bind (namedMethod_ensures hg start)
      | some _ => exact lifetimeParameters_ensures.bind (namedMethod_ensures hg start)

theorem field_ensures (hg : g.Sound r) :
    Ensures r (g.field s) fun f => f.type.Formed s ∧ f.name.IsWord := by
  refine Ensures.settle.bind fun start _ => ?_
  refine (named_ensures hg).bind fun x hx => ?_
  exact .make fun _ _ => hx

def FieldsFound (s : Scope) (found : List Field) : Prop :=
  found ≠ [] ∧ (found.map (·.name.text)).Nodup ∧ ∀ f ∈ found, f.type.Formed s ∧ f.name.IsWord

theorem FieldsFound.formed {found : List Field} (h : FieldsFound s found) (m : Mark) (isOpen : Bool) :
    (TypeExpr.record m isOpen found.reverse).Formed s := by
  obtain ⟨hne, hnodup, hall⟩ := h
  refine ⟨by simpa using hne, by simpa [List.nodup_reverse] using hnodup, ?_⟩
  rw [Field.allFormed_iff]
  exact fun f hf => hall f (List.mem_reverse.mp hf)

theorem record_ensures (hg : g.Sound r) : Ensures r (g.record s) (·.Formed s) := by
  refine Ensures.position.bind fun start _ => ?_
  refine Ensures.expect.bind fun _ _ => ?_
  refine (field_ensures hg).bind fun first hfirst => ?_
  refine (Ensures.repeating (FieldsFound s) (Q := fun x => FieldsFound s x.2) ?_
    fun found hfound => ?_).bind fun x hx => .make fun m _ => hx.formed m x.1
  · exact ⟨by simp, by simp, by simpa using hfirst⟩
  · refine Ensures.acceptNext.bind fun closing _ => ?_
    cases closing with
    | some _ => exact .pure hfound
    | none =>
      refine Ensures.expect.bind fun _ _ => ?_
      refine Ensures.accept.bind fun dots _ => ?_
      cases dots with
      | some _ => exact Ensures.expect.bind fun _ _ => .pure hfound
      | none =>
        refine (field_ensures hg).bind fun next hnext => ?_
        split
        · exact .reject
        · rename_i hnew
          exact .pure ⟨by simp, List.nodup_cons.mpr ⟨hnew, hfound.2.1⟩,
            by simpa using ⟨hnext, hfound.2.2⟩⟩

theorem plainReference_ensures (hg : g.Sound r) {start inside : Nat} :
    Ensures r (g.plainReference s start inside) (·.Formed s) := by
  refine Ensures.moveTo.bind fun _ _ => ?_
  refine (hg.array s).bind fun element helement => ?_
  exact .make fun _ _ => ⟨nofun, helement⟩

theorem reference_ensures (hg : g.Sound r) : Ensures r (g.reference s) (·.Formed s) := by
  refine Ensures.position.bind fun start _ => ?_
  refine Ensures.expect.bind fun _ _ => ?_
  refine Ensures.position.bind fun inside _ => ?_
  refine optionalLifetime_ensures.bind fun lifetime hlifetime => ?_
  cases lifetime with
  | none => exact plainReference_ensures hg
  | some l =>
    refine Ensures.accept.bind fun colon _ => ?_
    cases colon with
    | none => exact plainReference_ensures hg
    | some _ =>
      refine Ensures.atLineEnd.bind fun b _ => ?_
      split
      · exact plainReference_ensures hg
      · refine (Ensures.ofExcept (Q := fun _ => s.isLifetime l.text) fun _ h =>
          Scope.checkLifetime_ok h).bind fun _ hvalid => ?_
        refine (hg.array s).bind fun element helement => .make fun _ _ => ⟨?_, helement⟩
        rintro _ ⟨⟩
        exact ⟨hlifetime l rfl, hvalid⟩

theorem function_ensures (hg : g.Sound r) : Ensures r (g.function s) (·.Formed s) := by
  refine Ensures.position.bind fun start _ => ?_
  refine Ensures.advance.bind fun _ _ => ?_
  refine (parameterTypes_ensures hg).bind fun parameters hparameters => ?_
  refine Ensures.expect.bind fun _ _ => ?_
  refine (returnTypes_ensures hg).bind fun returns hreturns => ?_
  exact .make fun _ _ => ⟨hparameters, hreturns⟩

theorem method_ensures (hg : g.Sound r) : Ensures r (g.method s) (·.Formed s) := by
  refine Ensures.position.bind fun start _ => ?_
  refine Ensures.advance.bind fun _ _ => ?_
  refine optionalCaptures_ensures.bind fun captures hcaptures => ?_
  refine optionalLifetimeParameters_ensures.bind fun x hx => ?_
  obtain ⟨lifetimes, inner⟩ := x
  obtain ⟨hdeclares, hinner⟩ := hx
  obtain rfl : inner = s.addLifetimes lifetimes := hinner
  refine (parameterTypes_ensures hg).bind fun parameters hparameters => ?_
  refine (optionalReturnTypes_ensures hg).bind fun returns hreturns => ?_
  exact .make fun _ _ => ⟨hcaptures, hdeclares, hparameters, hreturns⟩

theorem base_ensures (hg : g.Sound r) : Ensures r (g.base s) (·.Formed s) := by
  refine Ensures.current.bind fun t ht => ?_
  refine Ensures.position.bind fun start _ => ?_
  have hprimitive (hk : t.kind ∈ [Kind.kwVoid, .kwAny, .kwNull, .kwBool, .kwByte, .kwInt]) :
      Ensures r (do
        let _ ← advance
        make start (TypeExpr.primitive · t.text)) (·.Formed s) := by
    refine Ensures.advance.bind fun _ _ => .make fun _ _ => ?_
    have hfixed : t.kind ∉ Kind.classes := fun h => by revert h hk; cases t.kind <;> decide
    rw [TypeExpr.Formed, r.text_of_fixed ht hfixed]
    revert hk
    cases t.kind <;> decide
  split
  · exact hprimitive (by simp [*])
  · exact hprimitive (by simp [*])
  · exact hprimitive (by simp [*])
  · exact hprimitive (by simp [*])
  · exact hprimitive (by simp [*])
  · exact hprimitive (by simp [*])
  · refine Ensures.advance.bind fun _ _ => ?_
    refine (hg.type s).bind fun inner hinner => ?_
    exact Ensures.expect.bind fun _ _ => .pure hinner
  · refine Ensures.advance.bind fun _ _ => ?_
    refine (hg.type s).bind fun element helement => ?_
    exact Ensures.expect.bind fun _ _ => .make fun _ _ => helement
  · exact record_ensures hg
  · refine Ensures.advance.bind fun _ _ => ?_
    exact (hg.array s).bind fun element helement => .make fun _ _ => helement
  · exact reference_ensures hg
  · exact qualifiedName_ensures.bind fun name hname => .make fun _ _ => hname
  · exact function_ensures hg
  · exact method_ensures hg
  · exact .reject

theorem arrayOf_ensures (hg : g.Sound r) : Ensures r (g.arrayOf s) (·.Formed s) := by
  refine Ensures.settle.bind fun start _ => ?_
  refine (base_ensures hg).bind fun element helement => ?_
  refine Ensures.foldWhile (TypeExpr.Formed s) helement fun element helement => ?_
  refine Ensures.accept.bind fun opening _ => ?_
  cases opening with
  | none => exact .pure nofun
  | some _ =>
    refine Ensures.expect.bind fun _ _ => ?_
    exact (Ensures.make fun _ _ => by exact helement).found

theorem next_sound (hg : g.Sound r) : g.next.Sound r where
  type s := by
    refine separated_ensures ?_ fun _ _ hlen hall => ⟨hlen, hall⟩
    exact separated_ensures (hg.array s) fun _ _ hlen hall => ⟨hlen, hall⟩
  array _ := arrayOf_ensures hg

theorem ofDepth_sound (depth : Nat) : (ofDepth depth).Sound r := by
  induction depth with
  | zero => exact ⟨fun _ => .exhausted, fun _ => .exhausted⟩
  | succ depth ih =>
    rw [ofDepth_succ]
    exact next_sound ih

end TypeParsers

end Whiley.Grammar
