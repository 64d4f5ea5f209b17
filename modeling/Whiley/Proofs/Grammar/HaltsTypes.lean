import Whiley.Grammar.Types
import Whiley.Proofs.Grammar.Halts

namespace Whiley.Grammar

open Whiley.Parser

variable {α : Type} {r : Anchored} {i j k : Nat}

/-- Nothing is given and nothing taken, or a token was taken. -/
def Offered (r : Anchored) (i j : Nat) (o : Option α) : Prop :=
  o.elim (j = i) fun _ => r.input.Past i j

theorem Offered.le {o : Option α} (h : Offered r i j o) : i ≤ j := by
  cases o with
  | none => exact Nat.le_of_eq (Eq.symm h)
  | some x => exact Nat.le_of_lt (And.left h)

theorem identifierOf_rests {t : Token} : Rests r i (identifierOf t) :=
  fun _ => rfl

theorem identifier_halts : Halts r i identifier fun j _ =>
    ∃ t, r.input.Takes true i t j ∧ t.kind = .identifier :=
  expect_halts.bind fun t _ ht => identifierOf_rests.imp fun _ _ hj => hj ▸ ⟨t, ht⟩

theorem identifier_moves : Moves r i identifier :=
  identifier_halts.imp fun _ _ ⟨_, ht, _⟩ => ht.past

theorem optionalIdentifier_halts : Halts r i optionalIdentifier (Offered r i) :=
  .accepting (by decide)
    (fun _ _ ht _ => identifierOf_rests.bind fun _ _ hj => .pure (hj ▸ ht.past))
    fun _ => .pure rfl

theorem nameOf_rests {x : Identifier} : Rests r i (nameOf x) :=
  fun _ => rfl

theorem qualifiedName_closes : Halts r i qualifiedName fun j _ => r.input.Closes i j ∧
    ∃ t, r.input.tokens[r.input.skip true i]? = some t ∧ t.kind = .identifier := by
  refine .settled fun start hstart hsize => identifier_halts.bind fun first j ⟨t, ht, hname⟩ => ?_
  have hle := r.input.le_skip true i
  have hpast := ht.past
  have htoken := ht.token
  rw [hstart, r.input.skip_skip] at htoken
  refine (Halts.manyUntil (I := (j ≤ ·)) (Q := fun k => j ≤ k ∧ r.input.Closed k) (Nat.le_refl j)
    fun k hk => ?_).bind fun rest k hk => .make fun _ => ⟨⟨by omega, hk.2⟩, t, htoken, hname⟩
  refine .accepting (by decide) (fun u l hu _ => ?_) fun hnone => .pure ⟨hk, ?_⟩
  · have hmoved := hu.past
    refine identifier_moves.bind fun x m hm => .pure ?_
    exact ⟨by omega, by omega⟩
  · exact fun u hu hcolons => hnone u hu (List.mem_singleton.mpr hcolons)

theorem optionalLifetime_halts {lines : Bool} : Halts r i (optionalLifetime lines) (Offered r i) :=
  .accepting (by decide)
    (fun _ _ ht _ => identifierOf_rests.bind fun _ _ hj => .pure (hj ▸ ht.past))
    fun _ => .pure rfl

theorem lifetime_moves : Moves r i lifetime := by
  refine optionalLifetime_halts.bind fun o j ho => ?_
  cases o with
  | some l => exact .pure ho
  | none => exact .showing fun _ _ => .reject

theorem lifetimeParameter_moves {s : Scope} : Moves r i (lifetimeParameter s) :=
  identifier_moves.bind fun _ _ hj => .checking fun _ => .pure hj

theorem lifetimeParameters_moves {s : Scope} : Moves r i (lifetimeParameters s) := by
  refine lifetimeParameter_moves.bind fun x j hj => ?_
  refine (Halts.foldUntil (I := (j ≤ ·)) (Q := (j ≤ ·)) (Nat.le_refl j) fun y k hk => ?_).bind
    fun y k hk => expect_moves.bind fun _ l hl => .pure (by omega)
  refine .accepting (by decide) (fun _ l ht _ => ?_) fun _ => .pure hk
  have hpast := ht.past
  refine lifetimeParameter_moves.bind fun z m hm => .pure ?_
  exact ⟨by omega, by omega⟩

theorem optionalLifetimeParameters_halts {s : Scope} :
    Halts r i (optionalLifetimeParameters s) fun j _ => i ≤ j := by
  refine .accepting (by decide) (fun _ j ht _ => ?_) fun _ => .pure (Nat.le_refl i)
  have hpast := ht.past
  refine .accepting (by decide) (fun _ k hu _ => .pure ?_) fun _ => ?_
  · have hmore := hu.past
    omega
  · exact lifetimeParameters_moves.imp fun _ k hk => by omega

theorem optionalLifetimeArguments_halts {s : Scope} {lines : Bool} :
    Halts r i (optionalLifetimeArguments s lines) (Offered r i) := by
  refine .here (expect_moves.bind fun _ j hj => .here ?_)
  refine (accept_halts (by decide)).bind fun first k _ => ?_
  split
  · refine .moved ((listUntil_closes (by decide) fun _ _ => lifetime_moves).bind fun ls l hl => ?_)
    refine expect_moves.bind fun _ m hm => .pure ?_
    exact ⟨by omega, by omega⟩
  · exact .moved (.pure rfl)

theorem optionalCaptures_halts : Halts r i optionalCaptures fun j _ => i ≤ j := by
  refine .accepting (by decide) (fun _ j ht _ => ?_) fun _ => .pure (Nat.le_refl i)
  have hpast := ht.past
  refine .accepting (by decide) (fun _ k hu _ => .pure ?_) fun _ => ?_
  · have hmore := hu.past
    omega
  · refine lifetime_moves.bind fun first k hk => ?_
    refine (afterEach_halts (by decide) fun _ _ => lifetime_moves).bind fun rest l hl => ?_
    exact expect_moves.bind fun _ m hm => .pure (by omega)

namespace TypeParsers

structure HaltsPast (r : Anchored) (i : Nat) (g : TypeParsers) : Prop where
  type : ∀ {j s}, r.input.Past i j → Closes r j (g.type s)
  array : ∀ {j s}, r.input.Past i j → Closes r j (g.array s)

theorem separated_closes {level : Scope → Parser TypeExpr} {separator : Kind}
    {build : Mark → List TypeExpr → TypeExpr} {s : Scope} (hseparator : separator.isSpace = false)
    (hlevel : ∀ {j}, i ≤ j → Closes r j (level s)) :
    Closes r i (separated level separator build s) := by
  refine .settled fun start hstart hsize => ?_
  have hle := r.input.le_skip true i
  refine (hlevel (by omega)).bind fun first j hj => ?_
  refine (afterEach_keeps hseparator hj.2 fun k hk => hlevel (by omega)).bind fun rest k hk => ?_
  have hcloses : r.input.Closes i k := ⟨by omega, hk.2⟩
  cases rest with
  | nil => exact .pure hcloses
  | cons t ts => exact .make fun _ => hcloses

section Rules

variable {g : TypeParsers} (hg : g.HaltsPast r k) {s : Scope}

include hg

theorem parameterTypes_closes (hi : r.input.Past k i) : Closes r i (g.parameterTypes s) := by
  refine expect_moves.bind fun _ j hj => ?_
  refine (listUntil_closes (by decide) fun l hl => ?_).imp fun ts l hl => ?_
  · exact (hg.type (by omega)).imp fun _ _ h => h.1
  · exact ⟨by omega, hl.2⟩

theorem returnTypes_closes (hi : r.input.Past k i) : Closes r i (g.returnTypes s) := by
  refine .looking fun b => ?_
  split
  · exact parameterTypes_closes hg hi
  · exact (hg.type hi).bind fun _ _ hj => .pure hj

theorem optionalReturnTypes_halts (hi : r.input.Past k i) (hclosed : r.input.Closed i) :
    Halts r i (g.optionalReturnTypes s) fun j _ => i ≤ j ∧ r.input.Closed j := by
  refine .accepting (by decide) (fun _ j ht _ => ?_) fun _ => .pure ⟨Nat.le_refl i, hclosed⟩
  have hpast := ht.past
  exact (returnTypes_closes hg (by omega)).imp fun _ l hl => ⟨by omega, hl.2⟩

theorem typeThenName_moves (hi : r.input.Past k i) : Moves r i (g.typeThenName s) :=
  (hg.type hi).bind fun _ _ hj => identifier_moves.bind fun _ _ hl => .pure (by omega)

theorem namedMethod_moves {start : Nat} (hstart : r.input.Past k start)
    (hi : r.input.Past start i) (x : List Identifier × Scope) :
    Halts r i (do
      match ← optionalIdentifier with
      | none =>
        moveTo start
        g.typeThenName s
      | some name =>
        let parameters ← g.parameterTypes x.2
        let returns ← g.optionalReturnTypes x.2
        return (← make start (TypeExpr.method · parameters returns [] x.1), name))
      fun j _ => r.input.Past start j := by
  refine optionalIdentifier_halts.bind fun o j ho => ?_
  have hle := ho.le
  cases o with
  | none => exact .moved (typeThenName_moves hg hstart)
  | some name =>
    refine (parameterTypes_closes hg (by omega)).bind fun ps l hl => ?_
    refine (optionalReturnTypes_halts hg (by omega) hl.2).bind fun rs m hm => .making fun _ => .pure ?_
    omega

theorem named_moves (hi : r.input.Past k i) : Moves r i (g.named s) := by
  refine .here (.accepting (by decide) (fun keyword j ht _ => ?_) fun _ => typeThenName_moves hg hi)
  have hpast := ht.past
  dsimp only
  split
  · refine optionalIdentifier_halts.bind fun o l ho => ?_
    have hle := ho.le
    cases o with
    | none => exact .moved (typeThenName_moves hg hi)
    | some name =>
      refine (parameterTypes_closes hg (by omega)).bind fun ps m hm => ?_
      refine expect_moves.bind fun _ n hn => (returnTypes_closes hg (by omega)).bind fun rs p hp => ?_
      exact .making fun _ => .pure (by omega)
  · refine .accepting (by decide) (fun _ l hu _ => ?_) fun _ => ?_
    · have hmore := hu.past
      refine lifetimeParameters_moves.bind fun x m hm => ?_
      exact namedMethod_moves hg hi (by omega) x
    · exact namedMethod_moves hg hi hpast ([], s)

theorem field_moves (hi : r.input.Past k i) : Moves r i (g.field s) := by
  refine .settled fun start hstart hsize => ?_
  have hle := r.input.le_skip true i
  exact (named_moves hg (by omega)).bind fun x j hj => .make fun _ => by omega

end Rules

section Rules

variable {g : TypeParsers} (hg : g.HaltsPast r i) {s : Scope}

include hg

theorem record_closes : Closes r i (g.record s) := by
  refine .here (expect_moves.bind fun _ j hj => (field_moves hg hj).bind fun first k hk => ?_)
  refine Halts.bind (.repeating (I := fun l _ => k ≤ l)
    (Q := fun l _ => k ≤ l ∧ r.input.Closed l) (Nat.le_refl k) fun found l hl => ?_)
    fun x l hl => .make fun _ => ⟨by omega, hl.2⟩
  refine .acceptingNext (fun t m ht hk => .pure ?_) fun m hm hsize => ?_
  · have hpast := ht.past
    exact ⟨by omega, r.closed_of_kind ht (by rw [hk]; decide)⟩
  · refine expect_moves.bind fun _ n hn => .accepting (by decide) (fun _ p ht _ => ?_) fun _ => ?_
    · have hpast := ht.past
      exact (expect_closes (by decide)).bind fun _ q hq => .pure ⟨by omega, hq.2⟩
    · refine (field_moves hg (by omega)).bind fun next q hq => ?_
      split
      · exact .reject
      · exact .pure ⟨by omega, by omega⟩

theorem plainReference_closes {start inside : Nat} (hinside : r.input.Past i inside) :
    Halts r j (g.plainReference s start inside) fun k _ => r.input.Closes i k :=
  .moved ((hg.array hinside).bind fun _ _ hk => .make fun _ => ⟨by omega, hk.2⟩)

theorem reference_closes : Closes r i (g.reference s) := by
  refine .here (expect_moves.bind fun _ j hj => .here ?_)
  have hplain : ∀ k, Halts r k (g.plainReference s i j) fun l _ => r.input.Closes i l :=
    fun _ => plainReference_closes hg hj
  refine optionalLifetime_halts.bind fun o k ho => ?_
  have hle := ho.le
  cases o with
  | none => exact hplain k
  | some l =>
    refine .accepting (by decide) (fun _ m ht _ => ?_) fun _ => hplain k
    have hpast := ht.past
    refine .lookingAtLineEnd fun b => ?_
    split
    · exact hplain m
    · refine .checking fun _ => (hg.array (by omega)).bind fun element n hn => .make fun _ => ?_
      exact ⟨by omega, hn.2⟩

theorem function_closes : Closes r i (g.function s) := by
  refine .here (advance_halts.bind fun _ j ht => ?_)
  have hpast := ht.past
  refine (parameterTypes_closes hg hpast).bind fun ps k hk => ?_
  refine expect_moves.bind fun _ l hl => (returnTypes_closes hg (by omega)).bind fun rs m hm => ?_
  exact .make fun _ => ⟨by omega, hm.2⟩

theorem method_closes : Closes r i (g.method s) := by
  refine .here (advance_halts.bind fun _ j ht => ?_)
  have hpast := ht.past
  refine optionalCaptures_halts.bind fun captures k hk => ?_
  refine optionalLifetimeParameters_halts.bind fun x l hl => ?_
  refine (parameterTypes_closes hg (by omega)).bind fun ps m hm => ?_
  refine (optionalReturnTypes_halts hg (by omega) hm.2).bind fun rs n hn => .make fun _ => ?_
  exact ⟨by omega, hn.2⟩

end Rules

theorem base_closes {g : TypeParsers} {s : Scope} (hg : ∀ start, i ≤ start →
    g.HaltsPast r start) : Closes r i (g.base s) := by
  refine .showing fun t ht => .here ?_
  obtain ⟨hsize, -⟩ := Array.getElem?_eq_some_iff.mp ht
  have hle := r.input.le_skip true i
  have hstop := r.input.skip_skip true i
  generalize r.input.skip true i = start at *
  have hrest := hg start hle
  have hlater : ∀ {p : Parser TypeExpr}, Closes r start p →
      Halts r start p fun j _ => r.input.Closes i j :=
    fun h => h.imp fun _ _ hj => ⟨by omega, hj.2⟩
  have hprimitive : t.kind ≠ .identifier → Halts r start (do
      let _ ← advance
      make start (TypeExpr.primitive · t.text)) fun j _ => r.input.Closes i j :=
    fun hk => (advance_closes (hstop.symm ▸ ht) hk).bind fun u j hj => .make fun _ => ⟨by omega, hj.2⟩
  split
  case h_1 hk => exact hprimitive (by rw [hk]; decide)
  case h_2 hk => exact hprimitive (by rw [hk]; decide)
  case h_3 hk => exact hprimitive (by rw [hk]; decide)
  case h_4 hk => exact hprimitive (by rw [hk]; decide)
  case h_5 hk => exact hprimitive (by rw [hk]; decide)
  case h_6 hk => exact hprimitive (by rw [hk]; decide)
  · refine advance_halts.bind fun _ j hu => ?_
    refine (hrest.type hu.past).bind fun inner k hk => ?_
    have hpast := hu.past
    exact (expect_closes (by decide)).bind fun _ l hl => .pure ⟨by omega, hl.2⟩
  · refine advance_halts.bind fun _ j hu => ?_
    refine (hrest.type hu.past).bind fun element k hk => ?_
    have hpast := hu.past
    exact (expect_closes (by decide)).bind fun _ l hl => .make fun _ => ⟨by omega, hl.2⟩
  · exact hlater (record_closes hrest)
  · refine advance_halts.bind fun _ j hu => ?_
    refine (hrest.array hu.past).bind fun element k hk => .make fun _ => ?_
    have hpast := hu.past
    exact ⟨by omega, hk.2⟩
  · exact hlater (reference_closes hrest)
  · exact qualifiedName_closes.bind fun name j hj => .make fun _ => ⟨by omega, hj.1.2⟩
  · exact hlater (function_closes hrest)
  · exact hlater (method_closes hrest)
  · exact .reject

theorem arrayOf_closes {g : TypeParsers} {s : Scope} (hg : ∀ start, i ≤ start →
    g.HaltsPast r start) : Closes r i (g.arrayOf s) := by
  refine .settled fun start hstart hsize => ?_
  have hle := r.input.le_skip true i
  refine (base_closes fun j hj => hg j (by omega)).bind fun first j hj => ?_
  refine (Halts.foldUntil (I := fun k => j ≤ k ∧ r.input.Closed k)
    (Q := fun k => j ≤ k ∧ r.input.Closed k) ⟨Nat.le_refl j, hj.2⟩ fun element k hk => ?_).imp
    fun t k hk => ⟨by omega, hk.2⟩
  refine .accepting (by decide) (fun _ l ht _ => ?_) fun _ => .pure hk
  have hpast := ht.past
  refine (expect_closes (by decide)).bind fun _ m hm => .making fun _ => .pure ?_
  exact ⟨by omega, by omega, hm.2⟩

structure HaltsWithin (r : Anchored) (depth : Nat) (g : TypeParsers) : Prop where
  type : ∀ {i s}, 2 * (r.input.tokens.size - i) + 2 ≤ depth → Closes r i (g.type s)
  array : ∀ {i s}, 2 * (r.input.tokens.size - i) + 1 ≤ depth → Closes r i (g.array s)

theorem HaltsWithin.past {g : TypeParsers} {depth : Nat} (hg : g.HaltsWithin r depth)
    (hdepth : 2 * (r.input.tokens.size - i) ≤ depth) (hij : i ≤ j) : g.HaltsPast r j where
  type _ := hg.type (by omega)
  array _ := hg.array (by omega)

theorem next_haltsWithin {g : TypeParsers} {depth : Nat} (hg : g.HaltsWithin r depth) :
    g.next.HaltsWithin r (depth + 1) where
  type hdepth := by
    refine separated_closes (by decide) fun hj => separated_closes (by decide) fun hk => ?_
    exact hg.array (by omega)
  array hdepth := arrayOf_closes fun start hstart => hg.past (by omega) hstart

theorem ofDepth_haltsWithin (depth : Nat) : (ofDepth depth).HaltsWithin r depth := by
  induction depth with
  | zero => exact ⟨fun h => absurd h (by omega), fun h => absurd h (by omega)⟩
  | succ depth ih =>
    rw [ofDepth_succ]
    exact next_haltsWithin ih

end TypeParsers

end Whiley.Grammar
