import Mathlib.Data.List.Induction
import Whiley.Arena.History

namespace Whiley.Arena

section Latest

variable {α β : Type} {xs : List α} {x y : α} {i j : Nat}

/-- `x` stands at `i`, and nowhere after it. -/
structure Latest (xs : List α) (x : α) (i : Nat) : Prop where
  here : xs[i]? = some x
  last : ∀ j, i < j → xs[j]? ≠ some x

theorem Latest.mem (h : Latest xs x i) : x ∈ xs :=
  List.mem_of_getElem? h.here

theorem latest_append_self (xs : List α) (x : α) : Latest (xs ++ [x]) x xs.length where
  here := List.getElem?_concat_length
  last j hj := by
    rw [List.getElem?_eq_none (by simp; omega)]
    exact (Option.some_ne_none x).symm

theorem Latest.unique (h : Latest xs x i) (h' : Latest xs x j) : i = j := by
  rcases Nat.lt_trichotomy i j with hij | hij | hji
  · exact absurd h'.here (h.last j hij)
  · exact hij
  · exact absurd h.here (h'.last i hji)

theorem getElem?_append_other (h : y ≠ x) :
    (xs ++ [y])[i]? = some x ↔ xs[i]? = some x := by
  rw [List.getElem?_append]
  split
  · rfl
  · rename_i hlength
    rw [List.getElem?_eq_none (Nat.le_of_not_lt hlength), List.getElem?_singleton]
    split <;> simp [h]

theorem latest_append_other (h : y ≠ x) : Latest (xs ++ [y]) x i ↔ Latest xs x i := by
  constructor
  · rintro ⟨here, last⟩
    exact ⟨(getElem?_append_other h).mp here, fun j hj hx => last j hj ((getElem?_append_other h).mpr hx)⟩
  · rintro ⟨here, last⟩
    exact ⟨(getElem?_append_other h).mpr here, fun j hj hx => last j hj ((getElem?_append_other h).mp hx)⟩

theorem exists_latest (h : x ∈ xs) : ∃ i, Latest xs x i := by
  induction xs using List.reverseRecOn with
  | nil => cases h
  | append_singleton xs y ih =>
    by_cases hyx : y = x
    · subst hyx
      exact ⟨_, latest_append_self xs y⟩
    · have hx : x ∈ xs := by simpa [Ne.symm hyx] using h
      obtain ⟨i, hi⟩ := ih hx
      exact ⟨i, (latest_append_other hyx).mpr hi⟩

theorem latest_map {f : α → β} (h : ∀ y ∈ xs, f y = f x → y = x) :
    Latest (xs.map f) (f x) i ↔ Latest xs x i := by
  have hiff (j : Nat) : (xs.map f)[j]? = some (f x) ↔ xs[j]? = some x := by
    rw [List.getElem?_map, Option.map_eq_some_iff]
    constructor
    · rintro ⟨y, hy, hyx⟩
      rw [hy, h y (List.mem_of_getElem? hy) hyx]
    · exact fun hx => ⟨x, hx, rfl⟩
  constructor
  · rintro ⟨here, last⟩
    exact ⟨(hiff i).mp here, fun j hj hx => last j hj ((hiff j).mpr hx)⟩
  · rintro ⟨here, last⟩
    exact ⟨(hiff i).mpr here, fun j hj hx => last j hj ((hiff j).mp hx)⟩

end Latest

section Places

variable {α : Type}

theorem get?_natCast (a : Arena α) (i : Nat) : a.get? i = a.toList[i]? := by
  change a.entries[i]? = _
  rw [toList, Array.getElem?_toList]

theorem isSome_get? (a : Arena α) (i : Int) :
    (a.get? i).isSome ↔ -(a.size : Int) ≤ i ∧ i < a.size := by
  cases i with
  | ofNat i =>
    change a.entries[i]?.isSome ↔ -(a.size : Int) ≤ (i : Int) ∧ (i : Int) < a.size
    rw [isSome_getElem?, ← size]
    omega
  | negSucc i =>
    rw [get?]
    split
    · rename_i hi
      rw [isSome_getElem?, ← size]
      omega
    · rename_i hi
      simp only [Option.isSome_none, Bool.false_eq_true, false_iff]
      omega

end Places

namespace Registry

variable {r : Registry} {x : Handle} {stored : List Handle}

/-- The table leads from an identity to where it was stored last, and to nothing else. -/
def InStep (r : Registry) : Prop :=
  ∀ identity i, r.places.lookup identity = some i ↔
    Latest (r.toList.map (·.identity)) identity i

theorem inStep_empty : empty.InStep := by
  intro identity i
  constructor
  · exact nofun
  · exact fun h => absurd h.mem List.not_mem_nil

theorem toList_allocate (r : Registry) (x : Handle) : (r.allocate x).toList = r.toList ++ [x] :=
  Arena.toList_allocate r.toArena x

theorem InStep.allocate (h : r.InStep) (x : Handle) : (r.allocate x).InStep := by
  intro identity i
  rw [toList_allocate, List.map_append, List.map_singleton, Registry.allocate, List.lookup_cons]
  by_cases hx : x.identity = identity
  · subst hx
    have hlatest := latest_append_self (r.toList.map (·.identity)) x.identity
    rw [List.length_map, length_toList] at hlatest
    rw [beq_self_eq_true, Option.some.injEq]
    constructor
    · rintro rfl
      exact hlatest
    · exact hlatest.unique
  · rw [beq_eq_false_iff_ne.mpr (Ne.symm hx), latest_append_other hx]
    exact h identity i

/-- What the arena says of a node that is, or is not, among the stored ones. -/
structure Finds (r : Registry) (stored : List Handle) (x : Handle) : Prop where
  contained : r.contains x ↔ x ∈ stored
  placed : x ∈ stored → ∃ i, Latest stored x i ∧ r.index x = .ok i ∧ r.get? i = some x
  absent : x ∉ stored → r.index x = .error ⟨x.kind⟩

theorem InStep.lookup (h : r.InStep) (hapart : ∀ y ∈ r.toList, y.identity = x.identity → y = x)
    (i : Nat) : r.places.lookup x.identity = some i ↔ Latest r.toList x i :=
  (h x.identity i).trans (latest_map hapart)

theorem InStep.finds (h : r.InStep) (hapart : ∀ y ∈ r.toList, y.identity = x.identity → y = x) :
    r.Finds r.toList x := by
  -- the table speaks of identities; where these tell nodes apart it speaks of the nodes
  have hlookup := h.lookup hapart
  cases hplace : r.places.lookup x.identity with
  | some i =>
    have hlatest : Latest r.toList x i := (hlookup i).mp hplace
    exact {
      contained := by simp [contains, hplace, hlatest.mem]
      placed := fun _ =>
        ⟨i, hlatest, by rw [index, hplace], (get?_natCast r.toArena i).trans hlatest.here⟩
      absent := fun hx => absurd hlatest.mem hx }
  | none =>
    have hnot : x ∉ r.toList := by
      intro hx
      obtain ⟨i, hi⟩ := exists_latest hx
      exact absurd (hplace.symm.trans ((hlookup i).mpr hi)) nofun
    exact {
      contained := by simp [contains, hplace, hnot]
      placed := fun hx => absurd hx hnot
      absent := fun _ => by rw [index, hplace] }

end Registry

namespace History

variable {h : History}

def stored? (h : History) : Step → Option Handle
  | .allocate label => h.handle? label
  | _ => none

def allocations (h : History) : List Step → List Handle
  | [] => []
  | step :: steps => (h.stored? step).toList ++ (h.step step).1.allocations steps

theorem step_cases (h : History) (step : Step) :
    (∃ label kind contents, h.stored? step = none ∧ (h.step step).1 =
      { h with handles := ⟨h.handles.length, label, kind, contents⟩ :: h.handles }) ∨
    (∃ x ∈ h.handles, h.stored? step = some x ∧ (h.step step).1 =
      { h with registry := h.registry.allocate x }) ∨
    (h.stored? step = none ∧ (h.step step).1 = h) := by
  have hasks (label : String) (f : Handle → Answer) : (h.ask label f).1 = h := by
    rw [ask]
    split <;> rfl
  cases step with
  | make label kind contents => exact .inl ⟨label, kind, contents, rfl, rfl⟩
  | allocate label =>
    cases hx : h.handle? label with
    | none => exact .inr (.inr ⟨hx, by rw [History.step, hx]⟩)
    | some x =>
      exact .inr (.inl ⟨x, List.mem_of_find?_eq_some hx, hx, by rw [History.step, hx]⟩)
  | index label => exact .inr (.inr ⟨rfl, hasks label _⟩)
  | contains label => exact .inr (.inr ⟨rfl, hasks label _⟩)
  | get place =>
    refine .inr (.inr ⟨rfl, ?_⟩)
    rw [History.step]
    split <;> rfl
  | size => exact .inr (.inr ⟨rfl, rfl⟩)
  | list => exact .inr (.inr ⟨rfl, rfl⟩)
  | same label other =>
    refine .inr (.inr ⟨rfl, ?_⟩)
    rw [History.step]
    split <;> exact hasks label _

/-- Nodes differ in identity, only they are stored, and the table finds them. -/
structure Sound (h : History) : Prop where
  inStep : h.registry.InStep
  made : ∀ x ∈ h.registry.toList, x ∈ h.handles
  below : ∀ x ∈ h.handles, x.identity < h.handles.length
  apart : ∀ x ∈ h.handles, ∀ y ∈ h.handles, x.identity = y.identity → x = y

theorem sound_empty : empty.Sound where
  inStep := Registry.inStep_empty
  made := nofun
  below := nofun
  apart := nofun

theorem Sound.step (hs : h.Sound) (step : Step) : (h.step step).1.Sound := by
  rcases h.step_cases step with ⟨label, kind, contents, -, hnext⟩ | ⟨x, hx, -, hnext⟩ | ⟨-, hnext⟩
  · -- identities are counted up, so that of a new node is no other's
    have hfresh : ∀ y ∈ h.handles, y.identity ≠ h.handles.length :=
      fun y hy => Nat.ne_of_lt (hs.below y hy)
    rw [hnext]
    refine ⟨hs.inStep, fun y hy => List.mem_cons_of_mem _ (hs.made y hy), fun y hy => ?_,
      fun y hy z hz hyz => ?_⟩
    · rcases List.mem_cons.mp hy with rfl | hy
      · exact Nat.lt_succ_self _
      · exact Nat.lt_succ_of_lt (hs.below y hy)
    · rcases List.mem_cons.mp hy with rfl | hy <;> rcases List.mem_cons.mp hz with rfl | hz
      · rfl
      · exact absurd hyz.symm (hfresh z hz)
      · exact absurd hyz (hfresh y hy)
      · exact hs.apart y hy z hz hyz
  · rw [hnext]
    refine ⟨hs.inStep.allocate x, fun y hy => ?_, hs.below, hs.apart⟩
    rw [Registry.toList_allocate, List.mem_append, List.mem_singleton] at hy
    rcases hy with hy | rfl
    · exact hs.made y hy
    · exact hx
  · rwa [hnext]

theorem Sound.run (hs : h.Sound) (steps : List Step) : (h.run steps).1.Sound := by
  induction steps generalizing h with
  | nil => exact hs
  | cons step steps ih => exact ih (hs.step step)

theorem toList_step (h : History) (step : Step) :
    (h.step step).1.registry.toList = h.registry.toList ++ (h.stored? step).toList := by
  rcases h.step_cases step with ⟨label, kind, contents, hnone, hnext⟩ | ⟨x, -, hsome, hnext⟩ | ⟨hnone, hnext⟩
  · rw [hnext, hnone, Option.toList_none, List.append_nil]
  · rw [hnext, hsome, Option.toList_some]
    exact Registry.toList_allocate h.registry x
  · rw [hnext, hnone, Option.toList_none, List.append_nil]

theorem toList_run (h : History) (steps : List Step) :
    (h.run steps).1.registry.toList = h.registry.toList ++ h.allocations steps := by
  induction steps generalizing h with
  | nil => exact (List.append_nil _).symm
  | cons step steps ih =>
    calc ((h.step step).1.run steps).1.registry.toList
      _ = (h.step step).1.registry.toList ++ (h.step step).1.allocations steps := ih _
      _ = h.registry.toList ++ h.allocations (step :: steps) := by
        rw [toList_step, List.append_assoc, allocations]

/-- After any history the arena holds the stored nodes in their order, and finds each of them, and no
other, by its identity. -/
theorem stored_found (steps : List Step) :
    let h := (empty.run steps).1
    let stored := empty.allocations steps
    h.registry.toList = stored ∧ h.registry.size = stored.length ∧
      (∀ x ∈ h.handles, h.registry.Finds stored x) ∧
      ∀ i : Int, (h.registry.get? i).isSome ↔ -(stored.length : Int) ≤ i ∧ i < stored.length := by
  intro h stored
  have hlist : h.registry.toList = stored := empty.toList_run steps
  have hsize : h.registry.size = stored.length := by rw [← hlist, length_toList]
  have hsound : h.Sound := sound_empty.run steps
  refine ⟨hlist, hsize, fun x hx => ?_, fun i => ?_⟩
  · rw [← hlist]
    exact hsound.inStep.finds fun y hy => hsound.apart y (hsound.made y hy) x hx
  · rw [← hsize]
    exact isSome_get? h.registry.toArena i

section Twins

def twin (identity : Nat) (label : String) : Handle :=
  ⟨identity, label, "IntLit", ["1"]⟩

/-- Of two nodes that are alike the first is stored twice, with another between. -/
def twins : List Step :=
  [.make "a" "IntLit" ["1"], .make "b" "IntLit" ["1"], .allocate "a", .make "c" "Skip" [],
    .allocate "c", .allocate "a", .index "b"]

theorem stored_found_twins :
    let r := (empty.run twins).1.registry
    (twin 0 "a").same (twin 1 "b") ∧ r.Finds (empty.allocations twins) (twin 0 "a") ∧
      Latest (empty.allocations twins) (twin 0 "a") 2 ∧
      r.contains (twin 1 "b") = false ∧ r.index (twin 1 "b") = .error ⟨"IntLit"⟩ ∧
      (r.get? (-3)).isSome := by
  obtain ⟨-, -, hfinds, hplaces⟩ := stored_found twins
  have hfirst := hfinds (twin 0 "a") (by decide)
  have hother := hfinds (twin 1 "b") (by decide)
  refine ⟨by decide, hfirst, ⟨rfl, ?_⟩, ?_, hother.absent (by decide), (hplaces (-3)).mpr (by decide)⟩
  · intro j hj
    have hlength : (empty.allocations twins).length = 3 := rfl
    rw [List.getElem?_eq_none (by omega)]
    exact (Option.some_ne_none _).symm
  · exact eq_false_of_ne_true fun h => absurd (hother.contained.mp h) (by decide)

end Twins

end History

end Whiley.Arena
