namespace Whiley

/-- Workers that carry out the calls they are given, each call once, in an order of their own. -/
structure Pool where
  order : Nat → List Nat
  once : ∀ calls, (order calls).Perm (List.range calls)

namespace Pool

variable {α β : Type}

def inOrder : Pool :=
  ⟨List.range, fun _ => .refl _⟩

def results (pool : Pool) (f : α → β) (calls : List α) : List (Nat × β) :=
  (pool.order calls.length).filterMap fun i => calls[i]?.map fun a => (i, f a)

def resultOf? (results : List (Nat × β)) (i : Nat) : Option β :=
  (results.find? (·.1 = i)).map (·.2)

theorem mem_results {pool : Pool} {f : α → β} {calls : List α} {i : Nat} {b : β} :
    (i, b) ∈ pool.results f calls ↔ ∃ a, calls[i]? = some a ∧ f a = b := by
  rw [results, List.mem_filterMap]
  constructor
  · rintro ⟨j, -, hj⟩
    obtain ⟨a, ha, heq⟩ := Option.map_eq_some_iff.mp hj
    obtain ⟨rfl, rfl⟩ := Prod.mk.inj heq
    exact ⟨a, ha, rfl⟩
  · rintro ⟨a, ha, rfl⟩
    obtain ⟨hi, -⟩ := List.getElem?_eq_some_iff.mp ha
    refine ⟨i, (pool.once calls.length).mem_iff.mpr (List.mem_range.mpr hi), ?_⟩
    rw [ha]
    rfl

/-- Whatever the order, each call has its own result. -/
theorem resultOf?_results (pool : Pool) (f : α → β) (calls : List α) (i : Nat) :
    resultOf? (pool.results f calls) i = calls[i]?.map f := by
  cases hfound : (pool.results f calls).find? (·.1 = i) with
  | none =>
    rw [resultOf?, hfound]
    cases ha : calls[i]? with
    | none => rfl
    | some a =>
      have hnot := List.find?_eq_none.mp hfound (i, f a) (mem_results.mpr ⟨a, ha, rfl⟩)
      exact absurd (decide_eq_true rfl) hnot
  | some result =>
    obtain ⟨j, b⟩ := result
    obtain rfl : j = i := by simpa using List.find?_some hfound
    obtain ⟨a, ha, rfl⟩ := mem_results.mp (List.mem_of_find?_eq_some hfound)
    rw [resultOf?, hfound, ha]
    rfl

end Pool

end Whiley
