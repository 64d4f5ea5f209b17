namespace Whiley

/-- Values under names. The first entry under a name counts. -/
abbrev Dictionary (α : Type) := List (String × α)

namespace Dictionary

variable {α : Type}

def get? (t : Dictionary α) (key : String) : Option α :=
  (t.find? (·.1 = key)).map (·.2)

/-- Replaces the value under a name in its place, or adds the name at the end. -/
def put : Dictionary α → String → α → Dictionary α
  | [], key, v => [(key, v)]
  | (k, w) :: rest, key, v => if k = key then (k, v) :: rest else (k, w) :: put rest key v

def erase (t : Dictionary α) (key : String) : Dictionary α :=
  t.filter (·.1 ≠ key)

theorem get?_cons (k : String) (v : α) (t : Dictionary α) (key : String) :
    get? ((k, v) :: t) key = if k = key then some v else t.get? key := by
  unfold get?
  by_cases h : k = key
  · rw [List.find?_cons_of_pos (by simpa using h), if_pos h]
    rfl
  · rw [List.find?_cons_of_neg (by simpa using h), if_neg h]

theorem mem_of_get? {t : Dictionary α} {key : String} {v : α} (h : t.get? key = some v) :
    (key, v) ∈ t := by
  obtain ⟨⟨k, w⟩, hfound, rfl⟩ := Option.map_eq_some_iff.mp h
  obtain rfl : k = key := by simpa using List.find?_some hfound
  exact List.mem_of_find?_eq_some hfound

theorem get?_put (t : Dictionary α) (key : String) (v : α) (other : String) :
    (t.put key v).get? other = if key = other then some v else t.get? other := by
  induction t with
  | nil => exact get?_cons key v [] other
  | cons entry t ih =>
    obtain ⟨k, w⟩ := entry
    rw [put]
    by_cases hk : k = key
    · rw [if_pos hk, get?_cons, get?_cons, hk]
      split <;> rfl
    · rw [if_neg hk, get?_cons, get?_cons, ih]
      by_cases hother : k = other
      · rw [if_pos hother, if_pos hother, if_neg fun h => hk (hother.trans h.symm)]
      · rw [if_neg hother, if_neg hother]

theorem get?_erase (t : Dictionary α) (key other : String) :
    (t.erase key).get? other = if key = other then none else t.get? other := by
  induction t with
  | nil => exact (ite_self none).symm
  | cons entry t ih =>
    obtain ⟨k, w⟩ := entry
    by_cases hk : k = key
    · have herase : erase ((k, w) :: t) key = erase t key :=
        List.filter_cons_of_neg (by simpa using hk)
      rw [herase, ih, get?_cons, hk]
      split <;> rfl
    · have herase : erase ((k, w) :: t) key = (k, w) :: erase t key :=
        List.filter_cons_of_pos (by simpa using hk)
      rw [herase, get?_cons, get?_cons, ih]
      by_cases hother : k = other
      · rw [if_pos hother, if_pos hother, if_neg fun h => hk (hother.trans h.symm)]
      · rw [if_neg hother, if_neg hother]

end Dictionary

end Whiley
