namespace Whiley

structure Arena (α : Type) where
  entries : Array α

namespace Arena

variable {α : Type}

def empty : Arena α := ⟨#[]⟩

def allocate (a : Arena α) (x : α) : Arena α := ⟨a.entries.push x⟩

def size (a : Arena α) : Nat := a.entries.size

def toList (a : Arena α) : List α := a.entries.toList

/-- A negative place counts from the end. -/
def get? (a : Arena α) : Int → Option α
  | .ofNat i => a.entries[i]?
  | .negSucc i => if i < a.size then a.entries[a.size - 1 - i]? else none

@[simp]
theorem toList_allocate (a : Arena α) (x : α) : (a.allocate x).toList = a.toList ++ [x] := by
  simp [allocate, toList]

@[simp]
theorem size_allocate (a : Arena α) (x : α) : (a.allocate x).size = a.size + 1 := by
  simp [allocate, size]

theorem length_toList (a : Arena α) : a.toList.length = a.size := by
  simp [toList, size]

instance : LE (Arena α) := ⟨fun a b => a.toList <+: b.toList⟩

theorem le_refl (a : Arena α) : a ≤ a := List.prefix_refl a.toList

theorem le_trans {a b c : Arena α} (hab : a ≤ b) (hbc : b ≤ c) : a ≤ c :=
  List.IsPrefix.trans hab hbc

theorem le_allocate (a : Arena α) (x : α) : a ≤ a.allocate x :=
  ⟨[x], (toList_allocate a x).symm⟩

end Arena

end Whiley
