/-!
Indentation. Spaces and tabs are counted apart and compared componentwise, so two indents may be
incomparable.
-/

namespace Whiley

structure Indent where
  spaces : Nat
  tabs : Nat
  deriving DecidableEq, Repr, Inhabited

namespace Indent

def root : Indent := ⟨0, 0⟩

def ofChars : List Char → Except Char Indent
  | [] => .ok root
  | c :: cs =>
    if c = ' ' then (ofChars cs).map fun i => { i with spaces := i.spaces + 1 }
    else if c = '\t' then (ofChars cs).map fun i => { i with tabs := i.tabs + 1 }
    else .error c

def ofText (text : String) : Except Char Indent :=
  ofChars text.toList

instance : LE Indent := ⟨fun a b => a.spaces ≤ b.spaces ∧ a.tabs ≤ b.tabs⟩

instance : LT Indent := ⟨fun a b => a ≤ b ∧ a ≠ b⟩

instance (a b : Indent) : Decidable (a ≤ b) :=
  inferInstanceAs (Decidable (a.spaces ≤ b.spaces ∧ a.tabs ≤ b.tabs))

instance (a b : Indent) : Decidable (a < b) :=
  inferInstanceAs (Decidable (a ≤ b ∧ a ≠ b))

def describe (i : Indent) : String :=
  toString i.spaces ++ " space(s), " ++ toString i.tabs ++ " tab(s)"

theorem lt_irrefl (a : Indent) : ¬ a < a := fun h => h.2 rfl

end Indent

end Whiley
