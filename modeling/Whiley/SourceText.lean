import Whiley.Text.Lines

/-!
A named text with its lines. Offsets are turned into line and column by a search in the table of the
offsets at which lines begin; only the newline begins a line there.
-/

namespace Whiley

/-- Line and column, both counted from one. -/
structure Position where
  line : Nat
  column : Nat
  deriving DecidableEq, Repr

namespace Position

instance : LE Position :=
  ⟨fun p q => p.line < q.line ∨ p.line = q.line ∧ p.column ≤ q.column⟩

instance : LT Position :=
  ⟨fun p q => p.line < q.line ∨ p.line = q.line ∧ p.column < q.column⟩

end Position

def startsFrom : Nat → List Char → List Nat
  | _, [] => []
  | offset, c :: cs =>
    if c = '\n' then (offset + 1) :: startsFrom (offset + 1) cs else startsFrom (offset + 1) cs

structure SourceText where
  name : String
  chars : List Char
  lines : Array String
  lineStarts : Array Nat
  size : Nat

namespace SourceText

def ofString (content name : String) : SourceText :=
  let chars := content.toList
  { name, chars
    lines := ((Text.lines chars).map String.ofList).toArray
    lineStarts := (0 :: startsFrom 0 chars).toArray
    size := chars.length }

/-- The line of a number, counted from one; other numbers have the empty line. -/
def lineAt (s : SourceText) (n : Int) : String :=
  if 1 ≤ n then (s.lines[(n - 1).toNat]?).getD "" else ""

/-- How many of the entries from `low` to before `high` are at most `offset`, plus `low`. -/
def countFrom (starts : Array Nat) (offset : Nat) : Nat → Nat → Nat → Nat
  | 0, low, _ => low
  | fuel + 1, low, high =>
    if low < high then
      let middle := (low + high) / 2
      if (starts[middle]?).any (· ≤ offset) then countFrom starts offset fuel (middle + 1) high
      else countFrom starts offset fuel low middle
    else low

def clamp (s : SourceText) (offset : Int) : Nat :=
  min offset.toNat s.size

def position (s : SourceText) (offset : Int) : Position :=
  let o := s.clamp offset
  let line := countFrom s.lineStarts o s.lineStarts.size 0 s.lineStarts.size
  ⟨line, o - (s.lineStarts[line - 1]?).getD 0 + 1⟩

/-- A negative bound counts from the end of the text. -/
def bound (s : SourceText) (i : Int) : Nat :=
  if i < 0 then (i + s.size).toNat else min i.toNat s.size

def slice (s : SourceText) (start stop : Int) : String :=
  String.ofList ((s.chars.take (s.bound stop)).drop (s.bound start))

end SourceText

end Whiley
