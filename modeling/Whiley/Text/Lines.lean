namespace Whiley.Text

def isLineBreak (c : Char) : Bool :=
  c = '\n' || c = '\r' || c = '\x0b' || c = '\x0c' || c = '\x1c' || c = '\x1d' || c = '\x1e' ||
    c = '\x85' || c = '\u2028' || c = '\u2029'

def pushFirst (c : Char) : List (List Char) → List (List Char)
  | [] => [[c]]
  | line :: lines => (c :: line) :: lines

def pieces : List Char → List (List Char)
  | [] => [[]]
  | '\r' :: '\n' :: cs => [] :: pieces cs
  | c :: cs => if isLineBreak c then [] :: pieces cs else pushFirst c (pieces cs)

/-- The pieces without an empty last one: a separator ends a line and begins none. -/
def lines (cs : List Char) : List (List Char) :=
  let all := pieces cs
  if all.getLast? = some [] then all.dropLast else all

/-- Every carriage return becomes a newline, and so does one followed by a newline. -/
def unifyNewlines : List Char → List Char
  | [] => []
  | '\r' :: '\n' :: cs => '\n' :: unifyNewlines cs
  | c :: cs => (if c = '\r' then '\n' else c) :: unifyNewlines cs

theorem pieces_ne_nil (cs : List Char) : pieces cs ≠ [] := by
  fun_cases pieces cs with
  | case1 => simp
  | case2 => simp
  | case3 c cs _ h => simp
  | case4 c cs _ h => cases pieces cs <;> simp [pushFirst]

end Whiley.Text
