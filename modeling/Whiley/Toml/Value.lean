import Whiley.Dictionary
import Whiley.Number.Double
import Whiley.Text.Integer
import Whiley.Toml.Moment

namespace Whiley.Toml

inductive Value
  | string (s : String)
  | integer (n : Int)
  | float (x : Float)
  | boolean (b : Bool)
  | moment (m : Moment)
  | array (items : List Value)
  | table (entries : List (String × Value))

abbrev Table := Dictionary Value

/-- Integers with too many digits are not shown. -/
def integerText? (n : Int) : Option String :=
  if Text.digitLimit < (toString n.natAbs).length then none else some (toString n)

mutual

def Value.shown? : Value → Option String
  | .string s => some (Text.quoted s)
  | .integer n => integerText? n
  | .float x => some (Number.text x)
  | .boolean b => some (if b then "True" else "False")
  | .moment m => some m.shown
  | .array items => do
    return "[" ++ ", ".intercalate (← Value.shownItems? items) ++ "]"
  | .table entries => do
    return "\x7b" ++ ", ".intercalate (← Value.shownEntries? entries) ++ "\x7d"

def Value.shownItems? : List Value → Option (List String)
  | [] => some []
  | v :: vs => do return (← v.shown?) :: (← Value.shownItems? vs)

def Value.shownEntries? : List (String × Value) → Option (List String)
  | [] => some []
  | (key, v) :: rest => do
    return (Text.quoted key ++ ": " ++ (← v.shown?)) :: (← Value.shownEntries? rest)

end

/-- The form of a value on its own: strings and moments stand as they are. -/
def Value.display? : Value → Option String
  | .string s => some s
  | .moment m => some m.text
  | v => v.shown?

end Whiley.Toml
