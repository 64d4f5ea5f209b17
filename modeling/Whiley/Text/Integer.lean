import Whiley.Text.Quoted

namespace Whiley.Text

def isBlank (c : Char) : Bool :=
  inRanges c.toNat [(9, 13), (32, 32), (0x85, 0x85), (0xA0, 0xA0), (0x1680, 0x1680),
    (0x2000, 0x200A), (0x2028, 0x2029), (0x202F, 0x202F), (0x205F, 0x205F), (0x3000, 0x3000)]

def trimBlanks (cs : List Char) : List Char :=
  ((cs.dropWhile isBlank).reverse.dropWhile isBlank).reverse

/-- The values of the digits; an underscore is skipped where digits stand on both sides. -/
def digits? : List Char → Option (List Nat)
  | [] => none
  | [c] => (decimalValue? c).map ([·])
  | c :: '_' :: cs => do return (← decimalValue? c) :: (← digits? cs)
  | c :: cs => do return (← decimalValue? c) :: (← digits? cs)

def ofDigits (ds : List Nat) : Nat :=
  ds.foldl (fun n d => n * 10 + d) 0

/-- The most digits a decimal integer is read from. -/
def digitLimit : Nat := 4300

inductive IntegerFault
  | malformed
  | tooLong (digits : Nat)
  deriving DecidableEq, Repr

def IntegerFault.message (text : String) : IntegerFault → String
  | .malformed =>
    "invalid literal for int() with base 10: " ++
      String.ofList ((quoted text).toList.take 200)
  | .tooLong n =>
    "Exceeds the limit (4300 digits) for integer string conversion: value has " ++ toString n ++
      " digits; use sys.set_int_max_str_digits() to increase the limit"

def readNatural (cs : List Char) : Except IntegerFault Nat :=
  match digits? cs with
  | none => .error .malformed
  | some ds => if digitLimit < ds.length then .error (.tooLong ds.length) else .ok (ofDigits ds)

def readInteger (cs : List Char) : Except IntegerFault Int :=
  match trimBlanks cs with
  | '-' :: cs => (readNatural cs).map fun n => -(n : Int)
  | '+' :: cs => (readNatural cs).map Int.ofNat
  | cs => (readNatural cs).map Int.ofNat

end Whiley.Text
