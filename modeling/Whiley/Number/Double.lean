namespace Whiley.Number

def twoTo (n : Nat) : Nat :=
  Nat.pow 2 n

def tenTo (n : Nat) : Nat :=
  Nat.pow 10 n

/-- The number `± significand * 2 ^ exponent`, of 53 binary digits at most. -/
structure Double where
  negative : Bool
  significand : Nat
  exponent : Int
  deriving DecidableEq, Repr

inductive Parsed
  | finite (d : Double)
  | infinite (negative : Bool)
  | notANumber
  deriving DecidableEq, Repr

def ofBits (bits : Nat) : Parsed :=
  let negative := bits / twoTo 63 = 1
  let exponent : Nat := bits / twoTo 52 % twoTo 11
  let fraction := bits % twoTo 52
  if exponent = 2047 then if fraction = 0 then .infinite negative else .notANumber
  else if exponent = 0 then .finite ⟨negative, fraction, -1074⟩
  else .finite ⟨negative, twoTo 52 + fraction, (exponent : Int) - 1075⟩

def ofFloat (x : Float) : Parsed :=
  ofBits x.toBits.toNat

namespace Double

def truncate (d : Double) : Int :=
  let n := if 0 ≤ d.exponent then d.significand * twoTo d.exponent.toNat
    else d.significand / twoTo (-d.exponent).toNat
  if d.negative then -(n : Int) else n

def scale (d : Double) : Nat × Nat :=
  (twoTo (d.exponent - 2).toNat, twoTo (2 - d.exponent).toNat)

def low (d : Double) : Nat :=
  4 * d.significand - if d.significand = twoTo 52 ∧ -1074 < d.exponent then 1 else 2

def high (d : Double) : Nat :=
  4 * d.significand + 2

def compareTo (d : Double) (c : Nat) (g : Int) (quarters : Nat) : Ordering :=
  compare (c * tenTo g.toNat * d.scale.2) (quarters * d.scale.1 * tenTo (-g).toNat)

def readsBack (d : Double) (c : Nat) (g : Int) : Bool :=
  let below := d.compareTo c g d.low
  let above := d.compareTo c g d.high
  if d.significand % 2 = 0 then below ≠ .lt && above ≠ .gt else below = .gt && above = .lt

def units (d : Double) (g : Int) : Nat × Ordering :=
  let num := 4 * d.significand * d.scale.1 * tenTo (-g).toNat
  let den := d.scale.2 * tenTo g.toNat
  (num / den, compare (2 * (num % den)) den)

def leading (d : Double) : Nat → Int → Int
  | 0, k => k
  | fuel + 1, k => if d.compareTo 1 k (4 * d.significand) = .gt then d.leading fuel (k - 1) else k

/-- The nearer of the two decimals around the magnitude that read back; a tie goes to even. -/
def onGrid (d : Double) (g : Int) : Option (Nat × Int) :=
  let (c, half) := d.units g
  match d.readsBack c g, d.readsBack (c + 1) g with
  | true, true => some (if half = .lt ∨ half = .eq ∧ c % 2 = 0 then c else c + 1, g)
  | true, false => some (c, g)
  | false, true => some (c + 1, g)
  | false, false => none

/-- The shortest decimal `c * 10 ^ g` that reads back. -/
def shortest (d : Double) : Nat × Int :=
  let k := d.leading 700 309
  ((List.range 17).findSome? fun n => d.onGrid (k - Int.ofNat n)).getD (d.significand, 0)

end Double

def stripZeros : Nat → Nat → Int → Nat × Int
  | 0, c, g => (c, g)
  | fuel + 1, c, g => if c % 10 = 0 ∧ c ≠ 0 then stripZeros fuel (c / 10) (g + 1) else (c, g)

def zeros (n : Nat) : List Char :=
  List.replicate n '0'

def exponentText (k : Int) : List Char :=
  let digits := (toString k.natAbs).toList
  'e' :: (if k < 0 then '-' else '+') :: zeros (2 - digits.length) ++ digits

/-- Positional from `10 ^ -4` to below `10 ^ 16`, with one place at least; else with an exponent. -/
def layout (c : Nat) (g : Int) : List Char :=
  let digits := (toString c).toList
  let k := g + digits.length - 1
  if k < -4 ∨ 16 ≤ k then
    digits.take 1 ++ (if digits.length = 1 then [] else '.' :: digits.drop 1) ++ exponentText k
  else if k < 0 then '0' :: '.' :: zeros (-k - 1).toNat ++ digits
  else
    let whole := digits.take (k + 1).toNat
    let part := digits.drop (k + 1).toNat
    whole ++ zeros g.toNat ++ '.' :: if part.isEmpty then ['0'] else part

namespace Double

def text (d : Double) : String :=
  let sign := if d.negative then ['-'] else []
  if d.significand = 0 then String.ofList (sign ++ ['0', '.', '0'])
  else
    let (c, g) := d.shortest
    let (c, g) := stripZeros 20 c g
    String.ofList (sign ++ layout c g)

end Double

def text (x : Float) : String :=
  match ofFloat x with
  | .finite d => d.text
  | .infinite true => "-inf"
  | .infinite false => "inf"
  | .notANumber => "nan"

end Whiley.Number
