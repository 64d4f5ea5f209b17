import Whiley.Text.Integer
import Whiley.Toml.Value

namespace Whiley.Toml

inductive Fault
  | malformed
  | integer (f : Text.IntegerFault)
  deriving DecidableEq, Repr

abbrev Reader (α : Type) := List Char → Except Fault (α × List Char)

def isBlank (c : Char) : Bool :=
  c = ' ' || c = '\t'

def isBlankOrNewline (c : Char) : Bool :=
  isBlank c || c = '\n'

def isControl (c : Char) : Bool :=
  (c.toNat < 32 || c.toNat = 127) && c ≠ '\t'

def isIllegal (multiline : Bool) (c : Char) : Bool :=
  isControl c && !(multiline && c = '\n')

def skipBlanks (cs : List Char) : List Char :=
  cs.dropWhile isBlank

def after? (start : String) (cs : List Char) : Option (List Char) :=
  if start.toList.isPrefixOf cs then some (cs.drop start.length) else none

/-! ### Strings -/

def escapes : List (Char × Char) :=
  [('b', '\x08'), ('t', '\t'), ('n', '\n'), ('f', '\x0c'), ('r', '\r'), ('"', '"'), ('\\', '\\')]

def hexDigit? (c : Char) : Option Nat :=
  if '0' ≤ c ∧ c ≤ '9' then some (c.toNat - 48)
  else if 'a' ≤ c ∧ c ≤ 'f' then some (c.toNat - 87)
  else if 'A' ≤ c ∧ c ≤ 'F' then some (c.toNat - 55)
  else none

def hexNumber? (cs : List Char) : Option Nat :=
  cs.foldlM (fun n c => (hexDigit? c).map (n * 16 + ·)) 0

def codePoint (width : Nat) : Reader Char := fun cs =>
  let digits := cs.take width
  match hexNumber? digits with
  | some n =>
    if h : digits.length = width ∧ n.isValidChar then .ok (Char.ofNatAux n h.2, cs.drop width)
    else .error .malformed
  | none => .error .malformed

/-- A line end in a string of many lines that is taken away with the blanks around it. -/
def foldedLine (cs : List Char) : Except Fault (List Char) :=
  match skipBlanks cs with
  | [] => .ok []
  | '\n' :: rest => .ok (rest.dropWhile isBlankOrNewline)
  | _ => .error .malformed

def escape (multiline : Bool) : Reader (List Char)
  | [] => .error .malformed
  | c :: cs =>
    if multiline && isBlankOrNewline c then (foldedLine (c :: cs)).map ([], ·)
    else if c = 'u' then (codePoint 4 cs).map fun (d, rest) => ([d], rest)
    else if c = 'U' then (codePoint 8 cs).map fun (d, rest) => ([d], rest)
    else
      match escapes.find? (·.1 = c) with
      | some (_, d) => .ok ([d], cs)
      | none => .error .malformed

def basicBody (multiline : Bool) : Nat → List Char → Reader (List Char)
  | 0, _, _ => .error .malformed
  | _, _, [] => .error .malformed
  | fuel + 1, done, c :: cs =>
    if c = '"' ∧ !multiline then .ok (done.reverse, cs)
    else if c = '"' ∧ ['"', '"'].isPrefixOf cs then .ok (done.reverse, cs.drop 2)
    else if c = '\\' then
      match escape multiline cs with
      | .ok (ds, rest) => basicBody multiline fuel (ds.reverse ++ done) rest
      | .error f => .error f
    else if isIllegal multiline c then .error .malformed
    else basicBody multiline fuel (c :: done) cs

def literalBody (multiline : Bool) (closing : String) : List Char → Reader (List Char)
  | _, [] => .error .malformed
  | done, c :: cs =>
    match after? closing (c :: cs) with
    | some rest => .ok (done.reverse, rest)
    | none =>
      if isIllegal multiline c then .error .malformed
      else literalBody multiline closing (c :: done) cs

/-- Up to two quotes more belong to a string of many lines. -/
def extraQuotes (quote : Char) (body : List Char) : List Char → List Char × List Char
  | c :: d :: cs =>
    if c = quote then
      if d = quote then (body ++ [quote, quote], cs) else (body ++ [quote], d :: cs)
    else (body, c :: d :: cs)
  | [c] => if c = quote then (body ++ [quote], []) else (body, [c])
  | [] => (body, [])

/-- The line end right after the opening quotes is not part of the string. -/
def dropFirstNewline : List Char → List Char
  | '\n' :: cs => cs
  | cs => cs

def shortBasic : Reader (List Char) := fun cs => basicBody false (cs.length + 1) [] cs

def longBasic : Reader (List Char) := fun cs =>
  let cs := dropFirstNewline cs
  (basicBody true (cs.length + 1) [] cs).map fun (body, rest) => extraQuotes '"' body rest

def shortLiteral : Reader (List Char) := literalBody false "'" []

def longLiteral : Reader (List Char) := fun cs =>
  (literalBody true "'''" [] (dropFirstNewline cs)).map fun (body, rest) =>
    extraQuotes '\'' body rest

def string? (cs : List Char) : Option (Except Fault (List Char × List Char)) :=
  match after? "\"\"\"" cs, after? "\"" cs, after? "'''" cs, after? "'" cs with
  | some rest, _, _, _ => some (longBasic rest)
  | none, some rest, _, _ => some (shortBasic rest)
  | none, none, some rest, _ => some (longLiteral rest)
  | none, none, none, some rest => some (shortLiteral rest)
  | none, none, none, none => none

/-! ### Numbers -/

def isDecimal (c : Char) : Bool :=
  '0' ≤ c && c ≤ '9'

def digitRun (p : Char → Bool) : List Char → List Char × List Char
  | c :: '_' :: d :: cs =>
    if p c then
      if p d then
        let (ds, rest) := digitRun p (d :: cs)
        (c :: ds, rest)
      else ([c], '_' :: d :: cs)
    else ([], c :: '_' :: d :: cs)
  | c :: cs =>
    if p c then
      let (ds, rest) := digitRun p cs
      (c :: ds, rest)
    else ([], c :: cs)
  | [] => ([], [])

def inBase (base : Nat) (ds : List Char) : Nat :=
  ds.foldl (fun n c => n * base + (hexDigit? c).getD 0) 0

def based? (cs : List Char) : Option (Nat × List Char) :=
  let read := fun (base : Nat) (p : Char → Bool) (cs : List Char) =>
    match digitRun p cs with
    | ([], _) => none
    | (ds, rest) => some (inBase base ds, rest)
  match cs with
  | '0' :: 'x' :: cs => read 16 (fun c => (hexDigit? c).isSome) cs
  | '0' :: 'b' :: cs => read 2 (fun c => c = '0' || c = '1') cs
  | '0' :: 'o' :: cs => read 8 (fun c => '0' ≤ c && c ≤ '7') cs
  | _ => none

def sign : List Char → Bool × List Char
  | '-' :: cs => (true, cs)
  | '+' :: cs => (false, cs)
  | cs => (false, cs)

/-- The digits before the point: a zero alone, or digits of which the first is not zero. -/
def wholePart (cs : List Char) : List Char × List Char :=
  match cs with
  | '0' :: rest => (['0'], rest)
  | _ => digitRun isDecimal cs

def fraction (cs : List Char) : List Char × List Char :=
  match cs with
  | '.' :: rest =>
    match digitRun isDecimal rest with
    | ([], _) => ([], cs)
    | found => found
  | _ => ([], cs)

def exponent (cs : List Char) : Option Int × List Char :=
  match cs with
  | c :: rest =>
    if c = 'e' ∨ c = 'E' then
      let (negative, rest) := sign rest
      match digitRun isDecimal rest with
      | ([], _) => (none, cs)
      | (ds, rest) => (some (if negative then -(inBase 10 ds : Int) else inBase 10 ds), rest)
    else (none, cs)
  | [] => (none, cs)

def nearestFloat (negative : Bool) (c : Nat) (g : Int) : Float :=
  let size := g + (toString c).length
  let x :=
    if c = 0 ∨ size < -400 then 0.0
    else if 400 < size then 1.0 / 0.0
    else Float.ofScientific c (decide (g < 0)) g.natAbs
  if negative then -x else x

def integer (negative : Bool) (ds : List Char) : Except Fault Value :=
  if Text.digitLimit < ds.length then .error (.integer (.tooLong ds.length))
  else .ok (.integer (if negative then -(inBase 10 ds : Int) else inBase 10 ds))

def number? (cs : List Char) : Option (Except Fault (Value × List Char)) :=
  match based? cs with
  | some (n, rest) => some (.ok (.integer n, rest))
  | none =>
    let (negative, unsigned) := sign cs
    match wholePart unsigned with
    | ([], _) => none
    | (whole, rest) =>
      let (part, afterPart) := fraction rest
      let (power, rest) := exponent afterPart
      if part.isEmpty && power.isNone then some ((integer negative whole).map (·, rest))
      else
        let x := nearestFloat negative (inBase 10 (whole ++ part)) (power.getD 0 - part.length)
        some (.ok (.float x, rest))

def wordFloat? (cs : List Char) : Option (Float × List Char) :=
  let infinity : Float := 1.0 / 0.0
  let words : List (String × Float) :=
    [("inf", infinity), ("nan", 0.0 / 0.0), ("-inf", -infinity), ("+inf", infinity),
      ("-nan", 0.0 / 0.0), ("+nan", 0.0 / 0.0)]
  words.findSome? fun (w, x) => (after? w cs).map (x, ·)

/-! ### Moments -/

def digitsIn? (width low high : Nat) (cs : List Char) : Option (Nat × List Char) :=
  let ds := cs.take width
  let n := inBase 10 ds
  if ds.length = width && ds.all isDecimal && low ≤ n && n ≤ high then some (n, cs.drop width)
  else none

def daysIn (year month : Nat) : Nat :=
  if month = 2 then
    if year % 4 = 0 ∧ (year % 100 ≠ 0 ∨ year % 400 = 0) then 29 else 28
  else if month ∈ [4, 6, 9, 11] then 30
  else 31

def microseconds (ds : List Char) : Nat :=
  let ds := ds.take 6
  inBase 10 (ds ++ List.replicate (6 - ds.length) '0')

def time? (cs : List Char) : Option (Clock × List Char) := do
  let (h, cs) ← digitsIn? 2 0 23 cs
  let cs ← after? ":" cs
  let (m, cs) ← digitsIn? 2 0 59 cs
  let cs ← after? ":" cs
  let (s, cs) ← digitsIn? 2 0 59 cs
  match cs with
  | '.' :: rest =>
    let ds := rest.takeWhile isDecimal
    if ds.isEmpty then return (⟨h, m, s, 0⟩, cs)
    else return (⟨h, m, s, microseconds ds⟩, rest.dropWhile isDecimal)
  | _ => return (⟨h, m, s, 0⟩, cs)

def ahead (cs : List Char) : Option Int × List Char :=
  match cs with
  | c :: rest =>
    if c = 'Z' ∨ c = 'z' then (some 0, rest)
    else if c = '+' ∨ c = '-' then
      let found := do
        let (h, rest) ← digitsIn? 2 0 23 rest
        let rest ← after? ":" rest
        let (m, rest) ← digitsIn? 2 0 59 rest
        let minutes : Int := h * 60 + m
        return (some (if c = '-' then -minutes else minutes), rest)
      found.getD (none, cs)
    else (none, cs)
  | [] => (none, [])

def timeAfterDate? (cs : List Char) : Option (Clock × Option Int × List Char) :=
  match cs with
  | c :: rest =>
    if c = 'T' ∨ c = 't' ∨ c = ' ' then
      (time? rest).map fun (t, rest) => (t, ahead rest)
    else none
  | [] => none

def date? (cs : List Char) : Option (Except Fault (Value × List Char)) := do
  let (year, cs) ← digitsIn? 4 0 9999 cs
  let cs ← after? "-" cs
  let (month, cs) ← digitsIn? 2 1 12 cs
  let cs ← after? "-" cs
  let (day, cs) ← digitsIn? 2 1 31 cs
  if year = 0 ∨ daysIn year month < day then return .error .malformed
  else
    match timeAfterDate? cs with
    | some (time, ahead, rest) => return .ok (.moment (.both ⟨year, month, day⟩ time ahead), rest)
    | none => return .ok (.moment (.day ⟨year, month, day⟩), cs)

end Whiley.Toml
