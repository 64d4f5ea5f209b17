import Whiley.Fault

namespace Whiley

def escapes : List (Char × Char) :=
  [('b', '\x08'), ('t', '\t'), ('n', '\n'), ('f', '\x0c'), ('r', '\r'), ('"', '"'),
    ('\'', '\''), ('\\', '\\')]

def escaped? (code : Char) : Option Char :=
  (escapes.find? (·.1 = code)).map (·.2)

def hexValue? (c : Char) : Option Nat :=
  if '0' ≤ c ∧ c ≤ '9' then some (c.toNat - 48)
  else if 'a' ≤ c ∧ c ≤ 'f' then some (c.toNat - 87)
  else if 'A' ≤ c ∧ c ≤ 'F' then some (c.toNat - 55)
  else none

def codePoint? (a b c d : Char) : Option Nat := do
  return ((← hexValue? a) * 16 + (← hexValue? b)) * 256 + ((← hexValue? c) * 16 + (← hexValue? d))

namespace Token

def failure (t : Token) (fault : SyntaxFault) : Failure :=
  .error ⟨fault, t.span⟩

def quotedBody (t : Token) : List Char :=
  (t.text.toList.drop 1).dropLast

def binaryValue (n : Nat) : List Char → Option Nat
  | [] => some n
  | c :: cs =>
    if c = '0' then binaryValue (n * 2) cs
    else if c = '1' then binaryValue (n * 2 + 1) cs
    else none

def byteValue (t : Token) : Except Failure Nat :=
  if 9 < t.text.length then .error (t.failure .longByte)
  else
    match binaryValue 0 t.text.toList.dropLast with
    | some n => .ok n
    | none => .error (t.failure .malformedByte)

def charValue (t : Token) : Except Failure Char :=
  match t.quotedBody with
  | '\\' :: code =>
    match code with
    | [c] =>
      match escaped? c with
      | some e => .ok e
      | none => .error (t.failure .unknownEscape)
    | _ => .error (t.failure .unknownEscape)
  | [c] => .ok c
  | _ => .error .notOneCharacter

def codePoints (t : Token) : List Char → Except Failure (List Nat)
  | [] => .ok []
  | ['\\'] => .error .openEscape
  | '\\' :: 'u' :: a :: b :: c :: d :: cs =>
    match codePoint? a b c d with
    | some n => (t.codePoints cs).map (n :: ·)
    | none => .error (t.failure .malformedUnicode)
  | '\\' :: code :: cs =>
    if code = 'u' then .error (t.failure .malformedUnicode)
    else
      match escaped? code with
      | some e => (t.codePoints cs).map (e.toNat :: ·)
      | none => .error (t.failure .unknownEscape)
  | c :: cs => (t.codePoints cs).map (c.toNat :: ·)

/-- No code point of a surrogate is a character. -/
def characters? (ns : List Nat) : Option (List Char) :=
  ns.mapM fun n => if h : n.isValidChar then some (Char.ofNatAux n h) else none

def stringValue (t : Token) : Except Failure String := do
  match characters? (← t.codePoints t.quotedBody) with
  | some cs => return String.ofList cs
  | none => .error (t.failure .malformedUnicode)

def integerValue (t : Token) : Except Failure Nat :=
  match Text.readNatural t.text.toList with
  | .ok n => .ok n
  | .error fault => .error (.integer t.text fault)

end Token

end Whiley
