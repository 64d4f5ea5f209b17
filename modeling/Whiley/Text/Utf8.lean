namespace Whiley.Text

inductive Utf8Fault.Reason
  | invalidStart
  | invalidContinuation
  | unexpectedEnd
  deriving DecidableEq, Repr

def Utf8Fault.Reason.message : Utf8Fault.Reason → String
  | .invalidStart => "invalid start byte"
  | .invalidContinuation => "invalid continuation byte"
  | .unexpectedEnd => "unexpected end of data"

structure Utf8Fault where
  reason : Utf8Fault.Reason
  start : Nat
  stop : Nat
  deriving DecidableEq, Repr

/-- What a lead byte announces: the number of continuation bytes, and the range of the first. -/
structure Lead where
  more : Nat
  low : Nat
  high : Nat
  bits : Nat

def lead? (b : Nat) : Option Lead :=
  if b < 0x80 then some ⟨0, 0, 0, b⟩
  else if b < 0xC2 then none
  else if b < 0xE0 then some ⟨1, 0x80, 0xBF, b - 0xC0⟩
  else if b < 0xF0 then
    some ⟨2, if b = 0xE0 then 0xA0 else 0x80, if b = 0xED then 0x9F else 0xBF, b - 0xE0⟩
  else if b < 0xF5 then
    some ⟨3, if b = 0xF0 then 0x90 else 0x80, if b = 0xF4 then 0x8F else 0xBF, b - 0xF0⟩
  else none

def continuation (start used more low high bits : Nat) (bytes : List UInt8) :
    Except Utf8Fault (Nat × List UInt8) :=
  match more, bytes with
  | 0, bytes => .ok (bits, bytes)
  | _ + 1, [] => .error ⟨.unexpectedEnd, start, start + used⟩
  | more + 1, b :: bytes =>
    if low ≤ b.toNat ∧ b.toNat ≤ high then
      continuation start (used + 1) more 0x80 0xBF (bits * 64 + b.toNat % 64) bytes
    else .error ⟨.invalidContinuation, start, start + used⟩

def decodeFrom (done : List Char) : Nat → Nat → List UInt8 → Except Utf8Fault (List Char)
  | 0, _, _ => .ok done.reverse
  | _, _, [] => .ok done.reverse
  | fuel + 1, start, b :: bytes =>
    match lead? b.toNat with
    | none => .error ⟨.invalidStart, start, start + 1⟩
    | some l =>
      match continuation start 1 l.more l.low l.high l.bits bytes with
      | .error fault => .error fault
      | .ok (code, rest) => decodeFrom (Char.ofNat code :: done) fuel (start + 1 + l.more) rest

def decodeUtf8 (bytes : List UInt8) : Except Utf8Fault (List Char) :=
  decodeFrom [] bytes.length 0 bytes

end Whiley.Text
