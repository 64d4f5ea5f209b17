import Whiley.Text.Quoted
import Whiley.Token

namespace Whiley

inductive LexicalFault
  | openComment
  | openString
  | openCharacter
  | unknownCharacter (c : Char)
  deriving DecidableEq, Repr

def LexicalFault.message : LexicalFault → String
  | .openComment => "unterminated block comment"
  | .openString => "unterminated string literal"
  | .openCharacter => "unterminated character literal"
  | .unknownCharacter c => "unknown character " ++ Text.quoted (String.singleton c)

def LexicalFault.width : LexicalFault → Nat
  | .openComment => 2
  | _ => 1

structure LexicalError where
  fault : LexicalFault
  offset : Nat
  deriving DecidableEq, Repr

def LexicalError.span (e : LexicalError) : Span :=
  ⟨e.offset, e.offset + e.fault.width⟩

namespace Lexer

def isBlank (c : Char) : Bool :=
  c = ' ' || c = '\t'

def isDigit (c : Char) : Bool :=
  '0' ≤ c && c ≤ '9'

def isWordStart (c : Char) : Bool :=
  Text.isLetter c || c = '_'

def isWordChar (c : Char) : Bool :=
  Text.isAlphanumeric c || c = '_'

def run (p : Char → Bool) (cs : List Char) : Nat :=
  (cs.takeWhile p).length

def lineLength : List Char → Nat
  | [] => 0
  | '\n' :: _ => 0
  | '\r' :: '\n' :: _ => 0
  | _ :: cs => lineLength cs + 1

def commentLength : List Char → Option Nat
  | [] => none
  | '*' :: '/' :: _ => some 2
  | _ :: cs => (commentLength cs).map (· + 1)

/-- Up to and with the closing quote; a backslash takes the next character with it. -/
def stringLength : List Char → Option Nat
  | [] => none
  | '"' :: _ => some 1
  | '\n' :: _ => none
  | '\\' :: _ :: cs => (stringLength cs).map (· + 2)
  | _ :: cs => (stringLength cs).map (· + 1)

def charLength : List Char → Option Nat
  | '\\' :: _ :: '\'' :: _ => some 3
  | '\\' :: _ => none
  | _ :: '\'' :: _ => some 2
  | _ => none

def byteMark : List Char → Bool
  | 'b' :: c :: _ => !isWordChar c
  | ['b'] => true
  | _ => false

/-- What a text begins with: blanks that are no token, or a token; either of so many characters. -/
inductive Lexeme
  | blanks (length : Nat)
  | token (kind : Kind) (length : Nat)
  deriving DecidableEq, Repr

def orFault (fault : LexicalFault) (kind : Kind) (extra : Nat) :
    Option Nat → Except LexicalFault Lexeme
  | none => .error fault
  | some n => .ok (.token kind (n + extra))

def symbol (cs : List Char) : Option Kind :=
  Kind.symbols.find? (·.spelling.toList.isPrefixOf cs)

def numeral (cs : List Char) : Lexeme :=
  let n := run isDigit cs
  if byteMark (cs.drop n) then .token .byteLit (n + 1) else .token .intLit n

def word (cs : List Char) : Lexeme :=
  let n := run isWordChar cs
  .token (Kind.ofWord (String.ofList (cs.take n))) n

def lexeme (lineStart : Bool) (c : Char) (cs : List Char) : Except LexicalFault Lexeme :=
  if isBlank c then
    .ok (if lineStart then .token .indent (run isBlank cs + 1) else .blanks (run isBlank cs + 1))
  else if c = '\n' then .ok (.token .newline 1)
  else if c = '\r' ∧ cs.head? = some '\n' then .ok (.token .newline 2)
  else if c = '/' ∧ cs.head? = some '/' then .ok (.token .lineComment (lineLength cs + 1))
  else if c = '/' ∧ cs.head? = some '*' then
    orFault .openComment .blockComment 2 (commentLength (cs.drop 1))
  else if c = '"' then orFault .openString .stringLit 1 (stringLength cs)
  else if c = '\'' then orFault .openCharacter .charLit 1 (charLength cs)
  else if isDigit c then .ok (numeral (c :: cs))
  else if isWordStart c then .ok (word (c :: cs))
  else
    match symbol (c :: cs) with
    | some kind => .ok (.token kind kind.spelling.length)
    | none => .error (.unknownCharacter c)

/-- Cuts at most `fuel` lexemes from a text that stands at `offset`. -/
def tokensFrom : Nat → Nat → Bool → List Char → Except LexicalError (List Token)
  | 0, _, _, _ => .ok []
  | _ + 1, _, _, [] => .ok []
  | fuel + 1, offset, lineStart, c :: cs =>
    match lexeme lineStart c cs with
    | .error fault => .error ⟨fault, offset⟩
    | .ok (.blanks n) => tokensFrom fuel (offset + n) false ((c :: cs).drop n)
    | .ok (.token kind n) =>
      let token := ⟨kind, String.ofList ((c :: cs).take n), ⟨offset, offset + n⟩⟩
      (tokensFrom fuel (offset + n) (kind = .newline) ((c :: cs).drop n)).map (token :: ·)

end Lexer

def lex (source : String) : Except LexicalError (List Token) :=
  Lexer.tokensFrom source.toList.length 0 true source.toList

end Whiley
