import Whiley.Text.Integer
import Whiley.Token

namespace Whiley

inductive SyntaxFault
  | unexpectedEnd
  | expecting (k : Kind)
  | expectingLineEnd
  | expectingLifetime
  | unrecognisedDeclaration
  | unrecognisedTarget
  | unrecognisedTerm
  | unknownType
  | repeatedVisibility
  | unexpectedBlockEnd
  | misplacedBreak
  | misplacedContinue
  | unreachableCase
  | duplicateDefault
  | duplicateKey
  | longByte
  | malformedByte
  | unknownEscape
  | malformedUnicode
  | nameTaken
  | undeclaredLifetime
  deriving DecidableEq, Repr

def SyntaxFault.message : SyntaxFault → String
  | .unexpectedEnd => "unexpected end-of-file"
  | .expecting k => "expecting \"" ++ k.spelling ++ "\" here"
  | .expectingLineEnd => "expected end-of-line"
  | .expectingLifetime => "expecting lifetime identifier"
  | .unrecognisedDeclaration => "unrecognised declaration"
  | .unrecognisedTarget => "unrecognised lval"
  | .unrecognisedTerm => "unrecognised term"
  | .unknownType => "unknown type encountered"
  | .repeatedVisibility => "visibility modifier already given"
  | .unexpectedBlockEnd => "unexpected end-of-block"
  | .misplacedBreak => "break outside switch or loop"
  | .misplacedContinue => "continue outside loop"
  | .unreachableCase => "unreachable code"
  | .duplicateDefault => "duplicate default label"
  | .duplicateKey => "duplicate record key"
  | .longByte => "invalid binary literal (too long)"
  | .malformedByte => "invalid binary literal (invalid characters)"
  | .unknownEscape => "unrecognised escape character"
  | .malformedUnicode => "invalid unicode string"
  | .nameTaken => "name already declared"
  | .undeclaredLifetime => "use of undeclared lifetime"

structure SyntaxError where
  fault : SyntaxFault
  span : Span
  deriving DecidableEq, Repr

inductive Failure
  | error (e : SyntaxError)
  | integer (text : String) (fault : Text.IntegerFault)
  | notBlank (c : Char)
  /-- A string literal that ends in the middle of an escape. -/
  | openEscape
  | notOneCharacter
  | exhausted
  deriving DecidableEq, Repr

def Failure.message : Failure → String
  | .error e => e.fault.message
  | .integer text fault => fault.message text
  | .notBlank c => "space or tab character expected, got " ++ Text.quoted (String.singleton c)
  | .openEscape => "string index out of range"
  | .notOneCharacter => "character literal does not hold one character"
  | .exhausted => "the parse has no end"

end Whiley
