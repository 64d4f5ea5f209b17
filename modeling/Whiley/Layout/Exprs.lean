import Whiley.Ambiguity
import Whiley.Layout.Types
import Whiley.Text.Quoted
import Whiley.Tree.Expr

namespace Whiley

open Piece

/-- How tight a binary operator binds; zero stands for no operator at all. -/
def operatorStrength (op : String) : Nat :=
  if op ∈ ["==>", "<==>"] then 1
  else if op ∈ ["&&", "||"] then 2
  else if op = "|" then 3
  else if op = "^" then 4
  else if op = "&" then 5
  else if op ∈ ["==", "!=", "<", "<=", ">", ">=", "⊂", "⊆", "⊃", "⊇"] then 6
  else if op ∈ ["<<", ">>"] then 7
  else if op ∈ ["+", "-"] then 8
  else if op ∈ ["*", "/", "%"] then 9
  else 0

def operatorPiece (op : String) : Piece :=
  if operatorStrength op = 0 then .fault (.unknownOperator op) else .word op

namespace Strength

def condition : Nat := 6
def shift : Nat := 7
def additive : Nat := 8
def access : Nat := 10
def term : Nat := 11

/-- What the operands of an operator must bind as tight as: left and right. -/
def operands (s : Nat) : Nat × Nat :=
  if s < condition then (s + 1, s)
  else if s = condition then (s + 1, s + 1)
  else (s, s + 1)

end Strength

def literalEscape? (c : Char) : Option String :=
  if c = '\x08' then some "\\b"
  else if c = '\t' then some "\\t"
  else if c = '\n' then some "\\n"
  else if c = '\x0c' then some "\\f"
  else if c = '\r' then some "\\r"
  else if c = '\\' then some "\\\\"
  else none

def charLiteral (c : Char) : String :=
  match literalEscape? c with
  | some e => "'" ++ e ++ "'"
  | none => if c = '\'' then "'\\''" else "'" ++ String.singleton c ++ "'"

def stringLiteralChar (c : Char) : List Char :=
  match literalEscape? c with
  | some e => e.toList
  | none =>
    if c = '"' then ['\\', '"']
    else if c.toNat < 0x20 then '\\' :: 'u' :: Text.hex 4 c.toNat
    else [c]

def stringLiteral (s : String) : String :=
  String.ofList ('"' :: s.toList.flatMap stringLiteralChar ++ ['"'])

def binaryDigits : Nat → Nat → List Char
  | 0, _ => []
  | width + 1, n => binaryDigits width (n / 2) ++ [if n % 2 = 0 then '0' else '1']

def byteLiteral (n : Nat) : String :=
  String.ofList (binaryDigits 8 n ++ ['b'])

def startsTerm (text : String) : Except LexicalError Bool :=
  (lex text).map fun
    | [] => false
    | t :: _ => t.kind.startsTerm

/-- The operand of a cast to `type`; without brackets `(T) -x` would be a subtraction. -/
def castOperand (type : TypeExpr) (operand : Pieces) : Pieces :=
  if type.isForced then operand
  else
    match startsTerm (textOf operand) with
    | .ok true => operand
    | .ok false => brackets operand
    | .error e => [.fault (.unreadable e)]

def Identifier.optionalList : Option (List Identifier) → Pieces
  | none => []
  | some is => Identifier.enclosed "<" ">" is

namespace Expr

def strength : Expr → Nat
  | .binary _ _ op _ => operatorStrength op
  | .isType .. => Strength.condition
  | .quantifier .. => Strength.condition
  | .recordAccess .. => Strength.access
  | .arrayAccess .. => Strength.access
  | .indirectInvoke .. => Strength.access
  | _ => Strength.term

/-- The loosest operator that an expression would take in if it were written after it. -/
def reach? : Expr → Option Nat
  | .unary _ .not _ => some Strength.condition
  | .unary _ .negate _ => some Strength.access
  | .unary _ .complement _ => some 1
  | .cast .. => some 1
  | .new .. => some 1
  | .isType .. => some 3
  | _ => none

def swallows (e : Expr) (follow : Option Nat) : Bool :=
  match follow, e.reach? with
  | some f, some r => r ≤ f
  | _, _ => false

/-- The expression where it must bind as tight as `least`, given its text without brackets. -/
def within (e : Expr) (least : Nat) (follow : Option Nat) (bare : Option Nat → Pieces) : Pieces :=
  if e.strength < least || e.swallows follow then brackets (bare none) else bare follow

def isDollar : Expr → Bool
  | .variableAccess _ name _ => name.text = "$"
  | _ => false

mutual

/-- The expression without brackets around it; `follow` is the operator written after it. -/
def bare : Expr → Option Nat → Pieces
  | .nullLit _, _ => [.word "null"]
  | .boolLit _ value, _ => [.word (if value then "true" else "false")]
  | .byteLit _ value, _ => [.word (byteLiteral value)]
  | .charLit _ value, _ => [.word (charLiteral value)]
  | .intLit _ value, _ => [.word (toString value)]
  | .stringLit _ value, _ => [.word (stringLiteral value)]
  | .variableAccess _ name _, _ => [name.piece]
  | .staticAccess _ name, _ => name.pieces
  | .recordAccess _ (.dereference _ operand) field, _ =>
    operand.within Strength.access (some Strength.access) operand.bare ++
      [.word "->", field.piece]
  | .recordAccess _ source field, _ =>
    -- a field of the value whose invariant this is stands alone
    if source.isDollar then [field.piece]
    else
      source.within Strength.access (some Strength.access) source.bare ++
        [.word ".", field.piece]
  | .dereference _ operand, _ => .word "*" :: operand.within Strength.term none operand.bare
  | .arrayAccess _ source index, _ =>
    source.within Strength.access (some Strength.access) source.bare ++
      .word "[" :: index.within Strength.additive none index.bare ++ [.word "]"]
  | .arrayLength _ operand, _ =>
    .word "|" :: operand.within Strength.shift (some 3) operand.bare ++ [.word "|"]
  | .arrayInitialiser _ elements, _ =>
    .word "[" :: commas (listPieces elements) ++ [.word "]"]
  | .arrayGenerator _ element length, _ =>
    .word "[" :: element.within 0 none element.bare ++ .word ";" :: .blank ::
      length.within 0 none length.bare ++ [.word "]"]
  | .recordInitialiser _ name fields, _ =>
    (name.map (·.piece)).toList ++ .word "\x7b" :: commas (fieldPieces fields) ++ [.word "\x7d"]
  | .binary _ left op right, follow =>
    let s := operatorStrength op
    let (l, r) := Strength.operands s
    left.within l (some s) left.bare ++ .blank :: operatorPiece op :: .blank ::
      right.within r follow right.bare
  | .unary _ .not operand, follow =>
    .word "!" :: operand.within Strength.condition follow operand.bare
  | .unary _ .negate operand, follow =>
    .word "-" :: operand.within Strength.access follow operand.bare
  | .unary _ .complement operand, follow =>
    .word "~" :: operand.within 0 follow operand.bare
  | .isType _ operand type, _ =>
    operand.within Strength.shift (some Strength.condition) operand.bare ++
      .blank :: .word "is" :: .blank :: type.pieces
  | .cast _ type operand, follow =>
    brackets type.pieces ++ .blank :: castOperand type (operand.within 0 follow operand.bare)
  | .invoke _ name lifetimes arguments, _ =>
    name.pieces ++ Identifier.optionalList lifetimes ++ brackets (commas (listPieces arguments))
  | .indirectInvoke _ source lifetimes arguments, _ =>
    source.within Strength.access (some Strength.access) source.bare ++
      Identifier.optionalList lifetimes ++ brackets (commas (listPieces arguments))
  | .quantifier _ keyword ranges condition, _ =>
    .word keyword :: .blank :: .word "\x7b" :: .blank :: commas (rangePieces ranges) ++
      .blank :: .word "|" :: .blank :: condition.within 0 none condition.bare ++
        [.blank, .word "\x7d"]
  | .new _ operand lifetime, follow =>
    (if lifetime.text = "*" then [] else [lifetime.piece, .word ":"]) ++
      .word "new" :: .blank :: operand.within 0 follow operand.bare
  | .lambda _ parameters captures lifetimes body, _ =>
    .word "&" :: Identifier.enclosed "[" "]" captures ++ Identifier.enclosed "<" ">" lifetimes ++
      brackets
        (Variable.list parameters ++ (if parameters.isEmpty then [] else [.blank]) ++
          .word "->" :: .blank :: body.within 0 none body.bare)
  | .lambdaConstant _ name parameterTypes, _ =>
    .word "&" :: name.pieces ++
      if parameterTypes.isEmpty then []
      else brackets (commas (parameterTypes.map TypeExpr.pieces))

def listPieces : List Expr → List Pieces
  | [] => []
  | e :: es => e.within 0 none e.bare :: listPieces es

def fieldPieces : List FieldValue → List Pieces
  | [] => []
  | .mk name value :: fs =>
    (name.piece :: .word ":" :: .blank :: value.within 0 none value.bare) :: fieldPieces fs

def rangePieces : List Range → List Pieces
  | [] => []
  | .mk _ name start stop :: rs =>
    (name.piece :: .blank :: .word "in" :: .blank :: start.within Strength.additive none start.bare ++
      .word ".." :: stop.within Strength.additive (some 3) stop.bare) :: rangePieces rs

end

def pieces (e : Expr) : Pieces :=
  e.within 0 none e.bare

def list (es : List Expr) : Pieces :=
  commas (es.map pieces)

end Expr

end Whiley
