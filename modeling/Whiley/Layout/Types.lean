import Whiley.Layout.Piece
import Whiley.Tree.TypeExpr

namespace Whiley

open Piece

def Identifier.piece (i : Identifier) : Piece :=
  .word i.text

def Name.pieces (n : Name) : Pieces :=
  separated [.word "::"] (n.components.map fun c => [c.piece])

def Identifier.list (is : List Identifier) : Pieces :=
  commas (is.map fun i => [i.piece])

/-- A list of names between two marks; an empty list is not written. -/
def Identifier.enclosed (opening closing : String) (is : List Identifier) : Pieces :=
  if is.isEmpty then [] else .word opening :: Identifier.list is ++ [.word closing]

namespace TypeExpr

/-- How tight a type binds: unions loosest, then intersections, forms with a mark in front, the rest. -/
def strength : TypeExpr → Nat
  | .union .. => 0
  | .intersection .. => 1
  | .negation .. => 2
  | .reference .. => 2
  | .function .. => 2
  | .method .. => 2
  | _ => 3

/-- Whether the type ends in return types, which would take in what is written after them. -/
def isOpenEnded : TypeExpr → Bool
  | .function .. => true
  | .method .. => true
  | _ => false

def within (t : TypeExpr) (least : Nat) (followed : Bool) (bare : Bool → Pieces) : Pieces :=
  if t.strength < least || (followed && t.isOpenEnded) then brackets (bare false)
  else bare followed

mutual

def bare : TypeExpr → Bool → Pieces
  | .primitive _ name, _ => [.word name]
  | .nominal _ name, _ => name.pieces
  | .array _ element, _ => element.within 3 true element.bare ++ [.word "[", .word "]"]
  | .list _ element, _ => .word "[" :: element.within 0 false element.bare ++ [.word "]"]
  | .record _ isOpen fields, _ =>
    .word "\x7b" ::
      commas (fieldPieces fields ++ if isOpen then [[.word "..."]] else []) ++ [.word "\x7d"]
  | .negation _ element, followed => .word "!" :: element.within 2 followed element.bare
  | .reference _ element none, followed => .word "&" :: element.within 2 followed element.bare
  | .reference _ element (some l), followed =>
    .word "&" :: l.piece :: .word ":" :: element.within 2 followed element.bare
  | .union _ operands, followed => operandPieces [.blank, .word "|", .blank] 1 followed operands
  | .intersection _ operands, followed =>
    operandPieces [.blank, .word "&", .blank] 2 followed operands
  | .function _ parameters returns, _ =>
    .word "function" :: brackets (commas (listPieces parameters)) ++
      .word "->" :: brackets (commas (listPieces returns))
  | .method _ parameters returns captures lifetimes, _ =>
    .word "method" :: Identifier.enclosed "[" "]" captures ++
      Identifier.enclosed "<" ">" lifetimes ++ brackets (commas (listPieces parameters)) ++
        if returns.isEmpty then [] else .word "->" :: brackets (commas (listPieces returns))

def operandPieces (operator : Pieces) (least : Nat) (followed : Bool) : List TypeExpr → Pieces
  | [] => []
  | t :: ts =>
    t.within least (followed || !ts.isEmpty) t.bare ++
      if ts.isEmpty then [] else operator ++ operandPieces operator least followed ts

def listPieces : List TypeExpr → List Pieces
  | [] => []
  | t :: ts => t.within 0 false t.bare :: listPieces ts

def fieldPieces : List Field → List Pieces
  | [] => []
  | .mk _ type name :: fs =>
    (type.within 0 false type.bare ++ [.blank, name.piece]) :: fieldPieces fs

end

def pieces (t : TypeExpr) : Pieces :=
  t.within 0 false t.bare

end TypeExpr

def Variable.pieces (v : Variable) : Pieces :=
  v.type.pieces ++ [.blank, v.name.piece]

def Variable.list (vs : List Variable) : Pieces :=
  commas (vs.map (·.pieces))

end Whiley
