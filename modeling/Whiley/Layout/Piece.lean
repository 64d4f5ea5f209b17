import Whiley.Text.Lines
import Whiley.Token.Lexer

/-!
Printed text in pieces. A word is one token, a blank parts two tokens; a line is a run of pieces at a
depth of indentation.
-/

namespace Whiley

inductive PrintFault
  | unknownOperator (op : String)
  | unreadable (e : LexicalError)
  deriving DecidableEq, Repr

inductive Piece
  | word (text : String)
  | blank
  | fault (f : PrintFault)
  deriving DecidableEq, Repr

abbrev Pieces := List Piece

namespace Piece

def text : Piece → String
  | .word s => s
  | .blank => " "
  | .fault _ => ""

def fault? : Piece → Option PrintFault
  | .fault f => some f
  | _ => none

def textOf (ps : Pieces) : String :=
  String.join (ps.map text)

def brackets (ps : Pieces) : Pieces :=
  .word "(" :: ps ++ [.word ")"]

def separated (separator : Pieces) : List Pieces → Pieces
  | [] => []
  | [ps] => ps
  | ps :: rest => ps ++ separator ++ separated separator rest

def commas : List Pieces → Pieces :=
  separated [.word ",", .blank]

theorem textOf_append (ps qs : Pieces) : textOf (ps ++ qs) = textOf ps ++ textOf qs := by
  simp [textOf]

end Piece

structure Line where
  depth : Nat
  pieces : Pieces
  deriving DecidableEq, Repr

namespace Line

def margin (depth : Nat) : List Char :=
  List.replicate (4 * depth) ' '

def indented (depth : Nat) (cs : List Char) : List Char :=
  if cs.isEmpty then [] else margin depth ++ cs

/-- A separator inside an indented line breaks it, and each part is indented. -/
def text (l : Line) : String :=
  if l.depth = 0 then Piece.textOf l.pieces
  else
    String.ofList
      (['\n'].intercalate
        ((Text.pieces (Piece.textOf l.pieces).toList).map (indented l.depth)))

end Line

end Whiley
