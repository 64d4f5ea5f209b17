import Whiley.Layout.Stmts
import Whiley.Tree.Decl

/-!
Modules as text: canonical source with indents of four spaces and one statement a line. Imports stand
together, other declarations are parted by a blank line. Comments are no part of a tree and are lost.
-/

namespace Whiley

open Piece

def modifierPieces (modifiers : List String) : Pieces :=
  modifiers.flatMap fun m => [.word m, .blank]

/-- A single value named `$` is written as its type alone. -/
def resultPieces : List Variable → Pieces
  | [v] => if v.name.text = "$" then v.type.pieces else brackets v.pieces
  | vs => brackets (Variable.list vs)

def returnPieces (returns : List Variable) : Pieces :=
  if returns.isEmpty then [] else .blank :: .word "->" :: .blank :: resultPieces returns

def clauseLines (keyword : String) (es : List Expr) : List Line :=
  es.map fun e => ⟨0, .word keyword :: .blank :: e.pieces⟩

def closeHeader : List Line → List Line
  | [] => []
  | [l] => [{ l with pieces := l.pieces ++ [.word ":"] }]
  | l :: ls => l :: closeHeader ls

def Routine.lines (keyword : Pieces) (r : Routine) : List Line :=
  let signature :=
    modifierPieces r.modifiers ++ keyword ++ .blank :: r.name.piece ::
      brackets (Variable.list r.parameters) ++ returnPieces r.returns
  closeHeader
      (⟨0, signature⟩ :: clauseLines "requires" r.requires ++ clauseLines "ensures" r.ensures) ++
    r.body.lines 1

def Decl.lines : Decl → List Line
  | .imports _ path =>
    [⟨0, .word "import" :: .blank :: separated [.word "::"] (path.map fun c => [c.piece])⟩]
  | .type _ modifiers name declared invariant =>
    [⟨0, modifierPieces modifiers ++
      [.word "type", .blank, name.piece, .blank, .word "is", .blank] ++
        resultPieces [declared] ++ clausePieces "where" invariant⟩]
  | .constant _ modifiers name value =>
    [⟨0, modifierPieces modifiers ++
      [.word "constant", .blank, name.piece, .blank, .word "is", .blank] ++ value.pieces⟩]
  | .function _ routine => routine.lines [.word "function"]
  | .method _ lifetimes routine =>
    routine.lines (.word "method" :: Identifier.enclosed "<" ">" lifetimes)
  | .property _ modifiers name parameters invariant =>
    [⟨0, modifierPieces modifiers ++ [.word "property", .blank, name.piece] ++
      brackets (Variable.list parameters) ++ clausePieces "where" invariant⟩]

def Decl.linesAfter (before : Option Decl) (d : Decl) : List Line :=
  if d.isImport && before.any Decl.isImport then d.lines else ⟨0, []⟩ :: d.lines

def Decl.linesOf (before : Option Decl) : List Decl → List Line
  | [] => []
  | d :: ds => d.linesAfter before ++ Decl.linesOf (some d) ds

namespace Module

def lines (m : Module) : List Line :=
  match m.package, m.declarations with
  | [], [] => []
  | [], d :: ds => d.lines ++ Decl.linesOf (some d) ds
  | package, ds =>
    ⟨0, .word "package" :: .blank :: separated [.word "."] (package.map fun c => [.word c])⟩ ::
      Decl.linesOf none ds

def fault? (m : Module) : Option PrintFault :=
  m.lines.findSome? fun l => l.pieces.findSome? Piece.fault?

def text (m : Module) : String :=
  "\n".intercalate (m.lines.map Line.text) ++ "\n"

def format (m : Module) : Except PrintFault String :=
  match m.fault? with
  | some f => .error f
  | none => .ok m.text

end Module

end Whiley
