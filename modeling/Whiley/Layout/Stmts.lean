import Whiley.Layout.Exprs
import Whiley.Tree.Stmt

namespace Whiley

open Piece

def clausePieces (keyword : String) (es : List Expr) : Pieces :=
  es.flatMap fun e => .blank :: .word keyword :: .blank :: e.pieces

def Stmt.isIf : Stmt → Bool
  | .ifElse .. => true
  | _ => false

mutual

/-- The lines of a statement whose first line stands at `depth`, after `lead` if it is a test. -/
def Stmt.lines (lead : Pieces) (depth : Nat) : Stmt → List Line
  | .assert _ condition => [⟨depth, .word "assert" :: .blank :: condition.pieces⟩]
  | .assume _ condition => [⟨depth, .word "assume" :: .blank :: condition.pieces⟩]
  | .assign _ targets values =>
    [⟨depth, Expr.list targets ++ .blank :: .word "=" :: .blank :: Expr.list values⟩]
  | .break _ => [⟨depth, [.word "break"]⟩]
  | .continue _ => [⟨depth, [.word "continue"]⟩]
  | .debug _ operand => [⟨depth, .word "debug" :: .blank :: operand.pieces⟩]
  | .doWhile _ condition invariants body =>
    ⟨depth, [.word "do", .word ":"]⟩ :: body.lines (depth + 1) ++
      [⟨depth, .word "while" :: .blank :: condition.pieces ++ clausePieces "where" invariants⟩]
  | .fail _ => [⟨depth, [.word "fail"]⟩]
  | .ifElse _ condition trueBranch falseBranch =>
    ⟨depth, lead ++ .word "if" :: .blank :: condition.pieces ++ [.word ":"]⟩ ::
      trueBranch.lines (depth + 1) ++ Block.elseLines depth falseBranch
  | .namedBlock _ name body => ⟨depth, [name.piece, .word ":"]⟩ :: body.lines (depth + 1)
  | .return _ values =>
    [⟨depth, .word "return" :: if values.isEmpty then [] else .blank :: Expr.list values⟩]
  | .skip _ => [⟨depth, [.word "skip"]⟩]
  | .switch _ condition cases =>
    ⟨depth, .word "switch" :: .blank :: condition.pieces ++ [.word ":"]⟩ ::
      Case.linesOf (depth + 1) cases
  | .while _ condition invariants body =>
    ⟨depth, .word "while" :: .blank :: condition.pieces ++ clausePieces "where" invariants ++
      [.word ":"]⟩ :: body.lines (depth + 1)
  | .variable declared none => [⟨depth, declared.pieces⟩]
  | .variable declared (some e) =>
    [⟨depth, declared.pieces ++ .blank :: .word "=" :: .blank :: e.pieces⟩]
  | .invocation call => [⟨depth, call.pieces⟩]

def Stmt.linesOf (depth : Nat) : List Stmt → List Line
  | [] => []
  | s :: ss => s.lines [] depth ++ Stmt.linesOf depth ss

def Block.lines (depth : Nat) : Block → List Line
  | .mk _ statements => Stmt.linesOf depth statements

def Block.elseLines (depth : Nat) : Option Block → List Line
  | none => []
  | some (.mk _ [s]) =>
    if s.isIf then s.lines [.word "else", .blank] depth
    else ⟨depth, [.word "else", .word ":"]⟩ :: s.lines [] (depth + 1)
  | some b => ⟨depth, [.word "else", .word ":"]⟩ :: b.lines (depth + 1)

def Case.lines (depth : Nat) : Case → List Line
  | .mk _ conditions body =>
    ⟨depth,
      if conditions.isEmpty then [.word "default", .word ":"]
      else .word "case" :: .blank :: Expr.list conditions ++ [.word ":"]⟩ :: body.lines (depth + 1)

def Case.linesOf (depth : Nat) : List Case → List Line
  | [] => []
  | c :: cs => c.lines depth ++ Case.linesOf depth cs

end

end Whiley
