import Whiley.Grammar.Exprs

namespace Whiley.Grammar

open Whiley.Parser

abbrev TargetParser := Scope → Parser Expr

namespace TargetParser

def step (g : ExprParsers) (scope : Scope) (start : Nat) (source : Expr) :
    Parser (Option Expr) := do
  match ← accept false [.lbracket] with
  | some _ =>
    let index ← g.level .additive scope true
    let _ ← expect .rbracket
    return some (← make start (.arrayAccess · source index))
  | none =>
    match ← accept true [.dot, .arrow] with
    | none => return none
    | some t =>
      let source ←
        if t.kind = .arrow then make start (.dereference · source) else pure source
      let field ← identifier
      return some (← make start (.recordAccess · source field))

def term (target : TargetParser) (scope : Scope) : Parser Expr := do
  let t ← current
  let start ← position
  match t.kind with
  | .identifier =>
    let name ← identifier
    make start (.variableAccess · name ((scope.lookup name.text).map (·.mark.index)))
  | .lparen =>
    let _ ← advance
    let inner ← target scope
    let _ ← expect .rparen
    return inner
  | .star =>
    let _ ← advance
    let operand ← target scope
    make start (.dereference · operand)
  | _ => reject .unrecognisedTarget t.span

def next (g : ExprParsers) (target : TargetParser) : TargetParser := fun scope => do
  let start ← settle
  let first ← term target scope
  foldWhile (step g scope start) first

def ofDepth (g : ExprParsers) : Nat → TargetParser
  | 0, _ => fail .exhausted
  | depth + 1, scope => next g (ofDepth g depth) scope

theorem ofDepth_succ (g : ExprParsers) (depth : Nat) :
    ofDepth g (depth + 1) = next g (ofDepth g depth) := rfl

end TargetParser

end Whiley.Grammar
