import Whiley.Tree.Expr

namespace Whiley

mutual

inductive Stmt
  | assert (mark : Mark) (condition : Expr)
  | assume (mark : Mark) (condition : Expr)
  | assign (mark : Mark) (targets values : List Expr)
  | break (mark : Mark)
  | continue (mark : Mark)
  | debug (mark : Mark) (operand : Expr)
  | doWhile (mark : Mark) (condition : Expr) (invariants : List Expr) (body : Block)
  | fail (mark : Mark)
  | ifElse (mark : Mark) (condition : Expr) (trueBranch : Block) (falseBranch : Option Block)
  | namedBlock (mark : Mark) (name : Identifier) (body : Block)
  | return (mark : Mark) (values : List Expr)
  | skip (mark : Mark)
  | switch (mark : Mark) (condition : Expr) (cases : List Case)
  | while (mark : Mark) (condition : Expr) (invariants : List Expr) (body : Block)
  | variable (declared : Variable) (initialiser : Option Expr)
  /-- A call standing as a statement; the expression is the statement's only node. -/
  | invocation (call : Expr)

inductive Block
  | mk (mark : Mark) (statements : List Stmt)

/-- A case without conditions is the default. -/
inductive Case
  | mk (mark : Mark) (conditions : List Expr) (body : Block)

end

def Stmt.mark : Stmt → Mark
  | .assert m _ => m
  | .assume m _ => m
  | .assign m _ _ => m
  | .break m => m
  | .continue m => m
  | .debug m _ => m
  | .doWhile m _ _ _ => m
  | .fail m => m
  | .ifElse m _ _ _ => m
  | .namedBlock m _ _ => m
  | .return m _ => m
  | .skip m => m
  | .switch m _ _ => m
  | .while m _ _ _ => m
  | .variable v _ => v.mark
  | .invocation e => e.mark

def Block.statements : Block → List Stmt
  | .mk _ ss => ss

def Case.mark : Case → Mark
  | .mk m _ _ => m

def Case.conditions : Case → List Expr
  | .mk _ cs _ => cs

def Case.body : Case → Block
  | .mk _ _ b => b

def Case.isDefault (c : Case) : Bool :=
  c.conditions.isEmpty

instance : Inhabited Stmt := ⟨.skip default⟩

instance : Inhabited Block := ⟨.mk default []⟩

end Whiley
