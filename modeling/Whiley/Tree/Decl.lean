import Whiley.Tree.Stmt

namespace Whiley

structure Routine where
  modifiers : List String
  name : Identifier
  parameters : List Variable
  returns : List Variable
  requires : List Expr
  ensures : List Expr
  body : Block

inductive Decl
  /-- A last component `*` imports everything. -/
  | imports (mark : Mark) (path : List Identifier)
  | type (mark : Mark) (modifiers : List String) (name : Identifier) (declared : Variable)
      (invariant : List Expr)
  | constant (mark : Mark) (modifiers : List String) (name : Identifier) (value : Expr)
  | function (mark : Mark) (routine : Routine)
  | method (mark : Mark) (lifetimes : List Identifier) (routine : Routine)
  | property (mark : Mark) (modifiers : List String) (name : Identifier)
      (parameters : List Variable) (invariant : List Expr)

def Decl.mark : Decl → Mark
  | .imports m _ => m
  | .type m _ _ _ _ => m
  | .constant m _ _ _ => m
  | .function m _ => m
  | .method m _ _ => m
  | .property m _ _ _ _ => m

def Decl.isImport : Decl → Bool
  | .imports .. => true
  | _ => false

structure Module where
  mark : Mark
  package : List String
  declarations : List Decl

instance : Inhabited Module := ⟨⟨default, [], []⟩⟩

end Whiley
