import Whiley.Tree.TypeExpr

namespace Whiley

inductive UnaryOp
  | not | negate | complement
  deriving DecidableEq, Repr

def UnaryOp.spelling : UnaryOp → String
  | .not => "!"
  | .negate => "-"
  | .complement => "~"

mutual

inductive Expr
  | nullLit (mark : Mark)
  | boolLit (mark : Mark) (value : Bool)
  | byteLit (mark : Mark) (value : Nat)
  | charLit (mark : Mark) (value : Char)
  | intLit (mark : Mark) (value : Nat)
  | stringLit (mark : Mark) (value : String)
  /-- `declaration` is the place in the arena of the variable that the name was bound to. -/
  | variableAccess (mark : Mark) (name : Identifier) (declaration : Option Nat)
  | staticAccess (mark : Mark) (name : Name)
  | recordAccess (mark : Mark) (source : Expr) (field : Identifier)
  | dereference (mark : Mark) (operand : Expr)
  | arrayAccess (mark : Mark) (source index : Expr)
  | arrayLength (mark : Mark) (operand : Expr)
  | arrayInitialiser (mark : Mark) (elements : List Expr)
  | arrayGenerator (mark : Mark) (element length : Expr)
  | recordInitialiser (mark : Mark) (name : Option Identifier) (fields : List FieldValue)
  | binary (mark : Mark) (left : Expr) (op : String) (right : Expr)
  | unary (mark : Mark) (op : UnaryOp) (operand : Expr)
  | isType (mark : Mark) (operand : Expr) (type : TypeExpr)
  | cast (mark : Mark) (type : TypeExpr) (operand : Expr)
  | invoke (mark : Mark) (name : Name) (lifetimes : Option (List Identifier)) (arguments : List Expr)
  | indirectInvoke (mark : Mark) (source : Expr) (lifetimes : Option (List Identifier))
      (arguments : List Expr)
  | quantifier (mark : Mark) (keyword : String) (ranges : List Range) (condition : Expr)
  | new (mark : Mark) (operand : Expr) (lifetime : Identifier)
  | lambda (mark : Mark) (parameters : List Variable) (captures lifetimes : List Identifier)
      (body : Expr)
  | lambdaConstant (mark : Mark) (name : Name) (parameterTypes : List TypeExpr)

inductive FieldValue
  | mk (name : Identifier) (value : Expr)

inductive Range
  | mk (mark : Mark) (name : Identifier) (start stop : Expr)

end

instance : Inhabited Expr := ⟨.nullLit default⟩

def Expr.mark : Expr → Mark
  | .nullLit m => m
  | .boolLit m _ => m
  | .byteLit m _ => m
  | .charLit m _ => m
  | .intLit m _ => m
  | .stringLit m _ => m
  | .variableAccess m _ _ => m
  | .staticAccess m _ => m
  | .recordAccess m _ _ => m
  | .dereference m _ => m
  | .arrayAccess m _ _ => m
  | .arrayLength m _ => m
  | .arrayInitialiser m _ => m
  | .arrayGenerator m _ _ => m
  | .recordInitialiser m _ _ => m
  | .binary m _ _ _ => m
  | .unary m _ _ => m
  | .isType m _ _ => m
  | .cast m _ _ => m
  | .invoke m _ _ _ => m
  | .indirectInvoke m _ _ _ => m
  | .quantifier m _ _ _ => m
  | .new m _ _ => m
  | .lambda m _ _ _ _ => m
  | .lambdaConstant m _ _ => m

def FieldValue.name : FieldValue → Identifier
  | .mk n _ => n

def FieldValue.value : FieldValue → Expr
  | .mk _ e => e

def Range.mark : Range → Mark
  | .mk m _ _ _ => m

def Range.name : Range → Identifier
  | .mk _ n _ _ => n

def Range.start : Range → Expr
  | .mk _ _ e _ => e

def Range.stop : Range → Expr
  | .mk _ _ _ e => e

def Expr.isInvocation : Expr → Bool
  | .invoke .. => true
  | .indirectInvoke .. => true
  | _ => false

end Whiley
