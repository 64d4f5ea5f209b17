import Whiley.Tree.Name

namespace Whiley

mutual

inductive TypeExpr
  | primitive (mark : Mark) (name : String)
  | array (mark : Mark) (element : TypeExpr)
  | list (mark : Mark) (element : TypeExpr)
  | record (mark : Mark) (isOpen : Bool) (fields : List Field)
  | nominal (mark : Mark) (name : Name)
  | reference (mark : Mark) (element : TypeExpr) (lifetime : Option Identifier)
  | negation (mark : Mark) (element : TypeExpr)
  | union (mark : Mark) (operands : List TypeExpr)
  | intersection (mark : Mark) (operands : List TypeExpr)
  | function (mark : Mark) (parameters returns : List TypeExpr)
  | method (mark : Mark) (parameters returns : List TypeExpr) (captures lifetimes : List Identifier)

inductive Field
  | mk (mark : Mark) (type : TypeExpr) (name : Identifier)

end

instance : Inhabited TypeExpr := ⟨.primitive default ""⟩

def TypeExpr.mark : TypeExpr → Mark
  | .primitive m _ => m
  | .array m _ => m
  | .list m _ => m
  | .record m _ _ => m
  | .nominal m _ => m
  | .reference m _ _ => m
  | .negation m _ => m
  | .union m _ => m
  | .intersection m _ => m
  | .function m _ _ => m
  | .method m _ _ _ _ => m

def Field.mark : Field → Mark
  | .mk m _ _ => m

def Field.type : Field → TypeExpr
  | .mk _ t _ => t

def Field.name : Field → Identifier
  | .mk _ _ n => n

def TypeExpr.fieldNames : TypeExpr → List Identifier
  | .record _ _ fields => fields.map Field.name
  | _ => []

structure Variable where
  mark : Mark
  name : Identifier
  type : TypeExpr

instance : Inhabited Variable := ⟨⟨default, default, default⟩⟩

end Whiley
