import Whiley.Tree.Outline

namespace Whiley

inductive Node
  | identifier (i : Identifier)
  | name (n : Name)
  | type (t : TypeExpr)
  | field (f : Field)
  | variable (v : Variable) (initialiser : Option Expr)
  | expr (e : Expr)
  | range (r : Range)
  | block (b : Block)
  | stmt (s : Stmt)
  | case (c : Case)
  | decl (d : Decl)
  | module (m : Module)

namespace Node

def outline : Node → Outline
  | .identifier i => i.outline
  | .name n => n.outline
  | .type t => t.outline
  | .field f => f.outline
  | .variable v initialiser => v.outlineWith (initialiser.map Expr.outline)
  | .expr e => e.outline
  | .range r => r.outline
  | .block b => b.outline
  | .stmt s => s.outline
  | .case c => c.outline
  | .decl d => d.outline
  | .module m => m.outline

end Node

class ToNode (α : Type) where
  toNode : α → Node

instance : ToNode Identifier := ⟨.identifier⟩
instance : ToNode Name := ⟨.name⟩
instance : ToNode TypeExpr := ⟨.type⟩
instance : ToNode Field := ⟨.field⟩
instance : ToNode Variable := ⟨fun v => .variable v none⟩
instance : ToNode Expr := ⟨.expr⟩
instance : ToNode Range := ⟨.range⟩
instance : ToNode Block := ⟨.block⟩
instance : ToNode Case := ⟨.case⟩
instance : ToNode Decl := ⟨.decl⟩
instance : ToNode Module := ⟨.module⟩

/-- A local variable is the same node as a statement and as a declaration. -/
instance : ToNode Stmt where
  toNode
    | .variable v initialiser => .variable v initialiser
    | .invocation e => .expr e
    | s => .stmt s

end Whiley
