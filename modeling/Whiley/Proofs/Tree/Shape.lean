import Whiley.Tree.Outline

namespace Whiley

inductive Slot
  | text | flag | number | bytes | link | words | node | nodes | pairs
  deriving DecidableEq, Repr

def routineShape (lifetimes : List (String × Slot)) : List (String × Slot) :=
  [("modifiers", .words), ("name", .node)] ++ lifetimes ++
    [("parameters", .nodes), ("returns", .nodes), ("requires", .nodes), ("ensures", .nodes),
      ("body", .node)]

def shapes : List (String × List (String × Slot)) :=
  [("Identifier", [("text", .text)]),
    ("Name", [("components", .nodes)]),
    ("PrimitiveType", [("name", .text)]),
    ("ArrayType", [("element", .node)]),
    ("ListType", [("element", .node)]),
    ("RecordType", [("is_open", .flag), ("fields", .nodes)]),
    ("Field", [("type", .node), ("name", .node)]),
    ("NominalType", [("name", .node)]),
    ("ReferenceType", [("element", .node), ("lifetime", .node)]),
    ("NegationType", [("element", .node)]),
    ("UnionType", [("operands", .nodes)]),
    ("IntersectionType", [("operands", .nodes)]),
    ("FunctionType", [("parameters", .nodes), ("returns", .nodes)]),
    ("MethodType",
      [("parameters", .nodes), ("returns", .nodes), ("captures", .nodes), ("lifetimes", .nodes)]),
    ("Variable", [("name", .node), ("type", .node), ("initialiser", .node)]),
    ("NullLit", []),
    ("BoolLit", [("value", .flag)]),
    ("ByteLit", [("value", .number)]),
    ("CharLit", [("value", .number)]),
    ("IntLit", [("value", .number)]),
    ("StringLit", [("value", .bytes)]),
    ("VariableAccess", [("name", .node), ("declaration", .link)]),
    ("StaticVariableAccess", [("name", .node)]),
    ("RecordAccess", [("source", .node), ("field", .node)]),
    ("Dereference", [("operand", .node)]),
    ("ArrayAccess", [("source", .node), ("index", .node)]),
    ("ArrayLength", [("operand", .node)]),
    ("ArrayInitialiser", [("elements", .nodes)]),
    ("ArrayGenerator", [("element", .node), ("length", .node)]),
    ("RecordInitialiser", [("name", .node), ("fields", .pairs)]),
    ("BinaryExpr", [("left", .node), ("op", .text), ("right", .node)]),
    ("UnaryExpr", [("op", .text), ("operand", .node)]),
    ("Is", [("operand", .node), ("type", .node)]),
    ("Cast", [("type", .node), ("operand", .node)]),
    ("Invoke", [("name", .node), ("lifetimes", .nodes), ("arguments", .nodes)]),
    ("IndirectInvoke", [("source", .node), ("lifetimes", .nodes), ("arguments", .nodes)]),
    ("Quantifier", [("kind", .text), ("ranges", .nodes), ("condition", .node)]),
    ("QuantifierRange", [("name", .node), ("start", .node), ("end", .node)]),
    ("New", [("operand", .node), ("lifetime", .node)]),
    ("LambdaInitialiser",
      [("parameters", .nodes), ("captures", .nodes), ("lifetimes", .nodes), ("body", .node)]),
    ("LambdaConstant", [("name", .node), ("parameter_types", .nodes)]),
    ("Assert", [("condition", .node)]),
    ("Assume", [("condition", .node)]),
    ("Assign", [("lvals", .nodes), ("rvals", .nodes)]),
    ("Break", []),
    ("Continue", []),
    ("Debug", [("operand", .node)]),
    ("DoWhile", [("condition", .node), ("invariants", .nodes), ("body", .node)]),
    ("Fail", []),
    ("IfElse", [("condition", .node), ("true_branch", .node), ("false_branch", .node)]),
    ("NamedBlock", [("name", .node), ("body", .node)]),
    ("Return", [("values", .nodes)]),
    ("Skip", []),
    ("Switch", [("condition", .node), ("cases", .nodes)]),
    ("Case", [("conditions", .nodes), ("body", .node)]),
    ("While", [("condition", .node), ("invariants", .nodes), ("body", .node)]),
    ("Block", [("statements", .nodes)]),
    ("ImportDecl", [("path", .nodes)]),
    ("TypeDecl",
      [("modifiers", .words), ("name", .node), ("variable", .node), ("invariant", .nodes)]),
    ("ConstantDecl", [("modifiers", .words), ("name", .node), ("value", .node)]),
    ("FunctionDecl", routineShape []),
    ("MethodDecl", routineShape [("lifetimes", .nodes)]),
    ("PropertyDecl",
      [("modifiers", .words), ("name", .node), ("parameters", .nodes), ("invariant", .nodes)]),
    ("Module", [("package", .words), ("declarations", .nodes)])]

def isWord (s : String) : Bool :=
  s.toList.all fun c => c.isAlpha || c = '_'

theorem shapes_legible : ∀ x ∈ shapes,
    isWord x.1 ∧ (∀ f ∈ x.2, isWord f.1) ∧ (x.2.map (·.1)).Nodup := by
  decide

mutual

def Outline.Fits : Outline → Prop
  | .node l _ es => ∃ shape, shapes.lookup l = some shape ∧ Outline.FitEntries es shape
termination_by structural o => o

def Outline.FitEntries : List Entry → List (String × Slot) → Prop
  | [], [] => True
  | e :: es, f :: fs => e.Fits f ∧ Outline.FitEntries es fs
  | _, _ => False
termination_by structural es => es

def Entry.Fits : Entry → String × Slot → Prop
  | .mk n c, (name, slot) => n = name ∧ c.Fits slot
termination_by structural e => e

def Content.Fits : Content → Slot → Prop
  | .absent, .node => True
  | .absent, .nodes => True
  | .text _, .text => True
  | .flag _, .flag => True
  | .number _, .number => True
  | .bytes _, .bytes => True
  | .link _, .link => True
  | .words _, .words => True
  | .child o, .node => o.Fits
  | .children os, .nodes => Outline.AllFit os
  | .pairs os, .pairs => Outline.AllFit os
  | _, _ => False
termination_by structural c => c

def Outline.AllFit : List Outline → Prop
  | [] => True
  | o :: os => o.Fits ∧ Outline.AllFit os
termination_by structural os => os

end

theorem Outline.allFit_map {α : Type} {f : α → Outline} {as : List α} (h : ∀ a ∈ as, (f a).Fits) :
    Outline.AllFit (as.map f) := by
  induction as with
  | nil => trivial
  | cons a as ih =>
    exact ⟨h a List.mem_cons_self, ih fun b hb => h b (List.mem_cons_of_mem a hb)⟩

theorem Identifier.fits (i : Identifier) : i.outline.Fits :=
  ⟨_, rfl, ⟨rfl, trivial⟩, trivial⟩

theorem Content.fits_identifiers (is : List Identifier) : (ofIdentifiers is).Fits .nodes :=
  Outline.allFit_map fun i _ => i.fits

theorem Name.fits (n : Name) : n.outline.Fits :=
  ⟨_, rfl, ⟨rfl, Outline.allFit_map fun i _ => i.fits⟩, trivial⟩

theorem Content.fits_option {o : Option Outline} (h : ∀ x ∈ o, x.Fits) :
    (ofOption o).Fits .node := by
  cases o with
  | none => trivial
  | some x => exact h x rfl

mutual

theorem TypeExpr.fits : ∀ t : TypeExpr, t.outline.Fits
  | .primitive _ _ => ⟨_, rfl, ⟨rfl, trivial⟩, trivial⟩
  | .array _ t => ⟨_, rfl, ⟨rfl, t.fits⟩, trivial⟩
  | .list _ t => ⟨_, rfl, ⟨rfl, t.fits⟩, trivial⟩
  | .record _ _ fs => ⟨_, rfl, ⟨rfl, trivial⟩, ⟨rfl, Field.allFit fs⟩, trivial⟩
  | .nominal _ n => ⟨_, rfl, ⟨rfl, n.fits⟩, trivial⟩
  | .reference _ t none => ⟨_, rfl, ⟨rfl, t.fits⟩, ⟨rfl, trivial⟩, trivial⟩
  | .reference _ t (some l) => ⟨_, rfl, ⟨rfl, t.fits⟩, ⟨rfl, l.fits⟩, trivial⟩
  | .negation _ t => ⟨_, rfl, ⟨rfl, t.fits⟩, trivial⟩
  | .union _ ts => ⟨_, rfl, ⟨rfl, TypeExpr.allFit ts⟩, trivial⟩
  | .intersection _ ts => ⟨_, rfl, ⟨rfl, TypeExpr.allFit ts⟩, trivial⟩
  | .function _ ts us => ⟨_, rfl, ⟨rfl, TypeExpr.allFit ts⟩, ⟨rfl, TypeExpr.allFit us⟩, trivial⟩
  | .method _ ts us cs ls =>
    ⟨_, rfl, ⟨rfl, TypeExpr.allFit ts⟩, ⟨rfl, TypeExpr.allFit us⟩,
      ⟨rfl, Content.fits_identifiers cs⟩, ⟨rfl, Content.fits_identifiers ls⟩, trivial⟩

theorem TypeExpr.allFit : ∀ ts : List TypeExpr, Outline.AllFit (TypeExpr.outlines ts)
  | [] => trivial
  | t :: ts => ⟨t.fits, TypeExpr.allFit ts⟩

theorem Field.fits : ∀ f : Field, f.outline.Fits
  | .mk _ t i => ⟨_, rfl, ⟨rfl, t.fits⟩, ⟨rfl, i.fits⟩, trivial⟩

theorem Field.allFit : ∀ fs : List Field, Outline.AllFit (Field.outlines fs)
  | [] => trivial
  | f :: fs => ⟨f.fits, Field.allFit fs⟩

end

theorem Variable.fits_with (v : Variable) {initialiser : Option Outline}
    (h : ∀ o ∈ initialiser, o.Fits) : (v.outlineWith initialiser).Fits :=
  ⟨_, rfl, ⟨rfl, v.name.fits⟩, ⟨rfl, v.type.fits⟩, ⟨rfl, Content.fits_option h⟩, trivial⟩

theorem Variable.fits (v : Variable) : v.outline.Fits :=
  v.fits_with fun _ h => nomatch h

theorem Content.fits_variables (vs : List Variable) : (ofVariables vs).Fits .nodes :=
  Outline.allFit_map fun v _ => v.fits

theorem Content.fits_lifetimes (ls : Option (List Identifier)) : (ofLifetimes ls).Fits .nodes := by
  cases ls with
  | none => trivial
  | some is => exact fits_identifiers is

mutual

theorem Expr.fits : ∀ e : Expr, e.outline.Fits
  | .nullLit _ => ⟨_, rfl, trivial⟩
  | .boolLit _ _ => ⟨_, rfl, ⟨rfl, trivial⟩, trivial⟩
  | .byteLit _ _ => ⟨_, rfl, ⟨rfl, trivial⟩, trivial⟩
  | .charLit _ _ => ⟨_, rfl, ⟨rfl, trivial⟩, trivial⟩
  | .intLit _ _ => ⟨_, rfl, ⟨rfl, trivial⟩, trivial⟩
  | .stringLit _ _ => ⟨_, rfl, ⟨rfl, trivial⟩, trivial⟩
  | .variableAccess _ i _ => ⟨_, rfl, ⟨rfl, i.fits⟩, ⟨rfl, trivial⟩, trivial⟩
  | .staticAccess _ n => ⟨_, rfl, ⟨rfl, n.fits⟩, trivial⟩
  | .recordAccess _ e i => ⟨_, rfl, ⟨rfl, e.fits⟩, ⟨rfl, i.fits⟩, trivial⟩
  | .dereference _ e => ⟨_, rfl, ⟨rfl, e.fits⟩, trivial⟩
  | .arrayAccess _ e i => ⟨_, rfl, ⟨rfl, e.fits⟩, ⟨rfl, i.fits⟩, trivial⟩
  | .arrayLength _ e => ⟨_, rfl, ⟨rfl, e.fits⟩, trivial⟩
  | .arrayInitialiser _ es => ⟨_, rfl, ⟨rfl, Expr.allFit es⟩, trivial⟩
  | .arrayGenerator _ e l => ⟨_, rfl, ⟨rfl, e.fits⟩, ⟨rfl, l.fits⟩, trivial⟩
  | .recordInitialiser _ none fs =>
    ⟨_, rfl, ⟨rfl, trivial⟩, ⟨rfl, FieldValue.allFit fs⟩, trivial⟩
  | .recordInitialiser _ (some i) fs =>
    ⟨_, rfl, ⟨rfl, i.fits⟩, ⟨rfl, FieldValue.allFit fs⟩, trivial⟩
  | .binary _ l _ r => ⟨_, rfl, ⟨rfl, l.fits⟩, ⟨rfl, trivial⟩, ⟨rfl, r.fits⟩, trivial⟩
  | .unary _ _ e => ⟨_, rfl, ⟨rfl, trivial⟩, ⟨rfl, e.fits⟩, trivial⟩
  | .isType _ e t => ⟨_, rfl, ⟨rfl, e.fits⟩, ⟨rfl, t.fits⟩, trivial⟩
  | .cast _ t e => ⟨_, rfl, ⟨rfl, t.fits⟩, ⟨rfl, e.fits⟩, trivial⟩
  | .invoke _ n ls es =>
    ⟨_, rfl, ⟨rfl, n.fits⟩, ⟨rfl, Content.fits_lifetimes ls⟩, ⟨rfl, Expr.allFit es⟩, trivial⟩
  | .indirectInvoke _ e ls es =>
    ⟨_, rfl, ⟨rfl, e.fits⟩, ⟨rfl, Content.fits_lifetimes ls⟩, ⟨rfl, Expr.allFit es⟩, trivial⟩
  | .quantifier _ _ rs e => ⟨_, rfl, ⟨rfl, trivial⟩, ⟨rfl, Range.allFit rs⟩, ⟨rfl, e.fits⟩, trivial⟩
  | .new _ e l => ⟨_, rfl, ⟨rfl, e.fits⟩, ⟨rfl, l.fits⟩, trivial⟩
  | .lambda _ vs cs ls e =>
    ⟨_, rfl, ⟨rfl, Content.fits_variables vs⟩, ⟨rfl, Content.fits_identifiers cs⟩,
      ⟨rfl, Content.fits_identifiers ls⟩, ⟨rfl, e.fits⟩, trivial⟩
  | .lambdaConstant _ n _ =>
    ⟨_, rfl, ⟨rfl, n.fits⟩, ⟨rfl, Outline.allFit_map fun t _ => t.fits⟩, trivial⟩

theorem Expr.allFit : ∀ es : List Expr, Outline.AllFit (Expr.outlines es)
  | [] => trivial
  | e :: es => ⟨e.fits, Expr.allFit es⟩

theorem FieldValue.allFit : ∀ fs : List FieldValue, Outline.AllFit (FieldValue.outlines fs)
  | [] => trivial
  | .mk i e :: fs => ⟨i.fits, e.fits, FieldValue.allFit fs⟩

theorem Range.fits : ∀ r : Range, r.outline.Fits
  | .mk _ i a b => ⟨_, rfl, ⟨rfl, i.fits⟩, ⟨rfl, a.fits⟩, ⟨rfl, b.fits⟩, trivial⟩

theorem Range.allFit : ∀ rs : List Range, Outline.AllFit (Range.outlines rs)
  | [] => trivial
  | r :: rs => ⟨r.fits, Range.allFit rs⟩

end

theorem Content.fits_exprs (es : List Expr) : (ofExprs es).Fits .nodes :=
  Outline.allFit_map fun e _ => e.fits

mutual

theorem Stmt.fits : ∀ s : Stmt, s.outline.Fits
  | .assert _ e => ⟨_, rfl, ⟨rfl, e.fits⟩, trivial⟩
  | .assume _ e => ⟨_, rfl, ⟨rfl, e.fits⟩, trivial⟩
  | .assign _ ts es =>
    ⟨_, rfl, ⟨rfl, Content.fits_exprs ts⟩, ⟨rfl, Content.fits_exprs es⟩, trivial⟩
  | .break _ => ⟨_, rfl, trivial⟩
  | .continue _ => ⟨_, rfl, trivial⟩
  | .debug _ e => ⟨_, rfl, ⟨rfl, e.fits⟩, trivial⟩
  | .doWhile _ e es b =>
    ⟨_, rfl, ⟨rfl, e.fits⟩, ⟨rfl, Content.fits_exprs es⟩, ⟨rfl, b.fits⟩, trivial⟩
  | .fail _ => ⟨_, rfl, trivial⟩
  | .ifElse _ e b none => ⟨_, rfl, ⟨rfl, e.fits⟩, ⟨rfl, b.fits⟩, ⟨rfl, trivial⟩, trivial⟩
  | .ifElse _ e b (some c) => ⟨_, rfl, ⟨rfl, e.fits⟩, ⟨rfl, b.fits⟩, ⟨rfl, c.fits⟩, trivial⟩
  | .namedBlock _ i b => ⟨_, rfl, ⟨rfl, i.fits⟩, ⟨rfl, b.fits⟩, trivial⟩
  | .return _ es => ⟨_, rfl, ⟨rfl, Content.fits_exprs es⟩, trivial⟩
  | .skip _ => ⟨_, rfl, trivial⟩
  | .switch _ e cs => ⟨_, rfl, ⟨rfl, e.fits⟩, ⟨rfl, Case.allFit cs⟩, trivial⟩
  | .while _ e es b =>
    ⟨_, rfl, ⟨rfl, e.fits⟩, ⟨rfl, Content.fits_exprs es⟩, ⟨rfl, b.fits⟩, trivial⟩
  | .variable v none => v.fits
  | .variable v (some e) => v.fits_with fun _ h => Option.some.inj h ▸ e.fits
  | .invocation e => e.fits

theorem Stmt.allFit : ∀ ss : List Stmt, Outline.AllFit (Stmt.outlines ss)
  | [] => trivial
  | s :: ss => ⟨s.fits, Stmt.allFit ss⟩

theorem Block.fits : ∀ b : Block, b.outline.Fits
  | .mk _ ss => ⟨_, rfl, ⟨rfl, Stmt.allFit ss⟩, trivial⟩

theorem Case.fits : ∀ c : Case, c.outline.Fits
  | .mk _ es b => ⟨_, rfl, ⟨rfl, Content.fits_exprs es⟩, ⟨rfl, b.fits⟩, trivial⟩

theorem Case.allFit : ∀ cs : List Case, Outline.AllFit (Case.outlines cs)
  | [] => trivial
  | c :: cs => ⟨c.fits, Case.allFit cs⟩

end

theorem Decl.fits (d : Decl) : d.outline.Fits := by
  cases d with
  | imports _ path => exact ⟨_, rfl, ⟨rfl, Content.fits_identifiers path⟩, trivial⟩
  | type _ _ i v es =>
    exact ⟨_, rfl, ⟨rfl, trivial⟩, ⟨rfl, i.fits⟩, ⟨rfl, v.fits⟩, ⟨rfl, Content.fits_exprs es⟩,
      trivial⟩
  | constant _ _ i e => exact ⟨_, rfl, ⟨rfl, trivial⟩, ⟨rfl, i.fits⟩, ⟨rfl, e.fits⟩, trivial⟩
  | function _ r =>
    exact ⟨_, rfl, ⟨rfl, trivial⟩, ⟨rfl, r.name.fits⟩, ⟨rfl, Content.fits_variables r.parameters⟩,
      ⟨rfl, Content.fits_variables r.returns⟩, ⟨rfl, Content.fits_exprs r.requires⟩,
      ⟨rfl, Content.fits_exprs r.ensures⟩, ⟨rfl, r.body.fits⟩, trivial⟩
  | method _ ls r =>
    exact ⟨_, rfl, ⟨rfl, trivial⟩, ⟨rfl, r.name.fits⟩, ⟨rfl, Content.fits_identifiers ls⟩,
      ⟨rfl, Content.fits_variables r.parameters⟩, ⟨rfl, Content.fits_variables r.returns⟩,
      ⟨rfl, Content.fits_exprs r.requires⟩, ⟨rfl, Content.fits_exprs r.ensures⟩,
      ⟨rfl, r.body.fits⟩, trivial⟩
  | property _ _ i vs es =>
    exact ⟨_, rfl, ⟨rfl, trivial⟩, ⟨rfl, i.fits⟩, ⟨rfl, Content.fits_variables vs⟩,
      ⟨rfl, Content.fits_exprs es⟩, trivial⟩

theorem Module.fits (m : Module) : m.outline.Fits :=
  ⟨_, rfl, ⟨rfl, trivial⟩, ⟨rfl, Outline.allFit_map fun d _ => d.fits⟩, trivial⟩

end Whiley
