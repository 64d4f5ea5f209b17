import Whiley.Tree.Decl

/-!
The uniform view of a tree: every node is a label, a mark and named contents. `same` compares two
outlines without marks and without links, which is how two trees are compared.
-/

namespace Whiley

mutual

inductive Outline
  | node (label : String) (mark : Mark) (entries : List Entry)

inductive Entry
  | mk (name : String) (content : Content)

inductive Content
  | absent
  | text (value : String)
  | flag (value : Bool)
  | number (value : Nat)
  | bytes (value : List UInt8)
  /-- A reference to a node of the arena; it belongs to no subtree. -/
  | link (target : Option Nat)
  | words (value : List String)
  | child (node : Outline)
  | children (nodes : List Outline)
  | pairs (nodes : List Outline)

end

namespace Outline

def label : Outline → String
  | .node l _ _ => l

def mark : Outline → Mark
  | .node _ m _ => m

def entries : Outline → List Entry
  | .node _ _ es => es

end Outline

mutual

def Outline.same : Outline → Outline → Bool
  | .node l _ es, .node l' _ es' => l = l' && Outline.sameEntries es es'
termination_by structural o => o

def Outline.sameEntries : List Entry → List Entry → Bool
  | [], [] => true
  | e :: es, e' :: es' => Entry.same e e' && Outline.sameEntries es es'
  | _, _ => false
termination_by structural o => o

def Entry.same : Entry → Entry → Bool
  | .mk n c, .mk n' c' => n = n' && Content.same c c'
termination_by structural o => o

def Outline.sameNodes : List Outline → List Outline → Bool
  | [], [] => true
  | o :: os, o' :: os' => Outline.same o o' && Outline.sameNodes os os'
  | _, _ => false
termination_by structural o => o

def Content.same : Content → Content → Bool
  | .absent, .absent => true
  | .text s, .text s' => s = s'
  | .flag b, .flag b' => b = b'
  | .number n, .number n' => n = n'
  | .bytes bs, .bytes bs' => bs = bs'
  | .link _, .link _ => true
  | .words ws, .words ws' => ws = ws'
  | .child o, .child o' => Outline.same o o'
  | .children os, .children os' => Outline.sameNodes os os'
  | .pairs os, .pairs os' => Outline.sameNodes os os'
  | _, _ => false
termination_by structural o => o

end

def Identifier.outline (i : Identifier) : Outline :=
  .node "Identifier" i.mark [.mk "text" (.text i.text)]

def Name.outline (n : Name) : Outline :=
  .node "Name" n.mark [.mk "components" (.children (n.components.map (·.outline)))]

def Content.ofIdentifiers (is : List Identifier) : Content :=
  .children (is.map (·.outline))

def Content.ofOption : Option Outline → Content
  | none => .absent
  | some o => .child o

mutual

def TypeExpr.outline : TypeExpr → Outline
  | .primitive m name => .node "PrimitiveType" m [.mk "name" (.text name)]
  | .array m element => .node "ArrayType" m [.mk "element" (.child element.outline)]
  | .list m element => .node "ListType" m [.mk "element" (.child element.outline)]
  | .record m isOpen fields =>
    .node "RecordType" m [.mk "is_open" (.flag isOpen), .mk "fields" (.children (Field.outlines fields))]
  | .nominal m name => .node "NominalType" m [.mk "name" (.child name.outline)]
  | .reference m element lifetime =>
    .node "ReferenceType" m
      [.mk "element" (.child element.outline),
        .mk "lifetime" (.ofOption (lifetime.map (·.outline)))]
  | .negation m element => .node "NegationType" m [.mk "element" (.child element.outline)]
  | .union m operands => .node "UnionType" m [.mk "operands" (.children (TypeExpr.outlines operands))]
  | .intersection m operands =>
    .node "IntersectionType" m [.mk "operands" (.children (TypeExpr.outlines operands))]
  | .function m parameters returns =>
    .node "FunctionType" m
      [.mk "parameters" (.children (TypeExpr.outlines parameters)),
        .mk "returns" (.children (TypeExpr.outlines returns))]
  | .method m parameters returns captures lifetimes =>
    .node "MethodType" m
      [.mk "parameters" (.children (TypeExpr.outlines parameters)),
        .mk "returns" (.children (TypeExpr.outlines returns)),
        .mk "captures" (.ofIdentifiers captures), .mk "lifetimes" (.ofIdentifiers lifetimes)]

def TypeExpr.outlines : List TypeExpr → List Outline
  | [] => []
  | t :: ts => t.outline :: TypeExpr.outlines ts

def Field.outline : Field → Outline
  | .mk m type name =>
    .node "Field" m [.mk "type" (.child type.outline), .mk "name" (.child name.outline)]

def Field.outlines : List Field → List Outline
  | [] => []
  | f :: fs => f.outline :: Field.outlines fs

end

/-- A variable has an initialiser only where it is a statement. -/
def Variable.outlineWith (v : Variable) (initialiser : Option Outline) : Outline :=
  .node "Variable" v.mark
    [.mk "name" (.child v.name.outline), .mk "type" (.child v.type.outline),
      .mk "initialiser" (.ofOption initialiser)]

def Variable.outline (v : Variable) : Outline :=
  v.outlineWith none

def Content.ofVariables (vs : List Variable) : Content :=
  .children (vs.map (·.outline))

def Content.ofLifetimes : Option (List Identifier) → Content
  | none => .absent
  | some is => .ofIdentifiers is

mutual

def Expr.outline : Expr → Outline
  | .nullLit m => .node "NullLit" m []
  | .boolLit m value => .node "BoolLit" m [.mk "value" (.flag value)]
  | .byteLit m value => .node "ByteLit" m [.mk "value" (.number value)]
  | .charLit m value => .node "CharLit" m [.mk "value" (.number value.toNat)]
  | .intLit m value => .node "IntLit" m [.mk "value" (.number value)]
  | .stringLit m value => .node "StringLit" m [.mk "value" (.bytes value.toUTF8.toList)]
  | .variableAccess m name declaration =>
    .node "VariableAccess" m
      [.mk "name" (.child name.outline), .mk "declaration" (.link declaration)]
  | .staticAccess m name => .node "StaticVariableAccess" m [.mk "name" (.child name.outline)]
  | .recordAccess m source field =>
    .node "RecordAccess" m
      [.mk "source" (.child source.outline), .mk "field" (.child field.outline)]
  | .dereference m operand => .node "Dereference" m [.mk "operand" (.child operand.outline)]
  | .arrayAccess m source index =>
    .node "ArrayAccess" m
      [.mk "source" (.child source.outline), .mk "index" (.child index.outline)]
  | .arrayLength m operand => .node "ArrayLength" m [.mk "operand" (.child operand.outline)]
  | .arrayInitialiser m elements =>
    .node "ArrayInitialiser" m [.mk "elements" (.children (Expr.outlines elements))]
  | .arrayGenerator m element length =>
    .node "ArrayGenerator" m
      [.mk "element" (.child element.outline), .mk "length" (.child length.outline)]
  | .recordInitialiser m name fields =>
    .node "RecordInitialiser" m
      [.mk "name" (.ofOption (name.map (·.outline))),
        .mk "fields" (.pairs (FieldValue.outlines fields))]
  | .binary m left op right =>
    .node "BinaryExpr" m
      [.mk "left" (.child left.outline), .mk "op" (.text op), .mk "right" (.child right.outline)]
  | .unary m op operand =>
    .node "UnaryExpr" m [.mk "op" (.text op.spelling), .mk "operand" (.child operand.outline)]
  | .isType m operand type =>
    .node "Is" m [.mk "operand" (.child operand.outline), .mk "type" (.child type.outline)]
  | .cast m type operand =>
    .node "Cast" m [.mk "type" (.child type.outline), .mk "operand" (.child operand.outline)]
  | .invoke m name lifetimes arguments =>
    .node "Invoke" m
      [.mk "name" (.child name.outline), .mk "lifetimes" (.ofLifetimes lifetimes),
        .mk "arguments" (.children (Expr.outlines arguments))]
  | .indirectInvoke m source lifetimes arguments =>
    .node "IndirectInvoke" m
      [.mk "source" (.child source.outline), .mk "lifetimes" (.ofLifetimes lifetimes),
        .mk "arguments" (.children (Expr.outlines arguments))]
  | .quantifier m keyword ranges condition =>
    .node "Quantifier" m
      [.mk "kind" (.text keyword), .mk "ranges" (.children (Range.outlines ranges)),
        .mk "condition" (.child condition.outline)]
  | .new m operand lifetime =>
    .node "New" m
      [.mk "operand" (.child operand.outline), .mk "lifetime" (.child lifetime.outline)]
  | .lambda m parameters captures lifetimes body =>
    .node "LambdaInitialiser" m
      [.mk "parameters" (.ofVariables parameters), .mk "captures" (.ofIdentifiers captures),
        .mk "lifetimes" (.ofIdentifiers lifetimes), .mk "body" (.child body.outline)]
  | .lambdaConstant m name parameterTypes =>
    .node "LambdaConstant" m
      [.mk "name" (.child name.outline),
        .mk "parameter_types" (.children (parameterTypes.map TypeExpr.outline))]

def Expr.outlines : List Expr → List Outline
  | [] => []
  | e :: es => e.outline :: Expr.outlines es

def FieldValue.outlines : List FieldValue → List Outline
  | [] => []
  | .mk name value :: fs => name.outline :: value.outline :: FieldValue.outlines fs

def Range.outline : Range → Outline
  | .mk m name start stop =>
    .node "QuantifierRange" m
      [.mk "name" (.child name.outline), .mk "start" (.child start.outline),
        .mk "end" (.child stop.outline)]

def Range.outlines : List Range → List Outline
  | [] => []
  | r :: rs => r.outline :: Range.outlines rs

end

def Content.ofExprs (es : List Expr) : Content :=
  .children (es.map (·.outline))

mutual

def Stmt.outline : Stmt → Outline
  | .assert m condition => .node "Assert" m [.mk "condition" (.child condition.outline)]
  | .assume m condition => .node "Assume" m [.mk "condition" (.child condition.outline)]
  | .assign m targets values =>
    .node "Assign" m [.mk "lvals" (.ofExprs targets), .mk "rvals" (.ofExprs values)]
  | .break m => .node "Break" m []
  | .continue m => .node "Continue" m []
  | .debug m operand => .node "Debug" m [.mk "operand" (.child operand.outline)]
  | .doWhile m condition invariants body =>
    .node "DoWhile" m
      [.mk "condition" (.child condition.outline), .mk "invariants" (.ofExprs invariants),
        .mk "body" (.child body.outline)]
  | .fail m => .node "Fail" m []
  | .ifElse m condition trueBranch falseBranch =>
    .node "IfElse" m
      [.mk "condition" (.child condition.outline), .mk "true_branch" (.child trueBranch.outline),
        .mk "false_branch" (.ofOption (Block.outlineOption falseBranch))]
  | .namedBlock m name body =>
    .node "NamedBlock" m [.mk "name" (.child name.outline), .mk "body" (.child body.outline)]
  | .return m values => .node "Return" m [.mk "values" (.ofExprs values)]
  | .skip m => .node "Skip" m []
  | .switch m condition cases =>
    .node "Switch" m
      [.mk "condition" (.child condition.outline), .mk "cases" (.children (Case.outlines cases))]
  | .while m condition invariants body =>
    .node "While" m
      [.mk "condition" (.child condition.outline), .mk "invariants" (.ofExprs invariants),
        .mk "body" (.child body.outline)]
  | .variable declared initialiser => declared.outlineWith (initialiser.map Expr.outline)
  | .invocation call => call.outline

def Stmt.outlines : List Stmt → List Outline
  | [] => []
  | s :: ss => s.outline :: Stmt.outlines ss

def Block.outline : Block → Outline
  | .mk m statements => .node "Block" m [.mk "statements" (.children (Stmt.outlines statements))]

def Block.outlineOption : Option Block → Option Outline
  | none => none
  | some b => some b.outline

def Case.outline : Case → Outline
  | .mk m conditions body =>
    .node "Case" m [.mk "conditions" (.ofExprs conditions), .mk "body" (.child body.outline)]

def Case.outlines : List Case → List Outline
  | [] => []
  | c :: cs => c.outline :: Case.outlines cs

end

def Routine.entries (r : Routine) (lifetimes : List Entry) : List Entry :=
  [.mk "modifiers" (.words r.modifiers), .mk "name" (.child r.name.outline)] ++ lifetimes ++
    [.mk "parameters" (.ofVariables r.parameters), .mk "returns" (.ofVariables r.returns),
      .mk "requires" (.ofExprs r.requires), .mk "ensures" (.ofExprs r.ensures),
      .mk "body" (.child r.body.outline)]

def Decl.outline : Decl → Outline
  | .imports m path => .node "ImportDecl" m [.mk "path" (.ofIdentifiers path)]
  | .type m modifiers name declared invariant =>
    .node "TypeDecl" m
      [.mk "modifiers" (.words modifiers), .mk "name" (.child name.outline),
        .mk "variable" (.child declared.outline), .mk "invariant" (.ofExprs invariant)]
  | .constant m modifiers name value =>
    .node "ConstantDecl" m
      [.mk "modifiers" (.words modifiers), .mk "name" (.child name.outline),
        .mk "value" (.child value.outline)]
  | .function m routine => .node "FunctionDecl" m (routine.entries [])
  | .method m lifetimes routine =>
    .node "MethodDecl" m (routine.entries [.mk "lifetimes" (.ofIdentifiers lifetimes)])
  | .property m modifiers name parameters invariant =>
    .node "PropertyDecl" m
      [.mk "modifiers" (.words modifiers), .mk "name" (.child name.outline),
        .mk "parameters" (.ofVariables parameters), .mk "invariant" (.ofExprs invariant)]

def Module.outline (m : Module) : Outline :=
  .node "Module" m.mark
    [.mk "package" (.words m.package),
      .mk "declarations" (.children (m.declarations.map (·.outline)))]

def Decl.same (d d' : Decl) : Bool :=
  d.outline.same d'.outline

def Module.same (m m' : Module) : Bool :=
  m.outline.same m'.outline

end Whiley
