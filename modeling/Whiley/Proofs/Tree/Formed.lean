import Whiley.Grammar.Decls
import Whiley.Proofs.Token.Spelling

/-!
The trees that a program can have: what holds of a tree whose nodes are stored in an arena, where it
stands in a scope. Names are bound where they are used, lifetimes declared, fields and parameters
distinct, operators those of the language.
-/

namespace Whiley

def Arena.Holds (a : Arena Node) (i : Nat) (n : Node) : Prop :=
  a.toList[i]? = some n

namespace Scope

def addVariable (s : Scope) (v : Variable) : Scope :=
  { s with locals := (v.name.text, v) :: s.locals }

def addVariables (s : Scope) (vs : List Variable) : Scope :=
  vs.foldl addVariable s

def addLifetime (s : Scope) (l : Identifier) : Scope :=
  { s with lifetimes := l.text :: s.lifetimes }

def addLifetimes (s : Scope) (ls : List Identifier) : Scope :=
  ls.foldl addLifetime s

theorem declareVariable_ok {s s' : Scope} {v : Variable} (h : s.declareVariable v = .ok s') :
    s.isAvailable v.name.text ∧ s' = s.addVariable v := by
  unfold declareVariable checkAvailable at h
  split at h
  · rename_i ha
    exact ⟨ha, (Except.ok.inj h).symm⟩
  · cases h

theorem declareLifetime_ok {s s' : Scope} {l : Identifier} (h : s.declareLifetime l = .ok s') :
    s.isAvailable l.text ∧ s' = s.addLifetime l := by
  unfold declareLifetime checkAvailable at h
  split at h
  · rename_i ha
    exact ⟨ha, (Except.ok.inj h).symm⟩
  · cases h

theorem checkAvailable_ok {s : Scope} {i : Identifier} {u : Unit}
    (h : s.checkAvailable i = .ok u) : s.isAvailable i.text := by
  unfold checkAvailable at h
  split at h
  · assumption
  · cases h

theorem checkLifetime_ok {s : Scope} {i : Identifier} {u : Unit}
    (h : s.checkLifetime i = .ok u) : s.isLifetime i.text := by
  unfold checkLifetime at h
  split at h
  · assumption
  · cases h

end Scope

def Identifier.IsWord (i : Identifier) : Prop :=
  Kind.identifier.Spelled i.text.toList

def Identifier.IsLifetime (i : Identifier) : Prop :=
  i.IsWord ∨ i.text = "this" ∨ i.text = "*"

def Name.Formed (n : Name) : Prop :=
  n.components ≠ [] ∧ ∀ i ∈ n.components, i.IsWord

def Scope.Declares (s : Scope) : List Identifier → Prop
  | [] => True
  | l :: ls => l.IsWord ∧ s.isAvailable l.text ∧ (s.addLifetime l).Declares ls

mutual

def TypeExpr.Formed : Scope → TypeExpr → Prop
  | _, .primitive _ name => name ∈ ["void", "any", "null", "bool", "byte", "int"]
  | s, .array _ element => element.Formed s
  | s, .list _ element => element.Formed s
  | s, .record _ _ fields =>
    fields ≠ [] ∧ (fields.map (·.name.text)).Nodup ∧ Field.AllFormed s fields
  | _, .nominal _ name => name.Formed
  | s, .reference _ element lifetime =>
    (∀ l, lifetime = some l → l.IsLifetime ∧ s.isLifetime l.text) ∧ element.Formed s
  | s, .negation _ element => element.Formed s
  | s, .union _ operands => 2 ≤ operands.length ∧ TypeExpr.AllFormed s operands
  | s, .intersection _ operands => 2 ≤ operands.length ∧ TypeExpr.AllFormed s operands
  | s, .function _ parameters returns =>
    TypeExpr.AllFormed s parameters ∧ TypeExpr.AllFormed s returns
  | s, .method _ parameters returns captures lifetimes =>
    (∀ c ∈ captures, c.IsLifetime) ∧ s.Declares lifetimes ∧
      TypeExpr.AllFormed (s.addLifetimes lifetimes) parameters ∧
        TypeExpr.AllFormed (s.addLifetimes lifetimes) returns

def TypeExpr.AllFormed : Scope → List TypeExpr → Prop
  | _, [] => True
  | s, t :: ts => t.Formed s ∧ TypeExpr.AllFormed s ts

def Field.AllFormed : Scope → List Field → Prop
  | _, [] => True
  | s, .mk _ type name :: fs => type.Formed s ∧ name.IsWord ∧ Field.AllFormed s fs

end

theorem TypeExpr.allFormed_iff {s : Scope} {ts : List TypeExpr} :
    TypeExpr.AllFormed s ts ↔ ∀ t ∈ ts, t.Formed s := by
  induction ts with
  | nil => simp [TypeExpr.AllFormed]
  | cons t ts ih => simp [TypeExpr.AllFormed, ih]

theorem Field.allFormed_iff {s : Scope} {fs : List Field} :
    Field.AllFormed s fs ↔ ∀ f ∈ fs, f.type.Formed s ∧ f.name.IsWord := by
  induction fs with
  | nil => simp [Field.AllFormed]
  | cons f fs ih =>
    obtain ⟨m, type, name⟩ := f
    simp [Field.AllFormed, Field.type, Field.name, ih, and_assoc]

def Range.variable : Range → Variable
  | .mk m name _ _ =>
    ⟨⟨m.span, m.index + 2⟩, name, .primitive ⟨name.mark.span, m.index + 1⟩ "int"⟩

def Scope.addRanges (s : Scope) (rs : List Range) : Scope :=
  s.addVariables (rs.map Range.variable)

def Scope.AdmitsVariables (a : Arena Node) (s : Scope) : List Variable → Prop
  | [] => True
  | v :: vs =>
    v.type.Formed s ∧ s.isAvailable v.name.text ∧ a.Holds v.mark.index (.variable v none) ∧
      (s.addVariable v).AdmitsVariables a vs

def Scope.AdmitsParameters (a : Arena Node) (s : Scope) (vs : List Variable) : Prop :=
  (∀ v ∈ vs, v.name.IsWord) ∧ s.AdmitsVariables a vs

/-- A result that is given by its type alone is named `$`. -/
def Scope.AdmitsResults (a : Arena Node) (s : Scope) (vs : List Variable) : Prop :=
  ((∃ v, vs = [v] ∧ v.name.text = "$") ∨ ∀ v ∈ vs, v.name.IsWord) ∧ s.AdmitsVariables a vs

def binaryKinds : List Kind :=
  [.implies, .iff, .logicalAnd, .logicalOr, .bar, .caret, .ampersand, .lessEqual, .less,
    .greaterEqual, .greater, .equal, .notEqual, .subset, .subsetEqual, .superset, .supersetEqual,
    .shiftLeft, .shiftRight, .plus, .minus, .star, .slash, .percent]

def Expr.IsOwner (s : Scope) (field : Identifier) (source : Expr) : Prop :=
  s.isAlias field.text ∧ s.lookup field.text = none ∧ ∃ m d,
    source = .variableAccess m ⟨d, "$"⟩ ((s.lookup "$").map (·.mark.index))

mutual

def Expr.Formed (a : Arena Node) : Scope → Expr → Prop
  | _, .nullLit _ => True
  | _, .boolLit _ _ => True
  | _, .byteLit _ _ => True
  | _, .charLit _ _ => True
  | _, .intLit _ value => value < 10 ^ Text.digitLimit
  | _, .stringLit _ _ => True
  | s, .variableAccess _ name declaration =>
    name.IsWord ∧ ∃ v, s.lookup name.text = some v ∧ declaration = some v.mark.index
  | _, .staticAccess _ name => name.Formed
  | s, .recordAccess _ source field =>
    field.IsWord ∧ (source.IsOwner s field ∨ source.Formed a s)
  | s, .dereference _ operand => operand.Formed a s
  | s, .arrayAccess _ source index => source.Formed a s ∧ index.Formed a s
  | s, .arrayLength _ operand => operand.Formed a s
  | s, .arrayInitialiser _ elements => Expr.AllFormed a s elements
  | s, .arrayGenerator _ element length => element.Formed a s ∧ length.Formed a s
  | s, .recordInitialiser _ name fields =>
    (∀ n, name = some n → n.IsWord) ∧ (fields.map (·.name.text)).Nodup ∧
      FieldValue.AllFormed a s fields
  | s, .binary _ left op right =>
    (∃ k ∈ binaryKinds, op = k.spelling) ∧ left.Formed a s ∧ right.Formed a s
  | s, .unary _ _ operand => operand.Formed a s
  | s, .isType _ operand type => operand.Formed a s ∧ type.Formed s
  | s, .cast _ type operand => type.Formed s ∧ operand.Formed a s
  | s, .invoke _ name lifetimes arguments =>
    name.Formed ∧ (∀ ls, lifetimes = some ls → ∀ l ∈ ls, l.IsLifetime) ∧
      Expr.AllFormed a s arguments
  | s, .indirectInvoke _ source lifetimes arguments =>
    source.Formed a s ∧ (∀ ls, lifetimes = some ls → ∀ l ∈ ls, l.IsLifetime) ∧
      Expr.AllFormed a s arguments
  | s, .quantifier _ keyword ranges condition =>
    keyword ∈ ["some", "all"] ∧ ranges ≠ [] ∧ Range.AllFormed a s ranges ∧
      condition.Formed a (s.addRanges ranges)
  | s, .new _ operand lifetime =>
    lifetime.IsLifetime ∧ s.isLifetime lifetime.text ∧ operand.Formed a s
  | s, .lambda _ parameters captures lifetimes body =>
    (∀ c ∈ captures, c.IsLifetime) ∧ (s.capturing captures).Declares lifetimes ∧
      ((s.capturing captures).addLifetimes lifetimes).AdmitsParameters a parameters ∧
        body.Formed a (((s.capturing captures).addLifetimes lifetimes).addVariables parameters)
  | s, .lambdaConstant _ name parameterTypes =>
    name.Formed ∧ TypeExpr.AllFormed s parameterTypes

def Expr.AllFormed (a : Arena Node) : Scope → List Expr → Prop
  | _, [] => True
  | s, e :: es => e.Formed a s ∧ Expr.AllFormed a s es

def FieldValue.AllFormed (a : Arena Node) : Scope → List FieldValue → Prop
  | _, [] => True
  | s, .mk name value :: fs => name.IsWord ∧ value.Formed a s ∧ FieldValue.AllFormed a s fs

def Range.AllFormed (a : Arena Node) : Scope → List Range → Prop
  | _, [] => True
  | s, .mk m name start stop :: rs =>
    name.IsWord ∧ s.isAvailable name.text ∧ start.Formed a s ∧ stop.Formed a s ∧
      a.Holds (m.index + 2) (.variable (Range.mk m name start stop).variable none) ∧
        Range.AllFormed a (s.addVariable (Range.mk m name start stop).variable) rs

end

theorem Expr.allFormed_iff {a : Arena Node} {s : Scope} {es : List Expr} :
    Expr.AllFormed a s es ↔ ∀ e ∈ es, e.Formed a s := by
  induction es with
  | nil => simp [Expr.AllFormed]
  | cons e es ih => simp [Expr.AllFormed, ih]

theorem FieldValue.allFormed_iff {a : Arena Node} {s : Scope} {fs : List FieldValue} :
    FieldValue.AllFormed a s fs ↔ ∀ f ∈ fs, f.name.IsWord ∧ f.value.Formed a s := by
  induction fs with
  | nil => simp [FieldValue.AllFormed]
  | cons f fs ih =>
    obtain ⟨name, value⟩ := f
    simp [FieldValue.AllFormed, FieldValue.name, FieldValue.value, ih, and_assoc]

def Expr.FormedTarget (a : Arena Node) (s : Scope) : Expr → Prop
  | .variableAccess _ name declaration =>
    name.IsWord ∧ declaration = (s.lookup name.text).map (·.mark.index)
  | .recordAccess _ source field => field.IsWord ∧ source.FormedTarget a s
  | .dereference _ operand => operand.FormedTarget a s
  | .arrayAccess _ source index => source.FormedTarget a s ∧ index.Formed a s
  | _ => False

def Stmt.after (s : Scope) : Stmt → Scope
  | .variable declared _ => s.addVariable declared
  | _ => s

mutual

def Stmt.Formed (a : Arena Node) : Scope → Stmt → Prop
  | s, .assert _ condition => condition.Formed a s
  | s, .assume _ condition => condition.Formed a s
  | s, .assign _ targets values =>
    targets ≠ [] ∧ values ≠ [] ∧ (∀ t ∈ targets, t.FormedTarget a s) ∧ ∀ v ∈ values, v.Formed a s
  | s, .break _ => s.inLoop
  | s, .continue _ => s.inLoop
  | s, .debug _ operand => operand.Formed a s
  | s, .doWhile _ condition invariants body =>
    condition.Formed a s ∧ (∀ e ∈ invariants, e.Formed a s) ∧ body.Formed a s true
  | _, .fail _ => True
  | s, .ifElse _ condition trueBranch falseBranch =>
    condition.Formed a s ∧ trueBranch.Formed a s s.inLoop ∧
      Block.OptionFormed a s s.inLoop falseBranch
  | s, .namedBlock _ name body =>
    name.IsWord ∧ s.isAvailable name.text ∧ body.Formed a (s.addLifetime name) s.inLoop
  | s, .return _ values => ∀ v ∈ values, v.Formed a s
  | _, .skip _ => True
  | s, .switch _ condition cases =>
    condition.Formed a s ∧ (∀ c ∈ cases.dropLast, ¬ c.isDefault) ∧ ∃ i, Case.AllFormed a (s.deeper i) cases
  | s, .while _ condition invariants body =>
    condition.Formed a s ∧ (∀ e ∈ invariants, e.Formed a s) ∧ body.Formed a s true
  | s, .variable declared initialiser =>
    declared.name.IsWord ∧ declared.type.Formed s ∧ s.isAvailable declared.name.text ∧
      a.Holds declared.mark.index (.variable declared initialiser) ∧
        ∀ e, initialiser = some e → e.Formed a s
  | s, .invocation call => call.isInvocation ∧ call.Formed a s

def Stmt.SequenceFormed (a : Arena Node) : Scope → List Stmt → Prop
  | _, [] => True
  | s, st :: sts => st.Formed a s ∧ Stmt.SequenceFormed a (st.after s) sts

def Block.Formed (a : Arena Node) : Scope → Bool → Block → Prop
  | s, inLoop, .mk _ statements =>
    ∃ i, Stmt.SequenceFormed a ((s.deeper i).looping inLoop) statements

def Block.OptionFormed (a : Arena Node) : Scope → Bool → Option Block → Prop
  | _, _, none => True
  | s, inLoop, some b => b.Formed a s inLoop

def Case.AllFormed (a : Arena Node) : Scope → List Case → Prop
  | _, [] => True
  | s, .mk _ conditions body :: cs =>
    (∀ e ∈ conditions, e.Formed a s) ∧ body.Formed a s s.inLoop ∧ Case.AllFormed a s cs

end

def ModifiersFormed (modifiers : List String) : Prop :=
  (∀ m ∈ modifiers, m ∈ ["public", "private", "native", "export"]) ∧
    (modifiers.filter fun m => m = "public" || m = "private").length ≤ 1

def Routine.Formed (a : Arena Node) (s : Scope) (r : Routine) : Prop :=
  let inner := (s.addVariables r.parameters).addVariables r.returns
  ModifiersFormed r.modifiers ∧ r.name.IsWord ∧ s.AdmitsParameters a r.parameters ∧
    (s.addVariables r.parameters).AdmitsResults a r.returns ∧
      (∀ e ∈ r.requires, e.Formed a inner) ∧ (∀ e ∈ r.ensures, e.Formed a inner) ∧
        r.body.Formed a inner.declareThis false

def Scope.ofDeclared (v : Variable) : Scope :=
  v.type.fieldNames.foldl Scope.declareAlias (Scope.root.addVariable v)

def Decl.Formed (a : Arena Node) : Decl → Prop
  | .imports _ path => path ≠ [] ∧ ∀ c ∈ path, c.IsWord ∨ c.text = "*"
  | .type _ modifiers name declared invariant =>
    ModifiersFormed modifiers ∧ name.IsWord ∧ Scope.root.AdmitsResults a [declared] ∧
      ∀ e ∈ invariant, e.Formed a (Scope.ofDeclared declared)
  | .constant _ modifiers name value =>
    ModifiersFormed modifiers ∧ name.IsWord ∧ value.Formed a .root
  | .function _ routine => routine.Formed a .root
  | .method _ lifetimes routine =>
    Scope.root.Declares lifetimes ∧ routine.Formed a (Scope.root.addLifetimes lifetimes)
  | .property _ modifiers name parameters invariant =>
    ModifiersFormed modifiers ∧ name.IsWord ∧ Scope.root.AdmitsParameters a parameters ∧
      ∀ e ∈ invariant, e.Formed a (Scope.root.addVariables parameters)

def Module.Formed (a : Arena Node) (m : Module) : Prop :=
  (∀ c ∈ m.package, Kind.identifier.Spelled c.toList) ∧ ∀ d ∈ m.declarations, d.Formed a

end Whiley
