import Whiley.Grammar.Stmts
import Mathlib.Data.List.Basic

namespace Whiley

structure Relabelling where
  span : Span → Span
  index : Nat → Nat
  text : String → String
  injective : Function.Injective text
  /-- The names that mean something to the parser. -/
  fixed : ∀ w ∈ ["$", "this", "*", "type", "constant"], text w = w

class Relabel (α : Type) where
  relabel : Relabelling → α → α

export Relabel (relabel)

instance : Relabel Unit := ⟨fun _ => id⟩

instance : Relabel Bool := ⟨fun _ => id⟩

instance : Relabel String := ⟨Relabelling.text⟩

instance {α : Type} [Relabel α] : Relabel (List α) := ⟨fun f => List.map (relabel f)⟩

instance {α : Type} [Relabel α] : Relabel (Option α) := ⟨fun f => Option.map (relabel f)⟩

instance {α β : Type} [Relabel α] [Relabel β] : Relabel (α × β) :=
  ⟨fun f x => (relabel f x.1, relabel f x.2)⟩

protected def Mark.relabel (f : Relabelling) (m : Mark) : Mark :=
  ⟨f.span m.span, f.index m.index⟩

instance : Relabel Mark := ⟨Mark.relabel⟩

protected def Identifier.relabel (f : Relabelling) (i : Identifier) : Identifier :=
  ⟨i.mark.relabel f, f.text i.text⟩

instance : Relabel Identifier := ⟨Identifier.relabel⟩

protected def Name.relabel (f : Relabelling) (n : Name) : Name :=
  ⟨n.mark.relabel f, n.components.map (·.relabel f)⟩

instance : Relabel Name := ⟨Name.relabel⟩

mutual

protected def TypeExpr.relabel (f : Relabelling) : TypeExpr → TypeExpr
  | .primitive m name => .primitive (m.relabel f) name
  | .array m element => .array (m.relabel f) (element.relabel f)
  | .list m element => .list (m.relabel f) (element.relabel f)
  | .record m isOpen fields => .record (m.relabel f) isOpen (Field.relabelAll f fields)
  | .nominal m name => .nominal (m.relabel f) (name.relabel f)
  | .reference m element lifetime =>
    .reference (m.relabel f) (element.relabel f) (lifetime.map (·.relabel f))
  | .negation m element => .negation (m.relabel f) (element.relabel f)
  | .union m operands => .union (m.relabel f) (TypeExpr.relabelAll f operands)
  | .intersection m operands => .intersection (m.relabel f) (TypeExpr.relabelAll f operands)
  | .function m parameters returns =>
    .function (m.relabel f) (TypeExpr.relabelAll f parameters) (TypeExpr.relabelAll f returns)
  | .method m parameters returns captures lifetimes =>
    .method (m.relabel f) (TypeExpr.relabelAll f parameters) (TypeExpr.relabelAll f returns)
      (captures.map (·.relabel f)) (lifetimes.map (·.relabel f))

def TypeExpr.relabelAll (f : Relabelling) : List TypeExpr → List TypeExpr
  | [] => []
  | t :: ts => t.relabel f :: TypeExpr.relabelAll f ts

def Field.relabelAll (f : Relabelling) : List Field → List Field
  | [] => []
  | .mk m type name :: fs =>
    .mk (m.relabel f) (type.relabel f) (name.relabel f) :: Field.relabelAll f fs

end

protected def Field.relabel (f : Relabelling) (x : Field) : Field :=
  .mk (x.mark.relabel f) (x.type.relabel f) (x.name.relabel f)

instance : Relabel TypeExpr := ⟨TypeExpr.relabel⟩

instance : Relabel Field := ⟨Field.relabel⟩

protected def Variable.relabel (f : Relabelling) (v : Variable) : Variable :=
  ⟨v.mark.relabel f, v.name.relabel f, v.type.relabel f⟩

instance : Relabel Variable := ⟨Variable.relabel⟩

mutual

protected def Expr.relabel (f : Relabelling) : Expr → Expr
  | .nullLit m => .nullLit (m.relabel f)
  | .boolLit m value => .boolLit (m.relabel f) value
  | .byteLit m value => .byteLit (m.relabel f) value
  | .charLit m value => .charLit (m.relabel f) value
  | .intLit m value => .intLit (m.relabel f) value
  | .stringLit m value => .stringLit (m.relabel f) value
  | .variableAccess m name declaration =>
    .variableAccess (m.relabel f) (name.relabel f) (declaration.map f.index)
  | .staticAccess m name => .staticAccess (m.relabel f) (name.relabel f)
  | .recordAccess m source field =>
    .recordAccess (m.relabel f) (source.relabel f) (field.relabel f)
  | .dereference m operand => .dereference (m.relabel f) (operand.relabel f)
  | .arrayAccess m source index => .arrayAccess (m.relabel f) (source.relabel f) (index.relabel f)
  | .arrayLength m operand => .arrayLength (m.relabel f) (operand.relabel f)
  | .arrayInitialiser m elements => .arrayInitialiser (m.relabel f) (Expr.relabelAll f elements)
  | .arrayGenerator m element length =>
    .arrayGenerator (m.relabel f) (element.relabel f) (length.relabel f)
  | .recordInitialiser m name fields =>
    .recordInitialiser (m.relabel f) (name.map (·.relabel f)) (FieldValue.relabelAll f fields)
  | .binary m left op right => .binary (m.relabel f) (left.relabel f) op (right.relabel f)
  | .unary m op operand => .unary (m.relabel f) op (operand.relabel f)
  | .isType m operand type => .isType (m.relabel f) (operand.relabel f) (type.relabel f)
  | .cast m type operand => .cast (m.relabel f) (type.relabel f) (operand.relabel f)
  | .invoke m name lifetimes arguments =>
    .invoke (m.relabel f) (name.relabel f) (lifetimes.map (·.map (·.relabel f)))
      (Expr.relabelAll f arguments)
  | .indirectInvoke m source lifetimes arguments =>
    .indirectInvoke (m.relabel f) (source.relabel f) (lifetimes.map (·.map (·.relabel f)))
      (Expr.relabelAll f arguments)
  | .quantifier m keyword ranges condition =>
    .quantifier (m.relabel f) keyword (Range.relabelAll f ranges) (condition.relabel f)
  | .new m operand lifetime => .new (m.relabel f) (operand.relabel f) (lifetime.relabel f)
  | .lambda m parameters captures lifetimes body =>
    .lambda (m.relabel f) (parameters.map (·.relabel f)) (captures.map (·.relabel f))
      (lifetimes.map (·.relabel f)) (body.relabel f)
  | .lambdaConstant m name parameterTypes =>
    .lambdaConstant (m.relabel f) (name.relabel f) (parameterTypes.map (·.relabel f))

def Expr.relabelAll (f : Relabelling) : List Expr → List Expr
  | [] => []
  | e :: es => e.relabel f :: Expr.relabelAll f es

def FieldValue.relabelAll (f : Relabelling) : List FieldValue → List FieldValue
  | [] => []
  | .mk name value :: fs => .mk (name.relabel f) (value.relabel f) :: FieldValue.relabelAll f fs

def Range.relabelAll (f : Relabelling) : List Range → List Range
  | [] => []
  | .mk m name start stop :: rs =>
    .mk (m.relabel f) (name.relabel f) (start.relabel f) (stop.relabel f) :: Range.relabelAll f rs

end

instance : Relabel Expr := ⟨Expr.relabel⟩

instance : Relabel FieldValue :=
  ⟨fun f x => .mk (x.name.relabel f) (x.value.relabel f)⟩

instance : Relabel Range :=
  ⟨fun f x => .mk (x.mark.relabel f) (x.name.relabel f) (x.start.relabel f) (x.stop.relabel f)⟩

mutual

protected def Stmt.relabel (f : Relabelling) : Stmt → Stmt
  | .assert m condition => .assert (m.relabel f) (condition.relabel f)
  | .assume m condition => .assume (m.relabel f) (condition.relabel f)
  | .assign m targets values =>
    .assign (m.relabel f) (targets.map (·.relabel f)) (values.map (·.relabel f))
  | .break m => .break (m.relabel f)
  | .continue m => .continue (m.relabel f)
  | .debug m operand => .debug (m.relabel f) (operand.relabel f)
  | .doWhile m condition invariants body =>
    .doWhile (m.relabel f) (condition.relabel f) (invariants.map (·.relabel f)) (body.relabel f)
  | .fail m => .fail (m.relabel f)
  | .ifElse m condition trueBranch falseBranch =>
    .ifElse (m.relabel f) (condition.relabel f) (trueBranch.relabel f)
      (Block.relabelOption f falseBranch)
  | .namedBlock m name body => .namedBlock (m.relabel f) (name.relabel f) (body.relabel f)
  | .return m values => .return (m.relabel f) (values.map (·.relabel f))
  | .skip m => .skip (m.relabel f)
  | .switch m condition cases =>
    .switch (m.relabel f) (condition.relabel f) (Case.relabelAll f cases)
  | .while m condition invariants body =>
    .while (m.relabel f) (condition.relabel f) (invariants.map (·.relabel f)) (body.relabel f)
  | .variable declared initialiser =>
    .variable (declared.relabel f) (initialiser.map (·.relabel f))
  | .invocation call => .invocation (call.relabel f)

def Stmt.relabelAll (f : Relabelling) : List Stmt → List Stmt
  | [] => []
  | s :: ss => s.relabel f :: Stmt.relabelAll f ss

protected def Block.relabel (f : Relabelling) : Block → Block
  | .mk m statements => .mk (m.relabel f) (Stmt.relabelAll f statements)

def Block.relabelOption (f : Relabelling) : Option Block → Option Block
  | none => none
  | some b => some (b.relabel f)

def Case.relabelAll (f : Relabelling) : List Case → List Case
  | [] => []
  | .mk m conditions body :: cs =>
    .mk (m.relabel f) (conditions.map (·.relabel f)) (body.relabel f) :: Case.relabelAll f cs

end

instance : Relabel Stmt := ⟨Stmt.relabel⟩

instance : Relabel Block := ⟨Block.relabel⟩

instance : Relabel Case :=
  ⟨fun f x => .mk (x.mark.relabel f) (x.conditions.map (·.relabel f)) (x.body.relabel f)⟩

protected def Routine.relabel (f : Relabelling) (r : Routine) : Routine where
  modifiers := r.modifiers
  name := r.name.relabel f
  parameters := r.parameters.map (·.relabel f)
  returns := r.returns.map (·.relabel f)
  requires := r.requires.map (·.relabel f)
  ensures := r.ensures.map (·.relabel f)
  body := r.body.relabel f

instance : Relabel Routine := ⟨Routine.relabel⟩

protected def Decl.relabel (f : Relabelling) : Decl → Decl
  | .imports m path => .imports (m.relabel f) (path.map (·.relabel f))
  | .type m modifiers name declared invariant =>
    .type (m.relabel f) modifiers (name.relabel f) (declared.relabel f)
      (invariant.map (·.relabel f))
  | .constant m modifiers name value =>
    .constant (m.relabel f) modifiers (name.relabel f) (value.relabel f)
  | .function m routine => .function (m.relabel f) (routine.relabel f)
  | .method m lifetimes routine =>
    .method (m.relabel f) (lifetimes.map (·.relabel f)) (routine.relabel f)
  | .property m modifiers name parameters invariant =>
    .property (m.relabel f) modifiers (name.relabel f) (parameters.map (·.relabel f))
      (invariant.map (·.relabel f))

instance : Relabel Decl := ⟨Decl.relabel⟩

protected def Module.relabel (f : Relabelling) (m : Module) : Module :=
  ⟨m.mark.relabel f, m.package.map f.text, m.declarations.map (·.relabel f)⟩

instance : Relabel Module := ⟨Module.relabel⟩

protected def Scope.relabel (f : Relabelling) (s : Scope) : Scope where
  indent := s.indent
  inLoop := s.inLoop
  locals := s.locals.map fun (name, v) => (f.text name, v.relabel f)
  aliases := s.aliases.map f.text
  lifetimes := s.lifetimes.map f.text

instance : Relabel Scope := ⟨Scope.relabel⟩

protected def SyntaxError.relabel (f : Relabelling) (e : SyntaxError) : SyntaxError :=
  ⟨e.fault, f.span e.span⟩

instance {α : Type} [Relabel α] : Relabel (Except SyntaxError α) where
  relabel f
    | .ok a => .ok (relabel f a)
    | .error e => .error (e.relabel f)

/-- Only the spans of errors change: a failure names no identifier. -/
protected def Failure.relabel (f : Relabelling) : Failure → Failure
  | .error e => .error (e.relabel f)
  | x => x

theorem Failure.message_relabel (f : Relabelling) (x : Failure) :
    (x.relabel f).message = x.message := by
  cases x <;> rfl

section Equations

variable (f : Relabelling)

@[simp]
theorem relabel_unit (x : Unit) : relabel f x = x := rfl

@[simp]
theorem relabel_bool (b : Bool) : relabel f b = b := rfl

@[simp]
theorem relabel_string (s : String) : relabel f s = f.text s := rfl

@[simp]
theorem relabel_list {α : Type} [Relabel α] (as : List α) : relabel f as = as.map (relabel f) := rfl

@[simp]
theorem relabel_option {α : Type} [Relabel α] (o : Option α) :
    relabel f o = o.map (relabel f) := rfl

@[simp]
theorem relabel_pair {α β : Type} [Relabel α] [Relabel β] (x : α × β) :
    relabel f x = (relabel f x.1, relabel f x.2) := rfl

@[simp]
theorem relabel_mark (m : Mark) : relabel f m = m.relabel f := rfl

@[simp]
theorem relabel_identifier (i : Identifier) : relabel f i = i.relabel f := rfl

@[simp]
theorem relabel_name (n : Name) : relabel f n = n.relabel f := rfl

@[simp]
theorem relabel_type (t : TypeExpr) : relabel f t = t.relabel f := rfl

@[simp]
theorem relabel_field (x : Field) : relabel f x = x.relabel f := rfl

@[simp]
theorem relabel_variable (v : Variable) : relabel f v = v.relabel f := rfl

@[simp]
theorem relabel_expr (e : Expr) : relabel f e = e.relabel f := rfl

@[simp]
theorem relabel_stmt (s : Stmt) : relabel f s = s.relabel f := rfl

@[simp]
theorem relabel_block (b : Block) : relabel f b = b.relabel f := rfl

@[simp]
theorem relabel_routine (r : Routine) : relabel f r = r.relabel f := rfl

@[simp]
theorem relabel_decl (d : Decl) : relabel f d = d.relabel f := rfl

@[simp]
theorem relabel_module (m : Module) : relabel f m = m.relabel f := rfl

@[simp]
theorem relabel_scope (s : Scope) : relabel f s = s.relabel f := rfl

@[simp]
theorem TypeExpr.relabelAll_eq (ts : List TypeExpr) :
    TypeExpr.relabelAll f ts = ts.map (·.relabel f) := by
  induction ts with
  | nil => rfl
  | cons t ts ih => rw [TypeExpr.relabelAll, ih, List.map_cons]

@[simp]
theorem Field.relabelAll_eq (fs : List Field) : Field.relabelAll f fs = fs.map (·.relabel f) := by
  induction fs with
  | nil => rfl
  | cons x fs ih =>
    obtain ⟨m, t, n⟩ := x
    rw [Field.relabelAll, ih, List.map_cons]
    rfl

@[simp]
theorem Expr.relabelAll_eq (es : List Expr) : Expr.relabelAll f es = es.map (·.relabel f) := by
  induction es with
  | nil => rfl
  | cons e es ih => rw [Expr.relabelAll, ih, List.map_cons]

@[simp]
theorem FieldValue.relabelAll_eq (fs : List FieldValue) :
    FieldValue.relabelAll f fs = fs.map (relabel f) := by
  induction fs with
  | nil => rfl
  | cons x fs ih =>
    obtain ⟨n, v⟩ := x
    rw [FieldValue.relabelAll, ih, List.map_cons]
    rfl

@[simp]
theorem Range.relabelAll_eq (rs : List Range) : Range.relabelAll f rs = rs.map (relabel f) := by
  induction rs with
  | nil => rfl
  | cons r rs ih =>
    obtain ⟨m, n, a, b⟩ := r
    rw [Range.relabelAll, ih, List.map_cons]
    rfl

@[simp]
theorem Stmt.relabelAll_eq (ss : List Stmt) : Stmt.relabelAll f ss = ss.map (·.relabel f) := by
  induction ss with
  | nil => rfl
  | cons s ss ih => rw [Stmt.relabelAll, ih, List.map_cons]

@[simp]
theorem Block.relabelOption_eq (o : Option Block) :
    Block.relabelOption f o = o.map (·.relabel f) := by
  cases o <;> rfl

@[simp]
theorem Case.relabelAll_eq (cs : List Case) : Case.relabelAll f cs = cs.map (relabel f) := by
  induction cs with
  | nil => rfl
  | cons c cs ih =>
    obtain ⟨m, conditions, body⟩ := c
    rw [Case.relabelAll, ih, List.map_cons]
    rfl

@[simp]
theorem Field.relabel_mk (m : Mark) (t : TypeExpr) (n : Identifier) :
    (Field.mk m t n).relabel f = .mk (m.relabel f) (t.relabel f) (n.relabel f) := rfl

@[simp]
theorem FieldValue.relabel_mk (n : Identifier) (v : Expr) :
    relabel f (FieldValue.mk n v) = .mk (n.relabel f) (v.relabel f) := rfl

@[simp]
theorem Range.relabel_mk (m : Mark) (n : Identifier) (a b : Expr) :
    relabel f (Range.mk m n a b) =
      .mk (m.relabel f) (n.relabel f) (a.relabel f) (b.relabel f) := rfl

@[simp]
theorem Case.relabel_mk (m : Mark) (conditions : List Expr) (body : Block) :
    relabel f (Case.mk m conditions body) =
      .mk (m.relabel f) (conditions.map (·.relabel f)) (body.relabel f) := rfl

attribute [simp] TypeExpr.relabel Expr.relabel Stmt.relabel Block.relabel Decl.relabel

end Equations

section Observations

variable (f : Relabelling)

theorem Relabelling.text_eq_fixed {w : String} (hw : w ∈ ["$", "this", "*", "type", "constant"])
    (s : String) : f.text s = w ↔ s = w := by
  constructor
  · intro h
    exact f.injective (h.trans (f.fixed w hw).symm)
  · rintro rfl
    exact f.fixed s hw

theorem TypeExpr.mark_relabel (t : TypeExpr) : (t.relabel f).mark = t.mark.relabel f := by
  cases t <;> rfl

theorem Expr.mark_relabel (e : Expr) : (e.relabel f).mark = e.mark.relabel f := by
  cases e <;> rfl

theorem Stmt.mark_relabel (s : Stmt) : (s.relabel f).mark = s.mark.relabel f := by
  cases s with
  | invocation e => exact e.mark_relabel f
  | _ => rfl

mutual

theorem TypeExpr.isForced_relabel : ∀ t : TypeExpr, (t.relabel f).isForced = t.isForced
  | .primitive .. | .array .. | .record .. | .function .. | .method .. | .nominal .. => rfl
  | .union _ operands => TypeExpr.anyForced_relabel operands
  | .intersection _ operands => TypeExpr.anyForced_relabel operands
  | .negation _ element => TypeExpr.isForced_relabel element
  | .list _ element => TypeExpr.isForced_relabel element
  | .reference _ element none => TypeExpr.isForced_relabel element
  | .reference _ element (some l) => by
    have this_iff := f.text_eq_fixed (w := "this") (by decide) l.text
    have star_iff := f.text_eq_fixed (w := "*") (by decide) l.text
    have helement := TypeExpr.isForced_relabel element
    simp [TypeExpr.isForced, Identifier.relabel, this_iff, star_iff, helement]

theorem TypeExpr.anyForced_relabel :
    ∀ ts : List TypeExpr, TypeExpr.anyForced (TypeExpr.relabelAll f ts) = TypeExpr.anyForced ts
  | [] => rfl
  | t :: ts => by
    have ht := TypeExpr.isForced_relabel t
    have hts := TypeExpr.anyForced_relabel ts
    rw [TypeExpr.relabelAll, TypeExpr.anyForced, TypeExpr.anyForced, ht, hts]

end

theorem Expr.isForced_relabel : ∀ e : Expr, (e.relabel f).isForced = e.isForced
  | .recordAccess _ source _ => Expr.isForced_relabel source
  | .unary _ .not operand => Expr.isForced_relabel operand
  | .unary _ .negate _ | .unary _ .complement _ => rfl
  | .binary _ left op right => by
    have hleft := Expr.isForced_relabel left
    have hright := Expr.isForced_relabel right
    simp [Expr.isForced, hleft, hright]
  | .nullLit _ | .boolLit .. | .byteLit .. | .charLit .. | .intLit .. | .stringLit ..
  | .variableAccess .. | .staticAccess .. | .dereference .. | .arrayAccess .. | .arrayLength ..
  | .arrayInitialiser .. | .arrayGenerator .. | .recordInitialiser .. | .isType .. | .cast ..
  | .invoke .. | .indirectInvoke .. | .quantifier .. | .new .. | .lambda ..
  | .lambdaConstant .. => rfl

theorem Expr.isInvocation_relabel (e : Expr) : (e.relabel f).isInvocation = e.isInvocation := by
  cases e <;> rfl

theorem TypeExpr.fieldNames_relabel (t : TypeExpr) :
    (t.relabel f).fieldNames = t.fieldNames.map (·.relabel f) := by
  cases t with
  | record m isOpen fields =>
    simp only [TypeExpr.relabel, TypeExpr.fieldNames, Field.relabelAll_eq, List.map_map]
    exact List.map_congr_left fun x _ => rfl
  | _ => rfl

theorem Case.isDefault_relabel (c : Case) : (relabel f c).isDefault = c.isDefault := by
  obtain ⟨m, conditions, body⟩ := c
  exact List.isEmpty_map

theorem Relabelling.mem_texts {s : String} {ss : List String} :
    f.text s ∈ ss.map f.text ↔ s ∈ ss :=
  List.mem_map_of_injective f.injective

end Observations

namespace Scope

variable (f : Relabelling)

theorem lookup_relabel (s : Scope) (name : String) :
    (s.relabel f).lookup (f.text name) = (s.lookup name).map (·.relabel f) := by
  obtain ⟨indent, inLoop, locals, aliases, lifetimes⟩ := s
  change Dictionary.get? (locals.map _) _ = (Dictionary.get? locals name).map _
  induction locals with
  | nil => rfl
  | cons entry locals ih =>
    obtain ⟨key, v⟩ := entry
    rw [List.map_cons, Dictionary.get?_cons, Dictionary.get?_cons]
    by_cases hkey : key = name
    · rw [if_pos hkey, if_pos (congrArg f.text hkey)]
      rfl
    · rw [if_neg hkey, if_neg fun h => hkey (f.injective h)]
      exact ih

theorem isVariable_relabel (s : Scope) (name : String) :
    (s.relabel f).isVariable (f.text name) = s.isVariable name := by
  rw [isVariable, lookup_relabel, Option.isSome_map, isVariable]

theorem isAlias_relabel (s : Scope) (name : String) :
    (s.relabel f).isAlias (f.text name) = s.isAlias name :=
  decide_eq_decide.mpr f.mem_texts

theorem mem_lifetimes_relabel (s : Scope) (name : String) :
    f.text name ∈ (s.relabel f).lifetimes ↔ name ∈ s.lifetimes :=
  f.mem_texts

theorem isLifetime_relabel (s : Scope) (name : String) :
    (s.relabel f).isLifetime (f.text name) = s.isLifetime name := by
  have hstar := f.text_eq_fixed (w := "*") (by decide) name
  rw [isLifetime, isLifetime, decide_eq_decide.mpr hstar,
    decide_eq_decide.mpr (mem_lifetimes_relabel f s name)]

theorem mem_reserved_relabel (name : String) : f.text name ∈ reserved ↔ name ∈ reserved := by
  have hthis := f.text_eq_fixed (w := "this") (by decide) name
  have hstar := f.text_eq_fixed (w := "*") (by decide) name
  simp [reserved, hthis, hstar]

theorem isAvailable_relabel (s : Scope) (name : String) :
    (s.relabel f).isAvailable (f.text name) = s.isAvailable name := by
  rw [isAvailable, isAvailable, isVariable_relabel,
    decide_eq_decide.mpr (mem_lifetimes_relabel f s name),
    decide_eq_decide.mpr (mem_reserved_relabel f name)]

theorem checkAvailable_relabel (s : Scope) (i : Identifier) :
    relabel f (s.checkAvailable i) = (s.relabel f).checkAvailable (i.relabel f) := by
  rw [checkAvailable, checkAvailable, Identifier.relabel, isAvailable_relabel]
  split <;> rfl

theorem checkLifetime_relabel (s : Scope) (i : Identifier) :
    relabel f (s.checkLifetime i) = (s.relabel f).checkLifetime (i.relabel f) := by
  rw [checkLifetime, checkLifetime, Identifier.relabel, isLifetime_relabel]
  split <;> rfl

theorem relabel_after {α β : Type} [Relabel α] [Relabel β] {x : Except SyntaxError α} {b b' : β}
    {x' : Except SyntaxError α} (hx : relabel f x = x') (hb : relabel f b = b') :
    relabel f (x >>= fun _ => pure b) = x' >>= fun _ => pure b' := by
  subst hx hb
  cases x <;> rfl

theorem declareVariable_relabel (s : Scope) (v : Variable) :
    relabel f (s.declareVariable v) = (s.relabel f).declareVariable (v.relabel f) :=
  relabel_after f (checkAvailable_relabel f s v.name) rfl

theorem declareLifetime_relabel (s : Scope) (i : Identifier) :
    relabel f (s.declareLifetime i) = (s.relabel f).declareLifetime (i.relabel f) :=
  relabel_after f (checkAvailable_relabel f s i) rfl

theorem declareAlias_relabel (s : Scope) (i : Identifier) :
    (s.declareAlias i).relabel f = (s.relabel f).declareAlias (i.relabel f) := rfl

theorem declareAliases_relabel (s : Scope) (is : List Identifier) :
    (is.foldl declareAlias s).relabel f =
      (is.map (·.relabel f)).foldl declareAlias (s.relabel f) := by
  induction is generalizing s with
  | nil => rfl
  | cons i is ih => rw [List.map_cons, List.foldl_cons, List.foldl_cons, ih, declareAlias_relabel]

theorem declareThis_relabel (s : Scope) :
    s.declareThis.relabel f = (s.relabel f).declareThis := by
  have hthis := f.fixed "this" (by decide)
  simp [declareThis, Scope.relabel, hthis]

theorem deeper_relabel (s : Scope) (indent : Indent) :
    (s.deeper indent).relabel f = (s.relabel f).deeper indent := rfl

theorem looping_relabel (s : Scope) (inLoop : Bool) :
    (s.looping inLoop).relabel f = (s.relabel f).looping inLoop := rfl

theorem capturing_relabel (s : Scope) (captures : List Identifier) :
    (s.capturing captures).relabel f = (s.relabel f).capturing (captures.map (·.relabel f)) := by
  simp [capturing, Scope.relabel, Identifier.relabel]

end Scope

theorem checkCases_relabel (f : Relabelling) (cs : List Case) :
    relabel f (Grammar.checkCases cs) = Grammar.checkCases (cs.map (relabel f)) := by
  induction cs with
  | nil => rfl
  | cons c cs ih =>
    cases cs with
    | nil => rfl
    | cons next rest =>
      rw [Grammar.checkCases, List.map_cons, List.map_cons, Grammar.checkCases,
        Case.isDefault_relabel, Case.isDefault_relabel]
      split
      · rfl
      · exact ih

end Whiley
