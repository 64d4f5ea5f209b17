import Whiley.Proofs.Tree.Same

namespace Whiley

def Identifier.core (i : Identifier) : Identifier :=
  ⟨default, i.text⟩

def Name.core (n : Name) : Name :=
  ⟨default, n.components.map (·.core)⟩

mutual

def TypeExpr.core : TypeExpr → TypeExpr
  | .primitive _ name => .primitive default name
  | .array _ element => .array default element.core
  | .list _ element => .list default element.core
  | .record _ isOpen fields => .record default isOpen (Field.cores fields)
  | .nominal _ name => .nominal default name.core
  | .reference _ element lifetime => .reference default element.core (lifetime.map (·.core))
  | .negation _ element => .negation default element.core
  | .union _ operands => .union default (TypeExpr.cores operands)
  | .intersection _ operands => .intersection default (TypeExpr.cores operands)
  | .function _ parameters returns =>
    .function default (TypeExpr.cores parameters) (TypeExpr.cores returns)
  | .method _ parameters returns captures lifetimes =>
    .method default (TypeExpr.cores parameters) (TypeExpr.cores returns)
      (captures.map (·.core)) (lifetimes.map (·.core))

def TypeExpr.cores : List TypeExpr → List TypeExpr
  | [] => []
  | t :: ts => t.core :: TypeExpr.cores ts

def Field.cores : List Field → List Field
  | [] => []
  | .mk _ type name :: fs => .mk default type.core name.core :: Field.cores fs

end

def Variable.core (v : Variable) : Variable :=
  ⟨default, v.name.core, v.type.core⟩

mutual

def Expr.core : Expr → Expr
  | .nullLit _ => .nullLit default
  | .boolLit _ value => .boolLit default value
  | .byteLit _ value => .byteLit default value
  | .charLit _ value => .charLit default value
  | .intLit _ value => .intLit default value
  | .stringLit _ value => .stringLit default value
  | .variableAccess _ name _ => .variableAccess default name.core none
  | .staticAccess _ name => .staticAccess default name.core
  | .recordAccess _ source field => .recordAccess default source.core field.core
  | .dereference _ operand => .dereference default operand.core
  | .arrayAccess _ source index => .arrayAccess default source.core index.core
  | .arrayLength _ operand => .arrayLength default operand.core
  | .arrayInitialiser _ elements => .arrayInitialiser default (Expr.cores elements)
  | .arrayGenerator _ element length => .arrayGenerator default element.core length.core
  | .recordInitialiser _ name fields =>
    .recordInitialiser default (name.map (·.core)) (FieldValue.cores fields)
  | .binary _ left op right => .binary default left.core op right.core
  | .unary _ op operand => .unary default op operand.core
  | .isType _ operand type => .isType default operand.core type.core
  | .cast _ type operand => .cast default type.core operand.core
  | .invoke _ name lifetimes arguments =>
    .invoke default name.core (lifetimes.map (·.map (·.core))) (Expr.cores arguments)
  | .indirectInvoke _ source lifetimes arguments =>
    .indirectInvoke default source.core (lifetimes.map (·.map (·.core))) (Expr.cores arguments)
  | .quantifier _ keyword ranges condition =>
    .quantifier default keyword (Range.cores ranges) condition.core
  | .new _ operand lifetime => .new default operand.core lifetime.core
  | .lambda _ parameters captures lifetimes body =>
    .lambda default (parameters.map (·.core)) (captures.map (·.core)) (lifetimes.map (·.core))
      body.core
  | .lambdaConstant _ name parameterTypes =>
    .lambdaConstant default name.core (parameterTypes.map (·.core))

def Expr.cores : List Expr → List Expr
  | [] => []
  | e :: es => e.core :: Expr.cores es

def FieldValue.cores : List FieldValue → List FieldValue
  | [] => []
  | .mk name value :: fs => .mk name.core value.core :: FieldValue.cores fs

def Range.cores : List Range → List Range
  | [] => []
  | .mk _ name start stop :: rs => .mk default name.core start.core stop.core :: Range.cores rs

end

mutual

def Stmt.core : Stmt → Stmt
  | .assert _ condition => .assert default condition.core
  | .assume _ condition => .assume default condition.core
  | .assign _ targets values => .assign default (targets.map (·.core)) (values.map (·.core))
  | .break _ => .break default
  | .continue _ => .continue default
  | .debug _ operand => .debug default operand.core
  | .doWhile _ condition invariants body =>
    .doWhile default condition.core (invariants.map (·.core)) body.core
  | .fail _ => .fail default
  | .ifElse _ condition trueBranch falseBranch =>
    .ifElse default condition.core trueBranch.core (Block.coreOption falseBranch)
  | .namedBlock _ name body => .namedBlock default name.core body.core
  | .return _ values => .return default (values.map (·.core))
  | .skip _ => .skip default
  | .switch _ condition cases => .switch default condition.core (Case.cores cases)
  | .while _ condition invariants body =>
    .while default condition.core (invariants.map (·.core)) body.core
  | .variable declared initialiser => .variable declared.core (initialiser.map (·.core))
  | .invocation call => .invocation call.core

def Stmt.cores : List Stmt → List Stmt
  | [] => []
  | s :: ss => s.core :: Stmt.cores ss

def Block.core : Block → Block
  | .mk _ statements => .mk default (Stmt.cores statements)

def Block.coreOption : Option Block → Option Block
  | none => none
  | some b => some b.core

def Case.cores : List Case → List Case
  | [] => []
  | .mk _ conditions body :: cs =>
    .mk default (conditions.map (·.core)) body.core :: Case.cores cs

end

def Routine.core (r : Routine) : Routine where
  modifiers := r.modifiers
  name := r.name.core
  parameters := r.parameters.map (·.core)
  returns := r.returns.map (·.core)
  requires := r.requires.map (·.core)
  ensures := r.ensures.map (·.core)
  body := r.body.core

def Decl.core : Decl → Decl
  | .imports _ path => .imports default (path.map (·.core))
  | .type _ modifiers name declared invariant =>
    .type default modifiers name.core declared.core (invariant.map (·.core))
  | .constant _ modifiers name value => .constant default modifiers name.core value.core
  | .function _ routine => .function default routine.core
  | .method _ lifetimes routine => .method default (lifetimes.map (·.core)) routine.core
  | .property _ modifiers name parameters invariant =>
    .property default modifiers name.core (parameters.map (·.core)) (invariant.map (·.core))

def Module.core (m : Module) : Module :=
  ⟨default, m.package, m.declarations.map (·.core)⟩

/-! ### Sameness as equality -/

section Outlines

variable {l l' n n' : String} {m m' : Mark} {e e' : Entry} {es es' : List Entry} {c c' : Content}
  {o o' : Outline} {os os' : List Outline}

@[simp]
theorem Outline.same_iff : (node l m es).same (node l' m' es') ↔ l = l' ∧ sameEntries es es' := by
  simp [same]

@[simp]
theorem Outline.sameEntries_iff : sameEntries (.mk n c :: es) (.mk n' c' :: es') ↔
    (n = n' ∧ c.same c') ∧ sameEntries es es' := by
  simp [sameEntries, Entry.same]

@[simp]
theorem Outline.sameEntries_nil : sameEntries [] [] := rfl

@[simp]
theorem Outline.sameNodes_cons :
    sameNodes (o :: os) (o' :: os') ↔ o.same o' ∧ sameNodes os os' := by
  simp [sameNodes]

@[simp]
theorem Outline.sameNodes_nil : sameNodes [] [] := rfl

@[simp]
theorem Outline.not_sameNodes_cons : ¬ sameNodes [] (o :: os) := nofun

@[simp]
theorem Outline.not_sameNodes_nil : ¬ sameNodes (o :: os) [] := nofun

@[simp]
theorem Content.same_absent : absent.same absent := rfl

@[simp]
theorem Content.same_text {s s' : String} : (text s).same (text s') ↔ s = s' := decide_eq_true_iff

@[simp]
theorem Content.same_flag {b b' : Bool} : (flag b).same (flag b') ↔ b = b' := decide_eq_true_iff

@[simp]
theorem Content.same_number {a b : Nat} : (number a).same (number b) ↔ a = b := decide_eq_true_iff

@[simp]
theorem Content.same_bytes {bs bs' : List UInt8} : (bytes bs).same (bytes bs') ↔ bs = bs' :=
  decide_eq_true_iff

@[simp]
theorem Content.same_words {ws ws' : List String} : (words ws).same (words ws') ↔ ws = ws' :=
  decide_eq_true_iff

@[simp]
theorem Content.same_link {t t' : Option Nat} : (link t).same (link t') := rfl

@[simp]
theorem Content.same_child : (child o).same (child o') ↔ o.same o' := Iff.rfl

@[simp]
theorem Content.same_children : (children os).same (children os') ↔ Outline.sameNodes os os' :=
  Iff.rfl

@[simp]
theorem Content.same_pairs : (pairs os).same (pairs os') ↔ Outline.sameNodes os os' := Iff.rfl

theorem Outline.label_eq_of_same (h : o.same o') : o.label = o'.label := by
  obtain ⟨l, m, es⟩ := o
  obtain ⟨l', m', es'⟩ := o'
  exact (same_iff.mp h).1

theorem Outline.same_of_alike {α : Type} {outline : α → Outline} {core : α → α} {kind : α → Nat}
    {labels : List String} (hlabel : ∀ a, labels.idxOf (outline a).label = kind a)
    (hcore : ∀ a, kind (core a) = kind a) {a a' : α}
    (h : kind a = kind a' → ((outline a).same (outline a') ↔ core a = core a')) :
    (outline a).same (outline a') ↔ core a = core a' := by
  by_cases hkind : kind a = kind a'
  · exact h hkind
  · refine iff_of_false (fun hsame => hkind ?_) fun hequal => hkind ?_
    · rw [← hlabel, label_eq_of_same hsame, hlabel]
    · rw [← hcore, hequal, hcore]

end Outlines

attribute [simp] TypeExpr.outline TypeExpr.outlines Field.outline Field.outlines

attribute [simp] TypeExpr.core TypeExpr.cores Field.cores

theorem Outline.sameNodes_map {α β : Type} {f : α → Outline} {g : α → β}
    (h : ∀ a a', (f a).same (f a') ↔ g a = g a') (as as' : List α) :
    sameNodes (as.map f) (as'.map f) ↔ as.map g = as'.map g := by
  induction as generalizing as' with
  | nil => cases as' <;> simp
  | cons a as ih => cases as' <;> simp [h, ih]

theorem Content.same_ofOption {α β : Type} {f : α → Outline} {g : α → β}
    (h : ∀ a a', (f a).same (f a') ↔ g a = g a') (o o' : Option α) :
    (ofOption (o.map f)).same (ofOption (o'.map f)) ↔ o.map g = o'.map g := by
  cases o <;> cases o' <;> simp [ofOption, same, h]

@[simp]
theorem Identifier.same_iff_core (i i' : Identifier) :
    i.outline.same i'.outline ↔ i.core = i'.core := by
  simp [outline, core]

@[simp]
theorem Content.same_ofIdentifiers (is is' : List Identifier) :
    (ofIdentifiers is).same (ofIdentifiers is') ↔ is.map (·.core) = is'.map (·.core) :=
  Outline.sameNodes_map Identifier.same_iff_core is is'

@[simp]
theorem Name.same_iff_core (n n' : Name) : n.outline.same n'.outline ↔ n.core = n'.core := by
  simp [outline, core, Outline.sameNodes_map Identifier.same_iff_core]

@[simp]
theorem Content.same_ofIdentifier (o o' : Option Identifier) :
    (ofOption (o.map (·.outline))).same (ofOption (o'.map (·.outline))) ↔
      o.map (·.core) = o'.map (·.core) :=
  same_ofOption Identifier.same_iff_core o o'

mutual

theorem TypeExpr.same_iff_core : ∀ t t' : TypeExpr, t.outline.same t'.outline ↔ t.core = t'.core
  | .primitive .., t' => by cases t' <;> simp
  | .array _ t, t' => by cases t' <;> simp [TypeExpr.same_iff_core t]
  | .list _ t, t' => by cases t' <;> simp [TypeExpr.same_iff_core t]
  | .record _ _ fs, t' => by cases t' <;> simp [Field.sameNodes_iff_cores fs]
  | .nominal .., t' => by cases t' <;> simp
  | .reference _ t _, t' => by cases t' <;> simp [TypeExpr.same_iff_core t]
  | .negation _ t, t' => by cases t' <;> simp [TypeExpr.same_iff_core t]
  | .union _ ts, t' => by cases t' <;> simp [TypeExpr.sameNodes_iff_cores ts]
  | .intersection _ ts, t' => by
    cases t' <;> simp [TypeExpr.sameNodes_iff_cores ts]
  | .function _ ts us, t' => by
    cases t' <;>
      simp [TypeExpr.sameNodes_iff_cores ts, TypeExpr.sameNodes_iff_cores us]
  | .method _ ts us _ _, t' => by
    cases t' <;>
      simp [TypeExpr.sameNodes_iff_cores ts, TypeExpr.sameNodes_iff_cores us]

theorem TypeExpr.sameNodes_iff_cores : ∀ ts ts' : List TypeExpr,
    Outline.sameNodes (TypeExpr.outlines ts) (TypeExpr.outlines ts') ↔
      TypeExpr.cores ts = TypeExpr.cores ts'
  | [], ts' => by cases ts' <;> simp
  | t :: ts, ts' => by
    cases ts' <;>
      simp [TypeExpr.same_iff_core t, TypeExpr.sameNodes_iff_cores ts]

theorem Field.sameNodes_iff_cores : ∀ fs fs' : List Field,
    Outline.sameNodes (Field.outlines fs) (Field.outlines fs') ↔ Field.cores fs = Field.cores fs'
  | [], fs' => by rcases fs' with _ | ⟨⟨_, _, _⟩, _⟩ <;> simp
  | .mk _ t _ :: fs, fs' => by
    rcases fs' with _ | ⟨⟨_, _, _⟩, _⟩ <;>
      simp [TypeExpr.same_iff_core t, Field.sameNodes_iff_cores fs]

end

attribute [simp] TypeExpr.same_iff_core

@[simp]
theorem Content.same_ofTypes (ts ts' : List TypeExpr) :
    Outline.sameNodes (ts.map TypeExpr.outline) (ts'.map TypeExpr.outline) ↔
      ts.map (·.core) = ts'.map (·.core) :=
  Outline.sameNodes_map TypeExpr.same_iff_core ts ts'

@[simp]
theorem Variable.same_iff_core (v v' : Variable) :
    v.outline.same v'.outline ↔ v.core = v'.core := by
  simp [outline, outlineWith, Content.ofOption, core]

@[simp]
theorem Content.same_ofVariables (vs vs' : List Variable) :
    (ofVariables vs).same (ofVariables vs') ↔ vs.map (·.core) = vs'.map (·.core) :=
  Outline.sameNodes_map Variable.same_iff_core vs vs'

@[simp]
theorem Content.same_ofLifetimes (ls ls' : Option (List Identifier)) :
    (ofLifetimes ls).same (ofLifetimes ls') ↔
      ls.map (·.map (·.core)) = ls'.map (·.map (·.core)) := by
  rcases ls with _ | is <;> rcases ls' with _ | is'
  · exact iff_of_true rfl rfl
  · exact iff_of_false Bool.false_ne_true nofun
  · exact iff_of_false Bool.false_ne_true nofun
  · simp [ofLifetimes]

@[simp]
theorem UnaryOp.spelling_inj (op op' : UnaryOp) : op.spelling = op'.spelling ↔ op = op' := by
  cases op <;> cases op' <;> decide

section Bytes

theorem toList_loop (bs : ByteArray) (i : Nat) (r : List UInt8) :
    ByteArray.toList.loop bs i r = r.reverse ++ bs.data.toList.drop i := by
  fun_induction ByteArray.toList.loop bs i r with
  | case1 i r hi ih =>
    have hlt : i < bs.data.toList.length := hi
    have hget : bs.get! i = bs.data.toList[i] := getElem!_pos bs.data i hi
    rw [ih, List.drop_eq_getElem_cons hlt, List.reverse_cons, List.append_assoc, hget]
    rfl
  | case2 i r hi =>
    have hle : bs.data.toList.length ≤ i := Nat.le_of_not_lt hi
    rw [List.drop_eq_nil_of_le hle, List.append_nil]

@[simp]
theorem toByteArray_toList_inj (s t : String) :
    s.toByteArray.toList = t.toByteArray.toList ↔ s = t := by
  refine ⟨fun h => ?_, fun h => h ▸ rfl⟩
  rw [ByteArray.toList, ByteArray.toList, toList_loop, toList_loop] at h
  exact String.toByteArray_inj.mp (ByteArray.ext (Array.toList_inj.mp h))

end Bytes

attribute [simp] Expr.outline Expr.outlines FieldValue.outlines Range.outline Range.outlines

attribute [simp] Expr.core Expr.cores FieldValue.cores Range.cores

def Expr.labels : List String :=
  ["NullLit", "BoolLit", "ByteLit", "CharLit", "IntLit", "StringLit", "VariableAccess",
    "StaticVariableAccess", "RecordAccess", "Dereference", "ArrayAccess", "ArrayLength",
    "ArrayInitialiser", "ArrayGenerator", "RecordInitialiser", "BinaryExpr", "UnaryExpr", "Is",
    "Cast", "Invoke", "IndirectInvoke", "Quantifier", "New", "LambdaInitialiser",
    "LambdaConstant"]

theorem Expr.idxOf_label (e : Expr) : Expr.labels.idxOf e.outline.label = e.ctorIdx := by
  cases e <;> rfl

theorem Expr.ctorIdx_core (e : Expr) : e.core.ctorIdx = e.ctorIdx := by
  cases e <;> rfl

theorem Expr.same_of_alike {e e' : Expr}
    (h : e.ctorIdx = e'.ctorIdx → (e.outline.same e'.outline ↔ e.core = e'.core)) :
    e.outline.same e'.outline ↔ e.core = e'.core :=
  Outline.same_of_alike Expr.idxOf_label Expr.ctorIdx_core h

mutual

theorem Expr.same_iff_core (e e' : Expr) : e.outline.same e'.outline ↔ e.core = e'.core :=
  Expr.same_of_alike fun h => match e, e', h with
  | .nullLit .., .nullLit .., _ => by simp
  | .boolLit .., .boolLit .., _ => by simp
  | .byteLit .., .byteLit .., _ => by simp
  | .charLit .., .charLit .., _ => by simp [Char.toNat_inj]
  | .intLit .., .intLit .., _ => by simp
  | .stringLit .., .stringLit .., _ => by simp
  | .variableAccess .., .variableAccess .., _ => by simp
  | .staticAccess .., .staticAccess .., _ => by simp
  | .recordAccess _ e _, .recordAccess .., _ => by simp [Expr.same_iff_core e]
  | .dereference _ e, .dereference .., _ => by simp [Expr.same_iff_core e]
  | .arrayAccess _ e i, .arrayAccess .., _ => by simp [Expr.same_iff_core e, Expr.same_iff_core i]
  | .arrayLength _ e, .arrayLength .., _ => by simp [Expr.same_iff_core e]
  | .arrayInitialiser _ es, .arrayInitialiser .., _ => by simp [Expr.sameNodes_iff_cores es]
  | .arrayGenerator _ e n, .arrayGenerator .., _ => by
    simp [Expr.same_iff_core e, Expr.same_iff_core n]
  | .recordInitialiser _ _ fs, .recordInitialiser .., _ => by
    simp [FieldValue.sameNodes_iff_cores fs]
  | .binary _ l _ r, .binary .., _ => by simp [Expr.same_iff_core l, Expr.same_iff_core r]
  | .unary _ _ e, .unary .., _ => by simp [Expr.same_iff_core e]
  | .isType _ e _, .isType .., _ => by simp [Expr.same_iff_core e]
  | .cast _ _ e, .cast .., _ => by simp [Expr.same_iff_core e]
  | .invoke _ _ _ es, .invoke .., _ => by simp [Expr.sameNodes_iff_cores es]
  | .indirectInvoke _ e _ es, .indirectInvoke .., _ => by
    simp [Expr.same_iff_core e, Expr.sameNodes_iff_cores es]
  | .quantifier _ _ rs e, .quantifier .., _ => by
    simp [Expr.same_iff_core e, Range.sameNodes_iff_cores rs]
  | .new _ e _, .new .., _ => by simp [Expr.same_iff_core e]
  | .lambda _ _ _ _ e, .lambda .., _ => by simp [Expr.same_iff_core e]
  | .lambdaConstant .., .lambdaConstant .., _ => by simp

theorem Expr.sameNodes_iff_cores : ∀ es es' : List Expr,
    Outline.sameNodes (Expr.outlines es) (Expr.outlines es') ↔ Expr.cores es = Expr.cores es'
  | [], es' => by cases es' <;> simp
  | e :: es, es' => by
    cases es' <;> simp [Expr.same_iff_core e, Expr.sameNodes_iff_cores es]

theorem FieldValue.sameNodes_iff_cores : ∀ fs fs' : List FieldValue,
    Outline.sameNodes (FieldValue.outlines fs) (FieldValue.outlines fs') ↔
      FieldValue.cores fs = FieldValue.cores fs'
  | [], fs' => by rcases fs' with _ | ⟨⟨_, _⟩, _⟩ <;> simp
  | .mk _ e :: fs, fs' => by
    rcases fs' with _ | ⟨⟨_, _⟩, _⟩ <;>
      simp [Expr.same_iff_core e, FieldValue.sameNodes_iff_cores fs, and_assoc]

theorem Range.sameNodes_iff_cores : ∀ rs rs' : List Range,
    Outline.sameNodes (Range.outlines rs) (Range.outlines rs') ↔ Range.cores rs = Range.cores rs'
  | [], rs' => by rcases rs' with _ | ⟨⟨_, _, _, _⟩, _⟩ <;> simp
  | .mk _ _ a b :: rs, rs' => by
    rcases rs' with _ | ⟨⟨_, _, _, _⟩, _⟩ <;>
      simp [Expr.same_iff_core a, Expr.same_iff_core b, Range.sameNodes_iff_cores rs]

end

attribute [simp] Expr.same_iff_core

@[simp]
theorem Content.same_ofExprs (es es' : List Expr) :
    (ofExprs es).same (ofExprs es') ↔ es.map (·.core) = es'.map (·.core) :=
  Outline.sameNodes_map Expr.same_iff_core es es'

@[simp]
theorem Content.same_ofExpr (o o' : Option Expr) :
    (ofOption (o.map Expr.outline)).same (ofOption (o'.map Expr.outline)) ↔
      o.map (·.core) = o'.map (·.core) :=
  same_ofOption Expr.same_iff_core o o'

attribute [simp] Stmt.outline Stmt.outlines Block.outline Block.outlineOption Case.outline
  Case.outlines Variable.outlineWith

attribute [simp] Stmt.core Stmt.cores Block.core Block.coreOption Case.cores

def Stmt.labels : List String :=
  ["Assert", "Assume", "Assign", "Break", "Continue", "Debug", "DoWhile", "Fail", "IfElse",
    "NamedBlock", "Return", "Skip", "Switch", "While", "Variable"]

theorem Stmt.idxOf_label (s : Stmt) : Stmt.labels.idxOf s.outline.label = s.ctorIdx := by
  cases s with
  | invocation call => cases call <;> rfl
  | _ => rfl

theorem Stmt.ctorIdx_core (s : Stmt) : s.core.ctorIdx = s.ctorIdx := by
  cases s <;> rfl

theorem Stmt.same_of_alike {s s' : Stmt}
    (h : s.ctorIdx = s'.ctorIdx → (s.outline.same s'.outline ↔ s.core = s'.core)) :
    s.outline.same s'.outline ↔ s.core = s'.core :=
  Outline.same_of_alike Stmt.idxOf_label Stmt.ctorIdx_core h

mutual

theorem Stmt.same_iff_core (s s' : Stmt) : s.outline.same s'.outline ↔ s.core = s'.core :=
  Stmt.same_of_alike fun h => match s, s', h with
  | .assert .., .assert .., _ => by simp
  | .assume .., .assume .., _ => by simp
  | .assign .., .assign .., _ => by simp
  | .break .., .break .., _ => by simp
  | .continue .., .continue .., _ => by simp
  | .debug .., .debug .., _ => by simp
  | .doWhile _ _ _ b, .doWhile .., _ => by simp [Block.same_iff_core b]
  | .fail .., .fail .., _ => by simp
  | .ifElse _ _ b c, .ifElse .., _ => by simp [Block.same_iff_core b, Block.sameOption_iff_core c]
  | .namedBlock _ _ b, .namedBlock .., _ => by simp [Block.same_iff_core b]
  | .return .., .return .., _ => by simp
  | .skip .., .skip .., _ => by simp
  | .switch _ _ cs, .switch .., _ => by simp [Case.sameNodes_iff_cores cs]
  | .while _ _ _ b, .while .., _ => by simp [Block.same_iff_core b]
  | .variable .., .variable .., _ => by simp [Variable.core, and_assoc]
  | .invocation .., .invocation .., _ => by simp

theorem Stmt.sameNodes_iff_cores : ∀ ss ss' : List Stmt,
    Outline.sameNodes (Stmt.outlines ss) (Stmt.outlines ss') ↔ Stmt.cores ss = Stmt.cores ss'
  | [], ss' => by cases ss' <;> simp
  | s :: ss, ss' => by cases ss' <;> simp [Stmt.same_iff_core s, Stmt.sameNodes_iff_cores ss]

theorem Block.same_iff_core : ∀ b b' : Block, b.outline.same b'.outline ↔ b.core = b'.core
  | .mk _ ss, .mk _ ss' => by simp [Stmt.sameNodes_iff_cores ss]

theorem Block.sameOption_iff_core : ∀ b b' : Option Block,
    (Content.ofOption (Block.outlineOption b)).same (Content.ofOption (Block.outlineOption b')) ↔
      Block.coreOption b = Block.coreOption b'
  | none, b' => by cases b' <;> simp [Content.ofOption, Content.same]
  | some b, b' => by cases b' <;> simp [Content.ofOption, Content.same, Block.same_iff_core b]

theorem Case.sameNodes_iff_cores : ∀ cs cs' : List Case,
    Outline.sameNodes (Case.outlines cs) (Case.outlines cs') ↔ Case.cores cs = Case.cores cs'
  | [], cs' => by rcases cs' with _ | ⟨⟨_, _, _⟩, _⟩ <;> simp
  | .mk _ _ b :: cs, cs' => by
    rcases cs' with _ | ⟨⟨_, _, _⟩, _⟩ <;>
      simp [Block.same_iff_core b, Case.sameNodes_iff_cores cs]

end

attribute [simp] Block.same_iff_core

theorem Decl.same_iff_core (d d' : Decl) : d.same d' ↔ d.core = d'.core := by
  cases d <;> cases d' <;>
    simp [same, outline, core, Routine.entries, Routine.core, and_left_comm]

theorem Module.same_iff_core (m m' : Module) : m.same m' ↔ m.core = m'.core := by
  simp [same, outline, core, Outline.sameNodes_map Decl.same_iff_core]

end Whiley
