import Whiley.Proofs.Grammar.FormedDecls

namespace Whiley

mutual

def TypeExpr.Static : TypeExpr → Prop
  | .primitive _ _ => True
  | .array _ element => element.Static
  | .list _ element => element.Static
  | .record _ _ fields => (fields.map (·.name.text)).Nodup ∧ Field.AllStatic fields
  | .nominal _ _ => True
  | .reference _ element _ => element.Static
  | .negation _ element => element.Static
  | .union _ operands => 2 ≤ operands.length ∧ TypeExpr.AllStatic operands
  | .intersection _ operands => 2 ≤ operands.length ∧ TypeExpr.AllStatic operands
  | .function _ parameters returns => TypeExpr.AllStatic parameters ∧ TypeExpr.AllStatic returns
  | .method _ parameters returns _ _ => TypeExpr.AllStatic parameters ∧ TypeExpr.AllStatic returns

def TypeExpr.AllStatic : List TypeExpr → Prop
  | [] => True
  | t :: ts => t.Static ∧ TypeExpr.AllStatic ts

def Field.AllStatic : List Field → Prop
  | [] => True
  | .mk _ type _ :: fs => type.Static ∧ Field.AllStatic fs

end

def Variable.Static (v : Variable) : Prop :=
  v.type.Static

mutual

def Expr.Static : Expr → Prop
  | .nullLit _ => True
  | .boolLit _ _ => True
  | .byteLit _ _ => True
  | .charLit _ _ => True
  | .intLit _ _ => True
  | .stringLit _ _ => True
  | .variableAccess _ _ _ => True
  | .staticAccess _ _ => True
  | .recordAccess _ source _ => source.Static
  | .dereference _ operand => operand.Static
  | .arrayAccess _ source index => source.Static ∧ index.Static
  | .arrayLength _ operand => operand.Static
  | .arrayInitialiser _ elements => Expr.AllStatic elements
  | .arrayGenerator _ element length => element.Static ∧ length.Static
  | .recordInitialiser _ _ fields =>
    (fields.map (·.name.text)).Nodup ∧ FieldValue.AllStatic fields
  | .binary _ left _ right => left.Static ∧ right.Static
  | .unary _ _ operand => operand.Static
  | .isType _ operand type => operand.Static ∧ type.Static
  | .cast _ type operand => type.Static ∧ operand.Static
  | .invoke _ _ _ arguments => Expr.AllStatic arguments
  | .indirectInvoke _ source _ arguments => source.Static ∧ Expr.AllStatic arguments
  | .quantifier _ _ ranges condition => Range.AllStatic ranges ∧ condition.Static
  | .new _ operand _ => operand.Static
  | .lambda _ parameters _ _ body => (∀ v ∈ parameters, v.Static) ∧ body.Static
  | .lambdaConstant _ _ parameterTypes => TypeExpr.AllStatic parameterTypes

def Expr.AllStatic : List Expr → Prop
  | [] => True
  | e :: es => e.Static ∧ Expr.AllStatic es

def FieldValue.AllStatic : List FieldValue → Prop
  | [] => True
  | .mk _ value :: fs => value.Static ∧ FieldValue.AllStatic fs

def Range.AllStatic : List Range → Prop
  | [] => True
  | .mk _ _ start stop :: rs => start.Static ∧ stop.Static ∧ Range.AllStatic rs

end

/-- What can be assigned to; the indices on the way are expressions of any form. -/
def Expr.IsPlace : Expr → Prop
  | .variableAccess _ _ _ => True
  | .recordAccess _ source _ => source.IsPlace
  | .dereference _ operand => operand.IsPlace
  | .arrayAccess _ source index => source.IsPlace ∧ index.Static
  | _ => False

mutual

/-- `true` stands for the body of a loop, whatever other statements are around it there. -/
def Stmt.Static : Bool → Stmt → Prop
  | _, .assert _ condition => condition.Static
  | _, .assume _ condition => condition.Static
  | _, .assign _ targets values => (∀ t ∈ targets, t.IsPlace) ∧ ∀ v ∈ values, v.Static
  | inLoop, .break _ => inLoop
  | inLoop, .continue _ => inLoop
  | _, .debug _ operand => operand.Static
  | _, .doWhile _ condition invariants body =>
    condition.Static ∧ (∀ e ∈ invariants, e.Static) ∧ body.Static true
  | _, .fail _ => True
  | inLoop, .ifElse _ condition trueBranch falseBranch =>
    condition.Static ∧ trueBranch.Static inLoop ∧ Block.OptionStatic inLoop falseBranch
  | inLoop, .namedBlock _ _ body => body.Static inLoop
  | _, .return _ values => ∀ v ∈ values, v.Static
  | _, .skip _ => True
  | inLoop, .switch _ condition cases =>
    condition.Static ∧ (∀ c ∈ cases.dropLast, c.conditions ≠ []) ∧ Case.AllStatic inLoop cases
  | _, .while _ condition invariants body =>
    condition.Static ∧ (∀ e ∈ invariants, e.Static) ∧ body.Static true
  | _, .variable declared initialiser =>
    declared.Static ∧ ∀ e, initialiser = some e → e.Static
  | _, .invocation call => call.Static

def Stmt.AllStatic : Bool → List Stmt → Prop
  | _, [] => True
  | inLoop, st :: sts => st.Static inLoop ∧ Stmt.AllStatic inLoop sts

def Block.Static : Bool → Block → Prop
  | inLoop, .mk _ statements => Stmt.AllStatic inLoop statements

def Block.OptionStatic : Bool → Option Block → Prop
  | _, none => True
  | inLoop, some b => b.Static inLoop

def Case.AllStatic : Bool → List Case → Prop
  | _, [] => True
  | inLoop, .mk _ conditions body :: cs =>
    (∀ e ∈ conditions, e.Static) ∧ body.Static inLoop ∧ Case.AllStatic inLoop cs

end

/-- At most one modifier says who sees the declaration. -/
def ModifiersStatic (modifiers : List String) : Prop :=
  modifiers.count "public" + modifiers.count "private" ≤ 1

def Routine.Static (r : Routine) : Prop :=
  ModifiersStatic r.modifiers ∧ (∀ v ∈ r.parameters, v.Static) ∧ (∀ v ∈ r.returns, v.Static) ∧
    (∀ e ∈ r.requires, e.Static) ∧ (∀ e ∈ r.ensures, e.Static) ∧ r.body.Static false

def Decl.Static : Decl → Prop
  | .imports _ _ => True
  | .type _ modifiers _ declared invariant =>
    ModifiersStatic modifiers ∧ declared.Static ∧ ∀ e ∈ invariant, e.Static
  | .constant _ modifiers _ value => ModifiersStatic modifiers ∧ value.Static
  | .function _ routine => routine.Static
  | .method _ _ routine => routine.Static
  | .property _ modifiers _ parameters invariant =>
    ModifiersStatic modifiers ∧ (∀ v ∈ parameters, v.Static) ∧ ∀ e ∈ invariant, e.Static

def Module.Static (m : Module) : Prop :=
  ∀ d ∈ m.declarations, d.Static

mutual

theorem TypeExpr.Formed.static {s : Scope} : (t : TypeExpr) → t.Formed s → t.Static
  | .primitive _ _, _ => trivial
  | .array _ element, h => TypeExpr.Formed.static element h
  | .list _ element, h => TypeExpr.Formed.static element h
  | .record _ _ fields, ⟨_, hdistinct, hfields⟩ => ⟨hdistinct, Field.AllFormed.static fields hfields⟩
  | .nominal _ _, _ => trivial
  | .reference _ element _, ⟨_, h⟩ => TypeExpr.Formed.static element h
  | .negation _ element, h => TypeExpr.Formed.static element h
  | .union _ operands, ⟨htwo, h⟩ => ⟨htwo, TypeExpr.AllFormed.static operands h⟩
  | .intersection _ operands, ⟨htwo, h⟩ => ⟨htwo, TypeExpr.AllFormed.static operands h⟩
  | .function _ parameters returns, ⟨hparameters, hreturns⟩ =>
    ⟨TypeExpr.AllFormed.static parameters hparameters, TypeExpr.AllFormed.static returns hreturns⟩
  | .method _ parameters returns _ _, ⟨_, _, hparameters, hreturns⟩ =>
    ⟨TypeExpr.AllFormed.static parameters hparameters, TypeExpr.AllFormed.static returns hreturns⟩

theorem TypeExpr.AllFormed.static {s : Scope} :
    (ts : List TypeExpr) → TypeExpr.AllFormed s ts → TypeExpr.AllStatic ts
  | [], _ => trivial
  | t :: ts, ⟨ht, hts⟩ => ⟨TypeExpr.Formed.static t ht, TypeExpr.AllFormed.static ts hts⟩

theorem Field.AllFormed.static {s : Scope} :
    (fs : List Field) → Field.AllFormed s fs → Field.AllStatic fs
  | [], _ => trivial
  | .mk _ type _ :: fs, ⟨htype, _, hfs⟩ =>
    ⟨TypeExpr.Formed.static type htype, Field.AllFormed.static fs hfs⟩

end

theorem Scope.AdmitsVariables.static {a : Arena Node} {s : Scope} {vs : List Variable}
    (h : s.AdmitsVariables a vs) : ∀ v ∈ vs, v.Static := by
  induction vs generalizing s with
  | nil => exact fun v hv => absurd hv List.not_mem_nil
  | cons v vs ih =>
    obtain ⟨htype, -, -, hrest⟩ := h
    exact List.forall_mem_cons.mpr ⟨TypeExpr.Formed.static v.type htype, ih hrest⟩

theorem Expr.IsOwner.static {s : Scope} {field : Identifier} {source : Expr}
    (h : source.IsOwner s field) : source.Static := by
  obtain ⟨-, -, m, d, rfl⟩ := h
  trivial

mutual

theorem Expr.Formed.static {a : Arena Node} {s : Scope} : (e : Expr) → e.Formed a s → e.Static
  | .nullLit _, _ => trivial
  | .boolLit _ _, _ => trivial
  | .byteLit _ _, _ => trivial
  | .charLit _ _, _ => trivial
  | .intLit _ _, _ => trivial
  | .stringLit _ _, _ => trivial
  | .variableAccess _ _ _, _ => trivial
  | .staticAccess _ _, _ => trivial
  | .recordAccess _ source _, ⟨_, h⟩ => h.elim Expr.IsOwner.static (Expr.Formed.static source)
  | .dereference _ operand, h => Expr.Formed.static operand h
  | .arrayAccess _ source index, ⟨hsource, hindex⟩ =>
    ⟨Expr.Formed.static source hsource, Expr.Formed.static index hindex⟩
  | .arrayLength _ operand, h => Expr.Formed.static operand h
  | .arrayInitialiser _ elements, h => Expr.AllFormed.static elements h
  | .arrayGenerator _ element length, ⟨helement, hlength⟩ =>
    ⟨Expr.Formed.static element helement, Expr.Formed.static length hlength⟩
  | .recordInitialiser _ _ fields, ⟨_, hdistinct, hfields⟩ =>
    ⟨hdistinct, FieldValue.AllFormed.static fields hfields⟩
  | .binary _ left _ right, ⟨_, hleft, hright⟩ =>
    ⟨Expr.Formed.static left hleft, Expr.Formed.static right hright⟩
  | .unary _ _ operand, h => Expr.Formed.static operand h
  | .isType _ operand type, ⟨hoperand, htype⟩ =>
    ⟨Expr.Formed.static operand hoperand, TypeExpr.Formed.static type htype⟩
  | .cast _ type operand, ⟨htype, hoperand⟩ =>
    ⟨TypeExpr.Formed.static type htype, Expr.Formed.static operand hoperand⟩
  | .invoke _ _ _ arguments, ⟨_, _, h⟩ => Expr.AllFormed.static arguments h
  | .indirectInvoke _ source _ arguments, ⟨hsource, _, harguments⟩ =>
    ⟨Expr.Formed.static source hsource, Expr.AllFormed.static arguments harguments⟩
  | .quantifier _ _ ranges condition, ⟨_, _, hranges, hcondition⟩ =>
    ⟨Range.AllFormed.static ranges hranges, Expr.Formed.static condition hcondition⟩
  | .new _ operand _, ⟨_, _, h⟩ => Expr.Formed.static operand h
  | .lambda _ _ _ _ body, ⟨_, _, hparameters, hbody⟩ =>
    ⟨hparameters.2.static, Expr.Formed.static body hbody⟩
  | .lambdaConstant _ _ parameterTypes, ⟨_, h⟩ => TypeExpr.AllFormed.static parameterTypes h

theorem Expr.AllFormed.static {a : Arena Node} {s : Scope} :
    (es : List Expr) → Expr.AllFormed a s es → Expr.AllStatic es
  | [], _ => trivial
  | e :: es, ⟨he, hes⟩ => ⟨Expr.Formed.static e he, Expr.AllFormed.static es hes⟩

theorem FieldValue.AllFormed.static {a : Arena Node} {s : Scope} :
    (fs : List FieldValue) → FieldValue.AllFormed a s fs → FieldValue.AllStatic fs
  | [], _ => trivial
  | .mk _ value :: fs, ⟨_, hvalue, hfs⟩ =>
    ⟨Expr.Formed.static value hvalue, FieldValue.AllFormed.static fs hfs⟩

theorem Range.AllFormed.static {a : Arena Node} {s : Scope} :
    (rs : List Range) → Range.AllFormed a s rs → Range.AllStatic rs
  | [], _ => trivial
  | .mk _ _ start stop :: rs, ⟨_, _, hstart, hstop, _, hrs⟩ =>
    ⟨Expr.Formed.static start hstart, Expr.Formed.static stop hstop,
      Range.AllFormed.static rs hrs⟩

end

theorem Expr.FormedTarget.isPlace {a : Arena Node} {s : Scope} :
    (e : Expr) → e.FormedTarget a s → e.IsPlace
  | .variableAccess _ _ _, _ => trivial
  | .recordAccess _ source _, ⟨_, h⟩ => Expr.FormedTarget.isPlace source h
  | .dereference _ operand, h => Expr.FormedTarget.isPlace operand h
  | .arrayAccess _ source index, ⟨hsource, hindex⟩ =>
    ⟨Expr.FormedTarget.isPlace source hsource, Expr.Formed.static index hindex⟩

theorem Stmt.inLoop_after (s : Scope) (st : Stmt) : (st.after s).inLoop = s.inLoop := by
  cases st <;> rfl

mutual

theorem Stmt.Formed.static {a : Arena Node} {s : Scope} :
    (st : Stmt) → st.Formed a s → st.Static s.inLoop
  | .assert _ condition, h => Expr.Formed.static condition h
  | .assume _ condition, h => Expr.Formed.static condition h
  | .assign _ _ _, ⟨_, _, htargets, hvalues⟩ =>
    ⟨fun t ht => Expr.FormedTarget.isPlace t (htargets t ht),
      fun v hv => Expr.Formed.static v (hvalues v hv)⟩
  | .break _, h => h
  | .continue _, h => h
  | .debug _ operand, h => Expr.Formed.static operand h
  | .doWhile _ condition _ body, ⟨hcondition, hinvariants, hbody⟩ =>
    ⟨Expr.Formed.static condition hcondition, fun e he => Expr.Formed.static e (hinvariants e he),
      Block.Formed.static body hbody⟩
  | .fail _, _ => trivial
  | .ifElse _ condition trueBranch falseBranch, ⟨hcondition, htrue, hfalse⟩ =>
    ⟨Expr.Formed.static condition hcondition, Block.Formed.static trueBranch htrue,
      Block.OptionFormed.static falseBranch hfalse⟩
  | .namedBlock _ _ body, ⟨_, _, hbody⟩ => Block.Formed.static body hbody
  | .return _ _, h => fun v hv => Expr.Formed.static v (h v hv)
  | .skip _, _ => trivial
  | .switch _ condition cases, ⟨hcondition, hlast, i, hcases⟩ =>
    ⟨Expr.Formed.static condition hcondition,
      fun c hc hempty => hlast c hc (List.isEmpty_iff.mpr hempty),
      Case.AllFormed.static (s := s.deeper i) cases hcases⟩
  | .while _ condition _ body, ⟨hcondition, hinvariants, hbody⟩ =>
    ⟨Expr.Formed.static condition hcondition, fun e he => Expr.Formed.static e (hinvariants e he),
      Block.Formed.static body hbody⟩
  | .variable declared _, ⟨_, htype, _, _, hinitialiser⟩ =>
    ⟨TypeExpr.Formed.static declared.type htype,
      fun e he => Expr.Formed.static e (hinitialiser e he)⟩
  | .invocation call, ⟨_, h⟩ => Expr.Formed.static call h

theorem Stmt.SequenceFormed.static {a : Arena Node} {s : Scope} :
    (sts : List Stmt) → Stmt.SequenceFormed a s sts → Stmt.AllStatic s.inLoop sts
  | [], _ => trivial
  | st :: sts, ⟨hst, hsts⟩ => by
    have hrest := Stmt.SequenceFormed.static sts hsts
    rw [Stmt.inLoop_after] at hrest
    exact ⟨Stmt.Formed.static st hst, hrest⟩

theorem Block.Formed.static {a : Arena Node} {s : Scope} {inLoop : Bool} :
    (b : Block) → b.Formed a s inLoop → b.Static inLoop
  | .mk _ statements, ⟨i, h⟩ =>
    Stmt.SequenceFormed.static (s := (s.deeper i).looping inLoop) statements h

theorem Block.OptionFormed.static {a : Arena Node} {s : Scope} {inLoop : Bool} :
    (b : Option Block) → Block.OptionFormed a s inLoop b → Block.OptionStatic inLoop b
  | none, _ => trivial
  | some b, h => Block.Formed.static b h

theorem Case.AllFormed.static {a : Arena Node} {s : Scope} :
    (cs : List Case) → Case.AllFormed a s cs → Case.AllStatic s.inLoop cs
  | [], _ => trivial
  | .mk _ _ body :: cs, ⟨hconditions, hbody, hcs⟩ =>
    ⟨fun e he => Expr.Formed.static e (hconditions e he), Block.Formed.static body hbody,
      Case.AllFormed.static cs hcs⟩

end

theorem count_public_private (modifiers : List String) :
    modifiers.count "public" + modifiers.count "private" =
      (modifiers.filter fun m => m = "public" || m = "private").length := by
  induction modifiers with
  | nil => rfl
  | cons m ms ih =>
    by_cases hpublic : m = "public"
    · subst hpublic
      simp [← ih, Nat.add_right_comm]
    · by_cases hprivate : m = "private"
      · subst hprivate
        simp [← ih, Nat.add_assoc]
      · simp [hpublic, hprivate, ← ih]

theorem ModifiersFormed.static {modifiers : List String} (h : ModifiersFormed modifiers) :
    ModifiersStatic modifiers :=
  (count_public_private modifiers).trans_le h.2

theorem Routine.Formed.static {a : Arena Node} {s : Scope} {r : Routine} (h : r.Formed a s) :
    r.Static := by
  obtain ⟨hmodifiers, -, hparameters, hreturns, hrequires, hensures, hbody⟩ := h
  exact ⟨hmodifiers.static, hparameters.2.static, hreturns.2.static,
    fun e he => Expr.Formed.static e (hrequires e he),
    fun e he => Expr.Formed.static e (hensures e he), Block.Formed.static r.body hbody⟩

theorem Decl.Formed.static {a : Arena Node} {d : Decl} (h : d.Formed a) : d.Static := by
  cases d with
  | imports m path => trivial
  | type m modifiers name declared invariant =>
    obtain ⟨hmodifiers, -, hdeclared, hinvariant⟩ := h
    exact ⟨hmodifiers.static, hdeclared.2.static declared List.mem_cons_self,
      fun e he => Expr.Formed.static e (hinvariant e he)⟩
  | constant m modifiers name value => exact ⟨h.1.static, Expr.Formed.static value h.2.2⟩
  | function m routine => exact Routine.Formed.static h
  | method m lifetimes routine => exact Routine.Formed.static h.2
  | property m modifiers name parameters invariant =>
    obtain ⟨hmodifiers, -, hparameters, hinvariant⟩ := h
    exact ⟨hmodifiers.static, hparameters.2.static,
      fun e he => Expr.Formed.static e (hinvariant e he)⟩

theorem parse_static {source : String} {tokens : List Token} {m : Module} {arena : Arena Node}
    (hlex : lex source = .ok tokens) (hparse : parse tokens = .ok (m, arena)) : m.Static :=
  fun d hd => Decl.Formed.static ((parse_formed hlex hparse).2 d hd)

def searchSource : String :=
  "function f(int x):\n  while x > 0:\n    switch x:\n      case 1:\n        break\n" ++
    "      default:\n        x = x - 1\n"

theorem parse_static_search : ∃ tokens m arena,
    lex searchSource = .ok tokens ∧ parse tokens = .ok (m, arena) ∧ m.Static :=
  ⟨_, _, _, rfl, rfl, @parse_static searchSource _ _ _ rfl rfl⟩

end Whiley
