import Whiley.Proofs.Grammar.FormedDecls

/-!
Lifetimes as a pass of their own over a tree: every lifetime of a reference type or an allocation is
declared around it. A lambda sees what it captures and no other lifetime from outside, and its
captures count as declarations: they are not looked up. Every parsed module passes.
-/

namespace Whiley

/-- The lifetimes that are declared at a point. -/
abbrev Lifetimes := List String

namespace Lifetimes

def Has (env : Lifetimes) (l : Identifier) : Prop :=
  l.text = "*" ∨ l.text ∈ env

def declare (env : Lifetimes) (l : Identifier) : Lifetimes :=
  l.text :: env

def declareAll (env : Lifetimes) (ls : List Identifier) : Lifetimes :=
  ls.foldl declare env

end Lifetimes

mutual

def TypeExpr.Alive : Lifetimes → TypeExpr → Prop
  | _, .primitive _ _ => True
  | env, .array _ element => element.Alive env
  | env, .list _ element => element.Alive env
  | env, .record _ _ fields => Field.AllAlive env fields
  | _, .nominal _ _ => True
  | env, .reference _ element lifetime =>
    (∀ l, lifetime = some l → env.Has l) ∧ element.Alive env
  | env, .negation _ element => element.Alive env
  | env, .union _ operands => TypeExpr.AllAlive env operands
  | env, .intersection _ operands => TypeExpr.AllAlive env operands
  | env, .function _ parameters returns =>
    TypeExpr.AllAlive env parameters ∧ TypeExpr.AllAlive env returns
  | env, .method _ parameters returns _ lifetimes =>
    TypeExpr.AllAlive (env.declareAll lifetimes) parameters ∧
      TypeExpr.AllAlive (env.declareAll lifetimes) returns

def TypeExpr.AllAlive : Lifetimes → List TypeExpr → Prop
  | _, [] => True
  | env, t :: ts => t.Alive env ∧ TypeExpr.AllAlive env ts

def Field.AllAlive : Lifetimes → List Field → Prop
  | _, [] => True
  | env, .mk _ type _ :: fs => type.Alive env ∧ Field.AllAlive env fs

end

def Variable.Alive (env : Lifetimes) (v : Variable) : Prop :=
  v.type.Alive env

mutual

def Expr.Alive : Lifetimes → Expr → Prop
  | _, .nullLit _ => True
  | _, .boolLit _ _ => True
  | _, .byteLit _ _ => True
  | _, .charLit _ _ => True
  | _, .intLit _ _ => True
  | _, .stringLit _ _ => True
  | _, .variableAccess _ _ _ => True
  | _, .staticAccess _ _ => True
  | env, .recordAccess _ source _ => source.Alive env
  | env, .dereference _ operand => operand.Alive env
  | env, .arrayAccess _ source index => source.Alive env ∧ index.Alive env
  | env, .arrayLength _ operand => operand.Alive env
  | env, .arrayInitialiser _ elements => Expr.AllAlive env elements
  | env, .arrayGenerator _ element length => element.Alive env ∧ length.Alive env
  | env, .recordInitialiser _ _ fields => FieldValue.AllAlive env fields
  | env, .binary _ left _ right => left.Alive env ∧ right.Alive env
  | env, .unary _ _ operand => operand.Alive env
  | env, .isType _ operand type => operand.Alive env ∧ type.Alive env
  | env, .cast _ type operand => type.Alive env ∧ operand.Alive env
  | env, .invoke _ _ _ arguments => Expr.AllAlive env arguments
  | env, .indirectInvoke _ source _ arguments => source.Alive env ∧ Expr.AllAlive env arguments
  | env, .quantifier _ _ ranges condition => Range.AllAlive env ranges ∧ condition.Alive env
  | env, .new _ operand lifetime => env.Has lifetime ∧ operand.Alive env
  | _, .lambda _ parameters captures lifetimes body =>
    let inner := Lifetimes.declareAll (captures.map (·.text)) lifetimes
    (∀ v ∈ parameters, v.Alive inner) ∧ body.Alive inner
  | env, .lambdaConstant _ _ parameterTypes => TypeExpr.AllAlive env parameterTypes

def Expr.AllAlive : Lifetimes → List Expr → Prop
  | _, [] => True
  | env, e :: es => e.Alive env ∧ Expr.AllAlive env es

def FieldValue.AllAlive : Lifetimes → List FieldValue → Prop
  | _, [] => True
  | env, .mk _ value :: fs => value.Alive env ∧ FieldValue.AllAlive env fs

def Range.AllAlive : Lifetimes → List Range → Prop
  | _, [] => True
  | env, .mk _ _ start stop :: rs => start.Alive env ∧ stop.Alive env ∧ Range.AllAlive env rs

end

mutual

def Stmt.Alive : Lifetimes → Stmt → Prop
  | env, .assert _ condition => condition.Alive env
  | env, .assume _ condition => condition.Alive env
  | env, .assign _ targets values => (∀ t ∈ targets, t.Alive env) ∧ ∀ v ∈ values, v.Alive env
  | _, .break _ => True
  | _, .continue _ => True
  | env, .debug _ operand => operand.Alive env
  | env, .doWhile _ condition invariants body =>
    condition.Alive env ∧ (∀ e ∈ invariants, e.Alive env) ∧ body.Alive env
  | _, .fail _ => True
  | env, .ifElse _ condition trueBranch falseBranch =>
    condition.Alive env ∧ trueBranch.Alive env ∧ Block.OptionAlive env falseBranch
  | env, .namedBlock _ name body => body.Alive (env.declare name)
  | env, .return _ values => ∀ v ∈ values, v.Alive env
  | _, .skip _ => True
  | env, .switch _ condition cases => condition.Alive env ∧ Case.AllAlive env cases
  | env, .while _ condition invariants body =>
    condition.Alive env ∧ (∀ e ∈ invariants, e.Alive env) ∧ body.Alive env
  | env, .variable declared initialiser =>
    declared.Alive env ∧ ∀ e, initialiser = some e → e.Alive env
  | env, .invocation call => call.Alive env

def Stmt.AllAlive : Lifetimes → List Stmt → Prop
  | _, [] => True
  | env, st :: sts => st.Alive env ∧ Stmt.AllAlive env sts

def Block.Alive : Lifetimes → Block → Prop
  | env, .mk _ statements => Stmt.AllAlive env statements

def Block.OptionAlive : Lifetimes → Option Block → Prop
  | _, none => True
  | env, some b => b.Alive env

def Case.AllAlive : Lifetimes → List Case → Prop
  | _, [] => True
  | env, .mk _ conditions body :: cs =>
    (∀ e ∈ conditions, e.Alive env) ∧ body.Alive env ∧ Case.AllAlive env cs

end

/-- Only the body can name `this`. -/
def Routine.Alive (env : Lifetimes) (r : Routine) : Prop :=
  (∀ v ∈ r.parameters, v.Alive env) ∧ (∀ v ∈ r.returns, v.Alive env) ∧
    (∀ e ∈ r.requires, e.Alive env) ∧ (∀ e ∈ r.ensures, e.Alive env) ∧ r.body.Alive ("this" :: env)

def Decl.Alive : Decl → Prop
  | .imports _ _ => True
  | .type _ _ _ declared invariant => declared.Alive [] ∧ ∀ e ∈ invariant, e.Alive []
  | .constant _ _ _ value => value.Alive []
  | .function _ routine => routine.Alive []
  | .method _ lifetimes routine => routine.Alive (Lifetimes.declareAll [] lifetimes)
  | .property _ _ _ parameters invariant =>
    (∀ v ∈ parameters, v.Alive []) ∧ ∀ e ∈ invariant, e.Alive []

def Module.Alive (m : Module) : Prop :=
  ∀ d ∈ m.declarations, d.Alive

namespace Scope

variable {s : Scope}

theorem has_of_isLifetime {l : Identifier} (h : s.isLifetime l.text) :
    Lifetimes.Has s.lifetimes l := by
  rw [isLifetime, Bool.or_eq_true, decide_eq_true_eq, decide_eq_true_eq] at h
  exact h

theorem lifetimes_addLifetimes (s : Scope) (ls : List Identifier) :
    (s.addLifetimes ls).lifetimes = Lifetimes.declareAll s.lifetimes ls := by
  induction ls generalizing s with
  | nil => rfl
  | cons l ls ih => exact ih (s.addLifetime l)

theorem lifetimes_addVariables (s : Scope) (vs : List Variable) :
    (s.addVariables vs).lifetimes = s.lifetimes := by
  induction vs generalizing s with
  | nil => rfl
  | cons v vs ih => exact ih (s.addVariable v)

theorem lifetimes_declareAliases (s : Scope) (fields : List Identifier) :
    (fields.foldl declareAlias s).lifetimes = s.lifetimes := by
  induction fields generalizing s with
  | nil => rfl
  | cons i fields ih => exact ih (s.declareAlias i)

theorem lifetimes_ofDeclared (v : Variable) : (Scope.ofDeclared v).lifetimes = [] :=
  lifetimes_declareAliases _ _

end Scope

mutual

theorem TypeExpr.Formed.alive {s : Scope} : (t : TypeExpr) → t.Formed s → t.Alive s.lifetimes
  | .primitive _ _, _ => trivial
  | .array _ element, h => TypeExpr.Formed.alive element h
  | .list _ element, h => TypeExpr.Formed.alive element h
  | .record _ _ fields, ⟨_, _, hfields⟩ => Field.AllFormed.alive fields hfields
  | .nominal _ _, _ => trivial
  | .reference _ element _, ⟨hlifetime, h⟩ =>
    ⟨fun l hl => Scope.has_of_isLifetime (hlifetime l hl).2, TypeExpr.Formed.alive element h⟩
  | .negation _ element, h => TypeExpr.Formed.alive element h
  | .union _ operands, ⟨_, h⟩ => TypeExpr.AllFormed.alive operands h
  | .intersection _ operands, ⟨_, h⟩ => TypeExpr.AllFormed.alive operands h
  | .function _ parameters returns, ⟨hparameters, hreturns⟩ =>
    ⟨TypeExpr.AllFormed.alive parameters hparameters, TypeExpr.AllFormed.alive returns hreturns⟩
  | .method _ parameters returns _ lifetimes, ⟨_, _, hparameters, hreturns⟩ => by
    have hparameters := TypeExpr.AllFormed.alive parameters hparameters
    have hreturns := TypeExpr.AllFormed.alive returns hreturns
    rw [Scope.lifetimes_addLifetimes] at hparameters hreturns
    exact ⟨hparameters, hreturns⟩

theorem TypeExpr.AllFormed.alive {s : Scope} :
    (ts : List TypeExpr) → TypeExpr.AllFormed s ts → TypeExpr.AllAlive s.lifetimes ts
  | [], _ => trivial
  | t :: ts, ⟨ht, hts⟩ => ⟨TypeExpr.Formed.alive t ht, TypeExpr.AllFormed.alive ts hts⟩

theorem Field.AllFormed.alive {s : Scope} :
    (fs : List Field) → Field.AllFormed s fs → Field.AllAlive s.lifetimes fs
  | [], _ => trivial
  | .mk _ type _ :: fs, ⟨htype, _, hfs⟩ =>
    ⟨TypeExpr.Formed.alive type htype, Field.AllFormed.alive fs hfs⟩

end

theorem Scope.AdmitsVariables.alive {a : Arena Node} {s : Scope} {vs : List Variable}
    (h : s.AdmitsVariables a vs) : ∀ v ∈ vs, v.Alive s.lifetimes := by
  induction vs generalizing s with
  | nil => exact fun v hv => absurd hv List.not_mem_nil
  | cons v vs ih =>
    obtain ⟨htype, -, -, hrest⟩ := h
    have hvs : ∀ w ∈ vs, w.Alive (s.addVariable v).lifetimes := ih hrest
    exact List.forall_mem_cons.mpr ⟨TypeExpr.Formed.alive v.type htype, hvs⟩

theorem Expr.IsOwner.alive {s : Scope} {field : Identifier} {source : Expr}
    (h : source.IsOwner s field) (env : Lifetimes) : source.Alive env := by
  obtain ⟨-, -, m, d, rfl⟩ := h
  trivial

mutual

theorem Expr.Formed.alive {a : Arena Node} {s : Scope} :
    (e : Expr) → e.Formed a s → e.Alive s.lifetimes
  | .nullLit _, _ => trivial
  | .boolLit _ _, _ => trivial
  | .byteLit _ _, _ => trivial
  | .charLit _ _, _ => trivial
  | .intLit _ _, _ => trivial
  | .stringLit _ _, _ => trivial
  | .variableAccess _ _ _, _ => trivial
  | .staticAccess _ _, _ => trivial
  | .recordAccess _ source _, ⟨_, h⟩ =>
    h.elim (fun howner => howner.alive s.lifetimes) (Expr.Formed.alive source)
  | .dereference _ operand, h => Expr.Formed.alive operand h
  | .arrayAccess _ source index, ⟨hsource, hindex⟩ =>
    ⟨Expr.Formed.alive source hsource, Expr.Formed.alive index hindex⟩
  | .arrayLength _ operand, h => Expr.Formed.alive operand h
  | .arrayInitialiser _ elements, h => Expr.AllFormed.alive elements h
  | .arrayGenerator _ element length, ⟨helement, hlength⟩ =>
    ⟨Expr.Formed.alive element helement, Expr.Formed.alive length hlength⟩
  | .recordInitialiser _ _ fields, ⟨_, _, hfields⟩ => FieldValue.AllFormed.alive fields hfields
  | .binary _ left _ right, ⟨_, hleft, hright⟩ =>
    ⟨Expr.Formed.alive left hleft, Expr.Formed.alive right hright⟩
  | .unary _ _ operand, h => Expr.Formed.alive operand h
  | .isType _ operand type, ⟨hoperand, htype⟩ =>
    ⟨Expr.Formed.alive operand hoperand, TypeExpr.Formed.alive type htype⟩
  | .cast _ type operand, ⟨htype, hoperand⟩ =>
    ⟨TypeExpr.Formed.alive type htype, Expr.Formed.alive operand hoperand⟩
  | .invoke _ _ _ arguments, ⟨_, _, h⟩ => Expr.AllFormed.alive arguments h
  | .indirectInvoke _ source _ arguments, ⟨hsource, _, harguments⟩ =>
    ⟨Expr.Formed.alive source hsource, Expr.AllFormed.alive arguments harguments⟩
  | .quantifier _ _ ranges condition, ⟨_, _, hranges, hcondition⟩ => by
    have hcondition := Expr.Formed.alive condition hcondition
    rw [Scope.addRanges, Scope.lifetimes_addVariables] at hcondition
    exact ⟨Range.AllFormed.alive ranges hranges, hcondition⟩
  | .new _ operand _, ⟨_, hlifetime, h⟩ =>
    ⟨Scope.has_of_isLifetime hlifetime, Expr.Formed.alive operand h⟩
  | .lambda _ parameters captures lifetimes body, ⟨_, _, hparameters, hbody⟩ => by
    have hparameters := hparameters.2.alive
    have hbody := Expr.Formed.alive body hbody
    rw [Scope.lifetimes_addVariables] at hbody
    rw [Scope.lifetimes_addLifetimes] at hparameters hbody
    exact ⟨hparameters, hbody⟩
  | .lambdaConstant _ _ parameterTypes, ⟨_, h⟩ => TypeExpr.AllFormed.alive parameterTypes h

theorem Expr.AllFormed.alive {a : Arena Node} {s : Scope} :
    (es : List Expr) → Expr.AllFormed a s es → Expr.AllAlive s.lifetimes es
  | [], _ => trivial
  | e :: es, ⟨he, hes⟩ => ⟨Expr.Formed.alive e he, Expr.AllFormed.alive es hes⟩

theorem FieldValue.AllFormed.alive {a : Arena Node} {s : Scope} :
    (fs : List FieldValue) → FieldValue.AllFormed a s fs → FieldValue.AllAlive s.lifetimes fs
  | [], _ => trivial
  | .mk _ value :: fs, ⟨_, hvalue, hfs⟩ =>
    ⟨Expr.Formed.alive value hvalue, FieldValue.AllFormed.alive fs hfs⟩

theorem Range.AllFormed.alive {a : Arena Node} {s : Scope} :
    (rs : List Range) → Range.AllFormed a s rs → Range.AllAlive s.lifetimes rs
  | [], _ => trivial
  | .mk m name start stop :: rs, ⟨_, _, hstart, hstop, _, hrs⟩ =>
    ⟨Expr.Formed.alive start hstart, Expr.Formed.alive stop hstop,
      Range.AllFormed.alive (s := s.addVariable (Range.mk m name start stop).variable) rs hrs⟩

end

theorem Expr.FormedTarget.alive {a : Arena Node} {s : Scope} :
    (e : Expr) → e.FormedTarget a s → e.Alive s.lifetimes
  | .variableAccess _ _ _, _ => trivial
  | .recordAccess _ source _, ⟨_, h⟩ => Expr.FormedTarget.alive source h
  | .dereference _ operand, h => Expr.FormedTarget.alive operand h
  | .arrayAccess _ source index, ⟨hsource, hindex⟩ =>
    ⟨Expr.FormedTarget.alive source hsource, Expr.Formed.alive index hindex⟩

theorem Stmt.lifetimes_after (s : Scope) (st : Stmt) : (st.after s).lifetimes = s.lifetimes := by
  cases st <;> rfl

mutual

theorem Stmt.Formed.alive {a : Arena Node} {s : Scope} :
    (st : Stmt) → st.Formed a s → st.Alive s.lifetimes
  | .assert _ condition, h => Expr.Formed.alive condition h
  | .assume _ condition, h => Expr.Formed.alive condition h
  | .assign _ _ _, ⟨_, _, htargets, hvalues⟩ =>
    ⟨fun t ht => Expr.FormedTarget.alive t (htargets t ht),
      fun v hv => Expr.Formed.alive v (hvalues v hv)⟩
  | .break _, _ => trivial
  | .continue _, _ => trivial
  | .debug _ operand, h => Expr.Formed.alive operand h
  | .doWhile _ condition _ body, ⟨hcondition, hinvariants, hbody⟩ =>
    ⟨Expr.Formed.alive condition hcondition, fun e he => Expr.Formed.alive e (hinvariants e he),
      Block.Formed.alive body hbody⟩
  | .fail _, _ => trivial
  | .ifElse _ condition trueBranch falseBranch, ⟨hcondition, htrue, hfalse⟩ =>
    ⟨Expr.Formed.alive condition hcondition, Block.Formed.alive trueBranch htrue,
      Block.OptionFormed.alive falseBranch hfalse⟩
  | .namedBlock _ name body, ⟨_, _, hbody⟩ =>
    Block.Formed.alive (s := s.addLifetime name) body hbody
  | .return _ _, h => fun v hv => Expr.Formed.alive v (h v hv)
  | .skip _, _ => trivial
  | .switch _ condition cases, ⟨hcondition, _, i, hcases⟩ =>
    ⟨Expr.Formed.alive condition hcondition, Case.AllFormed.alive (s := s.deeper i) cases hcases⟩
  | .while _ condition _ body, ⟨hcondition, hinvariants, hbody⟩ =>
    ⟨Expr.Formed.alive condition hcondition, fun e he => Expr.Formed.alive e (hinvariants e he),
      Block.Formed.alive body hbody⟩
  | .variable declared _, ⟨_, htype, _, _, hinitialiser⟩ =>
    ⟨TypeExpr.Formed.alive declared.type htype,
      fun e he => Expr.Formed.alive e (hinitialiser e he)⟩
  | .invocation call, ⟨_, h⟩ => Expr.Formed.alive call h

theorem Stmt.SequenceFormed.alive {a : Arena Node} {s : Scope} :
    (sts : List Stmt) → Stmt.SequenceFormed a s sts → Stmt.AllAlive s.lifetimes sts
  | [], _ => trivial
  | st :: sts, ⟨hst, hsts⟩ => by
    have hrest := Stmt.SequenceFormed.alive sts hsts
    rw [Stmt.lifetimes_after] at hrest
    exact ⟨Stmt.Formed.alive st hst, hrest⟩

theorem Block.Formed.alive {a : Arena Node} {s : Scope} {inLoop : Bool} :
    (b : Block) → b.Formed a s inLoop → b.Alive s.lifetimes
  | .mk _ statements, ⟨i, h⟩ =>
    Stmt.SequenceFormed.alive (s := (s.deeper i).looping inLoop) statements h

theorem Block.OptionFormed.alive {a : Arena Node} {s : Scope} {inLoop : Bool} :
    (b : Option Block) → Block.OptionFormed a s inLoop b → Block.OptionAlive s.lifetimes b
  | none, _ => trivial
  | some b, h => Block.Formed.alive b h

theorem Case.AllFormed.alive {a : Arena Node} {s : Scope} :
    (cs : List Case) → Case.AllFormed a s cs → Case.AllAlive s.lifetimes cs
  | [], _ => trivial
  | .mk _ _ body :: cs, ⟨hconditions, hbody, hcs⟩ =>
    ⟨fun e he => Expr.Formed.alive e (hconditions e he), Block.Formed.alive body hbody,
      Case.AllFormed.alive cs hcs⟩

end

theorem Routine.Formed.alive {a : Arena Node} {s : Scope} {r : Routine} (h : r.Formed a s) :
    r.Alive s.lifetimes := by
  obtain ⟨-, -, hparameters, hreturns, hrequires, hensures, hbody⟩ := h
  have hinner : ((s.addVariables r.parameters).addVariables r.returns).lifetimes = s.lifetimes := by
    rw [Scope.lifetimes_addVariables, Scope.lifetimes_addVariables]
  have hresults := hreturns.2.alive
  have hbody := Block.Formed.alive r.body hbody
  rw [Scope.lifetimes_addVariables] at hresults
  rw [Scope.declareThis, hinner] at hbody
  exact ⟨hparameters.2.alive, hresults, fun e he => hinner ▸ Expr.Formed.alive e (hrequires e he),
    fun e he => hinner ▸ Expr.Formed.alive e (hensures e he), hbody⟩

theorem Decl.Formed.alive {a : Arena Node} {d : Decl} (h : d.Formed a) : d.Alive := by
  cases d with
  | imports m path => trivial
  | type m modifiers name declared invariant =>
    obtain ⟨-, -, hdeclared, hinvariant⟩ := h
    refine ⟨hdeclared.2.alive declared List.mem_cons_self, fun e he => ?_⟩
    exact Scope.lifetimes_ofDeclared declared ▸ Expr.Formed.alive e (hinvariant e he)
  | constant m modifiers name value => exact Expr.Formed.alive value h.2.2
  | function m routine => exact Routine.Formed.alive h
  | method m lifetimes routine =>
    have hroutine := Routine.Formed.alive h.2
    rwa [Scope.lifetimes_addLifetimes] at hroutine
  | property m modifiers name parameters invariant =>
    obtain ⟨-, -, hparameters, hinvariant⟩ := h
    refine ⟨hparameters.2.alive, fun e he => ?_⟩
    have halive := Expr.Formed.alive e (hinvariant e he)
    rwa [Scope.lifetimes_addVariables] at halive

theorem parse_alive {source : String} {tokens : List Token} {m : Module} {arena : Arena Node}
    (hlex : lex source = .ok tokens) (hparse : parse tokens = .ok (m, arena)) : m.Alive :=
  fun d hd => Decl.Formed.alive ((parse_formed hlex hparse).2 d hd)

/-- Lifetimes from a list, a block and a capture; the last is declared nowhere. -/
def allocatingSource : String :=
  "method <l> m(&l:int p):\n  b:\n    &b:int q = b:new 1\n" ++
    "constant C is &[k](int x -> k:new x)\n"

theorem parse_alive_allocating : ∃ tokens m arena,
    lex allocatingSource = .ok tokens ∧ parse tokens = .ok (m, arena) ∧ m.Alive :=
  ⟨_, _, _, rfl, rfl, @parse_alive allocatingSource _ _ _ rfl rfl⟩

end Whiley
