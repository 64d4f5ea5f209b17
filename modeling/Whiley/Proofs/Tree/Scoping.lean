import Whiley.Proofs.Grammar.FormedDecls

/-!
Lexical scoping as a pass of its own over a tree: an environment says which variable a name is bound
to, each construct what it binds and where. Every parsed module resolves its names as the pass does.
-/

namespace Whiley

/-- The variables that are visible at a point, by their places in the arena. -/
abbrev Env := List (String × Nat)

namespace Env

def bind (env : Env) (v : Variable) : Env :=
  (v.name.text, v.mark.index) :: env

def bindAll (env : Env) (vs : List Variable) : Env :=
  vs.foldl bind env

/-- The name of the variable is free, and its node is stored where the environment will find it. -/
def Admits (a : Arena Node) (env : Env) (v : Variable) (initialiser : Option Expr) : Prop :=
  env.lookup v.name.text = none ∧ a.Holds v.mark.index (.variable v initialiser)

def AdmitsAll (a : Arena Node) : Env → List Variable → Prop
  | _, [] => True
  | env, v :: vs => env.Admits a v none ∧ (env.bind v).AdmitsAll a vs

end Env

/-- The `$` through which an invariant reaches the fields of its value. -/
def Expr.IsImplicit (env : Env) : Expr → Prop
  | .variableAccess _ name declaration => name.text = "$" ∧ declaration = env.lookup "$"
  | _ => False

mutual

def Expr.Resolved (a : Arena Node) : Env → Expr → Prop
  | _, .nullLit _ => True
  | _, .boolLit _ _ => True
  | _, .byteLit _ _ => True
  | _, .charLit _ _ => True
  | _, .intLit _ _ => True
  | _, .stringLit _ _ => True
  | env, .variableAccess _ name declaration =>
    declaration ≠ none ∧ declaration = env.lookup name.text
  | _, .staticAccess _ _ => True
  | env, .recordAccess _ source _ => source.IsImplicit env ∨ source.Resolved a env
  | env, .dereference _ operand => operand.Resolved a env
  | env, .arrayAccess _ source index => source.Resolved a env ∧ index.Resolved a env
  | env, .arrayLength _ operand => operand.Resolved a env
  | env, .arrayInitialiser _ elements => Expr.AllResolved a env elements
  | env, .arrayGenerator _ element length => element.Resolved a env ∧ length.Resolved a env
  | env, .recordInitialiser _ _ fields => FieldValue.AllResolved a env fields
  | env, .binary _ left _ right => left.Resolved a env ∧ right.Resolved a env
  | env, .unary _ _ operand => operand.Resolved a env
  | env, .isType _ operand _ => operand.Resolved a env
  | env, .cast _ _ operand => operand.Resolved a env
  | env, .invoke _ _ _ arguments => Expr.AllResolved a env arguments
  | env, .indirectInvoke _ source _ arguments =>
    source.Resolved a env ∧ Expr.AllResolved a env arguments
  | env, .quantifier _ _ ranges condition =>
    Range.AllResolved a env ranges ∧ condition.Resolved a (env.bindAll (ranges.map Range.variable))
  | env, .new _ operand _ => operand.Resolved a env
  | env, .lambda _ parameters _ _ body =>
    env.AdmitsAll a parameters ∧ body.Resolved a (env.bindAll parameters)
  | _, .lambdaConstant _ _ _ => True

def Expr.AllResolved (a : Arena Node) : Env → List Expr → Prop
  | _, [] => True
  | env, e :: es => e.Resolved a env ∧ Expr.AllResolved a env es

def FieldValue.AllResolved (a : Arena Node) : Env → List FieldValue → Prop
  | _, [] => True
  | env, .mk _ value :: fs => value.Resolved a env ∧ FieldValue.AllResolved a env fs

def Range.AllResolved (a : Arena Node) : Env → List Range → Prop
  | _, [] => True
  | env, .mk m name start stop :: rs =>
    start.Resolved a env ∧ stop.Resolved a env ∧
      env.Admits a (Range.mk m name start stop).variable none ∧
        Range.AllResolved a (env.bind (Range.mk m name start stop).variable) rs

end

/-- A target may be a name that is bound to no variable. -/
def Expr.ResolvedTarget (a : Arena Node) (env : Env) : Expr → Prop
  | .variableAccess _ name declaration => declaration = env.lookup name.text
  | .recordAccess _ source _ => source.ResolvedTarget a env
  | .dereference _ operand => operand.ResolvedTarget a env
  | .arrayAccess _ source index => source.ResolvedTarget a env ∧ index.Resolved a env
  | _ => False

def Stmt.binding (env : Env) : Stmt → Env
  | .variable declared _ => env.bind declared
  | _ => env

mutual

def Stmt.Resolved (a : Arena Node) : Env → Stmt → Prop
  | env, .assert _ condition => condition.Resolved a env
  | env, .assume _ condition => condition.Resolved a env
  | env, .assign _ targets values =>
    (∀ t ∈ targets, t.ResolvedTarget a env) ∧ ∀ v ∈ values, v.Resolved a env
  | _, .break _ => True
  | _, .continue _ => True
  | env, .debug _ operand => operand.Resolved a env
  | env, .doWhile _ condition invariants body =>
    condition.Resolved a env ∧ (∀ e ∈ invariants, e.Resolved a env) ∧ body.Resolved a env
  | _, .fail _ => True
  | env, .ifElse _ condition trueBranch falseBranch =>
    condition.Resolved a env ∧ trueBranch.Resolved a env ∧ Block.OptionResolved a env falseBranch
  | env, .namedBlock _ _ body => body.Resolved a env
  | env, .return _ values => ∀ v ∈ values, v.Resolved a env
  | _, .skip _ => True
  | env, .switch _ condition cases => condition.Resolved a env ∧ Case.AllResolved a env cases
  | env, .while _ condition invariants body =>
    condition.Resolved a env ∧ (∀ e ∈ invariants, e.Resolved a env) ∧ body.Resolved a env
  | env, .variable declared initialiser =>
    (∀ e, initialiser = some e → e.Resolved a env) ∧ env.Admits a declared initialiser
  | env, .invocation call => call.Resolved a env

def Stmt.SequenceResolved (a : Arena Node) : Env → List Stmt → Prop
  | _, [] => True
  | env, st :: sts => st.Resolved a env ∧ Stmt.SequenceResolved a (st.binding env) sts

def Block.Resolved (a : Arena Node) : Env → Block → Prop
  | env, .mk _ statements => Stmt.SequenceResolved a env statements

def Block.OptionResolved (a : Arena Node) : Env → Option Block → Prop
  | _, none => True
  | env, some b => b.Resolved a env

def Case.AllResolved (a : Arena Node) : Env → List Case → Prop
  | _, [] => True
  | env, .mk _ conditions body :: cs =>
    (∀ e ∈ conditions, e.Resolved a env) ∧ body.Resolved a env ∧ Case.AllResolved a env cs

end

def Routine.Resolved (a : Arena Node) (r : Routine) : Prop :=
  let env := Env.bindAll [] (r.parameters ++ r.returns)
  Env.AdmitsAll a [] (r.parameters ++ r.returns) ∧ (∀ e ∈ r.requires, e.Resolved a env) ∧
    (∀ e ∈ r.ensures, e.Resolved a env) ∧ r.body.Resolved a env

def Decl.Resolved (a : Arena Node) : Decl → Prop
  | .imports _ _ => True
  | .type _ _ _ declared invariant =>
    Env.AdmitsAll a [] [declared] ∧ ∀ e ∈ invariant, e.Resolved a (Env.bindAll [] [declared])
  | .constant _ _ _ value => value.Resolved a []
  | .function _ routine => routine.Resolved a
  | .method _ _ routine => routine.Resolved a
  | .property _ _ _ parameters invariant =>
    Env.AdmitsAll a [] parameters ∧ ∀ e ∈ invariant, e.Resolved a (Env.bindAll [] parameters)

def Module.Resolved (a : Arena Node) (m : Module) : Prop :=
  ∀ d ∈ m.declarations, d.Resolved a

namespace Scope

def env (s : Scope) : Env :=
  s.locals.map fun (name, v) => (name, v.mark.index)

@[simp]
theorem env_root : root.env = [] := rfl

@[simp]
theorem env_addVariable (s : Scope) (v : Variable) : (s.addVariable v).env = s.env.bind v := rfl

@[simp]
theorem env_addLifetime (s : Scope) (l : Identifier) : (s.addLifetime l).env = s.env := rfl

@[simp]
theorem env_capturing (s : Scope) (ls : List Identifier) : (s.capturing ls).env = s.env := rfl

@[simp]
theorem env_declareThis (s : Scope) : s.declareThis.env = s.env := rfl

@[simp]
theorem env_deeper (s : Scope) (i : Indent) : (s.deeper i).env = s.env := rfl

@[simp]
theorem env_looping (s : Scope) (inLoop : Bool) : (s.looping inLoop).env = s.env := rfl

@[simp]
theorem env_addVariables (s : Scope) (vs : List Variable) :
    (s.addVariables vs).env = s.env.bindAll vs := by
  induction vs generalizing s with
  | nil => rfl
  | cons v vs ih => exact ih (s.addVariable v)

@[simp]
theorem env_addRanges (s : Scope) (rs : List Range) :
    (s.addRanges rs).env = s.env.bindAll (rs.map Range.variable) :=
  env_addVariables s _

@[simp]
theorem env_addLifetimes (s : Scope) (ls : List Identifier) : (s.addLifetimes ls).env = s.env := by
  induction ls generalizing s with
  | nil => rfl
  | cons l ls ih => exact ih (s.addLifetime l)

@[simp]
theorem env_declareAliases (s : Scope) (is : List Identifier) :
    (is.foldl declareAlias s).env = s.env := by
  induction is generalizing s with
  | nil => rfl
  | cons i is ih => exact ih (s.declareAlias i)

theorem lookup_env (s : Scope) (name : String) :
    s.env.lookup name = (s.lookup name).map (·.mark.index) := by
  obtain ⟨indent, inLoop, locals, aliases, lifetimes⟩ := s
  change (locals.map _).lookup name = (Dictionary.get? locals name).map _
  induction locals with
  | nil => rfl
  | cons entry locals ih =>
    obtain ⟨key, v⟩ := entry
    rw [List.map_cons, Dictionary.get?_cons, List.lookup_cons]
    by_cases hkey : key = name
    · subst hkey
      simp
    · have hne : (name == key) = false := by simpa using Ne.symm hkey
      rw [hne, if_neg hkey]
      exact ih

theorem lookup_env_of_available {s : Scope} {name : String} (h : s.isAvailable name) :
    s.env.lookup name = none := by
  have hnone : s.lookup name = none := by
    simp only [isAvailable, isVariable, Bool.and_eq_true, Bool.not_eq_true',
      Option.isSome_eq_false_iff, Option.isNone_iff_eq_none] at h
    exact h.1.1
  rw [lookup_env, hnone]
  rfl

theorem env_admitsAll {a : Arena Node} {s : Scope} {vs : List Variable}
    (h : s.AdmitsVariables a vs) : s.env.AdmitsAll a vs := by
  induction vs generalizing s with
  | nil => trivial
  | cons v vs ih =>
    obtain ⟨-, hfree, hstored, hrest⟩ := h
    exact ⟨⟨lookup_env_of_available hfree, hstored⟩, ih hrest⟩

end Scope

theorem Expr.IsOwner.isImplicit {s : Scope} {field : Identifier} {source : Expr}
    (h : source.IsOwner s field) : source.IsImplicit s.env := by
  obtain ⟨-, -, m, d, rfl⟩ := h
  exact ⟨rfl, (s.lookup_env "$").symm⟩

mutual

theorem Expr.Formed.resolved {a : Arena Node} {s : Scope} :
    (e : Expr) → e.Formed a s → e.Resolved a s.env
  | .nullLit _, _ => trivial
  | .boolLit _ _, _ => trivial
  | .byteLit _ _, _ => trivial
  | .charLit _ _, _ => trivial
  | .intLit _ _, _ => trivial
  | .stringLit _ _, _ => trivial
  | .variableAccess _ name _, ⟨_, v, hv, hdeclaration⟩ => by
    have hlookup : s.env.lookup name.text = some v.mark.index := by rw [s.lookup_env, hv]; rfl
    exact ⟨by simp [hdeclaration], hdeclaration.trans hlookup.symm⟩
  | .staticAccess _ _, _ => trivial
  | .recordAccess _ source _, ⟨_, hsource⟩ =>
    hsource.imp Expr.IsOwner.isImplicit (Expr.Formed.resolved source)
  | .dereference _ operand, h => Expr.Formed.resolved operand h
  | .arrayAccess _ source index, ⟨hsource, hindex⟩ =>
    ⟨Expr.Formed.resolved source hsource, Expr.Formed.resolved index hindex⟩
  | .arrayLength _ operand, h => Expr.Formed.resolved operand h
  | .arrayInitialiser _ elements, h => Expr.AllFormed.resolved elements h
  | .arrayGenerator _ element length, ⟨helement, hlength⟩ =>
    ⟨Expr.Formed.resolved element helement, Expr.Formed.resolved length hlength⟩
  | .recordInitialiser _ _ fields, ⟨_, _, hfields⟩ => FieldValue.AllFormed.resolved fields hfields
  | .binary _ left _ right, ⟨_, hleft, hright⟩ =>
    ⟨Expr.Formed.resolved left hleft, Expr.Formed.resolved right hright⟩
  | .unary _ _ operand, h => Expr.Formed.resolved operand h
  | .isType _ operand _, ⟨h, _⟩ => Expr.Formed.resolved operand h
  | .cast _ _ operand, ⟨_, h⟩ => Expr.Formed.resolved operand h
  | .invoke _ _ _ arguments, ⟨_, _, h⟩ => Expr.AllFormed.resolved arguments h
  | .indirectInvoke _ source _ arguments, ⟨hsource, _, harguments⟩ =>
    ⟨Expr.Formed.resolved source hsource, Expr.AllFormed.resolved arguments harguments⟩
  | .quantifier _ _ ranges condition, ⟨_, _, hranges, hcondition⟩ => by
    refine ⟨Range.AllFormed.resolved ranges hranges, ?_⟩
    have := Expr.Formed.resolved condition hcondition
    rwa [Scope.env_addRanges] at this
  | .new _ operand _, ⟨_, _, h⟩ => Expr.Formed.resolved operand h
  | .lambda _ parameters _ _ body, ⟨_, _, hadmits, hbody⟩ => by
    have hparameters := Scope.env_admitsAll hadmits.2
    have hresolved := Expr.Formed.resolved body hbody
    simp only [Scope.env_addVariables, Scope.env_addLifetimes, Scope.env_capturing]
      at hparameters hresolved
    exact ⟨hparameters, hresolved⟩
  | .lambdaConstant _ _ _, _ => trivial

theorem Expr.AllFormed.resolved {a : Arena Node} {s : Scope} :
    (es : List Expr) → Expr.AllFormed a s es → Expr.AllResolved a s.env es
  | [], _ => trivial
  | e :: es, ⟨he, hes⟩ => ⟨Expr.Formed.resolved e he, Expr.AllFormed.resolved es hes⟩

theorem FieldValue.AllFormed.resolved {a : Arena Node} {s : Scope} :
    (fs : List FieldValue) → FieldValue.AllFormed a s fs → FieldValue.AllResolved a s.env fs
  | [], _ => trivial
  | .mk _ value :: fs, ⟨_, hvalue, hfs⟩ =>
    ⟨Expr.Formed.resolved value hvalue, FieldValue.AllFormed.resolved fs hfs⟩

theorem Range.AllFormed.resolved {a : Arena Node} {s : Scope} :
    (rs : List Range) → Range.AllFormed a s rs → Range.AllResolved a s.env rs
  | [], _ => trivial
  | .mk _ _ start stop :: rs, ⟨_, hfree, hstart, hstop, hstored, hrs⟩ =>
    ⟨Expr.Formed.resolved start hstart, Expr.Formed.resolved stop hstop,
      ⟨Scope.lookup_env_of_available hfree, hstored⟩, Range.AllFormed.resolved rs hrs⟩

end

theorem Expr.FormedTarget.resolved {a : Arena Node} {s : Scope} :
    (e : Expr) → e.FormedTarget a s → e.ResolvedTarget a s.env
  | .variableAccess _ name _, ⟨_, h⟩ => h.trans (s.lookup_env name.text).symm
  | .recordAccess _ source _, ⟨_, h⟩ => Expr.FormedTarget.resolved source h
  | .dereference _ operand, h => Expr.FormedTarget.resolved operand h
  | .arrayAccess _ source index, ⟨hsource, hindex⟩ =>
    ⟨Expr.FormedTarget.resolved source hsource, Expr.Formed.resolved index hindex⟩

theorem Stmt.env_after (s : Scope) (st : Stmt) : (st.after s).env = st.binding s.env := by
  cases st <;> rfl

mutual

theorem Stmt.Formed.resolved {a : Arena Node} {s : Scope} :
    (st : Stmt) → st.Formed a s → st.Resolved a s.env
  | .assert _ condition, h => Expr.Formed.resolved condition h
  | .assume _ condition, h => Expr.Formed.resolved condition h
  | .assign _ _ _, ⟨_, _, htargets, hvalues⟩ =>
    ⟨fun t ht => Expr.FormedTarget.resolved t (htargets t ht),
      fun v hv => Expr.Formed.resolved v (hvalues v hv)⟩
  | .break _, _ => trivial
  | .continue _, _ => trivial
  | .debug _ operand, h => Expr.Formed.resolved operand h
  | .doWhile _ condition _ body, ⟨hcondition, hinvariants, hbody⟩ =>
    ⟨Expr.Formed.resolved condition hcondition,
      fun e he => Expr.Formed.resolved e (hinvariants e he), Block.Formed.resolved body hbody⟩
  | .fail _, _ => trivial
  | .ifElse _ condition trueBranch falseBranch, ⟨hcondition, htrue, hfalse⟩ =>
    ⟨Expr.Formed.resolved condition hcondition, Block.Formed.resolved trueBranch htrue,
      Block.OptionFormed.resolved falseBranch hfalse⟩
  | .namedBlock _ _ body, ⟨_, _, hbody⟩ => by
    have hresolved := Block.Formed.resolved body hbody
    rwa [Scope.env_addLifetime] at hresolved
  | .return _ _, h => fun v hv => Expr.Formed.resolved v (h v hv)
  | .skip _, _ => trivial
  | .switch _ condition cases, ⟨hcondition, _, i, hcases⟩ =>
    ⟨Expr.Formed.resolved condition hcondition,
      Case.AllFormed.resolved (s := s.deeper i) cases hcases⟩
  | .while _ condition _ body, ⟨hcondition, hinvariants, hbody⟩ =>
    ⟨Expr.Formed.resolved condition hcondition,
      fun e he => Expr.Formed.resolved e (hinvariants e he), Block.Formed.resolved body hbody⟩
  | .variable _ _, ⟨_, _, hfree, hstored, hinitialiser⟩ =>
    ⟨fun e he => Expr.Formed.resolved e (hinitialiser e he),
      Scope.lookup_env_of_available hfree, hstored⟩
  | .invocation call, ⟨_, h⟩ => Expr.Formed.resolved call h

theorem Stmt.SequenceFormed.resolved {a : Arena Node} {s : Scope} :
    (sts : List Stmt) → Stmt.SequenceFormed a s sts → Stmt.SequenceResolved a s.env sts
  | [], _ => trivial
  | st :: sts, ⟨hst, hsts⟩ => by
    refine ⟨Stmt.Formed.resolved st hst, ?_⟩
    rw [← Stmt.env_after]
    exact Stmt.SequenceFormed.resolved sts hsts

theorem Block.Formed.resolved {a : Arena Node} {s : Scope} {inLoop : Bool} :
    (b : Block) → b.Formed a s inLoop → b.Resolved a s.env
  | .mk _ statements, ⟨i, h⟩ =>
    Stmt.SequenceFormed.resolved (s := (s.deeper i).looping inLoop) statements h

theorem Block.OptionFormed.resolved {a : Arena Node} {s : Scope} {inLoop : Bool} :
    (b : Option Block) → Block.OptionFormed a s inLoop b → Block.OptionResolved a s.env b
  | none, _ => trivial
  | some b, h => Block.Formed.resolved b h

theorem Case.AllFormed.resolved {a : Arena Node} {s : Scope} :
    (cs : List Case) → Case.AllFormed a s cs → Case.AllResolved a s.env cs
  | [], _ => trivial
  | .mk _ _ body :: cs, ⟨hconditions, hbody, hcs⟩ =>
    ⟨fun e he => Expr.Formed.resolved e (hconditions e he), Block.Formed.resolved body hbody,
      Case.AllFormed.resolved cs hcs⟩

end

theorem Routine.Formed.resolved {a : Arena Node} {s : Scope} {r : Routine} (hs : s.env = [])
    (h : r.Formed a s) : r.Resolved a := by
  obtain ⟨-, -, hparameters, hreturns, hrequires, hensures, hbody⟩ := h
  have hscope : ((s.addVariables r.parameters).addVariables r.returns).env =
      Env.bindAll [] (r.parameters ++ r.returns) := by
    simp [hs, Env.bindAll]
  have hadmits : s.AdmitsVariables a (r.parameters ++ r.returns) :=
    Grammar.admitsVariables_append.mpr ⟨hparameters.2, hreturns.2⟩
  refine ⟨hs ▸ Scope.env_admitsAll hadmits, fun e he => ?_, fun e he => ?_, ?_⟩
  · rw [← hscope]
    exact Expr.Formed.resolved e (hrequires e he)
  · rw [← hscope]
    exact Expr.Formed.resolved e (hensures e he)
  · rw [← hscope, ← Scope.env_declareThis]
    exact Block.Formed.resolved r.body hbody

theorem Scope.env_ofDeclared (v : Variable) : (Scope.ofDeclared v).env = Env.bindAll [] [v] := by
  rw [ofDeclared, env_declareAliases]
  rfl

theorem Decl.Formed.resolved {a : Arena Node} {d : Decl} (h : d.Formed a) : d.Resolved a := by
  cases d with
  | imports m path => trivial
  | type m modifiers name declared invariant =>
    obtain ⟨-, -, hadmits, hinvariant⟩ := h
    refine ⟨Scope.env_admitsAll hadmits.2, fun e he => ?_⟩
    rw [← Scope.env_ofDeclared]
    exact Expr.Formed.resolved e (hinvariant e he)
  | constant m modifiers name value => exact Expr.Formed.resolved value h.2.2
  | function m routine => exact Routine.Formed.resolved Scope.env_root h
  | method m lifetimes routine => exact Routine.Formed.resolved (Scope.env_addLifetimes _ _) h.2
  | property m modifiers name parameters invariant =>
    obtain ⟨-, -, hadmits, hinvariant⟩ := h
    refine ⟨Scope.env_admitsAll hadmits.2, fun e he => ?_⟩
    rw [← Scope.env_root, ← Scope.env_addVariables]
    exact Expr.Formed.resolved e (hinvariant e he)

end Whiley
