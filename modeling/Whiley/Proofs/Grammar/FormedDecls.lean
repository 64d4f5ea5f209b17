import Whiley.Proofs.Grammar.FormedStmts

namespace Whiley.Grammar

open Whiley.Parser

variable {r : Run} {s : Scope}

namespace DeclParsers

variable {g : DeclParsers}

def IsComponent (i : Identifier) : Prop :=
  i.IsWord ∨ i.text = "*"

theorem component_ensures : Ensures r component IsComponent := by
  refine Ensures.accept.bind fun star _ => ?_
  cases star with
  | some _ => exact .allocate fun _ _ => Or.inr rfl
  | none => exact identifier_ensures.mono fun _ h => Or.inl h

theorem imports_ensures : Ensures r imports (·.Formed r.arena) := by
  refine Ensures.position.bind fun start _ => Ensures.expect.bind fun _ _ => ?_
  refine identifier_ensures.bind fun first hfirst => ?_
  refine (Ensures.afterEach component_ensures).bind fun rest hrest => ?_
  refine (Ensures.make (Q := Decl.Formed r.arena) fun _ _ => ?_).bind fun d hd =>
    Ensures.endLine.bind fun _ _ => .pure hd
  exact ⟨by simp, List.forall_mem_cons.mpr ⟨Or.inl hfirst, hrest⟩⟩

def isVisibility (m : String) : Bool :=
  m = "public" || m = "private"

def ModifiersFound (x : Bool × List String) : Prop :=
  (∀ m ∈ x.2, m ∈ ["public", "private", "native", "export"]) ∧
    (x.2.filter isVisibility).length = if x.1 then 1 else 0

theorem ModifiersFound.cons {t : Token} {visible : Bool} {found : List String}
    (h : ModifiersFound (visible, found)) (ht : t ∈ r.input.tokens)
    (hk : t.kind ∈ [Kind.kwPublic, .kwPrivate, .kwNative, .kwExport])
    (hnew : ¬(visible && (t.kind = .kwPublic || t.kind = .kwPrivate))) :
    ModifiersFound (visible || (t.kind = .kwPublic || t.kind = .kwPrivate), t.text :: found) := by
  obtain ⟨hall, hcount⟩ := h
  have htext : t.text = t.kind.spelling :=
    r.text_of_fixed ht (by revert hk; cases t.kind <;> decide)
  simp only [List.mem_cons, List.not_mem_nil, or_false] at hk
  rw [htext]
  rcases hk with hk | hk | hk | hk <;> rw [hk] at hnew ⊢
  · obtain rfl : visible = false := by simpa using hnew
    exact ⟨List.forall_mem_cons.mpr ⟨by decide, hall⟩, by
      rw [List.filter_cons_of_pos (by decide), List.length_cons, hcount]; rfl⟩
  · obtain rfl : visible = false := by simpa using hnew
    exact ⟨List.forall_mem_cons.mpr ⟨by decide, hall⟩, by
      rw [List.filter_cons_of_pos (by decide), List.length_cons, hcount]; rfl⟩
  · exact ⟨List.forall_mem_cons.mpr ⟨by decide, hall⟩, by
      rw [List.filter_cons_of_neg (by decide), hcount]; simp⟩
  · exact ⟨List.forall_mem_cons.mpr ⟨by decide, hall⟩, by
      rw [List.filter_cons_of_neg (by decide), hcount]; simp⟩

theorem modifiers_ensures : Ensures r modifiers ModifiersFormed := by
  refine (Ensures.foldWhile ModifiersFound (by exact ⟨by simp, rfl⟩) fun x hx => ?_).bind
    fun x hx => .pure ?_
  · obtain ⟨visible, found⟩ := x
    refine Ensures.accept.bind fun t ht => ?_
    cases t with
    | none => exact .pure nofun
    | some t =>
      obtain ⟨hmem, hk⟩ := ht t rfl
      dsimp only
      split
      · exact .reject
      · rename_i hnew
        refine .pure ?_
        rintro _ ⟨⟩
        exact hx.cons hmem hk hnew
  · obtain ⟨hall, hcount⟩ := hx
    refine ⟨fun m hm => hall m (List.mem_reverse.mp hm), ?_⟩
    change (x.2.reverse.filter isVisibility).length ≤ 1
    rw [List.filter_reverse, List.length_reverse, hcount]
    split <;> omega

def ResultFound (a : Arena Node) (s : Scope) (x : Variable × Scope) : Prop :=
  s.AdmitsResults a [x.1] ∧ x.2 = s.addVariable x.1

theorem result_ensures {types : TypeParsers} (ht : types.Sound r) :
    Ensures r (result types s) (ResultFound r.arena s) := by
  refine Ensures.position.bind fun start _ => ?_
  have hrest {x : TypeExpr × Identifier}
      (hx : x.1.Formed s ∧ (x.2.IsWord ∨ x.2.text = "$")) : Ensures r (do
        let v ← make start fun m => Variable.mk m x.2 x.1
        return (v, ← ofExcept (s.declareVariable v))) (ResultFound r.arena s) := by
    refine (Ensures.make (Q := fun v : Variable => v.name = x.2 ∧ v.type = x.1 ∧
      r.arena.Holds v.mark.index (.variable v none)) fun m hm => by exact ⟨rfl, rfl, hm⟩).bind
        fun v hv => ?_
    obtain ⟨hname, htype, hstored⟩ := hv
    refine (Ensures.ofExcept fun s' hs' => Scope.declareVariable_ok hs').bind fun s' hs' => .pure ?_
    refine ⟨⟨?_, htype ▸ hx.1, hs'.1, hstored, trivial⟩, hs'.2⟩
    rcases hx.2 with hword | hdollar
    · exact Or.inr (by simpa [hname] using hword)
    · exact Or.inl ⟨v, rfl, by rw [hname, hdollar]⟩
  refine Ensures.accept.bind fun opening _ => ?_
  cases opening with
  | some _ =>
    refine (TypeParsers.named_ensures ht).bind fun named hnamed => Ensures.expect.bind fun _ _ => ?_
    exact (Ensures.pure ⟨hnamed.1, Or.inl hnamed.2⟩).bind fun x hx => hrest hx
  | none =>
    refine (ht.type s).bind fun type htype => ?_
    refine (Ensures.allocate (Q := fun i : Identifier => i.text = "$") fun _ _ => rfl).bind
      fun name hname => ?_
    exact (Ensures.pure (a := (type, name)) ⟨htype, Or.inr hname⟩).bind fun x hx => hrest hx

theorem results_ensures {types : TypeParsers} (ht : types.Sound r) :
    Ensures r (results types s)
      fun x => s.AdmitsResults r.arena x.1 ∧ x.2 = s.addVariables x.1 := by
  refine Ensures.accept.bind fun arrow _ => ?_
  cases arrow with
  | none => exact .pure ⟨⟨Or.inr (by simp), trivial⟩, rfl⟩
  | some _ =>
    refine Ensures.ahead.bind fun several _ => ?_
    split
    · exact (parameters_ensures ht).mono fun x hx => ⟨⟨Or.inr hx.1.1, hx.1.2⟩, hx.2⟩
    · exact (result_ensures ht).bind fun x hx => .pure hx

theorem typeDecl_ensures (hg : StmtParsers.Sound r g) {start : Nat} {modifiers : List String}
    (hmodifiers : ModifiersFormed modifiers) :
    Ensures r (g.typeDecl start modifiers) (·.Formed r.arena) := by
  refine Ensures.advance.bind fun _ _ => identifier_ensures.bind fun name hname => ?_
  refine Ensures.expect.bind fun _ _ => (result_ensures hg.exprs.types).bind fun x hx => ?_
  obtain ⟨v, inner⟩ := x
  obtain ⟨hadmits, hinner⟩ := hx
  obtain rfl : inner = Scope.root.addVariable v := hinner
  refine (clauses_ensures hg.exprs).bind fun invariant hinvariant => ?_
  refine (Ensures.make (Q := Decl.Formed r.arena) fun _ _ => ?_).bind fun d hd =>
    Ensures.endLine.bind fun _ _ => .pure hd
  exact ⟨hmodifiers, hname, hadmits, hinvariant⟩

theorem constant_ensures (hg : StmtParsers.Sound r g) {start : Nat} {modifiers : List String}
    (hmodifiers : ModifiersFormed modifiers) :
    Ensures r (g.constant start modifiers) (·.Formed r.arena) := by
  refine Ensures.advance.bind fun _ _ => identifier_ensures.bind fun name hname => ?_
  refine Ensures.expect.bind fun _ _ => ?_
  refine (StmtParsers.expression_ensures hg).bind fun value hvalue => ?_
  refine (Ensures.make (Q := Decl.Formed r.arena) fun _ _ => ?_).bind fun d hd =>
    Ensures.endLine.bind fun _ _ => .pure hd
  exact ⟨hmodifiers, hname, hvalue⟩

theorem routine_ensures (hg : StmtParsers.Sound r g) {modifiers : List String}
    (hmodifiers : ModifiersFormed modifiers) :
    Ensures r (g.routine modifiers s) (·.Formed r.arena s) := by
  refine identifier_ensures.bind fun name hname => ?_
  refine (parameters_ensures hg.exprs.types).bind fun x hx => ?_
  obtain ⟨parameters, inner⟩ := x
  obtain ⟨hparameters, hinner⟩ := hx
  obtain rfl : inner = s.addVariables parameters := hinner
  refine (results_ensures hg.exprs.types).bind fun y hy => ?_
  obtain ⟨returns, inner⟩ := y
  obtain ⟨hreturns, hinner⟩ := hy
  obtain rfl : inner = (s.addVariables parameters).addVariables returns := hinner
  refine (clauses_ensures hg.exprs).bind fun requires hrequires => ?_
  refine (clauses_ensures hg.exprs).bind fun ensures hensures => ?_
  refine StmtParsers.headerEnd_ensures.bind fun _ _ => ?_
  refine (hg.block _ false).bind fun body hbody => .pure ?_
  exact ⟨hmodifiers, hname, hparameters, hreturns, hrequires, hensures, hbody⟩

theorem function_ensures (hg : StmtParsers.Sound r g) {start : Nat} {modifiers : List String}
    (hmodifiers : ModifiersFormed modifiers) :
    Ensures r (g.function start modifiers) (·.Formed r.arena) := by
  refine Ensures.advance.bind fun _ _ => ?_
  exact (routine_ensures hg hmodifiers).bind fun routine hroutine => .make fun _ _ => hroutine

theorem method_ensures (hg : StmtParsers.Sound r g) {start : Nat} {modifiers : List String}
    (hmodifiers : ModifiersFormed modifiers) :
    Ensures r (g.method start modifiers) (·.Formed r.arena) := by
  refine Ensures.advance.bind fun _ _ => optionalLifetimeParameters_ensures.bind fun x hx => ?_
  obtain ⟨lifetimes, inner⟩ := x
  obtain ⟨hdeclares, hinner⟩ := hx
  obtain rfl : inner = Scope.root.addLifetimes lifetimes := hinner
  refine (routine_ensures hg hmodifiers).bind fun routine hroutine => .make fun _ _ => ?_
  exact ⟨hdeclares, hroutine⟩

theorem property_ensures (hg : StmtParsers.Sound r g) {start : Nat} {modifiers : List String}
    (hmodifiers : ModifiersFormed modifiers) :
    Ensures r (g.property start modifiers) (·.Formed r.arena) := by
  refine Ensures.advance.bind fun _ _ => identifier_ensures.bind fun name hname => ?_
  refine (parameters_ensures hg.exprs.types).bind fun x hx => ?_
  obtain ⟨parameters, inner⟩ := x
  obtain ⟨hparameters, hinner⟩ := hx
  obtain rfl : inner = Scope.root.addVariables parameters := hinner
  refine (clauses_ensures hg.exprs).bind fun invariant hinvariant => ?_
  refine (Ensures.make (Q := Decl.Formed r.arena) fun _ _ => ?_).bind fun d hd =>
    Ensures.endLine.bind fun _ _ => .pure hd
  exact ⟨hmodifiers, hname, hparameters, hinvariant⟩

theorem declaration_ensures (hg : StmtParsers.Sound r g) :
    Ensures r (declaration g) (·.Formed r.arena) := by
  refine Ensures.settle.bind fun start _ => Ensures.current.bind fun first _ => ?_
  split
  · exact imports_ensures
  · refine modifiers_ensures.bind fun modifiers hmodifiers => Ensures.current.bind fun t _ => ?_
    split
    · exact typeDecl_ensures hg hmodifiers
    · split
      · exact constant_ensures hg hmodifiers
      · split
        · exact function_ensures hg hmodifiers
        · split
          · exact method_ensures hg hmodifiers
          · split
            · exact property_ensures hg hmodifiers
            · exact .reject

end DeclParsers

theorem packageComponent_ensures :
    Ensures r packageComponent fun c => Kind.identifier.Spelled c.toList :=
  Ensures.expect.bind fun _ ht => .pure (r.word ht.1 ht.2)

theorem package_ensures :
    Ensures r package fun cs => ∀ c ∈ cs, Kind.identifier.Spelled c.toList := by
  refine Ensures.accept.bind fun keyword _ => ?_
  cases keyword with
  | none => exact .pure (by simp)
  | some _ =>
    refine packageComponent_ensures.bind fun first hfirst => ?_
    refine (Ensures.afterEach packageComponent_ensures).bind fun rest hrest => ?_
    exact Ensures.endLine.bind fun _ _ => .pure (List.forall_mem_cons.mpr ⟨hfirst, hrest⟩)

theorem moreTokens_ensures : Ensures r moreTokens fun _ => True :=
  Ensures.tokens.bind fun _ _ => Ensures.position.bind fun _ _ =>
    Ensures.moveTo.bind fun _ _ => .pure trivial

theorem module_ensures {g : DeclParsers} (hg : StmtParsers.Sound r g) :
    Ensures r (module g) (·.Formed r.arena) := by
  refine package_ensures.bind fun package hpackage => ?_
  refine (Ensures.many (P := Decl.Formed r.arena) ?_).bind fun declarations hdeclarations =>
    Ensures.tokens.bind fun _ _ => .allocate fun _ _ => ⟨hpackage, hdeclarations⟩
  refine moreTokens_ensures.bind fun more _ => ?_
  split
  · exact (DeclParsers.declaration_ensures hg).found
  · exact .pure nofun

theorem ofDepth_sound (depth : Nat) : StmtParsers.Sound r (ofDepth depth) := by
  have hexprs := ExprParsers.ofDepth_sound (TypeParsers.ofDepth_sound (r := r) depth) depth
  exact StmtParsers.ofDepth_sound hexprs (TargetParser.ofDepth_ensures hexprs depth) depth

end Whiley.Grammar

namespace Whiley

theorem parseInto_ok {tokens : List Token} {before after : Arena Node} {m : Module}
    (h : parseInto before tokens = .ok (m, after)) : ∃ s, s.arena = after ∧
      (Grammar.module (Grammar.ofDepth (Grammar.depthFor tokens.length))).run (.ofTokens tokens)
        ⟨0, before⟩ = .ok m s := by
  simp only [parseInto] at h
  split at h
  · rename_i m' s hrun
    obtain ⟨rfl, rfl⟩ := Prod.mk.inj (Except.ok.inj h)
    exact ⟨s, rfl, hrun⟩
  · cases h

theorem parseInto_error {tokens : List Token} {before : Arena Node} {f : Failure}
    (h : parseInto before tokens = .error f) : ∃ s,
      (Grammar.module (Grammar.ofDepth (Grammar.depthFor tokens.length))).run (.ofTokens tokens)
        ⟨0, before⟩ = .error f s := by
  simp only [parseInto] at h
  split at h
  · cases h
  · rename_i f' s hrun
    obtain rfl := Except.error.inj h
    exact ⟨s, hrun⟩

def Run.ofLexed {source : String} {tokens : List Token} (hlex : lex source = .ok tokens)
    (arena : Arena Node) : Run :=
  ⟨.ofTokens tokens, by simpa [Input.ofTokens] using lex_lexed hlex, arena⟩

theorem parse_formed {source : String} {tokens : List Token} {m : Module} {arena : Arena Node}
    (hlex : lex source = .ok tokens) (hparse : parse tokens = .ok (m, arena)) : m.Formed arena := by
  obtain ⟨s, rfl, hrun⟩ := parseInto_ok hparse
  have hmodule := Grammar.module_ensures (r := .ofLexed hlex s.arena)
    (Grammar.ofDepth_sound (Grammar.depthFor tokens.length)) ⟨0, .empty⟩
  rw [Run.ofLexed, hrun] at hmodule
  exact hmodule (Arena.le_refl s.arena)

theorem parse_proper {source : String} {tokens : List Token} {f : Failure}
    (hlex : lex source = .ok tokens) (hparse : parse tokens = .error f) :
    f.Proper (.ofTokens tokens) := by
  obtain ⟨s, hrun⟩ := parseInto_error hparse
  have hmodule := Grammar.module_ensures (r := .ofLexed hlex s.arena)
    (Grammar.ofDepth_sound (Grammar.depthFor tokens.length)) ⟨0, .empty⟩
  rw [Run.ofLexed, hrun] at hmodule
  exact hmodule (Arena.le_refl s.arena)

end Whiley
