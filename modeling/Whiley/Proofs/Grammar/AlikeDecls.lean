import Whiley.Proofs.Grammar.AlikeStmts

namespace Whiley.Grammar

open Whiley.Parser

variable {σ : Simulation} {P : Spot}

theorem root_alike : σ.Alike Scope.root Scope.root := rfl

theorem declareThis_alike {s s' : Scope} (hs : σ.Alike s s') :
    σ.Alike s.declareThis s'.declareThis := by
  have hs' : s.relabel σ.lhs = s'.relabel σ.rhs := hs
  rw [Simulation.Alike, relabel_scope, relabel_scope, Scope.declareThis_relabel,
    Scope.declareThis_relabel, hs']

theorem declareAliases_alike {s s' : Scope} {t t' : TypeExpr} (hs : σ.Alike s s')
    (ht : σ.Alike t t') :
    σ.Alike (t.fieldNames.foldl Scope.declareAlias s) (t'.fieldNames.foldl Scope.declareAlias s') := by
  have hs' : s.relabel σ.lhs = s'.relabel σ.rhs := hs
  have ht' : t.relabel σ.lhs = t'.relabel σ.rhs := ht
  rw [Simulation.Alike, relabel_scope, relabel_scope, Scope.declareAliases_relabel,
    Scope.declareAliases_relabel, ← TypeExpr.fieldNames_relabel, ← TypeExpr.fieldNames_relabel, hs',
    ht']

namespace DeclParsers

theorem component_matches : Matches σ .within .within component component σ.Alike := by
  refine (Matches.accept (by decide)).bind fun o o' ho => ?_
  cases ho with
  | none => exact identifier_matches
  | some ht =>
    refine .allocate ht.1.span fun m m' hm => ?_
    simpa [Identifier.relabel] using ⟨hm, fixed_alike (w := "*") (by decide)⟩

theorem imports_matches : Matches σ P .anywhere imports imports σ.Alike := by
  refine Matches.position.bind fun start start' hstart => Matches.expect.bind fun _ _ _ => ?_
  refine identifier_matches.bind fun first first' hfirst => ?_
  refine (Matches.afterEach rfl component_matches).bind fun rest rest' hrest => ?_
  refine (Matches.make hstart (R := σ.Alike) fun m m' hm => ?_).bind fun d d' hd => ?_
  · simpa using ⟨hm, hfirst, hrest⟩
  · exact Matches.endLine.bind fun _ _ _ => .pure hd

theorem modifiers_matches : Matches σ .within .within modifiers modifiers Eq := by
  refine (Matches.foldWhile Eq rfl fun x _ h => ?_).bind fun x _ h => .pure (by rw [h])
  obtain rfl := h
  obtain ⟨visible, found⟩ := x
  refine (Matches.accept (by decide)).bind fun o o' ho => ?_
  cases ho with
  | none => exact .pure .none
  | some ht =>
    have htext := ht.1.fixed_text ht.2 (by decide)
    dsimp only
    rw [← ht.1.kind, ← htext]
    split
    · exact .reject ht.1.span
    · exact .pure (.some rfl)

section Scoped

variable {types types' : TypeParsers} (ht : types.Agree σ types') {s s' : Scope}
  (hs : σ.Alike s s')

include ht hs

theorem result_matches :
    Matches σ .within .within (result types s) (result types' s') σ.Alike := by
  refine Matches.position.bind fun start start' hstart => ?_
  have hrest : ∀ x x' : TypeExpr × Identifier, σ.Alike x x' → Matches σ .within .within
      (do
        let v ← make start fun m => Variable.mk m x.2 x.1
        return (v, ← ofExcept (s.declareVariable v)))
      (do
        let v ← make start' fun m => Variable.mk m x'.2 x'.1
        return (v, ← ofExcept (s'.declareVariable v))) σ.Alike := by
    intro x x' hx
    obtain ⟨htype, hname⟩ := Prod.mk.inj hx
    refine (Matches.make hstart (R := σ.Alike) fun m m' hm => ?_).bind fun v v' hv => ?_
    · simpa [Variable.relabel] using ⟨hm, hname, htype⟩
    · refine (Matches.ofExcept (declareVariable_alike hs hv)).bind fun t t' ht => .pure ?_
      exact congrArg₂ Prod.mk hv ht
  refine (Matches.accept (by decide)).bind fun o o' ho => ?_
  cases ho with
  | some _ =>
    refine (TypeParsers.named_matches ht hs).bind fun named named' hnamed => ?_
    refine Matches.expect.bind fun _ _ _ => ?_
    exact (Matches.pure (R := σ.Alike) hnamed).bind hrest
  | none =>
    refine (ht.type s s' hs).bind fun type type' htype => ?_
    refine (Matches.allocate (R := σ.Alike) ?_ fun m m' hm => ?_).bind fun name name' hname => ?_
    · have hmark := congrArg TypeExpr.mark htype
      rw [relabel_type, relabel_type, TypeExpr.mark_relabel, TypeExpr.mark_relabel] at hmark
      exact (Mark.mk.inj hmark).1
    · simpa [Identifier.relabel] using ⟨hm, fixed_alike (w := "$") (by decide)⟩
    · exact (Matches.pure (R := σ.Alike) (congrArg₂ Prod.mk htype hname)).bind hrest

theorem results_matches :
    Matches σ .within .within (results types s) (results types' s') σ.Alike := by
  refine (Matches.accept (by decide)).bind fun o o' ho => ?_
  cases ho with
  | none => exact .pure (by simpa using hs)
  | some _ =>
    refine (Matches.ahead (by decide)).bind fun several _ h => ?_
    obtain rfl := h
    split
    · exact parameters_matches ht hs
    · refine (result_matches ht hs).bind fun x x' hx => .pure ?_
      obtain ⟨hv, hinner⟩ := Prod.mk.inj hx
      simpa using ⟨hv, hinner⟩

end Scoped

section Rules

variable {g g' : DeclParsers} (hg : StmtParsers.Agree σ g g') {start start' : Nat}
  (hstart : σ.At P start start') {modifiers : List String}

include hg in
theorem routine_matches {s s' : Scope} (hs : σ.Alike s s') :
    Matches σ .within .anywhere (g.routine modifiers s) (g'.routine modifiers s') σ.Alike := by
  refine identifier_matches.bind fun name name' hname => ?_
  refine (parameters_matches hg.exprs.types hs).bind fun x x' hx => ?_
  obtain ⟨hparameters, hinner⟩ := Prod.mk.inj hx
  refine (results_matches hg.exprs.types hinner).bind fun y y' hy => ?_
  obtain ⟨hreturns, hscope⟩ := Prod.mk.inj hy
  refine (clauses_matches hg.exprs hscope rfl).bind fun requires requires' hrequires => ?_
  refine (clauses_matches hg.exprs hscope rfl).bind fun ensures ensures' hensures => ?_
  refine StmtParsers.headerEnd_matches.bind fun _ _ _ => ?_
  refine (hg.block _ _ false (declareThis_alike hscope)).bind fun body body' hbody => .pure ?_
  simpa [Routine.relabel] using ⟨hname, hparameters, hreturns, hrequires, hensures, hbody⟩

include hg hstart

theorem typeDecl_matches :
    Matches σ .within .anywhere (g.typeDecl start modifiers) (g'.typeDecl start' modifiers)
      σ.Alike := by
  refine Matches.advance.bind fun _ _ _ => identifier_matches.bind fun name name' hname => ?_
  refine Matches.expect.bind fun _ _ _ => ?_
  refine (result_matches hg.exprs.types root_alike).bind fun x x' hx => ?_
  obtain ⟨hv, hinner⟩ := Prod.mk.inj hx
  have hscope := declareAliases_alike hinner (congrArg Variable.type hv)
  refine (clauses_matches hg.exprs hscope rfl).bind fun invariant invariant' hinvariant => ?_
  refine (Matches.make hstart (R := σ.Alike) fun m m' hm => ?_).bind fun d d' hd => ?_
  · simpa using ⟨hm, hname, hv, hinvariant⟩
  · exact Matches.endLine.bind fun _ _ _ => .pure hd

theorem constant_matches :
    Matches σ .within .anywhere (g.constant start modifiers) (g'.constant start' modifiers)
      σ.Alike := by
  refine Matches.advance.bind fun _ _ _ => identifier_matches.bind fun name name' hname => ?_
  refine Matches.expect.bind fun _ _ _ => ?_
  refine (StmtParsers.expression_matches hg root_alike).bind fun value value' hvalue => ?_
  refine (Matches.make hstart (R := σ.Alike) fun m m' hm => ?_).bind fun d d' hd => ?_
  · simpa using ⟨hm, hname, hvalue⟩
  · exact Matches.endLine.bind fun _ _ _ => .pure hd

theorem function_matches :
    Matches σ .within .anywhere (g.function start modifiers) (g'.function start' modifiers)
      σ.Alike := by
  refine Matches.advance.bind fun _ _ _ => ?_
  refine (routine_matches hg root_alike).bind fun routine routine' hroutine => ?_
  exact .make hstart fun m m' hm => by simpa using ⟨hm, hroutine⟩

theorem method_matches :
    Matches σ .within .anywhere (g.method start modifiers) (g'.method start' modifiers)
      σ.Alike := by
  refine Matches.advance.bind fun _ _ _ => ?_
  refine (optionalLifetimeParameters_matches root_alike).bind fun x x' hx => ?_
  obtain ⟨hlifetimes, hinner⟩ := Prod.mk.inj hx
  refine (routine_matches hg hinner).bind fun routine routine' hroutine => ?_
  exact .make hstart fun m m' hm => by simpa using ⟨hm, hlifetimes, hroutine⟩

theorem property_matches :
    Matches σ .within .anywhere (g.property start modifiers) (g'.property start' modifiers)
      σ.Alike := by
  refine Matches.advance.bind fun _ _ _ => identifier_matches.bind fun name name' hname => ?_
  refine (parameters_matches hg.exprs.types root_alike).bind fun x x' hx => ?_
  obtain ⟨hparameters, hinner⟩ := Prod.mk.inj hx
  refine (clauses_matches hg.exprs hinner rfl).bind fun invariant invariant' hinvariant => ?_
  refine (Matches.make hstart (R := σ.Alike) fun m m' hm => ?_).bind fun d d' hd => ?_
  · simpa using ⟨hm, hname, hparameters, hinvariant⟩
  · exact Matches.endLine.bind fun _ _ _ => .pure hd

end Rules

theorem contextual_alike {t t' : Token} (ht : Token.Alike σ.lhs σ.rhs t t') {w : String}
    (hw : w ∈ ["$", "this", "*", "type", "constant"]) :
    (t.kind = .identifier ∧ t.text = w) ↔ (t'.kind = .identifier ∧ t'.text = w) := by
  rw [← ht.kind]
  refine and_congr_right fun hk => ?_
  rw [← σ.lhs.text_eq_fixed hw, ht.name (by simp [hk]), σ.rhs.text_eq_fixed hw]

theorem declaration_matches {g g' : DeclParsers} (hg : StmtParsers.Agree σ g g') :
    Matches σ P .anywhere (declaration g) (declaration g') σ.Alike := by
  refine Matches.settle.bind fun start start' hstart => Matches.current.bind fun t t' ht => ?_
  rw [← ht.kind]
  split
  · exact imports_matches
  · refine modifiers_matches.bind fun modifiers _ h => Matches.current.bind fun u u' hu => ?_
    obtain rfl := h
    rw [if_congr (contextual_alike hu (w := "type") (by decide)) rfl rfl,
      if_congr (contextual_alike hu (w := "constant") (by decide)) rfl rfl, hu.kind]
    split
    · exact typeDecl_matches hg hstart
    · split
      · exact constant_matches hg hstart
      · split
        · exact function_matches hg hstart
        · split
          · exact method_matches hg hstart
          · split
            · exact property_matches hg hstart
            · exact .reject hu.span

end DeclParsers

theorem packageComponent_matches :
    Matches σ P .within packageComponent packageComponent σ.Alike :=
  Matches.expect.bind fun _ _ ht => .pure (ht.1.name (by simp [ht.2]))

theorem package_matches : Matches σ .anywhere .anywhere package package σ.Alike := by
  refine (Matches.acceptAt (.inr rfl) (by decide)).bind fun o o' ho => ?_
  cases ho with
  | none => exact .pure rfl
  | some _ =>
    refine packageComponent_matches.bind fun first first' hfirst => ?_
    refine (Matches.afterEach rfl packageComponent_matches).bind fun rest rest' hrest => ?_
    exact Matches.endLine.bind fun _ _ _ => .pure (congrArg₂ List.cons hfirst hrest)

theorem moreTokens_matches : Matches σ P P moreTokens moreTokens Eq := by
  refine Matches.tokens.bind fun i j h => ?_
  obtain ⟨rfl, rfl⟩ := h
  refine Matches.position.bind fun p q hpos => ?_
  obtain ⟨hwithin, hnext⟩ := σ.skip_at true hpos (.inr rfl)
  refine (Matches.moveTo (.of_within hwithin)).bind fun _ _ _ => .pure (decide_eq_decide.mpr ?_)
  rcases hnext with ⟨hx, hy⟩ | ⟨u, v, hx, hy, -⟩
  · rw [Array.getElem?_eq_none_iff] at hx hy
    omega
  · obtain ⟨hx, -⟩ := Array.getElem?_eq_some_iff.mp hx
    obtain ⟨hy, -⟩ := Array.getElem?_eq_some_iff.mp hy
    exact iff_of_true hx hy

theorem module_matches {g g' : DeclParsers} (hg : StmtParsers.Agree σ g g') :
    Matches σ .anywhere .anywhere (module g) (module g') σ.Alike := by
  refine package_matches.bind fun package package' hpackage => ?_
  refine (Matches.many ?_).bind fun (declarations declarations' : List Decl) hdeclarations => ?_
  · refine moreTokens_matches.bind fun more _ h => ?_
    obtain rfl := h
    split
    · exact (DeclParsers.declaration_matches hg).bind fun d d' hd => .pure (.some hd)
    · exact .pure .none
  · refine Matches.tokens.bind fun i j h => ?_
    obtain ⟨rfl, rfl⟩ := h
    refine .allocate σ.whole fun m m' hm => ?_
    simpa [Module.relabel] using ⟨hm, hpackage, hdeclarations⟩

theorem ofDepth_agree {d d' : Nat} (hd : d = d' ∨ σ.uneven) :
    StmtParsers.Agree σ (ofDepth d) (ofDepth d') := by
  have hexprs := ExprParsers.ofDepth_agree (TypeParsers.ofDepth_agree hd) hd
  exact StmtParsers.ofDepth_agree hexprs (fun _ _ => TargetParser.ofDepth_matches hexprs hd) hd

end Whiley.Grammar

namespace Whiley

/-- How two parses end that a simulation relates. -/
inductive Simulation.Ends (σ : Simulation) :
    Except Failure (Module × Arena Node) → Except Failure (Module × Arena Node) → Prop
  | ok {m m' a a'} (value : σ.Alike m m') (sizes : σ.sizes a.size a'.size) :
    Ends σ (.ok (m, a)) (.ok (m', a'))
  | error {f g} (failure : f.relabel σ.lhs = g.relabel σ.rhs) : Ends σ (.error f) (.error g)
  | left {r} (h : σ.uneven) : Ends σ (.error .exhausted) r
  | right {r} (h : σ.uneven) : Ends σ r (.error .exhausted)

theorem Simulation.parseInto_ends (σ : Simulation) {left right : List Token} {a a' : Arena Node}
    (hleft : σ.left = .ofTokens left) (hright : σ.right = .ofTokens right)
    (hlength : left.length = right.length ∨ σ.uneven) (hstart : σ.anywhere 0 0)
    (hsizes : σ.sizes a.size a'.size) : σ.Ends (parseInto a left) (parseInto a' right) := by
  have hdepth : Grammar.depthFor left.length = Grammar.depthFor right.length ∨ σ.uneven :=
    hlength.imp_left (congrArg Grammar.depthFor)
  have hmodule := Grammar.module_matches (Grammar.ofDepth_agree hdepth) ⟨0, a⟩ ⟨0, a'⟩ hstart hsizes
  rw [hleft, hright] at hmodule
  rw [parseInto, parseInto]
  generalize (Grammar.module (Grammar.ofDepth (Grammar.depthFor left.length))).run _ _ = x
    at hmodule
  generalize (Grammar.module (Grammar.ofDepth (Grammar.depthFor right.length))).run _ _ = y
    at hmodule
  cases hmodule with
  | ok value _ sizes => exact .ok value sizes
  | error failure _ => exact .error failure
  | left h => exact .left h
  | right h => exact .right h

end Whiley
