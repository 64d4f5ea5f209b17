import Whiley.Proofs.Grammar.FormedDecls
import Whiley.Proofs.Grammar.StoresStmts

namespace Whiley

instance : Known Routine where
  knows w n r := w.Knows n r.name ∧ w.Knows n r.parameters ∧ w.Knows n r.returns ∧
    w.Knows n r.requires ∧ w.Knows n r.ensures ∧ w.Knows n r.body
  mono hmn h :=
    ⟨h.1.mono (by omega), h.2.1.mono (by omega), h.2.2.1.mono (by omega), h.2.2.2.1.mono (by omega),
      h.2.2.2.2.1.mono (by omega),
    (h.2.2.2.2.2.mono (by omega))⟩

theorem Whole.Knows.entries {w : Whole} {n : Nat} {r : Routine} {es : List Entry}
    (h : w.Knows n r) (hes : w.StandsAll n es) : w.StandsAll n (r.entries es) := by
  obtain ⟨hname, hparameters, hreturns, hrequires, hensures, hbody⟩ := h
  have hbefore : w.StandsAll n
      [.mk "modifiers" (.words r.modifiers), .mk "name" (.child r.name.outline)] :=
    ⟨trivial, hname, trivial⟩
  exact (hbefore.append hes).append ⟨hparameters.outlines rfl, hreturns.outlines rfl,
    hrequires.outlines rfl, hensures.outlines rfl, hbody, trivial⟩

namespace Grammar

open Whiley.Parser

variable {w : Whole} {n : Nat}

theorem knows_root : w.Knows n Scope.root :=
  nofun

namespace DeclParsers

theorem component_stores : Stores w n component := by
  refine Yields.accept.bind fun o m hm _ => ?_
  cases o with
  | none => exact identifier_stores
  | some t => exact .allocate (fun _ => rfl) fun _ => ⟨trivial, trivial⟩

theorem imports_stores : Stores w n imports := by
  refine Yields.position.bind fun start m hm _ => Yields.expect.bind fun _ m hm _ => ?_
  refine identifier_stores.bind fun first m hm hfirst => ?_
  refine (Yields.afterEach fun _ _ => component_stores).bind fun rest m hm hrest => ?_
  have hpath : w.Knows m (first :: rest) := .cons (hfirst.mono (by omega)) hrest
  refine Yields.bind (.make (fun _ => rfl) fun _ => ⟨hpath.outlines rfl, trivial⟩)
    fun d m hm hd => ?_
  exact Yields.endLine.bind fun _ _ _ _ => .known (hd.mono (by omega))

theorem modifiers_keeps : Keeps w n modifiers := by
  have hstart : w.Knows n (false, ([] : List String)) := ⟨trivial, nofun⟩
  refine (Yields.foldWhile hstart fun x m hm hx => ?_).bind fun x _ _ _ => .kept
  refine Yields.accept.bind fun o m hm _ => ?_
  cases o with
  | none => exact .known .none
  | some t =>
    dsimp only
    split
    · exact .reject
    · exact .known (.some ⟨trivial, .cons trivial (hx.2.mono (by omega))⟩)

section Scoped

variable {types : TypeParsers} (ht : types.Storing w) {s : Scope} (hs : w.Knows n s)

include ht hs

theorem result_stores : Stores w n (result types s) := by
  refine Yields.position.bind fun start m hm _ => ?_
  have hrest : ∀ {k} {x : TypeExpr × Identifier}, m ≤ k → w.Knows k x → Stores w k (do
      let v ← make start fun m => Variable.mk m x.2 x.1
      return (v, ← ofExcept (s.declareVariable v))) := by
    intro k x hk hx
    refine (Yields.makeVariable hx.2 hx.1).bind fun v j hj hv => ?_
    have hscope : w.Knows j s := hs.mono (by omega)
    refine (Yields.ofExcept fun s' i hs' hi => (hscope.declareVariable hs' hv.2).mono hi).bind
      fun s' i hi hs' => .known ⟨hv.1.mono (by omega), hs'⟩
  refine Yields.accept.bind fun o k hk _ => ?_
  cases o with
  | some _ =>
    refine (TypeParsers.named_stores ht (hs.mono (by omega))).bind fun named k hk hnamed => ?_
    refine Yields.expect.bind fun _ k hk _ => ?_
    exact (Yields.known (hnamed.mono (by omega))).bind fun x j hj hx => hrest (by omega) hx
  | none =>
    refine (ht.type (hs.mono (by omega))).bind fun type k hk htype => ?_
    refine Yields.bind (.allocate (fun _ => rfl) fun _ => ⟨trivial, trivial⟩)
      fun name k hk hname => ?_
    have hnamed : w.Knows k (type, name) := ⟨htype.mono (by omega), hname⟩
    exact (Yields.known hnamed).bind fun x j hj hx => hrest (by omega) hx

theorem results_stores : Stores w n (results types s) := by
  refine Yields.accept.bind fun o m hm _ => ?_
  cases o with
  | none => exact .known ⟨.nil, hs.mono (by omega)⟩
  | some _ =>
    refine Yields.ahead.bind fun b m hm _ => ?_
    split
    · exact parameters_stores ht (hs.mono (by omega))
    · exact (result_stores ht (hs.mono (by omega))).bind fun x _ _ hx => .known
        ⟨.cons hx.1 .nil, hx.2⟩

end Scoped

section Rules

variable {g : DeclParsers} (hg : StmtParsers.Storing w g) {start : Nat} {modifiers : List String}

include hg

theorem routine_stores {s : Scope} (hs : w.Knows n s) : Stores w n (g.routine modifiers s) := by
  refine identifier_stores.bind fun name m hm hname => ?_
  refine (parameters_stores hg.exprs.types (hs.mono (by omega))).bind fun x m hm hx => ?_
  refine (results_stores hg.exprs.types hx.2).bind fun y m hm hy => ?_
  refine (clauses_stores hg.exprs hy.2).bind fun requires m hm hrequires => ?_
  refine (clauses_stores hg.exprs (hy.2.mono (by omega))).bind fun ensures m hm hensures => ?_
  refine StmtParsers.headerEnd_keeps.bind fun _ m hm _ => ?_
  have hbodyScope : w.Knows m y.2.declareThis := (hy.2.mono (by omega)).of_locals rfl
  refine (hg.block hbodyScope).bind fun body m hm hbody => .known ?_
  exact ⟨hname.mono (by omega), hx.1.mono (by omega), hy.1.mono (by omega), hrequires.mono
    (by omega), hensures.mono (by omega), hbody⟩

theorem typeDecl_stores : Stores w n (g.typeDecl start modifiers) := by
  refine Yields.advance.bind fun _ m hm _ => identifier_stores.bind fun name m hm hname => ?_
  refine Yields.expect.bind fun _ m hm _ => ?_
  refine (result_stores hg.exprs.types knows_root).bind fun x m hm hx => ?_
  have haliases : ∀ (is : List Identifier) (s : Scope), (is.foldl Scope.declareAlias s).locals =
      s.locals := by
    intro is
    induction is with
    | nil => exact fun _ => rfl
    | cons i is ih => exact fun s => ih _
  have hscope := hx.2.of_locals (haliases x.1.type.fieldNames x.2)
  refine (clauses_stores hg.exprs hscope).bind fun invariant m hm hinvariant => ?_
  refine Yields.bind (.make (fun _ => rfl) fun _ =>
    ⟨trivial, hname.mono (by omega), hx.1.mono (by omega), hinvariant.outlines rfl, trivial⟩)
      fun d m hm hd => ?_
  exact Yields.endLine.bind fun _ _ _ _ => .known (hd.mono (by omega))

theorem constant_stores : Stores w n (g.constant start modifiers) := by
  refine Yields.advance.bind fun _ m hm _ => identifier_stores.bind fun name m hm hname => ?_
  refine Yields.expect.bind fun _ m hm _ => ?_
  refine (StmtParsers.expression_stores hg knows_root).bind fun value m hm hvalue => ?_
  refine Yields.bind
    (.make (fun _ => rfl) fun _ => ⟨trivial, hname.mono (by omega), hvalue, trivial⟩)
    fun d m hm hd => ?_
  exact Yields.endLine.bind fun _ _ _ _ => .known (hd.mono (by omega))

theorem function_stores : Stores w n (g.function start modifiers) := by
  refine Yields.advance.bind fun _ m hm _ => (routine_stores hg knows_root).bind fun r m hm hr => ?_
  exact .make (fun _ => rfl) fun _ => hr.entries trivial

theorem method_stores : Stores w n (g.method start modifiers) := by
  refine Yields.advance.bind fun _ m hm _ => ?_
  refine (optionalLifetimeParameters_stores knows_root).bind fun x m hm hx => ?_
  refine (routine_stores hg hx.2).bind fun r m hm hr => ?_
  have hlifetimes : w.Knows m x.1 := hx.1.mono (by omega)
  exact .make (fun _ => rfl) fun _ => hr.entries ⟨hlifetimes.outlines rfl, trivial⟩

theorem property_stores : Stores w n (g.property start modifiers) := by
  refine Yields.advance.bind fun _ m hm _ => identifier_stores.bind fun name m hm hname => ?_
  refine (parameters_stores hg.exprs.types knows_root).bind fun x m hm hx => ?_
  refine (clauses_stores hg.exprs hx.2).bind fun invariant m hm hinvariant => ?_
  have hparameters : w.Knows m x.1 := hx.1.mono (by omega)
  refine Yields.bind (.make (fun _ => rfl) fun _ => ⟨trivial, hname.mono (by omega),
    hparameters.outlines rfl, hinvariant.outlines rfl, trivial⟩) fun d m hm hd => ?_
  exact Yields.endLine.bind fun _ _ _ _ => .known (hd.mono (by omega))

theorem declaration_stores : Stores w n (declaration g) := by
  refine Yields.settle.bind fun start m hm _ => Yields.current.bind fun t m hm _ => ?_
  split
  · exact imports_stores
  · refine modifiers_keeps.bind fun modifiers m hm _ => Yields.current.bind fun t m hm _ => ?_
    split
    · exact typeDecl_stores hg
    · split
      · exact constant_stores hg
      · split
        · exact function_stores hg
        · split
          · exact method_stores hg
          · split
            · exact property_stores hg
            · exact .reject

end Rules

end DeclParsers

theorem packageComponent_keeps : Keeps w n packageComponent :=
  Yields.expect.bind fun _ _ _ _ => .kept

theorem package_keeps : Keeps w n package := by
  refine Yields.accept.bind fun o m hm _ => ?_
  cases o with
  | none => exact .kept
  | some _ =>
    refine packageComponent_keeps.bind fun first m hm _ => ?_
    refine (Yields.afterEach fun k hk => ?_).bind fun rest m hm _ => Yields.endLine.bind
      fun _ _ _ _ => .kept
    exact Yields.expect.bind fun _ _ _ _ => .pure fun _ _ => trivial

theorem moreTokens_keeps : Keeps w n moreTokens :=
  Yields.tokens.bind fun _ _ _ _ => Yields.position.bind fun _ _ _ _ =>
    Yields.moveTo.bind fun _ _ _ _ => .kept

theorem module_stores {g : DeclParsers} (hg : StmtParsers.Storing w g) :
    Yields w n (module g) fun k m => w.Knows k m ∧ w.arena.toList[k - 1]? = some (.module m) := by
  refine package_keeps.bind fun package m hm _ => ?_
  refine Yields.bind (Yields.many fun k hk => moreTokens_keeps.bind fun b j hj _ => ?_ :
    Stores w m (many (α := Decl) _)) fun declarations m hm hdeclarations => ?_
  · split
    · exact (DeclParsers.declaration_stores hg).bind fun d _ _ hd => .known (.some hd)
    · exact .known .none
  · refine Yields.tokens.bind fun _ m hm _ => ?_
    have hall : w.StandsAll m [.mk "package" (.words package),
        .mk "declarations" (.children (declarations.map Decl.outline))] :=
      ⟨trivial, (hdeclarations.mono (by omega)).outlines rfl, trivial⟩
    refine .allocated (fun i hi => (hall.mono hi).admits rfl) fun i hentry => ?_
    exact ⟨Yields.stands_entry rfl hentry, hentry⟩

theorem ofDepth_storing (depth : Nat) : StmtParsers.Storing w (ofDepth depth) := by
  have hexprs := ExprParsers.ofDepth_storing (TypeParsers.ofDepth_storing (w := w) depth) depth
  exact StmtParsers.ofDepth_storing hexprs (TargetParser.ofDepth_stores hexprs depth) depth

end Grammar

/-- Nothing is stored out of order, abandoned attempts included, and the module is stored last. -/
theorem parse_stores {tokens : List Token} {m : Module} {arena : Arena Node}
    (h : parse tokens = .ok (m, arena)) : arena.Ordered ∧
      arena.Stands arena.size m.outline ∧ arena.toList[arena.size - 1]? = some (.module m) := by
  obtain ⟨s, rfl, hrun⟩ := parseInto_ok h
  have hmodule := Grammar.module_stores (w := ⟨.ofTokens tokens, s.arena⟩) (n := 0)
    (Grammar.ofDepth_storing (Grammar.depthFor tokens.length)) ⟨0, .empty⟩ (Nat.zero_le _) nofun
  rw [hrun] at hmodule
  exact hmodule (Arena.le_refl s.arena)

theorem parse_ordered {tokens : List Token} {m : Module} {arena : Arena Node}
    (h : parse tokens = .ok (m, arena)) :
    arena.toList.getLast? = some (.module m) ∧
      ∀ o, m.outline.Reaches o →
        (∃! i : Nat, (arena.toList[i]?).map Node.outline = some o) ∧
        (arena.toList[o.mark.index]?).map Node.outline = some o ∧
        (∀ c ∈ o.children, c.mark.index < o.mark.index) ∧
        ∀ mark name d, o = (Expr.variableAccess mark name (some d)).outline →
          d < mark.index ∧ ∃ v initialiser,
            arena.toList[d]? = some (.variable v initialiser) ∧ v.name.text = name.text := by
  obtain ⟨hordered, hroot, hlast⟩ := parse_stores h
  refine ⟨?_, fun o hreaches => ?_⟩
  · rw [List.getLast?_eq_getElem?, Arena.length_toList]
    exact hlast
  · have ho := hordered.stands_of_reaches hroot hreaches
    have hadmits := hordered.admits ho
    refine ⟨hordered.unique ho, ho.2, fun c hc => (hadmits.children c hc).1, ?_⟩
    rintro mark name d rfl
    have hmark : (Expr.variableAccess mark name (some d)).outline.mark = mark := by
      rw [Expr.outline, Outline.mark]
    rw [← hmark]
    exact hadmits.link mark name d rfl

def squaring : String :=
  "method main(int x):\n    int y = x * x\n    assert y >= x\n"

theorem parse_ordered_squaring :
    ∃ ts m arena, lex squaring = .ok ts ∧ parse ts = .ok (m, arena) ∧ arena.size = 22 ∧
      arena.toList.getLast? = some (.module m) ∧
      ∀ o, m.outline.Reaches o → ∃! i : Nat, (arena.toList[i]?).map Node.outline = some o := by
  have hlex : lex squaring = .ok ((lex squaring).toOption.getD []) := by decide +kernel
  have hsize : (parse ((lex squaring).toOption.getD [])).toOption.map (·.2.size) = some 22 := by
    decide +kernel
  cases hparse : parse ((lex squaring).toOption.getD []) with
  | error f =>
    rw [hparse] at hsize
    cases hsize
  | ok x =>
    rw [hparse] at hsize
    obtain ⟨hlast, hreached⟩ := parse_ordered hparse
    exact ⟨_, x.1, x.2, hlex, hparse, Option.some.inj hsize, hlast, fun o ho => (hreached o ho).1⟩

end Whiley
