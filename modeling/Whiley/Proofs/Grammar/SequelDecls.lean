import Whiley.Grammar.Decls
import Whiley.Proofs.Grammar.SequelStmts

namespace Whiley.Grammar

open Whiley.Parser

variable {x : Extension} {c d : List Kind} {start : Nat} {scope : Scope}

theorem afterAny_calm {k : Kind} (hk : k ≠ .less) : Calm (k :: c) :=
  fun h => hk (Option.some.inj h)

namespace DeclParsers

theorem component_follows : Follows x True (x.On c) component component fun _ => x.Where Calm := by
  refine (Follows.accept (by decide)).then_ fun o d htaken => ?_
  cases htaken with
  | some hk =>
    rw [List.mem_singleton.mp hk]
    exact Follows.allocate fun _ _ _ => Follows.where_of_on (afterAny_calm (by decide))
  | none =>
    exact (identifier_follows fun _ => trivial).weaken fun _ _ _ =>
      Follows.where_of_on (afterAny_calm (by decide))

theorem imports_follows : Follows x True (x.On c) imports imports fun _ => x.Rest := by
  refine .placed fun start hstart => (Follows.expect fun _ => trivial).bind fun _ => ?_
  refine (identifier_follows fun _ => trivial).bind fun first => ?_
  refine (Follows.afterEach (S := Calm) (by decide) (afterAny_calm (by decide)) fun d _ =>
    component_follows).then_ fun rest d hd => ?_
  exact ended_follows hstart hd fun _ => .pure fun _ _ => Follows.rest_of_line

theorem modifiers_strays (hc : Calm c) : Strays x True (x.On c) modifiers modifiers
    (fun _ => x.Where Calm) fun _ s => x.Spot x.final s.pos := by
  refine Strays.mono (P := x.Where Calm) ?_ fun _ _ => Follows.where_of_on hc
  refine (Strays.foldWhile (I := fun _ => x.Where Calm) (J := fun _ => x.Where Calm)
    (Z := fun s => x.Spot x.final s.pos) fun y => .from_where fun c hc => ?_).then_
      (fun y => .of_follows (.pure fun _ _ => id)) fun y s hs => ⟨_, s, rfl, hs⟩
  refine (Strays.accept (by decide)).then_ (fun o => .of_follows (.from_where fun d htaken => ?_)) ?_
  · cases htaken with
    | none => exact .pure fun _ _ => Follows.where_of_on hc
    | @some t hk =>
      have hcalm : ∀ k ∈ [Kind.kwPublic, .kwPrivate, .kwNative, .kwExport], k ≠ .less := by decide
      dsimp only
      split
      · exact .reject
      · exact .pure fun _ _ => Follows.where_of_on (afterAny_calm (hcalm _ hk))
  · rintro o s ⟨rfl, hs, hend⟩
    exact ⟨none, s, rfl, rfl, hend ▸ hs⟩

section Results

variable {g g' : TypeParsers} (hg : g.Following x g')

include hg

theorem result_follows : Follows x True (x.On c) (result g scope) (result g' scope)
    fun _ => x.Where Calm := by
  refine .placed fun start hstart => ?_
  have hrest : ∀ y : TypeExpr × Identifier, Follows x True (x.Where Calm)
      (do
        let v ← make start (Variable.mk · y.2 y.1)
        return (v, ← ofExcept (scope.declareVariable v)))
      (do
        let v ← make start (Variable.mk · y.2 y.1)
        return (v, ← ofExcept (scope.declareVariable v))) fun _ => x.Where Calm := fun y =>
    .from_where fun d hd => (Follows.made (R := fun _ => Calm) hstart fun _ => hd).bind fun v =>
      Follows.ofExcept.bind fun _ => .pure fun _ _ => id
  refine (Follows.accept (by decide)).then_ fun o d htaken => ?_
  cases htaken with
  | some _ =>
    refine (TypeParsers.named_typed hg .refl .refl).anyway.then_ fun named d _ => ?_
    refine (Follows.expect fun _ => trivial).bind fun _ => ?_
    exact (Follows.given (R := fun _ => Calm) (afterAny_calm (by decide))).bind hrest
  | none =>
    refine (hg.type scope .refl .refl).anyway.then_ fun type d hd => ?_
    refine Follows.bind (R := fun _ => x.On d) (.allocate fun _ _ _ => id) fun name => ?_
    exact (Follows.given (R := fun _ => Calm) hd.2.calm).bind hrest

theorem results_follows (hc : Calm c) : Follows x True (x.On c) (results g scope)
    (results g' scope) fun _ => x.Where Calm := by
  refine (Follows.accept (by decide)).then_ fun o d htaken => ?_
  cases htaken with
  | none => exact .given hc
  | some _ =>
    refine (Follows.ahead (by decide)).bind fun b => ?_
    split
    · refine (parameters_follows hg).weaken fun _ p q ⟨hpq, hp, e, _, hd⟩ => ⟨hpq, hp, ?_⟩
      exact hd ▸ afterAny_calm (by decide)
    · exact (result_follows hg).bind fun _ => .pure fun _ _ => id

end Results

section Rules

variable {g g' : DeclParsers} (hg : StmtParsers.Following x g g') {ms : List String}

include hg

theorem typeDecl_follows (hstart : x.Spot c start) {t : Token} :
    Follows x True (x.Before d t) (typeDecl g start ms) (typeDecl g' start ms)
      fun _ => x.Rest := by
  refine (Follows.before (.advance fun _ => trivial)).then_ fun _ d _ => ?_
  refine (identifier_follows fun _ => trivial).bind fun name => ?_
  refine (Follows.expect fun _ => trivial).bind fun _ => ?_
  refine (result_follows hg.exprs.types).then_ fun y d hd => ?_
  refine (clauses_follows hg.exprs (by decide) hd).then_ fun invariant d hd => ?_
  exact ended_follows hstart hd fun _ => .pure fun _ _ => Follows.rest_of_line

theorem constant_follows (hstart : x.Spot c start) {t : Token} :
    Follows x True (x.Before d t) (constant g start ms) (constant g' start ms)
      fun _ => x.Rest := by
  refine (Follows.before (.advance fun _ => trivial)).then_ fun _ d _ => ?_
  refine (identifier_follows fun _ => trivial).bind fun name => ?_
  refine (Follows.expect fun _ => trivial).bind fun _ => ?_
  refine (StmtParsers.expression_expressed hg _).then_ fun value d hd => ?_
  exact ended_follows hstart hd.1.calm fun _ => .pure fun _ _ => Follows.rest_of_line

theorem routine_follows : Follows x True (x.On c) (routine g ms scope) (routine g' ms scope)
    fun _ => x.Rest := by
  refine (identifier_follows fun _ => trivial).bind fun name => ?_
  refine (parameters_follows hg.exprs.types).then_ fun y d ⟨e, _, hd⟩ => ?_
  have hcalm : Calm d := hd ▸ afterAny_calm (by decide)
  refine (results_follows hg.exprs.types hcalm).then_ fun z d hd => ?_
  refine (clauses_follows hg.exprs (by decide) hd).then_ fun requires d hd => ?_
  refine (clauses_follows hg.exprs (by decide) hd).then_ fun ensures d hd => ?_
  refine headerEnd_follows.bind fun _ => (hg.block _ false).bind fun body => ?_
  exact .pure fun _ _ => id

theorem function_follows (hstart : x.Spot c start) {t : Token} :
    Follows x True (x.Before d t) (function g start ms) (function g' start ms)
      fun _ => x.Rest := by
  refine (Follows.before (.advance fun _ => trivial)).then_ fun _ d _ => ?_
  exact (routine_follows hg).bind fun r => made_rest hstart

theorem method_follows (hstart : x.Spot c start) {t : Token} :
    Follows x True (x.Before d t) (method g start ms) (method g' start ms) fun _ => x.Rest := by
  refine (Follows.before (.advance fun _ => trivial)).then_ fun _ d _ => ?_
  refine (optionalLifetimeParameters_follows .refl .refl).anyway.then_ fun y e _ => ?_
  exact (routine_follows hg).bind fun r => made_rest hstart

theorem property_follows (hstart : x.Spot c start) {t : Token} :
    Follows x True (x.Before d t) (property g start ms) (property g' start ms)
      fun _ => x.Rest := by
  refine (Follows.before (.advance fun _ => trivial)).then_ fun _ d _ => ?_
  refine (identifier_follows fun _ => trivial).bind fun name => ?_
  refine (parameters_follows hg.exprs.types).then_ fun y d ⟨e, _, hd⟩ => ?_
  have hcalm : Calm d := hd ▸ afterAny_calm (by decide)
  refine (clauses_follows hg.exprs (by decide) hcalm).then_ fun invariant d hd => ?_
  exact ended_follows hstart hd fun _ => .pure fun _ _ => Follows.rest_of_line

theorem declaration_follows : Follows x True x.Rest (declaration g) (declaration g')
    fun _ => x.Rest := by
  refine .settled_rest fun c t start hc hstart => Follows.current_before.bind fun u => ?_
  split
  · exact imports_follows.before.mono id (fun _ _ h => h.2) fun _ _ _ => id
  · refine Follows.mono ((modifiers_strays hc).bind (fun ms => .from_where fun d _ => ?_) ?_) id
      (fun _ _ h => h.2.1) fun _ _ _ => id
    · refine (Follows.current fun _ => trivial).bind fun u => ?_
      split
      · exact typeDecl_follows hg hstart
      · split
        · exact constant_follows hg hstart
        · split
          · exact function_follows hg hstart
          · split
            · exact method_follows hg hstart
            · split
              · exact property_follows hg hstart
              · exact .reject
    · refine fun ms s hs => ⟨trivial, fun d s' hrun => ?_⟩
      obtain ⟨u, s'', hcurrent, -⟩ := bind_ok hrun
      exact Follows.no_current rfl hs u s'' hcurrent

end Rules

end DeclParsers

theorem packageComponent_follows : Follows x True (x.On c) packageComponent packageComponent
    fun _ => x.Where Calm :=
  (Follows.expect fun _ => trivial).bind fun _ => .given (afterAny_calm (by decide))

theorem package_follows (hc : Calm c) : Follows x True (x.On c) package package
    fun _ => x.Rest := by
  refine (Follows.accept (by decide)).then_ fun o d htaken => ?_
  cases htaken with
  | none => exact .pure fun _ _ h => Follows.rest_of_where (Follows.where_of_on hc h)
  | some _ =>
    refine packageComponent_follows.then_ fun first d hd => ?_
    refine (Follows.afterEach (by decide) hd fun _ _ => packageComponent_follows).then_
      fun rest d hd => ?_
    exact (Follows.endLine hd).bind fun _ => .pure fun _ _ => Follows.rest_of_line

theorem ofDepth_following {depth depth' : Nat} (hdepth : depth ≤ depth') :
    StmtParsers.Following x (ofDepth depth) (ofDepth depth') := by
  have hexprs := ExprParsers.ofDepth_following (TypeParsers.ofDepth_following (x := x) hdepth) hdepth
  have htarget := TargetParser.ofDepth_following hexprs hdepth
  exact StmtParsers.ofDepth_following hexprs htarget (ofDepth_rereads depth).type hdepth

end Whiley.Grammar
