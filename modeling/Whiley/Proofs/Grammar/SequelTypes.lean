import Whiley.Grammar.Stmts
import Whiley.Proofs.Grammar.Sequel

namespace Whiley.Grammar

open Whiley.Parser

variable {x : Extension} {E : Prop} {P : Nat → Nat → Prop} {c : List Kind}

theorem identifierOf_follows {t : Token} :
    Follows x E P (identifierOf t) (identifierOf t) fun _ => P :=
  .allocate fun _ _ _ => id

theorem identifier_follows (hE : c = x.final → E) :
    Follows x E (x.On c) identifier identifier fun _ => x.On (.identifier :: c) :=
  (Follows.expect hE).bind fun _ => identifierOf_follows

theorem optionalIdentifier_follows :
    Follows x E (x.On c) optionalIdentifier optionalIdentifier
      fun o => x.On (o.elim c fun _ => .identifier :: c) := by
  refine (Follows.accept_here (by decide)).then_ fun o c' ho => ?_
  cases ho with
  | none => exact .pure fun _ _ => id
  | some hk =>
    rw [List.mem_singleton.mp hk]
    exact identifierOf_follows.bind fun _ => .pure fun _ _ => id

theorem nameOf_follows {i : Identifier} : Follows x E P (nameOf i) (nameOf i) fun _ => P :=
  .allocate fun _ _ _ => id

theorem qualifiedName_follows (hE : c = x.final → E)
    (hmore : ∀ d, Named c d → .colonColon :: d = x.final → E) :
    Follows x E (x.On c) qualifiedName qualifiedName fun _ => x.Where (Named c) := by
  refine Follows.settled hE fun start hstart => (identifier_follows hE).bind fun first => ?_
  refine (Follows.afterEach (S := Named c) (by decide) .one fun d hd => ?_).then_ fun rest d hd => ?_
  · exact (identifier_follows (hmore d hd)).weaken fun _ _ _ => Follows.where_of_on hd.more
  · exact .made hstart fun _ => hd

theorem optionalLifetime_follows : Follows x E (x.On c) (optionalLifetime false)
    (optionalLifetime false) fun o => x.Where fun c' =>
      o.elim (c' = c) fun _ => ∃ k ∈ lifetimeKinds, c' = k :: c := by
  refine (Follows.accept_here (by decide)).then_ fun o c' ho => ?_
  cases ho with
  | none => exact .given rfl
  | some hk => exact identifierOf_follows.bind fun _ => .given ⟨_, hk, rfl⟩

theorem lifetime_follows (hE : c = x.final → E) :
    Follows x E (x.On c) lifetime lifetime fun _ =>
      x.Where fun c' => ∃ k ∈ lifetimeKinds, c' = k :: c := by
  rw [lifetime, optionalLifetime, bind_assoc]
  refine (Strays.accept (by decide)).bind (fun o => .from_where fun c' ho => ?_) ?_
  · cases ho with
    | none => exact (Follows.current hE).bind fun t => .reject
    | some hk =>
      rw [bind_assoc]
      exact identifierOf_follows.bind fun l => .given ⟨_, hk, rfl⟩
  · rintro o s ⟨rfl, hs, hend⟩
    refine ⟨hE hend, fun l s' hrun => ?_⟩
    obtain ⟨o, u, hnone, hrun⟩ := bind_ok hrun
    obtain ⟨rfl, rfl⟩ := pure_ok hnone
    obtain ⟨t, u, -, hrun⟩ := bind_ok hrun
    cases hrun

section Lifetimes

variable {base : List Kind} (ho : Open base c) {scope : Scope}

include ho

theorem lifetimeParameter_follows :
    Follows x (Open base x.final) (x.On c) (lifetimeParameter scope) (lifetimeParameter scope)
      fun _ => x.On (.identifier :: c) :=
  (identifier_follows ho.ends).bind fun _ => Follows.ofExcept.bind fun _ => .pure fun _ _ => id

theorem lifetimeParameters_follows :
    Follows x (Open base x.final) (x.On c) (lifetimeParameters scope) (lifetimeParameters scope)
      fun _ => x.Where fun c' => ∃ d, c' = .greater :: d ∧ Through base c d := by
  refine (lifetimeParameter_follows ho).bind fun first => ?_
  refine (Follows.foldAlong (K := fun _ => Through base c) (L := fun _ => Through base c)
    (.plain ho (by decide)) fun found d hd => ?_).then_ fun found d hd => ?_
  · refine (Follows.accept (by decide)).then_ fun o c' ho => ?_
    cases ho with
    | none => exact .given hd
    | some hk =>
      rw [List.mem_singleton.mp hk]
      have hcomma := hd.next (k := .comma) (by decide)
      exact (lifetimeParameter_follows hcomma.1).bind fun l => .given (hcomma.next (by decide))
  · exact (Follows.expect hd.1.ends).bind fun _ => .given ⟨d, rfl, hd⟩

variable (hfresh : Fresh base c)

include hfresh

theorem optionalLifetimeParameters_follows :
    Follows x (Open base x.final) (x.On c) (optionalLifetimeParameters scope)
      (optionalLifetimeParameters scope) fun _ =>
        x.Where fun c' => Open base c' ∧ Fresh base c' ∧ Grows c c' := by
  have hless := ho.less hfresh
  refine (Follows.accept (by decide)).then_ fun o c' htaken => ?_
  cases htaken with
  | none => exact .given ⟨ho, hfresh, .refl⟩
  | some hk =>
    rw [List.mem_singleton.mp hk]
    refine (Follows.accept (by decide)).then_ fun o c' htaken => ?_
    cases htaken with
    | none =>
      refine (lifetimeParameters_follows hless).weaken fun _ p q h => ⟨h.1, h.2.1, ?_⟩
      obtain ⟨d, hd, hopen, hspans⟩ := h.2.2
      rw [hd]
      refine ⟨hopen.plain (by decide), .head (by decide), ?_⟩
      exact (Spans.after (by decide) (hspans.trans (Spans.token (by decide)).grows)).grows
    | some hk =>
      rw [List.mem_singleton.mp hk]
      refine .given ⟨hless.plain (by decide), .head (by decide), ?_⟩
      exact (Spans.after (by decide) (.token (by decide))).grows

theorem optionalCaptures_follows :
    Follows x (Open base x.final) (x.On c) optionalCaptures optionalCaptures fun _ =>
      x.Where fun c' => Open base c' ∧ Fresh base c' ∧ Grows c c' := by
  refine (Follows.accept (by decide)).then_ fun o c' htaken => ?_
  cases htaken with
  | none => exact .given ⟨ho, hfresh, .refl⟩
  | some hk =>
    rw [List.mem_singleton.mp hk]
    have hopen := Through.plain (k := .lbracket) ho (by decide)
    refine (Follows.accept (by decide)).then_ fun o c' htaken => ?_
    cases htaken with
    | some hk =>
      rw [List.mem_singleton.mp hk]
      have hclose := hopen.next (k := .rbracket) (by decide)
      exact .given ⟨hclose.1, .head (by decide), hclose.2.grows⟩
    | none =>
      refine (lifetime_follows hopen.1.ends).then_ fun first c' ⟨k, hk, hc'⟩ => ?_
      subst hc'
      refine (Follows.afterEach (S := Through base c) (by decide)
        (hopen.next (lifetimeKinds_plain hk)) fun d hd => ?_).then_ fun rest d hd => ?_
      · have hcomma := hd.next (k := .comma) (by decide)
        refine (lifetime_follows hcomma.1.ends).weaken fun l p q ⟨hpq, hp, k, hk, htrail⟩ => ?_
        exact ⟨hpq, hp, htrail ▸ hcomma.next (lifetimeKinds_plain hk)⟩
      · have hclose := hd.next (k := .rbracket) (by decide)
        exact (Follows.expect hd.1.ends).bind fun _ =>
          .given ⟨hclose.1, .head (by decide), hclose.2.grows⟩

end Lifetimes

/-- A parser that follows, and leaves a trail that types leave; names do not stand before it. -/
def Typed (x : Extension) {α : Type} (p q : Parser α) : Prop :=
  ∀ ⦃base c⦄, Open base c → Fresh base c →
    Follows x (Open base x.final) (x.On c) p q fun _ => x.Where (Through base c)

theorem Typed.extend {α : Type} {base d : List Kind} {p q : Parser α} (hp : Typed x p q)
    (h : Through base c d) (hfresh : Fresh base d) :
    Follows x (Open base x.final) (x.On d) p q fun _ => x.Where (Through base c) :=
  (hp h.1 hfresh).weaken fun _ _ _ hend => ⟨hend.1, hend.2.1, h.trans hend.2.2⟩

namespace TypeParsers

/-- What the rules for types need of the grammar that they go back to. -/
structure Following (x : Extension) (g g' : TypeParsers) : Prop where
  type : ∀ scope, Typed x (g.type scope) (g'.type scope)
  array : ∀ scope, Typed x (g.array scope) (g'.array scope)

theorem separated_typed {level level' : Scope → Parser TypeExpr} {separator : Kind}
    {build : Mark → List TypeExpr → TypeExpr} {scope : Scope}
    (hlevel : Typed x (level scope) (level' scope)) (hs : separator ∈ [Kind.ampersand, .bar]) :
    Typed x (separated level separator build scope) (separated level' separator build scope) := by
  have hkind : separator ∉ [Kind.assign, .rparen, .less, .lparen] ∧ separator ≠ .identifier ∧
      Inner [separator] := by
    revert separator
    decide
  intro base c ho hfresh
  refine .settled ho.ends fun start hstart => (hlevel ho hfresh).then_ fun first d hd => ?_
  refine (Follows.afterEach (S := Through base c) hkind.2.2 hd fun d hd => ?_).then_
    fun rest d hd => ?_
  · exact hlevel.extend (hd.next hkind.1) (.head hkind.2.1)
  · cases rest with
    | nil => exact .given hd
    | cons t ts => exact .made hstart fun _ => hd

theorem primitive_follows {base : List Kind} {t : Token} {start : Nat} (ho : Open base c)
    (hstart : x.Spot c start) (ht : t.kind ∉ [Kind.assign, .rparen, .less, .lparen]) :
    Follows x (Open base x.final) (x.Before c t)
      (do
        let _ ← advance
        make start (TypeExpr.primitive · t.text))
      (do
        let _ ← advance
        make start (TypeExpr.primitive · t.text)) fun _ => x.Where (Through base c) := by
  refine Follows.advance_before.then_ fun _ d hd => ?_
  rw [hd.2]
  exact .made hstart fun _ => .plain ho ht

section Rules

variable {g g' : TypeParsers} (hg : Following x g g') {scope : Scope}

include hg

theorem parameterTypes_follows {base : List Kind} (ho : Open base c)
    (hopen : Open base (.lparen :: c)) :
    Follows x (Open base x.final) (x.On c) (g.parameterTypes scope) (g'.parameterTypes scope)
      fun _ => x.Where (Through base c) := by
  refine (Follows.expect ho.ends).bind fun _ => ?_
  refine (Follows.listUntil (S := fun d => Open base d ∧ Grows (.lparen :: c) d)
    (T := fun d => Open base d ∧ Fresh base d ∧ Grows (.lparen :: c) d)
    ⟨hopen, .head (by decide), .refl⟩ ?_ ?_ ?_).weaken fun _ p q hend => ⟨hend.1, hend.2.1, ?_⟩
  · rintro d (hd | hd) hend
    · exact hd.1.ends hend
    · exact hd.1.ends hend
  · intro d hd
    have hcomma := Through.plain (k := .comma) hd.1 (by decide)
    exact ⟨hcomma.1, .head (by decide), hd.2.trans hcomma.2.grows⟩
  · rintro d ⟨hd, hfresh, hgrows⟩
    exact (hg.type scope hd hfresh).weaken fun _ p q hend =>
      ⟨hend.1, hend.2.1, hend.2.2.1, hgrows.trans hend.2.2.2.grows⟩
  · obtain ⟨d, hd | hd, htrail⟩ := hend.2.2
    · exact htrail ▸ .brackets ho hd.1 hd.2
    · exact htrail ▸ .brackets ho hd.1 hd.2.2

theorem returnTypes_typed : Typed x (g.returnTypes scope) (g'.returnTypes scope) := by
  intro base c ho hfresh
  refine (Follows.ahead (by decide)).bind fun b => ?_
  split
  · exact parameterTypes_follows hg ho (ho.lparen hfresh)
  · exact (hg.type scope ho hfresh).then_ fun _ _ h => .given h

theorem optionalReturnTypes_follows {base : List Kind} (ho : Open base c) :
    Follows x (Open base x.final) (x.On c) (g.optionalReturnTypes scope)
      (g'.optionalReturnTypes scope) fun _ => x.Where fun d => Open base d ∧ Grows c d := by
  refine (Follows.accept (by decide)).then_ fun o d htaken => ?_
  cases htaken with
  | none => exact .given ⟨ho, .refl⟩
  | some hk =>
    rw [List.mem_singleton.mp hk]
    refine ((returnTypes_typed hg).extend (.plain (k := .arrow) ho (by decide))
      (.head (by decide))).weaken fun _ p q hend => ⟨hend.1, hend.2.1, hend.2.2.1, ?_⟩
    exact hend.2.2.2.grows

theorem typeThenName_typed : Typed x (g.typeThenName scope) (g'.typeThenName scope) := by
  intro base c ho hfresh
  refine (hg.type scope ho hfresh).then_ fun t d hd => ?_
  exact (identifier_follows hd.1.ends).bind fun name => .given (hd.next (by decide))

section Named

variable {base d : List Kind} {start : Nat} {k : Kind} (ho : Open base c) (hfresh : Fresh base c)
  (hstart : x.Spot c start) (hd : Open base d) (hk : k ∈ [Kind.kwFunction, .kwMethod, .greater])
  (hthrough : Through base c (k :: d))

include ho hfresh hstart hd hk hthrough

theorem namedFunction_follows :
    Follows x (Open base x.final) (x.On (k :: d)) (do
      match ← optionalIdentifier with
      | none =>
        moveTo start
        g.typeThenName scope
      | some name =>
        let parameters ← g.parameterTypes scope
        let _ ← expect .arrow
        let returns ← g.returnTypes scope
        return (← make start (TypeExpr.function · parameters returns), name))
      (do
      match ← optionalIdentifier with
      | none =>
        moveTo start
        g'.typeThenName scope
      | some name =>
        let parameters ← g'.parameterTypes scope
        let _ ← expect .arrow
        let returns ← g'.returnTypes scope
        return (← make start (TypeExpr.function · parameters returns), name))
      fun _ => x.Where (Through base c) := by
  refine optionalIdentifier_follows.bind fun o => ?_
  cases o with
  | none => exact (Follows.moveTo hstart).bind fun _ => typeThenName_typed hg ho hfresh
  | some name =>
    have hname := hthrough.next (k := .identifier) (by decide)
    refine (parameterTypes_follows hg hname.1 (hd.lparen_named hk)).then_ fun ps e he => ?_
    refine (Follows.expect he.1.ends).bind fun _ => ?_
    refine ((returnTypes_typed hg).extend ((hname.trans he).next (k := .arrow) (by decide))
      (.head (by decide))).then_ fun rs e he => ?_
    exact (Follows.made (R := fun _ => Through base c) hstart fun _ => he).then_
      fun t e he => .given he

theorem namedMethod_follows (y : List Identifier × Scope) :
    Follows x (Open base x.final) (x.On (k :: d)) (do
      match ← optionalIdentifier with
      | none =>
        moveTo start
        g.typeThenName scope
      | some name =>
        let parameters ← g.parameterTypes y.2
        let returns ← g.optionalReturnTypes y.2
        return (← make start (TypeExpr.method · parameters returns [] y.1), name))
      (do
      match ← optionalIdentifier with
      | none =>
        moveTo start
        g'.typeThenName scope
      | some name =>
        let parameters ← g'.parameterTypes y.2
        let returns ← g'.optionalReturnTypes y.2
        return (← make start (TypeExpr.method · parameters returns [] y.1), name))
      fun _ => x.Where (Through base c) := by
  refine optionalIdentifier_follows.bind fun o => ?_
  cases o with
  | none => exact (Follows.moveTo hstart).bind fun _ => typeThenName_typed hg ho hfresh
  | some name =>
    have hname := hthrough.next (k := .identifier) (by decide)
    refine (parameterTypes_follows hg hname.1 (hd.lparen_named hk)).then_ fun ps e he => ?_
    refine (optionalReturnTypes_follows hg he.1).then_ fun rs f hf => ?_
    have hall : Through base c f := ⟨hf.1, (hname.trans he).2.trans hf.2⟩
    exact (Follows.made (R := fun _ => Through base c) hstart fun _ => hall).then_
      fun t e he => .given he

end Named

theorem named_typed : Typed x (g.named scope) (g'.named scope) := by
  intro base c ho hfresh
  refine .placed fun start hstart => (Strays.accept (by decide)).bind (fun o => ?_) ?_
  · refine .from_where fun d htaken => ?_
    cases htaken with
    | none => exact typeThenName_typed hg ho hfresh
    | @some t hk =>
      dsimp only
      split
      · rename_i hfunction
        rw [hfunction]
        exact namedFunction_follows hg ho hfresh hstart ho (by decide) (.plain ho (by decide))
      · rename_i hfunction
        have hmethod : t.kind = .kwMethod := by
          simpa [hfunction] using hk
        rw [hmethod]
        have hmethod := Through.plain (k := .kwMethod) ho (by decide)
        refine (Follows.accept (by decide)).then_ fun o d htaken => ?_
        cases htaken with
        | none =>
          exact (Follows.given (R := fun _ d => d = _) rfl).then_ fun y d hd =>
            hd ▸ namedMethod_follows hg ho hfresh hstart ho (by decide) hmethod y
        | some hk =>
          rw [List.mem_singleton.mp hk]
          have hless := hmethod.1.less (.head (by decide))
          refine (lifetimeParameters_follows hless).then_ fun y d ⟨e, hd, he⟩ => ?_
          subst hd
          refine namedMethod_follows hg ho hfresh hstart he.1 (by decide) ⟨?_, ?_⟩ y
          · exact he.1.plain (by decide)
          · have hspans := he.2.trans (Spans.token (k := .greater) (by decide)).grows
            exact hmethod.2.grows.spans (hspans.after (by decide))
  · rintro o s ⟨rfl, hs, hend⟩
    refine ⟨ho.ends hend, ?_⟩
    exact Follows.no_value (typeThenName_typed hg ho hfresh) (fun _ _ h => h.2) hend hs

theorem field_typed : Typed x (g.field scope) (g'.field scope) := by
  intro base c ho hfresh
  refine .settled ho.ends fun start hstart => (named_typed hg ho hfresh).then_ fun y d hd => ?_
  exact .made hstart fun _ => hd

theorem record_follows {base : List Kind} (ho : Open base c) :
    Follows x (Open base x.final) (x.On c) (g.record scope) (g'.record scope)
      fun _ => x.Where (Through base c) := by
  refine .placed fun start hstart => (Follows.expect ho.ends).bind fun _ => ?_
  refine ((field_typed hg).extend (.plain ho (by decide)) (.head (by decide))).then_
    fun first d hd => ?_
  refine Follows.bind (R := fun _ => x.Where (Through base c)) ?_ fun y => .from_where fun d hd =>
    .made hstart fun _ => hd
  refine Follows.mono (Follows.repeating (I := fun _ => x.Where (Through base c))
    (Q := fun _ => x.Where (Through base c)) fun found => .from_where fun d hd => ?_) id
    (fun _ _ => Follows.where_of_on hd) fun _ _ _ => id
  refine (Follows.acceptNext hd.1.ends).then_ fun o e htaken => ?_
  cases htaken with
  | some hk =>
    rw [List.mem_singleton.mp hk]
    exact .pure fun _ _ => Follows.where_of_on (hd.next (by decide))
  | none =>
    have hcomma := hd.next (k := .comma) (by decide)
    refine (Follows.expect hd.1.ends).bind fun _ => ?_
    refine (Follows.accept (by decide)).then_ fun o e htaken => ?_
    cases htaken with
    | some hk =>
      rw [List.mem_singleton.mp hk]
      have hdots := hcomma.next (k := .dotDotDot) (by decide)
      exact (Follows.expect hdots.1.ends).bind fun _ => .pure fun _ _ =>
        Follows.where_of_on (hdots.next (by decide))
    | none =>
      refine ((field_typed hg).extend hcomma (.head (by decide))).then_ fun next e he => ?_
      split
      · exact .reject
      · exact .pure fun _ _ => Follows.where_of_on he

theorem plainReference_follows {base d : List Kind} {start inside : Nat} (ho : Open base c)
    (hstart : x.Spot c start) (hinside : x.Spot (.ampersand :: c) inside) :
    Follows x (Open base x.final) (x.On d) (g.plainReference scope start inside)
      (g'.plainReference scope start inside) fun _ => x.Where (Through base c) := by
  refine (Follows.moveTo hinside).bind fun _ => ?_
  refine ((hg.array scope).extend (.plain ho (by decide)) (.head (by decide))).then_
    fun element e he => ?_
  exact .made hstart fun _ => he

theorem reference_follows {base : List Kind} (ho : Open base c) :
    Follows x (Open base x.final) (x.On c) (g.reference scope) (g'.reference scope)
      fun _ => x.Where (Through base c) := by
  refine .placed fun start hstart => (Follows.expect ho.ends).bind fun _ => ?_
  refine .placed fun inside hinside => optionalLifetime_follows.then_ fun o d hd => ?_
  cases o with
  | none => exact plainReference_follows hg ho hstart hinside
  | some l =>
    obtain ⟨k, hk, rfl⟩ := hd
    refine (Follows.accept (by decide)).then_ fun o e htaken => ?_
    cases htaken with
    | none => exact plainReference_follows hg ho hstart hinside
    | some hcolon =>
      rw [List.mem_singleton.mp hcolon]
      have hlifetime : Through base c (.colon :: k :: .ampersand :: c) :=
        ((Through.plain ho (by decide)).next (lifetimeKinds_plain hk)).next (by decide)
      refine Follows.atLineEnd.bind fun b => ?_
      split
      · exact plainReference_follows hg ho hstart hinside
      · refine Follows.ofExcept.bind fun _ => ?_
        refine ((hg.array scope).extend hlifetime (.head (by decide))).then_ fun element e he => ?_
        exact .made hstart fun _ => he

theorem function_follows {base : List Kind} {t : Token} (ho : Open base c)
    (ht : t.kind = .kwFunction) :
    Follows x (Open base x.final) (x.Before c t) (g.function scope) (g'.function scope)
      fun _ => x.Where (Through base c) := by
  refine .position_before fun start hstart => Follows.advance_before.then_ fun _ d hd => ?_
  rw [hd.2, ht]
  have hkeyword := Through.plain (k := .kwFunction) ho (by decide)
  refine (parameterTypes_follows hg hkeyword.1 (hkeyword.1.lparen (.head (by decide)))).then_
    fun ps d hd => ?_
  refine (Follows.expect hd.1.ends).bind fun _ => ?_
  refine ((returnTypes_typed hg).extend ((hkeyword.trans hd).next (k := .arrow) (by decide))
    (.head (by decide))).then_ fun rs d hd => ?_
  exact .made hstart fun _ => hd

theorem method_follows {base : List Kind} {t : Token} (ho : Open base c)
    (ht : t.kind = .kwMethod) :
    Follows x (Open base x.final) (x.Before c t) (g.method scope) (g'.method scope)
      fun _ => x.Where (Through base c) := by
  refine .position_before fun start hstart => Follows.advance_before.then_ fun _ d hd => ?_
  rw [hd.2, ht]
  have hkeyword := Through.plain (k := .kwMethod) ho (by decide)
  refine (optionalCaptures_follows hkeyword.1 (.head (by decide))).then_ fun cs d hd => ?_
  refine (optionalLifetimeParameters_follows hd.1 hd.2.1).then_ fun ls e he => ?_
  refine (parameterTypes_follows hg he.1 (he.1.lparen he.2.1)).then_ fun ps f hf => ?_
  refine (optionalReturnTypes_follows hg hf.1).then_ fun rs i hi => ?_
  have hgrows := hd.2.2.trans (he.2.2.trans (hf.2.grows.trans hi.2))
  exact .made hstart fun _ => ⟨hi.1, hkeyword.2.trans hgrows⟩

theorem base_typed : Typed x (g.base scope) (g'.base scope) := by
  intro base c ho hfresh
  refine (Follows.current ho.ends).bind fun t => .position_before fun start hstart => ?_
  split
  case h_1 ht => exact primitive_follows ho hstart (by simp [ht])
  case h_2 ht => exact primitive_follows ho hstart (by simp [ht])
  case h_3 ht => exact primitive_follows ho hstart (by simp [ht])
  case h_4 ht => exact primitive_follows ho hstart (by simp [ht])
  case h_5 ht => exact primitive_follows ho hstart (by simp [ht])
  case h_6 ht => exact primitive_follows ho hstart (by simp [ht])
  case h_7 ht =>
    refine Follows.advance_before.then_ fun _ d hd => ?_
    rw [hd.2, ht]
    refine (hg.type scope (ho.lparen hfresh) (.head (by decide))).then_ fun inner d hd => ?_
    exact (Follows.expect hd.1.ends).bind fun _ => .given (.brackets ho hd.1 hd.2.grows)
  case h_8 ht =>
    refine Follows.advance_before.then_ fun _ d hd => ?_
    rw [hd.2, ht]
    refine ((hg.type scope).extend (.plain ho (by decide)) (.head (by decide))).then_
      fun element d hd => ?_
    refine (Follows.expect hd.1.ends).bind fun _ => ?_
    exact .made hstart fun _ => hd.next (by decide)
  case h_9 => exact (record_follows hg ho).before
  case h_10 ht =>
    refine Follows.advance_before.then_ fun _ d hd => ?_
    rw [hd.2, ht]
    refine ((hg.array scope).extend (.plain ho (by decide)) (.head (by decide))).then_
      fun element d hd => ?_
    exact .made hstart fun _ => hd
  case h_11 => exact (reference_follows hg ho).before
  case h_12 =>
    refine ((qualifiedName_follows ho.ends fun d hd => ?_).before).then_ fun name d hd => ?_
    · exact ((hd.open ho).plain (by decide)).ends
    · exact .made hstart fun _ => ⟨hd.open ho, hd.spans⟩
  case h_13 ht => exact function_follows hg ho ht
  case h_14 ht => exact method_follows hg ho ht
  case h_15 => exact .reject

theorem arrayOf_typed : Typed x (g.arrayOf scope) (g'.arrayOf scope) := by
  intro base c ho hfresh
  refine .settled ho.ends fun start hstart => (base_typed hg ho hfresh).then_ fun t d hd => ?_
  refine Follows.foldAlong (K := fun _ => Through base c) (L := fun _ => Through base c) hd
    fun element e he => ?_
  refine (Follows.accept (by decide)).then_ fun o i htaken => ?_
  cases htaken with
  | none => exact .given he
  | some hk =>
    rw [List.mem_singleton.mp hk]
    have hopen := he.next (k := .lbracket) (by decide)
    refine (Follows.expect hopen.1.ends).bind fun _ => ?_
    exact (Follows.made (R := fun _ => Through base c) hstart fun _ =>
      hopen.next (by decide)).then_ fun t i hi => .given hi

end Rules

theorem next_following {g g' : TypeParsers} (hg : Following x g g') : Following x g.next g'.next where
  type _ := separated_typed (separated_typed (hg.array _) (by decide)) (by decide)
  array _ := arrayOf_typed hg

theorem ofDepth_following {d d' : Nat} (hd : d ≤ d') : Following x (ofDepth d) (ofDepth d') := by
  induction d generalizing d' with
  | zero => exact ⟨fun _ _ _ _ _ => .exhausted, fun _ _ _ _ _ => .exhausted⟩
  | succ d ih =>
    obtain ⟨d', rfl⟩ := Nat.exists_eq_add_of_lt hd
    rw [ofDepth_succ, ofDepth_succ]
    exact next_following (ih (by omega))

end TypeParsers

end Whiley.Grammar
