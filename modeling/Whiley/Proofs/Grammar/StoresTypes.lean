import Whiley.Proofs.Grammar.Stores

namespace Whiley.Grammar

open Whiley.Parser

variable {w : Whole} {n : Nat}

theorem identifierOf_stores {t : Token} : Stores w n (identifierOf t) :=
  .allocate (fun _ => rfl) fun _ => ⟨trivial, trivial⟩

theorem identifier_stores : Stores w n identifier :=
  Yields.expect.bind fun _ _ _ _ => identifierOf_stores

theorem optionalIdentifier_stores : Stores w n optionalIdentifier := by
  refine Yields.accept.bind fun o m hm _ => ?_
  cases o with
  | none => exact .known .none
  | some t => exact identifierOf_stores.bind fun i _ _ hi => .known (.some hi)

theorem nameOf_stores {i : Identifier} (hi : w.Knows n i) : Stores w n (nameOf i) := by
  have his : w.Knows n [i] := .cons hi .nil
  exact .allocate (fun _ => rfl) fun _ => ⟨his.outlines rfl, trivial⟩

theorem qualifiedName_stores : Stores w n qualifiedName := by
  refine Yields.settle.bind fun start m hm _ => ?_
  refine identifier_stores.bind fun first m hm hfirst => ?_
  refine (Yields.afterEach fun _ _ => identifier_stores).bind fun rest m hm hrest => ?_
  have hall : w.Knows m (first :: rest) := .cons (hfirst.mono (by omega)) hrest
  exact .make (fun _ => rfl) fun _ => ⟨hall.outlines rfl, trivial⟩

theorem optionalLifetime_stores {lines : Bool} : Stores w n (optionalLifetime lines) := by
  refine Yields.accept.bind fun o m hm _ => ?_
  cases o with
  | none => exact .known .none
  | some t => exact identifierOf_stores.bind fun i _ _ hi => .known (.some hi)

theorem lifetime_stores : Stores w n lifetime := by
  refine optionalLifetime_stores.bind fun o m hm ho => ?_
  cases o with
  | some l => exact .known (ho l rfl)
  | none => exact Yields.current.bind fun _ _ _ _ => .reject

theorem lifetimeParameter_stores {s : Scope} (hs : w.Knows n s) :
    Stores w n (lifetimeParameter s) := by
  refine identifier_stores.bind fun l m hm hl => ?_
  have hscope : w.Knows m s := hs.mono (by omega)
  refine (Yields.ofExcept fun s' k hs' hk => (hscope.declareLifetime hs').mono hk).bind
    fun s' k hk hs' => .known ⟨hl.mono (by omega), hs'⟩

theorem lifetimeParameters_stores {s : Scope} (hs : w.Knows n s) :
    Stores w n (lifetimeParameters s) := by
  refine (lifetimeParameter_stores hs).bind fun x m hm hx => ?_
  have hstart : w.Knows m ([x.1], x.2) := ⟨.cons hx.1 .nil, hx.2⟩
  refine (Yields.foldWhile hstart fun y m hm hy => ?_).bind fun y m hm hy => ?_
  · refine Yields.accept.bind fun o k hk _ => ?_
    cases o with
    | none => exact .known .none
    | some _ =>
      refine (lifetimeParameter_stores (hy.2.mono (by omega))).bind fun x j hj hx => .known
        (.some ?_)
      exact ⟨.cons hx.1 (hy.1.mono (by omega)), hx.2⟩
  · exact Yields.expect.bind fun _ _ _ _ => .known
      ⟨hy.1.reverse.mono (by omega), hy.2.mono (by omega)⟩

theorem optionalLifetimeParameters_stores {s : Scope} (hs : w.Knows n s) :
    Stores w n (optionalLifetimeParameters s) := by
  refine Yields.accept.bind fun o m hm _ => ?_
  cases o with
  | none => exact .known ⟨.nil, hs.mono (by omega)⟩
  | some _ =>
    refine Yields.accept.bind fun o k hk _ => ?_
    cases o with
    | none => exact lifetimeParameters_stores (hs.mono (by omega))
    | some _ => exact .known ⟨.nil, hs.mono (by omega)⟩

theorem optionalLifetimeArguments_stores {s : Scope} {lines : Bool} :
    Stores w n (optionalLifetimeArguments s lines) := by
  refine Yields.position.bind fun start m hm _ => Yields.expect.bind fun _ m hm _ => ?_
  refine Yields.position.bind fun inside m hm _ => Yields.accept.bind fun first m hm _ => ?_
  split
  · refine Yields.moveTo.bind fun _ m hm _ => ?_
    refine (Yields.listUntil fun _ _ => lifetime_stores).bind fun ls m hm hls => ?_
    exact Yields.expect.bind fun _ _ _ _ => .known (.some (hls.mono (by omega)))
  · exact Yields.moveTo.bind fun _ _ _ _ => .known .none

theorem optionalCaptures_stores : Stores w n optionalCaptures := by
  refine Yields.accept.bind fun o m hm _ => ?_
  cases o with
  | none => exact .known .nil
  | some _ =>
    refine Yields.accept.bind fun o m hm _ => ?_
    cases o with
    | some _ => exact .known .nil
    | none =>
      refine lifetime_stores.bind fun first m hm hfirst => ?_
      refine (Yields.afterEach fun _ _ => lifetime_stores).bind fun rest m hm hrest => ?_
      exact Yields.expect.bind fun _ _ _ _ => .known
        (.cons (hfirst.mono (by omega)) (hrest.mono (by omega)))

namespace TypeParsers

/-- What the rules for types need of the grammar that they go back to. -/
structure Storing (w : Whole) (g : TypeParsers) : Prop where
  type : ∀ {n s}, w.Knows n s → Stores w n (g.type s)
  array : ∀ {n s}, w.Knows n s → Stores w n (g.array s)

theorem separated_stores {level : Scope → Parser TypeExpr} {separator : Kind}
    {build : Mark → List TypeExpr → TypeExpr} {label : String} {s : Scope} (hs : w.Knows n s)
    (hlevel : ∀ {m}, w.Knows m s → Stores w m (level s))
    (hbuild : ∀ m ts, (build m ts).outline =
      .node label m [.mk "operands" (.children (TypeExpr.outlines ts))]) : Stores w n
        (separated level separator build s) := by
  refine Yields.settle.bind fun start m hm _ => ?_
  refine (hlevel (hs.mono (by omega))).bind fun first m hm hfirst => ?_
  refine (Yields.afterEach fun k hk => hlevel (hs.mono (by omega))).bind fun rest m hm hrest => ?_
  cases rest with
  | nil => exact .known (hfirst.mono (by omega))
  | cons t ts =>
    have hall : w.Knows m (first :: t :: ts) := .cons (hfirst.mono (by omega)) hrest
    exact .make (fun m => hbuild m _) (fun _ => ⟨hall.outlines (TypeExpr.outlines_eq _), trivial⟩)

section Rules

variable {g : TypeParsers} (hg : g.Storing w) {s : Scope} (hs : w.Knows n s)

include hg hs

theorem parameterTypes_stores : Stores w n (g.parameterTypes s) :=
  Yields.expect.bind fun _ _ _ _ => .listUntil fun _ _ => hg.type (hs.mono (by omega))

theorem returnTypes_stores : Stores w n (g.returnTypes s) := by
  refine Yields.ahead.bind fun b m hm _ => ?_
  split
  · exact parameterTypes_stores hg (hs.mono (by omega))
  · exact (hg.type (hs.mono (by omega))).bind fun t _ _ ht => .known (.cons ht .nil)

theorem optionalReturnTypes_stores : Stores w n (g.optionalReturnTypes s) := by
  refine Yields.accept.bind fun o m hm _ => ?_
  cases o with
  | none => exact .known .nil
  | some _ => exact returnTypes_stores hg (hs.mono (by omega))

theorem typeThenName_stores : Stores w n (g.typeThenName s) :=
  (hg.type hs).bind fun _ _ _ ht => identifier_stores.bind fun _ _ _ hi => .known
    ⟨ht.mono (by omega), hi⟩

theorem namedMethod_stores {start : Nat} (x : List Identifier × Scope) (hx : w.Knows n x) :
    Stores w n (do
      match ← optionalIdentifier with
      | none =>
        moveTo start
        g.typeThenName s
      | some name =>
        let parameters ← g.parameterTypes x.2
        let returns ← g.optionalReturnTypes x.2
        return (← make start (TypeExpr.method · parameters returns [] x.1), name)) := by
  refine optionalIdentifier_stores.bind fun o m hm ho => ?_
  cases o with
  | none => exact Yields.moveTo.bind fun _ _ _ _ => typeThenName_stores hg (hs.mono (by omega))
  | some name =>
    refine (parameterTypes_stores hg (hx.2.mono (by omega))).bind fun ps m hm hps => ?_
    refine (optionalReturnTypes_stores hg (hx.2.mono (by omega))).bind fun rs m hm hrs => ?_
    have hps' : w.Knows m ps := hps.mono (by omega)
    have hls : w.Knows m x.1 := hx.1.mono (by omega)
    refine Yields.bind (.make (fun _ => rfl) fun _ => ⟨hps'.outlines (TypeExpr.outlines_eq _),
      hrs.outlines (TypeExpr.outlines_eq _), nofun, hls.outlines rfl, trivial⟩) fun t _ _ ht => ?_
    exact .known ⟨ht, (ho name rfl).mono (by omega)⟩

theorem named_stores : Stores w n (g.named s) := by
  refine Yields.position.bind fun start m hm _ => Yields.accept.bind fun o m hm _ => ?_
  cases o with
  | none => exact typeThenName_stores hg (hs.mono (by omega))
  | some keyword =>
    dsimp only
    split
    · refine optionalIdentifier_stores.bind fun o m hm ho => ?_
      cases o with
      | none => exact Yields.moveTo.bind fun _ _ _ _ => typeThenName_stores hg (hs.mono (by omega))
      | some name =>
        refine (parameterTypes_stores hg (hs.mono (by omega))).bind fun ps m hm hps => ?_
        refine Yields.expect.bind fun _ m hm _ => ?_
        refine (returnTypes_stores hg (hs.mono (by omega))).bind fun rs m hm hrs => ?_
        have hps' : w.Knows m ps := hps.mono (by omega)
        refine Yields.bind (.make (fun _ => rfl) fun _ => ⟨hps'.outlines (TypeExpr.outlines_eq _),
          hrs.outlines (TypeExpr.outlines_eq _), trivial⟩) fun t _ _ ht => ?_
        exact .known ⟨ht, (ho name rfl).mono (by omega)⟩
    · refine Yields.accept.bind fun o m hm _ => ?_
      cases o with
      | none =>
        have hx : w.Knows m (([] : List Identifier), s) := ⟨.nil, hs.mono (by omega)⟩
        exact (Yields.known hx).bind fun x _ _ hx => namedMethod_stores hg (hs.mono (by omega)) x hx
      | some _ =>
        exact (lifetimeParameters_stores (hs.mono (by omega))).bind fun x _ _ hx =>
          namedMethod_stores hg (hs.mono (by omega)) x hx

theorem field_stores : Stores w n (g.field s) := by
  refine Yields.settle.bind fun start m hm _ => (named_stores hg (hs.mono (by omega))).bind
    fun x m hm hx => ?_
  exact .make (fun _ => rfl) fun _ => ⟨hx.1, hx.2, trivial⟩

theorem record_stores : Stores w n (g.record s) := by
  refine Yields.position.bind fun start m hm _ => Yields.expect.bind fun _ m hm _ => ?_
  refine (field_stores hg (hs.mono (by omega))).bind fun first m hm hfirst => ?_
  have hstart : w.Knows m [first] := .cons hfirst .nil
  refine Yields.bind (Yields.repeating hstart fun found k hk hfound => ?_ :
    Stores w m (repeating (α := Bool × List Field) _ [first])) fun x m hm hx => ?_
  · refine Yields.acceptNext.bind fun o k hk _ => ?_
    cases o with
    | some _ => exact .known ⟨trivial, hfound.mono (by omega)⟩
    | none =>
      refine Yields.expect.bind fun _ k hk _ => Yields.accept.bind fun o k hk _ => ?_
      cases o with
      | some _ => exact Yields.expect.bind fun _ _ _ _ => .known ⟨trivial, hfound.mono (by omega)⟩
      | none =>
        refine (field_stores hg (hs.mono (by omega))).bind fun next k hk hnext => ?_
        split
        · exact .reject
        · exact .known (.cons hnext (hfound.mono (by omega)))
  · exact .make (fun _ => rfl) fun _ =>
      ⟨trivial, hx.2.reverse.outlines (Field.outlines_eq _), trivial⟩

theorem plainReference_stores {start inside : Nat} :
    Stores w n (g.plainReference s start inside) := by
  refine Yields.moveTo.bind fun _ m hm _ => (hg.array (hs.mono (by omega))).bind
    fun element m hm helement => ?_
  exact .make (fun _ => rfl) fun _ => ⟨helement, trivial, trivial⟩

theorem reference_stores : Stores w n (g.reference s) := by
  refine Yields.position.bind fun start m hm _ => Yields.expect.bind fun _ m hm _ => ?_
  refine Yields.position.bind fun inside m hm _ => optionalLifetime_stores.bind fun o m hm ho => ?_
  cases o with
  | none => exact plainReference_stores hg (hs.mono (by omega))
  | some l =>
    refine Yields.accept.bind fun o m hm _ => ?_
    cases o with
    | none => exact plainReference_stores hg (hs.mono (by omega))
    | some _ =>
      refine Yields.atLineEnd.bind fun b m hm _ => ?_
      split
      · exact plainReference_stores hg (hs.mono (by omega))
      · refine (Yields.ofExcept (Q := fun _ _ => True) fun _ _ _ _ => trivial).bind
          fun _ m hm _ => ?_
        refine (hg.array (hs.mono (by omega))).bind fun element m hm helement => ?_
        exact .make (fun _ => rfl) fun _ => ⟨helement, (ho l rfl).mono (by omega), trivial⟩

theorem function_stores : Stores w n (g.function s) := by
  refine Yields.position.bind fun start m hm _ => Yields.advance.bind fun _ m hm _ => ?_
  refine (parameterTypes_stores hg (hs.mono (by omega))).bind fun ps m hm hps => ?_
  refine Yields.expect.bind fun _ m hm _ => (returnTypes_stores hg (hs.mono (by omega))).bind
    fun rs m hm hrs => ?_
  have hps' : w.Knows m ps := hps.mono (by omega)
  exact .make (fun _ => rfl) fun _ => ⟨hps'.outlines (TypeExpr.outlines_eq _),
    hrs.outlines (TypeExpr.outlines_eq _), trivial⟩

theorem method_stores : Stores w n (g.method s) := by
  refine Yields.position.bind fun start m hm _ => Yields.advance.bind fun _ m hm _ => ?_
  refine optionalCaptures_stores.bind fun captures m hm hcaptures => ?_
  refine (optionalLifetimeParameters_stores (hs.mono (by omega))).bind fun x m hm hx => ?_
  refine (parameterTypes_stores hg hx.2).bind fun ps m hm hps => ?_
  refine (optionalReturnTypes_stores hg (hx.2.mono (by omega))).bind fun rs m hm hrs => ?_
  have hcaptures' : w.Knows m captures := hcaptures.mono (by omega)
  have hlifetimes : w.Knows m x.1 := hx.1.mono (by omega)
  have hps' : w.Knows m ps := hps.mono (by omega)
  exact .make (fun _ => rfl) fun _ => ⟨hps'.outlines (TypeExpr.outlines_eq _),
    hrs.outlines (TypeExpr.outlines_eq _), hcaptures'.outlines rfl, hlifetimes.outlines rfl,
      trivial⟩

theorem base_stores : Stores w n (g.base s) := by
  refine Yields.current.bind fun t m hm _ => Yields.position.bind fun start m hm _ => ?_
  have hprimitive : Stores w m (do
      let _ ← advance
      make start (TypeExpr.primitive · t.text)) :=
    Yields.advance.bind fun _ _ _ _ => .make (fun _ => rfl) fun _ => ⟨trivial, trivial⟩
  split
  · exact hprimitive
  · exact hprimitive
  · exact hprimitive
  · exact hprimitive
  · exact hprimitive
  · exact hprimitive
  · refine Yields.advance.bind fun _ m hm _ => (hg.type (hs.mono (by omega))).bind
      fun inner m hm hinner => ?_
    exact Yields.expect.bind fun _ _ _ _ => .known (hinner.mono (by omega))
  · refine Yields.advance.bind fun _ m hm _ => (hg.type (hs.mono (by omega))).bind
      fun element m hm helement => ?_
    exact Yields.expect.bind fun _ _ _ _ => .make (fun _ => rfl) fun _ =>
      ⟨helement.mono (by omega), trivial⟩
  · exact record_stores hg (hs.mono (by omega))
  · refine Yields.advance.bind fun _ m hm _ => (hg.array (hs.mono (by omega))).bind
      fun element m hm helement => ?_
    exact .make (fun _ => rfl) fun _ => ⟨helement, trivial⟩
  · exact reference_stores hg (hs.mono (by omega))
  · refine qualifiedName_stores.bind fun name m hm hname => ?_
    exact .make (fun _ => rfl) fun _ => ⟨hname, trivial⟩
  · exact function_stores hg (hs.mono (by omega))
  · exact method_stores hg (hs.mono (by omega))
  · exact .reject

theorem arrayOf_stores : Stores w n (g.arrayOf s) := by
  refine Yields.settle.bind fun start m hm _ => (base_stores hg (hs.mono (by omega))).bind
    fun first m hm hfirst => ?_
  refine Yields.foldWhile hfirst fun element m hm helement => Yields.accept.bind fun o m hm _ => ?_
  cases o with
  | none => exact .known .none
  | some _ =>
    refine Yields.expect.bind fun _ m hm _ => ?_
    exact Yields.bind (.make (fun _ => rfl) fun _ => ⟨helement.mono (by omega), trivial⟩)
      fun t _ _ ht =>
      .known (.some ht)

end Rules

theorem next_storing {g : TypeParsers} (hg : g.Storing w) : g.next.Storing w where
  type hs :=
    separated_stores hs (fun hs => separated_stores hs hg.array fun _ _ => rfl) fun _ _ => rfl
  array hs := arrayOf_stores hg hs

theorem ofDepth_storing (depth : Nat) : (ofDepth depth).Storing w := by
  induction depth with
  | zero => exact ⟨fun _ => .fail, fun _ => .fail⟩
  | succ depth ih =>
    rw [ofDepth_succ]
    exact next_storing ih

end TypeParsers

end Whiley.Grammar
