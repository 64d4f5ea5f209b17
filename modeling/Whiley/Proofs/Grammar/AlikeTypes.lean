import Whiley.Proofs.Grammar.Simulation

namespace Whiley.Grammar

open Whiley.Parser

variable {σ : Simulation} {P : Spot}

theorem mem_texts_alike {s s' : String} {ss ss' : List String} (hs : σ.Alike s s')
    (hss : σ.Alike ss ss') : s ∈ ss ↔ s' ∈ ss' := by
  have hs' : σ.lhs.text s = σ.rhs.text s' := hs
  have hss' : ss.map σ.lhs.text = ss'.map σ.rhs.text := hss
  rw [← σ.lhs.mem_texts, hs', hss', σ.rhs.mem_texts]

theorem mem_names_alike {α : Type} [Relabel α] (name : α → Identifier)
    (hname : ∀ f a, name (relabel f a) = (name a).relabel f) {i i' : Identifier} {as as' : List α}
    (hi : σ.Alike i i') (has : σ.Alike as as') :
    i.text ∈ as.map (fun a => (name a).text) ↔ i'.text ∈ as'.map fun a => (name a).text := by
  have hnames : ∀ (f : Relabelling) (bs : List α),
      (bs.map (relabel f)).map (fun a => (name a).text) =
        (bs.map fun a => (name a).text).map f.text := by
    intro f bs
    rw [List.map_map, List.map_map]
    exact List.map_congr_left fun b _ => congrArg Identifier.text (hname f b)
  refine mem_texts_alike (Identifier.mk.inj hi).2 ?_
  have htexts := congrArg (List.map fun a => (name a).text) has
  rw [relabel_list, relabel_list, hnames, hnames] at htexts
  exact htexts

theorem identifierOf_matches {t t' : Token} (h : Token.Alike σ.lhs σ.rhs t t')
    (hk : t.kind ∈ [Kind.identifier, .kwThis, .star]) :
    Matches σ P P (identifierOf t) (identifierOf t') σ.Alike := by
  refine .allocate h.span fun m m' hm => ?_
  simpa [Identifier.relabel] using ⟨hm, h.name hk⟩

theorem identifier_matches : Matches σ P .within identifier identifier σ.Alike := by
  refine Matches.expect.bind fun t t' ht => ?_
  exact identifierOf_matches ht.1 (by simp [ht.2])

theorem optionalIdentifier_matches :
    Matches σ .within .within optionalIdentifier optionalIdentifier (Option.Rel σ.Alike) := by
  refine (Matches.accept (by decide)).bind fun o o' ho => ?_
  cases ho with
  | none => exact .pure .none
  | some ht =>
    refine (identifierOf_matches ht.1 ?_).bind fun i i' hi => .pure (.some hi)
    simp [List.mem_singleton.mp ht.2]

theorem nameOf_matches {i i' : Identifier} (hi : σ.Alike i i') :
    Matches σ P P (nameOf i) (nameOf i') σ.Alike := by
  refine .allocate (Mark.mk.inj (Identifier.mk.inj hi).1).1 fun m m' hm => ?_
  simpa [Name.relabel] using ⟨hm, hi⟩

theorem qualifiedName_matches : Matches σ P .within qualifiedName qualifiedName σ.Alike := by
  refine Matches.settle.bind fun start start' hstart => ?_
  refine identifier_matches.bind fun first first' hfirst => ?_
  refine (Matches.afterEach rfl identifier_matches).bind fun rest rest' hrest => ?_
  refine .make hstart fun m m' hm => ?_
  simpa [Name.relabel] using ⟨hm, hfirst, hrest⟩

theorem optionalLifetime_matches {lines : Bool} :
    Matches σ .within .within (optionalLifetime lines) (optionalLifetime lines)
      (Option.Rel σ.Alike) := by
  refine (Matches.accept (by decide)).bind fun o o' ho => ?_
  cases ho with
  | none => exact .pure .none
  | some ht => exact (identifierOf_matches ht.1 ht.2).bind fun i i' hi => .pure (.some hi)

theorem lifetime_matches : Matches σ .within .within lifetime lifetime σ.Alike := by
  refine optionalLifetime_matches.bind fun o o' ho => ?_
  cases ho with
  | some hl => exact .pure hl
  | none => exact Matches.current.bind fun t t' ht => .reject ht.span

theorem declareLifetime_alike {s s' : Scope} {i i' : Identifier} (hs : σ.Alike s s')
    (hi : σ.Alike i i') : σ.Alike (s.declareLifetime i) (s'.declareLifetime i') := by
  rw [Simulation.Alike, Scope.declareLifetime_relabel, Scope.declareLifetime_relabel]
  exact congrArg₂ Scope.declareLifetime hs hi

theorem declareVariable_alike {s s' : Scope} {v v' : Variable} (hs : σ.Alike s s')
    (hv : σ.Alike v v') : σ.Alike (s.declareVariable v) (s'.declareVariable v') := by
  rw [Simulation.Alike, Scope.declareVariable_relabel, Scope.declareVariable_relabel]
  exact congrArg₂ Scope.declareVariable hs hv

theorem checkAvailable_alike {s s' : Scope} {i i' : Identifier} (hs : σ.Alike s s')
    (hi : σ.Alike i i') : σ.Alike (s.checkAvailable i) (s'.checkAvailable i') := by
  rw [Simulation.Alike, Scope.checkAvailable_relabel, Scope.checkAvailable_relabel]
  exact congrArg₂ Scope.checkAvailable hs hi

theorem checkLifetime_alike {s s' : Scope} {i i' : Identifier} (hs : σ.Alike s s')
    (hi : σ.Alike i i') : σ.Alike (s.checkLifetime i) (s'.checkLifetime i') := by
  rw [Simulation.Alike, Scope.checkLifetime_relabel, Scope.checkLifetime_relabel]
  exact congrArg₂ Scope.checkLifetime hs hi

theorem lifetimeParameter_matches {s s' : Scope} (hs : σ.Alike s s') :
    Matches σ .within .within (lifetimeParameter s) (lifetimeParameter s') σ.Alike := by
  refine identifier_matches.bind fun l l' hl => ?_
  refine (Matches.ofExcept (declareLifetime_alike hs hl)).bind fun s s' hs => .pure ?_
  exact congrArg₂ Prod.mk hl hs

theorem lifetimeParameters_matches {s s' : Scope} (hs : σ.Alike s s') :
    Matches σ .within .within (lifetimeParameters s) (lifetimeParameters s') σ.Alike := by
  refine (lifetimeParameter_matches hs).bind fun x x' hx => ?_
  obtain ⟨hl, hs⟩ := Prod.mk.inj hx
  refine (Matches.foldWhile σ.Alike ?_ fun y y' hy => ?_).bind fun y y' hy => ?_
  · simpa using ⟨hl, hs⟩
  · obtain ⟨hfound, hs⟩ := Prod.mk.inj hy
    refine (Matches.accept (by decide)).bind fun o o' ho => ?_
    cases ho with
    | none => exact .pure .none
    | some _ =>
      refine (lifetimeParameter_matches hs).bind fun x x' hx => .pure (.some ?_)
      obtain ⟨hl, hs⟩ := Prod.mk.inj hx
      simpa using ⟨⟨hl, hfound⟩, hs⟩
  · obtain ⟨hfound, hs⟩ := Prod.mk.inj hy
    refine Matches.expect.bind fun _ _ _ => .pure ?_
    simpa using ⟨hfound, hs⟩

theorem optionalLifetimeParameters_matches {s s' : Scope} (hs : σ.Alike s s') :
    Matches σ .within .within (optionalLifetimeParameters s) (optionalLifetimeParameters s')
      σ.Alike := by
  refine (Matches.accept (by decide)).bind fun o o' ho => ?_
  cases ho with
  | none => exact .pure (by simpa using hs)
  | some _ =>
    refine (Matches.accept (by decide)).bind fun o o' ho => ?_
    cases ho with
    | none => exact lifetimeParameters_matches hs
    | some _ => exact .pure (by simpa using hs)

theorem isLifetime_alike {s s' : Scope} {t t' : String} (hs : σ.Alike s s')
    (ht : σ.lhs.text t = σ.rhs.text t') : s.isLifetime t = s'.isLifetime t' := by
  have hs' : s.relabel σ.lhs = s'.relabel σ.rhs := hs
  rw [← Scope.isLifetime_relabel σ.lhs s t, ← Scope.isLifetime_relabel σ.rhs s' t', hs', ht]

theorem optionalLifetimeArguments_matches {s s' : Scope} {lines : Bool} (hs : σ.Alike s s') :
    Matches σ .within .within (optionalLifetimeArguments s lines)
      (optionalLifetimeArguments s' lines) (Option.Rel σ.Alike) := by
  refine Matches.position.bind fun start start' hstart => ?_
  refine Matches.expect.bind fun _ _ _ => ?_
  refine Matches.position.bind fun inside inside' hinside => ?_
  refine (Matches.accept (by decide)).bind fun o o' ho => ?_
  have hdecides : (o.any fun t => decide (t.kind ≠ .identifier) || s.isLifetime t.text) =
      o'.any fun t => decide (t.kind ≠ .identifier) || s'.isLifetime t.text := by
    cases ho with
    | none => rfl
    | some ht =>
      have hlifetime := isLifetime_alike hs (ht.1.name ht.2)
      simp [ht.1.kind, hlifetime]
  rw [hdecides]
  split
  · refine (Matches.moveTo hinside).bind fun _ _ _ => ?_
    refine (Matches.listUntil lifetime_matches).bind fun ls ls' hls => ?_
    exact Matches.expect.bind fun _ _ _ => .pure (.some hls)
  · exact (Matches.moveTo hstart).bind fun _ _ _ => .pure .none

theorem optionalCaptures_matches :
    Matches σ .within .within optionalCaptures optionalCaptures σ.Alike := by
  refine (Matches.accept (by decide)).bind fun o o' ho => ?_
  cases ho with
  | none => exact .pure rfl
  | some _ =>
    refine (Matches.accept (by decide)).bind fun o o' ho => ?_
    cases ho with
    | some _ => exact .pure rfl
    | none =>
      refine lifetime_matches.bind fun first first' hfirst => ?_
      refine (Matches.afterEach rfl lifetime_matches).bind fun rest rest' hrest => ?_
      exact Matches.expect.bind fun _ _ _ => .pure (congrArg₂ List.cons hfirst hrest)

theorem depths_induction {C : Nat → Nat → Prop} {d d' : Nat} (hd : d = d' ∨ σ.uneven) (zero : C 0 0)
    (left : σ.uneven → ∀ d', C 0 d') (right : σ.uneven → ∀ d, C d 0)
    (succ : ∀ d d', C d d' → C (d + 1) (d' + 1)) : C d d' := by
  induction d generalizing d' with
  | zero =>
    rcases hd with rfl | huneven
    · exact zero
    · exact left huneven d'
  | succ d ih =>
    cases d' with
    | zero =>
      rcases hd with h | huneven
      · exact absurd h nofun
      · exact right huneven (d + 1)
    | succ d' => exact succ d d' (ih (hd.imp_left Nat.succ.inj))

namespace TypeParsers

/-- What the rules for types need of the two grammars that they go back to. -/
structure Agree (σ : Simulation) (g g' : TypeParsers) : Prop where
  type : ∀ s s', σ.Alike s s' → Matches σ .within .within (g.type s) (g'.type s') σ.Alike
  array : ∀ s s', σ.Alike s s' → Matches σ .within .within (g.array s) (g'.array s') σ.Alike

theorem separated_matches {level level' : Scope → Parser TypeExpr} {separator : Kind}
    {build : Mark → List TypeExpr → TypeExpr} {s s' : Scope} (hk : separator.isSpace = false)
    (hlevel : Matches σ .within .within (level s) (level' s') σ.Alike)
    (hbuild : ∀ m m' ts ts', σ.Alike m m' → σ.Alike ts ts' → σ.Alike (build m ts) (build m' ts')) :
    Matches σ .within .within (separated level separator build s)
      (separated level' separator build s') σ.Alike := by
  refine Matches.settle.bind fun start start' hstart => ?_
  refine hlevel.bind fun first first' hfirst => ?_
  refine (Matches.afterEach hk hlevel).bind fun rest rest' hrest => ?_
  cases rest with
  | nil =>
    obtain rfl : rest' = [] := by simpa using hrest
    exact .pure hfirst
  | cons t ts =>
    cases rest' with
    | nil => exact absurd hrest nofun
    | cons t' ts' =>
      refine .make hstart fun m m' hm => ?_
      exact hbuild m m' _ _ hm (congrArg₂ List.cons hfirst hrest)

section Rules

variable {g g' : TypeParsers} (hg : g.Agree σ g') {s s' : Scope} (hs : σ.Alike s s')

include hg hs

theorem parameterTypes_matches :
    Matches σ .within .within (g.parameterTypes s) (g'.parameterTypes s') σ.Alike :=
  Matches.expect.bind fun _ _ _ => .listUntil (hg.type s s' hs)

theorem returnTypes_matches :
    Matches σ .within .within (g.returnTypes s) (g'.returnTypes s') σ.Alike := by
  refine (Matches.ahead (by decide)).bind fun b b' hb => ?_
  obtain rfl : b = b' := hb
  split
  · exact parameterTypes_matches hg hs
  · exact (hg.type s s' hs).bind fun t t' ht => .pure (congrArg (· :: []) ht)

theorem optionalReturnTypes_matches :
    Matches σ .within .within (g.optionalReturnTypes s) (g'.optionalReturnTypes s') σ.Alike := by
  refine (Matches.accept (by decide)).bind fun o o' ho => ?_
  cases ho with
  | none => exact .pure rfl
  | some _ => exact returnTypes_matches hg hs

theorem typeThenName_matches :
    Matches σ .within .within (g.typeThenName s) (g'.typeThenName s') σ.Alike :=
  (hg.type s s' hs).bind fun _ _ ht =>
    identifier_matches.bind fun _ _ hi => .pure (congrArg₂ Prod.mk ht hi)

theorem namedMethod_matches {start start' : Nat} (hstart : σ.At .within start start')
    (x x' : List Identifier × Scope) (hx : σ.Alike x x') :
    Matches σ .within .within (do
      match ← optionalIdentifier with
      | none =>
        moveTo start
        g.typeThenName s
      | some name =>
        let parameters ← g.parameterTypes x.2
        let returns ← g.optionalReturnTypes x.2
        return (← make start (TypeExpr.method · parameters returns [] x.1), name))
      (do
      match ← optionalIdentifier with
      | none =>
        moveTo start'
        g'.typeThenName s'
      | some name =>
        let parameters ← g'.parameterTypes x'.2
        let returns ← g'.optionalReturnTypes x'.2
        return (← make start' (TypeExpr.method · parameters returns [] x'.1), name))
      σ.Alike := by
  obtain ⟨hlifetimes, hinner⟩ := Prod.mk.inj hx
  refine optionalIdentifier_matches.bind fun o o' ho => ?_
  cases ho with
  | none => exact (Matches.moveTo hstart).bind fun _ _ _ => typeThenName_matches hg hs
  | some hname =>
    refine (parameterTypes_matches hg hinner).bind fun ps ps' hps => ?_
    refine (optionalReturnTypes_matches hg hinner).bind fun rs rs' hrs => ?_
    refine (Matches.make hstart (R := σ.Alike) fun m m' hm => ?_).bind
      fun t t' ht => .pure (congrArg₂ Prod.mk ht hname)
    simpa using ⟨hm, hps, hrs, hlifetimes⟩

theorem named_matches : Matches σ .within .within (g.named s) (g'.named s') σ.Alike := by
  refine Matches.position.bind fun start start' hstart => ?_
  refine (Matches.accept (by decide)).bind fun o o' ho => ?_
  cases ho with
  | none => exact typeThenName_matches hg hs
  | some hkeyword =>
    dsimp only
    rw [← hkeyword.1.kind]
    split
    · refine optionalIdentifier_matches.bind fun o o' ho => ?_
      cases ho with
      | none => exact (Matches.moveTo hstart).bind fun _ _ _ => typeThenName_matches hg hs
      | some hname =>
        refine (parameterTypes_matches hg hs).bind fun ps ps' hps => ?_
        refine Matches.expect.bind fun _ _ _ => ?_
        refine (returnTypes_matches hg hs).bind fun rs rs' hrs => ?_
        refine (Matches.make hstart (R := σ.Alike) fun m m' hm => ?_).bind
          fun t t' ht => .pure (congrArg₂ Prod.mk ht hname)
        simpa using ⟨hm, hps, hrs⟩
    · refine (Matches.accept (by decide)).bind fun o o' ho => ?_
      cases ho with
      | none =>
        exact (Matches.pure (R := σ.Alike) (by simpa using hs)).bind (namedMethod_matches hg hs hstart)
      | some _ => exact (lifetimeParameters_matches hs).bind (namedMethod_matches hg hs hstart)

theorem field_matches : Matches σ .within .within (g.field s) (g'.field s') σ.Alike := by
  refine Matches.settle.bind fun start start' hstart => ?_
  refine (named_matches hg hs).bind fun x x' hx => ?_
  obtain ⟨htype, hname⟩ := Prod.mk.inj hx
  refine .make hstart fun m m' hm => ?_
  simpa using ⟨hm, htype, hname⟩

theorem record_matches : Matches σ .within .within (g.record s) (g'.record s') σ.Alike := by
  refine Matches.position.bind fun start start' hstart => ?_
  refine Matches.expect.bind fun _ _ _ => ?_
  refine (field_matches hg hs).bind fun first first' hfirst => ?_
  refine (Matches.repeating (R := σ.Alike) σ.Alike ?_ fun found found' hfound => ?_).bind
    fun x x' hx => ?_
  · simpa using hfirst
  · refine Matches.acceptNext.bind fun o o' ho => ?_
    cases ho with
    | some _ => exact .pure (.inr (congrArg (Prod.mk false) hfound))
    | none =>
      refine Matches.expect.bind fun _ _ _ => ?_
      refine (Matches.accept (by decide)).bind fun o o' ho => ?_
      cases ho with
      | some _ =>
        exact Matches.expect.bind fun _ _ _ => .pure (.inr (congrArg (Prod.mk true) hfound))
      | none =>
        refine (field_matches hg hs).bind fun next next' hnext => ?_
        have hmem := mem_names_alike Field.name (fun _ _ => rfl)
          (congrArg Field.name hnext) hfound
        rw [if_congr hmem rfl rfl]
        split
        · exact .reject (congrArg (·.name.mark.span) hnext)
        · exact .pure (.inl (congrArg₂ List.cons hnext hfound))
  · obtain ⟨hopen, hfound⟩ := Prod.mk.inj hx
    refine .make hstart fun m m' hm => ?_
    simpa using ⟨hm, hopen, hfound⟩

theorem plainReference_matches {start start' inside inside' : Nat}
    (hstart : σ.At .within start start') (hinside : σ.At .within inside inside') :
    Matches σ .within .within (g.plainReference s start inside)
      (g'.plainReference s' start' inside') σ.Alike := by
  refine (Matches.moveTo hinside).bind fun _ _ _ => ?_
  refine (hg.array s s' hs).bind fun element element' helement => ?_
  exact .make hstart fun m m' hm => by simpa using ⟨hm, helement⟩

theorem reference_matches : Matches σ .within .within (g.reference s) (g'.reference s') σ.Alike := by
  refine Matches.position.bind fun start start' hstart => ?_
  refine Matches.expect.bind fun _ _ _ => ?_
  refine Matches.position.bind fun inside inside' hinside => ?_
  refine optionalLifetime_matches.bind fun o o' ho => ?_
  cases ho with
  | none => exact plainReference_matches hg hs hstart hinside
  | some hl =>
    refine (Matches.accept (by decide)).bind fun o o' ho => ?_
    cases ho with
    | none => exact plainReference_matches hg hs hstart hinside
    | some _ =>
      refine Matches.atLineEnd.bind fun b b' hb => ?_
      obtain rfl : b = b' := hb
      split
      · exact plainReference_matches hg hs hstart hinside
      · refine (Matches.ofExcept (checkLifetime_alike hs hl)).bind fun _ _ _ => ?_
        refine (hg.array s s' hs).bind fun element element' helement => ?_
        exact .make hstart fun m m' hm => by simpa using ⟨hm, helement, hl⟩

theorem function_matches : Matches σ .within .within (g.function s) (g'.function s') σ.Alike := by
  refine Matches.position.bind fun start start' hstart => ?_
  refine Matches.advance.bind fun _ _ _ => ?_
  refine (parameterTypes_matches hg hs).bind fun ps ps' hps => ?_
  refine Matches.expect.bind fun _ _ _ => ?_
  refine (returnTypes_matches hg hs).bind fun rs rs' hrs => ?_
  exact .make hstart fun m m' hm => by simpa using ⟨hm, hps, hrs⟩

theorem method_matches : Matches σ .within .within (g.method s) (g'.method s') σ.Alike := by
  refine Matches.position.bind fun start start' hstart => ?_
  refine Matches.advance.bind fun _ _ _ => ?_
  refine optionalCaptures_matches.bind fun captures captures' hcaptures => ?_
  refine (optionalLifetimeParameters_matches hs).bind fun x x' hx => ?_
  obtain ⟨hlifetimes, hinner⟩ := Prod.mk.inj hx
  refine (parameterTypes_matches hg hinner).bind fun ps ps' hps => ?_
  refine (optionalReturnTypes_matches hg hinner).bind fun rs rs' hrs => ?_
  exact .make hstart fun m m' hm => by simpa using ⟨hm, hps, hrs, hcaptures, hlifetimes⟩

theorem base_matches : Matches σ .within .within (g.base s) (g'.base s') σ.Alike := by
  refine Matches.current.bind fun t t' ht => ?_
  refine Matches.position.bind fun start start' hstart => ?_
  have hprimitive (hk : t.kind ∈ [Kind.kwVoid, .kwAny, .kwNull, .kwBool, .kwByte, .kwInt]) :
      Matches σ .within .within
        (do
          let _ ← advance
          make start (TypeExpr.primitive · t.text))
        (do
          let _ ← advance
          make start' (TypeExpr.primitive · t'.text)) σ.Alike := by
    have htext : t.text = t'.text := ht.fixed_text hk (by decide)
    refine Matches.advance.bind fun _ _ _ => .make hstart fun m m' hm => ?_
    simpa using ⟨hm, htext⟩
  rw [← ht.kind]
  split
  · exact hprimitive (by simp [*])
  · exact hprimitive (by simp [*])
  · exact hprimitive (by simp [*])
  · exact hprimitive (by simp [*])
  · exact hprimitive (by simp [*])
  · exact hprimitive (by simp [*])
  · refine Matches.advance.bind fun _ _ _ => ?_
    refine (hg.type s s' hs).bind fun inner inner' hinner => ?_
    exact Matches.expect.bind fun _ _ _ => .pure hinner
  · refine Matches.advance.bind fun _ _ _ => ?_
    refine (hg.type s s' hs).bind fun element element' helement => ?_
    refine Matches.expect.bind fun _ _ _ => .make hstart fun m m' hm => ?_
    simpa using ⟨hm, helement⟩
  · exact record_matches hg hs
  · refine Matches.advance.bind fun _ _ _ => ?_
    refine (hg.array s s' hs).bind fun element element' helement => ?_
    exact .make hstart fun m m' hm => by simpa using ⟨hm, helement⟩
  · exact reference_matches hg hs
  · refine qualifiedName_matches.bind fun name name' hname => ?_
    exact .make hstart fun m m' hm => by simpa using ⟨hm, hname⟩
  · exact function_matches hg hs
  · exact method_matches hg hs
  · exact .reject ht.span

theorem arrayOf_matches : Matches σ .within .within (g.arrayOf s) (g'.arrayOf s') σ.Alike := by
  refine Matches.settle.bind fun start start' hstart => ?_
  refine (base_matches hg hs).bind fun element element' helement => ?_
  refine Matches.foldWhile σ.Alike helement fun element element' helement => ?_
  refine (Matches.accept (by decide)).bind fun o o' ho => ?_
  cases ho with
  | none => exact .pure .none
  | some _ =>
    refine Matches.expect.bind fun _ _ _ => ?_
    refine (Matches.make hstart (R := σ.Alike) fun m m' hm => ?_).bind
      fun t t' ht => .pure (.some ht)
    simpa using ⟨hm, helement⟩

end Rules

theorem next_agree {g g' : TypeParsers} (hg : g.Agree σ g') : g.next.Agree σ g'.next where
  type s s' hs := by
    refine separated_matches rfl ?_ fun m m' ts ts' hm hts => by simpa using ⟨hm, hts⟩
    exact separated_matches rfl (hg.array s s' hs) fun m m' ts ts' hm hts => by
      simpa using ⟨hm, hts⟩
  array _ _ hs := arrayOf_matches hg hs

theorem ofDepth_agree {d d' : Nat} (hd : d = d' ∨ σ.uneven) :
    (ofDepth d).Agree σ (ofDepth d') := by
  refine depths_induction (C := fun d d' => (ofDepth d).Agree σ (ofDepth d')) hd
    ⟨fun _ _ _ => .fail rfl, fun _ _ _ => .fail rfl⟩ (fun h _ => ?_)
    (fun h _ => ?_) fun d d' ih => ?_
  · exact ⟨fun _ _ _ => .exhausted_left h, fun _ _ _ => .exhausted_left h⟩
  · exact ⟨fun _ _ _ => .exhausted_right h, fun _ _ _ => .exhausted_right h⟩
  · rw [ofDepth_succ, ofDepth_succ]
    exact next_agree ih

end TypeParsers

end Whiley.Grammar
