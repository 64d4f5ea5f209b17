import Whiley.Proofs.Grammar.AlikeLiterals
import Whiley.Proofs.Grammar.AlikeTypes

namespace Whiley.Grammar

open Whiley.Parser

variable {σ : Simulation}

section Scopes

variable {s s' : Scope} (hs : σ.Alike s s')

include hs

theorem lookup_alike {w w' : String} (hw : σ.Alike w w') :
    Option.Rel σ.Alike (s.lookup w) (s'.lookup w') := by
  have hrelabel : (s.lookup w).map (·.relabel σ.lhs) = (s'.lookup w').map (·.relabel σ.rhs) := by
    have hs' : s.relabel σ.lhs = s'.relabel σ.rhs := hs
    have hw' : σ.lhs.text w = σ.rhs.text w' := hw
    rw [← Scope.lookup_relabel, ← Scope.lookup_relabel, hs', hw']
  exact Simulation.rel_of_alike hrelabel

theorem declaration_alike {w w' : String} (hw : σ.Alike w w') :
    (s.lookup w).map (fun v => σ.lhs.index v.mark.index) =
      (s'.lookup w').map fun v => σ.rhs.index v.mark.index := by
  rcases Simulation.rel_cases (lookup_alike hs hw) with ⟨hx, hy⟩ | ⟨v, v', hx, hy, hv⟩
  · rw [hx, hy]
    rfl
  · rw [hx, hy]
    exact congrArg (fun v => some v.mark.index) hv

theorem isAlias_alike {w w' : String} (hw : σ.Alike w w') : s.isAlias w = s'.isAlias w' := by
  have hs' : s.relabel σ.lhs = s'.relabel σ.rhs := hs
  have hw' : σ.lhs.text w = σ.rhs.text w' := hw
  rw [← Scope.isAlias_relabel σ.lhs s w, ← Scope.isAlias_relabel σ.rhs s' w', hs', hw']

theorem capturing_alike {ls ls' : List Identifier} (hls : σ.Alike ls ls') :
    σ.Alike (s.capturing ls) (s'.capturing ls') := by
  have hs' : s.relabel σ.lhs = s'.relabel σ.rhs := hs
  have hls' : ls.map (·.relabel σ.lhs) = ls'.map (·.relabel σ.rhs) := hls
  rw [Simulation.Alike, relabel_scope, relabel_scope, Scope.capturing_relabel,
    Scope.capturing_relabel, hs', hls']

end Scopes

theorem fixed_alike {w : String} (hw : w ∈ ["$", "this", "*", "type", "constant"]) :
    σ.Alike w w := by
  rw [Simulation.Alike, relabel_string, relabel_string, σ.lhs.fixed w hw, σ.rhs.fixed w hw]

theorem isForced_alike {e e' : Expr} (he : σ.Alike e e') : e.isForced = e'.isForced := by
  have he' : e.relabel σ.lhs = e'.relabel σ.rhs := he
  rw [← Expr.isForced_relabel σ.lhs e, he', Expr.isForced_relabel]

theorem isForced_alike_type {t t' : TypeExpr} (ht : σ.Alike t t') :
    t.isForced = t'.isForced := by
  have ht' : t.relabel σ.lhs = t'.relabel σ.rhs := ht
  rw [← TypeExpr.isForced_relabel σ.lhs t, ht', TypeExpr.isForced_relabel]

section Parameters

variable {types types' : TypeParsers} (ht : types.Agree σ types') {s s' : Scope}
  (hs : σ.Alike s s')

include ht hs

theorem parameter_matches :
    Matches σ .within .within (parameter types s) (parameter types' s') σ.Alike := by
  refine Matches.position.bind fun start start' hstart => ?_
  refine (TypeParsers.named_matches ht hs).bind fun x x' hx => ?_
  obtain ⟨htype, hname⟩ := Prod.mk.inj hx
  refine (Matches.make hstart (R := σ.Alike) fun m m' hm => ?_).bind fun v v' hv => ?_
  · simpa [Variable.relabel] using ⟨hm, hname, htype⟩
  · refine (Matches.ofExcept (declareVariable_alike hs hv)).bind fun t t' ht => .pure ?_
    exact congrArg₂ Prod.mk hv ht

theorem parameters_matches {close : Kind} :
    Matches σ .within .within (parameters types close s) (parameters types' close s') σ.Alike := by
  refine Matches.expect.bind fun _ _ _ => ?_
  refine (Matches.untilClose σ.Alike ?_ fun x x' hx => ?_).bind fun x x' hx => ?_
  · simpa using hs
  · obtain ⟨hfound, hinner⟩ := Prod.mk.inj hx
    refine (parameter_matches ht hinner).bind fun y y' hy => .pure ?_
    obtain ⟨hv, hnext⟩ := Prod.mk.inj hy
    simpa using ⟨⟨hv, hfound⟩, hnext⟩
  · obtain ⟨hfound, hinner⟩ := Prod.mk.inj hx
    refine .pure ?_
    simpa using ⟨hfound, hinner⟩

theorem forcedType_matches :
    Matches σ .within .within (forcedType types s) (forcedType types' s')
      (Option.Rel σ.Alike) := by
  refine Matches.position.bind fun start start' hstart => ?_
  refine (Matches.attempt (ht.type s s' hs)).bind fun o o' ho => ?_
  cases ho with
  | none => exact .pure .none
  | some htype =>
    dsimp only
    rw [isForced_alike_type htype]
    split
    · exact .pure (.some htype)
    · exact (Matches.moveTo hstart).bind fun _ _ _ => .pure .none

end Parameters

namespace ExprParsers

structure Agree (σ : Simulation) (g g' : ExprParsers) : Prop where
  types : g.types.Agree σ g'.types
  level : ∀ l s s' lines, σ.Alike s s' →
    Matches σ .within .within (g.level l s lines) (g'.level l s' lines) σ.Alike

theorem binary_alike {m m' : Mark} {l l' r r' : Expr} {t t' : Token} {ks : List Kind}
    (hm : σ.Alike m m') (hl : σ.Alike l l') (ht : Token.Alike σ.lhs σ.rhs t t')
    (hk : t.kind ∈ ks) (hks : ∀ k ∈ ks, k ≠ .newline ∧ k ≠ .identifier) (hr : σ.Alike r r') :
    σ.Alike (Expr.binary m l t.text r) (.binary m' l' t'.text r') := by
  have htext := ht.fixed_text hk hks
  simpa using ⟨hm, hl, htext, hr⟩

theorem boundRange_matches {start start' : Nat} {name name' : Identifier} {low low' high high' : Expr}
    (hstart : σ.At .within start start') (hname : σ.Alike name name') (hlow : σ.Alike low low')
    (hhigh : σ.Alike high high') :
    Matches σ .within .within (boundRange start name low high)
      (boundRange start' name' low' high') σ.Alike := by
  refine (Matches.make hstart (R := σ.Alike) fun m m' hm => ?_).bind fun r r' hr => ?_
  · simpa using ⟨hm, hname, hlow, hhigh⟩
  refine (Matches.allocate (R := σ.Alike) ?_ fun m m' hm => ?_).bind fun type type' htype => ?_
  · exact (Mark.mk.inj (Identifier.mk.inj hname).1).1
  · simpa using hm
  refine (Matches.make hstart (R := σ.Alike) fun m m' hm => ?_).bind fun v v' hv => .pure ?_
  · simpa [Variable.relabel] using ⟨hm, hname, htype⟩
  · exact congrArg₂ Prod.mk hr hv

section Rules

variable {g g' : ExprParsers} (hg : g.Agree σ g') {s s' : Scope} (hs : σ.Alike s s')
  {lines : Bool}

include hg hs

theorem expression_matches :
    Matches σ .within .within (g.expression s lines) (g'.expression s' lines) σ.Alike :=
  hg.level .logical s s' lines hs

theorem rightGrouped_matches {operand self : Level} {ks : List Kind}
    (hspace : ∀ k ∈ ks, k.isSpace = false)
    (hfixed : ∀ k ∈ ks, k ≠ .newline ∧ k ≠ .identifier) :
    Matches σ .within .within (g.rightGrouped operand self ks s lines)
      (g'.rightGrouped operand self ks s' lines) σ.Alike := by
  refine Matches.settle.bind fun start start' hstart => ?_
  refine (hg.level operand s s' lines hs).bind fun left left' hleft => ?_
  refine (Matches.accept hspace).bind fun o o' ho => ?_
  cases ho with
  | none => exact .pure hleft
  | some hop =>
    refine (hg.level self s s' lines hs).bind fun right right' hright => ?_
    exact .make hstart fun m m' hm => binary_alike hm hleft hop.1 hop.2 hfixed hright

theorem leftGrouped_matches {operand : Level} {ks : List Kind}
    (hspace : ∀ k ∈ ks, k.isSpace = false)
    (hfixed : ∀ k ∈ ks, k ≠ .newline ∧ k ≠ .identifier) :
    Matches σ .within .within (g.leftGrouped operand ks s lines)
      (g'.leftGrouped operand ks s' lines) σ.Alike := by
  refine Matches.settle.bind fun start start' hstart => ?_
  refine (hg.level operand s s' lines hs).bind fun first first' hfirst => ?_
  refine Matches.foldWhile σ.Alike hfirst fun left left' hleft => ?_
  refine (Matches.accept hspace).bind fun o o' ho => ?_
  cases ho with
  | none => exact .pure .none
  | some hop =>
    refine (hg.level operand s s' lines hs).bind fun right right' hright => ?_
    refine (Matches.make hstart (R := σ.Alike) fun m m' hm => ?_).bind
      fun e e' he => .pure (.some he)
    exact binary_alike hm hleft hop.1 hop.2 hfixed hright

theorem range_matches :
    Matches σ .within .within (g.range s) (g'.range s') σ.Alike := by
  refine Matches.position.bind fun start start' hstart => ?_
  refine identifier_matches.bind fun name name' hname => ?_
  refine (Matches.ofExcept (checkAvailable_alike hs hname)).bind fun _ _ _ => ?_
  refine Matches.expect.bind fun _ _ _ => ?_
  refine (hg.level .additive s s' true hs).bind fun low low' hlow => ?_
  refine Matches.expect.bind fun _ _ _ => ?_
  refine (hg.level .additive s s' true hs).bind fun high high' hhigh => ?_
  refine (boundRange_matches hstart hname hlow hhigh).bind fun x x' hx => ?_
  obtain ⟨hr, hv⟩ := Prod.mk.inj hx
  refine (Matches.ofExcept (declareVariable_alike hs hv)).bind fun t t' ht => .pure ?_
  exact congrArg₂ Prod.mk hr ht

theorem quantifier_matches {start start' : Nat} {keyword keyword' : Token}
    (hstart : σ.At .within start start') (hkeyword : keyword.text = keyword'.text) :
    Matches σ .within .within (g.quantifier start keyword s) (g'.quantifier start' keyword' s')
      σ.Alike := by
  refine Matches.expect.bind fun _ _ _ => ?_
  refine (Matches.repeating (R := σ.Alike) σ.Alike ?_ fun x x' hx => ?_).bind fun x x' hx => ?_
  · simpa using hs
  · obtain ⟨hfound, hinner⟩ := Prod.mk.inj hx
    refine (range_matches hg hinner).bind fun y y' hy => ?_
    obtain ⟨hr, hnext⟩ := Prod.mk.inj hy
    have hstep : σ.Alike (y.1 :: x.1, y.2) (y'.1 :: x'.1, y'.2) := by
      simpa using ⟨⟨hr, hfound⟩, hnext⟩
    refine Matches.acceptNext.bind fun o o' ho => ?_
    cases ho with
    | some _ => exact .pure (.inr hstep)
    | none => exact Matches.expect.bind fun _ _ _ => .pure (.inl hstep)
  · obtain ⟨hfound, hinner⟩ := Prod.mk.inj hx
    refine (expression_matches hg hinner).bind fun condition condition' hcondition => ?_
    refine Matches.expect.bind fun _ _ _ => .make hstart fun m m' hm => ?_
    simpa using ⟨hm, hkeyword, hfound, hcondition⟩

theorem condition_matches :
    Matches σ .within .within (g.condition s lines) (g'.condition s' lines) σ.Alike := by
  refine Matches.settle.bind fun start start' hstart => ?_
  refine (Matches.accept (by decide)).bind fun o o' ho => ?_
  cases ho with
  | some hkeyword =>
    exact quantifier_matches hg hs hstart (hkeyword.1.fixed_text hkeyword.2 (by decide))
  | none =>
    refine (hg.level .shift s s' lines hs).bind fun left left' hleft => ?_
    refine (Matches.accept (by decide)).bind fun o o' ho => ?_
    cases ho with
    | none => exact .pure hleft
    | some hop =>
      dsimp only
      rw [← hop.1.kind]
      split
      · refine (hg.types.type s s' hs).bind fun type type' htype => ?_
        exact .make hstart fun m m' hm => by simpa using ⟨hm, hleft, htype⟩
      · refine (hg.level .shift s s' lines hs).bind fun right right' hright => ?_
        exact .make hstart fun m m' hm => binary_alike hm hleft hop.1 hop.2 (by decide) hright

theorem arguments_matches :
    Matches σ .within .within (g.arguments s) (g'.arguments s') σ.Alike :=
  .listUntil (expression_matches hg hs)

theorem qualified_matches :
    Matches σ .within .within (g.qualified s lines) (g'.qualified s' lines) σ.Alike := by
  refine Matches.position.bind fun start start' hstart => ?_
  refine qualifiedName_matches.bind fun name name' hname => ?_
  refine (Matches.accept (by decide)).bind fun o o' ho => ?_
  cases ho with
  | none => exact .make hstart fun m m' hm => by simpa using ⟨hm, hname⟩
  | some _ =>
    refine (arguments_matches hg hs).bind fun arguments arguments' harguments => ?_
    exact .make hstart fun m m' hm => by simpa using ⟨hm, hname, harguments⟩

theorem fieldAccess_matches {start start' : Nat} {source source' : Expr}
    (hstart : σ.At .within start start') (hsource : σ.Alike source source') :
    Matches σ .within .within (g.fieldAccess s lines start source)
      (g'.fieldAccess s' lines start' source') σ.Alike := by
  refine identifier_matches.bind fun name name' hname => ?_
  refine (Matches.make hstart (R := σ.Alike) fun m m' hm => ?_).bind fun access access' haccess => ?_
  · simpa using ⟨hm, hsource, hname⟩
  refine (Matches.accept (by decide)).bind fun o o' ho => ?_
  cases ho with
  | some _ =>
    refine (arguments_matches hg hs).bind fun arguments arguments' harguments => ?_
    exact .make hstart fun m m' hm => by simpa using ⟨hm, haccess, harguments⟩
  | none =>
    refine (Matches.ahead (by decide)).bind fun b b' hb => ?_
    obtain rfl : b = b' := hb
    split
    · refine (optionalLifetimeArguments_matches hs).bind fun o o' ho => ?_
      cases ho with
      | none => exact .pure haccess
      | some hlifetimes =>
        refine (arguments_matches hg hs).bind fun arguments arguments' harguments => ?_
        exact .make hstart fun m m' hm => by simpa using ⟨hm, haccess, hlifetimes, harguments⟩
    · exact .pure haccess

theorem accessStep_matches {start start' : Nat} {source source' : Expr}
    (hstart : σ.At .within start start') (hsource : σ.Alike source source') :
    Matches σ .within .within (g.accessStep s lines start source)
      (g'.accessStep s' lines start' source') (Option.Rel σ.Alike) := by
  refine (Matches.accept (by decide)).bind fun o o' ho => ?_
  cases ho with
  | some _ =>
    refine (hg.level .additive s s' true hs).bind fun index index' hindex => ?_
    refine Matches.expect.bind fun _ _ _ => ?_
    refine (Matches.make hstart (R := σ.Alike) fun m m' hm => ?_).bind
      fun e e' he => .pure (.some he)
    simpa using ⟨hm, hsource, hindex⟩
  | none =>
    refine (Matches.accept (by decide)).bind fun o o' ho => ?_
    cases ho with
    | none => exact .pure .none
    | some ht =>
      dsimp only
      rw [← ht.1.kind]
      split
      · refine (Matches.moveTo hstart).bind fun _ _ _ => ?_
        exact (qualified_matches hg hs).bind fun e e' he => .pure (.some he)
      · split
        · refine (Matches.make hstart (R := σ.Alike) fun m m' hm => ?_).bind
            fun target target' htarget => ?_
          · simpa using ⟨hm, hsource⟩
          · exact (fieldAccess_matches hg hs hstart htarget).bind fun e e' he => .pure (.some he)
        · exact (fieldAccess_matches hg hs hstart hsource).bind fun e e' he => .pure (.some he)

theorem access_matches :
    Matches σ .within .within (g.access s lines) (g'.access s' lines) σ.Alike := by
  refine Matches.settle.bind fun start start' hstart => ?_
  refine (hg.level .term s s' lines hs).bind fun first first' hfirst => ?_
  exact Matches.foldWhile σ.Alike hfirst fun e e' he => accessStep_matches hg hs hstart he

theorem call_matches {start start' : Nat} {name name' : Identifier}
    {lifetimes lifetimes' : Option (List Identifier)} (hstart : σ.At .within start start')
    (hname : σ.Alike name name') (hlifetimes : σ.Alike lifetimes lifetimes') :
    Matches σ .within .within (g.call s start name lifetimes) (g'.call s' start' name' lifetimes')
      σ.Alike := by
  refine (arguments_matches hg hs).bind fun arguments arguments' harguments => ?_
  rcases Simulation.rel_cases (lookup_alike hs (Identifier.mk.inj hname).2) with
    ⟨hx, hy⟩ | ⟨v, v', hx, hy, hv⟩
  · rw [hx, hy]
    refine (nameOf_matches hname).bind fun n n' hn => ?_
    exact .make hstart fun m m' hm => by simpa using ⟨hm, hn, hlifetimes, harguments⟩
  · rw [hx, hy]
    refine (Matches.allocate (R := σ.Alike) ?_ fun m m' hm => ?_).bind fun e e' he => ?_
    · exact (Mark.mk.inj (Identifier.mk.inj hname).1).1
    · have hindex : σ.lhs.index v.mark.index = σ.rhs.index v'.mark.index :=
        congrArg (·.mark.index) hv
      simpa using ⟨hm, hname, hindex⟩
    · exact .make hstart fun m m' hm => by simpa using ⟨hm, he, hlifetimes, harguments⟩

omit hg in
theorem plainName_matches {start start' : Nat} {name name' : Identifier}
    (hstart : σ.At .within start start') (hname : σ.Alike name name') :
    Matches σ .within .within (plainName s start name) (plainName s' start' name') σ.Alike := by
  unfold plainName
  have htext : σ.Alike name.text name'.text := (Identifier.mk.inj hname).2
  rcases Simulation.rel_cases (lookup_alike hs htext) with ⟨hx, hy⟩ | ⟨v, v', hx, hy, hv⟩
  · rw [hx, hy]
    dsimp only
    rw [isAlias_alike hs htext]
    split
    · refine (Matches.allocate (R := σ.Alike) ?_ fun m m' hm => ?_).bind
        fun dollar dollar' hdollar => ?_
      · exact (Mark.mk.inj (Identifier.mk.inj hname).1).1
      · simpa [Identifier.relabel] using ⟨hm, fixed_alike (w := "$") (by decide)⟩
      · refine (Matches.make hstart (R := σ.Alike) fun m m' hm => ?_).bind
          fun source source' hsource => ?_
        · have hlink := declaration_alike hs (fixed_alike (σ := σ) (w := "$") (by decide))
          simpa using ⟨hm, hdollar, hlink⟩
        · exact .make hstart fun m m' hm => by simpa using ⟨hm, hsource, hname⟩
    · refine (nameOf_matches hname).bind fun n n' hn => ?_
      exact .make hstart fun m m' hm => by simpa using ⟨hm, hn⟩
  · rw [hx, hy]
    refine .make hstart fun m m' hm => ?_
    have hindex : σ.lhs.index v.mark.index = σ.rhs.index v'.mark.index :=
      congrArg (·.mark.index) hv
    simpa using ⟨hm, hname, hindex⟩

theorem recordFields_matches {start start' : Nat} {name name' : Option Identifier}
    (hstart : σ.At .within start start') (hname : σ.Alike name name') :
    Matches σ .within .within (g.recordFields start name s) (g'.recordFields start' name' s')
      σ.Alike := by
  refine Matches.expect.bind fun _ _ _ => ?_
  refine (Matches.untilClose σ.Alike rfl fun found found' hfound => ?_).bind
    fun found found' hfound => .make hstart fun m m' hm => ?_
  · refine identifier_matches.bind fun key key' hkey => ?_
    have hrest : Matches σ .within .within
        (do
          let _ ← expect .colon
          return FieldValue.mk key (← g.expression s true) :: found)
        (do
          let _ ← expect .colon
          return FieldValue.mk key' (← g'.expression s' true) :: found') σ.Alike := by
      refine Matches.expect.bind fun _ _ _ => ?_
      refine (expression_matches hg hs).bind fun value value' hvalue => .pure ?_
      simpa using ⟨⟨hkey, hvalue⟩, hfound⟩
    have hmem := mem_names_alike FieldValue.name (fun _ _ => rfl) hkey hfound
    dsimp only
    rw [if_congr hmem rfl rfl]
    split
    · exact (Matches.reject (Q := .within) (R := fun _ _ => False)
        (congrArg (·.mark.span) hkey)).bind fun _ _ h => absurd h id
    · exact hrest
  · simpa using ⟨hm, hname, hfound⟩

theorem allocation_matches :
    Matches σ .within .within (g.allocation s lines) (g'.allocation s' lines) σ.Alike := by
  refine Matches.position.bind fun start start' hstart => ?_
  refine optionalLifetime_matches.bind fun o o' ho => ?_
  cases ho with
  | some hl =>
    refine (Matches.ofExcept (checkLifetime_alike hs hl)).bind fun _ _ _ => ?_
    refine Matches.expect.bind fun _ _ _ => Matches.expect.bind fun _ _ _ => ?_
    refine (expression_matches hg hs).bind fun operand operand' hoperand => ?_
    exact .make hstart fun m m' hm => by simpa using ⟨hm, hoperand, hl⟩
  | none =>
    refine Matches.expect.bind fun keyword keyword' hkeyword => ?_
    refine (Matches.allocate (R := σ.Alike) hkeyword.1.span fun m m' hm => ?_).bind
      fun l l' hl => ?_
    · simpa [Identifier.relabel] using ⟨hm, fixed_alike (w := "*") (by decide)⟩
    · refine (expression_matches hg hs).bind fun operand operand' hoperand => ?_
      exact .make hstart fun m m' hm => by simpa using ⟨hm, hoperand, hl⟩

theorem name_matches :
    Matches σ .within .within (g.name s lines) (g'.name s' lines) σ.Alike := by
  refine Matches.position.bind fun start start' hstart => ?_
  refine identifier_matches.bind fun name name' hname => ?_
  refine (Matches.accept (by decide)).bind fun o o' ho => ?_
  cases ho with
  | some _ => exact call_matches hg hs hstart hname rfl
  | none =>
    refine (Matches.ahead (by decide)).bind fun allocates _ h => ?_
    obtain rfl := h
    split
    · exact (Matches.moveTo hstart).bind fun _ _ _ => allocation_matches hg hs
    · refine (Matches.ahead (by decide)).bind fun angle _ h => ?_
      obtain rfl := h
      split
      · refine (optionalLifetimeArguments_matches hs).bind fun o o' ho => ?_
        cases ho with
        | none => exact plainName_matches hs hstart hname
        | some hlifetimes =>
          exact call_matches hg hs hstart hname (congrArg some hlifetimes)
      · refine (Matches.ahead (by decide)).bind fun brace _ h => ?_
        obtain rfl := h
        split
        · exact recordFields_matches hg hs hstart (congrArg some hname)
        · exact plainName_matches hs hstart hname

omit hg hs in
theorem termFollows_matches : Matches σ .within .within termFollows termFollows Eq := by
  refine Matches.tokens.bind fun i j h => ?_
  obtain ⟨rfl, rfl⟩ := h
  refine Matches.position.bind fun p q hpos => .pure ?_
  obtain ⟨-, ⟨hx, hy⟩ | ⟨u, v, hx, hy, halike, -⟩⟩ := σ.skip_at false hpos (.inl rfl)
  · rw [hx, hy]
  · rw [hx, hy, Option.any_some, Option.any_some, halike.kind]

theorem inBrackets_matches {start start' : Nat} (hstart : σ.At .within start start') :
    Matches σ .within .within (g.inBrackets s lines start) (g'.inBrackets s' lines start')
      σ.Alike := by
  refine (Matches.moveTo hstart).bind fun _ _ _ => Matches.expect.bind fun _ _ _ => ?_
  refine (expression_matches hg hs).bind fun e e' he => ?_
  refine Matches.expect.bind fun _ _ _ => termFollows_matches.bind fun follows _ h => ?_
  obtain rfl := h
  rw [isForced_alike he]
  split
  · refine (Matches.moveTo hstart).bind fun _ _ _ => ?_
    refine (hg.types.type s s' hs).bind fun type type' htype => ?_
    refine (expression_matches hg hs).bind fun operand operand' hoperand => ?_
    exact .make hstart fun m m' hm => by simpa using ⟨hm, htype, hoperand⟩
  · exact .pure he

theorem bracketed_matches :
    Matches σ .within .within (g.bracketed s lines) (g'.bracketed s' lines) σ.Alike := by
  refine Matches.position.bind fun start start' hstart => Matches.expect.bind fun _ _ _ => ?_
  refine (forcedType_matches hg.types hs).bind fun o o' ho => ?_
  cases ho with
  | none => exact inBrackets_matches hg hs hstart
  | some htype =>
    refine (Matches.accept (by decide)).bind fun o o' ho => ?_
    cases ho with
    | none => exact inBrackets_matches hg hs hstart
    | some _ =>
      refine (expression_matches hg hs).bind fun operand operand' hoperand => ?_
      exact .make hstart fun m m' hm => by simpa using ⟨hm, htype, hoperand⟩

theorem array_matches : Matches σ .within .within (g.array s) (g'.array s') σ.Alike := by
  refine Matches.position.bind fun start start' hstart => Matches.expect.bind fun _ _ _ => ?_
  refine Matches.acceptNext.bind fun o o' ho => ?_
  cases ho with
  | some _ => exact .make hstart fun m m' hm => by simpa using hm
  | none =>
    refine (expression_matches hg hs).bind fun _ _ _ => ?_
    refine (Matches.accept (by decide)).bind fun semicolon semicolon' hsemicolon => ?_
    refine (Matches.moveTo hstart).bind fun _ _ _ => Matches.expect.bind fun _ _ _ => ?_
    refine (expression_matches hg hs).bind fun first first' hfirst => ?_
    cases hsemicolon with
    | some _ =>
      refine Matches.expect.bind fun _ _ _ => ?_
      refine (expression_matches hg hs).bind fun length length' hlength => ?_
      refine Matches.expect.bind fun _ _ _ => .make hstart fun m m' hm => ?_
      simpa using ⟨hm, hfirst, hlength⟩
    | none =>
      refine (Matches.untilClose σ.Alike ?_ fun found found' hfound => ?_).bind
        fun found found' hfound => .make hstart fun m m' hm => ?_
      · simpa using hfirst
      · refine (expression_matches hg hs).bind fun e e' he => .pure ?_
        exact congrArg₂ List.cons he hfound
      · simpa using ⟨hm, hfound⟩

theorem lambda_matches : Matches σ .within .within (g.lambda s) (g'.lambda s') σ.Alike := by
  refine Matches.position.bind fun start start' hstart => Matches.expect.bind fun _ _ _ => ?_
  refine optionalCaptures_matches.bind fun captures captures' hcaptures => ?_
  refine (optionalLifetimeParameters_matches (capturing_alike hs hcaptures)).bind fun x x' hx => ?_
  obtain ⟨hlifetimes, hinner⟩ := Prod.mk.inj hx
  refine (parameters_matches hg.types hinner).bind fun y y' hy => ?_
  obtain ⟨hparameters, hinner⟩ := Prod.mk.inj hy
  refine (expression_matches hg hinner).bind fun body body' hbody => ?_
  refine Matches.expect.bind fun _ _ _ => .make hstart fun m m' hm => ?_
  simpa using ⟨hm, hparameters, hcaptures, hlifetimes, hbody⟩

theorem lambdaConstant_matches :
    Matches σ .within .within (g.lambdaConstant s lines) (g'.lambdaConstant s' lines) σ.Alike := by
  refine Matches.position.bind fun start start' hstart => Matches.expect.bind fun _ _ _ => ?_
  refine qualifiedName_matches.bind fun name name' hname => ?_
  refine (Matches.ahead (by decide)).bind fun opens _ h => ?_
  obtain rfl := h
  split
  · refine (TypeParsers.parameterTypes_matches hg.types hs).bind fun types types' htypes => ?_
    exact .make hstart fun m m' hm => by simpa using ⟨hm, hname, htypes⟩
  · exact .make hstart fun m m' hm => by simpa using ⟨hm, hname⟩

theorem functionValue_matches :
    Matches σ .within .within (g.functionValue s lines) (g'.functionValue s' lines) σ.Alike := by
  refine Matches.position.bind fun start start' hstart => Matches.expect.bind fun _ _ _ => ?_
  refine (Matches.accept (by decide)).bind fun o o' ho => ?_
  refine (Matches.moveTo hstart).bind fun _ _ _ => ?_
  cases ho with
  | some _ => exact lambda_matches hg hs
  | none => exact lambdaConstant_matches hg hs

theorem term_matches : Matches σ .within .within (g.term s lines) (g'.term s' lines) σ.Alike := by
  refine Matches.current.bind fun t t' ht => Matches.position.bind fun start start' hstart => ?_
  have hliteral {build : Mark → Expr} (hbuild : ∀ m m', σ.Alike m m' → σ.Alike (build m) (build m')) :
      Matches σ .within .within (make start build) (make start' build) σ.Alike :=
    .make hstart hbuild
  have htext (hk : t.kind ∈ [Kind.byteLit, .charLit, .intLit, .stringLit]) : t.text = t'.text :=
    ht.fixed_text hk (by decide)
  rw [← ht.kind]
  split
  · exact bracketed_matches hg hs
  · exact allocation_matches hg hs
  · exact allocation_matches hg hs
  · exact name_matches hg hs
  · exact Matches.advance.bind fun _ _ _ => hliteral fun m m' hm => by simpa using hm
  · exact Matches.advance.bind fun _ _ _ => hliteral fun m m' hm => by simpa using hm
  · exact Matches.advance.bind fun _ _ _ => hliteral fun m m' hm => by simpa using hm
  · rename_i hk
    refine Matches.advance.bind fun _ _ _ => ?_
    have hvalue := Token.byteValue_alike (σ := σ) (htext (by simp [hk])) ht.span
    refine (Matches.ofReading hvalue).bind fun value _ h => ?_
    obtain rfl := h
    exact hliteral fun m m' hm => by simpa using hm
  · rename_i hk
    refine Matches.advance.bind fun _ _ _ => ?_
    have hvalue := Token.charValue_alike (σ := σ) (htext (by simp [hk])) ht.span
    refine (Matches.ofReading hvalue).bind fun value _ h => ?_
    obtain rfl := h
    exact hliteral fun m m' hm => by simpa using hm
  · rename_i hk
    refine Matches.advance.bind fun _ _ _ => ?_
    have hvalue := Token.integerValue_alike (σ := σ) (htext (by simp [hk]))
    refine (Matches.ofReading hvalue).bind fun value _ h => ?_
    obtain rfl := h
    exact hliteral fun m m' hm => by simpa using hm
  · rename_i hk
    refine Matches.advance.bind fun _ _ _ => ?_
    have hvalue := Token.stringValue_alike (σ := σ) (htext (by simp [hk])) ht.span
    refine (Matches.ofReading hvalue).bind fun value _ h => ?_
    obtain rfl := h
    exact hliteral fun m m' hm => by simpa using hm
  · refine Matches.advance.bind fun _ _ _ => ?_
    refine (hg.level .access s s' lines hs).bind fun operand operand' hoperand => ?_
    exact .make hstart fun m m' hm => by simpa using ⟨hm, hoperand⟩
  · refine Matches.advance.bind fun _ _ _ => ?_
    refine (hg.level .shift s s' true hs).bind fun operand operand' hoperand => ?_
    refine Matches.expect.bind fun _ _ _ => .make hstart fun m m' hm => ?_
    simpa using ⟨hm, hoperand⟩
  · exact array_matches hg hs
  · exact recordFields_matches hg hs hstart rfl
  · refine Matches.advance.bind fun _ _ _ => ?_
    refine (hg.level .condition s s' lines hs).bind fun operand operand' hoperand => ?_
    exact .make hstart fun m m' hm => by simpa using ⟨hm, hoperand⟩
  · refine (Matches.ahead (by decide)).bind fun allocates _ h => ?_
    obtain rfl := h
    split
    · exact allocation_matches hg hs
    · refine Matches.advance.bind fun _ _ _ => ?_
      refine (hg.level .term s s' lines hs).bind fun operand operand' hoperand => ?_
      exact .make hstart fun m m' hm => by simpa using ⟨hm, hoperand⟩
  · refine Matches.advance.bind fun _ _ _ => ?_
    refine (expression_matches hg hs).bind fun operand operand' hoperand => ?_
    exact .make hstart fun m m' hm => by simpa using ⟨hm, hoperand⟩
  · exact functionValue_matches hg hs
  · exact .reject ht.span

end Rules

theorem next_agree {g g' : ExprParsers} (hg : g.Agree σ g') : g.next.Agree σ g'.next where
  types := hg.types
  level l s s' lines hs := by
    cases l with
    | logical => exact rightGrouped_matches hg hs (by decide) (by decide)
    | connective => exact rightGrouped_matches hg hs (by decide) (by decide)
    | bitOr => exact rightGrouped_matches hg hs (by decide) (by decide)
    | bitXor => exact rightGrouped_matches hg hs (by decide) (by decide)
    | bitAnd => exact rightGrouped_matches hg hs (by decide) (by decide)
    | condition => exact condition_matches hg hs
    | shift => exact leftGrouped_matches hg hs (by decide) (by decide)
    | additive => exact leftGrouped_matches hg hs (by decide) (by decide)
    | multiplicative => exact leftGrouped_matches hg hs (by decide) (by decide)
    | access => exact access_matches hg hs
    | term => exact term_matches hg hs

theorem ofDepth_agree {types types' : TypeParsers} (ht : types.Agree σ types') {d d' : Nat}
    (hd : d = d' ∨ σ.uneven) : (ofDepth types d).Agree σ (ofDepth types' d') := by
  refine depths_induction (C := fun d d' => (ofDepth types d).Agree σ (ofDepth types' d')) hd
    ⟨ht, fun _ _ _ _ _ => .fail rfl⟩ (fun h _ => ?_) (fun h _ => ?_)
    fun d d' ih => ?_
  · exact ⟨ht, fun _ _ _ _ _ => .exhausted_left h⟩
  · exact ⟨ht, fun _ _ _ _ _ => .exhausted_right h⟩
  · rw [ofDepth_succ, ofDepth_succ]
    exact next_agree ih

end ExprParsers

namespace TargetParser

section Rules

variable {g g' : ExprParsers} (hg : g.Agree σ g') {target target' : TargetParser}
  (htarget : ∀ s s', σ.Alike s s' → Matches σ .within .within (target s) (target' s') σ.Alike)
  {s s' : Scope} (hs : σ.Alike s s')

include hg hs in
theorem step_matches {start start' : Nat} {source source' : Expr}
    (hstart : σ.At .within start start') (hsource : σ.Alike source source') :
    Matches σ .within .within (step g s start source) (step g' s' start' source')
      (Option.Rel σ.Alike) := by
  refine (Matches.accept (by decide)).bind fun o o' ho => ?_
  cases ho with
  | some _ =>
    refine (hg.level .additive s s' true hs).bind fun index index' hindex => ?_
    refine Matches.expect.bind fun _ _ _ => ?_
    refine (Matches.make hstart (R := σ.Alike) fun m m' hm => ?_).bind
      fun e e' he => .pure (.some he)
    simpa using ⟨hm, hsource, hindex⟩
  | none =>
    refine (Matches.accept (by decide)).bind fun o o' ho => ?_
    cases ho with
    | none => exact .pure .none
    | some ht =>
      have hrest : ∀ source source', σ.Alike source source' → Matches σ .within .within
          (do
            let field ← identifier
            return some (← make start (Expr.recordAccess · source field)))
          (do
            let field ← identifier
            return some (← make start' (Expr.recordAccess · source' field)))
          (Option.Rel σ.Alike) := by
        intro source source' hsource
        refine identifier_matches.bind fun field field' hfield => ?_
        refine (Matches.make hstart (R := σ.Alike) fun m m' hm => ?_).bind
          fun e e' he => .pure (.some he)
        simpa using ⟨hm, hsource, hfield⟩
      dsimp only
      rw [← ht.1.kind]
      split
      · refine (Matches.make hstart (R := σ.Alike) fun m m' hm => ?_).bind hrest
        simpa using ⟨hm, hsource⟩
      · exact (Matches.pure (R := σ.Alike) hsource).bind hrest

include htarget hs in
theorem term_matches :
    Matches σ .within .within (term target s) (term target' s') σ.Alike := by
  refine Matches.current.bind fun t t' ht => Matches.position.bind fun start start' hstart => ?_
  rw [← ht.kind]
  split
  · refine identifier_matches.bind fun name name' hname => .make hstart fun m m' hm => ?_
    have hlink := declaration_alike hs (Identifier.mk.inj hname).2
    simpa using ⟨hm, hname, hlink⟩
  · refine Matches.advance.bind fun _ _ _ => (htarget s s' hs).bind fun inner inner' hinner => ?_
    exact Matches.expect.bind fun _ _ _ => .pure hinner
  · refine Matches.advance.bind fun _ _ _ => ?_
    refine (htarget s s' hs).bind fun operand operand' hoperand => ?_
    exact .make hstart fun m m' hm => by simpa using ⟨hm, hoperand⟩
  · exact .reject ht.span

include hg htarget hs in
theorem next_matches :
    Matches σ .within .within (next g target s) (next g' target' s') σ.Alike := by
  refine Matches.settle.bind fun start start' hstart => ?_
  refine (term_matches htarget hs).bind fun first first' hfirst => ?_
  exact Matches.foldWhile σ.Alike hfirst fun e e' he => step_matches hg hs hstart he

end Rules

theorem ofDepth_matches {g g' : ExprParsers} (hg : g.Agree σ g') {d d' : Nat}
    (hd : d = d' ∨ σ.uneven) {s s' : Scope} (hs : σ.Alike s s') :
    Matches σ .within .within (ofDepth g d s) (ofDepth g' d' s') σ.Alike := by
  refine depths_induction (C := fun d d' => ∀ s s', σ.Alike s s' →
    Matches σ .within .within (ofDepth g d s) (ofDepth g' d' s') σ.Alike) hd ?_ ?_ ?_ ?_ s s' hs
  · exact fun _ _ _ => .fail rfl
  · exact fun h _ _ _ _ => .exhausted_left h
  · exact fun h _ _ _ _ => .exhausted_right h
  · intro d d' ih s s' hs
    rw [ofDepth_succ, ofDepth_succ]
    exact next_matches hg ih hs

end TargetParser

end Whiley.Grammar
