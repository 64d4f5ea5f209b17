import Whiley.Proofs.Grammar.FormedTypes
import Whiley.Proofs.Grammar.Literals

namespace Whiley.Grammar

open Whiley.Parser

variable {r : Run} {s : Scope}

theorem addVariables_append {vs vs' : List Variable} :
    s.addVariables (vs ++ vs') = (s.addVariables vs).addVariables vs' := by
  simp [Scope.addVariables]

theorem admitsVariables_append {a : Arena Node} {vs vs' : List Variable} :
    s.AdmitsVariables a (vs ++ vs') ↔
      s.AdmitsVariables a vs ∧ (s.addVariables vs).AdmitsVariables a vs' := by
  induction vs generalizing s with
  | nil => simp [Scope.AdmitsVariables, Scope.addVariables]
  | cons v vs ih => simp [Scope.AdmitsVariables, ih, Scope.addVariables, and_assoc]

theorem admitsParameters_append {a : Arena Node} {vs vs' : List Variable} :
    s.AdmitsParameters a (vs ++ vs') ↔
      s.AdmitsParameters a vs ∧ (s.addVariables vs).AdmitsParameters a vs' := by
  simp only [Scope.AdmitsParameters, List.forall_mem_append, admitsVariables_append]
  exact and_and_and_comm

theorem parameter_ensures {types : TypeParsers} (ht : types.Sound r) :
    Ensures r (parameter types s)
      fun x => s.AdmitsParameters r.arena [x.1] ∧ x.2 = s.addVariable x.1 := by
  refine Ensures.position.bind fun start _ => ?_
  refine (TypeParsers.named_ensures ht).bind fun x hx => ?_
  obtain ⟨type, name⟩ := x
  refine (Ensures.make (Q := fun v : Variable => v.name = name ∧ v.type = type ∧
    r.arena.Holds v.mark.index (.variable v none)) fun m hm => by exact ⟨rfl, rfl, hm⟩).bind fun v hv => ?_
  obtain ⟨rfl, rfl, hstored⟩ := hv
  refine (Ensures.ofExcept fun s' hs' => Scope.declareVariable_ok hs').bind fun s' hs' => .pure ?_
  exact ⟨⟨by simpa using hx.2, hx.1, hs'.1, hstored, trivial⟩, hs'.2⟩

theorem parameters_ensures {types : TypeParsers} {close : Kind} (ht : types.Sound r) :
    Ensures r (parameters types close s)
      fun x => s.AdmitsParameters r.arena x.1 ∧ x.2 = s.addVariables x.1 := by
  refine Ensures.expect.bind fun _ _ => ?_
  refine (Ensures.untilClose (fun x => s.AdmitsParameters r.arena x.1.reverse ∧
    x.2 = s.addVariables x.1.reverse) (by exact ⟨⟨by simp, trivial⟩, rfl⟩) fun x hx => ?_).bind fun x hx => .pure hx
  obtain ⟨found, inner⟩ := x
  obtain ⟨hfound, hinner⟩ := hx
  obtain rfl : inner = s.addVariables found.reverse := hinner
  refine (parameter_ensures ht).bind fun y hy => .pure ?_
  simp only [List.reverse_cons, admitsParameters_append, addVariables_append]
  exact ⟨⟨hfound, hy.1⟩, hy.2⟩

theorem forcedType_ensures {types : TypeParsers} (ht : types.Sound r) :
    Ensures r (forcedType types s) fun o => ∀ t, o = some t → t.Formed s := by
  refine Ensures.position.bind fun start _ => ?_
  refine (Ensures.attempt (ht.type s)).bind fun found hfound => ?_
  cases found with
  | none => exact .pure nofun
  | some t =>
    dsimp only
    split
    · refine .pure ?_
      rintro _ ⟨⟩
      exact hfound t rfl
    · exact Ensures.moveTo.bind fun _ _ => .pure nofun

structure ExprParsers.Sound (r : Run) (g : ExprParsers) : Prop where
  types : g.types.Sound r
  level : ∀ l s lines, Ensures r (g.level l s lines) (Expr.Formed r.arena s)

namespace ExprParsers

variable {g : ExprParsers} {lines : Bool}

theorem expression_ensures (hg : g.Sound r) :
    Ensures r (g.expression s lines) (Expr.Formed r.arena s) :=
  hg.level .logical s lines

theorem binary_operator {t : Token} (ht : t ∈ r.input.tokens) (hk : t.kind ∈ binaryKinds) :
    ∃ k ∈ binaryKinds, t.text = k.spelling := by
  refine ⟨t.kind, hk, r.text_of_fixed ht ?_⟩
  revert hk
  cases t.kind <;> decide

theorem rightGrouped_ensures (hg : g.Sound r) {operand self : Level} {operators : List Kind}
    (hops : ∀ k ∈ operators, k ∈ binaryKinds) :
    Ensures r (g.rightGrouped operand self operators s lines) (Expr.Formed r.arena s) := by
  refine Ensures.settle.bind fun start _ => ?_
  refine (hg.level operand s lines).bind fun left hleft => ?_
  refine Ensures.accept.bind fun found hfound => ?_
  cases found with
  | none => exact .pure hleft
  | some op =>
    refine (hg.level self s lines).bind fun right hright => .make fun _ _ => ?_
    obtain ⟨ht, hk⟩ := hfound op rfl
    exact ⟨binary_operator ht (hops _ hk), hleft, hright⟩

theorem leftGrouped_ensures (hg : g.Sound r) {operand : Level} {operators : List Kind}
    (hops : ∀ k ∈ operators, k ∈ binaryKinds) :
    Ensures r (g.leftGrouped operand operators s lines) (Expr.Formed r.arena s) := by
  refine Ensures.settle.bind fun start _ => ?_
  refine (hg.level operand s lines).bind fun first hfirst => ?_
  refine Ensures.foldWhile (Expr.Formed r.arena s) hfirst fun left hleft => ?_
  refine Ensures.accept.bind fun found hfound => ?_
  cases found with
  | none => exact .pure nofun
  | some op =>
    refine (hg.level operand s lines).bind fun right hright => ?_
    refine (Ensures.make fun _ _ => ?_).found
    obtain ⟨ht, hk⟩ := hfound op rfl
    exact ⟨binary_operator ht (hops _ hk), hleft, hright⟩

def RangeFound (a : Arena Node) (s : Scope) (x : Range × Scope) : Prop :=
  Range.AllFormed a s [x.1] ∧ x.2 = s.addVariable x.1.variable

theorem boundRange_ensures {start : Nat} {name : Identifier} {low high : Expr} :
    Ensures r (boundRange start name low high) fun x => ∃ m,
      x = (.mk m name low high, (Range.mk m name low high).variable) ∧
        r.arena.Holds (m.index + 2) (.variable (Range.mk m name low high).variable none) := by
  intro st hle
  refine ⟨⟨r.input.span start st.pos, st.arena.size⟩, ?_, Ensures.entry_of_le hle ?_⟩
  · simp [Range.variable]
  · simp [← Arena.length_toList]
    rfl

theorem range_ensures (hg : g.Sound r) : Ensures r (g.range s) (RangeFound r.arena s) := by
  refine Ensures.position.bind fun start _ => ?_
  refine identifier_ensures.bind fun name hname => ?_
  refine (Ensures.ofExcept (Q := fun _ => s.isAvailable name.text) fun _ h =>
    Scope.checkAvailable_ok h).bind fun _ hfree => ?_
  refine Ensures.expect.bind fun _ _ => ?_
  refine (hg.level .additive s true).bind fun low hlow => ?_
  refine Ensures.expect.bind fun _ _ => ?_
  refine (hg.level .additive s true).bind fun high hhigh => ?_
  refine boundRange_ensures.bind fun x hx => ?_
  obtain ⟨m, rfl, hstored⟩ := hx
  refine (Ensures.ofExcept fun s' hs' => (Scope.declareVariable_ok hs').2).bind fun s' hs' => .pure ?_
  exact ⟨⟨hname, hfree, hlow, hhigh, hstored, trivial⟩, hs'⟩

theorem allFormed_append {a : Arena Node} {rs rs' : List Range} :
    Range.AllFormed a s (rs ++ rs') ↔
      Range.AllFormed a s rs ∧ Range.AllFormed a (s.addRanges rs) rs' := by
  induction rs generalizing s with
  | nil => simp [Range.AllFormed, Scope.addRanges, Scope.addVariables]
  | cons x rs ih =>
    obtain ⟨m, name, start, stop⟩ := x
    simp [Range.AllFormed, ih, Scope.addRanges, Scope.addVariables, and_assoc]

theorem addRanges_append {rs rs' : List Range} :
    s.addRanges (rs ++ rs') = (s.addRanges rs).addRanges rs' := by
  simp [Scope.addRanges, addVariables_append]

def RangesFound (a : Arena Node) (s : Scope) (x : List Range × Scope) : Prop :=
  Range.AllFormed a s x.1.reverse ∧ x.2 = s.addRanges x.1.reverse

theorem RangesFound.cons {a : Arena Node} {found : List Range} {x : Range} {inner next : Scope}
    (h : RangesFound a s (found, inner)) (hx : RangeFound a inner (x, next)) :
    RangesFound a s (x :: found, next) := by
  obtain ⟨hfound, hinner⟩ := h
  obtain rfl : inner = s.addRanges found.reverse := hinner
  rw [RangesFound, List.reverse_cons, allFormed_append, addRanges_append]
  exact ⟨⟨hfound, hx.1⟩, hx.2⟩

theorem quantifier_ensures (hg : g.Sound r) {start : Nat} {keyword : Token}
    (hk : keyword.text ∈ ["some", "all"]) :
    Ensures r (g.quantifier start keyword s) (Expr.Formed r.arena s) := by
  refine Ensures.expect.bind fun _ _ => ?_
  refine (Ensures.repeating (RangesFound r.arena s) (Q := fun x => x.1 ≠ [] ∧ RangesFound r.arena s x)
    (by exact ⟨trivial, rfl⟩) fun x hx => ?_).bind fun x hx => ?_
  · obtain ⟨found, inner⟩ := x
    refine (range_ensures hg).bind fun y hy => ?_
    obtain ⟨y, next⟩ := y
    refine Ensures.acceptNext.bind fun bar _ => ?_
    cases bar with
    | some _ => exact .pure ⟨by simp, hx.cons hy⟩
    | none => exact Ensures.expect.bind fun _ _ => .pure (hx.cons hy)
  · obtain ⟨found, inner⟩ := x
    obtain ⟨hne, hfound, hinner⟩ := hx
    obtain rfl : inner = s.addRanges found.reverse := hinner
    refine (expression_ensures hg).bind fun condition hcondition => ?_
    refine Ensures.expect.bind fun _ _ => .make fun _ _ => ?_
    exact ⟨hk, by simpa using hne, hfound, hcondition⟩

theorem relations_binary {k : Kind} (hk : k ∈ relations) (hne : k ≠ .kwIs) : k ∈ binaryKinds := by
  revert hk hne
  cases k <;> decide

theorem quantifier_keyword {t : Token} (ht : t ∈ r.input.tokens) (hk : t.kind ∈ [Kind.kwSome, .kwAll]) :
    t.text ∈ ["some", "all"] := by
  rw [r.text_of_fixed ht (by revert hk; cases t.kind <;> decide)]
  revert hk
  cases t.kind <;> decide

theorem condition_ensures (hg : g.Sound r) :
    Ensures r (g.condition s lines) (Expr.Formed r.arena s) := by
  refine Ensures.settle.bind fun start _ => ?_
  refine Ensures.accept.bind fun keyword hkeyword => ?_
  cases keyword with
  | some keyword =>
    obtain ⟨ht, hk⟩ := hkeyword keyword rfl
    exact quantifier_ensures hg (quantifier_keyword ht hk)
  | none =>
    refine (hg.level .shift s lines).bind fun left hleft => ?_
    refine Ensures.accept.bind fun op hop => ?_
    cases op with
    | none => exact .pure hleft
    | some op =>
      obtain ⟨ht, hk⟩ := hop op rfl
      dsimp only
      split
      · exact (hg.types.type s).bind fun type htype => .make fun _ _ => ⟨hleft, htype⟩
      · rename_i hne
        refine (hg.level .shift s lines).bind fun right hright => .make fun _ _ => ?_
        exact ⟨binary_operator ht (relations_binary hk hne), hleft, hright⟩

theorem arguments_ensures (hg : g.Sound r) :
    Ensures r (g.arguments s) (Expr.AllFormed r.arena s) :=
  (Ensures.listUntil (expression_ensures hg)).mono fun _ h => Expr.allFormed_iff.mpr h

theorem qualified_ensures (hg : g.Sound r) :
    Ensures r (g.qualified s lines) (Expr.Formed r.arena s) := by
  refine Ensures.position.bind fun start _ => ?_
  refine qualifiedName_ensures.bind fun name hname => ?_
  refine Ensures.accept.bind fun opening _ => ?_
  cases opening with
  | none => exact .make fun _ _ => hname
  | some _ =>
    refine (arguments_ensures hg).bind fun arguments harguments => .make fun _ _ => ?_
    exact ⟨hname, nofun, harguments⟩

theorem fieldAccess_ensures (hg : g.Sound r) {start : Nat} {source : Expr}
    (hsource : source.Formed r.arena s) :
    Ensures r (g.fieldAccess s lines start source) (Expr.Formed r.arena s) := by
  refine identifier_ensures.bind fun name hname => ?_
  refine (Ensures.make (Q := Expr.Formed r.arena s) fun _ _ => by
    exact ⟨hname, Or.inr hsource⟩).bind fun access haccess => ?_
  refine Ensures.accept.bind fun opening _ => ?_
  cases opening with
  | some _ =>
    refine (arguments_ensures hg).bind fun arguments harguments => .make fun _ _ => ?_
    exact ⟨haccess, nofun, harguments⟩
  | none =>
    refine Ensures.ahead.bind fun b _ => ?_
    split
    · refine optionalLifetimeArguments_ensures.bind fun found hfound => ?_
      cases found with
      | none => exact .pure haccess
      | some lifetimes =>
        refine (arguments_ensures hg).bind fun arguments harguments => .make fun _ _ => ?_
        exact ⟨haccess, fun ls hls => hfound ls hls, harguments⟩
    · exact .pure haccess

theorem accessStep_ensures (hg : g.Sound r) {start : Nat} {source : Expr}
    (hsource : source.Formed r.arena s) :
    Ensures r (g.accessStep s lines start source)
      fun o => ∀ e, o = some e → e.Formed r.arena s := by
  refine Ensures.accept.bind fun opening _ => ?_
  cases opening with
  | some _ =>
    refine (hg.level .additive s true).bind fun index hindex => ?_
    refine Ensures.expect.bind fun _ _ => ?_
    exact (Ensures.make fun _ _ => by exact ⟨hsource, hindex⟩).found
  | none =>
    refine Ensures.accept.bind fun t _ => ?_
    cases t with
    | none => exact .pure nofun
    | some t =>
      dsimp only
      split
      · exact Ensures.moveTo.bind fun _ _ => (qualified_ensures hg).found
      · split
        · refine (Ensures.make (Q := Expr.Formed r.arena s) fun _ _ => by exact hsource).bind
            fun target htarget => ?_
          exact (fieldAccess_ensures hg htarget).found
        · exact (fieldAccess_ensures hg hsource).found

theorem access_ensures (hg : g.Sound r) : Ensures r (g.access s lines) (Expr.Formed r.arena s) := by
  refine Ensures.settle.bind fun start _ => ?_
  refine (hg.level .term s lines).bind fun first hfirst => ?_
  exact Ensures.foldWhile (Expr.Formed r.arena s) hfirst fun e he => accessStep_ensures hg he

theorem call_ensures (hg : g.Sound r) {start : Nat} {name : Identifier} (hname : name.IsWord)
    {lifetimes : Option (List Identifier)}
    (hlifetimes : ∀ ls, lifetimes = some ls → ∀ l ∈ ls, l.IsLifetime) :
    Ensures r (g.call s start name lifetimes) (Expr.Formed r.arena s) := by
  refine (arguments_ensures hg).bind fun arguments harguments => ?_
  split
  · rename_i v hv
    refine (Ensures.allocate (Q := Expr.Formed r.arena s) fun _ _ => by
      exact ⟨hname, v, hv, rfl⟩).bind fun source hsource => .make fun _ _ => ?_
    exact ⟨hsource, hlifetimes, harguments⟩
  · refine (nameOf_ensures hname).bind fun n hn => .make fun _ _ => ?_
    exact ⟨hn, hlifetimes, harguments⟩

theorem plainName_ensures {start : Nat} {name : Identifier} (hname : name.IsWord) :
    Ensures r (plainName s start name) (Expr.Formed r.arena s) := by
  unfold plainName
  split
  · rename_i v hv
    exact .make fun _ _ => ⟨hname, v, hv, rfl⟩
  · rename_i hfree
    split
    · rename_i halias
      refine (Ensures.allocate (Q := fun d : Identifier => d.text = "$") fun _ _ => rfl).bind
        fun dollar hdollar => ?_
      obtain ⟨dm, rfl⟩ : ∃ dm, dollar = ⟨dm, "$"⟩ := ⟨dollar.mark, by rw [← hdollar]⟩
      refine (Ensures.make (Q := fun e => ∃ m, e = .variableAccess m ⟨dm, "$"⟩
        ((s.lookup "$").map (·.mark.index))) fun m _ => by exact ⟨m, rfl⟩).bind
          fun source hsource => .make fun _ _ => ?_
      obtain ⟨m, rfl⟩ := hsource
      exact ⟨hname, Or.inl ⟨halias, hfree, m, dm, rfl⟩⟩
    · exact (nameOf_ensures hname).bind fun n hn => .make fun _ _ => hn

def EntriesFound (a : Arena Node) (s : Scope) (found : List FieldValue) : Prop :=
  (found.map (·.name.text)).Nodup ∧ ∀ f ∈ found, f.name.IsWord ∧ f.value.Formed a s

theorem recordFields_ensures (hg : g.Sound r) {start : Nat} {name : Option Identifier}
    (hname : ∀ n, name = some n → n.IsWord) :
    Ensures r (g.recordFields start name s) (Expr.Formed r.arena s) := by
  refine Ensures.expect.bind fun _ _ => ?_
  refine (Ensures.untilClose (EntriesFound r.arena s) (by simp [EntriesFound])
    fun found hfound => ?_).bind fun found hfound => .make fun m _ => ?_
  · refine identifier_ensures.bind fun key hkey => ?_
    have hrest (hnew : key.text ∉ found.map (·.name.text)) : Ensures r (do
        let _ ← expect .colon
        return FieldValue.mk key (← g.expression s true) :: found) (EntriesFound r.arena s) := by
      refine Ensures.expect.bind fun _ _ => ?_
      refine (expression_ensures hg).bind fun value hvalue => .pure ⟨?_, ?_⟩
      · exact List.nodup_cons.mpr ⟨hnew, hfound.1⟩
      · exact List.forall_mem_cons.mpr ⟨⟨hkey, hvalue⟩, hfound.2⟩
    dsimp only
    split
    · exact Ensures.reject.bind fun _ h => absurd h id
    · rename_i hnew
      exact hrest hnew
  · obtain ⟨hnodup, hall⟩ := hfound
    refine ⟨hname, by simpa [List.nodup_reverse] using hnodup, FieldValue.allFormed_iff.mpr ?_⟩
    exact fun f hf => hall f (List.mem_reverse.mp hf)

theorem isLifetime_star (s : Scope) : s.isLifetime "*" := by
  simp [Scope.isLifetime]

theorem allocation_ensures (hg : g.Sound r) :
    Ensures r (g.allocation s lines) (Expr.Formed r.arena s) := by
  refine Ensures.position.bind fun start _ => ?_
  refine optionalLifetime_ensures.bind fun found hfound => ?_
  cases found with
  | some l =>
    refine (Ensures.ofExcept (Q := fun _ => s.isLifetime l.text) fun _ h =>
      Scope.checkLifetime_ok h).bind fun _ hvalid => ?_
    refine Ensures.expect.bind fun _ _ => Ensures.expect.bind fun _ _ => ?_
    refine (expression_ensures hg).bind fun operand hoperand => .make fun _ _ => ?_
    exact ⟨hfound l rfl, hvalid, hoperand⟩
  | none =>
    refine Ensures.expect.bind fun keyword _ => ?_
    refine (Ensures.allocate (Q := fun l : Identifier => l.text = "*") fun _ _ => rfl).bind
      fun l hl => ?_
    refine (expression_ensures hg).bind fun operand hoperand => .make fun _ _ => ?_
    exact ⟨Or.inr (Or.inr hl), hl ▸ isLifetime_star s, hoperand⟩

theorem name_ensures (hg : g.Sound r) : Ensures r (g.name s lines) (Expr.Formed r.arena s) := by
  refine Ensures.position.bind fun start _ => ?_
  refine identifier_ensures.bind fun name hname => ?_
  refine Ensures.accept.bind fun opening _ => ?_
  cases opening with
  | some _ => exact call_ensures hg hname nofun
  | none =>
    refine Ensures.ahead.bind fun allocates _ => ?_
    split
    · exact Ensures.moveTo.bind fun _ _ => allocation_ensures hg
    · refine Ensures.ahead.bind fun angle _ => ?_
      split
      · refine optionalLifetimeArguments_ensures.bind fun found hfound => ?_
        cases found with
        | none => exact plainName_ensures hname
        | some lifetimes => exact call_ensures hg hname fun ls hls => hfound ls hls
      · refine Ensures.ahead.bind fun brace _ => ?_
        split
        · refine recordFields_ensures hg ?_
          rintro _ ⟨⟩
          exact hname
        · exact plainName_ensures hname

theorem termFollows_ensures : Ensures r termFollows fun _ => True :=
  Ensures.tokens.bind fun _ _ => Ensures.position.bind fun _ _ => .pure trivial

theorem inBrackets_ensures (hg : g.Sound r) {start : Nat} :
    Ensures r (g.inBrackets s lines start) (Expr.Formed r.arena s) := by
  refine Ensures.moveTo.bind fun _ _ => Ensures.expect.bind fun _ _ => ?_
  refine (expression_ensures hg).bind fun e he => ?_
  refine Ensures.expect.bind fun _ _ => termFollows_ensures.bind fun follows _ => ?_
  split
  · refine Ensures.moveTo.bind fun _ _ => ?_
    refine (hg.types.type s).bind fun type htype => ?_
    exact (expression_ensures hg).bind fun operand hoperand => .make fun _ _ => ⟨htype, hoperand⟩
  · exact .pure he

theorem bracketed_ensures (hg : g.Sound r) :
    Ensures r (g.bracketed s lines) (Expr.Formed r.arena s) := by
  refine Ensures.position.bind fun start _ => Ensures.expect.bind fun _ _ => ?_
  refine (forcedType_ensures hg.types).bind fun found hfound => ?_
  cases found with
  | none => exact inBrackets_ensures hg
  | some type =>
    refine Ensures.accept.bind fun closing _ => ?_
    cases closing with
    | none => exact inBrackets_ensures hg
    | some _ =>
      refine (expression_ensures hg).bind fun operand hoperand => .make fun _ _ => ?_
      exact ⟨hfound type rfl, hoperand⟩

theorem array_ensures (hg : g.Sound r) : Ensures r (g.array s) (Expr.Formed r.arena s) := by
  refine Ensures.position.bind fun start _ => Ensures.expect.bind fun _ _ => ?_
  refine Ensures.acceptNext.bind fun closing _ => ?_
  cases closing with
  | some _ => exact .make fun _ _ => trivial
  | none =>
    refine (expression_ensures hg).bind fun _ _ => Ensures.accept.bind fun semicolon _ => ?_
    refine Ensures.moveTo.bind fun _ _ => Ensures.expect.bind fun _ _ => ?_
    refine (expression_ensures hg).bind fun first hfirst => ?_
    cases semicolon with
    | some _ =>
      refine Ensures.expect.bind fun _ _ => ?_
      refine (expression_ensures hg).bind fun length hlength => ?_
      exact Ensures.expect.bind fun _ _ => .make fun _ _ => ⟨hfirst, hlength⟩
    | none =>
      refine (Ensures.untilClose (fun found => ∀ e ∈ found, e.Formed r.arena s)
        (by simpa using hfirst) fun found hfound => ?_).bind fun found hfound => .make fun _ _ => ?_
      · refine (expression_ensures hg).bind fun e he => .pure ?_
        exact List.forall_mem_cons.mpr ⟨he, hfound⟩
      · exact Expr.allFormed_iff.mpr fun e he => hfound e (List.mem_reverse.mp he)

theorem lambda_ensures (hg : g.Sound r) : Ensures r (g.lambda s) (Expr.Formed r.arena s) := by
  refine Ensures.position.bind fun start _ => Ensures.expect.bind fun _ _ => ?_
  refine optionalCaptures_ensures.bind fun captures hcaptures => ?_
  refine optionalLifetimeParameters_ensures.bind fun x hx => ?_
  obtain ⟨lifetimes, inner⟩ := x
  obtain ⟨hdeclares, hinner⟩ := hx
  obtain rfl : inner = (s.capturing captures).addLifetimes lifetimes := hinner
  refine (parameters_ensures hg.types).bind fun y hy => ?_
  obtain ⟨parameters, inner⟩ := y
  obtain ⟨hadmits, hinner⟩ := hy
  obtain rfl : inner = ((s.capturing captures).addLifetimes lifetimes).addVariables parameters :=
    hinner
  refine (expression_ensures hg).bind fun body hbody => ?_
  refine Ensures.expect.bind fun _ _ => .make fun _ _ => ?_
  exact ⟨hcaptures, hdeclares, hadmits, hbody⟩

theorem lambdaConstant_ensures (hg : g.Sound r) :
    Ensures r (g.lambdaConstant s lines) (Expr.Formed r.arena s) := by
  refine Ensures.position.bind fun start _ => Ensures.expect.bind fun _ _ => ?_
  refine qualifiedName_ensures.bind fun name hname => Ensures.ahead.bind fun opens _ => ?_
  split
  · refine (TypeParsers.parameterTypes_ensures hg.types).bind fun types htypes => ?_
    exact .make fun _ _ => ⟨hname, htypes⟩
  · exact .make fun _ _ => ⟨hname, trivial⟩

theorem functionValue_ensures (hg : g.Sound r) :
    Ensures r (g.functionValue s lines) (Expr.Formed r.arena s) := by
  refine Ensures.position.bind fun start _ => Ensures.expect.bind fun _ _ => ?_
  refine Ensures.accept.bind fun opening _ => Ensures.moveTo.bind fun _ _ => ?_
  cases opening with
  | some _ => exact lambda_ensures hg
  | none => exact lambdaConstant_ensures hg

theorem term_ensures (hg : g.Sound r) : Ensures r (g.term s lines) (Expr.Formed r.arena s) := by
  refine Ensures.current.bind fun t ht => Ensures.position.bind fun start _ => ?_
  have hlexed : t.Lexed := r.lexed t ht
  have hliteral {build : Mark → Expr} (hbuild : ∀ m, (build m).Formed r.arena s) :
      Ensures r (make start build) (Expr.Formed r.arena s) := .make fun m _ => hbuild m
  split
  · exact bracketed_ensures hg
  · exact allocation_ensures hg
  · exact allocation_ensures hg
  · exact name_ensures hg
  · exact Ensures.advance.bind fun _ _ => hliteral fun _ => trivial
  · exact Ensures.advance.bind fun _ _ => hliteral fun _ => trivial
  · exact Ensures.advance.bind fun _ _ => hliteral fun _ => trivial
  · refine Ensures.advance.bind fun _ _ => ?_
    refine (Ensures.ofReading (Q := fun _ => True) (fun _ _ => trivial) fun f hf => ?_).bind
      fun value _ => hliteral fun _ => trivial
    exact Token.byteValue_proper hf
  · rename_i hk
    refine Ensures.advance.bind fun _ _ => ?_
    refine (Ensures.ofReading (Q := fun _ => True) (fun _ _ => trivial) fun f hf => ?_).bind
      fun value _ => hliteral fun _ => trivial
    exact Token.charValue_proper hlexed hk hf
  · rename_i hk
    refine Ensures.advance.bind fun _ _ => ?_
    refine (Ensures.ofReading (fun _ h => Token.integerValue_lt h) fun f hf => ?_).bind
      fun value hvalue => hliteral fun _ => hvalue
    exact Token.integerValue_proper ht hlexed hk hf
  · rename_i hk
    refine Ensures.advance.bind fun _ _ => ?_
    refine (Ensures.ofReading (Q := fun _ => True) (fun _ _ => trivial) fun f hf => ?_).bind
      fun value _ => hliteral fun _ => trivial
    exact Token.stringValue_proper hlexed hk hf
  · refine Ensures.advance.bind fun _ _ => ?_
    exact (hg.level .access s lines).bind fun operand h => .make fun _ _ => h
  · refine Ensures.advance.bind fun _ _ => ?_
    refine (hg.level .shift s true).bind fun operand h => ?_
    exact Ensures.expect.bind fun _ _ => .make fun _ _ => h
  · exact array_ensures hg
  · exact recordFields_ensures hg nofun
  · refine Ensures.advance.bind fun _ _ => ?_
    exact (hg.level .condition s lines).bind fun operand h => .make fun _ _ => h
  · refine Ensures.ahead.bind fun allocates _ => ?_
    split
    · exact allocation_ensures hg
    · refine Ensures.advance.bind fun _ _ => ?_
      exact (hg.level .term s lines).bind fun operand h => .make fun _ _ => h
  · refine Ensures.advance.bind fun _ _ => ?_
    exact (expression_ensures hg).bind fun operand h => .make fun _ _ => h
  · exact functionValue_ensures hg
  · exact .reject

theorem next_sound (hg : g.Sound r) : g.next.Sound r where
  types := hg.types
  level l s lines := by
    cases l with
    | logical => exact rightGrouped_ensures hg (by decide)
    | connective => exact rightGrouped_ensures hg (by decide)
    | bitOr => exact rightGrouped_ensures hg (by decide)
    | bitXor => exact rightGrouped_ensures hg (by decide)
    | bitAnd => exact rightGrouped_ensures hg (by decide)
    | condition => exact condition_ensures hg
    | shift => exact leftGrouped_ensures hg (by decide)
    | additive => exact leftGrouped_ensures hg (by decide)
    | multiplicative => exact leftGrouped_ensures hg (by decide)
    | access => exact access_ensures hg
    | term => exact term_ensures hg

theorem ofDepth_sound {types : TypeParsers} (ht : types.Sound r) (depth : Nat) :
    (ofDepth types depth).Sound r := by
  induction depth with
  | zero => exact ⟨ht, fun _ _ _ => .exhausted⟩
  | succ depth ih =>
    rw [ofDepth_succ]
    exact next_sound ih

end ExprParsers

namespace TargetParser

variable {g : ExprParsers} {target : TargetParser}

theorem step_ensures (hg : g.Sound r) {start : Nat} {source : Expr}
    (hsource : source.FormedTarget r.arena s) :
    Ensures r (step g s start source) fun o => ∀ e, o = some e → e.FormedTarget r.arena s := by
  refine Ensures.accept.bind fun opening _ => ?_
  cases opening with
  | some _ =>
    refine (hg.level .additive s true).bind fun index hindex => ?_
    refine Ensures.expect.bind fun _ _ => ?_
    exact (Ensures.make fun _ _ => by exact ⟨hsource, hindex⟩).found
  | none =>
    refine Ensures.accept.bind fun t _ => ?_
    cases t with
    | none => exact .pure nofun
    | some t =>
      have hrest {source : Expr} (hsource : source.FormedTarget r.arena s) : Ensures r (do
          let field ← identifier
          return some (← make start (Expr.recordAccess · source field)))
          fun o => ∀ e, o = some e → e.FormedTarget r.arena s := by
        refine identifier_ensures.bind fun field hfield => ?_
        exact (Ensures.make fun _ _ => by exact ⟨hfield, hsource⟩).found
      dsimp only
      split
      · refine (Ensures.make (Q := (·.FormedTarget r.arena s)) fun _ _ => by exact hsource).bind
          fun e he => hrest he
      · exact (Ensures.pure hsource).bind fun e he => hrest he

theorem term_ensures (htarget : ∀ s, Ensures r (target s) (·.FormedTarget r.arena s)) :
    Ensures r (term target s) (·.FormedTarget r.arena s) := by
  refine Ensures.current.bind fun t ht => Ensures.position.bind fun start _ => ?_
  split
  · exact identifier_ensures.bind fun name hname => .make fun _ _ => ⟨hname, rfl⟩
  · refine Ensures.advance.bind fun _ _ => (htarget s).bind fun inner hinner => ?_
    exact Ensures.expect.bind fun _ _ => .pure hinner
  · refine Ensures.advance.bind fun _ _ => ?_
    exact (htarget s).bind fun operand hoperand => .make fun _ _ => hoperand
  · exact .reject

theorem next_ensures (hg : g.Sound r)
    (htarget : ∀ s, Ensures r (target s) (·.FormedTarget r.arena s)) :
    Ensures r (next g target s) (·.FormedTarget r.arena s) := by
  refine Ensures.settle.bind fun start _ => (term_ensures htarget).bind fun first hfirst => ?_
  exact Ensures.foldWhile (Expr.FormedTarget r.arena s) hfirst fun e he => step_ensures hg he

theorem ofDepth_ensures (hg : g.Sound r) (depth : Nat) (s : Scope) :
    Ensures r (ofDepth g depth s) (·.FormedTarget r.arena s) := by
  induction depth generalizing s with
  | zero => exact .exhausted
  | succ depth ih =>
    rw [ofDepth_succ]
    exact next_ensures hg ih

end TargetParser

end Whiley.Grammar
