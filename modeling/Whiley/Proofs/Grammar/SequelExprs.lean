import Whiley.Proofs.Grammar.SequelTypes

namespace Whiley.Grammar

open Whiley.Parser

variable {x : Extension} {P : Nat → Nat → Prop} {c d : List Kind} {start : Nat}

def Reads (c : List Kind) (e : Expr) (d : List Kind) : Prop :=
  Spans c d ∧ (e.isInvocation → Called c d)

def Expressed (x : Extension) (p q : Parser Expr) : Prop :=
  ∀ c, Follows x True (x.On c) p q fun e => x.Where (Reads c e)

theorem made_expressed {build : Mark → Expr} (hstart : x.Spot c start) (hd : Spans c d)
    (hplain : ∀ m, (build m).isInvocation = false) :
    Follows x True (x.On d) (make start build) (make start build) fun e => x.Where (Reads c e) :=
  .made hstart fun m => ⟨hd, fun hcall => absurd hcall (by simp [hplain])⟩

theorem literal_expressed {t : Token} {build : Mark → Expr} (hstart : x.Spot c start)
    (hk : t.kind ∉ [Kind.lparen, .rparen, .less]) (hplain : ∀ m, (build m).isInvocation = false) :
    Follows x True (x.Before c t)
      (do
        let _ ← advance
        make start build)
      (do
        let _ ← advance
        make start build) fun e => x.Where (Reads c e) := by
  refine Follows.advance_before.then_ fun _ d hd => ?_
  rw [hd.2]
  exact made_expressed hstart (.token hk) hplain

theorem value_expressed {β : Type} {t : Token} {value : Except Failure β}
    {build : β → Mark → Expr} (hstart : x.Spot c start)
    (hk : t.kind ∉ [Kind.lparen, .rparen, .less]) (hplain : ∀ b m, (build b m).isInvocation = false) :
    Follows x True (x.Before c t)
      (do
        let _ ← advance
        let value ← ofReading value
        make start (build value))
      (do
        let _ ← advance
        let value ← ofReading value
        make start (build value)) fun e => x.Where (Reads c e) := by
  refine Follows.advance_before.then_ fun _ d hd => ?_
  rw [hd.2]
  exact Follows.ofReading.bind fun b => made_expressed hstart (.token hk) (hplain b)

def Lifetimes (c d : List Kind) : Prop :=
  ∃ e, d = .lparen :: e ∧ Spans c e ∧ .less :: c <:+ e

theorem optionalLifetimeArguments_follows {scope : Scope} {lines : Bool} :
    Follows x True (x.On c) (optionalLifetimeArguments scope lines)
      (optionalLifetimeArguments scope lines) fun o =>
        x.Where fun d => o.elim (d = c) fun _ => Lifetimes c d := by
  refine .placed fun start hstart => (Follows.expect fun _ => trivial).bind fun _ => ?_
  refine .placed fun inside hinside =>
    (Follows.accept_inside (by decide) (by simp [Calm])).then_ fun first d _ => ?_
  split
  · refine (Follows.moveTo hinside).bind fun _ => ?_
    refine (Follows.listUntil (S := Spans (.less :: c)) (T := Grows (.less :: c)) .refl
      (fun _ _ _ => trivial) (fun d hd => ?_) fun d hd => ?_).then_ fun found d hd => ?_
    · exact hd.grows.trans (Spans.token (by decide)).grows
    · refine (lifetime_follows fun _ => trivial).weaken fun _ p q ⟨hpq, hp, k, hk, htrail⟩ => ?_
      have hplain := lifetimeKinds_plain hk
      exact ⟨hpq, hp, htrail ▸ hd.spans (.token (by simp_all))⟩
    · obtain ⟨e, he, rfl⟩ := hd
      have hgrows : Grows (.less :: c) e := he.elim (·.grows) id
      refine (Follows.expect fun _ => trivial).bind fun _ => .given ⟨_, rfl, ?_, ?_⟩
      · exact (hgrows.spans (.token (by decide))).after (by decide)
      · exact hgrows.suffix.trans (List.suffix_cons _ _)
  · exact (Follows.moveTo hstart).bind fun _ => .given rfl

section Parameters

variable {g g' : TypeParsers} (hg : g.Following x g') {scope : Scope}

include hg

theorem parameter_follows : Follows x True (x.On c) (parameter g scope) (parameter g' scope)
    fun _ => x.Where (Spans c) := by
  refine .placed fun start hstart => ?_
  refine (TypeParsers.named_typed hg .refl .refl).anyway.then_ fun y d hd => ?_
  refine (Follows.made (R := fun _ => Spans c) hstart fun _ => hd.2).then_ fun v d hd => ?_
  exact Follows.ofExcept.bind fun _ => .pure fun _ _ => Follows.where_of_on hd

theorem parameters_follows {close : Kind} :
    Follows x True (x.On c) (parameters g close scope) (parameters g' close scope)
      fun _ => x.Where fun d => ∃ e, Grows (.lparen :: c) e ∧ d = close :: e := by
  refine (Follows.expect fun _ => trivial).bind fun _ => ?_
  refine (Follows.untilClose false (S := Grows (.lparen :: c)) (T := Grows (.lparen :: c)) .refl
    (fun _ _ _ => trivial) (fun d hd => ?_) fun y d hd => ?_).then_ fun y d ⟨e, he, hd⟩ => ?_
  · exact hd.trans (Spans.token (by decide)).grows
  · exact (parameter_follows hg).then_ fun y e he => .given (hd.trans he.grows)
  · exact .given ⟨e, he.elim id id, hd⟩

/-- A stray attempt at a type has come to the end of the first stream, as it does in every run. -/
theorem forcedType_strays (hstart : x.Spot c start) :
    Strays x True (x.At c start) (forcedType g scope) (forcedType g' scope)
      (fun o => x.Where fun d => o.elim (d = c) fun _ => Spans c d)
      fun o s => o = none ∧ s.pos = start ∧ Open c x.final ∧
        ∃ arena f s', (g.type scope).run x.left ⟨start, arena⟩ = .error f s' := by
  refine .placed ((Strays.attempt (hg.type scope .refl .refl)).then_
    (fun o => .of_follows (.from_where fun d hd => ?_)) ?_)
  · cases o with
    | none => exact .given hd
    | some t =>
      dsimp only
      split
      · exact .given hd.2
      · exact (Follows.moveTo hstart).bind fun _ => .given rfl
  · rintro o s ⟨rfl, hz⟩
    exact ⟨none, s, rfl, rfl, hz⟩

end Parameters

def Joining (ks : List Kind) : Prop :=
  Inner ks ∧ ∀ k ∈ ks, k ∉ [Kind.lparen, .rparen]

instance (ks : List Kind) : Decidable (Joining ks) :=
  inferInstanceAs (Decidable (_ ∧ _))

namespace ExprParsers

structure Following (x : Extension) (g g' : ExprParsers) : Prop where
  types : g.types.Following x g'.types
  level : ∀ l scope lines, Expressed x (g.level l scope lines) (g'.level l scope lines)

section Rules

variable {g g' : ExprParsers} (hg : Following x g g') {scope : Scope} {lines : Bool}

include hg

theorem expression_expressed :
    Expressed x (g.expression scope lines) (g'.expression scope lines) :=
  hg.level .logical scope lines

theorem rightGrouped_expressed {operand self : Level} {operators : List Kind}
    (hops : Joining operators) :
    Expressed x (g.rightGrouped operand self operators scope lines)
      (g'.rightGrouped operand self operators scope lines) := by
  refine fun c => .settled (fun _ => trivial) fun start hstart => ?_
  refine (hg.level operand scope lines c).then_ fun left d hd => ?_
  refine (Follows.accept hops.1).then_ fun o e htaken => ?_
  cases htaken with
  | none => exact .given hd
  | some hk =>
    refine (hg.level self scope lines _).then_ fun right e he => ?_
    exact made_expressed hstart (hd.1.trans (he.1.after (hops.2 _ hk)).grows) fun _ => rfl

theorem leftGrouped_expressed {operand : Level} {operators : List Kind}
    (hops : Joining operators) :
    Expressed x (g.leftGrouped operand operators scope lines)
      (g'.leftGrouped operand operators scope lines) := by
  refine fun c => .settled (fun _ => trivial) fun start hstart => ?_
  refine (hg.level operand scope lines c).then_ fun first d hd => ?_
  refine Follows.foldAlong (K := Reads c) (L := Reads c) hd fun left d hd => ?_
  refine (Follows.accept hops.1).then_ fun o e htaken => ?_
  cases htaken with
  | none => exact .given hd
  | some hk =>
    refine (hg.level operand scope lines _).then_ fun right e he => ?_
    have hspans := hd.1.trans (he.1.after (hops.2 _ hk)).grows
    exact (made_expressed hstart hspans fun _ => rfl).then_ fun _ _ h => .given h

theorem range_follows (hd : Grows c d) : Follows x True (x.On d) (g.range scope) (g'.range scope)
    fun _ => x.Where (Spans c) := by
  refine .placed fun start hstart => (identifier_follows fun _ => trivial).bind fun name => ?_
  have hname := hd.spans (.token (k := .identifier) (by decide))
  refine Follows.ofExcept.bind fun _ => (Follows.expect fun _ => trivial).bind fun _ => ?_
  refine (hg.level .additive scope true _).then_ fun low e he => ?_
  have hlow := hname.trans (he.1.after (by decide)).grows
  refine (Follows.expect fun _ => trivial).bind fun _ => ?_
  refine (hg.level .additive scope true _).then_ fun high i hi => ?_
  have hhigh := hlow.trans (hi.1.after (by decide)).grows
  refine Follows.then_ (R := fun _ => Spans c) ?_ fun y i hi =>
    Follows.ofExcept.bind fun _ => .pure fun _ _ => Follows.where_of_on hi
  refine (Follows.made (R := fun _ => (· = i)) hstart fun _ => rfl).then_ fun r j hj => ?_
  rw [hj]
  refine Follows.bind (R := fun _ => x.On i) (.allocate fun _ _ _ => id) fun type => ?_
  exact (Follows.made (R := fun _ => Spans c) hstart fun _ => hhigh).then_ fun v j hj => .given hj

theorem quantifier_expressed {k : Kind} {keyword : Token} (hstart : x.Spot c start)
    (hk : k ∉ [Kind.lparen, .rparen, .less]) :
    Follows x True (x.On (k :: c)) (g.quantifier start keyword scope)
      (g'.quantifier start keyword scope) fun e => x.Where (Reads c e) := by
  refine (Follows.expect fun _ => trivial).bind fun _ => ?_
  have hopen := (Spans.token (c := c) hk).trans (Spans.token (k := .lbrace) (by decide)).grows
  refine Follows.then_ (R := fun _ => Spans c) ?_ fun y d hd => ?_
  · refine Follows.mono (Follows.repeating (I := fun _ => x.Where (Spans c))
      (Q := fun _ => x.Where (Spans c)) fun y => .from_where fun d hd => ?_) id
      (fun _ _ => Follows.where_of_on hopen) fun _ _ _ => id
    refine (range_follows hg hd.grows).then_ fun r d hd => ?_
    refine (Follows.acceptNext fun _ => trivial).then_ fun o e htaken => ?_
    cases htaken with
    | some hk =>
      rw [List.mem_singleton.mp hk]
      exact .pure fun _ _ => Follows.where_of_on (hd.trans (Spans.token (by decide)).grows)
    | none =>
      refine (Follows.expect fun _ => trivial).bind fun _ => ?_
      exact .pure fun _ _ => Follows.where_of_on (hd.trans (Spans.token (by decide)).grows)
  · refine (expression_expressed hg _).then_ fun condition e he => ?_
    have hclose := (hd.trans he.1.grows).trans (Spans.token (k := .rbrace) (by decide)).grows
    exact (Follows.expect fun _ => trivial).bind fun _ => made_expressed hstart hclose fun _ => rfl

theorem condition_expressed :
    Expressed x (g.condition scope lines) (g'.condition scope lines) := by
  refine fun c => .settled (fun _ => trivial) fun start hstart => ?_
  refine (Follows.accept (by decide)).then_ fun o d htaken => ?_
  cases htaken with
  | some hk =>
    have hkeyword : ∀ k ∈ [Kind.kwSome, .kwAll], k ∉ [Kind.lparen, .rparen, .less] := by decide
    exact quantifier_expressed hg hstart (hkeyword _ hk)
  | none =>
    refine (hg.level .shift scope lines c).then_ fun left d hd => ?_
    have hjoining : Joining relations := by decide
    refine (Follows.accept hjoining.1).then_ fun o e htaken => ?_
    cases htaken with
    | none => exact .given hd
    | some hk =>
      dsimp only
      split
      · refine (hg.types.type scope .refl .refl).anyway.then_ fun type e he => ?_
        exact made_expressed hstart (hd.1.trans (he.2.after (hjoining.2 _ hk)).grows) fun _ => rfl
      · refine (hg.level .shift scope lines _).then_ fun right e he => ?_
        exact made_expressed hstart (hd.1.trans (he.1.after (hjoining.2 _ hk)).grows) fun _ => rfl

theorem arguments_follows : Follows x True (x.On (.lparen :: c)) (g.arguments scope)
    (g'.arguments scope) fun _ => x.Where (Bracketed c) := by
  refine (Follows.listUntil (S := Grows (.lparen :: c)) (T := Grows (.lparen :: c)) .refl
    (fun _ _ _ => trivial) (fun d hd => ?_) fun d hd => ?_).weaken fun _ p q hend => ?_
  · exact hd.trans (Spans.token (by decide)).grows
  · exact (expression_expressed hg d).weaken fun _ p q hend =>
      ⟨hend.1, hend.2.1, hd.trans hend.2.2.1.grows⟩
  · obtain ⟨e, he, hd⟩ := hend.2.2
    exact ⟨hend.1, hend.2.1, e, he.elim id id, hd⟩

theorem called_follows {build : List Expr → Mark → Expr} (hstart : x.Spot c start)
    (hd : Spans c d) (hcalled : Called c (.lparen :: d)) :
    Follows x True (x.On (.lparen :: d))
      (do
        let arguments ← g.arguments scope
        make start (build arguments))
      (do
        let arguments ← g'.arguments scope
        make start (build arguments)) fun e => x.Where (Reads c e) := by
  refine (arguments_follows hg).then_ fun arguments e he => .made hstart fun _ => ?_
  exact ⟨hd.trans he.spans.grows, fun _ => hcalled.trans he.suffix⟩

theorem qualified_expressed : Expressed x (g.qualified scope lines) (g'.qualified scope lines) := by
  refine fun c => .placed fun start hstart => ?_
  refine (qualifiedName_follows (fun _ => trivial) fun _ _ _ => trivial).then_ fun name d hd => ?_
  refine (Follows.accept (by decide)).then_ fun o e htaken => ?_
  cases htaken with
  | none => exact made_expressed hstart hd.spans fun _ => rfl
  | some hk =>
    rw [List.mem_singleton.mp hk]
    exact called_follows hg hstart hd.spans hd.called

theorem fieldAccess_follows {k : Kind} {source : Expr} (hstart : x.Spot c start) (hd : Spans c d)
    (hk : k ∈ [Kind.dot, .arrow]) :
    Follows x True (x.On (k :: d)) (g.fieldAccess scope lines start source)
      (g'.fieldAccess scope lines start source) fun e => x.Where (Reads c e) := by
  have hkind : k ∉ [Kind.lparen, .rparen, .less] ∧ k ∉ [Kind.kwFunction, .kwMethod, .greater] := by
    revert k
    decide
  have hfield := (hd.trans (Spans.token hkind.1).grows).trans
    (Spans.token (k := .identifier) (by decide)).grows
  have hcalled := Called.of_access hkind.2 hd.grows.suffix
  refine (identifier_follows fun _ => trivial).bind fun name => ?_
  refine (Follows.made (R := fun e d => Spans c d ∧ e.isInvocation = false ∧ d = _) hstart fun _ =>
    ⟨hfield, rfl, rfl⟩).then_ fun access e ⟨he, haccess, hed⟩ => ?_
  subst hed
  refine (Follows.accept (by decide)).then_ fun o e htaken => ?_
  cases htaken with
  | some hk =>
    rw [List.mem_singleton.mp hk]
    exact called_follows hg hstart hfield hcalled
  | none =>
    have hplain : Reads c access (.identifier :: k :: d) := ⟨hfield, by simp [haccess]⟩
    refine (Follows.ahead (by decide)).bind fun b => ?_
    split
    · refine optionalLifetimeArguments_follows.then_ fun o e ho => ?_
      cases o with
      | none => exact .given (ho ▸ hplain)
      | some lifetimes =>
        obtain ⟨i, rfl, hi, hless⟩ := ho
        refine called_follows hg hstart (hfield.trans hi.grows) ?_
        exact (Called.of_less ((hd.grows.suffix).trans (List.suffix_cons _ _))).trans
          (hless.trans (List.suffix_cons _ _))
    · exact .given hplain

theorem accessStep_follows {source : Expr} (hstart : x.Spot c start) (hd : Reads c source d) :
    Follows x True (x.On d) (g.accessStep scope lines start source)
      (g'.accessStep scope lines start source)
      fun o => x.Where fun d' => o.elim (Reads c source d') fun e => Reads c e d' := by
  refine (Follows.accept (by decide)).then_ fun o e htaken => ?_
  cases htaken with
  | some hk =>
    rw [List.mem_singleton.mp hk]
    refine (hg.level .additive scope true _).then_ fun index e he => ?_
    have hindex := hd.1.trans (he.1.after (by decide)).grows
    have hclose := hindex.trans (Spans.token (k := .rbracket) (by decide)).grows
    refine (Follows.expect fun _ => trivial).bind fun _ => ?_
    exact (made_expressed hstart hclose fun _ => rfl).then_ fun _ _ h => .given h
  | none =>
    refine (Follows.accept (by decide)).then_ fun o e htaken => ?_
    cases htaken with
    | none => exact .given hd
    | @some t hk =>
      dsimp only
      split
      · refine (Follows.moveTo hstart).bind fun _ => ?_
        exact (qualified_expressed hg c).then_ fun _ _ h => .given h
      · rename_i hcolons
        have hfield : t.kind ∈ [Kind.dot, .arrow] := by
          simp_all
        split
        · refine Follows.bind (R := fun _ => x.On (t.kind :: d)) ?_ fun target => ?_
          · refine (Follows.made (R := fun _ => (· = t.kind :: d)) hstart fun _ => rfl).weaken
              fun _ _ _ => id
          · exact (fieldAccess_follows hg hstart hd.1 hfield).then_ fun _ _ h => .given h
        · exact (fieldAccess_follows hg hstart hd.1 hfield).then_ fun _ _ h => .given h

theorem access_expressed : Expressed x (g.access scope lines) (g'.access scope lines) := by
  refine fun c => .settled (fun _ => trivial) fun start hstart => ?_
  refine (hg.level .term scope lines c).then_ fun first d hd => ?_
  exact Follows.foldAlong (K := Reads c) (L := Reads c) hd fun source d hd =>
    accessStep_follows hg hstart hd

theorem call_follows {name : Identifier} {lifetimes : Option (List Identifier)}
    (hstart : x.Spot c start) (hd : Spans c d) (hcalled : Called c (.lparen :: d)) :
    Follows x True (x.On (.lparen :: d)) (g.call scope start name lifetimes)
      (g'.call scope start name lifetimes) fun e => x.Where (Reads c e) := by
  refine (arguments_follows hg).then_ fun arguments e he => ?_
  have hreads : Spans c e ∧ Called c e := ⟨hd.trans he.spans.grows, hcalled.trans he.suffix⟩
  split
  · refine Follows.bind (R := fun _ => x.On e) (.allocate fun _ _ _ => id) fun source => ?_
    exact .made hstart fun _ => ⟨hreads.1, fun _ => hreads.2⟩
  · exact nameOf_follows.bind fun name => .made hstart fun _ => ⟨hreads.1, fun _ => hreads.2⟩

theorem recordFields_follows {name : Option Identifier} (hstart : x.Spot c start)
    (hd : Grows c d) :
    Follows x True (x.On d) (g.recordFields start name scope) (g'.recordFields start name scope)
      fun e => x.Where (Reads c e) := by
  refine (Follows.expect fun _ => trivial).bind fun _ => ?_
  have hopen := hd.spans (.token (k := .lbrace) (by decide))
  refine (Follows.untilClose false (S := Spans c) (T := Spans c) hopen
    (fun _ _ _ => trivial) (fun d hd => ?_) fun found d hd => ?_).then_ fun found d ⟨e, he, hd⟩ => ?_
  · exact hd.trans (Spans.token (by decide)).grows
  · refine (identifier_follows fun _ => trivial).bind fun key => ?_
    have hkey := hd.trans (Spans.token (k := .identifier) (by decide)).grows
    split
    · exact Follows.reject
    · refine (Follows.expect fun _ => trivial).bind fun _ => ?_
      refine (expression_expressed hg _).then_ fun value e he => ?_
      exact .given (hkey.trans (he.1.after (by decide)).grows)
  · subst hd
    exact made_expressed hstart ((he.elim id id).trans (Spans.token (by decide)).grows) fun _ => rfl

theorem allocation_expressed :
    Expressed x (g.allocation scope lines) (g'.allocation scope lines) := by
  refine fun c => .placed fun start hstart => ?_
  have hdefault : Follows x True (x.On c)
      (do
        let keyword ← expect .kwNew
        let l ← allocate keyword.span (Identifier.mk · "*")
        let operand ← g.expression scope lines
        make start (Expr.new · operand l))
      (do
        let keyword ← expect .kwNew
        let l ← allocate keyword.span (Identifier.mk · "*")
        let operand ← g'.expression scope lines
        make start (Expr.new · operand l)) fun e => x.Where (Reads c e) := by
    refine (Follows.expect fun _ => trivial).bind fun keyword => ?_
    refine Follows.bind (R := fun _ => x.On (.kwNew :: c)) (.allocate fun _ _ _ => id) fun l => ?_
    refine (expression_expressed hg _).then_ fun operand d hd => ?_
    exact made_expressed hstart (hd.1.after (by decide)) fun _ => rfl
  rw [optionalLifetime, bind_assoc, bind_assoc]
  refine (Strays.accept (by decide)).bind (fun o => .from_where fun d htaken => ?_) ?_
  · cases htaken with
    | none => exact hdefault
    | @some t hk =>
      have hplain := lifetimeKinds_plain hk
      rw [bind_assoc, bind_assoc]
      refine identifierOf_follows.bind fun l => Follows.ofExcept.bind fun _ => ?_
      refine (Follows.expect fun _ => trivial).bind fun _ => ?_
      refine (Follows.expect fun _ => trivial).bind fun _ => ?_
      refine (expression_expressed hg _).then_ fun operand e he => ?_
      have hnew := (he.1.after (by decide)).after (k := .colon) (by decide)
      exact made_expressed hstart (hnew.after (by simp_all)) fun _ => rfl
  · rintro o s ⟨rfl, hs, hend⟩
    exact ⟨trivial, hdefault.no_value (fun _ _ h => h.1) hend hs⟩

omit hg in
theorem plainName_follows {name : Identifier} (hstart : x.Spot c start) (hd : Spans c d) :
    Follows x True (x.On d) (plainName scope start name) (plainName scope start name)
      fun e => x.Where (Reads c e) := by
  rw [plainName]
  split
  · exact made_expressed hstart hd fun _ => rfl
  · split
    · refine Follows.bind (R := fun _ => x.On d) (.allocate fun _ _ _ => id) fun dollar => ?_
      refine (made_expressed hstart hd fun _ => rfl).then_ fun source e he => ?_
      exact made_expressed hstart he.1 fun _ => rfl
    · exact nameOf_follows.bind fun name => made_expressed hstart hd fun _ => rfl

theorem name_expressed : Expressed x (g.name scope lines) (g'.name scope lines) := by
  refine fun c => .placed fun start hstart => (identifier_follows fun _ => trivial).bind fun i => ?_
  have hname : Named c (.identifier :: c) := .one
  refine (Follows.accept (by decide)).then_ fun o d htaken => ?_
  cases htaken with
  | some hk =>
    rw [List.mem_singleton.mp hk]
    exact call_follows hg hstart hname.spans hname.called
  | none =>
    refine (Follows.ahead (by decide)).bind fun b => ?_
    split
    · exact (Follows.moveTo hstart).bind fun _ => allocation_expressed hg c
    · refine (Follows.ahead (by decide)).bind fun b => ?_
      split
      · refine optionalLifetimeArguments_follows.then_ fun o d hd => ?_
        cases o with
        | none => exact hd ▸ plainName_follows hstart hname.spans
        | some lifetimes =>
          obtain ⟨e, rfl, he, hless⟩ := hd
          refine call_follows hg hstart (hname.spans.trans he.grows) ?_
          exact (Called.of_less (List.suffix_refl c)).trans (hless.trans (List.suffix_cons _ _))
      · refine (Follows.ahead (by decide)).bind fun b => ?_
        split
        · exact recordFields_follows hg hstart hname.spans.grows
        · exact plainName_follows hstart hname.spans

omit hg in
theorem termFollows_follows : Follows x True (x.On c) termFollows termFollows fun _ => x.On c :=
  fun _ _ harena hpos =>
    Follows.on_line (f := fun o => o.any (·.kind.startsTerm)) harena hpos fun _ => hpos

theorem inBrackets_follows (hstart : x.Spot c start) :
    Follows x True P (g.inBrackets scope lines start) (g'.inBrackets scope lines start) fun e =>
      x.Where fun d => Reads c e d ∧ ∃ e, Grows (.lparen :: c) e ∧ .rparen :: e <:+ x.final := by
  refine (Follows.moveTo hstart).bind fun _ => (Follows.expect fun _ => trivial).bind fun _ => ?_
  refine (expression_expressed hg _).then_ fun e d hd => ?_
  refine (Follows.expect fun _ => trivial).bind fun _ => .along fun hclose => ?_
  refine termFollows_follows.bind fun b => ?_
  split
  · refine (Follows.moveTo hstart).bind fun _ => ?_
    refine (hg.types.type scope .refl .refl).anyway.then_ fun type i hi => ?_
    refine (expression_expressed hg _).then_ fun operand j hj => ?_
    refine (made_expressed hstart (hi.2.trans hj.1.grows) fun _ => rfl).weaken fun _ p q h => ?_
    exact ⟨h.1, h.2.1, h.2.2, d, hd.1.grows, hclose⟩
  · refine .given ⟨⟨hd.1.grows.brackets, fun hcall => ?_⟩, d, hd.1.grows, hclose⟩
    exact (hd.2 hcall).brackets

theorem bracketed_expressed :
    Expressed x (g.bracketed scope lines) (g'.bracketed scope lines) := by
  refine fun c => .placed fun start hstart => (Follows.expect fun _ => trivial).bind fun _ => ?_
  have hinside {P : Nat → Nat → Prop} : Follows x True P (g.inBrackets scope lines start)
      (g'.inBrackets scope lines start) fun e => x.Where (Reads c e) :=
    (inBrackets_follows hg hstart).weaken fun _ p q h => ⟨h.1, h.2.1, h.2.2.1⟩
  refine .located fun place hplace =>
    (forcedType_strays hg.types hplace).bind (fun o => .from_where fun d hd => ?_) ?_
  · cases o with
    | none => exact hinside
    | some type =>
      refine (Follows.accept (by decide)).then_ fun o e htaken => ?_
      cases htaken with
      | none => exact hinside
      | some hk =>
        rw [List.mem_singleton.mp hk]
        refine (expression_expressed hg _).then_ fun operand e he => ?_
        exact made_expressed hstart (hd.grows.brackets.trans he.1.grows) fun _ => rfl
  · rintro o s ⟨rfl, -, hopen, -⟩
    refine ⟨trivial, fun e s' hrun => ?_⟩
    obtain ⟨_, -, -, -, -, -, d, hd, hclose⟩ :=
      (inBrackets_follows (P := fun _ _ => True) hg hstart).of_value (t := s) rfl trivial hrun
    exact Open.not_rparen hd (hopen.of_suffix hclose (hd.suffix.trans (List.suffix_cons _ _)))

theorem array_expressed : Expressed x (g.array scope) (g'.array scope) := by
  refine fun c => .placed fun start hstart => (Follows.expect fun _ => trivial).bind fun _ => ?_
  have hopen : Spans c (.lbracket :: c) := .token (by decide)
  refine (Follows.acceptNext fun _ => trivial).then_ fun o d htaken => ?_
  cases htaken with
  | some hk =>
    rw [List.mem_singleton.mp hk]
    exact made_expressed hstart (hopen.trans (Spans.token (by decide)).grows) fun _ => rfl
  | none =>
    refine (expression_expressed hg _).then_ fun _ d _ => ?_
    refine (Follows.accept (by decide)).then_ fun semicolon _ _ => ?_
    refine (Follows.moveTo hstart).bind fun _ => (Follows.expect fun _ => trivial).bind fun _ => ?_
    refine (expression_expressed hg _).then_ fun first d hd => ?_
    have hfirst := hd.1.after (k := .lbracket) (by decide)
    split
    · refine (Follows.expect fun _ => trivial).bind fun _ => ?_
      refine (expression_expressed hg _).then_ fun length e he => ?_
      have hlength := hfirst.trans (he.1.after (by decide)).grows
      refine (Follows.expect fun _ => trivial).bind fun _ => ?_
      exact made_expressed hstart (hlength.trans (Spans.token (by decide)).grows) fun _ => rfl
    · refine (Follows.untilClose true (S := Spans c) (T := Spans c) hfirst
        (fun _ _ _ => trivial) (fun d hd => ?_) fun found d hd => ?_).then_
          fun found d ⟨e, he, hd⟩ => ?_
      · exact hd.trans (Spans.token (by decide)).grows
      · exact (expression_expressed hg _).then_ fun e d he => .given (hd.trans he.1.grows)
      · subst hd
        have hclose := (he.elim id id).trans (Spans.token (k := .rbracket) (by decide)).grows
        exact made_expressed hstart hclose fun _ => rfl

theorem lambda_expressed : Expressed x (g.lambda scope) (g'.lambda scope) := by
  refine fun c => .placed fun start hstart => (Follows.expect fun _ => trivial).bind fun _ => ?_
  refine (optionalCaptures_follows .refl .refl).anyway.then_ fun captures d hd => ?_
  refine (optionalLifetimeParameters_follows hd.1 hd.2.1).anyway.then_ fun y e he => ?_
  refine (parameters_follows hg.types).then_ fun y d ⟨i, hi, hd'⟩ => ?_
  subst hd'
  refine (expression_expressed hg _).then_ fun body j hj => ?_
  have hbody := (hi.spans (hj.1.after (by decide))).grows.brackets
  refine (Follows.expect fun _ => trivial).bind fun _ => ?_
  have hspans := (hd.2.2.trans he.2.2).spans hbody
  exact made_expressed hstart (hspans.after (by decide)) fun _ => rfl

theorem lambdaConstant_expressed :
    Expressed x (g.lambdaConstant scope lines) (g'.lambdaConstant scope lines) := by
  refine fun c => .placed fun start hstart => (Follows.expect fun _ => trivial).bind fun _ => ?_
  refine (qualifiedName_follows (fun _ => trivial) fun _ _ _ => trivial).then_ fun name d hd => ?_
  have hname := hd.spans.after (k := .ampersand) (by decide)
  refine (Follows.ahead (by decide)).bind fun b => ?_
  split
  · refine (TypeParsers.parameterTypes_follows hg.types .refl
      (Open.refl.lparen .refl)).anyway.then_ fun types e he => ?_
    exact made_expressed hstart (hname.trans he.2.grows) fun _ => rfl
  · exact made_expressed hstart hname fun _ => rfl

theorem functionValue_expressed :
    Expressed x (g.functionValue scope lines) (g'.functionValue scope lines) := by
  refine fun c => .placed fun start hstart => (Follows.expect fun _ => trivial).bind fun _ => ?_
  refine (Follows.accept (by decide)).then_ fun opening _ _ => (Follows.moveTo hstart).bind fun _ => ?_
  split
  · exact lambda_expressed hg c
  · exact lambdaConstant_expressed hg c

theorem unary_expressed {t : Token} {l : Level} {build : Expr → Mark → Expr}
    (hstart : x.Spot c start) (hk : t.kind ∉ [Kind.lparen, .rparen])
    (hplain : ∀ e m, (build e m).isInvocation = false) :
    Follows x True (x.Before c t)
      (do
        let _ ← advance
        let operand ← g.level l scope lines
        make start (build operand))
      (do
        let _ ← advance
        let operand ← g'.level l scope lines
        make start (build operand)) fun e => x.Where (Reads c e) := by
  refine Follows.advance_before.then_ fun _ d hd => ?_
  rw [hd.2]
  refine (hg.level l scope lines _).then_ fun operand e he => ?_
  exact made_expressed hstart (he.1.after hk) (hplain operand)

theorem term_expressed : Expressed x (g.term scope lines) (g'.term scope lines) := by
  refine fun c => (Follows.current fun _ => trivial).bind fun t => ?_
  refine .position_before fun start hstart => ?_
  split
  case h_1 => exact (bracketed_expressed hg c).before
  case h_2 => exact (allocation_expressed hg c).before
  case h_3 => exact (allocation_expressed hg c).before
  case h_4 => exact (name_expressed hg c).before
  case h_5 ht => exact literal_expressed hstart (by simp [ht]) fun _ => rfl
  case h_6 ht => exact literal_expressed hstart (by simp [ht]) fun _ => rfl
  case h_7 ht => exact literal_expressed hstart (by simp [ht]) fun _ => rfl
  case h_8 ht => exact value_expressed hstart (by simp [ht]) fun _ _ => rfl
  case h_9 ht => exact value_expressed hstart (by simp [ht]) fun _ _ => rfl
  case h_10 ht => exact value_expressed hstart (by simp [ht]) fun _ _ => rfl
  case h_11 ht => exact value_expressed hstart (by simp [ht]) fun _ _ => rfl
  case h_12 ht => exact unary_expressed hg hstart (by simp [ht]) fun _ _ => rfl
  case h_13 ht =>
    refine Follows.advance_before.then_ fun _ d hd => ?_
    rw [hd.2, ht]
    refine (hg.level .shift scope true _).then_ fun operand d hd => ?_
    have hclose := (hd.1.after (by decide)).trans (Spans.token (k := .bar) (by decide)).grows
    exact (Follows.expect fun _ => trivial).bind fun _ => made_expressed hstart hclose fun _ => rfl
  case h_14 => exact (array_expressed hg c).before
  case h_15 => exact (recordFields_follows hg hstart .refl).before
  case h_16 ht => exact unary_expressed hg hstart (by simp [ht]) fun _ _ => rfl
  case h_17 ht =>
    refine (Follows.ahead_from (by decide) fun _ _ h => h.1).bind fun b => ?_
    split
    · exact (allocation_expressed hg c).before
    · exact unary_expressed hg hstart (by simp [ht]) fun _ _ => rfl
  case h_18 ht => exact unary_expressed hg hstart (by simp [ht]) fun _ _ => rfl
  case h_19 => exact (functionValue_expressed hg c).before
  case h_20 => exact Follows.reject

theorem next_following : Following x g.next g'.next where
  types := hg.types
  level l scope lines := by
    cases l
    case logical => exact rightGrouped_expressed hg (by decide)
    case connective => exact rightGrouped_expressed hg (by decide)
    case bitOr => exact rightGrouped_expressed hg (by decide)
    case bitXor => exact rightGrouped_expressed hg (by decide)
    case bitAnd => exact rightGrouped_expressed hg (by decide)
    case condition => exact condition_expressed hg
    case shift => exact leftGrouped_expressed hg (by decide)
    case additive => exact leftGrouped_expressed hg (by decide)
    case multiplicative => exact leftGrouped_expressed hg (by decide)
    case access => exact access_expressed hg
    case term => exact term_expressed hg

end Rules

theorem ofDepth_following {types types' : TypeParsers} (htypes : types.Following x types')
    {depth depth' : Nat} (hdepth : depth ≤ depth') :
    Following x (ofDepth types depth) (ofDepth types' depth') := by
  induction depth generalizing depth' with
  | zero => exact ⟨htypes, fun _ _ _ _ => .exhausted⟩
  | succ depth ih =>
    obtain ⟨depth', rfl⟩ := Nat.exists_eq_add_of_lt hdepth
    exact next_following (ih (Nat.le_add_right depth depth'))

end ExprParsers

namespace TargetParser

def Following (x : Extension) (target target' : TargetParser) : Prop :=
  ∀ scope c, Follows x True (x.On c) (target scope) (target' scope) fun _ => x.Where (Spans c)

section Rules

variable {g g' : ExprParsers} {target target' : TargetParser} {scope : Scope}

theorem step_follows {source : Expr} (hg : g.Following x g') (hstart : x.Spot c start)
    (hd : Spans c d) :
    Follows x True (x.On d) (step g scope start source) (step g' scope start source)
      fun _ => x.Where (Spans c) := by
  refine (Follows.accept (by decide)).then_ fun o e htaken => ?_
  cases htaken with
  | some hk =>
    rw [List.mem_singleton.mp hk]
    refine (hg.level .additive scope true _).then_ fun index e he => ?_
    have hindex := hd.trans (he.1.after (by decide)).grows
    have hclose := hindex.trans (Spans.token (k := .rbracket) (by decide)).grows
    refine (Follows.expect fun _ => trivial).bind fun _ => ?_
    exact (Follows.made (R := fun _ => Spans c) hstart fun _ => hclose).then_ fun _ _ h => .given h
  | none =>
    refine (Follows.accept (by decide)).then_ fun o e htaken => ?_
    cases htaken with
    | none => exact .given hd
    | @some t hk =>
      have haccess : ∀ k ∈ [Kind.dot, .arrow], k ∉ [Kind.lparen, .rparen, .less] := by decide
      have hfield := (hd.trans (Spans.token (haccess _ hk)).grows).trans
        (Spans.token (k := .identifier) (by decide)).grows
      have hrest : ∀ source, Follows x True (x.On (t.kind :: d))
          (do
            let field ← identifier
            return some (← make start (Expr.recordAccess · source field)))
          (do
            let field ← identifier
            return some (← make start (Expr.recordAccess · source field)))
          fun _ => x.Where (Spans c) := by
        refine fun source => (identifier_follows fun _ => trivial).bind fun field => ?_
        exact (Follows.made (R := fun _ => Spans c) hstart fun _ => hfield).then_
          fun _ _ h => .given h
      dsimp only
      split
      · exact (Follows.made (R := fun _ => (· = t.kind :: d)) hstart fun _ => rfl).bind hrest
      · exact hrest source

theorem term_follows (htarget : Following x target target') :
    Follows x True (x.On c) (term target scope) (term target' scope)
      fun _ => x.Where (Spans c) := by
  refine (Follows.current fun _ => trivial).bind fun t => .position_before fun start hstart => ?_
  split
  case h_1 =>
    refine Follows.before ((identifier_follows fun _ => trivial).bind fun name => ?_)
    exact .made hstart fun _ => .token (by decide)
  case h_2 ht =>
    refine Follows.advance_before.then_ fun _ d hd => ?_
    rw [hd.2, ht]
    refine (htarget scope _).then_ fun inner d hd => ?_
    exact (Follows.expect fun _ => trivial).bind fun _ => .given hd.grows.brackets
  case h_3 ht =>
    refine Follows.advance_before.then_ fun _ d hd => ?_
    rw [hd.2, ht]
    refine (htarget scope _).then_ fun operand d hd => ?_
    exact .made hstart fun _ => hd.after (by decide)
  case h_4 => exact Follows.reject

theorem next_following (hg : g.Following x g') (htarget : Following x target target') :
    Following x (next g target) (next g' target') := by
  refine fun scope c => .settled (fun _ => trivial) fun start hstart => ?_
  refine (term_follows htarget).then_ fun first d hd => ?_
  refine Follows.foldAlong (K := fun _ => Spans c) (L := fun _ => Spans c) hd fun source d hd => ?_
  refine (step_follows hg hstart hd).weaken fun o _ _ h => ⟨h.1, h.2.1, ?_⟩
  cases o <;> exact h.2.2

end Rules

theorem ofDepth_following {g g' : ExprParsers} (hg : g.Following x g') {depth depth' : Nat}
    (hdepth : depth ≤ depth') : Following x (ofDepth g depth) (ofDepth g' depth') := by
  induction depth generalizing depth' with
  | zero => exact fun _ _ => .exhausted
  | succ depth ih =>
    obtain ⟨depth', rfl⟩ := Nat.exists_eq_add_of_lt hdepth
    exact next_following hg (ih (Nat.le_add_right depth depth'))

end TargetParser

end Whiley.Grammar
