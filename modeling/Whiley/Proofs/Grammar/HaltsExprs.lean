import Whiley.Grammar.Targets
import Whiley.Proofs.Grammar.HaltsTypes
import Whiley.Proofs.Grammar.Literals

namespace Whiley

namespace Token

variable {t : Token}

theorem byteValue_ne : t.byteValue ≠ .error .exhausted := by
  unfold byteValue
  split
  · exact nofun
  · split <;> exact nofun

theorem charValue_ne : t.charValue ≠ .error .exhausted := by
  unfold charValue
  split
  · split
    · split <;> exact nofun
    · exact nofun
  · exact nofun
  · exact nofun

theorem codePoints_ne {cs : List Char} : t.codePoints cs ≠ .error .exhausted := by
  fun_induction codePoints t cs with
  | case3 _ _ _ _ _ _ _ ih => exact fun h => ih (map_error h)
  | case6 _ _ _ _ _ _ ih => exact fun h => ih (map_error h)
  | case8 _ _ _ _ _ ih => exact fun h => ih (map_error h)
  | _ =>
    intro h
    cases h

theorem stringValue_ne : t.stringValue ≠ .error .exhausted := by
  unfold stringValue
  cases hpoints : t.codePoints t.quotedBody with
  | error f => exact fun h => codePoints_ne (hpoints.trans (congrArg Except.error (Except.error.inj h)))
  | ok ns =>
    simp only [bind, Except.bind]
    split <;> exact nofun

theorem integerValue_ne : t.integerValue ≠ .error .exhausted := by
  unfold integerValue
  split <;> exact nofun

end Token

namespace Grammar

open Whiley.Parser

variable {r : Anchored} {i j k start : Nat} {s : Scope} {lines : Bool}

/-- What was read from `start` is a name alone, or begins with a star. -/
def Pending (r : Anchored) (start j : Nat) : Prop :=
  ∃ t, r.input.tokens[start]? = some t ∧ (t.kind = .identifier ∧ j = start + 1 ∨ t.kind = .star)

/-- How far a level of the grammar goes: past a token, and a `::` is left at most by a term. -/
def Level.Ends (r : Anchored) (i j : Nat) : Level → Prop
  | .term => r.input.Past i j ∧ (r.input.Closed j ∨ Pending r (r.input.skip true i) j)
  | _ => r.input.Closes i j

theorem Level.Ends.past {l : Level} (h : l.Ends r i j) : r.input.Past i j := by
  cases l <;> exact h.1

def Level.rank : Level → Nat
  | .logical => 10
  | .connective => 9
  | .bitOr => 8
  | .bitXor => 7
  | .bitAnd => 6
  | .condition => 5
  | .shift => 4
  | .additive => 3
  | .multiplicative => 2
  | .access => 1
  | .term => 0

/-- The grammar comes to an end wherever it is begun. -/
structure TypeParsers.Halting (r : Anchored) (g : TypeParsers) : Prop where
  type : ∀ {i s}, Closes r i (g.type s)
  array : ∀ {i s}, Closes r i (g.array s)

theorem TypeParsers.Halting.past {g : TypeParsers} (hg : g.Halting r) : g.HaltsPast r i :=
  ⟨fun _ => hg.type, fun _ => hg.array⟩

section Parameters

variable {types : TypeParsers} (ht : types.Halting r)

include ht

theorem parameter_moves {k : Nat} (hi : r.input.Past k i) : Moves r i (parameter types s) :=
  .here ((TypeParsers.named_moves ht.past hi).bind fun _ _ hj =>
    .making fun _ => .checking fun _ => .pure hj)

theorem parameters_closes {close : Kind} (hclose : close ≠ .identifier) :
    Closes r i (parameters types close s) := by
  refine expect_moves.bind fun _ j hj => (untilClose_closes hclose fun x k hk => ?_).bind
    fun x k hk => .pure ⟨by omega, hk.2⟩
  exact (parameter_moves (k := i) ht (by omega)).bind fun _ _ hl => .pure hl

theorem forcedType_halts : Halts r i (forcedType types s) (Offered r i) := by
  refine .here ((Halts.attempt ht.type).bind fun o j ho => ?_)
  cases o with
  | none => exact .pure ho
  | some t =>
    dsimp only
    split
    · exact .pure ho.1
    · exact .moved (.pure rfl)

end Parameters

namespace ExprParsers

structure HaltsPast (r : Anchored) (i : Nat) (g : ExprParsers) : Prop where
  types : g.types.Halting r
  level : ∀ {l j s lines}, r.input.Past i j → Halts r j (g.level l s lines) fun k _ => l.Ends r j k

theorem rightGrouped_closes {g : ExprParsers} {operand self : Level} {operators : List Kind}
    (hoperators : ∀ k ∈ operators, k.isSpace = false)
    (hoperand : ∀ {j}, i ≤ j → Closes r j (g.level operand s lines))
    (hself : ∀ {j}, r.input.Past i j → Closes r j (g.level self s lines)) :
    Closes r i (g.rightGrouped operand self operators s lines) := by
  refine .settled fun start hstart hsize => ?_
  have hle := r.input.le_skip true i
  refine (hoperand (by omega)).bind fun left j hj => ?_
  refine .accepting hoperators (fun op k ht _ => ?_) fun _ => .pure ⟨by omega, hj.2⟩
  have hpast := ht.past
  exact (hself (by omega)).bind fun right l hl => .make fun _ => ⟨by omega, hl.2⟩

theorem leftGrouped_closes {g : ExprParsers} {operand : Level} {operators : List Kind}
    (hoperators : ∀ k ∈ operators, k.isSpace = false)
    (hoperand : ∀ {j}, i ≤ j → Closes r j (g.level operand s lines)) :
    Closes r i (g.leftGrouped operand operators s lines) := by
  refine .settled fun start hstart hsize => ?_
  have hle := r.input.le_skip true i
  refine (hoperand (by omega)).bind fun first j hj => ?_
  refine (Halts.foldUntil (I := fun k => j ≤ k ∧ r.input.Closed k)
    (Q := fun k => j ≤ k ∧ r.input.Closed k) ⟨Nat.le_refl j, hj.2⟩ fun left k hk => ?_).imp
    fun e k hk => ⟨by omega, hk.2⟩
  refine .accepting hoperators (fun op l ht _ => ?_) fun _ => .pure hk
  have hpast := ht.past
  refine (hoperand (by omega)).bind fun right m hm => .making fun _ => .pure ?_
  exact ⟨by omega, by omega, hm.2⟩

section Later

variable {g : ExprParsers} (hg : g.HaltsPast r k)

include hg

theorem range_moves (hi : r.input.Past k i) : Moves r i (g.range s) := by
  refine .here (identifier_moves.bind fun name j hj => .checking fun _ => ?_)
  refine expect_moves.bind fun _ l hl => (hg.level (by omega)).bind fun low m hm => ?_
  have hlow := hm.past
  refine expect_moves.bind fun _ n hn => (hg.level (by omega)).bind fun high p hp => ?_
  have hhigh := hp.past
  have hrests : Rests r p (boundRange i name low high) := fun _ => rfl
  exact hrests.bind fun _ _ hq => .checking fun _ => .pure (by omega)

theorem quantifier_closes {keyword : Token} (hi : r.input.Past k i) :
    Closes r i (g.quantifier start keyword s) := by
  refine expect_moves.bind fun _ j hj => Halts.bind (.repeating (I := fun l _ => j ≤ l)
    (Q := fun l _ => j ≤ l) (Nat.le_refl j) fun x l hl => ?_) fun x l hl => ?_
  · refine (range_moves hg (by omega)).bind fun y m hm => ?_
    refine .acceptingNext (fun _ n ht _ => .pure ?_) fun n hn _ => ?_
    · have hpast := ht.past
      change j ≤ n
      omega
    · refine expect_moves.bind fun _ p hp => .pure ?_
      exact ⟨by omega, by omega⟩
  · refine (hg.level (by omega)).bind fun condition m hm => ?_
    have hpast := hm.past
    exact (expect_closes (by decide)).bind fun _ n hn => .make fun _ => ⟨by omega, hn.2⟩

theorem arguments_closes (hi : r.input.Past k i) : Closes r i (g.arguments s) :=
  listUntil_closes (by decide) fun _ hj => (hg.level (by omega)).imp fun _ _ hl => hl.past

theorem call_closes {name : Identifier} {lifetimes : Option (List Identifier)}
    (hi : r.input.Past k i) : Closes r i (g.call s start name lifetimes) := by
  refine (arguments_closes hg hi).bind fun es j hj => ?_
  split
  · exact .allocating fun _ => .make fun _ => hj
  · exact nameOf_rests.bind fun _ l hl => .make fun _ => hl ▸ hj

theorem recordFields_closes {name : Option Identifier} (hi : k ≤ i) (hk : k < r.input.tokens.size) :
    Closes r i (g.recordFields start name s) := by
  refine expect_moves.bind fun _ j hj => (untilClose_closes (by decide) fun found l hl => ?_).bind
    fun found l hl => .make fun _ => ⟨by omega, hl.2⟩
  refine identifier_moves.bind fun key m hm => ?_
  have hfield : Halts r m (do
      let _ ← expect .colon
      return FieldValue.mk key (← g.expression s true) :: found) fun n _ => r.input.Past l n := by
    refine expect_moves.bind fun _ n hn => (hg.level (by omega)).bind fun value p hp => .pure ?_
    have hpast := hp.past
    omega
  split
  · exact (Halts.reject (Q := fun _ _ => False)).bind fun _ _ h => h.elim
  · exact hfield

end Later

theorem plainName_rests {name : Identifier} : Rests r i (plainName s start name) := by
  unfold plainName
  split
  · exact .make fun _ => rfl
  · split
    · exact .allocating fun _ => .making fun _ => .make fun _ => rfl
    · exact nameOf_rests.bind fun _ _ hj => .make fun _ => hj

theorem condition_closes {g : ExprParsers} (hg : ∀ start, i ≤ start → g.HaltsPast r start)
    (hshift : ∀ {j}, i ≤ j → Closes r j (g.level .shift s lines)) :
    Closes r i (g.condition s lines) := by
  refine .settled fun start hstart hsize => ?_
  have hle := r.input.le_skip true i
  have hrest := hg start (by omega)
  refine .accepting (by decide) (fun keyword j ht _ => ?_) fun _ => ?_
  · have hpast := ht.past
    exact (quantifier_closes hrest hpast).imp fun _ _ hk => ⟨by omega, hk.2⟩
  · refine (hshift (by omega)).bind fun left j hj => ?_
    refine .accepting (by decide) (fun op k ht _ => ?_) fun _ => .pure ⟨by omega, hj.2⟩
    have hpast := ht.past
    dsimp only
    split
    · exact hrest.types.type.bind fun type l hl => .make fun _ => ⟨by omega, hl.2⟩
    · exact (hshift (by omega)).bind fun right l hl => .make fun _ => ⟨by omega, hl.2⟩

section Access

variable {g : ExprParsers}

theorem qualified_halts (hg : g.HaltsPast r i) (hi : r.input.skip true i = i) :
    Halts r i (g.qualified s lines) fun j _ => (∃ k ≤ j, r.input.Closes i k) ∧ r.input.Closed j ∧
      ∃ t, r.input.tokens[i]? = some t ∧ t.kind = .identifier := by
  refine .here (qualifiedName_closes.bind fun name j hj => ?_)
  obtain ⟨hclosed, hname⟩ := hj
  rw [hi] at hname
  refine .accepting (by decide) (fun _ k ht _ => ?_) fun _ => .make fun _ => ?_
  · have hpast := ht.past
    refine (arguments_closes hg (by omega)).bind fun es l hl => .make fun _ => ?_
    exact ⟨⟨j, by omega, hclosed⟩, hl.2, hname⟩
  · exact ⟨⟨j, Nat.le_refl j, hclosed⟩, hclosed.2, hname⟩

theorem fieldAccess_closes {source : Expr} {t : Token} (hg : g.HaltsPast r k)
    (hi : r.input.Past k i) (ht : r.input.Takes lines j t i) (hk : t.kind = .dot ∨ t.kind = .arrow) :
    Closes r i (g.fieldAccess s lines start source) := by
  refine identifier_halts.bind fun name l ⟨u, hu, _⟩ => .making fun access => ?_
  have hclosed : r.input.Closes i l := ⟨hu.past, r.closed_of_field ht hk hu⟩
  refine .accepting (by decide) (fun _ m hv _ => ?_) fun _ => .looking fun b => ?_
  · have hpast := hv.past
    exact (arguments_closes hg (by omega)).bind fun es n hn => .make fun _ => ⟨by omega, hn.2⟩
  · split
    · refine optionalLifetimeArguments_halts.bind fun o m ho => ?_
      cases o with
      | none =>
        obtain rfl : m = l := ho
        exact .pure hclosed
      | some lifetimes =>
        have hpast : r.input.Past l m := ho
        exact (arguments_closes hg (by omega)).bind fun es n hn => .make fun _ => ⟨by omega, hn.2⟩
    · exact .pure hclosed

theorem accessStep_halts {source : Expr} (hg : g.HaltsPast r start)
    (hstart : r.input.skip true start = start) (hi : r.input.Past start i)
    (hpending : r.input.Closed i ∨ Pending r start i) :
    Halts r i (g.accessStep s lines start source) fun j o => o.elim (i ≤ j ∧ r.input.Closed j)
      fun _ => r.input.Closes i j := by
  refine .accepting (by decide) (fun _ j ht _ => ?_) fun _ => ?_
  · have hpast := ht.past
    refine (hg.level (by omega)).bind fun index k hk => ?_
    have hindex := hk.past
    refine (expect_closes (by decide)).bind fun _ l hl => .making fun _ => .pure ?_
    exact ⟨by omega, hl.2⟩
  · refine .accepting (by decide) (fun t j ht hmem => ?_) fun hnone => .pure ⟨Nat.le_refl i, ?_⟩
    · have hpast := ht.past
      dsimp only
      split
      · rename_i hcolons
        -- what is left open is a name alone, which is now read on from its start
        have hopen : ¬ r.input.Closed i := fun hclosed => r.next_ne_colons hclosed ht hcolons
        obtain ⟨u, hu, hkind⟩ := hpending.resolve_left hopen
        refine .moved ((qualified_halts hg hstart).bind fun e k hk => .pure ?_)
        obtain ⟨⟨l, hlk, hl⟩, hclosed, v, hv, hname⟩ := hk
        obtain rfl := Option.some.inj (hu.symm.trans hv)
        have hi' : i = start + 1 := by
          rcases hkind with ⟨-, hi'⟩ | hstar
          · exact hi'
          · exact absurd (hstar.symm.trans hname) (by decide)
        have hne : l ≠ i := fun heq => hopen (heq ▸ hl.2)
        exact ⟨by omega, hclosed⟩
      · rename_i hcolons
        split
        · rename_i harrow
          refine .making fun target => (fieldAccess_closes hg (by omega) ht (.inr harrow)).bind
            fun e k hk => .pure ⟨by omega, hk.2⟩
        · rename_i harrow
          have hdot : t.kind = .dot := by simpa [hcolons, harrow] using hmem
          exact (fieldAccess_closes hg (by omega) ht (.inl hdot)).bind fun e k hk => .pure
            ⟨by omega, hk.2⟩
    · exact Input.closed_of_next fun t ht hcolons => hnone t ht (by simp [hcolons])

theorem access_closes (hg : ∀ start, i ≤ start → g.HaltsPast r start)
    (hterm : ∀ {j}, i ≤ j → Halts r j (g.level .term s lines) fun k _ => Level.term.Ends r j k) :
    Closes r i (g.access s lines) := by
  refine .settled fun start hstart hsize => ?_
  have hle := r.input.le_skip true i
  have hskip : r.input.skip true start = start := by rw [hstart, r.input.skip_skip]
  refine (hterm (by omega)).bind fun first j hj => ?_
  obtain ⟨hpast, hpending⟩ := hj
  rw [hskip] at hpending
  refine (Halts.foldUntil (I := fun k => j ≤ k ∧ (r.input.Closed k ∨ Pending r start k))
    (Q := fun k => j ≤ k ∧ r.input.Closed k) ⟨Nat.le_refl j, hpending⟩ fun source k hk => ?_).imp
    fun e k hk => ⟨by omega, hk.2⟩
  refine (accessStep_halts (hg start (by omega)) hskip (by omega) hk.2).imp fun o l hl => ?_
  cases o with
  | none => exact ⟨Nat.le_trans hk.1 hl.1, hl.2⟩
  | some e =>
    obtain ⟨hmore, hclosed⟩ := hl
    exact ⟨hmore, by omega, .inl hclosed⟩

end Access

section Terms

variable {g : ExprParsers} (hg : g.HaltsPast r i)

include hg

theorem allocation_closes : Closes r i (g.allocation s lines) := by
  refine .here (optionalLifetime_halts.bind fun o j ho => ?_)
  have hle := ho.le
  cases o with
  | some l =>
    have hpast : r.input.Past i j := ho
    refine .checking fun _ => expect_moves.bind fun _ k hk => expect_moves.bind fun _ m hm => ?_
    refine (hg.level (by omega)).bind fun operand n hn => .make fun _ => ?_
    have hoperand := hn.past
    exact ⟨by omega, hn.2⟩
  | none =>
    refine expect_moves.bind fun keyword k hk => .allocating fun _ => ?_
    refine (hg.level (by omega)).bind fun operand n hn => .make fun _ => ?_
    have hoperand := hn.past
    exact ⟨by omega, hn.2⟩

theorem name_halts (hi : r.input.skip true i = i) : Halts r i (g.name s lines) fun j _ =>
    r.input.Past i j ∧ (r.input.Closed j ∨ Pending r i j) := by
  refine .here (identifier_halts.bind fun name j ⟨t, ht, hk⟩ => ?_)
  have hpast := ht.past
  have hnext := ht.next
  have htoken := ht.token
  rw [hi] at hnext htoken
  have hplain : Halts r j (plainName s i name) fun l _ =>
      r.input.Past i l ∧ (r.input.Closed l ∨ Pending r i l) :=
    plainName_rests.imp fun _ l hl => hl ▸ ⟨hpast, .inr ⟨t, htoken, .inl ⟨hk, hnext⟩⟩⟩
  have hlater : ∀ {p : Parser Expr} {k}, i ≤ k → Closes r k p → Halts r k p fun l _ =>
      r.input.Past i l ∧ (r.input.Closed l ∨ Pending r i l) :=
    fun hik hp => hp.imp fun _ l hl => ⟨by omega, .inl hl.2⟩
  refine .accepting (by decide) (fun _ k hu _ => ?_) fun _ => .looking fun b => ?_
  · have hmore := hu.past
    exact hlater (by omega) (call_closes hg (by omega))
  · split
    · exact .moved (hlater (Nat.le_refl i) (allocation_closes hg))
    · refine .looking fun b => ?_
      split
      · refine optionalLifetimeArguments_halts.bind fun o k ho => ?_
        have hle := ho.le
        cases o with
        | none =>
          obtain rfl : k = j := ho
          exact hplain
        | some lifetimes => exact hlater (by omega) (call_closes hg (by omega))
      · refine .looking fun b => ?_
        split
        · exact hlater (by omega) (recordFields_closes hg (by omega) hpast.2)
        · exact hplain

theorem inBrackets_closes : Halts r j (g.inBrackets s lines i) fun k _ => r.input.Closes i k := by
  refine .moved (expect_moves.bind fun _ k hk => (hg.level hk).bind fun e l hl => ?_)
  have hpast := hl.past
  refine (expect_closes (by decide)).bind fun _ m hm => ?_
  have hfollows : Rests r m termFollows := fun _ => rfl
  refine hfollows.bind fun b n hn => ?_
  obtain rfl := hn
  split
  · refine .moved (hg.types.type.bind fun type p hp => (hg.level hp.1).bind fun operand q hq => ?_)
    have hoperand := hq.past
    exact .make fun _ => ⟨by omega, hq.2⟩
  · exact .pure ⟨by omega, hm.2⟩

theorem bracketed_closes : Closes r i (g.bracketed s lines) := by
  refine .here (expect_moves.bind fun _ j hj => ?_)
  refine (forcedType_halts hg.types).bind fun o k ho => ?_
  have hle := ho.le
  cases o with
  | none => exact inBrackets_closes hg
  | some type =>
    refine .accepting (by decide) (fun _ l ht _ => ?_) fun _ => inBrackets_closes hg
    have hpast := ht.past
    refine (hg.level (by omega)).bind fun operand m hm => .make fun _ => ?_
    have hoperand := hm.past
    exact ⟨by omega, hm.2⟩

theorem array_closes : Closes r i (g.array s) := by
  refine .here (expect_moves.bind fun _ j hj => ?_)
  refine .acceptingNext (fun t k ht hk => .make fun _ => ?_) fun k hk hsize => ?_
  · have hpast := ht.past
    exact ⟨by omega, r.closed_of_kind ht (by rw [hk]; decide)⟩
  · refine (hg.level (by omega)).bind fun _ l _ => (accept_halts (by decide)).bind fun semicolon m _ => ?_
    refine .moved (expect_moves.bind fun _ n hn => (hg.level hn).bind fun first p hp => ?_)
    have hfirst := hp.past
    cases semicolon with
    | some _ =>
      refine expect_moves.bind fun _ q hq => (hg.level (by omega)).bind fun length t ht => ?_
      have hlength := ht.past
      exact (expect_closes (by decide)).bind fun _ u hu => .make fun _ => ⟨by omega, hu.2⟩
    | none =>
      refine (untilClose_closes (by decide) fun found q hq => ?_).bind fun found q hq => .make fun _ =>
        ⟨by omega, hq.2⟩
      exact (hg.level (by omega)).bind fun e t ht => .pure ht.past

theorem lambda_closes : Closes r i (g.lambda s) := by
  refine .here (expect_moves.bind fun _ j hj => optionalCaptures_halts.bind fun captures k hk => ?_)
  refine optionalLifetimeParameters_halts.bind fun x l hl => ?_
  refine (parameters_closes hg.types (by decide)).bind fun y m hm => ?_
  refine (hg.level (by omega)).bind fun body n hn => ?_
  have hbody := hn.past
  exact (expect_closes (by decide)).bind fun _ p hp => .make fun _ => ⟨by omega, hp.2⟩

theorem lambdaConstant_closes : Closes r i (g.lambdaConstant s lines) := by
  refine .here (expect_moves.bind fun _ j hj => qualifiedName_closes.bind fun name k hk => ?_)
  have hname := hk.1
  refine .looking fun b => ?_
  split
  · refine (TypeParsers.parameterTypes_closes hg.types.past (k := i) (by omega)).bind
      fun types l hl => .make fun _ => ⟨by omega, hl.2⟩
  · exact .make fun _ => ⟨by omega, hname.2⟩

theorem functionValue_closes : Closes r i (g.functionValue s lines) := by
  refine .here (expect_moves.bind fun _ j _ => (accept_halts (by decide)).bind fun o k _ => .moved ?_)
  cases o with
  | some _ => exact lambda_closes hg
  | none => exact lambdaConstant_closes hg

theorem prefixed_closes {l : Level} {build : Mark → Expr → Expr} (hl : l ≠ .term) :
    Closes r i (do
      let _ ← advance
      let operand ← g.level l s lines
      make i (build · operand)) := by
  refine advance_halts.bind fun _ j ht => ?_
  have hpast := ht.past
  refine (hg.level (by omega)).bind fun operand k hk => .make fun _ => ⟨?_, ?_⟩
  · have hoperand := hk.past
    omega
  · cases l with
    | term => exact absurd rfl hl
    | _ => exact hk.2

end Terms

theorem term_halts {g : ExprParsers} (hg : ∀ start, i ≤ start → g.HaltsPast r start) :
    Halts r i (g.term s lines) fun j _ => Level.term.Ends r i j := by
  refine .showing fun t ht => .here ?_
  have hle := r.input.le_skip true i
  have hskip := r.input.skip_skip true i
  change Halts r _ _ fun j _ => r.input.Past i j ∧ (r.input.Closed j ∨ Pending r (r.input.skip true i) j)
  generalize r.input.skip true i = start at *
  have hrest := hg start hle
  have hclosed : ∀ {p : Parser Expr}, Closes r start p → Halts r start p fun j _ =>
      r.input.Past i j ∧ (r.input.Closed j ∨ Pending r start j) :=
    fun hp => hp.imp fun _ j hj => ⟨by omega, .inl hj.2⟩
  have hword : ∀ {f : Token → Parser Expr}, t.kind ≠ .identifier → (∀ u j, Rests r j (f u)) →
      Halts r start (advance >>= f) fun j _ =>
        r.input.Past i j ∧ (r.input.Closed j ∨ Pending r start j) :=
    fun hk hf => hclosed ((advance_closes (hskip.symm ▸ ht) hk).bind fun u j hj =>
      (hf u j).imp fun _ _ hl => hl ▸ hj)
  split
  · exact hclosed (bracketed_closes hrest)
  · exact hclosed (allocation_closes hrest)
  · exact hclosed (allocation_closes hrest)
  · exact (name_halts hrest hskip).imp fun _ j hj => ⟨by omega, hj.2⟩
  case h_5 hk => exact hword (by rw [hk]; decide) fun _ _ => .make fun _ => rfl
  case h_6 hk => exact hword (by rw [hk]; decide) fun _ _ => .make fun _ => rfl
  case h_7 hk => exact hword (by rw [hk]; decide) fun _ _ => .make fun _ => rfl
  case h_8 hk =>
    exact hword (by rw [hk]; decide) fun _ _ => .reading t.byteValue_ne fun _ => .make fun _ => rfl
  case h_9 hk =>
    exact hword (by rw [hk]; decide) fun _ _ => .reading t.charValue_ne fun _ => .make fun _ => rfl
  case h_10 hk =>
    exact hword (by rw [hk]; decide) fun _ _ => .reading t.integerValue_ne fun _ => .make fun _ => rfl
  case h_11 hk =>
    exact hword (by rw [hk]; decide) fun _ _ => .reading t.stringValue_ne fun _ => .make fun _ => rfl
  · exact hclosed (prefixed_closes hrest (by decide))
  · refine advance_halts.bind fun _ j hu => ?_
    have hpast := hu.past
    refine (hrest.level hpast).bind fun operand k hk => ?_
    have hoperand := hk.past
    exact (expect_closes (by decide)).bind fun _ l hl => .make fun _ => ⟨by omega, .inl hl.2⟩
  · exact hclosed (array_closes hrest)
  · exact hclosed (recordFields_closes hrest (Nat.le_refl start) (Array.getElem?_eq_some_iff.mp ht).1)
  · exact hclosed (prefixed_closes hrest (by decide))
  case h_17 hk =>
    refine .looking fun b => ?_
    split
    · exact hclosed (allocation_closes hrest)
    · refine advance_halts.bind fun _ j hu => ?_
      have hpast := hu.past
      refine (hrest.level hpast).bind fun operand k hoperand => .make fun _ => ?_
      have hmore := hoperand.past
      exact ⟨by omega, .inr ⟨t, ht, .inr hk⟩⟩
  · exact hclosed (prefixed_closes hrest (by decide))
  · exact hclosed (functionValue_closes hrest)
  · exact .reject

structure HaltsWithin (r : Anchored) (depth : Nat) (g : ExprParsers) : Prop where
  types : g.types.Halting r
  level : ∀ {l i s lines}, 11 * (r.input.tokens.size - i) + l.rank + 1 ≤ depth →
    Halts r i (g.level l s lines) fun j _ => l.Ends r i j

theorem HaltsWithin.past {g : ExprParsers} {depth : Nat} (hg : g.HaltsWithin r depth)
    (hdepth : 11 * (r.input.tokens.size - i) ≤ depth) (hij : i ≤ j) : g.HaltsPast r j where
  types := hg.types
  level {l _ _ _} _ := hg.level (by
    have hrank : l.rank ≤ 10 := by cases l <;> decide
    omega)

theorem next_haltsWithin {g : ExprParsers} {depth : Nat} (hg : g.HaltsWithin r depth) :
    g.next.HaltsWithin r (depth + 1) where
  types := hg.types
  level {l i s lines} hdepth := by
    have hpast : ∀ start, i ≤ start → g.HaltsPast r start := fun _ => hg.past (by omega)
    have hlower : ∀ {l' : Level} {j}, i ≤ j → l'.rank < l.rank →
        Halts r j (g.level l' s lines) fun k _ => l'.Ends r j k :=
      fun hij hrank => hg.level (by omega)
    have hlater := @(hpast i (Nat.le_refl i)).level
    cases l with
    | logical =>
      exact rightGrouped_closes (by decide) (fun hj => hlower hj (by decide)) fun hj => hlater hj
    | connective =>
      exact rightGrouped_closes (by decide) (fun hj => hlower hj (by decide)) fun hj => hlater hj
    | bitOr =>
      exact rightGrouped_closes (by decide) (fun hj => hlower hj (by decide)) fun hj => hlater hj
    | bitXor =>
      exact rightGrouped_closes (by decide) (fun hj => hlower hj (by decide)) fun hj => hlater hj
    | bitAnd =>
      exact rightGrouped_closes (by decide) (fun hj => hlower hj (by decide)) fun hj => hlater hj
    | condition => exact condition_closes hpast fun hj => hlower hj (by decide)
    | shift => exact leftGrouped_closes (by decide) fun hj => hlower hj (by decide)
    | additive => exact leftGrouped_closes (by decide) fun hj => hlower hj (by decide)
    | multiplicative => exact leftGrouped_closes (by decide) fun hj => hlower hj (by decide)
    | access => exact access_closes hpast fun hj => hlower hj (by decide)
    | term => exact term_halts hpast

theorem ofDepth_haltsWithin {types : TypeParsers} (ht : types.Halting r) (depth : Nat) :
    (ofDepth types depth).HaltsWithin r depth := by
  induction depth with
  | zero => exact ⟨ht, fun h => absurd h (by omega)⟩
  | succ depth ih =>
    rw [ofDepth_succ]
    exact next_haltsWithin ih

structure Halting (r : Anchored) (g : ExprParsers) : Prop where
  types : g.types.Halting r
  level : ∀ {l i s lines}, Halts r i (g.level l s lines) fun j _ => l.Ends r i j

theorem Halting.moves {g : ExprParsers} (hg : g.Halting r) {l : Level} : Moves r i (g.level l s lines) :=
  hg.level.imp fun _ _ hj => hj.past

end ExprParsers

namespace TargetParser

variable {g : ExprParsers} (hg : g.Halting r)

include hg in
theorem step_halts {source : Expr} : Halts r i (step g s start source) (Offered r i) := by
  refine .accepting (by decide) (fun _ j ht _ => ?_) fun _ => ?_
  · have hpast := ht.past
    refine hg.moves.bind fun index k hk => expect_moves.bind fun _ l hl => .making fun _ => .pure ?_
    exact ⟨by omega, by omega⟩
  · refine .accepting (by decide) (fun t j ht _ => ?_) fun _ => .pure rfl
    have hpast := ht.past
    have hfield : ∀ source, Halts r j (do
        let field ← identifier
        return some (← make start (Expr.recordAccess · source field))) (Offered r i) :=
      fun source => identifier_moves.bind fun field k hk => .making fun _ => .pure
        ⟨by omega, by omega⟩
    dsimp only
    split
    · exact .making fun _ => hfield _
    · exact hfield _

theorem term_moves {target : TargetParser} (ht : ∀ {j s}, r.input.Past i j → Moves r j (target s)) :
    Moves r i (term target s) := by
  refine .showing fun t ht' => .here ?_
  have hle := r.input.le_skip true i
  split
  · exact identifier_moves.bind fun name j hj => .make fun _ => by omega
  · refine advance_halts.bind fun _ j hu => ?_
    have hpast := hu.past
    refine (ht (by omega)).bind fun inner k hk => ?_
    exact expect_moves.bind fun _ l hl => .pure (by omega)
  · refine advance_halts.bind fun _ j hu => ?_
    have hpast := hu.past
    exact (ht (by omega)).bind fun operand k hk => .make fun _ => by omega
  · exact .reject

include hg in
theorem ofDepth_moves (depth : Nat) (hdepth : r.input.tokens.size - i < depth) :
    Moves r i (ofDepth g depth s) := by
  induction depth generalizing i s with
  | zero => exact absurd hdepth (Nat.not_lt_zero _)
  | succ depth ih =>
    rw [ofDepth_succ]
    refine .settled fun start hstart hsize => ?_
    have hle := r.input.le_skip true i
    refine (term_moves fun hj => ih (by omega)).bind fun first j hj => ?_
    refine (Halts.foldUntil (I := (j ≤ ·)) (Q := (j ≤ ·)) (Nat.le_refl j) fun source k hk => ?_).imp
      fun e k hk => by omega
    refine (step_halts hg).imp fun o l ho => ?_
    cases o with
    | none =>
      obtain rfl : l = k := ho
      exact hk
    | some e => exact ⟨ho, Nat.le_trans hk ho.1.le⟩

end TargetParser

end Grammar

end Whiley
