import Whiley.Proofs.Grammar.Places

/-!
The kinds of the tokens before a place, space left out and the latest first, and what such a trail
says about the constructs that were read along it. Round brackets are counted; of what types are made,
some words are not.
-/

namespace Whiley

def Kind.turn : Kind → Int
  | .lparen => 1
  | .rparen => -1
  | _ => 0

def nesting : List Kind → Int
  | [] => 0
  | k :: ks => nesting ks + k.turn

theorem nesting_append (ks ks' : List Kind) : nesting (ks ++ ks') = nesting ks + nesting ks' := by
  induction ks with
  | nil => simp [nesting]
  | cons k ks ih =>
    rw [List.cons_append, nesting, nesting, ih]
    omega

/--
What can come next in a type after `ks`. No type holds `=`, and what follows a name is a bracket only
where a function is named inside its own type.
-/
def Kind.Admitted (ks : List Kind) : Kind → Prop
  | .assign => False
  | .rparen => 0 < nesting ks
  | .less => ks.head? ≠ some .identifier
  | .lparen => ks.head? = some .identifier →
      ∃ k ∈ [Kind.kwFunction, .kwMethod, .greater], ks[1]? = some k
  | _ => True

/-- Types could have been read along the trail, and not come to an end. -/
def Typelike : List Kind → Prop
  | [] => True
  | k :: ks => k.Admitted ks ∧ Typelike ks

theorem Typelike.of_append {ks ks' : List Kind} (h : Typelike (ks ++ ks')) : Typelike ks' := by
  induction ks with
  | nil => exact h
  | cons k ks ih => exact ih h.2

theorem Typelike.nesting_nonneg {ks : List Kind} (h : Typelike ks) : 0 ≤ nesting ks := by
  induction ks with
  | nil => exact Int.le_refl 0
  | cons k ks ih =>
    have hks := ih h.2
    rw [nesting]
    by_cases hk : k = .rparen
    · subst hk
      have hopen : 0 < nesting ks := h.1
      simp only [Kind.turn]
      omega
    · have hturn : 0 ≤ k.turn := by
        cases k <;> first | exact absurd rfl hk | simp [Kind.turn]
      omega

def Open (base c : List Kind) : Prop :=
  ∃ ks, c = ks ++ base ∧ Typelike ks

def Fresh (base c : List Kind) : Prop :=
  c = base ∨ c.head? ≠ some .identifier

/-- The trail went on from `c` to `d` past closed brackets only, not ending in `<`. -/
def Grows (c d : List Kind) : Prop :=
  ∃ ks, d = ks ++ c ∧ nesting ks = 0 ∧ ks.head? ≠ some .less

def Spans (c d : List Kind) : Prop :=
  Grows c d ∧ c ≠ d

def Through (base c d : List Kind) : Prop :=
  Open base d ∧ Spans c d

def Calm (c : List Kind) : Prop :=
  c.head? ≠ some .less

def lifetimeKinds : List Kind :=
  [.identifier, .kwThis, .star]

def Called (c d : List Kind) : Prop :=
  ∃ before k after, d = before ++ k :: .identifier :: after ++ c ∧
    (k = .less ∨ k = .lparen ∧
      ∀ k' ∈ [Kind.kwFunction, .kwMethod, .greater], after.head? ≠ some k')

def Bracketed (c d : List Kind) : Prop :=
  ∃ e, Grows (.lparen :: c) e ∧ d = .rparen :: e

inductive Named (c : List Kind) : List Kind → Prop
  | one : Named c (.identifier :: c)
  | more {d} (h : Named c d) : Named c (.identifier :: .colonColon :: d)

section Open

variable {base c d : List Kind} {k : Kind}

theorem Open.refl : Open base base :=
  ⟨[], rfl, trivial⟩

theorem Open.ends {final : List Kind} (h : Open base c) (hc : c = final) : Open base final :=
  hc ▸ h

theorem Open.next (h : Open base c) (hk : ∀ ks, c = ks ++ base → k.Admitted ks) :
    Open base (k :: c) := by
  obtain ⟨ks, rfl, hks⟩ := h
  exact ⟨k :: ks, rfl, hk ks rfl, hks⟩

theorem Open.plain (h : Open base c) (hk : k ∉ [Kind.assign, .rparen, .less, .lparen]) :
    Open base (k :: c) := by
  refine h.next fun ks _ => ?_
  cases k <;> trivial

theorem Fresh.refl : Fresh base base :=
  .inl rfl

theorem Fresh.head (hk : k ≠ .identifier) : Fresh base (k :: c) :=
  .inr fun h => hk (Option.some.inj h)

theorem Fresh.head_ne (h : Fresh base c) {ks : List Kind} (hc : c = ks ++ base) :
    ks.head? ≠ some .identifier := by
  cases ks with
  | nil => exact nofun
  | cons k ks =>
    rcases h with h | h
    · rw [h] at hc
      exact absurd (congrArg List.length hc) (by simp; omega)
    · rw [hc] at h
      exact h

theorem Open.lparen (h : Open base c) (hfresh : Fresh base c) : Open base (.lparen :: c) :=
  h.next fun _ hc hname => absurd hname (hfresh.head_ne hc)

theorem Open.less (h : Open base c) (hfresh : Fresh base c) : Open base (.less :: c) :=
  h.next fun _ hc => hfresh.head_ne hc

theorem Open.lparen_named (h : Open base c) (hk : k ∈ [Kind.kwFunction, .kwMethod, .greater]) :
    Open base (.lparen :: .identifier :: k :: c) := by
  obtain ⟨ks, rfl, hks⟩ := h
  have hadmitted : k.Admitted ks := by
    cases k <;> trivial
  exact ⟨.lparen :: .identifier :: k :: ks, rfl, fun _ => ⟨k, hk, rfl⟩, trivial, hadmitted, hks⟩

theorem Open.rparen (h : Open base c) (hd : Open base d) (hgrows : Grows (.lparen :: c) d) :
    Open base (.rparen :: d) := by
  obtain ⟨ks, rfl, hks⟩ := h
  refine hd.next fun ks' hks' => ?_
  obtain ⟨ks'', rfl, hnesting, -⟩ := hgrows
  have hkinds : ks' = ks'' ++ .lparen :: ks := by
    refine (List.append_left_inj base).mp ?_
    simpa using hks'.symm
  have hnonneg := hks.nesting_nonneg
  rw [Kind.Admitted, hkinds, nesting_append, hnesting, nesting]
  simp only [Kind.turn]
  omega

theorem Open.of_suffix (h : Open base c) (hd : d <:+ c) (hbase : base <:+ d) : Open base d := by
  obtain ⟨ks, rfl, hks⟩ := h
  obtain ⟨before, hbefore⟩ := hd
  obtain ⟨after, rfl⟩ := hbase
  have hkinds : ks = before ++ after := by
    refine (List.append_left_inj base).mp ?_
    rw [← hbefore, List.append_assoc]
  exact ⟨after, rfl, (hkinds ▸ hks).of_append⟩

theorem Open.admitted {ks : List Kind} (h : Open base (k :: ks ++ base)) : k.Admitted ks := by
  obtain ⟨ks', hkinds, hadmitted⟩ := h
  obtain rfl := List.append_cancel_right hkinds
  exact hadmitted.1

theorem Open.not_assign (hbase : base <:+ c) : ¬ Open base (.assign :: c) := by
  obtain ⟨ks, rfl⟩ := hbase
  exact fun h => h.admitted

theorem Open.not_rparen (hgrows : Grows base c) : ¬ Open base (.rparen :: c) := by
  obtain ⟨ks, rfl, hnesting, -⟩ := hgrows
  intro h
  have hopen : 0 < nesting ks := h.admitted
  omega

theorem Open.not_called (hcalled : Called base c) : ¬ Open base c := by
  obtain ⟨before, k, after, rfl, hk⟩ := hcalled
  intro h
  have hsuffix : k :: .identifier :: after ++ base <:+ before ++ k :: .identifier :: after ++ base :=
    ⟨before, by simp⟩
  have hadmitted := (h.of_suffix hsuffix ⟨k :: .identifier :: after, rfl⟩).admitted
  rcases hk with rfl | ⟨rfl, hafter⟩
  · exact hadmitted rfl
  · obtain ⟨k', hk', hhead⟩ := hadmitted rfl
    refine hafter k' hk' ?_
    rwa [List.head?_eq_getElem?]

end Open

section Grows

variable {c d e : List Kind} {k : Kind}

theorem Grows.refl : Grows c c :=
  ⟨[], rfl, rfl, nofun⟩

theorem Grows.trans (h : Grows c d) (h' : Grows d e) : Grows c e := by
  obtain ⟨ks, rfl, hnesting, hhead⟩ := h
  obtain ⟨ks', rfl, hnesting', hhead'⟩ := h'
  refine ⟨ks' ++ ks, by simp, by rw [nesting_append, hnesting, hnesting', Int.add_zero], ?_⟩
  cases ks' with
  | nil => exact hhead
  | cons k ks' => exact hhead'

theorem Grows.suffix (h : Grows c d) : c <:+ d := by
  obtain ⟨ks, rfl, -⟩ := h
  exact ⟨ks, rfl⟩

theorem Spans.grows (h : Spans c d) : Grows c d :=
  h.1

theorem Spans.length_lt (h : Spans c d) : c.length < d.length := by
  obtain ⟨⟨ks, rfl, -⟩, hne⟩ := h
  cases ks with
  | nil => exact absurd rfl hne
  | cons k ks =>
    rw [List.cons_append, List.length_cons, List.length_append]
    omega

theorem Spans.of_length (h : Grows c d) (hlt : c.length < d.length) : Spans c d :=
  ⟨h, fun hcd => Nat.lt_irrefl _ (hcd ▸ hlt)⟩

theorem Spans.trans (h : Spans c d) (h' : Grows d e) : Spans c e :=
  .of_length (h.grows.trans h') (Nat.lt_of_lt_of_le h.length_lt h'.suffix.length_le)

theorem Grows.spans (h : Grows c d) (h' : Spans d e) : Spans c e :=
  .of_length (h.trans h'.grows) (Nat.lt_of_le_of_lt h.suffix.length_le h'.length_lt)

theorem Spans.calm (h : Spans c d) : Calm d := by
  obtain ⟨⟨ks, rfl, -, hhead⟩, hne⟩ := h
  cases ks with
  | nil => exact absurd rfl hne
  | cons k ks => exact hhead

theorem Spans.token (hk : k ∉ [Kind.lparen, .rparen, .less]) : Spans c (k :: c) := by
  refine ⟨⟨[k], rfl, ?_, ?_⟩, fun h => by simpa using congrArg List.length h⟩
  · cases k <;> first | rfl | exact absurd (by decide) hk
  · exact fun h => hk (by rw [Option.some.inj h]; decide)

theorem Spans.after (hk : k ∉ [Kind.lparen, .rparen]) (h : Spans (k :: c) d) : Spans c d := by
  have hlt := h.length_lt
  obtain ⟨⟨ks, rfl, hnesting, hhead⟩, hne⟩ := h
  have hturn : k.turn = 0 := by
    cases k <;> first | rfl | exact absurd (by decide) hk
  refine .of_length ⟨ks ++ [k], by simp, ?_, ?_⟩ (by simp at hlt ⊢; omega)
  · rw [nesting_append, hnesting, nesting, hturn]
    rfl
  · cases ks with
    | nil => exact absurd rfl hne
    | cons k ks => exact hhead

theorem Grows.brackets (h : Grows (.lparen :: c) d) : Spans c (.rparen :: d) := by
  obtain ⟨ks, rfl, hnesting, -⟩ := h
  refine .of_length ⟨.rparen :: ks ++ [.lparen], by simp, ?_, nofun⟩ (by simp; omega)
  rw [List.cons_append, nesting, nesting_append, hnesting]
  rfl

theorem Bracketed.spans (h : Bracketed c d) : Spans c d := by
  obtain ⟨e, he, rfl⟩ := h
  exact he.brackets

theorem Bracketed.suffix (h : Bracketed c d) : .lparen :: c <:+ d := by
  obtain ⟨e, he, rfl⟩ := h
  exact he.suffix.trans (List.suffix_cons _ _)

theorem Called.brackets (h : Called (.lparen :: c) d) : Called c (.rparen :: d) := by
  obtain ⟨before, k, after, rfl, hk⟩ := h
  refine ⟨.rparen :: before, k, after ++ [.lparen], by simp, hk.imp_right fun ⟨hlparen, h⟩ => ?_⟩
  refine ⟨hlparen, fun k' hk' => ?_⟩
  cases after with
  | nil =>
    intro hhead
    obtain rfl : Kind.lparen = k' := Option.some.inj hhead
    exact absurd hk' (by decide)
  | cons k'' after => exact h k' hk'

theorem Called.trans (h : Called c d) (h' : d <:+ e) : Called c e := by
  obtain ⟨before, k, after, rfl, hk⟩ := h
  obtain ⟨ks, rfl⟩ := h'
  exact ⟨ks ++ before, k, after, by simp, hk⟩

theorem Named.spans (h : Named c d) : Spans c d := by
  induction h with
  | one => exact .token (by decide)
  | more _ ih => exact (ih.trans (Spans.token (by decide)).grows).trans (Spans.token (by decide)).grows

theorem Named.open {base : List Kind} (h : Named c d) (hc : Open base c) : Open base d := by
  induction h with
  | one => exact hc.plain (by decide)
  | more _ ih => exact (ih.plain (by decide)).plain (by decide)

theorem Named.called (h : Named c d) : Called c (.lparen :: d) := by
  cases h with
  | one => exact ⟨[], .lparen, [], rfl, .inr ⟨rfl, by simp⟩⟩
  | more h =>
    obtain ⟨ks, rfl⟩ := h.spans.grows.suffix
    exact ⟨[], .lparen, .colonColon :: ks, rfl, .inr ⟨rfl, by simp⟩⟩

theorem Called.of_access (hk : k ∉ [Kind.kwFunction, .kwMethod, .greater]) (h : c <:+ d) :
    Called c (.lparen :: .identifier :: k :: d) := by
  obtain ⟨ks, rfl⟩ := h
  refine ⟨[], .lparen, k :: ks, rfl, .inr ⟨rfl, fun k' hk' hhead => hk ?_⟩⟩
  rwa [Option.some.inj hhead]

theorem Called.of_less (h : c <:+ d) : Called c (.less :: .identifier :: d) := by
  obtain ⟨ks, rfl⟩ := h
  exact ⟨[], .less, ks, rfl, .inl rfl⟩

theorem lifetimeKinds_plain (hk : k ∈ lifetimeKinds) :
    k ∉ [Kind.assign, .rparen, .less, .lparen] := by
  revert k
  decide

theorem Through.plain {base : List Kind} (ho : Open base c)
    (hk : k ∉ [Kind.assign, .rparen, .less, .lparen]) : Through base c (k :: c) := by
  have hsubset : [Kind.lparen, .rparen, .less] ⊆ [Kind.assign, .rparen, .less, .lparen] := by decide
  exact ⟨ho.plain hk, .token fun h => hk (hsubset h)⟩

theorem Through.trans {base : List Kind} (h : Through base c d) (h' : Through base d e) :
    Through base c e :=
  ⟨h'.1, h.2.trans h'.2.grows⟩

theorem Through.next {base : List Kind} (h : Through base c d)
    (hk : k ∉ [Kind.assign, .rparen, .less, .lparen]) : Through base c (k :: d) :=
  h.trans (.plain h.1 hk)

theorem Through.brackets {base : List Kind} (ho : Open base c) (hd : Open base d)
    (hgrows : Grows (.lparen :: c) d) : Through base c (.rparen :: d) :=
  ⟨ho.rparen hd hgrows, hgrows.brackets⟩

end Grows

namespace Input

variable (input : Input)

/-- The kinds of the tokens before a place, space left out, the latest first. -/
def trail : Nat → List Kind
  | 0 => []
  | i + 1 =>
    match input.tokens[i]? with
    | some t => if t.kind.isSpace then trail i else t.kind :: trail i
    | none => trail i

variable {input} {i j : Nat} {t : Token}

theorem trail_space (ht : input.tokens[i]? = some t) (hspace : t.kind.isSpace) :
    input.trail (i + 1) = input.trail i := by
  rw [trail, ht]
  exact if_pos hspace

theorem trail_succ (ht : input.tokens[i]? = some t) (hspace : t.kind.isSpace = false) :
    input.trail (i + 1) = t.kind :: input.trail i := by
  rw [trail, ht]
  exact if_neg (by simp [hspace])

theorem Skipped.trail_eq {lines : Bool} (h : input.Skipped lines i j) :
    input.trail j = input.trail i := by
  obtain ⟨hij, hskips⟩ := h
  induction hij with
  | refl => rfl
  | @step j hij ih =>
    obtain ⟨t, ht, hskip⟩ := hskips j hij (Nat.lt_succ_self j)
    rw [trail_space ht (isSpace_of_skips hskip)]
    exact ih fun k hik hkj => hskips k hik (by omega)

theorem trail_skip (lines : Bool) (i : Nat) : input.trail (input.skip lines i) = input.trail i :=
  (input.skipped_skip lines i).trail_eq

theorem trail_skipLines (i : Nat) : input.trail (input.skipLines i) = input.trail i :=
  (input.pastLines_skipLines i).skipped.trail_eq

theorem trail_suffix (h : i ≤ j) : input.trail i <:+ input.trail j := by
  induction h with
  | refl => exact List.suffix_refl _
  | @step j _ ih =>
    refine ih.trans ?_
    rw [trail]
    split
    · split
      · exact List.suffix_refl _
      · exact List.suffix_cons _ _
    · exact List.suffix_refl _

theorem trail_of_size_le (h : input.tokens.size ≤ i) :
    input.trail i = input.trail input.tokens.size := by
  induction h with
  | refl => rfl
  | @step j h ih =>
    rw [trail, Array.getElem?_eq_none h]
    exact ih

def finalTrail (input : Input) : List Kind :=
  input.trail input.tokens.size

theorem trail_suffix_final (i : Nat) : input.trail i <:+ input.finalTrail := by
  rcases Nat.le_total i input.tokens.size with h | h
  · exact trail_suffix h
  · rw [trail_of_size_le h]
    exact List.suffix_refl _

theorem trail_of_end {lines : Bool} (h : input.tokens[input.skip lines i]? = none) :
    input.trail i = input.finalTrail := by
  rw [← trail_skip lines i]
  exact trail_of_size_le (Array.getElem?_eq_none_iff.mp h)

end Input

end Whiley
