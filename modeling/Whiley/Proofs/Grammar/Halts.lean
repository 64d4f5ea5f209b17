import Whiley.Proofs.Grammar.LineStarts

/-!
That a parser comes to an end within its rounds and its depth. The one thing that could go round for
ever is a `::` for which a term is read again from its start; where every `::` has a name before it,
the term is that name, and it is read again with more after it.
-/

namespace Whiley

/-- Whether the tokens, the nearest first, begin on their line with a name that is not a field's. -/
def endsInName (before : List Token) : Bool :=
  match before.dropWhile (·.kind.isLineSpace) with
  | [] => false
  | name :: earlier =>
    name.kind = .identifier &&
      (earlier.dropWhile (·.kind.isSpace)).head?.all fun t => t.kind ≠ .dot && t.kind ≠ .arrow

/-- Every `::` comes after a name on its line, and the name is not that of a field. -/
def ColonsFollowNames (tokens : List Token) : Prop :=
  ∀ i, (h : i < tokens.length) → tokens[i].kind = .colonColon → endsInName (tokens.take i).reverse

instance (tokens : List Token) : Decidable (ColonsFollowNames tokens) :=
  inferInstanceAs (Decidable (∀ i, (h : i < tokens.length) → tokens[i].kind = .colonColon →
    endsInName (tokens.take i).reverse))

namespace Input

variable {input : Input} {lines : Bool} {i j : Nat} {t : Token}

def Names (input : Input) (i : Nat) : Prop :=
  ∃ t, input.tokens[i]? = some t ∧ t.kind = .identifier ∧
    ∀ d u, input.tokens[d]? = some u → input.Skipped true (d + 1) i →
      u.kind ≠ .dot ∧ u.kind ≠ .arrow

def Closed (input : Input) (i : Nat) : Prop :=
  ∀ t, input.tokens[input.skip false i]? = some t → t.kind ≠ .colonColon

abbrev Past (input : Input) (i j : Nat) : Prop :=
  i < j ∧ i < input.tokens.size

abbrev Closes (input : Input) (i j : Nat) : Prop :=
  input.Past i j ∧ input.Closed j

theorem Takes.past (h : input.Takes lines i t j) : input.Past i j := by
  obtain ⟨hsize, -⟩ := Array.getElem?_eq_some_iff.mp h.token
  have hle := input.le_skip lines i
  exact ⟨h.lt, by omega⟩

theorem closed_of_next
    (h : ∀ t, input.tokens[input.skip lines i]? = some t → t.kind ≠ .colonColon) :
    input.Closed i := by
  cases lines with
  | false => exact h
  | true =>
    intro t ht hk
    have hsolid : input.Solid (input.skip false i) := ⟨t, ht, by rw [hk]; rfl⟩
    rw [← hsolid.skip_eq (input.le_skip false i) (input.blank_skip false i)] at ht
    exact h t ht hk

theorem Names.solid (h : input.Names i) : input.Solid i := by
  obtain ⟨t, ht, hk, -⟩ := h
  exact ⟨t, ht, by rw [hk]; rfl⟩

end Input

/-- A stream in which every `::` comes after a name, with rounds for all of its tokens. -/
structure Anchored where
  input : Input
  room : input.tokens.size < input.allowance
  named : ∀ c t, input.tokens[c]? = some t → t.kind = .colonColon →
    ∃ n, n < c ∧ input.Names n ∧ input.Skipped false (n + 1) c

namespace Anchored

variable {r : Anchored} {lines : Bool} {i j k : Nat} {t u : Token}

theorem names_last (hi : r.input.Solid i) (hij : r.input.Skipped true (i + 1) j)
    (ht : r.input.tokens[j]? = some t) (hk : t.kind = .colonColon) : r.input.Names i := by
  obtain ⟨n, hn, hnames, hskipped⟩ := r.named j t ht hk
  rcases Nat.lt_trichotomy n i with hni | rfl | hin
  · exact absurd hi (hskipped.blank i hni hij.1)
  · exact hnames
  · exact absurd hnames.solid (hij.blank n hin hn)

theorem closed_of_names (ht : r.input.Takes lines i t j)
    (h : ¬ r.input.Names (r.input.skip lines i)) : r.input.Closed j := by
  intro u hu hk
  refine h (names_last ⟨t, ht.token, ht.solid⟩ ?_ hu hk)
  rw [← ht.next]
  exact (r.input.skipped_skip false j).wide

theorem closed_of_kind (ht : r.input.Takes lines i t j) (hk : t.kind ≠ .identifier) :
    r.input.Closed j := by
  refine closed_of_names ht fun ⟨u, hu, hname, _⟩ => hk ?_
  rwa [Option.some.inj (ht.token.symm.trans hu)]

theorem closed_of_field (hu : r.input.Takes lines i u j) (hk : u.kind = .dot ∨ u.kind = .arrow)
    (ht : r.input.Takes true j t k) : r.input.Closed k := by
  refine closed_of_names ht fun ⟨_, _, _, hbefore⟩ => ?_
  have hskipped := r.input.skipped_skip true j
  rw [hu.next] at hskipped
  obtain ⟨hdot, harrow⟩ := hbefore _ u hu.token (hu.next ▸ hskipped)
  exact hk.elim hdot harrow

theorem next_ne_colons (hclosed : r.input.Closed i) (ht : r.input.Takes lines i t j) :
    t.kind ≠ .colonColon := by
  intro hk
  obtain ⟨n, hn, hnames, hskipped⟩ := r.named _ t ht.token hk
  have hni : n < i := by
    by_contra hle
    exact r.input.blank_skip lines i n (by omega) hn hnames.solid
  have hline : r.input.Skipped false i (r.input.skip lines i) :=
    ⟨r.input.le_skip lines i, fun k hik hk => hskipped.2 k (by omega) hk⟩
  have hstop : r.input.skip false (r.input.skip lines i) = r.input.skip lines i :=
    Input.skip_of_stop ht.token (by simp [Input.skips, hk, Kind.isLineSpace])
  refine hclosed t ?_ hk
  rw [← hline.skip_eq, hstop, ht.token]

end Anchored

namespace Parser

variable {α β σ : Type} {r : Anchored} {i j : Nat} {Q : Nat → α → Prop}

def Result.Halts (Q : Nat → α → Prop) : Result α → Prop
  | .ok a s => Q s.pos a
  | .error f _ => f ≠ .exhausted

/-- Started at `i`, it is not exhausted; it fails, or ends at a place with a value of which `Q` holds. -/
def Halts (r : Anchored) (i : Nat) (p : Parser α) (Q : Nat → α → Prop) : Prop :=
  ∀ arena, (p.run r.input ⟨i, arena⟩).Halts Q

abbrev Moves (r : Anchored) (i : Nat) (p : Parser α) : Prop :=
  Halts r i p fun j _ => r.input.Past i j

abbrev Closes (r : Anchored) (i : Nat) (p : Parser α) : Prop :=
  Halts r i p fun j _ => r.input.Closes i j

abbrev Rests (r : Anchored) (i : Nat) (p : Parser α) : Prop :=
  Halts r i p fun j _ => j = i

namespace Halts

theorem pure {a : α} (h : Q i a) : Halts r i (pure a) Q :=
  fun _ => h

theorem bind {p : Parser α} {f : α → Parser β} {P : Nat → α → Prop} {Q : Nat → β → Prop}
    (hp : Halts r i p P) (hf : ∀ a j, P j a → Halts r j (f a) Q) : Halts r i (p >>= f) Q := by
  intro arena
  have hrun := hp arena
  rw [run_bind]
  cases h : p.run r.input ⟨i, arena⟩ with
  | ok a s =>
    rw [h] at hrun
    exact hf a s.pos hrun s.arena
  | error f s =>
    rw [h] at hrun
    exact hrun

theorem imp {p : Parser α} {P : Nat → α → Prop} (hp : Halts r i p P)
    (h : ∀ a j, P j a → Q j a) : Halts r i p Q := by
  intro arena
  have hrun := hp arena
  cases hr : p.run r.input ⟨i, arena⟩ with
  | ok a s =>
    rw [hr] at hrun
    exact h a s.pos hrun
  | error f s =>
    rw [hr] at hrun
    exact hrun

theorem fail {f : Failure} (h : f ≠ .exhausted) : Halts r i (fail f) Q :=
  fun _ => h

theorem reject {fault : SyntaxFault} {span : Span} : Halts r i (reject fault span) Q :=
  fail nofun

theorem given {f : Input → Parser α} (h : Halts r i (f r.input) Q) : Halts r i (tokens >>= f) Q :=
  h

theorem here {f : Nat → Parser α} (h : Halts r i (f i) Q) : Halts r i (position >>= f) Q :=
  h

theorem moved {f : Unit → Parser α} (h : Halts r j (f ()) Q) : Halts r i (moveTo j >>= f) Q :=
  h

theorem allocating [ToNode α] {span : Span} {build : Mark → α} {f : α → Parser β}
    {Q : Nat → β → Prop} (h : ∀ a, Halts r i (f a) Q) : Halts r i (allocate span build >>= f) Q :=
  fun _ => h _ _

theorem making [ToNode α] {start : Nat} {build : Mark → α} {f : α → Parser β}
    {Q : Nat → β → Prop} (h : ∀ a, Halts r i (f a) Q) : Halts r i (make start build >>= f) Q :=
  fun _ => h _ _

theorem make [ToNode α] {start : Nat} {build : Mark → α} (h : ∀ a, Q i a) :
    Halts r i (make start build) Q :=
  fun _ => h _

theorem checking {x : Except SyntaxError α} {f : α → Parser β} {Q : Nat → β → Prop}
    (h : ∀ a, Halts r i (f a) Q) : Halts r i (ofExcept x >>= f) Q := by
  cases x with
  | ok a => exact h a
  | error e => exact .reject

theorem reading {x : Except Failure α} {f : α → Parser β} {Q : Nat → β → Prop}
    (hx : x ≠ .error .exhausted) (h : ∀ a, Halts r i (f a) Q) : Halts r i (ofReading x >>= f) Q := by
  cases x with
  | ok a => exact h a
  | error e => exact .fail fun he => hx (he ▸ rfl)

theorem attempt {p : Parser α} (h : Halts r i p Q) :
    Halts r i (attempt p) fun j o => o.elim (j = i) (Q j) := by
  intro arena
  have hrun := h arena
  unfold Parser.attempt
  dsimp only
  cases hr : p.run r.input ⟨i, arena⟩ with
  | ok a s =>
    rw [hr] at hrun
    exact hrun
  | error f s =>
    rw [hr] at hrun
    cases f with
    | error e => rfl
    | _ => exact hrun

end Halts

section Tokens

variable {t : Token}

theorem Halts.showing {f : Token → Parser α} (h : ∀ t, r.input.tokens[r.input.skip true i]? = some t →
      Halts r (r.input.skip true i) (f t) Q) : Halts r i (current >>= f) Q := by
  intro arena
  rw [run_bind, run_current]
  cases ht : r.input.tokens[r.input.skip true i]? with
  | some t => exact h t ht arena
  | none => exact nofun

theorem Halts.settled {f : Nat → Parser α} (h : ∀ start, start = r.input.skip true i →
      start < r.input.tokens.size → Halts r start (f start) Q) : Halts r i (settle >>= f) Q := by
  have hsettle : Halts r i settle fun j start =>
      start = j ∧ start = r.input.skip true i ∧ start < r.input.tokens.size := by
    refine .showing fun t ht => ?_
    obtain ⟨hsize, -⟩ := Array.getElem?_eq_some_iff.mp ht
    exact fun _ => ⟨rfl, rfl, hsize⟩
  refine hsettle.bind fun start j hstart => ?_
  obtain ⟨rfl, hskip, hsize⟩ := hstart
  exact h start hskip hsize

theorem advance_halts : Halts r i advance fun j t => r.input.Takes true i t j := by
  intro arena
  rw [run_advance]
  cases ht : r.input.tokens[r.input.skip true i]? with
  | some t => exact ⟨ht, r.input.skip_stops ht, rfl⟩
  | none => exact nofun

theorem expect_halts {k : Kind} :
    Halts r i (expect k) fun j t => r.input.Takes true i t j ∧ t.kind = k := by
  refine advance_halts.bind fun t j ht => ?_
  split
  · rename_i hk
    exact .pure ⟨ht, hk⟩
  · exact .reject

theorem expect_closes {k : Kind} (hk : k ≠ .identifier) : Closes r i (expect k) :=
  expect_halts.imp fun _ _ ht => ⟨ht.1.past, r.closed_of_kind ht.1 (ht.2 ▸ hk)⟩

theorem advance_closes (ht : r.input.tokens[r.input.skip true i]? = some t)
    (hk : t.kind ≠ .identifier) : Closes r i advance := by
  refine advance_halts.imp fun u j hu => ⟨hu.past, r.closed_of_kind hu ?_⟩
  rwa [← Option.some.inj (ht.symm.trans hu.token)]

theorem expect_moves {k : Kind} : Moves r i (expect k) :=
  expect_halts.imp fun _ _ ht => ht.1.past

theorem accept_halts {lines : Bool} {ks : List Kind} (hks : ∀ k ∈ ks, k.isSpace = false) :
    Halts r i (accept lines ks) fun j o => o.elim
      (j = i ∧ ∀ t, r.input.tokens[r.input.skip lines i]? = some t → t.kind ∉ ks)
      fun t => r.input.Takes lines i t j ∧ t.kind ∈ ks := by
  intro arena
  rw [run_accept]
  dsimp only
  cases ht : r.input.tokens[r.input.skip lines i]? with
  | none => exact ⟨rfl, nofun⟩
  | some t =>
    dsimp only
    split
    · rename_i hk
      exact ⟨⟨ht, hks t.kind hk, rfl⟩, hk⟩
    · rename_i hk
      exact ⟨rfl, fun u hu => Option.some.inj hu ▸ hk⟩

theorem Halts.accepting {lines : Bool} {ks : List Kind} {f : Option Token → Parser α}
    (hks : ∀ k ∈ ks, k.isSpace = false)
    (hsome : ∀ t j, r.input.Takes lines i t j → t.kind ∈ ks → Halts r j (f (some t)) Q)
    (hnone : (∀ t, r.input.tokens[r.input.skip lines i]? = some t → t.kind ∉ ks) →
      Halts r i (f none) Q) : Halts r i (accept lines ks >>= f) Q := by
  refine (accept_halts hks).bind fun o j ho => ?_
  cases o with
  | none =>
    obtain ⟨rfl, ht⟩ := ho
    exact hnone ht
  | some t => exact hsome t j ho.1 ho.2

theorem Halts.acceptingNext {k : Kind} {f : Option Token → Parser α}
    (hsome : ∀ t j, r.input.Takes true i t j → t.kind = k → Halts r j (f (some t)) Q)
    (hnone : ∀ j, i ≤ j → j < r.input.tokens.size → Halts r j (f none) Q) :
    Halts r i (acceptNext k >>= f) Q := by
  intro arena
  rw [run_bind, run_acceptNext]
  dsimp only
  cases ht : r.input.tokens[r.input.skip true i]? with
  | none => exact nofun
  | some t =>
    dsimp only
    by_cases hk : t.kind = k
    · rw [if_pos hk]
      exact hsome t _ ⟨ht, r.input.skip_stops ht, rfl⟩ hk arena
    · rw [if_neg hk]
      obtain ⟨hsize, -⟩ := Array.getElem?_eq_some_iff.mp ht
      exact hnone _ (r.input.le_skip true i) hsize arena

theorem Halts.looking {lines : Bool} {ks : List Kind} {f : Bool → Parser α}
    (h : ∀ b, Halts r i (f b) Q) : Halts r i (ahead lines ks >>= f) Q :=
  fun _ => h _ _

theorem Halts.lookingAtLineEnd {f : Bool → Parser α} (h : ∀ b, Halts r i (f b) Q) :
    Halts r i (atLineEnd >>= f) Q := by
  have hrests : Rests r i atLineEnd := by
    refine .given (.here ?_)
    split <;> exact .pure rfl
  refine hrests.bind fun b j hj => ?_
  obtain rfl := hj
  exact h b

theorem endLine_halts : Halts r i endLine fun j _ => i ≤ j := by
  intro arena
  have hle := r.input.le_skip false i
  rw [run_endLine]
  dsimp only
  cases r.input.tokens[r.input.skip false i]? with
  | none => exact hle
  | some t =>
    dsimp only
    split
    · exact Nat.le_succ_of_le hle
    · exact nofun

theorem lineStart_halts :
    Halts r i lineStart fun j o => i ≤ j ∧ (o.isSome → j < r.input.tokens.size) := by
  intro arena
  have hle := r.input.le_skipLines i
  rw [run_lineStart]
  cases hat : r.input.indentAt (r.input.skipLines i) with
  | none => exact ⟨hle, nofun⟩
  | some t =>
    have ht : r.input.tokens[r.input.skipLines i]? = some t :=
      (Option.filter_eq_some_iff.mp hat).1
    obtain ⟨hsize, -⟩ := Array.getElem?_eq_some_iff.mp ht
    dsimp only
    split
    · exact ⟨hle, fun _ => hsize⟩
    · exact nofun

theorem lineIndent_halts : Halts r i lineIndent fun j _ => i ≤ j :=
  lineStart_halts.bind fun _ _ hj => .pure hj.1

theorem Halts.acceptingAtIndent {indent : Indent} {k : Kind} {f : Option Token → Parser α}
    (hk : k.isSpace = false) (hsome : ∀ t j, r.input.Past i j → Halts r j (f (some t)) Q)
    (hnone : Halts r i (f none) Q) : Halts r i (acceptAtIndent indent k >>= f) Q := by
  have haccept : Halts r i (acceptAtIndent indent k) fun j o =>
      o.elim (j = i) fun _ => r.input.Past i j := by
    refine .here (lineIndent_halts.bind fun o j hj => ?_)
    split
    · refine .accepting (by simpa using hk) (fun t l ht _ => .pure ?_) fun _ => .moved (.pure rfl)
      obtain ⟨hlt, hsize⟩ := ht.past
      exact ⟨by omega, by omega⟩
    · exact .moved (.pure rfl)
  refine haccept.bind fun o j ho => ?_
  cases o with
  | none =>
    obtain rfl : j = i := ho
    exact hnone
  | some t => exact hsome t j ho

end Tokens

section Loops

variable {I : Nat → σ → Prop}

theorem Halts.iterate {step : σ → Parser (σ ⊕ α)} {fuel : Nat} {s : σ}
    (hfuel : r.input.tokens.size - i < fuel) (hs : I i s)
    (hstep : ∀ s j, I j s →
      Halts r j (step s) fun k x => x.elim (fun s' => r.input.Past j k ∧ I k s') (Q k)) :
    Halts r i (iterate step fuel s) Q := by
  induction fuel generalizing i s with
  | zero => omega
  | succ fuel ih =>
    refine (hstep s i hs).bind fun x j hx => ?_
    cases x with
    | inl s' =>
      obtain ⟨hpast, hs'⟩ := hx
      exact ih (by omega) hs'
    | inr a => exact .pure hx

theorem Halts.repeating {step : σ → Parser (σ ⊕ α)} {s : σ} (hs : I i s)
    (hstep : ∀ s j, I j s →
      Halts r j (step s) fun k x => x.elim (fun s' => r.input.Past j k ∧ I k s') (Q k)) :
    Halts r i (repeating step s) Q := by
  have hroom := r.room
  exact .given (.iterate (by omega) hs hstep)

theorem Halts.foldUntil {step : σ → Parser (Option σ)} {s : σ} {I Q : Nat → Prop} (hi : I i)
    (hstep : ∀ s j, I j →
      Halts r j (step s) fun k o => o.elim (Q k) fun _ => r.input.Past j k ∧ I k) :
    Halts r i (foldWhile step s) fun j _ => Q j := by
  refine .repeating (I := fun j _ => I j) hi fun s j hj => (hstep s j hj).bind fun o k ho => ?_
  cases o with
  | some s' => exact .pure ho
  | none => exact .pure ho

theorem Halts.manyUntil {next : Parser (Option α)} {I Q : Nat → Prop} (hi : I i)
    (hnext : ∀ j, I j → Halts r j next fun k o => o.elim (Q k) fun _ => r.input.Past j k ∧ I k) :
    Halts r i (many next) fun j _ => Q j := by
  refine (Halts.foldUntil hi fun found j hj => ?_).bind fun found j hj => .pure hj
  refine (hnext j hj).bind fun o k ho => .pure ?_
  cases o with
  | none => exact ho
  | some x => exact ho

theorem afterEach_keeps {lines : Bool} {separator : Kind} {item : Parser α} {I : Nat → Prop}
    (hseparator : separator.isSpace = false) (hi : I i)
    (hitem : ∀ j, r.input.Past i j → Halts r j item fun k _ => r.input.Past j k ∧ I k) :
    Halts r i (afterEach lines separator item) fun j _ => i ≤ j ∧ I j := by
  refine .manyUntil (I := fun j => i ≤ j ∧ I j) ⟨Nat.le_refl i, hi⟩ fun j hj => ?_
  refine .accepting (by simpa using hseparator) (fun t k ht _ => ?_) fun _ => .pure hj
  have hpast := ht.past
  refine (hitem k (by omega)).bind fun x l hl => .pure ?_
  exact ⟨by omega, by omega, hl.2⟩

theorem afterEach_halts {lines : Bool} {separator : Kind} {item : Parser α}
    (hseparator : separator.isSpace = false) (hitem : ∀ j, r.input.Past i j → Moves r j item) :
    Halts r i (afterEach lines separator item) fun j _ => i ≤ j :=
  (afterEach_keeps (I := fun _ => True) hseparator trivial fun j hj =>
    (hitem j hj).imp fun _ _ hk => ⟨hk, trivial⟩).imp fun _ _ hj => hj.1

theorem untilClose_closes {close : Kind} {started : Bool} {item : σ → Parser σ} {s : σ}
    (hclose : close ≠ .identifier) (hitem : ∀ s j, i ≤ j → Moves r j (item s)) :
    Closes r i (untilClose close started item s) := by
  refine (Halts.foldUntil (I := (i ≤ ·)) (Q := r.input.Closes i) (Nat.le_refl i)
    fun x j hj => ?_).bind fun x j hj => .pure hj
  refine .acceptingNext (fun t k ht hk => .pure ?_) fun k hk hsize => ?_
  · have hpast := ht.past
    exact ⟨by omega, r.closed_of_kind ht (hk ▸ hclose)⟩
  · dsimp only
    split
    · refine expect_moves.bind fun _ l hl => ?_
      refine (hitem x.2 l (by omega)).bind fun s' m hm => .pure ?_
      exact ⟨by omega, by omega⟩
    · refine (hitem x.2 k (by omega)).bind fun s' m hm => .pure ?_
      exact ⟨by omega, by omega⟩

theorem listUntil_closes {close : Kind} {item : Parser α} (hclose : close ≠ .identifier)
    (hitem : ∀ j, i ≤ j → Moves r j item) : Closes r i (listUntil close item) := by
  refine (untilClose_closes hclose fun found j hj => ?_).bind fun found j hj => .pure hj
  exact (hitem j hj).bind fun x k hk => .pure hk

end Loops

end Parser

end Whiley
