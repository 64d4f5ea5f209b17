import Whiley.Proofs.Grammar.LineStarts
import Whiley.Proofs.Tree.Formed

/-!
What a parser makes of the tokens from a place on: where it ends, which tokens the nodes it gives
are made of, and which tokens it marks when the program does not fit it.
-/

namespace Whiley

/-- From the start of a token to the end of it or of a later one. -/
def Input.Marks (input : Input) (s : Span) : Prop :=
  ∃ (i j : Nat) (t u : Token), i ≤ j ∧ input.tokens[i]? = some t ∧ input.tokens[j]? = some u ∧
    s = ⟨t.start, u.stop⟩

/-- A complaint about the program marks tokens, if there are any. -/
def Failure.Located (input : Input) : Failure → Prop
  | .error e => input.tokens ≠ #[] → input.Marks e.span
  | _ => True

namespace Input

variable {input : Input} {i j : Nat}

theorem marks_token {t : Token} (ht : input.tokens[i]? = some t) : input.Marks t.span :=
  ⟨i, i, t, t, Nat.le_refl i, ht, ht, rfl⟩

theorem Covers.marks {first last : Nat} {s : Span} (h : input.Covers first last s) :
    input.Marks s := by
  obtain ⟨t, u, ht, hu, -, -, hspan⟩ := h.ends
  exact ⟨first, last, t, u, h.le, ht, hu, hspan⟩

theorem Nests.marks {o : Outline} (h : input.Nests i j o) (ho : o.label ≠ "Block") :
    input.Marks o.mark.span := by
  obtain ⟨first, last, -, -, hcovers⟩ := h.covers ho
  exact hcovers.marks

theorem marks_lastSpan (h : input.tokens ≠ #[]) : input.Marks input.lastSpan := by
  have hpos : 0 < input.tokens.size := Array.size_pos_iff.mpr h
  have hlast : input.tokens[input.tokens.size - 1]? = some input.tokens[input.tokens.size - 1] :=
    Array.getElem?_eq_getElem _
  have hspan : input.lastSpan = input.tokens[input.tokens.size - 1].span := by
    rw [lastSpan, Array.back?, hlast]
    rfl
  rw [hspan]
  exact marks_token hlast

end Input

namespace Scope

variable {s : Scope} {i : Identifier} {e : SyntaxError}

theorem checkAvailable_error (h : s.checkAvailable i = .error e) : e.span = i.mark.span := by
  unfold checkAvailable at h
  split at h
  · cases h
  · rw [← Except.error.inj h]

theorem checkLifetime_error (h : s.checkLifetime i = .error e) : e.span = i.mark.span := by
  unfold checkLifetime at h
  split at h
  · cases h
  · rw [← Except.error.inj h]

theorem declareVariable_error {v : Variable} (h : s.declareVariable v = .error e) :
    e.span = v.name.mark.span := by
  unfold declareVariable at h
  cases hcheck : s.checkAvailable v.name with
  | ok u =>
    rw [hcheck] at h
    cases h
  | error e' =>
    rw [hcheck] at h
    obtain rfl : e' = e := Except.error.inj h
    exact checkAvailable_error hcheck

theorem declareLifetime_error (h : s.declareLifetime i = .error e) : e.span = i.mark.span := by
  unfold declareLifetime at h
  cases hcheck : s.checkAvailable i with
  | ok u =>
    rw [hcheck] at h
    cases h
  | error e' =>
    rw [hcheck] at h
    obtain rfl : e' = e := Except.error.inj h
    exact checkAvailable_error hcheck

end Scope

namespace Parser

variable {α β σ : Type} {input : Input} {i j : Nat} {Q : Nat → α → Prop}

def Result.Reads (input : Input) (Q : Nat → α → Prop) : Result α → Prop
  | .ok a s => Q s.pos a
  | .error f _ => f.Located input

/-- Started at `i`, it ends at a place and with a value of which `Q` holds. -/
def Reads (input : Input) (i : Nat) (p : Parser α) (Q : Nat → α → Prop) : Prop :=
  ∀ arena, (p.run input ⟨i, arena⟩).Reads input Q

abbrev Goes (input : Input) (i : Nat) (p : Parser α) (Q : Nat → α → Prop) : Prop :=
  Reads input i p fun j a => i ≤ j ∧ Q j a

abbrev Stays (input : Input) (i : Nat) (p : Parser α) (P : α → Prop) : Prop :=
  Reads input i p fun j a => j = i ∧ P a

namespace Reads

theorem pure {a : α} (h : Q i a) : Reads input i (pure a) Q :=
  fun _ => h

theorem bind {p : Parser α} {f : α → Parser β} {P : Nat → α → Prop} {Q : Nat → β → Prop}
    (hp : Reads input i p P) (hf : ∀ a j, P j a → Reads input j (f a) Q) :
    Reads input i (p >>= f) Q := by
  intro arena
  have hrun := hp arena
  rw [run_bind]
  cases h : p.run input ⟨i, arena⟩ with
  | ok a s =>
    rw [h] at hrun
    exact hf a s.pos hrun s.arena
  | error f s =>
    rw [h] at hrun
    exact hrun

theorem imp {p : Parser α} {P : Nat → α → Prop} (hp : Reads input i p P)
    (h : ∀ a j, P j a → Q j a) : Reads input i p Q := by
  intro arena
  have hrun := hp arena
  cases hr : p.run input ⟨i, arena⟩ with
  | ok a s =>
    rw [hr] at hrun
    exact h a s.pos hrun
  | error f s =>
    rw [hr] at hrun
    exact hrun

theorem fail {f : Failure} (h : f.Located input) : Reads input i (fail f) Q :=
  fun _ => h

theorem exhausted : Reads input i (Parser.fail .exhausted) Q :=
  fail trivial

theorem reject {fault : SyntaxFault} {span : Span} (h : input.Marks span) :
    Reads input i (reject fault span) Q :=
  fail fun _ => h

theorem given {f : Input → Parser α} (h : Reads input i (f input) Q) :
    Reads input i (tokens >>= f) Q :=
  h

theorem here {f : Nat → Parser α} (h : Reads input i (f i) Q) : Reads input i (position >>= f) Q :=
  h

theorem moved {f : Unit → Parser α} (h : Reads input j (f ()) Q) :
    Reads input i (moveTo j >>= f) Q :=
  h

theorem ofReading {x : Except Failure α} (hok : ∀ a, Q i a)
    (herror : ∀ f, x = .error f → f.Located input) : Reads input i (ofReading x) Q := by
  cases x with
  | ok a => exact .pure (hok a)
  | error f => exact .fail (herror f rfl)

theorem attempt {p : Parser α} (h : Reads input i p Q) :
    Reads input i (attempt p) fun j o => o.elim (j = i) (Q j) := by
  intro arena
  have hrun := h arena
  unfold Parser.attempt
  dsimp only
  cases hr : p.run input ⟨i, arena⟩ with
  | ok a s =>
    rw [hr] at hrun
    exact hrun
  | error f s =>
    rw [hr] at hrun
    cases f with
    | error e => rfl
    | _ => exact hrun

end Reads

theorem Goes.bind {p : Parser α} {f : α → Parser β} {P : Nat → α → Prop} {Q : Nat → β → Prop}
    (hp : Goes input i p P) (hf : ∀ a j, i ≤ j → P j a → Reads input j (f a) Q) :
    Reads input i (p >>= f) Q :=
  Reads.bind hp fun a j h => hf a j h.1 h.2

namespace Stays

variable {p : Parser α} {P : α → Prop}

theorem bind {f : α → Parser β} {Q : Nat → β → Prop} (hp : Stays input i p P)
    (hf : ∀ a, P a → Reads input i (f a) Q) : Reads input i (p >>= f) Q := by
  refine Reads.bind hp fun a j h => ?_
  obtain ⟨rfl, ha⟩ := h
  exact hf a ha

theorem imp (hp : Stays input i p P) (h : ∀ a, P a → Q i a) : Reads input i p Q := by
  refine Reads.imp hp fun a j hj => ?_
  obtain ⟨rfl, ha⟩ := hj
  exact h a ha

theorem ofExcept {x : Except SyntaxError α} (hok : ∀ a, x = .ok a → P a)
    (herror : ∀ e, x = .error e → input.Marks e.span) : Stays input i (ofExcept x) P := by
  cases x with
  | ok a => exact .pure ⟨rfl, hok a rfl⟩
  | error e => exact .fail fun _ => herror e rfl

end Stays

section Tokens

theorem current_reads :
    Reads input i current fun j t =>
      j = input.skip true i ∧ input.tokens[j]? = some t ∧ t.kind.isSpace = false := by
  intro arena
  rw [run_current]
  dsimp only
  cases ht : input.tokens[input.skip true i]? with
  | some t => exact ⟨rfl, ht, input.skip_stops ht⟩
  | none => exact input.marks_lastSpan

theorem Reads.showing {f : Token → Parser α} (h : ∀ t j, i ≤ j → input.Skipped true i j →
      input.tokens[j]? = some t → t.kind.isSpace = false → Reads input j (f t) Q) :
    Reads input i (current >>= f) Q := by
  refine current_reads.bind fun t j hj => ?_
  obtain ⟨rfl, ht, hsolid⟩ := hj
  exact h t _ (input.le_skip true i) (input.skipped_skip true i) ht hsolid

theorem Reads.settled {f : Nat → Parser α}
    (h : ∀ start, i ≤ start → input.Skipped true i start → Reads input start (f start) Q) :
    Reads input i (settle >>= f) Q := by
  have hsettle : Reads input i settle fun j k => k = j ∧ i ≤ j ∧ input.Skipped true i j :=
    .showing fun _ _ hi hstart _ _ _ => ⟨rfl, hi, hstart⟩
  refine hsettle.bind fun k j hk => ?_
  obtain ⟨rfl, hi, hstart⟩ := hk
  exact h k hi hstart

theorem advance_reads : Goes input i advance fun j t => input.Takes true i t j := by
  intro arena
  rw [run_advance]
  dsimp only
  cases ht : input.tokens[input.skip true i]? with
  | some t =>
    have htakes : input.Takes true i t (input.skip true i + 1) := ⟨ht, input.skip_stops ht, rfl⟩
    exact ⟨Nat.le_of_lt htakes.lt, htakes⟩
  | none => exact input.marks_lastSpan

theorem expect_reads {k : Kind} :
    Goes input i (expect k) fun j t => input.Takes true i t j ∧ t.kind = k := by
  refine advance_reads.bind fun t j hj ht => ?_
  split
  · rename_i hk
    exact .pure ⟨hj, ht, hk⟩
  · exact .reject (input.marks_token ht.token)

def Accepts (input : Input) (lines : Bool) (i : Nat) (ks : List Kind) (j : Nat) (o : Option Token) :
    Prop :=
  o.elim (j = i) fun t => input.Takes lines i t j ∧ t.kind ∈ ks

theorem accept_reads {lines : Bool} {ks : List Kind} (hks : ∀ k ∈ ks, k.isSpace = false) :
    Goes input i (accept lines ks) (Accepts input lines i ks) := by
  intro arena
  rw [run_accept]
  dsimp only
  cases ht : input.tokens[input.skip lines i]? with
  | none => exact ⟨Nat.le_refl i, rfl⟩
  | some t =>
    dsimp only
    split
    · rename_i hk
      have htakes : input.Takes lines i t (input.skip lines i + 1) := ⟨ht, hks t.kind hk, rfl⟩
      exact ⟨Nat.le_of_lt htakes.lt, htakes, hk⟩
    · exact ⟨Nat.le_refl i, rfl⟩

theorem acceptNext_reads {k : Kind} :
    Goes input i (acceptNext k) fun j o =>
      o.elim True fun t => input.Takes true i t j ∧ t.kind = k := by
  intro arena
  rw [run_acceptNext]
  dsimp only
  cases ht : input.tokens[input.skip true i]? with
  | none => exact input.marks_lastSpan
  | some t =>
    dsimp only
    split
    · rename_i hk
      have htakes : input.Takes true i t (input.skip true i + 1) := ⟨ht, input.skip_stops ht, rfl⟩
      exact ⟨Nat.le_of_lt htakes.lt, htakes, hk⟩
    · exact ⟨input.le_skip true i, trivial⟩

theorem ahead_reads {lines : Bool} {ks : List Kind} :
    Stays input i (ahead lines ks) fun b => b = comes input lines ks i :=
  fun _ => ⟨rfl, rfl⟩

theorem atLineEnd_reads : Stays input i atLineEnd fun _ => True := by
  refine .given (.here ?_)
  split
  · exact .pure ⟨rfl, trivial⟩
  · exact .pure ⟨rfl, trivial⟩

theorem endLine_reads :
    Goes input i endLine fun j _ => input.Blank i j ∧ input.AtLine j := by
  intro arena
  have hle := input.le_skip false i
  have hblank := input.blank_skip false i
  rw [run_endLine]
  dsimp only
  cases ht : input.tokens[input.skip false i]? with
  | none => exact ⟨hle, hblank, .inl ht⟩
  | some t =>
    dsimp only
    split
    · rename_i hk
      have hnewline : input.Skipped true (input.skip false i) (input.skip false i + 1) :=
        .token ht (by simp [Input.skips, hk, Kind.isSpace])
      exact ⟨by dsimp only; omega, hblank.trans hnewline.blank, .inr (.inr ⟨_, t, rfl, ht, hk⟩)⟩
    · exact fun _ => input.marks_token ht

def Indented (input : Input) (indent : Indent) (i : Nat) (t : Token) : Prop :=
  input.tokens[i]? = some t ∧ input.Heads indent (input.skip true i)

theorem lineStart_reads (hi : input.AtLine i) :
    Goes input i lineStart fun j o =>
      input.AtLine j ∧ o.elim True fun x => Indented input x.2 j x.1 := by
  intro arena
  have hline := (input.pastLines_skipLines i).atLine hi
  have hle := input.le_skipLines i
  rw [run_lineStart]
  dsimp only
  cases hat : input.indentAt (input.skipLines i) with
  | none => exact ⟨hle, hline, trivial⟩
  | some t =>
    obtain ⟨ht, hk⟩ : input.tokens[input.skipLines i]? = some t ∧ t.kind = .indent := by
      simpa [Input.indentAt, Option.filter_eq_some_iff] using hat
    dsimp only
    split
    · rename_i indent hindent
      exact ⟨hle, hline, ht, input.heads_skipLines hi ht hk hindent⟩
    · trivial

theorem lineIndent_reads (hi : input.AtLine i) :
    Goes input i lineIndent fun j o =>
      input.AtLine j ∧ o.elim True fun indent => input.Heads indent (input.skip true j) := by
  refine (lineStart_reads hi).bind fun o j hj ho => .pure ⟨hj, ho.1, ?_⟩
  cases o with
  | none => trivial
  | some x => exact ho.2.2

theorem acceptAtIndent_reads {indent : Indent} {k : Kind} (hi : input.AtLine i)
    (hk : k.isSpace = false) :
    Goes input i (acceptAtIndent indent k) fun j o => o.elim (j = i) fun t =>
      ∃ e, i ≤ e ∧ j = e + 1 ∧ input.Heads indent e ∧ input.tokens[e]? = some t ∧ t.kind = k := by
  refine .here ((lineIndent_reads hi).bind fun o j hj ho => ?_)
  split
  · rename_i hindent
    subst hindent
    refine (accept_reads (by simpa using hk)).bind fun o l hl htaken => ?_
    cases o with
    | none => exact .moved (.pure ⟨Nat.le_refl i, rfl⟩)
    | some t =>
      obtain ⟨htakes, hmem⟩ := htaken
      have hle := input.le_skip true j
      exact .pure ⟨by omega, _, by omega, htakes.next, ho.2, htakes.token, List.mem_singleton.mp hmem⟩
  · exact .moved (.pure ⟨Nat.le_refl i, rfl⟩)

end Tokens

section Nodes

variable {start : Nat} {build : Mark → α} {label : String} {es : Mark → List Entry}

theorem Stays.allocateToken [ToNode α] {lines : Bool} {t : Token} {k : Nat} (ht : input.Takes lines k t i)
    (hbuild : ∀ m, (ToNode.toNode (build m)).outline = .node label m (es m))
    (hes : ∀ m, (es m).flatMap Entry.nodes = []) :
    Stays input i (allocate t.span build) (input.Holds k i) := by
  refine fun arena => ⟨rfl, ?_⟩
  change input.Nests k i (ToNode.toNode _).outline
  rw [hbuild]
  refine .node (input.le_skip lines k) (by rw [ht.next]; exact Nat.lt_succ_self _) ht.covers ?_
  rw [hes]
  exact fun c hc => absurd hc List.not_mem_nil

theorem Stays.allocateOver [ToNode α] {o : Outline} {k l : Nat} (ho : input.Nests k l o)
    (hlabel : o.label ≠ "Block")
    (hbuild : ∀ m, (ToNode.toNode (build m)).outline = .node label m (es m))
    (hes : ∀ m, ∀ c ∈ (es m).flatMap Entry.nodes, c = o) :
    Stays input i (allocate o.mark.span build) (input.Holds k l) := by
  refine fun arena => ⟨rfl, ?_⟩
  change input.Nests k l (ToNode.toNode _).outline
  rw [hbuild]
  exact ho.withSpan hlabel rfl (hes _)

namespace Reads

theorem make [ToNode α] (hpasses : input.Passes start i)
    (hbuild : ∀ m, (ToNode.toNode (build m)).outline = .node label m (es m))
    (hes : ∀ m, input.NestsAll start i (es m))
    (h : ∀ m, m.span = input.span start i → input.Holds start i (build m) → Q i (build m)) :
    Reads input i (make start build) Q := by
  intro arena
  refine h ⟨input.span start i, arena.size⟩ rfl ?_
  change input.Nests start i (ToNode.toNode _).outline
  rw [hbuild]
  exact (hes _).node hpasses rfl

theorem making [ToNode α] {f : α → Parser β} {Q : Nat → β → Prop} (hpasses : input.Passes start i)
    (hbuild : ∀ m, (ToNode.toNode (build m)).outline = .node label m (es m))
    (hes : ∀ m, input.NestsAll start i (es m))
    (h : ∀ m, m.span = input.span start i → input.Holds start i (build m) →
      Reads input i (f (build m)) Q) : Reads input i (Parser.make start build >>= f) Q := by
  refine (make (Q := fun j x => j = i ∧ ∃ m, x = build m ∧ m.span = input.span start i ∧
    input.Holds start i x) hpasses hbuild hes fun m hm hx => ⟨rfl, m, rfl, hm, hx⟩).bind
      fun x j hx => ?_
  obtain ⟨rfl, m, rfl, hm, hholds⟩ := hx
  exact h m hm hholds

theorem made [ToNode α] {k : Nat} (hk : k ≤ start) (hpasses : input.Passes start i)
    (hbuild : ∀ m, (ToNode.toNode (build m)).outline = .node label m (es m))
    (hes : ∀ m, input.NestsAll start i (es m)) :
    Reads input i (Parser.make start build) fun j x => k ≤ j ∧ input.Holds k j x :=
  make hpasses hbuild hes fun _ _ hx =>
    ⟨Nat.le_trans hk (Nat.le_of_lt hpasses.lt), hx.mono hk (Nat.le_refl i)⟩

end Reads

end Nodes

section Loops

variable {I : Nat → σ → Prop}

theorem Reads.iterate {step : σ → Parser (σ ⊕ α)} {fuel : Nat} {s : σ} (hs : I i s)
    (hstep : ∀ s j, I j s → Reads input j (step s) fun k x => x.elim (I k) (Q k)) :
    Reads input i (iterate step fuel s) Q := by
  induction fuel generalizing i s with
  | zero => exact .exhausted
  | succ fuel ih =>
    refine (hstep s i hs).bind fun x j hx => ?_
    cases x with
    | inl s' => exact ih hx
    | inr a => exact .pure hx

theorem Reads.repeating {step : σ → Parser (σ ⊕ α)} {s : σ} (hs : I i s)
    (hstep : ∀ s j, I j s → Reads input j (step s) fun k x => x.elim (I k) (Q k)) :
    Reads input i (repeating step s) Q :=
  .given (.iterate hs hstep)

theorem Reads.foldUntil {step : σ → Parser (Option σ)} {s : σ} {Q : Nat → σ → Prop} (hs : I i s)
    (hstep : ∀ s j, I j s → Reads input j (step s) fun k o => o.elim (Q k s) (I k)) :
    Reads input i (foldWhile step s) Q := by
  refine .repeating hs fun s j hs => (hstep s j hs).bind fun o k ho => ?_
  cases o with
  | some s' => exact .pure ho
  | none => exact .pure ho

theorem Reads.foldWhile {step : σ → Parser (Option σ)} {s : σ} (hs : I i s)
    (hstep : ∀ s j, I j s → Reads input j (step s) fun k o => o.elim (I k s) (I k)) :
    Reads input i (foldWhile step s) I :=
  .foldUntil hs hstep

theorem Reads.manyUntil {next : Parser (Option α)} {I Q : Nat → List α → Prop} (hnil : I i [])
    (hnext : ∀ xs j, I j xs →
      Reads input j next fun k o => o.elim (Q k xs) fun x => I k (xs ++ [x])) :
    Reads input i (many next) Q := by
  have hnil' : I i ([] : List α).reverse := hnil
  refine (Reads.foldUntil (I := fun j found => I j found.reverse)
    (Q := fun j found => Q j found.reverse) hnil' fun found j hfound => ?_).bind
    fun found j hfound => .pure hfound
  refine (hnext _ j hfound).bind fun o k ho => .pure ?_
  cases o with
  | none => exact ho
  | some x =>
    change I k (x :: found).reverse
    rwa [List.reverse_cons]

theorem Reads.many {next : Parser (Option α)} {I : Nat → List α → Prop} (hnil : I i [])
    (hnext : ∀ xs j, I j xs →
      Reads input j next fun k o => o.elim (I k xs) fun x => I k (xs ++ [x])) :
    Reads input i (many next) I :=
  .manyUntil hnil hnext

variable [Held α]

abbrev Gives (input : Input) (i : Nat) (p : Parser α) : Prop :=
  Goes input i p (input.Holds i)

theorem afterEach_gives {lines : Bool} {separator : Kind} {item : Parser α}
    (hseparator : separator.isSpace = false) (hitem : ∀ j, i ≤ j → Gives input j item) :
    Gives input i (afterEach lines separator item) := by
  refine .many (I := fun j xs => i ≤ j ∧ input.Holds i j xs) ⟨Nat.le_refl i, .nil⟩
    fun xs j hxs => ?_
  refine (accept_reads (by simpa using hseparator)).bind fun o k hk ho => ?_
  have hrest := hxs.2.mono (Nat.le_refl i) hk
  cases o with
  | none => exact .pure ⟨Nat.le_trans hxs.1 hk, hrest⟩
  | some t =>
    refine (hitem k (Nat.le_trans hxs.1 hk)).bind fun x l hl hx => .pure ⟨by omega, ?_⟩
    refine List.forall_mem_append.mpr ⟨hrest.mono (Nat.le_refl i) hl, ?_⟩
    exact .cons (hx.mono (by omega) (Nat.le_refl l)) .nil

theorem Reads.untilClose {close : Kind} {started : Bool} {item : σ → Parser σ} {s : σ}
    (hs : I i s) (hlater : ∀ s j k, j ≤ k → I j s → I k s)
    (hitem : ∀ s j, I j s → Reads input j (item s) I) :
    Reads input i (untilClose close started item s) I := by
  refine (Reads.foldWhile (I := fun j (x : Bool × σ) => I j x.2) hs fun x j hx => ?_).bind
    fun x j hx => .pure hx
  refine acceptNext_reads.bind fun o k hk _ => ?_
  have hx' := hlater x.2 j k hk hx
  cases o with
  | some t => exact .pure hx'
  | none =>
    dsimp only
    split
    · refine expect_reads.bind fun _ l hl _ => ?_
      exact (hitem x.2 l (hlater x.2 k l hl hx')).bind fun s' _ hs' => .pure hs'
    · exact (hitem x.2 k hx').bind fun s' _ hs' => .pure hs'

theorem collect_gives {close : Kind} {started : Bool} {item : List α → Parser α} {xs : List α}
    {k : Nat} (hk : k ≤ i) (hxs : input.Holds k i xs)
    (hitem : ∀ xs j, k ≤ j → input.Holds k j xs → Gives input j (item xs)) :
    Reads input i (untilClose close started (fun xs => do return (← item xs) :: xs) xs)
      fun j xs => k ≤ j ∧ input.Holds k j xs := by
  refine .untilClose ⟨hk, hxs⟩ (fun xs j l hl h => ⟨Nat.le_trans h.1 hl, h.2.mono (Nat.le_refl k) hl⟩)
    fun xs j h => ?_
  refine (hitem xs j h.1 h.2).bind fun x l hl hx => .pure ⟨Nat.le_trans h.1 hl, ?_⟩
  exact .cons (hx.mono h.1 (Nat.le_refl l)) (h.2.mono (Nat.le_refl k) hl)

theorem listUntil_gives {close : Kind} {item : Parser α} (hitem : ∀ j, i ≤ j → Gives input j item) :
    Gives input i (listUntil close item) := by
  refine (collect_gives (Nat.le_refl i) .nil fun xs j hj _ => hitem j hj).bind fun xs j hxs => ?_
  exact .pure ⟨hxs.1, hxs.2.reverse⟩

end Loops

end Parser

end Whiley
