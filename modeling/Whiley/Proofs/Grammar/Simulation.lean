import Whiley.Proofs.Grammar.Ensures
import Whiley.Proofs.Tree.Relabel

/-!
Two runs side by side, over two streams of tokens that may differ in layout, in names and in what
the arenas held before. A simulation says which places of the two streams answer each other;
whatever reads the tokens only from such places ends alike on both sides.
-/

namespace Whiley

/-- Two tokens that the parser treats alike. -/
structure Token.Alike (f g : Relabelling) (t t' : Token) : Prop where
  kind : t.kind = t'.kind
  span : f.span t.span = g.span t'.span
  text : t.kind ≠ .newline → t.kind ≠ .identifier → t.text = t'.text
  name : t.kind ∈ [.identifier, .kwThis, .star] → f.text t.text = g.text t'.text

theorem Token.Alike.fixed_text {f g : Relabelling} {t t' : Token} (h : Token.Alike f g t t')
    {ks : List Kind} (hk : t.kind ∈ ks) (hks : ∀ k ∈ ks, k ≠ .newline ∧ k ≠ .identifier) :
    t.text = t'.text :=
  h.text (hks _ hk).1 (hks _ hk).2

def Input.indentAt (input : Input) (i : Nat) : Option Token :=
  input.tokens[i]?.filter fun t => t.kind = .indent

namespace Input

theorem skipFrom_stops (input : Input) {lines : Bool} {fuel i : Nat} {t : Token}
    (hfuel : input.tokens.size ≤ i + fuel)
    (ht : input.tokens[input.skipFrom lines fuel i]? = some t) : skips lines t.kind = false := by
  induction fuel generalizing i with
  | zero =>
    obtain ⟨hi, -⟩ := Array.getElem?_eq_some_iff.mp ht
    rw [skipFrom] at hi
    omega
  | succ fuel ih =>
    rw [skipFrom] at ht
    split at ht
    · rename_i u hu
      split at ht
      · exact ih (by omega) ht
      · rename_i hskips
        rw [hu] at ht
        obtain rfl := Option.some.inj ht
        exact eq_false_of_ne_true hskips
    · rename_i hnone
      rw [hnone] at ht
      exact absurd ht nofun

theorem skip_stops (input : Input) {lines : Bool} {i : Nat} {t : Token}
    (ht : input.tokens[input.skip lines i]? = some t) : skips lines t.kind = false :=
  input.skipFrom_stops (by omega) ht

end Input

structure Simulation where
  left : Input
  right : Input
  lhs : Relabelling
  rhs : Relabelling
  /-- The places that answer each other inside of a line. -/
  within : Nat → Nat → Prop
  /-- The places that answer each other, where a line begins too. -/
  anywhere : Nat → Nat → Prop
  sizes : Nat → Nat → Prop
  /-- Whether one run may be exhausted before the other. -/
  uneven : Prop
  anywhere_of_within : ∀ {p q}, within p q → anywhere p q
  allowance : left.allowance = right.allowance ∨ uneven
  index : ∀ {m n}, sizes m n → lhs.index m = rhs.index n
  sizes_succ : ∀ {m n}, sizes m n → sizes (m + 1) (n + 1)
  span : ∀ {p q p' q'}, anywhere p q → anywhere p' q' →
    lhs.span (left.span p p') = rhs.span (right.span q q')
  last : lhs.span left.lastSpan = rhs.span right.lastSpan
  whole : lhs.span ⟨0, left.lastSpan.stop⟩ = rhs.span ⟨0, right.lastSpan.stop⟩
  skip : ∀ lines {p q}, (if lines then anywhere p q else within p q) →
    within (left.skip lines p) (right.skip lines q) ∧
      Option.Rel (Token.Alike lhs rhs) left.tokens[left.skip lines p]?
        right.tokens[right.skip lines q]?
  step : ∀ {p q t t'}, within p q → left.tokens[p]? = some t → right.tokens[q]? = some t' →
    t.kind = t'.kind → t.kind.isSpace = false → within (p + 1) (q + 1)
  newline : ∀ {p q t t'}, within p q → left.tokens[p]? = some t → right.tokens[q]? = some t' →
    t.kind = t'.kind → t.kind = .newline → anywhere (p + 1) (q + 1)
  lines : ∀ {p q}, anywhere p q →
    anywhere (left.skipLines p) (right.skipLines q) ∧
      Option.Rel
        (fun t t' => lhs.span t.span = rhs.span t'.span ∧ Indent.ofText t.text = Indent.ofText t'.text)
        (left.indentAt (left.skipLines p)) (right.indentAt (right.skipLines q))

inductive Spot
  | within
  | anywhere

namespace Simulation

def At (σ : Simulation) : Spot → Nat → Nat → Prop
  | .within => σ.within
  | .anywhere => σ.anywhere

theorem At.loosen {σ : Simulation} {P : Spot} {p q : Nat} (h : σ.At P p q) : σ.anywhere p q := by
  cases P with
  | within => exact σ.anywhere_of_within h
  | anywhere => exact h

theorem At.of_within {σ : Simulation} {P : Spot} {p q : Nat} (h : σ.within p q) : σ.At P p q := by
  cases P with
  | within => exact h
  | anywhere => exact σ.anywhere_of_within h

theorem rel_cases {α β : Type} {r : α → β → Prop} {o : Option α} {o' : Option β}
    (h : Option.Rel r o o') :
    (o = none ∧ o' = none) ∨ ∃ a b, o = some a ∧ o' = some b ∧ r a b := by
  cases h with
  | none => exact .inl ⟨rfl, rfl⟩
  | some hab => exact .inr ⟨_, _, rfl, rfl, hab⟩

theorem skip_at (σ : Simulation) {P : Spot} (lines : Bool) {p q : Nat} (h : σ.At P p q)
    (hlines : P = .within ∨ lines = true) :
    σ.within (σ.left.skip lines p) (σ.right.skip lines q) ∧
      ((σ.left.tokens[σ.left.skip lines p]? = none ∧
          σ.right.tokens[σ.right.skip lines q]? = none) ∨
        ∃ t t', σ.left.tokens[σ.left.skip lines p]? = some t ∧
          σ.right.tokens[σ.right.skip lines q]? = some t' ∧ Token.Alike σ.lhs σ.rhs t t' ∧
          Input.skips lines t.kind = false) := by
  have hplace : if lines then σ.anywhere p q else σ.within p q := by
    split
    · exact h.loosen
    · rename_i hfalse
      rcases hlines with rfl | hlines
      · exact h
      · exact absurd hlines hfalse
  obtain ⟨hwithin, hrel⟩ := σ.skip lines hplace
  refine ⟨hwithin, ?_⟩
  rcases rel_cases hrel with hnone | ⟨t, t', ht, ht', halike⟩
  · exact .inl hnone
  · exact .inr ⟨t, t', ht, ht', halike, σ.left.skip_stops ht⟩

@[simp]
abbrev Alike (σ : Simulation) {α : Type} [Relabel α] (a b : α) : Prop :=
  relabel σ.lhs a = relabel σ.rhs b

theorem rel_of_alike {σ : Simulation} {α : Type} [Relabel α] {o o' : Option α}
    (h : σ.Alike o o') : Option.Rel σ.Alike o o' := by
  cases o with
  | none =>
    cases o' with
    | none => exact .none
    | some a' => exact absurd h nofun
  | some a =>
    cases o' with
    | none => exact absurd h nofun
    | some a' => exact .some (Option.some.inj h)

abbrev AlikeReading (σ : Simulation) {α : Type} (x y : Except Failure α) : Prop :=
  x.mapError (·.relabel σ.lhs) = y.mapError (·.relabel σ.rhs)

end Simulation

namespace Parser

variable {α β γ δ : Type} {σ : Simulation} {P Q : Spot}

inductive Outcome (σ : Simulation) (Q : Spot) (R : α → β → Prop) : Result α → Result β → Prop
  | ok {a b s t} (value : R a b) (pos : σ.At Q s.pos t.pos)
      (sizes : σ.sizes s.arena.size t.arena.size) : Outcome σ Q R (.ok a s) (.ok b t)
  | error {f g s t} (failure : f.relabel σ.lhs = g.relabel σ.rhs)
      (sizes : σ.sizes s.arena.size t.arena.size) : Outcome σ Q R (.error f s) (.error g t)
  | left {s r} (h : σ.uneven) : Outcome σ Q R (.error .exhausted s) r
  | right {r t} (h : σ.uneven) : Outcome σ Q R r (.error .exhausted t)

theorem Outcome.mono {O : Spot} {R S : α → β → Prop} {x : Result α} {y : Result β}
    (h : Outcome σ O R x y) (hvalue : ∀ a b, R a b → S a b)
    (hpos : ∀ p q, σ.At O p q → σ.At Q p q) : Outcome σ Q S x y := by
  cases h with
  | ok value pos sizes => exact .ok (hvalue _ _ value) (hpos _ _ pos) sizes
  | error failure sizes => exact .error failure sizes
  | left h => exact .left h
  | right h => exact .right h

/-- From places that answer each other at `P` to such places at `Q`, with values that `R` relates. -/
def Matches (σ : Simulation) (P Q : Spot) (p : Parser α) (q : Parser β) (R : α → β → Prop) : Prop :=
  ∀ s t, σ.At P s.pos t.pos → σ.sizes s.arena.size t.arena.size →
    Outcome σ Q R (p.run σ.left s) (q.run σ.right t)

section Runs

variable (input : Input) (s : Reading)

theorem run_current :
    current.run input s =
      match input.tokens[input.skip true s.pos]? with
      | some t => .ok t { s with pos := input.skip true s.pos }
      | none =>
        .error (.error ⟨.unexpectedEnd, input.lastSpan⟩)
          { s with pos := input.skip true s.pos } := by
  cases h : input.tokens[input.skip true s.pos]? with
  | some t => simp [current, run_bind, run_pure, tokens, position, moveTo, h]
  | none => simp [current, run_bind, tokens, position, moveTo, h, reject, Parser.fail]

theorem run_advance :
    advance.run input s =
      match input.tokens[input.skip true s.pos]? with
      | some t => .ok t { s with pos := input.skip true s.pos + 1 }
      | none =>
        .error (.error ⟨.unexpectedEnd, input.lastSpan⟩)
          { s with pos := input.skip true s.pos } := by
  rw [advance, run_bind, run_current]
  cases h : input.tokens[input.skip true s.pos]? with
  | some t => simp [run_bind, run_pure, position, moveTo]
  | none => rfl

theorem run_acceptNext (k : Kind) :
    (acceptNext k).run input s =
      match input.tokens[input.skip true s.pos]? with
      | some t =>
        if t.kind = k then .ok (some t) { s with pos := input.skip true s.pos + 1 }
        else .ok none { s with pos := input.skip true s.pos }
      | none =>
        .error (.error ⟨.unexpectedEnd, input.lastSpan⟩)
          { s with pos := input.skip true s.pos } := by
  rw [acceptNext, run_bind, run_current]
  cases h : input.tokens[input.skip true s.pos]? with
  | some t =>
    dsimp only
    split
    · simp [run_bind, run_pure, position, moveTo]
    · rfl
  | none => rfl

theorem run_lineStart :
    lineStart.run input s =
      match input.indentAt (input.skipLines s.pos) with
      | some t =>
        match Indent.ofText t.text with
        | .ok i => .ok (some (t, i)) { s with pos := input.skipLines s.pos }
        | .error c => .error (.notBlank c) { s with pos := input.skipLines s.pos }
      | none => .ok none { s with pos := input.skipLines s.pos } := by
  cases h : input.tokens[input.skipLines s.pos]? with
  | none =>
    simp [lineStart, run_bind, run_pure, tokens, position, moveTo, h, Input.indentAt]
  | some t =>
    by_cases hk : t.kind = .indent
    · have hat : input.indentAt (input.skipLines s.pos) = some t := by
        simp [Input.indentAt, h, Option.filter, hk]
      rw [hat]
      cases hi : Indent.ofText t.text <;>
        simp [lineStart, run_bind, run_pure, tokens, position, moveTo, h, hk, hi, Parser.fail]
    · have hat : input.indentAt (input.skipLines s.pos) = none := by
        simp [Input.indentAt, h, Option.filter, hk]
      rw [hat]
      simp [lineStart, run_bind, run_pure, tokens, position, moveTo, h, hk]

end Runs

namespace Matches

theorem pure {a : α} {b : β} {R : α → β → Prop} (h : R a b) :
    Matches σ P P (pure a) (pure b) R :=
  fun _ _ hpos hsizes => .ok h hpos hsizes

theorem bind {O : Spot} {p : Parser α} {q : Parser β} {f : α → Parser γ} {g : β → Parser δ}
    {R : α → β → Prop} {S : γ → δ → Prop} (hp : Matches σ P O p q R)
    (hf : ∀ a b, R a b → Matches σ O Q (f a) (g b) S) : Matches σ P Q (p >>= f) (q >>= g) S := by
  intro s t hpos hsizes
  have h := hp s t hpos hsizes
  rw [run_bind, run_bind]
  generalize p.run σ.left s = x at h
  generalize q.run σ.right t = y at h
  cases h with
  | ok value pos sizes => exact hf _ _ value _ _ pos sizes
  | error failure sizes => exact .error failure sizes
  | left h => exact .left h
  | right h => exact .right h

theorem loosen {p : Parser α} {q : Parser β} {R : α → β → Prop} (hp : Matches σ P .within p q R) :
    Matches σ P Q p q R :=
  fun s t hpos hsizes => (hp s t hpos hsizes).mono (fun _ _ => id) fun _ _ => .of_within

theorem fail {f g : Failure} {R : α → β → Prop} (h : f.relabel σ.lhs = g.relabel σ.rhs) :
    Matches σ P Q (fail f) (fail g) R :=
  fun _ _ _ hsizes => .error h hsizes

theorem exhausted_left {q : Parser β} {R : α → β → Prop} (h : σ.uneven) :
    Matches σ P Q (Parser.fail .exhausted) q R :=
  fun _ _ _ _ => .left h

theorem exhausted_right {p : Parser α} {R : α → β → Prop} (h : σ.uneven) :
    Matches σ P Q p (Parser.fail .exhausted) R :=
  fun _ _ _ _ => .right h

theorem reject {fault : SyntaxFault} {span span' : Span} {R : α → β → Prop}
    (h : σ.lhs.span span = σ.rhs.span span') :
    Matches σ P Q (reject fault span) (reject fault span') R :=
  .fail (by simp [Failure.relabel, SyntaxError.relabel, h])

theorem tokens : Matches σ P P tokens tokens fun i j => i = σ.left ∧ j = σ.right :=
  fun _ _ hpos hsizes => .ok ⟨rfl, rfl⟩ hpos hsizes

theorem position : Matches σ P P position position (σ.At P) :=
  fun _ _ hpos hsizes => .ok hpos hpos hsizes

theorem moveTo {p q : Nat} (h : σ.At Q p q) :
    Matches σ P Q (moveTo p) (moveTo q) fun _ _ => True :=
  fun _ _ _ hsizes => .ok trivial h hsizes

theorem ofExcept [Relabel α] {x x' : Except SyntaxError α} (h : σ.Alike x x') :
    Matches σ P P (ofExcept x) (ofExcept x') σ.Alike := by
  cases x with
  | ok a =>
    cases x' with
    | ok a' => exact .pure (Except.ok.inj h)
    | error e' => exact absurd h nofun
  | error e =>
    cases x' with
    | ok a' => exact absurd h nofun
    | error e' => exact .fail (congrArg Failure.error (Except.error.inj h))

theorem ofReading {x x' : Except Failure α} (h : σ.AlikeReading x x') :
    Matches σ P P (ofReading x) (ofReading x') Eq := by
  cases x with
  | ok a =>
    cases x' with
    | ok a' => exact .pure (Except.ok.inj h)
    | error e' => exact absurd h nofun
  | error e =>
    cases x' with
    | ok a' => exact absurd h nofun
    | error e' => exact .fail (Except.error.inj h)

theorem unexpectedEnd (σ : Simulation) :
    (Failure.error ⟨.unexpectedEnd, σ.left.lastSpan⟩).relabel σ.lhs =
      (Failure.error ⟨.unexpectedEnd, σ.right.lastSpan⟩).relabel σ.rhs := by
  simp [Failure.relabel, SyntaxError.relabel, σ.last]

theorem current :
    Matches σ P .within current current fun t t' => Token.Alike σ.lhs σ.rhs t t' := by
  intro s t hpos hsizes
  rw [run_current, run_current]
  obtain ⟨hwithin, ⟨hx, hy⟩ | ⟨u, v, hx, hy, halike, -⟩⟩ := σ.skip_at true hpos (.inr rfl)
  · rw [hx, hy]
    exact .error (unexpectedEnd σ) hsizes
  · rw [hx, hy]
    exact .ok halike hwithin hsizes

theorem settle : Matches σ P .within settle settle (σ.At .within) :=
  current.bind fun _ _ _ => position

theorem advance :
    Matches σ P .within advance advance fun t t' => Token.Alike σ.lhs σ.rhs t t' := by
  intro s t hpos hsizes
  rw [run_advance, run_advance]
  obtain ⟨hwithin, ⟨hx, hy⟩ | ⟨u, v, hx, hy, halike, hstop⟩⟩ := σ.skip_at true hpos (.inr rfl)
  · rw [hx, hy]
    exact .error (unexpectedEnd σ) hsizes
  · rw [hx, hy]
    exact .ok halike (σ.step hwithin hx hy halike.kind hstop) hsizes

theorem expect {k : Kind} :
    Matches σ P .within (expect k) (expect k) fun t t' =>
      Token.Alike σ.lhs σ.rhs t t' ∧ t.kind = k := by
  refine advance.bind fun t t' h => ?_
  rw [← h.kind]
  split
  · rename_i hk
    exact .pure ⟨h, hk⟩
  · exact .reject h.span

theorem acceptNext {k : Kind} :
    Matches σ P .within (acceptNext k) (acceptNext k)
      (Option.Rel fun t t' => Token.Alike σ.lhs σ.rhs t t') := by
  intro s t hpos hsizes
  rw [run_acceptNext, run_acceptNext]
  obtain ⟨hwithin, ⟨hx, hy⟩ | ⟨u, v, hx, hy, halike, hstop⟩⟩ := σ.skip_at true hpos (.inr rfl)
  · rw [hx, hy]
    exact .error (unexpectedEnd σ) hsizes
  · rw [hx, hy]
    dsimp only
    rw [← halike.kind]
    split
    · exact .ok (.some halike) (σ.step hwithin hx hy halike.kind hstop) hsizes
    · exact .ok .none hwithin hsizes

theorem acceptAt {lines : Bool} {ks : List Kind} (hlines : P = .within ∨ lines = true)
    (hks : ∀ k ∈ ks, k.isSpace = false) :
    Matches σ P P (accept lines ks) (accept lines ks)
      (Option.Rel fun t t' => Token.Alike σ.lhs σ.rhs t t' ∧ t.kind ∈ ks) := by
  refine tokens.bind fun i j h => ?_
  obtain ⟨rfl, rfl⟩ := h
  refine position.bind fun p q hpos => ?_
  dsimp only
  obtain ⟨hwithin, ⟨hx, hy⟩ | ⟨u, v, hx, hy, halike, -⟩⟩ := σ.skip_at lines hpos hlines
  · rw [hx, hy]
    exact .pure .none
  · rw [hx, hy]
    dsimp only
    rw [← halike.kind]
    split
    · rename_i hk
      have hstep := σ.step hwithin hx hy halike.kind (hks u.kind hk)
      exact (moveTo (.of_within hstep)).bind fun _ _ _ => .pure (.some ⟨halike, hk⟩)
    · exact .pure .none

theorem accept {lines : Bool} {ks : List Kind} (hks : ∀ k ∈ ks, k.isSpace = false) :
    Matches σ .within .within (accept lines ks) (accept lines ks)
      (Option.Rel fun t t' => Token.Alike σ.lhs σ.rhs t t' ∧ t.kind ∈ ks) :=
  acceptAt (.inl rfl) hks

theorem comes_eq (σ : Simulation) {lines : Bool} {ks : List Kind}
    (hks : ∀ k ∈ ks, k.isSpace = false) {p q : Nat} (hpos : σ.At P p q)
    (hlines : P = .within ∨ lines = true) :
    comes σ.left lines ks p = comes σ.right lines ks q := by
  induction ks generalizing P p q with
  | nil => rfl
  | cons k ks ih =>
    rw [comes, comes]
    obtain ⟨hwithin, ⟨hx, hy⟩ | ⟨u, v, hx, hy, halike, -⟩⟩ := σ.skip_at lines hpos hlines
    · rw [hx, hy]
    · rw [hx, hy]
      dsimp only
      rw [← halike.kind]
      by_cases hk : u.kind = k
      · have hspace : u.kind.isSpace = false := by
          rw [hk]
          exact hks k List.mem_cons_self
        have hstep := σ.step hwithin hx hy halike.kind hspace
        have hrest := ih (P := .within) (fun k' hk' => hks k' (List.mem_cons_of_mem k hk')) hstep
          (.inl rfl)
        rw [hrest]
      · simp [hk]

theorem aheadAt {lines : Bool} {ks : List Kind} (hlines : P = .within ∨ lines = true)
    (hks : ∀ k ∈ ks, k.isSpace = false) :
    Matches σ P P (ahead lines ks) (ahead lines ks) Eq := by
  refine tokens.bind fun i j h => ?_
  obtain ⟨rfl, rfl⟩ := h
  exact position.bind fun p q hpos => .pure (comes_eq σ hks hpos hlines)

theorem ahead {lines : Bool} {ks : List Kind} (hks : ∀ k ∈ ks, k.isSpace = false) :
    Matches σ .within .within (ahead lines ks) (ahead lines ks) Eq :=
  aheadAt (.inl rfl) hks

theorem atLineEnd : Matches σ .within .within atLineEnd atLineEnd Eq := by
  refine tokens.bind fun i j h => ?_
  obtain ⟨rfl, rfl⟩ := h
  refine position.bind fun p q hpos => ?_
  obtain ⟨-, ⟨hx, hy⟩ | ⟨u, v, hx, hy, halike, -⟩⟩ := σ.skip_at false hpos (.inl rfl)
  · rw [hx, hy]
    exact .pure rfl
  · rw [hx, hy]
    exact .pure (by rw [halike.kind])

theorem endLine : Matches σ .within .anywhere endLine endLine fun _ _ => True := by
  refine tokens.bind fun i j h => ?_
  obtain ⟨rfl, rfl⟩ := h
  refine position.bind fun p q hpos => ?_
  obtain ⟨hwithin, hnext⟩ := σ.skip_at false hpos (.inl rfl)
  refine (moveTo (Q := .within) hwithin).bind fun _ _ _ => ?_
  rcases hnext with ⟨hx, hy⟩ | ⟨u, v, hx, hy, halike, -⟩
  · rw [hx, hy]
    exact loosen (.pure trivial)
  · rw [hx, hy]
    dsimp only
    rw [← halike.kind]
    split
    · rename_i hk
      exact moveTo (σ.newline hwithin hx hy halike.kind hk)
    · exact .reject halike.span

theorem lineStart :
    Matches σ .anywhere .anywhere lineStart lineStart
      (Option.Rel fun x y => σ.lhs.span x.1.span = σ.rhs.span y.1.span ∧ x.2 = y.2) := by
  intro s t hpos hsizes
  obtain ⟨hnext, hrel⟩ := σ.lines hpos
  rw [run_lineStart, run_lineStart]
  rcases Simulation.rel_cases hrel with ⟨hx, hy⟩ | ⟨u, v, hx, hy, hspan, htext⟩
  · rw [hx, hy]
    exact .ok .none hnext hsizes
  · rw [hx, hy]
    dsimp only
    rw [← htext]
    split
    · exact .ok (.some ⟨hspan, rfl⟩) hnext hsizes
    · exact .error rfl hsizes

theorem lineIndent : Matches σ .anywhere .anywhere lineIndent lineIndent Eq := by
  refine lineStart.bind fun o o' ho => .pure ?_
  cases ho with
  | none => rfl
  | some h => exact congrArg some h.2

theorem acceptAtIndent {indent : Indent} {k : Kind} (hk : k.isSpace = false) :
    Matches σ .anywhere .anywhere (acceptAtIndent indent k) (acceptAtIndent indent k)
      (Option.Rel fun _ _ => True) := by
  refine position.bind fun p q hpos => lineIndent.bind fun i j hij => ?_
  obtain rfl : i = j := hij
  split
  · refine (acceptAt (.inr rfl) (by simpa using hk)).bind fun o o' ho => ?_
    cases ho with
    | some _ => exact .pure (.some trivial)
    | none => exact (moveTo hpos).bind fun _ _ _ => .pure .none
  · exact (moveTo hpos).bind fun _ _ _ => .pure .none

theorem allocate [ToNode α] [ToNode β] {span span' : Span} {build : Mark → α} {build' : Mark → β}
    {R : α → β → Prop} (hspan : σ.lhs.span span = σ.rhs.span span')
    (h : ∀ m m', σ.Alike m m' → R (build m) (build' m')) :
    Matches σ P P (allocate span build) (allocate span' build') R := by
  intro s t hpos hsizes
  refine .ok (h _ _ ?_) hpos ?_
  · simp [Mark.relabel, hspan, σ.index hsizes]
  · simpa using σ.sizes_succ hsizes

theorem make [ToNode α] [ToNode β] {O : Spot} {start start' : Nat} {build : Mark → α}
    {build' : Mark → β} {R : α → β → Prop} (hstart : σ.At O start start')
    (h : ∀ m m', σ.Alike m m' → R (build m) (build' m')) :
    Matches σ P P (make start build) (make start' build') R := by
  refine tokens.bind fun i j hinput => ?_
  obtain ⟨rfl, rfl⟩ := hinput
  exact position.bind fun p q hpos => allocate (σ.span hstart.loosen hpos.loosen) h

theorem attempt {p : Parser α} {q : Parser β} {R : α → β → Prop} (hp : Matches σ P P p q R) :
    Matches σ P P (attempt p) (attempt q) (Option.Rel R) := by
  intro s t hpos hsizes
  have h := hp s t hpos hsizes
  unfold Parser.attempt
  dsimp only
  generalize p.run σ.left s = x at h
  generalize q.run σ.right t = y at h
  cases h with
  | ok value pos sizes => exact .ok (.some value) pos sizes
  | left h => exact .left h
  | right h => exact .right h
  | error failure sizes =>
    rename_i f g _ _
    cases f <;> cases g <;>
      first
      | exact .ok .none hpos sizes
      | exact .error failure sizes
      | exact absurd failure nofun

section Repetition

variable {ρ τ : Type} {I : ρ → τ → Prop} {R : α → β → Prop}

theorem iterate {step : ρ → Parser (ρ ⊕ α)} {step' : τ → Parser (τ ⊕ β)}
    (hstep : ∀ s t, I s t → Matches σ P P (step s) (step' t) (Sum.LiftRel I R)) {n m : Nat}
    (hnm : n = m ∨ σ.uneven) {s : ρ} {t : τ} (hs : I s t) :
    Matches σ P P (iterate step n s) (iterate step' m t) R := by
  induction n generalizing m s t with
  | zero =>
    rcases hnm with rfl | huneven
    · exact .fail rfl
    · exact exhausted_left huneven
  | succ n ih =>
    cases m with
    | zero =>
      rcases hnm with h | huneven
      · exact absurd h nofun
      · exact exhausted_right huneven
    | succ m =>
      have hnm' : n = m ∨ σ.uneven := hnm.imp_left Nat.succ.inj
      refine (hstep s t hs).bind fun x y hxy => ?_
      cases hxy with
      | inl hs' => exact ih hnm' hs'
      | inr ha => exact .pure ha

theorem repeating {step : ρ → Parser (ρ ⊕ α)} {step' : τ → Parser (τ ⊕ β)} {s : ρ} {t : τ}
    (I : ρ → τ → Prop) (hs : I s t)
    (hstep : ∀ s t, I s t → Matches σ P P (step s) (step' t) (Sum.LiftRel I R)) :
    Matches σ P P (repeating step s) (repeating step' t) R := by
  refine tokens.bind fun i j h => ?_
  obtain ⟨rfl, rfl⟩ := h
  exact iterate hstep σ.allowance hs

theorem foldWhile {step : ρ → Parser (Option ρ)} {step' : τ → Parser (Option τ)} {s : ρ} {t : τ}
    (I : ρ → τ → Prop) (hs : I s t)
    (hstep : ∀ s t, I s t → Matches σ P P (step s) (step' t) (Option.Rel I)) :
    Matches σ P P (foldWhile step s) (foldWhile step' t) I := by
  refine repeating I hs fun s t hs => (hstep s t hs).bind fun o o' ho => ?_
  cases ho with
  | some hs' => exact .pure (.inl hs')
  | none => exact .pure (.inr hs)

theorem many [Relabel γ] {next next' : Parser (Option γ)}
    (h : Matches σ P P next next' (Option.Rel σ.Alike)) :
    Matches σ P P (many next) (many next') σ.Alike := by
  refine (foldWhile σ.Alike rfl fun found found' hfound => ?_).bind fun found found' hfound => ?_
  · refine h.bind fun o o' ho => ?_
    cases ho with
    | some ha =>
      exact .pure (.some (congrArg₂ List.cons ha hfound))
    | none => exact .pure .none
  · refine .pure ?_
    simpa [List.map_reverse] using hfound

theorem afterEach [Relabel γ] {lines : Bool} {separator : Kind} (hs : separator.isSpace = false)
    {item item' : Parser γ} (h : Matches σ .within .within item item' σ.Alike) :
    Matches σ .within .within (afterEach lines separator item) (afterEach lines separator item')
      σ.Alike := by
  refine many ((accept (by simpa using hs)).bind fun o o' ho => ?_)
  cases ho with
  | some _ => exact h.bind fun a b hab => .pure (.some hab)
  | none => exact .pure .none

theorem untilClose {close : Kind} {started : Bool} {item : ρ → Parser ρ} {item' : τ → Parser τ}
    {s : ρ} {t : τ} (I : ρ → τ → Prop) (hs : I s t)
    (hitem : ∀ s t, I s t → Matches σ .within .within (item s) (item' t) I) :
    Matches σ .within .within (untilClose close started item s) (untilClose close started item' t)
      I := by
  refine (foldWhile (fun x y => x.1 = y.1 ∧ I x.2 y.2) ⟨rfl, hs⟩ fun x y hxy => ?_).bind
    fun x y hxy => .pure hxy.2
  obtain ⟨started, s⟩ := x
  obtain ⟨started', t⟩ := y
  obtain ⟨hstarted, hst⟩ := hxy
  obtain rfl : started = started' := hstarted
  refine acceptNext.bind fun o o' ho => ?_
  cases ho with
  | some _ => exact .pure .none
  | none =>
    have hnext : Matches σ .within .within (do return some (true, ← item s))
        (do return some (true, ← item' t)) (Option.Rel fun x y => x.1 = y.1 ∧ I x.2 y.2) :=
      (hitem s t hst).bind fun _ _ h => .pure (.some ⟨rfl, h⟩)
    dsimp only
    split
    · exact expect.bind fun _ _ _ => hnext
    · exact hnext

theorem listUntil [Relabel γ] {close : Kind} {item item' : Parser γ}
    (h : Matches σ .within .within item item' σ.Alike) :
    Matches σ .within .within (listUntil close item) (listUntil close item') σ.Alike := by
  refine (untilClose σ.Alike rfl fun found found' hfound => ?_).bind fun found found' hfound => ?_
  · exact h.bind fun a b hab => .pure (congrArg₂ List.cons hab hfound)
  · refine .pure ?_
    simpa [List.map_reverse] using hfound

end Repetition

end Matches

end Parser

end Whiley
