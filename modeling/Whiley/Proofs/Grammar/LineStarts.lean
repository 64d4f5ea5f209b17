import Whiley.Proofs.Grammar.Nesting

namespace Whiley.Input

variable {input : Input} {i j : Nat} {t : Token}

def BeginsLine (input : Input) (i : Nat) : Prop :=
  i = 0 ∨ ∃ j t, i = j + 1 ∧ input.tokens[j]? = some t ∧ t.kind = .newline

/-- Between lines: there is no more text, or a line begins. -/
def AtLine (input : Input) (i : Nat) : Prop :=
  input.tokens[i]? = none ∨ input.BeginsLine i

/-- The first token of its line that is no space is at `i`, and the line has the given indent. -/
def Heads (input : Input) (indent : Indent) (i : Nat) : Prop :=
  input.Solid i ∧ ∃ k t, input.BeginsLine k ∧ input.tokens[k]? = some t ∧ t.kind = .indent ∧
    Indent.ofText t.text = .ok indent ∧ input.Skipped false k i

theorem AtLine.begins (h : input.AtLine i) (ht : input.tokens[i]? = some t) :
    input.BeginsLine i := by
  rcases h with hnone | hbegins
  · rw [hnone] at ht
    cases ht
  · exact hbegins

namespace PastLines

theorem atLine (h : input.PastLines i j) (hi : input.AtLine i) : input.AtLine j := by
  induction h with
  | ends h => exact .inl h
  | stay h ht => exact hi
  | blank h ht _ ih => exact ih (.inr (.inr ⟨_, _, rfl, h, ht⟩))

theorem solid (h : input.PastLines i j) (ht : input.tokens[j]? = some t) :
    input.Solid (input.skip false j) := by
  obtain ⟨m, hm, hagain⟩ : ∃ m, m = j ∧ input.PastLines j m := ⟨j, rfl, h.again⟩
  cases hagain with
  | ends hnone =>
    rw [hm, ht] at hnone
    cases hnone
  | @stay _ u hu hk =>
    refine ⟨u, hu, ?_⟩
    have hstops : u.kind.isLineSpace = false := input.skip_stops hu
    simp [Kind.isSpace, hstops, hk]
  | blank hu hk rest =>
    have hle := rest.skipped.1
    have hskip := input.le_skip false j
    omega

end PastLines

theorem skip_skipLines (ht : input.tokens[input.skipLines i]? = some t) :
    input.skip true (input.skipLines i) = input.skip false (input.skipLines i) :=
  ((input.pastLines_skipLines i).solid ht).skip_eq (input.le_skip false _)
    (input.blank_skip false _)

theorem heads_skipLines {indent : Indent} (hi : input.AtLine i)
    (ht : input.tokens[input.skipLines i]? = some t) (hk : t.kind = .indent)
    (hindent : Indent.ofText t.text = .ok indent) :
    input.Heads indent (input.skip true (input.skipLines i)) := by
  have hline := (input.pastLines_skipLines i).atLine hi
  rw [skip_skipLines ht]
  exact ⟨(input.pastLines_skipLines i).solid ht, _, t, hline.begins ht, ht, hk, hindent,
    input.skipped_skip false _⟩

theorem le_skipLines (input : Input) (i : Nat) : i ≤ input.skipLines i :=
  (input.pastLines_skipLines i).skipped.1

end Whiley.Input
