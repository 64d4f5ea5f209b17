import Whiley.Proofs.Grammar.Inversion

namespace Whiley.Input

variable {input : Input} {lines : Bool} {i j k : Nat} {t : Token}

theorem getElem?_ofTokens (tokens : List Token) (i : Nat) :
    (ofTokens tokens).tokens[i]? = tokens[i]? :=
  List.getElem?_toArray

theorem isSpace_of_skips {k : Kind} (h : skips lines k) : k.isSpace := by
  cases lines with
  | true => exact h
  | false => exact Kind.isLineSpace_isSpace h

theorem skip_of_stop (ht : input.tokens[i]? = some t) (hskips : skips lines t.kind = false) :
    input.skip lines i = i := by
  rw [skip]
  cases input.tokens.size - i with
  | zero => rfl
  | succ fuel => simp [skipFrom, ht, hskips]

theorem skip_of_none (h : input.tokens[i]? = none) : input.skip lines i = i := by
  rw [skip, Nat.sub_eq_zero_of_le (Array.getElem?_eq_none_iff.mp h)]
  rfl

theorem skip_succ (ht : input.tokens[i]? = some t) (hskips : skips lines t.kind) :
    input.skip lines i = input.skip lines (i + 1) := by
  obtain ⟨hi, -⟩ := Array.getElem?_eq_some_iff.mp ht
  have hfuel : input.tokens.size - i = input.tokens.size - (i + 1) + 1 := by omega
  rw [skip, skip, hfuel, skipFrom, ht]
  exact if_pos hskips

/-- The tokens from `i` on to before `j` are skipped. -/
def Skipped (input : Input) (lines : Bool) (i j : Nat) : Prop :=
  i ≤ j ∧ ∀ k, i ≤ k → k < j → ∃ t, input.tokens[k]? = some t ∧ skips lines t.kind

theorem Skipped.refl : input.Skipped lines i i :=
  ⟨Nat.le_refl i, fun k hik hki => absurd hik (by omega)⟩

theorem Skipped.trans (h : input.Skipped lines i j) (h' : input.Skipped lines j k) :
    input.Skipped lines i k := by
  refine ⟨Nat.le_trans h.1 h'.1, fun m him hmk => ?_⟩
  rcases Nat.lt_or_ge m j with hmj | hjm
  · exact h.2 m him hmj
  · exact h'.2 m hjm hmk

theorem Skipped.wide (h : input.Skipped lines i j) : input.Skipped true i j := by
  refine ⟨h.1, fun k hik hkj => ?_⟩
  obtain ⟨t, ht, hskips⟩ := h.2 k hik hkj
  exact ⟨t, ht, isSpace_of_skips hskips⟩

theorem Skipped.token (ht : input.tokens[i]? = some t) (hskips : skips lines t.kind) :
    input.Skipped lines i (i + 1) := by
  refine ⟨Nat.le_succ i, fun k hik hki => ⟨t, ?_, hskips⟩⟩
  rw [show k = i by omega, ht]

theorem Skipped.skip_eq (h : input.Skipped lines i j) :
    input.skip lines j = input.skip lines i := by
  obtain ⟨hij, hskips⟩ := h
  induction hij with
  | refl => rfl
  | @step j hij ih =>
    obtain ⟨t, ht, hskip⟩ := hskips j hij (Nat.lt_succ_self j)
    rw [← skip_succ ht hskip]
    exact ih fun k hik hkj => hskips k hik (by omega)

theorem Skipped.trimEnd_eq (h : input.Skipped lines i j) : input.trimEnd j = input.trimEnd i := by
  obtain ⟨hij, hskips⟩ := h
  induction hij with
  | refl => rfl
  | @step j hij ih =>
    obtain ⟨t, ht, hskip⟩ := hskips j hij (Nat.lt_succ_self j)
    rw [trimEnd, ht]
    simp only [isSpace_of_skips hskip, if_true]
    exact ih fun k hik hkj => hskips k hik (by omega)

theorem skipped_skipFrom (lines : Bool) (fuel i : Nat) :
    input.Skipped lines i (input.skipFrom lines fuel i) := by
  induction fuel generalizing i with
  | zero => exact .refl
  | succ fuel ih =>
    rw [skipFrom]
    split
    · rename_i t ht
      split
      · rename_i hskips
        exact (Skipped.token ht hskips).trans (ih (i + 1))
      · exact .refl
    · exact .refl

theorem skipped_skip (input : Input) (lines : Bool) (i : Nat) :
    input.Skipped lines i (input.skip lines i) :=
  skipped_skipFrom lines _ i

/-- From `i` past blank lines and lines of comments, to `j`. -/
inductive PastLines (input : Input) : Nat → Nat → Prop
  | ends {m} (h : input.tokens[input.skip false m]? = none) : PastLines input m (input.skip false m)
  | stay {m u} (h : input.tokens[input.skip false m]? = some u) (hu : u.kind ≠ .newline) :
    PastLines input m m
  | blank {m n u} (h : input.tokens[input.skip false m]? = some u) (hu : u.kind = .newline)
    (rest : PastLines input (input.skip false m + 1) n) : PastLines input m n

theorem pastLines_skipLinesFrom {fuel : Nat} (hfuel : input.tokens.size + 1 ≤ i + fuel) :
    input.PastLines i (input.skipLinesFrom fuel i) := by
  have hle := (input.skipped_skip false i).1
  induction fuel generalizing i with
  | zero =>
    have hnone : input.tokens[i]? = none := Array.getElem?_eq_none_iff.mpr (by omega)
    have hskip : input.skip false i = i := skip_of_none hnone
    have hends : input.PastLines i (input.skip false i) := .ends (by rw [hskip, hnone])
    rwa [hskip] at hends
  | succ fuel ih =>
    rw [skipLinesFrom]
    cases ht : input.tokens[input.skip false i]? with
    | none => exact .ends ht
    | some t =>
      dsimp only
      split
      · rename_i hk
        exact .blank ht hk (ih (by omega) (input.skipped_skip false _).1)
      · rename_i hk
        exact .stay ht hk

theorem pastLines_skipLines (input : Input) (i : Nat) : input.PastLines i (input.skipLines i) :=
  pastLines_skipLinesFrom (by omega)

namespace PastLines

theorem unique (h : input.PastLines i j) (h' : input.PastLines i k) : j = k := by
  induction h with
  | ends h =>
    cases h' with
    | ends => rfl
    | stay ht => exact absurd (h.symm.trans ht) nofun
    | blank ht => exact absurd (h.symm.trans ht) nofun
  | stay h ht =>
    cases h' with
    | ends h' => exact absurd (h.symm.trans h') nofun
    | stay => rfl
    | blank h' ht' => exact absurd (Option.some.inj (h.symm.trans h') ▸ ht') ht
  | blank h ht _ ih =>
    cases h' with
    | ends h' => exact absurd (h.symm.trans h') nofun
    | stay h' ht' => exact absurd ht (Option.some.inj (h'.symm.trans h) ▸ ht')
    | blank _ _ rest => exact ih rest

theorem eq (h : input.PastLines i j) : input.skipLines i = j :=
  (input.pastLines_skipLines i).unique h

theorem skipped (h : input.PastLines i j) : input.Skipped true i j := by
  induction h with
  | ends => exact (input.skipped_skip false _).wide
  | stay => exact .refl
  | blank h ht _ ih =>
    refine (input.skipped_skip false _).wide.trans ((Skipped.token h ?_).trans ih)
    simp [skips, ht, Kind.isSpace]

theorem again (h : input.PastLines i j) : input.PastLines j j := by
  induction h with
  | @ends i h =>
    have hskip := input.skip_skip false i
    have hends : input.PastLines _ (input.skip false (input.skip false i)) := .ends (by rw [hskip, h])
    rwa [hskip] at hends
  | stay h ht => exact .stay h ht
  | blank _ _ _ ih => exact ih

end PastLines

theorem skipLines_skipLines (input : Input) (i : Nat) :
    input.skipLines (input.skipLines i) = input.skipLines i :=
  (input.pastLines_skipLines i).again.eq

end Whiley.Input
