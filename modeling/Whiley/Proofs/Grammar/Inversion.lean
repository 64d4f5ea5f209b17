import Whiley.Proofs.Grammar.Simulation

namespace Whiley

namespace Input

theorem skip_skip (input : Input) (lines : Bool) (i : Nat) :
    input.skip lines (input.skip lines i) = input.skip lines i := by
  generalize hj : input.skip lines i = j
  rw [skip]
  cases hfuel : input.tokens.size - j with
  | zero => rfl
  | succ fuel =>
    rw [skipFrom]
    cases ht : input.tokens[j]? with
    | none => rfl
    | some t =>
      subst hj
      simp [input.skip_stops ht]
end Input

namespace Parser

variable {α β : Type}

theorem bind_assoc {γ : Type} (p : Parser α) (f : α → Parser β) (g : β → Parser γ) :
    p >>= f >>= g = p >>= fun a => f a >>= g := by
  have hruns : (p >>= f >>= g).run = (p >>= fun a => f a >>= g).run := by
    funext input s
    simp only [run_bind]
    cases p.run input s <;> rfl
  cases hleft : p >>= f >>= g
  cases hright : p >>= fun a => f a >>= g
  rw [hleft, hright] at hruns
  cases hruns
  rfl

theorem run_accept (input : Input) (lines : Bool) (ks : List Kind) (s : Reading) :
    (accept lines ks).run input s =
      match input.tokens[input.skip lines s.pos]? with
      | some t =>
        if t.kind ∈ ks then .ok (some t) { s with pos := input.skip lines s.pos + 1 }
        else .ok none s
      | none => .ok none s := by
  simp only [accept, run_bind, tokens, position]
  cases input.tokens[input.skip lines s.pos]? with
  | none => rfl
  | some t =>
    dsimp only
    split <;> rfl

theorem run_endLine (input : Input) (s : Reading) :
    endLine.run input s =
      match input.tokens[input.skip false s.pos]? with
      | some t =>
        if t.kind = .newline then .ok () { s with pos := input.skip false s.pos + 1 }
        else .error (.error ⟨.expectingLineEnd, t.span⟩) { s with pos := input.skip false s.pos }
      | none => .ok () { s with pos := input.skip false s.pos } := by
  simp only [endLine, run_bind, tokens, position, moveTo]
  cases input.tokens[input.skip false s.pos]? with
  | none => rfl
  | some t =>
    dsimp only
    split <;> rfl

section Inversion

variable {input : Input} {s s' : Reading}

theorem bind_ok {p : Parser α} {f : α → Parser β} {b : β} (h : (p >>= f).run input s = .ok b s') :
    ∃ a t, p.run input s = .ok a t ∧ (f a).run input t = .ok b s' := by
  rw [run_bind] at h
  cases hp : p.run input s with
  | ok a t =>
    rw [hp] at h
    exact ⟨a, t, rfl, h⟩
  | error e t =>
    rw [hp] at h
    cases h

theorem run_bind_ok {p : Parser α} {f : α → Parser β} {a : α} (h : p.run input s = .ok a s') :
    (p >>= f).run input s = (f a).run input s' := by
  rw [run_bind, h]

theorem pure_ok {a b : α} (h : (pure a : Parser α).run input s = .ok b s') : a = b ∧ s = s' := by
  rw [run_pure] at h
  exact Result.ok.inj h

theorem expect_ok {k : Kind} {t : Token} :
    (expect k).run input s = .ok t s' ↔
      input.tokens[input.skip true s.pos]? = some t ∧ t.kind = k ∧
        s' = ⟨input.skip true s.pos + 1, s.arena⟩ := by
  rw [expect, run_bind, run_advance]
  cases input.tokens[input.skip true s.pos]? with
  | none => simp
  | some u =>
    dsimp only
    split
    · rename_i hk
      rw [run_pure]
      constructor
      · intro h
        obtain ⟨rfl, rfl⟩ := Result.ok.inj h
        exact ⟨rfl, hk, rfl⟩
      · rintro ⟨h, -, rfl⟩
        rw [Option.some.inj h]
    · rename_i hk
      constructor
      · intro h
        cases h
      · rintro ⟨h, hk', -⟩
        rw [Option.some.inj h] at hk
        exact absurd hk' hk

theorem acceptNext_none {k : Kind} (h : (acceptNext k).run input s = .ok none s') :
    s' = ⟨input.skip true s.pos, s.arena⟩ := by
  rw [run_acceptNext] at h
  cases ht : input.tokens[input.skip true s.pos]? with
  | none =>
    rw [ht] at h
    cases h
  | some t =>
    rw [ht] at h
    dsimp only at h
    split at h
    · cases h
    · exact (Result.ok.inj h).2.symm

theorem accept_some {lines : Bool} {ks : List Kind} {t : Token}
    (h : (accept lines ks).run input s = .ok (some t) s') :
    input.tokens[input.skip lines s.pos]? = some t ∧ t.kind ∈ ks ∧
      s' = ⟨input.skip lines s.pos + 1, s.arena⟩ := by
  simp only [accept, run_bind, tokens, position] at h
  cases ht : input.tokens[input.skip lines s.pos]? with
  | none =>
    rw [ht] at h
    cases h
  | some u =>
    rw [ht] at h
    by_cases hk : u.kind ∈ ks
    · simp only [hk, if_true] at h
      obtain ⟨hu, rfl⟩ := Result.ok.inj h
      obtain rfl := Option.some.inj hu
      exact ⟨rfl, hk, rfl⟩
    · simp only [hk, if_false] at h
      cases h

theorem accept_none {lines : Bool} {ks : List Kind}
    (h : (accept lines ks).run input s = .ok none s') : s' = s := by
  rw [run_accept] at h
  split at h
  · split at h
    · cases h
    · exact (Result.ok.inj h).2.symm
  · exact (Result.ok.inj h).2.symm

theorem atLineEnd_ok {b : Bool} (h : atLineEnd.run input s = .ok b s') : s' = s := by
  simp only [atLineEnd, run_bind, tokens, position] at h
  cases ht : input.tokens[input.skip false s.pos]? with
  | none =>
    rw [ht] at h
    exact (pure_ok h).2.symm
  | some t =>
    rw [ht] at h
    exact (pure_ok h).2.symm

end Inversion

end Parser

end Whiley
