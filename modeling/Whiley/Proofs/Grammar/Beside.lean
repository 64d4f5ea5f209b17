import Whiley.Proofs.Grammar.Appended
import Whiley.Proofs.Grammar.Delivers

namespace Whiley

open Whiley.Parser Whiley.Grammar

/-- Forgets where nodes stand and how they are numbered. -/
def markless : Relabelling :=
  { spanless with index := fun _ => 0 }

theorem Token.alike_beside (d d' : Nat) (t : Token) :
    Token.Alike markless markless (t.moved d) (t.moved d') :=
  ⟨rfl, rfl, fun _ _ => rfl, fun _ => rfl⟩

def Simulation.beside (ts us vs : List Token) (d d' : Nat) : Simulation where
  left := (Input.ofTokens (ts ++ vs.map (Token.moved d))).allowing
    (Input.ofTokens (us ++ vs.map (Token.moved d'))).allowance
  right := .ofTokens (us ++ vs.map (Token.moved d'))
  lhs := markless
  rhs := markless
  within p q := ∃ i, p = ts.length + i ∧ q = us.length + i
  anywhere p q := ∃ i, p = ts.length + i ∧ q = us.length + i
  sizes _ _ := True
  uneven := False
  anywhere_of_within := id
  allowance := .inl rfl
  index _ := rfl
  sizes_succ := id
  span _ _ := rfl
  last := rfl
  whole := rfl
  skip lines {p q} h := by
    obtain ⟨i, rfl, rfl⟩ : ∃ i, p = ts.length + i ∧ q = us.length + i := by
      cases lines <;> exact h
    rw [Input.skip_allowing, skip_after, skip_after, tokens_after, Input.tokens_allowing, tokens_after]
    refine ⟨⟨_, rfl, rfl⟩, ?_⟩
    cases (Input.ofTokens vs).tokens[(Input.ofTokens vs).skip lines i]? with
    | none => exact .none
    | some t => exact .some (t.alike_beside d d')
  step := by
    rintro _ _ _ _ ⟨i, rfl, rfl⟩ - - - -
    exact ⟨i + 1, rfl, rfl⟩
  newline := by
    rintro _ _ _ _ ⟨i, rfl, rfl⟩ - - - -
    exact ⟨i + 1, rfl, rfl⟩
  lines := by
    rintro _ _ ⟨i, rfl, rfl⟩
    rw [Input.skipLines_allowing, skipLines_after, skipLines_after, indentAt_after]
    refine ⟨⟨_, rfl, rfl⟩, ?_⟩
    change Option.Rel _ ((Input.ofTokens (ts ++ vs.map (Token.moved d))).indentAt _) _
    rw [indentAt_after]
    cases (Input.ofTokens vs).indentAt ((Input.ofTokens vs).skipLines i) with
    | none => exact .none
    | some t => exact .some ⟨rfl, rfl⟩

section Beside

variable {ts us vs : List Token} {d d' i bound bound' depth depth' : Nat} {s : Scope} {lines : Bool}
  {e : Expr} {arena : Arena Node} {u : Reading}

theorem expression_beside (hlength : ts.length ≤ us.length) (hbound : bound ≤ bound')
    (hdepth : depth ≤ depth')
    (h : ((ExprParsers.ofDepth (.ofDepth bound) depth).expression s lines).run
      (.ofTokens (ts ++ vs.map (Token.moved d))) ⟨ts.length + i, arena⟩ = .ok e u) :
    ∃ j, u.pos = ts.length + j ∧
      Delivers (.ofTokens (us ++ vs.map (Token.moved d'))) (us.length + i)
        ((ExprParsers.ofDepth (.ofDepth bound') depth').expression s lines) (us.length + j)
          fun x => x.relabel markless = e.relabel markless := by
  have hallowance : (Input.ofTokens (ts ++ vs.map (Token.moved d))).allowance ≤
      (Input.ofTokens (us ++ vs.map (Token.moved d'))).allowance := by
    simpa [Input.ofTokens] using hlength
  let x := Extension.patient _ hallowance
  let σ := Simulation.beside ts us vs d d'
  -- first with more patience and more depth, then after the other stream
  have hfollowing := ExprParsers.ofDepth_following (x := x) (TypeParsers.ofDepth_following hbound) hdepth
  obtain ⟨t, hrun, -, hplace, -⟩ := (ExprParsers.expression_expressed hfollowing _).of_value
    (t := ⟨ts.length + i, arena⟩) rfl ⟨rfl, trivial, rfl⟩ h
  have hagree := ExprParsers.ofDepth_agree (σ := σ) (TypeParsers.ofDepth_agree (d := bound') (.inl rfl))
    (d := depth') (.inl rfl)
  have hleft : ((ExprParsers.ofDepth (.ofDepth bound') depth').level .logical s lines).run σ.left
    ⟨ts.length + i, arena⟩ = .ok e t := hrun
  have hbeside : ∀ arena', ∃ j x arena'', t.pos = ts.length + j ∧
      ((ExprParsers.ofDepth (.ofDepth bound') depth').level .logical s lines).run σ.right
        ⟨us.length + i, arena'⟩ = .ok x ⟨us.length + j, arena''⟩ ∧
          x.relabel markless = e.relabel markless := by
    intro arena'
    have houtcome := hagree.level .logical s s lines rfl ⟨ts.length + i, arena⟩
      ⟨us.length + i, arena'⟩ ⟨i, rfl, rfl⟩ trivial
    rw [hleft] at houtcome
    generalize hright : ((ExprParsers.ofDepth (.ofDepth bound') depth').level .logical s lines).run
      σ.right ⟨us.length + i, arena'⟩ = r at houtcome
    cases houtcome with
    | @ok _ y _ v value pos _ =>
      obtain ⟨j, hj, hv⟩ := pos
      refine ⟨j, y, v.arena, hj, ?_, value.symm⟩
      rw [← hv]
    | right h => exact h.elim
  obtain ⟨j, _, _, hj, _⟩ := hbeside arena
  refine ⟨j, hplace.trans hj, fun arena' => ?_⟩
  obtain ⟨l, x, arena'', hl, hright, hx⟩ := hbeside arena'
  obtain rfl : l = j := Nat.add_left_cancel (hl.symm.trans hj)
  exact ⟨x, arena'', hright, hx⟩

theorem endLine_beside
    (h : endLine.run (.ofTokens (ts ++ vs.map (Token.moved d))) ⟨ts.length + i, arena⟩ = .ok () u) :
    ∃ j, u.pos = ts.length + j ∧
      Delivers (.ofTokens (us ++ vs.map (Token.moved d'))) (us.length + i) endLine (us.length + j)
        fun _ => True := by
  rw [run_endLine, skip_after, tokens_after] at h
  unfold Delivers
  simp only [run_endLine, skip_after, tokens_after]
  cases ht : (Input.ofTokens vs).tokens[(Input.ofTokens vs).skip false i]? with
  | none =>
    rw [ht] at h
    obtain ⟨-, rfl⟩ := Result.ok.inj h
    exact ⟨_, rfl, fun arena' => ⟨(), arena', rfl, trivial⟩⟩
  | some t =>
    rw [ht] at h
    dsimp only [Option.map_some] at h ⊢
    split at h
    · rename_i hnewline
      obtain ⟨-, rfl⟩ := Result.ok.inj h
      refine ⟨(Input.ofTokens vs).skip false i + 1, rfl, fun arena' => ⟨(), arena', ?_, trivial⟩⟩
      exact if_pos hnewline
    · cases h

end Beside

end Whiley
