import Whiley.Proofs.Token.Spelling

namespace Whiley

namespace Lexer

/-- Tokens of some characters each, one after the other between two offsets. -/
inductive InOrder : Nat → Nat → List Token → Prop
  | nil {i j} (h : i ≤ j) : InOrder i j []
  | cons {i j t ts} (hi : i ≤ t.start) (ht : t.start < t.stop) (hts : InOrder t.stop j ts) :
    InOrder i j (t :: ts)

namespace InOrder

variable {i j k : Nat} {ts : List Token}

theorem le (h : InOrder i j ts) : i ≤ j := by
  induction h with
  | nil h => exact h
  | cons hi ht hts ih => omega

theorem from_le (h : InOrder i j ts) (hk : k ≤ i) : InOrder k j ts := by
  cases h with
  | nil h => exact .nil (Nat.le_trans hk h)
  | cons hi ht hts => exact .cons (Nat.le_trans hk hi) ht hts

theorem mem (h : InOrder i j ts) : ∀ t ∈ ts, i ≤ t.start ∧ t.start < t.stop ∧ t.stop ≤ j := by
  induction h with
  | nil h => exact nofun
  | cons hi ht hts ih =>
    refine List.forall_mem_cons.mpr ⟨⟨hi, ht, hts.le⟩, fun u hu => ?_⟩
    obtain ⟨hstart, hstop⟩ := ih u hu
    exact ⟨by omega, hstop⟩

theorem pairwise (h : InOrder i j ts) : ts.Pairwise fun t u => t.stop ≤ u.start := by
  induction h with
  | nil h => exact .nil
  | cons hi ht hts ih => exact .cons (fun u hu => (hts.mem u hu).1) ih

section Places

variable {l : Nat} {t u : Token} (h : InOrder i j ts)

include h

theorem stop_le_start (hkl : k < l) (ht : ts[k]? = some t) (hu : ts[l]? = some u) :
    t.stop ≤ u.start := by
  obtain ⟨hk, rfl⟩ := List.getElem?_eq_some_iff.mp ht
  obtain ⟨hl, rfl⟩ := List.getElem?_eq_some_iff.mp hu
  exact List.pairwise_iff_getElem.mp h.pairwise k l hk hl hkl

theorem start_le_start (hkl : k ≤ l) (ht : ts[k]? = some t) (hu : ts[l]? = some u) :
    t.start ≤ u.start := by
  rcases Nat.lt_or_eq_of_le hkl with hlt | rfl
  · have hbefore := h.stop_le_start hlt ht hu
    have hpos := (h.mem t (List.mem_of_getElem? ht)).2.1
    omega
  · obtain rfl := Option.some.inj (ht.symm.trans hu)
    exact Nat.le_refl _

theorem stop_le_stop (hkl : k ≤ l) (ht : ts[k]? = some t) (hu : ts[l]? = some u) :
    t.stop ≤ u.stop := by
  rcases Nat.lt_or_eq_of_le hkl with hlt | rfl
  · have hbefore := h.stop_le_start hlt ht hu
    have hpos := (h.mem u (List.mem_of_getElem? hu)).2.1
    omega
  · obtain rfl := Option.some.inj (ht.symm.trans hu)
    exact Nat.le_refl _

theorem start_lt_stop (hkl : k ≤ l) (ht : ts[k]? = some t) (hu : ts[l]? = some u) :
    t.start < u.stop :=
  Nat.lt_of_lt_of_le (h.mem t (List.mem_of_getElem? ht)).2.1 (h.stop_le_stop hkl ht hu)

end Places

end InOrder

theorem add_length_drop {c : Char} {cs : List Char} {offset n : Nat} (hn : n ≤ cs.length + 1) :
    offset + n + ((c :: cs).drop n).length = offset + (c :: cs).length := by
  rw [List.length_drop, List.length_cons]
  omega

theorem tokensFrom_inOrder {fuel offset : Nat} {lineStart : Bool} {cs : List Char}
    {ts : List Token} (h : tokensFrom fuel offset lineStart cs = .ok ts) :
    InOrder offset (offset + cs.length) ts := by
  induction fuel generalizing offset lineStart cs ts with
  | zero =>
    obtain rfl : [] = ts := by simpa [tokensFrom] using h
    exact .nil (Nat.le_add_right _ _)
  | succ fuel ih =>
    cases cs with
    | nil =>
      obtain rfl : [] = ts := by simpa [tokensFrom] using h
      exact .nil (Nat.le_add_right _ _)
    | cons c cs =>
      rcases tokensFrom_cases h with ⟨n, hl, hrest⟩ | ⟨kind, n, rest, hl, hrest, rfl⟩
      · have horder := ih hrest
        rw [add_length_drop (lexeme_blanks hl).2] at horder
        exact horder.from_le (Nat.le_add_right _ _)
      · obtain ⟨-, hpos, hle, -⟩ := lexeme_token hl
        have horder := ih hrest
        rw [add_length_drop hle] at horder
        exact .cons (Nat.le_refl _) (Nat.lt_add_of_pos_right hpos) horder

theorem orFault_eq_error {fault f : LexicalFault} {kind : Kind} {extra : Nat} {o : Option Nat}
    (h : orFault fault kind extra o = .error f) : f = fault := by
  cases o with
  | none => exact (Except.error.inj h).symm
  | some n => cases h

theorem lexeme_error {lineStart : Bool} {c : Char} {cs : List Char} {f : LexicalFault}
    (h : lexeme lineStart c cs = .error f) : f.width ≤ (c :: cs).length := by
  have hone : 1 ≤ (c :: cs).length := Nat.succ_le_succ (Nat.zero_le _)
  unfold lexeme at h
  split_ifs at h with hblank hnewline hreturn hline hcomment
  · obtain ⟨-, hstar⟩ := hcomment
    obtain ⟨rest, rfl⟩ := List.head?_eq_some_iff.mp hstar
    rw [orFault_eq_error h]
    exact Nat.succ_le_succ (Nat.succ_le_succ (Nat.zero_le _))
  · rwa [orFault_eq_error h]
  · rwa [orFault_eq_error h]
  · split at h
    · cases h
    · obtain rfl := Except.error.inj h
      exact hone

theorem tokensFrom_error {fuel offset : Nat} {lineStart : Bool} {cs : List Char}
    {e : LexicalError} (h : tokensFrom fuel offset lineStart cs = .error e) :
    e.span.stop ≤ offset + cs.length := by
  induction fuel generalizing offset lineStart cs with
  | zero => cases h
  | succ fuel ih =>
    cases cs with
    | nil => cases h
    | cons c cs =>
      rw [tokensFrom] at h
      split at h
      · rename_i f hl
        obtain rfl := Except.error.inj h
        exact Nat.add_le_add_left (lexeme_error hl) offset
      · rename_i n hl
        have hstop := ih h
        rwa [add_length_drop (lexeme_blanks hl).2] at hstop
      · rename_i kind n hl
        cases hr : tokensFrom fuel (offset + n) (kind = .newline) ((c :: cs).drop n) with
        | ok rest => simp [hr, Except.map] at h
        | error e' =>
          obtain rfl : e' = e := by simpa [hr, Except.map] using h
          have hstop := ih hr
          rwa [add_length_drop (lexeme_token hl).2.2.1] at hstop

end Lexer

theorem LexicalError.start_lt_stop (e : LexicalError) : e.span.start < e.span.stop := by
  have hpos : 0 < e.fault.width := by cases e.fault <;> simp [LexicalFault.width]
  exact Nat.lt_add_of_pos_right hpos

theorem lex_inOrder {source : String} {tokens : List Token} (h : lex source = .ok tokens) :
    Lexer.InOrder 0 source.length tokens := by
  have horder := Lexer.tokensFrom_inOrder h
  rwa [Nat.zero_add, String.length_toList] at horder

theorem lex_error_in_text {source : String} {e : LexicalError} (h : lex source = .error e) :
    e.span.stop ≤ source.length := by
  have hstop := Lexer.tokensFrom_error h
  rwa [Nat.zero_add, String.length_toList] at hstop

end Whiley
