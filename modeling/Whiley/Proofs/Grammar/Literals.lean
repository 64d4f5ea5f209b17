import Mathlib.Algebra.Group.Nat.Defs
import Whiley.Proofs.Grammar.Ensures

namespace Whiley

open Lexer

namespace Token

variable {t : Token} {input : Input} {f : Failure}

theorem quotedBody_of_text {open' : Char} {body : List Char} {close : Char}
    (h : t.text.toList = open' :: body ++ [close]) : t.quotedBody = body := by
  simp [quotedBody, h]

theorem byteValue_proper (h : t.byteValue = .error f) : f.Proper input := by
  unfold byteValue at h
  split at h
  · obtain rfl := Except.error.inj h
    trivial
  · split at h
    · cases h
    · obtain rfl := Except.error.inj h
      trivial

theorem charValue_proper (ht : t.Lexed) (hk : t.kind = .charLit) (h : t.charValue = .error f) :
    f.Proper input := by
  rw [Lexed, hk] at ht
  obtain ⟨body, htext, hbody⟩ := ht
  unfold charValue at h
  rw [quotedBody_of_text htext] at h
  rcases hbody with ⟨c, rfl, hc⟩ | ⟨c, rfl⟩
  · split at h
    · rename_i heq
      exact absurd (List.cons.inj heq).1 hc
    · cases h
    · rename_i hne
      exact absurd rfl (hne c)
  · cases hescape : escaped? c with
    | some e => simp [hescape] at h
    | none =>
      obtain rfl : t.failure .unknownEscape = f := by simpa [hescape] using h
      trivial

theorem map_error {ε α β : Type} {x : Except ε α} {g : α → β} {e : ε}
    (h : x.map g = .error e) : x = .error e := by
  cases x with
  | ok a => cases h
  | error e' =>
    obtain rfl := Except.error.inj h
    rfl

theorem hexValue_backslash : hexValue? '\\' = none := by
  decide

theorem hexadecimal_of_codePoint {a b c d : Char} {n : Nat} (h : codePoint? a b c d = some n) :
    a ≠ '\\' ∧ b ≠ '\\' ∧ c ≠ '\\' ∧ d ≠ '\\' := by
  simp only [codePoint?, Option.bind_eq_bind, Option.bind_eq_some_iff] at h
  obtain ⟨x, hx, y, hy, z, hz, w, hw, -⟩ := h
  refine ⟨?_, ?_, ?_, ?_⟩
  all_goals
    rintro rfl
    simp [hexValue_backslash] at *

theorem codePoints_proper {body : List Char} (hq : IsQuoted body)
    (h : t.codePoints body = .error f) : f.Proper input := by
  fun_induction codePoints t body with
  | case1 => cases h
  | case2 => exact hq.elim
  | case3 a b c d cs n hn ih =>
    obtain ⟨ha, hb, hc, hd⟩ := hexadecimal_of_codePoint hn
    have hq : IsQuoted (a :: b :: c :: d :: cs) := hq
    rw [isQuoted_cons ha, isQuoted_cons hb, isQuoted_cons hc, isQuoted_cons hd] at hq
    exact ih hq.2.2.2.2.2.2.2.2 (map_error h)
  | case4 =>
    obtain rfl := Except.error.inj h
    trivial
  | case5 =>
    obtain rfl := Except.error.inj h
    trivial
  | case6 cs code _ e _ _ ih => exact ih hq (map_error h)
  | case7 =>
    obtain rfl := Except.error.inj h
    trivial
  | case8 c cs hend _ hpair ih =>
    have hc : c ≠ '\\' := by
      rintro rfl
      cases cs with
      | nil => exact hend rfl rfl
      | cons d ds => exact hpair d ds rfl rfl
    exact ih ((isQuoted_cons hc).mp hq).2.2 (map_error h)

theorem stringValue_proper (ht : t.Lexed) (hk : t.kind = .stringLit) (h : t.stringValue = .error f) :
    f.Proper input := by
  rw [Lexed, hk] at ht
  obtain ⟨body, htext, hbody⟩ := ht
  unfold stringValue at h
  rw [quotedBody_of_text htext] at h
  cases hp : t.codePoints body with
  | error e =>
    rw [hp] at h
    obtain rfl := Except.error.inj h
    exact codePoints_proper hbody hp
  | ok ns =>
    rw [hp] at h
    simp only [bind, Except.bind] at h
    split at h
    · cases h
    · obtain rfl := Except.error.inj h
      trivial

theorem toNat_of_isDigit {c : Char} (h : isDigit c) : 0x30 ≤ c.toNat ∧ c.toNat ≤ 0x39 := by
  simpa [isDigit, Char.le_def, UInt32.le_iff_toNat_le] using h

theorem decimalValue_of_isDigit {c : Char} (h : isDigit c) :
    Text.decimalValue? c = some (c.toNat - 0x30) := by
  have hc := toNat_of_isDigit h
  have hmod : (c.toNat - 0x30) % 10 = c.toNat - 0x30 := Nat.mod_eq_of_lt (by omega)
  simp [Text.decimalValue?, Text.decimalRanges, hc, hmod]

theorem digits_of_isNumeral {cs : List Char} (hne : cs ≠ []) (h : ∀ c ∈ cs, isDigit c) :
    Text.digits? cs = some (cs.map fun c => c.toNat - 0x30) := by
  fun_induction Text.digits? cs with
  | case1 => exact absurd rfl hne
  | case2 c => exact congrArg (Option.map _) (decimalValue_of_isDigit (h c List.mem_cons_self))
  | case3 c cs =>
    have hunderscore : isDigit '_' := h '_' (by simp)
    exact absurd hunderscore (by decide)
  | case4 c cs hcs _ ih =>
    rw [decimalValue_of_isDigit (h c List.mem_cons_self),
      ih hcs fun d hd => h d (List.mem_cons_of_mem c hd)]
    rfl

theorem readNatural_of_isNumeral {cs : List Char} (hcs : IsNumeral cs) :
    Text.readNatural cs = if Text.digitLimit < cs.length then .error (.tooLong cs.length)
      else .ok (Text.ofDigits (cs.map fun c => c.toNat - 0x30)) := by
  rw [Text.readNatural, digits_of_isNumeral hcs.1 hcs.2]
  simp

theorem readNatural_error {cs : List Char} {fault : Text.IntegerFault} (hcs : IsNumeral cs)
    (h : Text.readNatural cs = .error fault) :
    Text.digitLimit < cs.length ∧ fault = .tooLong cs.length := by
  rw [readNatural_of_isNumeral hcs] at h
  split at h
  · rename_i hlong
    exact ⟨hlong, (Except.error.inj h).symm⟩
  · cases h

theorem integerValue_proper (hmem : t ∈ input.tokens) (ht : t.Lexed) (hk : t.kind = .intLit)
    (h : t.integerValue = .error f) : f.Proper input := by
  rw [Lexed, hk] at ht
  unfold integerValue at h
  split at h
  · cases h
  · rename_i fault hfault
    obtain rfl := Except.error.inj h
    obtain ⟨hlong, rfl⟩ := readNatural_error ht hfault
    rw [String.length_toList] at hlong ⊢
    exact ⟨t, hmem, hk, rfl, hlong, rfl⟩

theorem integerValue_toString {n : Nat} (ht : t.text = toString n)
    (hn : n < 10 ^ Text.digitLimit) : t.integerValue = .ok n := by
  have hdigits : (toString n).toList = Nat.toDigits 10 n := by simp
  have hlength : (Nat.toDigits 10 n).length ≤ Text.digitLimit :=
    (Nat.length_toDigits_le_iff (by decide) (by decide)).mpr hn
  have hvalue : ∀ cs : List Char, ∀ m, (cs.map fun c => c.toNat - 0x30).foldl
      (fun n d => n * 10 + d) m = Nat.ofDigitChars 10 cs m := by
    intro cs
    induction cs with
    | nil => exact fun _ => rfl
    | cons c cs ih =>
      intro m
      rw [List.map_cons, List.foldl_cons, ih, Nat.ofDigitChars_cons, Nat.mul_comm m 10]
      rfl
  rw [integerValue, ht, readNatural_of_isNumeral (isNumeral_toString n), hdigits,
    if_neg (Nat.not_lt.mpr hlength), Text.ofDigits, hvalue, Nat.ofDigitChars_ten_toDigits]

theorem foldDigits_lt {ds : List Nat} (h : ∀ d ∈ ds, d < 10) (n : Nat) :
    ds.foldl (fun n d => n * 10 + d) n < (n + 1) * 10 ^ ds.length := by
  induction ds generalizing n with
  | nil => simp
  | cons d ds ih =>
    have hd : d < 10 := h d List.mem_cons_self
    calc ds.foldl (fun n d => n * 10 + d) (n * 10 + d)
        < (n * 10 + d + 1) * 10 ^ ds.length := ih (fun e he => h e (List.mem_cons_of_mem d he)) _
      _ ≤ ((n + 1) * 10) * 10 ^ ds.length := Nat.mul_le_mul_right _ (by omega)
      _ = (n + 1) * 10 ^ (d :: ds).length := by
        rw [List.length_cons, Nat.pow_succ, Nat.mul_assoc, Nat.mul_comm 10]

theorem decimalValue_lt {c : Char} {n : Nat} (h : Text.decimalValue? c = some n) : n < 10 := by
  obtain ⟨range, -, rfl⟩ := Option.map_eq_some_iff.mp h
  exact Nat.mod_lt _ (by decide)

theorem digits_lt {cs : List Char} {ds : List Nat} (h : Text.digits? cs = some ds) :
    ∀ d ∈ ds, d < 10 := by
  fun_induction Text.digits? cs generalizing ds with
  | case1 => cases h
  | case2 c =>
    obtain ⟨n, hn, rfl⟩ := Option.map_eq_some_iff.mp h
    simpa using decimalValue_lt hn
  | case3 c cs ih =>
    simp only [Option.bind_eq_bind, Option.bind_eq_some_iff] at h
    obtain ⟨n, hn, ns, hns, hds⟩ := h
    obtain rfl := Option.some.inj hds
    exact List.forall_mem_cons.mpr ⟨decimalValue_lt hn, ih hns⟩
  | case4 c cs _ _ ih =>
    simp only [Option.bind_eq_bind, Option.bind_eq_some_iff] at h
    obtain ⟨n, hn, ns, hns, hds⟩ := h
    obtain rfl := Option.some.inj hds
    exact List.forall_mem_cons.mpr ⟨decimalValue_lt hn, ih hns⟩

theorem integerValue_lt {n : Nat} (h : t.integerValue = .ok n) : n < 10 ^ Text.digitLimit := by
  unfold integerValue at h
  split at h
  · rename_i m hread
    obtain rfl := Except.ok.inj h
    unfold Text.readNatural at hread
    split at hread
    · cases hread
    · rename_i ds hds
      split at hread
      · cases hread
      · rename_i hshort
        obtain rfl := Except.ok.inj hread
        have hlt := foldDigits_lt (digits_lt hds) 0
        rw [Nat.zero_add, Nat.one_mul] at hlt
        exact Nat.lt_of_lt_of_le hlt (Nat.pow_le_pow_right (by decide) (Nat.not_lt.mp hshort))
  · cases h

end Token

end Whiley
