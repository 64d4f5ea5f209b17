import Whiley.Proofs.Grammar.Sequel

namespace Whiley

namespace Input

def allowing (input : Input) (allowance : Nat) : Input :=
  ⟨input.tokens, allowance⟩

section Allowing

variable {input : Input} {allowance : Nat}

theorem tokens_allowing : (input.allowing allowance).tokens = input.tokens :=
  rfl

theorem skipFrom_allowing (lines : Bool) (fuel i : Nat) :
    (input.allowing allowance).skipFrom lines fuel i = input.skipFrom lines fuel i := by
  induction fuel generalizing i with
  | zero => rfl
  | succ fuel ih => simp only [skipFrom, ih, tokens_allowing]

theorem skip_allowing (lines : Bool) (i : Nat) :
    (input.allowing allowance).skip lines i = input.skip lines i :=
  skipFrom_allowing lines _ i

theorem skipLines_allowing (i : Nat) :
    (input.allowing allowance).skipLines i = input.skipLines i := by
  rw [skipLines, skipLines, tokens_allowing]
  generalize input.tokens.size + 1 - i = fuel
  induction fuel generalizing i with
  | zero => rfl
  | succ fuel ih => simp only [skipLinesFrom, skip_allowing, ih, tokens_allowing]

theorem trimEnd_allowing (i : Nat) : (input.allowing allowance).trimEnd i = input.trimEnd i := by
  induction i with
  | zero => rfl
  | succ i ih => simp only [trimEnd, ih, tokens_allowing]

theorem stopBefore_allowing (i : Nat) :
    (input.allowing allowance).stopBefore i = input.stopBefore i := by
  cases i <;> rfl

theorem span_allowing (i j : Nat) : (input.allowing allowance).span i j = input.span i j := by
  simp only [span, skip_allowing, trimEnd_allowing, stopBefore_allowing]
  rfl

end Allowing

def Extends (a b : Input) : Prop :=
  ∀ (i : Nat) (t : Token), a.tokens[i]? = some t → b.tokens[i]? = some t

section Extends

variable {a b : Input} {lines : Bool} {i j : Nat} (h : a.Extends b)

include h

theorem Extends.skipped (hskipped : a.Skipped lines i j) : b.Skipped lines i j := by
  refine ⟨hskipped.1, fun k hik hkj => ?_⟩
  obtain ⟨t, ht, hskips⟩ := hskipped.2 k hik hkj
  exact ⟨t, h k t ht, hskips⟩

theorem Extends.skip {t : Token} (ht : a.tokens[a.skip lines i]? = some t) :
    b.skip lines i = a.skip lines i := by
  rw [← (h.skipped (a.skipped_skip lines i)).skip_eq]
  exact skip_of_stop (h _ _ ht) (a.skip_stops ht)

end Extends

theorem trimEnd_le (input : Input) (i : Nat) : input.trimEnd i ≤ i := by
  induction i with
  | zero => exact Nat.le_refl 0
  | succ i ih =>
    rw [trimEnd]
    split
    · split
      · exact Nat.le_succ_of_le ih
      · exact Nat.le_refl _
    · exact Nat.le_succ_of_le ih

section Agree

variable {a b : Input} {n i : Nat} (h : ∀ i < n, a.tokens[i]? = b.tokens[i]?)

include h

theorem trimEnd_congr (hi : i ≤ n) : a.trimEnd i = b.trimEnd i := by
  induction i with
  | zero => rfl
  | succ i ih => rw [trimEnd, trimEnd, h i hi, ih (Nat.le_of_succ_le hi)]

theorem stopBefore_congr (hi : i ≤ n) : a.stopBefore i = b.stopBefore i := by
  cases i with
  | zero => rfl
  | succ i => rw [stopBefore, stopBefore, h i hi]

end Agree

end Input

def Extension.patient (input : Input) {allowance : Nat} (h : input.allowance ≤ allowance) :
    Extension where
  left := input
  right := input.allowing allowance
  inside _ := True
  line _ := True
  even := Eq
  allowance := h
  line_of_inside := id
  even_of_line _ := rfl
  meets lines {p} _ := by
    cases ht : input.tokens[input.skip lines p]? with
    | none => exact .ends ht ht (Input.skip_allowing lines p) trivial
    | some t => exact .token ht ht (Input.skip_allowing lines p) trivial
  meets_even {p q t} hpq ht := by
    subst hpq
    exact ⟨Input.skip_allowing true p, ht, trivial⟩
  step _ _ _ := trivial
  newline _ _ _ := trivial
  span _ hpq := hpq ▸ (Input.span_allowing _ _).symm
  lines {p q} hpq := by
    subst hpq
    rw [Input.skipLines_allowing]
    exact ⟨rfl, rfl⟩
  indented hpq _ := ⟨hpq, trivial⟩

section Continued

variable {ts us : List Token} {p q : Nat} {t : Token}

theorem extends_append (ts us : List Token) :
    (Input.ofTokens ts).Extends (.ofTokens (ts ++ us)) := by
  intro i t ht
  simp only [Input.getElem?_ofTokens] at ht ⊢
  obtain ⟨hi, -⟩ := List.getElem?_eq_some_iff.mp ht
  rwa [List.getElem?_append_left hi]

theorem tokens_append (hp : p < ts.length) :
    (Input.ofTokens ts).tokens[p]? = (Input.ofTokens (ts ++ us)).tokens[p]? := by
  simp only [Input.getElem?_ofTokens]
  rw [List.getElem?_append_left hp]

theorem lt_length (ht : (Input.ofTokens ts).tokens[p]? = some t) : p < ts.length := by
  obtain ⟨hp, -⟩ := Array.getElem?_eq_some_iff.mp ht
  exact hp

theorem length_le (h : (Input.ofTokens ts).tokens[p]? = none) : ts.length ≤ p :=
  Array.getElem?_eq_none_iff.mp h

theorem skip_end {lines : Bool} (hp : p ≤ ts.length)
    (h : (Input.ofTokens ts).tokens[(Input.ofTokens ts).skip lines p]? = none) :
    (Input.ofTokens ts).skip lines p = ts.length := by
  have hge := length_le h
  by_contra hne
  obtain ⟨t, ht, -⟩ := ((Input.ofTokens ts).skipped_skip lines p).2 ts.length hp (by omega)
  exact absurd (lt_length ht) (Nat.lt_irrefl _)

def EndsLine (ts : List Token) : Prop :=
  ts ≠ [] → ∃ t, ts.getLast? = some t ∧ t.kind = .newline

theorem EndsLine.token (h : EndsLine ts) (hp : p < ts.length) :
    ∃ t, (Input.ofTokens ts).tokens[(Input.ofTokens ts).skip false p]? = some t := by
  obtain ⟨n, hlast, hn⟩ := h fun hnil => by simp [hnil] at hp
  cases ht : (Input.ofTokens ts).tokens[(Input.ofTokens ts).skip false p]? with
  | some t => exact ⟨t, rfl⟩
  | none =>
    have hend := length_le ht
    obtain ⟨t, ht, hskips⟩ :=
      ((Input.ofTokens ts).skipped_skip false p).2 (ts.length - 1) (by omega) (by omega)
    rw [List.getLast?_eq_getElem?] at hlast
    simp only [Input.getElem?_ofTokens] at ht
    obtain rfl := Option.some.inj (hlast.symm.trans ht)
    simp [hn, Input.skips, Kind.isLineSpace] at hskips

theorem EndsLine.step (h : EndsLine ts) (ht : (Input.ofTokens ts).tokens[p]? = some t)
    (hspace : t.kind.isSpace = false) : p + 1 < ts.length := by
  have hp := lt_length ht
  obtain ⟨n, hlast, hn⟩ := h fun hnil => by simp [hnil] at hp
  by_contra hge
  rw [List.getLast?_eq_getElem?, show ts.length - 1 = p by omega] at hlast
  simp only [Input.getElem?_ofTokens] at ht
  obtain rfl := Option.some.inj (hlast.symm.trans ht)
  simp [hn, Kind.isSpace] at hspace

theorem pastLines_append (h : EndsLine ts) (hp : p ≤ ts.length)
    (hlines : (Input.ofTokens ts).PastLines p q) :
    (q < ts.length ∧ (Input.ofTokens (ts ++ us)).PastLines p q) ∨
      q = ts.length ∧
        (Input.ofTokens (ts ++ us)).skipLines p = (Input.ofTokens (ts ++ us)).skipLines ts.length := by
  have hextends := extends_append ts us
  induction hlines with
  | @ends m hnone =>
    rcases Nat.lt_or_ge m ts.length with hm | hm
    · obtain ⟨t, ht⟩ := h.token hm
      exact absurd (hnone.symm.trans ht) nofun
    · obtain rfl : m = ts.length := Nat.le_antisymm hp hm
      exact .inr ⟨skip_end hp hnone, rfl⟩
  | @stay m u hu hword =>
    have hskip := hextends.skip hu
    refine .inl ⟨?_, .stay (hskip ▸ hextends _ _ hu) hword⟩
    exact Nat.lt_of_le_of_lt ((Input.ofTokens ts).skipped_skip false m).1 (lt_length hu)
  | @blank m n u hu hnewline _ ih =>
    have hskip := hextends.skip hu
    have hu' := hskip ▸ hextends _ _ hu
    rcases ih (lt_length hu) with ⟨hn, hrest⟩ | ⟨hn, hrest⟩
    · exact .inl ⟨hn, .blank hu' hnewline (hskip ▸ hrest)⟩
    · refine .inr ⟨hn, ?_⟩
      rw [← hrest, ← hskip]
      exact (Input.PastLines.blank hu' hnewline (Input.pastLines_skipLines _ _)).eq

/-- The places between lines that answer each other: the second cursor may have gone further. -/
def Abreast (ts us : List Token) (p q : Nat) : Prop :=
  (p = q ∧ p ≤ ts.length) ∨
    p = ts.length ∧ q = (Input.ofTokens (ts ++ us)).skipLines ts.length

theorem Abreast.le (h : Abreast ts us p q) : p ≤ ts.length :=
  h.elim (·.2) (·.1.le)

theorem Abreast.trimEnd_eq (h : Abreast ts us p q) :
    (Input.ofTokens ts).trimEnd p = (Input.ofTokens (ts ++ us)).trimEnd q := by
  have hagree : ∀ i < ts.length,
      (Input.ofTokens ts).tokens[i]? = (Input.ofTokens (ts ++ us)).tokens[i]? :=
    fun _ => tokens_append
  rw [Input.trimEnd_congr hagree h.le]
  rcases h with ⟨rfl, -⟩ | ⟨rfl, rfl⟩
  · rfl
  · exact (Input.pastLines_skipLines _ _).skipped.trimEnd_eq.symm

theorem span_append (hp : p ≤ ts.length) {p' q' : Nat} (h : Abreast ts us p' q') :
    (Input.ofTokens ts).span p p' = (Input.ofTokens (ts ++ us)).span p q' := by
  have hagree : ∀ i < ts.length,
      (Input.ofTokens ts).tokens[i]? = (Input.ofTokens (ts ++ us)).tokens[i]? :=
    fun _ => tokens_append
  have hlast : (Input.ofTokens ts).trimEnd p' ≤ ts.length :=
    Nat.le_trans (Input.trimEnd_le _ _) h.le
  simp only [Input.span, ← h.trimEnd_eq, Input.stopBefore_congr hagree hp,
    Input.stopBefore_congr hagree hlast]
  cases ht : (Input.ofTokens ts).tokens[(Input.ofTokens ts).skip true p]? with
  | some t =>
    simp only [(extends_append ts us).skip ht, Input.startAt, hagree _ (lt_length ht)]
  | none =>
    -- nothing of the first stream is left, so that both spans are empty
    have hend := skip_end hp ht
    have hskipped := (extends_append ts us).skipped ((Input.ofTokens ts).skipped_skip true p)
    have hright : ts.length ≤ (Input.ofTokens (ts ++ us)).skip true p := by
      rw [← hskipped.skip_eq, hend]
      exact (Input.skipped_skip _ _ _).1
    rw [if_neg (by omega), if_neg (by omega)]

theorem lines_append (hts : EndsLine ts)
    (hflush : (Input.ofTokens (ts ++ us)).indentAt
      ((Input.ofTokens (ts ++ us)).skipLines ts.length) = none) (h : Abreast ts us p q) :
    Abreast ts us ((Input.ofTokens ts).skipLines p) ((Input.ofTokens (ts ++ us)).skipLines q) ∧
      (Input.ofTokens ts).indentAt ((Input.ofTokens ts).skipLines p) =
        (Input.ofTokens (ts ++ us)).indentAt ((Input.ofTokens (ts ++ us)).skipLines q) := by
  have hright : (Input.ofTokens (ts ++ us)).skipLines q = (Input.ofTokens (ts ++ us)).skipLines p := by
    rcases h with ⟨rfl, -⟩ | ⟨rfl, rfl⟩
    · rfl
    · exact Input.skipLines_skipLines _ _
  rw [hright]
  rcases pastLines_append hts h.le ((Input.ofTokens ts).pastLines_skipLines p) with
    ⟨hlt, hlines⟩ | ⟨hend, hlines⟩
  · rw [hlines.eq, Input.indentAt, Input.indentAt, tokens_append hlt]
    exact ⟨.inl ⟨rfl, hlt.le⟩, rfl⟩
  · rw [hlines, hend, hflush]
    have hnone : (Input.ofTokens ts).tokens[ts.length]? = none :=
      Array.getElem?_eq_none_iff.mpr (Nat.le_refl ts.length)
    refine ⟨.inr ⟨rfl, rfl⟩, ?_⟩
    rw [Input.indentAt, hnone]
    rfl

/-- A stream that ends with its line, and the stream that goes on with declarations after it. -/
def Extension.continued (ts us : List Token) (hts : EndsLine ts)
    (hcalm : Calm (Input.ofTokens ts).finalTrail)
    (hstarts : ∀ t, (Input.ofTokens (ts ++ us)).tokens[
      (Input.ofTokens (ts ++ us)).skip true ts.length]? = some t → t.kind ∈ starters)
    (hflush : (Input.ofTokens (ts ++ us)).indentAt
      ((Input.ofTokens (ts ++ us)).skipLines ts.length) = none) : Extension where
  left := .ofTokens ts
  right := .ofTokens (ts ++ us)
  inside p := p < ts.length
  line p := p ≤ ts.length
  even := Abreast ts us
  allowance := by simp [Input.ofTokens]
  line_of_inside := Nat.le_of_lt
  even_of_line h := .inl ⟨rfl, h⟩
  meets lines {p} hp := by
    have hextends := extends_append ts us
    cases ht : (Input.ofTokens ts).tokens[(Input.ofTokens ts).skip lines p]? with
    | some t => exact .token ht (hextends _ _ ht) (hextends.skip ht) (lt_length ht)
    | none =>
      cases lines with
      | false =>
        obtain ⟨t, ht'⟩ := hts.token hp
        exact absurd (ht.symm.trans ht') nofun
      | true =>
        refine .passes ht rfl ?_ hcalm
        have hskipped := hextends.skipped ((Input.ofTokens ts).skipped_skip true p)
        rwa [← hskipped.skip_eq, skip_end (Nat.le_of_lt hp) ht]
  meets_even {p q t} h ht := by
    have hextends := extends_append ts us
    rcases h with ⟨rfl, -⟩ | ⟨rfl, -⟩
    · exact ⟨hextends.skip ht, hextends _ _ ht, lt_length ht⟩
    · have hge := ((Input.ofTokens ts).skipped_skip true ts.length).1
      exact absurd (lt_length ht) (Nat.not_lt.mpr hge)
  step _ ht hspace := hts.step ht hspace
  newline hp _ _ := hp
  span hp h := span_append hp h
  lines := lines_append hts hflush
  indented {p q t} h ht := by
    obtain ⟨ht, -⟩ := Option.filter_eq_some_iff.mp ht
    rcases h with ⟨hpq, -⟩ | ⟨rfl, -⟩
    · exact ⟨hpq, lt_length ht⟩
    · exact absurd (lt_length ht) (Nat.lt_irrefl _)

end Continued

end Whiley
