import Whiley.Session

namespace Whiley

namespace Text

def lineStart (cs : List Char) : Nat → Nat
  | 0 => 0
  | n + 1 => if cs[n]? = some '\n' then n + 1 else lineStart cs n

variable {cs : List Char} {n : Nat}

theorem lineStart_newline (h : cs[n]? = some '\n') : lineStart cs (n + 1) = n + 1 :=
  if_pos h

theorem lineStart_succ (h : cs[n]? ≠ some '\n') : lineStart cs (n + 1) = lineStart cs n :=
  if_neg h

theorem lineStart_le (cs : List Char) (n : Nat) : lineStart cs n ≤ n := by
  induction n with
  | zero => exact Nat.le_refl 0
  | succ n ih =>
    rw [lineStart]
    split
    · exact Nat.le_refl _
    · exact Nat.le_succ_of_le ih

theorem count_take_newline (h : cs[n]? = some '\n') :
    (cs.take (n + 1)).count '\n' = (cs.take n).count '\n' + 1 := by
  rw [List.take_add_one, h, List.count_append]
  rfl

theorem count_take_succ (h : cs[n]? ≠ some '\n') :
    (cs.take (n + 1)).count '\n' = (cs.take n).count '\n' := by
  rw [List.take_add_one, List.count_append]
  cases hc : cs[n]? with
  | none => rfl
  | some c =>
    have hne : c ≠ '\n' := fun heq => h (heq ▸ hc)
    simp [hne]

theorem not_newline_of_lineStart {i : Nat} (hi : lineStart cs n ≤ i) (hin : i < n) : cs[i]? ≠ some '\n' := by
  induction n with
  | zero => exact absurd hin (Nat.not_lt_zero i)
  | succ n ih =>
    intro hnewline
    rcases Nat.lt_or_eq_of_le (Nat.le_of_lt_succ hin) with hlt | rfl
    · by_cases hn : cs[n]? = some '\n'
      · rw [lineStart_newline hn] at hi
        omega
      · rw [lineStart_succ hn] at hi
        exact ih hi hlt hnewline
    · rw [lineStart_newline hnewline] at hi
      omega

theorem take_lineStart (cs : List Char) (n : Nat) :
    (cs.take (lineStart cs n) = [] ∨ (cs.take (lineStart cs n)).getLast? = some '\n') ∧
      (cs.take (lineStart cs n)).count '\n' = (cs.take n).count '\n' := by
  induction n with
  | zero => exact ⟨.inl rfl, rfl⟩
  | succ n ih =>
    by_cases hn : cs[n]? = some '\n'
    · rw [lineStart_newline hn]
      refine ⟨.inr ?_, rfl⟩
      rw [List.take_add_one, hn]
      exact List.getLast?_concat
    · rw [lineStart_succ hn, count_take_succ hn]
      exact ih

end Text

namespace Place

instance : LE Place :=
  ⟨fun p q => p.line < q.line ∨ p.line = q.line ∧ p.character ≤ q.character⟩

instance : LT Place :=
  ⟨fun p q => p.line < q.line ∨ p.line = q.line ∧ p.character < q.character⟩

theorem lt_trans {p q r : Place} (h : p < q) (h' : q < r) : p < r := by
  rcases h with h | ⟨h, hc⟩ <;> rcases h' with h' | ⟨h', hc'⟩
  · exact .inl (Nat.lt_trans h h')
  · exact .inl (h' ▸ h)
  · exact .inl (h ▸ h')
  · exact .inr ⟨h.trans h', Nat.lt_trans hc hc'⟩

def next (p : Place) (c : Char) : Place :=
  if c = '\n' then ⟨p.line + 1, 0⟩ else ⟨p.line, p.character + 1⟩

def after (p : Place) (cs : List Char) : Place :=
  cs.foldl next p

/-- The place stands on a line of the text, or right behind it: after so many newlines, and after so
many characters of that line. -/
def LiesIn (p : Place) (cs : List Char) : Prop :=
  ∃ before line rest, cs = before ++ line ++ rest ∧
    (before = [] ∨ before.getLast? = some '\n') ∧ before.count '\n' = p.line ∧
      '\n' ∉ line ∧ line.length = p.character

variable {p : Place} {cs : List Char}

theorem lt_next (c : Char) : p < p.next c := by
  unfold next
  split
  · exact .inl (Nat.lt_succ_self _)
  · exact .inr ⟨rfl, Nat.lt_succ_self _⟩

theorem lt_after (h : cs ≠ []) : p < p.after cs := by
  induction cs generalizing p with
  | nil => exact absurd rfl h
  | cons c cs ih =>
    by_cases hcs : cs = []
    · rw [hcs]
      exact lt_next c
    · exact lt_trans (lt_next c) (ih hcs)

theorem after_append {cs' : List Char} : p.after (cs ++ cs') = (p.after cs).after cs' :=
  List.foldl_append

theorem after_lt_after {m n : Nat} (hmn : m < n) (hn : n ≤ cs.length) :
    p.after (cs.take m) < p.after (cs.take n) := by
  have hsplit : cs.take n = cs.take m ++ (cs.drop m).take (n - m) := by
    rw [← List.take_add]
    congr 1
    omega
  rw [hsplit, after_append]
  refine lt_after fun hnil => ?_
  have hlength := congrArg List.length hnil
  rw [List.length_take, List.length_drop, List.length_nil] at hlength
  omega

theorem after_take {n : Nat} (hn : n ≤ cs.length) :
    after ⟨0, 0⟩ (cs.take n) = ⟨(cs.take n).count '\n', n - Text.lineStart cs n⟩ := by
  induction n with
  | zero => simp [after]
  | succ n ih =>
    have hc : cs[n]? = some cs[n] := List.getElem?_eq_getElem hn
    have hnext : after ⟨0, 0⟩ (cs.take (n + 1)) = (after ⟨0, 0⟩ (cs.take n)).next cs[n] := by
      rw [List.take_add_one, hc, after_append]
      rfl
    rw [hnext, ih (Nat.le_of_succ_le hn), next]
    split
    · rename_i hnewline
      rw [hnewline] at hc
      rw [Text.count_take_newline hc, Text.lineStart_newline hc, Nat.sub_self]
    · rename_i hnewline
      have hne : cs[n]? ≠ some '\n' := by simpa [hc] using hnewline
      rw [Text.count_take_succ hne, Text.lineStart_succ hne, Nat.succ_sub (Text.lineStart_le cs n)]

theorem after_liesIn {n : Nat} (hn : n ≤ cs.length) : (after ⟨0, 0⟩ (cs.take n)).LiesIn cs := by
  obtain ⟨hbefore, hcount⟩ := Text.take_lineStart cs n
  have hle := Text.lineStart_le cs n
  rw [after_take hn]
  refine ⟨cs.take (Text.lineStart cs n), (cs.take n).drop (Text.lineStart cs n), cs.drop n, ?_,
    hbefore, hcount, fun hmem => ?_, ?_⟩
  · have htake : cs.take (Text.lineStart cs n) = (cs.take n).take (Text.lineStart cs n) := by
      rw [List.take_take, Nat.min_eq_left hle]
    rw [htake, List.take_append_drop, List.take_append_drop]
  · obtain ⟨i, hi⟩ := List.mem_iff_getElem?.mp hmem
    rw [List.getElem?_drop, List.getElem?_take] at hi
    split at hi
    · rename_i hin
      exact Text.not_newline_of_lineStart (Nat.le_add_right _ i) hin hi
    · cases hi
  · rw [List.length_drop, List.length_take, Nat.min_eq_left hn]

end Place

namespace Position

/-- Lines and columns are counted from one. -/
def Proper (p : Position) : Prop :=
  1 ≤ p.line ∧ 1 ≤ p.column

theorem le_refl (p : Position) : p ≤ p :=
  .inr ⟨rfl, Nat.le_refl _⟩

theorem le_of_lt {p q : Position} (h : p < q) : p ≤ q := by
  rcases h with hline | ⟨hline, hcolumn⟩
  · exact .inl hline
  · exact .inr ⟨hline, Nat.le_of_lt hcolumn⟩

theorem lt_irrefl (p : Position) : ¬ p < p := by
  rintro (hline | ⟨-, hcolumn⟩)
  · exact Nat.lt_irrefl _ hline
  · exact Nat.lt_irrefl _ hcolumn

theorem place_le {p q : Position} (hp : p.Proper) (h : p ≤ q) : p.place ≤ q.place := by
  rcases h with hline | ⟨hline, hcolumn⟩
  · exact .inl (Nat.sub_lt_sub_right hp.1 hline)
  · exact .inr ⟨congrArg (· - 1) hline, Nat.sub_le_sub_right hcolumn 1⟩

theorem place_lt {p q : Position} (hp : p.Proper) (h : p < q) : p.place < q.place := by
  rcases h with hline | ⟨hline, hcolumn⟩
  · exact .inl (Nat.sub_lt_sub_right hp.1 hline)
  · exact .inr ⟨congrArg (· - 1) hline, Nat.sub_lt_sub_right hp.2 hcolumn⟩

end Position

namespace SourceText

structure Splits (starts : Array Nat) (offset n : Nat) : Prop where
  size : n ≤ starts.size
  below : ∀ i a, i < n → starts[i]? = some a → a ≤ offset
  above : ∀ i a, n ≤ i → starts[i]? = some a → offset < a

section Search

variable {starts : Array Nat} {offset : Nat} (hsorted : starts.toList.Pairwise (· < ·))

include hsorted

theorem le_of_sorted {i j a b : Nat} (hij : i ≤ j) (ha : starts[i]? = some a)
    (hb : starts[j]? = some b) : a ≤ b := by
  obtain ⟨hi, rfl⟩ := Array.getElem?_eq_some_iff.mp ha
  obtain ⟨hj, rfl⟩ := Array.getElem?_eq_some_iff.mp hb
  rcases Nat.lt_or_eq_of_le hij with hlt | rfl
  · exact Nat.le_of_lt (List.pairwise_iff_getElem.mp hsorted i j hi hj hlt)
  · exact Nat.le_refl _

theorem splits_countFrom {fuel low high : Nat} (hle : low ≤ high) (hfuel : high ≤ low + fuel)
    (hsize : high ≤ starts.size) (hlow : ∀ i a, i < low → starts[i]? = some a → a ≤ offset)
    (hhigh : ∀ i a, high ≤ i → starts[i]? = some a → offset < a) :
    Splits starts offset (countFrom starts offset fuel low high) := by
  induction fuel generalizing low high with
  | zero =>
    obtain rfl : low = high := by omega
    exact ⟨hsize, hlow, hhigh⟩
  | succ fuel ih =>
    rw [countFrom]
    by_cases hlt : low < high
    · have hmiddle : starts[(low + high) / 2]? = some starts[(low + high) / 2] :=
        Array.getElem?_eq_getElem (by omega)
      simp only [if_pos hlt, hmiddle, Option.any_some]
      by_cases hat : starts[(low + high) / 2] ≤ offset
      · simp only [decide_eq_true hat, if_true]
        refine ih (by omega) (by omega) hsize (fun i a hi ha => ?_) hhigh
        exact Nat.le_trans (le_of_sorted hsorted (by omega) ha hmiddle) hat
      · simp only [decide_eq_false hat, Bool.false_eq_true, if_false]
        refine ih (by omega) (by omega) (by omega) hlow fun i a hi ha => ?_
        exact Nat.lt_of_lt_of_le (Nat.lt_of_not_le hat) (le_of_sorted hsorted hi hmiddle ha)
    · obtain rfl : low = high := by omega
      rw [if_neg hlt]
      exact ⟨hsize, hlow, hhigh⟩

theorem countFrom_eq : countFrom starts offset starts.size 0 starts.size =
    starts.toList.countP (· ≤ offset) := by
  have hsplits : Splits starts offset (countFrom starts offset starts.size 0 starts.size) := by
    refine splits_countFrom hsorted (Nat.zero_le _) (by omega) (Nat.le_refl _)
      (fun i a hi _ => by omega) fun i a hi ha => ?_
    obtain ⟨hlt, -⟩ := Array.getElem?_eq_some_iff.mp ha
    omega
  -- all entries before the place where the search ends count, and none after it
  obtain ⟨hsize, hbelow, habove⟩ := hsplits
  generalize countFrom starts offset starts.size 0 starts.size = n at hsize hbelow habove
  have htake : (starts.toList.take n).countP (· ≤ offset) = n := by
    rw [List.countP_eq_length.mpr, List.length_take, Array.length_toList, Nat.min_eq_left hsize]
    intro a ha
    obtain ⟨i, hi⟩ := List.getElem?_of_mem ha
    rw [List.getElem?_take] at hi
    split at hi
    · rename_i hlt
      exact decide_eq_true (hbelow i a hlt (by rwa [Array.getElem?_toList] at hi))
    · cases hi
  have hdrop : (starts.toList.drop n).countP (· ≤ offset) = 0 := by
    refine List.countP_eq_zero.mpr fun a ha => ?_
    obtain ⟨i, hi⟩ := List.getElem?_of_mem ha
    rw [List.getElem?_drop, Array.getElem?_toList] at hi
    have hlt := habove (n + i) a (Nat.le_add_right n i) hi
    simpa using hlt
  rw [← List.take_append_drop n starts.toList, List.countP_append, htake, hdrop, Nat.add_zero]

end Search

section Starts

variable {offset : Nat} {cs : List Char}

theorem lt_of_mem_startsFrom : ∀ a ∈ startsFrom offset cs, offset < a := by
  induction cs generalizing offset with
  | nil => exact List.forall_mem_nil _
  | cons c cs ih =>
    have hlater : ∀ a ∈ startsFrom (offset + 1) cs, offset < a := fun a ha =>
      Nat.lt_of_succ_lt (ih a ha)
    rw [startsFrom]
    split
    · exact List.forall_mem_cons.mpr ⟨Nat.lt_succ_self offset, hlater⟩
    · exact hlater

theorem startsFrom_sorted : (startsFrom offset cs).Pairwise (· < ·) := by
  induction cs generalizing offset with
  | nil => exact .nil
  | cons c cs ih =>
    rw [startsFrom]
    split
    · exact .cons lt_of_mem_startsFrom ih
    · exact ih

theorem countP_startsFrom (offset n : Nat) (cs : List Char) :
    (startsFrom offset cs).countP (· ≤ offset + n) = (cs.take n).count '\n' := by
  induction cs generalizing offset n with
  | nil => simp [startsFrom]
  | cons c cs ih =>
    cases n with
    | zero =>
      refine List.countP_eq_zero.mpr fun a ha => ?_
      have hlt := lt_of_mem_startsFrom a ha
      simpa using hlt
    | succ n =>
      have hrest := ih (offset + 1) n
      rw [Nat.add_right_comm] at hrest
      rw [startsFrom, List.take_succ_cons]
      split
      · rename_i hc
        rw [List.countP_cons, List.count_cons, ← Nat.add_assoc, hrest]
        simp [hc]
      · rename_i hc
        rw [List.count_cons, ← Nat.add_assoc, hrest]
        simp [hc]

theorem startsFrom_getElem (offset : Nat) {n : Nat} (h : cs[n]? = some '\n') :
    (startsFrom offset cs)[(cs.take n).count '\n']? = some (offset + n + 1) := by
  induction cs generalizing offset n with
  | nil => cases h
  | cons c cs ih =>
    cases n with
    | zero =>
      obtain rfl : c = '\n' := by simpa using h
      simp [startsFrom]
    | succ n =>
      have hrest := ih (offset + 1) h
      rw [Nat.add_right_comm offset 1 n] at hrest
      rw [startsFrom, List.take_succ_cons]
      split
      · rename_i hc
        rw [hc, List.count_cons_self, List.getElem?_cons_succ, hrest]
        rfl
      · rename_i hc
        rw [List.count_cons_of_ne hc, hrest]
        rfl

theorem lineStarts_getElem (cs : List Char) (n : Nat) :
    (0 :: startsFrom 0 cs)[(cs.take n).count '\n']? = some (Text.lineStart cs n) := by
  induction n with
  | zero => rfl
  | succ n ih =>
    by_cases hc : cs[n]? = some '\n'
    · rw [Text.count_take_newline hc, Text.lineStart_newline hc, List.getElem?_cons_succ,
        startsFrom_getElem 0 hc, Nat.zero_add]
    · rw [Text.count_take_succ hc, Text.lineStart_succ hc, ih]

end Starts

section Position

variable {content name : String}

theorem clamp_of_le {offset : Nat} (h : offset ≤ content.length) :
    (ofString content name).clamp offset = offset :=
  Nat.min_eq_left (by rwa [← String.length_toList] at h)

theorem position_eq {offset : Nat} (h : offset ≤ content.length) :
    (ofString content name).position offset = ⟨1 + (content.toList.take offset).count '\n',
      offset - Text.lineStart content.toList offset + 1⟩ := by
  have hsorted : (ofString content name).lineStarts.toList.Pairwise (· < ·) :=
    .cons lt_of_mem_startsFrom startsFrom_sorted
  have hcount := countP_startsFrom 0 offset content.toList
  rw [Nat.zero_add] at hcount
  have hline : countFrom (ofString content name).lineStarts offset
      (ofString content name).lineStarts.size 0 (ofString content name).lineStarts.size =
        1 + (content.toList.take offset).count '\n' := by
    rw [countFrom_eq hsorted, ← hcount, Nat.add_comm]
    simp [ofString]
  have hstart : (ofString content name).lineStarts[(content.toList.take offset).count '\n']? =
      some (Text.lineStart content.toList offset) := by
    rw [← lineStarts_getElem]
    simp [ofString]
  rw [position, clamp_of_le h, hline, Nat.add_sub_cancel_left, hstart, Option.getD_some]

theorem place_position {offset : Nat} (h : offset ≤ content.length) :
    ((ofString content name).position offset).place =
      Place.after ⟨0, 0⟩ (content.toList.take offset) := by
  rw [position_eq h, Place.after_take (by rwa [String.length_toList]), Position.place,
    Nat.add_sub_cancel_left, Nat.add_sub_cancel]

theorem clamp_le (offset : Int) : (ofString content name).clamp offset ≤ content.length := by
  rw [← String.length_toList]
  exact Nat.min_le_right _ _

theorem clamp_eq (offset : Int) : ((ofString content name).clamp offset : Int) =
    max 0 (min offset content.length) := by
  have hsize : (ofString content name).size = content.length := String.length_toList
  rw [clamp, hsize]
  omega

theorem position_clamp (offset : Int) :
    (ofString content name).position ((ofString content name).clamp offset) =
      (ofString content name).position offset := by
  rw [position, position, clamp_of_le (clamp_le offset)]

theorem position_lt {m n : Nat} (hmn : m < n) (hn : n ≤ content.length) :
    (ofString content name).position m < (ofString content name).position n := by
  have hlength : n ≤ content.toList.length := by rwa [String.length_toList]
  have hlt : Place.after ⟨0, 0⟩ (content.toList.take m) < Place.after ⟨0, 0⟩ (content.toList.take n) :=
    Place.after_lt_after hmn hlength
  rw [Place.after_take hlength, Place.after_take (Nat.le_trans (Nat.le_of_lt hmn) hlength)] at hlt
  rw [position_eq hn, position_eq (Nat.le_trans (Nat.le_of_lt hmn) hn)]
  rcases hlt with hline | ⟨hline, hcolumn⟩
  · exact .inl (Nat.add_lt_add_left hline 1)
  · exact .inr ⟨congrArg (1 + ·) hline, Nat.add_lt_add_right hcolumn 1⟩

theorem position_strictMono {a b : Int} (ha : 0 ≤ a) (hab : a < b) (hb : b ≤ content.length) :
    (ofString content name).position a < (ofString content name).position b := by
  obtain ⟨m, rfl⟩ := Int.eq_ofNat_of_zero_le ha
  obtain ⟨n, rfl⟩ := Int.eq_ofNat_of_zero_le (Int.le_of_lt (Int.lt_of_le_of_lt ha hab))
  exact position_lt (Int.ofNat_lt.mp hab) (Int.ofNat_le.mp hb)

theorem position_mono {a b : Int} (hab : a ≤ b) :
    (ofString content name).position a ≤ (ofString content name).position b := by
  have hle : (ofString content name).clamp a ≤ (ofString content name).clamp b := by
    rw [clamp, clamp]
    omega
  rw [← position_clamp a, ← position_clamp b]
  rcases Nat.eq_or_lt_of_le hle with heq | hlt
  · rw [heq]
    exact Position.le_refl _
  · exact Position.le_of_lt (position_lt hlt (clamp_le b))

theorem position_injective {a b : Int} (ha : 0 ≤ a) (ha' : a ≤ content.length) (hb : 0 ≤ b)
    (hb' : b ≤ content.length)
    (h : (ofString content name).position a = (ofString content name).position b) : a = b := by
  rcases Int.lt_trichotomy a b with hlt | heq | hlt
  · exact absurd (h ▸ position_strictMono ha hlt hb') (Position.lt_irrefl _)
  · exact heq
  · exact absurd (h ▸ position_strictMono hb hlt ha') (Position.lt_irrefl _)

theorem position_counted (offset : Int) : (ofString content name).position offset =
    ⟨1 + (content.toList.take ((ofString content name).clamp offset)).count '\n',
      (ofString content name).clamp offset -
        Text.lineStart content.toList ((ofString content name).clamp offset) + 1⟩ := by
  rw [← position_clamp offset]
  exact position_eq (clamp_le offset)

theorem position_proper (offset : Int) : ((ofString content name).position offset).Proper := by
  rw [position_counted]
  exact ⟨Nat.le_add_right 1 _, Nat.le_add_left 1 _⟩

end Position

end SourceText

theorem Extent.ofSpan_proper {content name : String} {s : Span} (hpos : s.start < s.stop)
    (hstop : s.stop ≤ content.length) :
    (ofSpan (.ofString content name) s).start < (ofSpan (.ofString content name) s).stop ∧
      (ofSpan (.ofString content name) s).start.LiesIn content.toList ∧
      (ofSpan (.ofString content name) s).stop.LiesIn content.toList := by
  have hlength : s.stop ≤ content.toList.length := by rwa [String.length_toList]
  rw [ofSpan, between, SourceText.place_position hstop,
    SourceText.place_position (Nat.le_trans (Nat.le_of_lt hpos) hstop)]
  exact ⟨Place.after_lt_after hpos hlength,
    Place.after_liesIn (Nat.le_trans (Nat.le_of_lt hpos) hlength), Place.after_liesIn hlength⟩

/-- An offset outside of the text counts as the nearest that is in it. -/
theorem SourceText.position_counts (content name : String) :
    (∀ offset : Int, ∃ o : Nat, (o : Int) = max 0 (min offset content.length) ∧
      (ofString content name).position offset = ⟨1 + (content.toList.take o).count '\n',
        o - Text.lineStart content.toList o + 1⟩) ∧
    (∀ a b : Int, a ≤ b →
      (ofString content name).position a ≤ (ofString content name).position b) ∧
    (∀ a b : Int, 0 ≤ a → a ≤ content.length → 0 ≤ b → b ≤ content.length →
      (ofString content name).position a = (ofString content name).position b → a = b) ∧
    ∀ start stop : Int,
      (start ≤ stop → (Extent.between (ofString content name) start stop).start ≤
        (Extent.between (ofString content name) start stop).stop) ∧
      (0 ≤ start → start < stop → stop ≤ content.length →
        (Extent.between (ofString content name) start stop).start <
          (Extent.between (ofString content name) start stop).stop) := by
  refine ⟨fun offset => ⟨_, clamp_eq offset, position_counted offset⟩, fun a b hab => ?_,
    fun a b ha ha' hb hb' heq => ?_, fun start stop => ⟨fun hle => ?_, fun hstart hlt hstop => ?_⟩⟩
  · exact position_mono hab
  · exact position_injective ha ha' hb hb' heq
  · exact Position.place_le (position_proper start) (position_mono hle)
  · exact Position.place_lt (position_proper start) (position_strictMono hstart hlt hstop)

def gapped : String :=
  "ab\n\nc"

theorem SourceText.position_counts_gapped :
    (Extent.between (ofString gapped "t") 2 3).start = ⟨0, 2⟩ ∧
      (Extent.between (ofString gapped "t") 2 3).stop = ⟨1, 0⟩ ∧ 3 ≤ (gapped.length : Int) ∧
      (Extent.between (ofString gapped "t") 2 3).start <
        (Extent.between (ofString gapped "t") 2 3).stop ∧
      (ofString gapped "t").position (-7) ≤ (ofString gapped "t").position 99 ∧
      ((ofString gapped "t").position 2 = (ofString gapped "t").position 3 → (2 : Int) = 3) := by
  obtain ⟨-, hmono, hinjective, hspan⟩ := position_counts gapped "t"
  have hsize : (3 : Int) ≤ gapped.length := by decide
  exact ⟨by decide +kernel, by decide +kernel, hsize,
    (hspan 2 3).2 (by decide) (by decide) hsize, hmono (-7) 99 (by decide),
    hinjective 2 3 (by decide) (by decide) (by decide) hsize⟩

end Whiley
