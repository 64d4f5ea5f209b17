import Whiley.Proofs.Text.Position
import Whiley.Proofs.Token.Lossless

/-!
The line that is quoted for an offset. Positions count newlines, and the lines to quote are cut at ten
separators; the two agree up to the first separator that ends no line of the language.
-/

namespace Whiley

namespace Text

/-- The next newline from an offset on, or the end of the text. -/
def lineStop (cs : List Char) (n : Nat) : Nat :=
  n + Lexer.run (· ≠ '\n') (cs.drop n)

/-- The line that an offset stands on, without a carriage return directly before the newline that ends
it. -/
def lineAround (cs : List Char) (n : Nat) : List Char :=
  let line := Lexer.slice cs (lineStart cs n) (lineStop cs n)
  if cs[lineStop cs n]? = some '\n' ∧ line.getLast? = some '\r' then line.dropLast else line

/-- A separator that is no newline, nor a carriage return directly before one. -/
def Stray (cs : List Char) (i : Nat) : Prop :=
  ∃ c, cs[i]? = some c ∧ isLineBreak c ∧ c ≠ '\n' ∧ ¬ (c = '\r' ∧ cs[i + 1]? = some '\n')

instance (cs : List Char) (i : Nat) : Decidable (Stray cs i) :=
  Option.decidableExistsMem (p := fun c => isLineBreak c ∧ c ≠ '\n' ∧
    ¬ (c = '\r' ∧ cs[i + 1]? = some '\n')) cs[i]?

section Pieces

variable {cs before rest : List Char} {c : Char}

theorem pieces_newline (cs : List Char) : pieces ('\n' :: cs) = [] :: pieces cs := rfl

theorem pieces_return (cs : List Char) : pieces ('\r' :: '\n' :: cs) = [] :: pieces cs := rfl

theorem pieces_cons (h : isLineBreak c = false) : pieces (c :: cs) = pushFirst c (pieces cs) := by
  generalize hpushed : pushFirst c (pieces cs) = pushed
  unfold pieces
  split
  · rename_i heq
    cases heq
  · rename_i heq
    obtain ⟨rfl, -⟩ := List.cons.inj heq
    cases h
  · rename_i heq
    obtain ⟨rfl, rfl⟩ := List.cons.inj heq
    rw [h]
    exact hpushed

theorem pieces_head? (cs : List Char) :
    (pieces cs).head? = some (cs.takeWhile fun c => !isLineBreak c) := by
  fun_induction pieces cs with
  | case1 => rfl
  | case2 cs ih => simp [isLineBreak]
  | case3 c cs _ hc ih => simp [hc]
  | case4 c cs _ hc ih =>
    obtain ⟨line, lines, hlines⟩ := List.exists_cons_of_ne_nil (pieces_ne_nil cs)
    rw [hlines] at ih ⊢
    simpa [pushFirst, hc] using ih

theorem Stray.cons {i : Nat} (h : Stray cs i) (c : Char) : Stray (c :: cs) (i + 1) := h

theorem not_stray_zero (h : ¬ Stray (c :: cs) 0) (hc : isLineBreak c) :
    c = '\n' ∨ c = '\r' ∧ cs.head? = some '\n' := by
  by_contra hnot
  rw [not_or] at hnot
  exact h ⟨c, rfl, hc, hnot.1, by simpa [← List.head?_eq_getElem?] using hnot.2⟩

theorem pieces_append (hend : before = [] ∨ before.getLast? = some '\n')
    (hplain : ∀ i < before.length, ¬ Stray (before ++ rest) i) :
    ∃ ls, ls.length = before.count '\n' ∧ pieces (before ++ rest) = ls ++ pieces rest := by
  have htail {c : Char} {cs : List Char} (h : c :: cs = [] ∨ (c :: cs).getLast? = some '\n') :
      cs = [] ∨ cs.getLast? = some '\n' := by
    have hlast := h.resolve_left (List.cons_ne_nil c cs)
    cases cs with
    | nil => exact .inl rfl
    | cons d cs => exact .inr (by rwa [List.getLast?_cons_cons] at hlast)
  fun_induction pieces before with
  | case1 => exact ⟨[], rfl, rfl⟩
  | case2 cs ih =>
    obtain ⟨ls, hlength, hls⟩ := ih (htail (htail hend)) fun i hi hstray =>
      hplain (i + 2) (Nat.add_lt_add_right hi 2) ((hstray.cons '\n').cons '\r')
    refine ⟨[] :: ls, ?_, ?_⟩
    · rw [List.count_cons_of_ne (by decide), List.count_cons_self, ← hlength]
      rfl
    · rw [List.cons_append, List.cons_append, pieces_return, hls]
      rfl
  | case3 c cs hreturn hc ih =>
    obtain ⟨ls, hlength, hls⟩ := ih (htail hend) fun i hi hstray =>
      hplain (i + 1) (Nat.succ_lt_succ hi) (hstray.cons c)
    -- the text before ends with a newline, so a carriage return is not its last character
    obtain rfl : c = '\n' := by
      refine (not_stray_zero (hplain 0 (Nat.succ_pos _)) hc).resolve_right ?_
      rintro ⟨rfl, hnext⟩
      cases cs with
      | nil => simp at hend
      | cons d cs => exact hreturn cs rfl (by simpa using hnext)
    refine ⟨[] :: ls, ?_, ?_⟩
    · rw [List.count_cons_self, ← hlength]
      rfl
    · rw [List.cons_append, pieces_newline, hls]
      rfl
  | case4 c cs _ hc ih =>
    replace hc : isLineBreak c = false := eq_false_of_ne_true hc
    have hne : c ≠ '\n' := by
      rintro rfl
      exact absurd hc (by decide)
    have hlast : cs.getLast? = some '\n' := by
      refine (htail hend).resolve_left ?_
      rintro rfl
      simp [hne] at hend
    obtain ⟨ls, hlength, hls⟩ := ih (.inr hlast) fun i hi hstray =>
      hplain (i + 1) (Nat.succ_lt_succ hi) (hstray.cons c)
    -- so there is a piece for the character to stand in front of
    have hpos : 0 < ls.length := by
      rw [hlength]
      exact List.count_pos_iff.mpr (List.mem_of_getLast? hlast)
    obtain ⟨line, ls, rfl⟩ := List.exists_cons_of_ne_nil (List.ne_nil_of_length_pos hpos)
    refine ⟨(c :: line) :: ls, ?_, ?_⟩
    · rw [List.count_cons_of_ne hne, ← hlength]
      rfl
    · rw [List.cons_append, pieces_cons hc, hls]
      rfl

theorem lines_getD (cs : List Char) (k : Nat) :
    ((lines cs)[k]?).getD [] = ((pieces cs)[k]?).getD [] := by
  rw [lines]
  split
  · rename_i hlast
    rw [List.getElem?_dropLast]
    split
    · rfl
    · rename_i hk
      rw [List.getLast?_eq_getElem?] at hlast
      rcases Nat.lt_or_eq_of_le (Nat.not_lt.mp hk) with hlt | rfl
      · rw [List.getElem?_eq_none (by omega)]
      · rw [hlast]
        rfl
  · rfl

end Pieces

section Line

variable {cs : List Char} {n i : Nat}

theorem not_newline_of_lineStop (hn : n ≤ i) (hi : i < lineStop cs n) : cs[i]? ≠ some '\n' := by
  obtain ⟨m, rfl⟩ := Nat.exists_eq_add_of_le hn
  have hrun := (Lexer.any_run (· ≠ '\n') (cs.drop n)).1 m (Nat.lt_of_add_lt_add_left hi)
  rw [List.getElem?_drop] at hrun
  intro hnewline
  simp [hnewline] at hrun

theorem lineStop_newline {c : Char} (h : cs[lineStop cs n]? = some c) : c = '\n' := by
  have hrun := (Lexer.any_run (· ≠ '\n') (cs.drop n)).2
  rw [List.getElem?_drop] at hrun
  change (cs[lineStop cs n]?).any _ = false at hrun
  simpa [h] using hrun

theorem lt_lineStop_of_stray (h : Stray cs i) : i < lineStop cs i := by
  obtain ⟨c, hc, -, hnewline, -⟩ := h
  refine Nat.lt_of_le_of_ne (Nat.le_add_right i _) fun heq => hnewline ?_
  rw [heq] at hc
  exact lineStop_newline hc

theorem lineStop_le (hn : n ≤ cs.length) : lineStop cs n ≤ cs.length := by
  have hrun := Lexer.run_le (· ≠ '\n') (cs.drop n)
  rw [List.length_drop] at hrun
  rw [lineStop]
  omega

theorem lineStop_mono {m : Nat} (hmn : m ≤ n) (hn : n ≤ cs.length) : lineStop cs m ≤ lineStop cs n := by
  by_contra hlt
  rw [Nat.not_le] at hlt
  have hin : lineStop cs n < cs.length :=
    Nat.lt_of_lt_of_le hlt (lineStop_le (Nat.le_trans hmn hn))
  have hc : cs[lineStop cs n]? = some cs[lineStop cs n] := List.getElem?_eq_getElem hin
  have hle : m ≤ lineStop cs n := Nat.le_trans hmn (Nat.le_add_right n _)
  exact not_newline_of_lineStop hle hlt (lineStop_newline hc ▸ hc)

theorem Stray.of_drop {k : Nat} (h : Stray (cs.drop k) i) : Stray cs (k + i) := by
  obtain ⟨c, hc, hbreak, hnewline, hreturn⟩ := h
  rw [List.getElem?_drop] at hc hreturn
  exact ⟨c, hc, hbreak, hnewline, hreturn⟩

theorem takeWhile_line {line after : List Char} (hline : '\n' ∉ line)
    (hafter : ∀ c, after.head? = some c → c = '\n')
    (hplain : ∀ i < line.length, ¬ Stray (line ++ after) i) :
    ((line ++ after).takeWhile fun c => !isLineBreak c) =
      if after.head? = some '\n' ∧ line.getLast? = some '\r' then line.dropLast else line := by
  induction line with
  | nil =>
    cases after with
    | nil => rfl
    | cons c after =>
      obtain rfl := hafter c rfl
      rfl
  | cons c line ih =>
    obtain ⟨hne, hmem⟩ := not_or.mp (List.mem_cons.not.mp hline)
    have hrest := ih hmem fun i hi hstray => hplain (i + 1) (Nat.succ_lt_succ hi) (hstray.cons c)
    by_cases hc : isLineBreak c
    · obtain ⟨rfl, hnext⟩ := (not_stray_zero (hplain 0 (Nat.succ_pos _)) hc).resolve_left (Ne.symm hne)
      obtain rfl : line = [] := by
        cases line with
        | nil => rfl
        | cons d line => simp_all
      simp_all [isLineBreak]
    · rw [List.cons_append, List.takeWhile_cons_of_pos (by simpa using hc), hrest]
      cases line with
      | nil =>
        have hreturn : c ≠ '\r' := by
          rintro rfl
          exact absurd rfl hc
        simp [hreturn]
      | cons d line =>
        rw [List.getLast?_cons_cons, List.dropLast_cons_cons]
        split <;> rfl

theorem lineStop_bounds (hn : n ≤ cs.length) :
    lineStart cs n ≤ lineStop cs n ∧ lineStop cs n ≤ cs.length :=
  ⟨Nat.le_trans (lineStart_le cs n) (Nat.le_add_right n _), lineStop_le hn⟩

theorem newline_not_mem_line (cs : List Char) (n : Nat) :
    '\n' ∉ Lexer.slice cs (lineStart cs n) (lineStop cs n) := by
  intro hmem
  obtain ⟨i, hi⟩ := List.mem_iff_getElem?.mp hmem
  rw [Lexer.slice, List.getElem?_drop, List.getElem?_take] at hi
  split at hi
  · rename_i hlt
    rcases Nat.lt_or_ge (lineStart cs n + i) n with hin | hin
    · exact not_newline_of_lineStart (Nat.le_add_right _ _) hin hi
    · exact not_newline_of_lineStop hin hlt hi
  · cases hi

theorem takeWhile_eq_lineAround (hn : n ≤ cs.length) (hplain : ∀ i < lineStop cs n, ¬ Stray cs i) :
    ((cs.drop (lineStart cs n)).takeWhile fun c => !isLineBreak c) = lineAround cs n := by
  obtain ⟨hle, hlength⟩ := lineStop_bounds hn
  have hsplit : Lexer.slice cs (lineStart cs n) (lineStop cs n) ++ cs.drop (lineStop cs n) =
      cs.drop (lineStart cs n) := Lexer.slice_append hle
  rw [← hsplit, takeWhile_line (newline_not_mem_line cs n), List.head?_drop]
  · rfl
  · intro c hc
    rw [List.head?_drop] at hc
    exact lineStop_newline hc
  · intro i hi hstray
    rw [hsplit] at hstray
    rw [Lexer.slice, List.length_drop, List.length_take, Nat.min_eq_left hlength] at hi
    exact hplain _ (by omega) hstray.of_drop

theorem lt_length_lineAround (hn : n ≤ cs.length) (hstart : lineStart cs n ≤ i)
    (hi : i < lineStop cs n) (hstray : Stray cs i) :
    i < lineStart cs n + (lineAround cs n).length := by
  obtain ⟨hle, hlength⟩ := lineStop_bounds hn
  have hline : (Lexer.slice cs (lineStart cs n) (lineStop cs n)).length =
      lineStop cs n - lineStart cs n := by
    rw [Lexer.slice, List.length_drop, List.length_take, Nat.min_eq_left hlength]
  rw [lineAround]
  split
  · rename_i hends
    obtain ⟨hnewline, hreturn⟩ := hends
    have hlast : cs[lineStop cs n - 1]? = some '\r' := by
      rw [List.getLast?_eq_getElem?, hline, Lexer.slice, List.getElem?_drop, List.getElem?_take] at hreturn
      rw [← hreturn, if_pos (by omega)]
      congr 1
      omega
    have hne : i ≠ lineStop cs n - 1 := by
      rintro rfl
      obtain ⟨c, hc, -, -, hnot⟩ := hstray
      refine hnot ⟨Option.some.inj (hc.symm.trans hlast), ?_⟩
      rw [← hnewline]
      congr 1
      omega
    rw [List.length_dropLast, hline]
    omega
  · rw [hline]
    omega

theorem takeWhile_ne_lineAround (hn : n ≤ cs.length) (hstart : lineStart cs n ≤ i)
    (hi : i < lineStop cs n) (hstray : Stray cs i) :
    ((cs.drop (lineStart cs n)).takeWhile fun c => !isLineBreak c) ≠ lineAround cs n := by
  intro heq
  have hlt := lt_length_lineAround hn hstart hi hstray
  rw [← heq] at hlt
  obtain ⟨c, hc, hbreak, -⟩ := hstray
  obtain ⟨k, rfl⟩ := Nat.exists_eq_add_of_le hstart
  have hrun := (Lexer.any_run (fun c => !isLineBreak c) (cs.drop (lineStart cs n))).1 k
    (Nat.lt_of_add_lt_add_left hlt)
  rw [List.getElem?_drop, hc] at hrun
  simp [hbreak] at hrun

theorem pieces_getElem (hplain : ∀ i < lineStart cs n, ¬ Stray cs i) :
    (pieces cs)[(cs.take n).count '\n']? =
      some ((cs.drop (lineStart cs n)).takeWhile fun c => !isLineBreak c) := by
  obtain ⟨hend, hcount⟩ := take_lineStart cs n
  have hbefore : ∀ i < (cs.take (lineStart cs n)).length,
      ¬ Stray (cs.take (lineStart cs n) ++ cs.drop (lineStart cs n)) i := by
    intro i hi
    rw [List.take_append_drop]
    exact hplain i (Nat.lt_of_lt_of_le hi (List.length_take_le _ _))
  obtain ⟨ls, hlength, hpieces⟩ := pieces_append hend hbefore
  rw [List.take_append_drop] at hpieces
  rw [hpieces, ← hcount, ← hlength, List.getElem?_append_right (Nat.le_refl _), Nat.sub_self,
    ← List.head?_eq_getElem?]
  exact pieces_head? _

end Line

end Text

namespace SourceText

variable {content name : String} {offset : Nat}

theorem lineAt_ofString (content name : String) (k : Nat) :
    (ofString content name).lineAt (1 + k : Nat) =
      String.ofList (((Text.pieces content.toList)[k]?).getD []) := by
  have hk : ((1 + k : Nat) - 1 : Int).toNat = k := by omega
  have hone : (1 : Int) ≤ (1 + k : Nat) := by omega
  rw [lineAt, if_pos hone, hk, ← Text.lines_getD]
  simp only [ofString, List.getElem?_toArray, List.getElem?_map]
  cases (Text.lines content.toList)[k]? <;> rfl

theorem lineAt_position (h : offset ≤ content.length)
    (hplain : ∀ i < Text.lineStart content.toList offset, ¬ Text.Stray content.toList i) :
    (ofString content name).lineAt ((ofString content name).position offset).line =
      String.ofList ((content.toList.drop (Text.lineStart content.toList offset)).takeWhile
        fun c => !Text.isLineBreak c) := by
  rw [position_eq h, lineAt_ofString, Text.pieces_getElem hplain]
  rfl

/-- What is quoted for an offset is the line that it stands on. -/
def Quotes (content name : String) (offset : Nat) : Prop :=
  (ofString content name).lineAt ((ofString content name).position offset).line =
    String.ofList (Text.lineAround content.toList offset)

theorem quotes_of_plain (h : offset ≤ content.length)
    (hplain : ∀ i < Text.lineStop content.toList offset, ¬ Text.Stray content.toList i) :
    Quotes content name offset := by
  have hlength : offset ≤ content.toList.length := by rwa [String.length_toList]
  have hle := (Text.lineStop_bounds hlength).1
  rw [Quotes, lineAt_position h fun i hi => hplain i (Nat.lt_of_lt_of_le hi hle),
    Text.takeWhile_eq_lineAround hlength hplain]

theorem quotes_iff (h : offset ≤ content.length) : (∀ m ≤ offset, Quotes content name m) ↔
    ∀ i < Text.lineStop content.toList offset, ¬ Text.Stray content.toList i := by
  have hlength : offset ≤ content.toList.length := by rwa [String.length_toList]
  constructor
  · intro hquoted i
    -- the line that the first stray separator stands on is quoted only up to it
    induction i using Nat.strongRecOn with
    | ind i ih =>
      intro hi hstray
      have hm : min i offset ≤ offset := Nat.min_le_right i offset
      have hstart : Text.lineStart content.toList (min i offset) ≤ i :=
        Nat.le_trans (Text.lineStart_le _ _) (Nat.min_le_left i offset)
      have hstop : i < Text.lineStop content.toList (min i offset) := by
        rcases Nat.le_total i offset with hle | hle
        · rw [Nat.min_eq_left hle]
          exact Text.lt_lineStop_of_stray hstray
        · rwa [Nat.min_eq_right hle]
      have hline := hquoted (min i offset) hm
      rw [Quotes, lineAt_position (Nat.le_trans hm h) fun j hj =>
        ih j (Nat.lt_of_lt_of_le hj hstart) (Nat.lt_trans (Nat.lt_of_lt_of_le hj hstart) hi)] at hline
      exact Text.takeWhile_ne_lineAround (Nat.le_trans hm hlength) hstart hstop hstray
        (String.ofList_injective hline)
  · intro hplain m hm
    refine quotes_of_plain (Nat.le_trans hm h) fun i hi => ?_
    exact hplain i (Nat.lt_of_lt_of_le hi (Text.lineStop_mono hm hlength))

def commentedFeed : String :=
  "a\r\n// b\x0cc\nd"

theorem quotes_iff_commentedFeed :
    2 ≤ commentedFeed.length ∧ (∀ m ≤ 2, Quotes commentedFeed "t" m) ∧
      10 ≤ commentedFeed.length ∧ ¬ ∀ m ≤ 10, Quotes commentedFeed "t" m := by
  have htwo : 2 ≤ commentedFeed.length := by decide
  have hten : 10 ≤ commentedFeed.length := by decide
  refine ⟨htwo, (quotes_iff htwo).mpr (by decide +kernel), hten, fun hquotes => ?_⟩
  have hplain := (quotes_iff hten).mp hquotes 7 (by decide +kernel)
  exact hplain (by decide +kernel)

end SourceText

end Whiley
