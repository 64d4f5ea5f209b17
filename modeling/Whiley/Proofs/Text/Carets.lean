import Whiley.Diagnostic
import Whiley.Proofs.Text.QuotedLine

/-!
The carets below a quoted line. There are as many as there are characters to mark, one below the other;
but the line of carets leaves two columns for the number of the line, and the quoted line at least four.
-/

namespace Whiley

namespace Text

section Span

variable {cs : List Char} {i j k : Nat}

theorem getElem?_slice (h : i + k < j) : (Lexer.slice cs i j)[k]? = cs[i + k]? := by
  rw [Lexer.slice, List.getElem?_drop, List.getElem?_take, if_pos h]

theorem same_line (hik : i ≤ k) (hkj : k ≤ j) (h : '\n' ∉ Lexer.slice cs i j) :
    lineStart cs k = lineStart cs i ∧ (cs.take k).count '\n' = (cs.take i).count '\n' := by
  induction k, hik using Nat.le_induction with
  | base => exact ⟨rfl, rfl⟩
  | succ k hik ih =>
    obtain ⟨hstart, hcount⟩ := ih (Nat.le_of_succ_le hkj)
    have hne : cs[k]? ≠ some '\n' := by
      obtain ⟨m, rfl⟩ := Nat.exists_eq_add_of_le hik
      rw [← getElem?_slice hkj]
      exact fun hm => h (List.mem_of_getElem? hm)
    exact ⟨(lineStart_succ hne).trans hstart, (count_take_succ hne).trans hcount⟩

theorem le_lineStop (hj : j ≤ cs.length) (h : '\n' ∉ Lexer.slice cs i j) : j ≤ lineStop cs i := by
  by_contra hlt
  rw [Nat.not_le] at hlt
  have hc : cs[lineStop cs i]? = some cs[lineStop cs i] :=
    List.getElem?_eq_getElem (Nat.lt_of_lt_of_le hlt hj)
  refine h (List.mem_of_getElem? (i := lineStop cs i - i) ?_)
  have hle : i ≤ lineStop cs i := Nat.le_add_right i _
  rw [getElem?_slice (by omega), Nat.add_sub_cancel' hle, hc, lineStop_newline hc]

variable (hbreaks : ∀ c ∈ cs, isLineBreak c → c = '\n')

include hbreaks

theorem not_stray (k : Nat) : ¬ Stray cs k := by
  rintro ⟨c, hc, hbreak, hne, -⟩
  exact hne (hbreaks c (List.mem_of_getElem? hc) hbreak)

theorem lineAround_eq_slice (n : Nat) :
    lineAround cs n = Lexer.slice cs (lineStart cs n) (lineStop cs n) := by
  refine if_neg fun hreturn => ?_
  have hmem : '\r' ∈ cs := List.mem_of_mem_take (List.mem_of_mem_drop (List.mem_of_getLast? hreturn.2))
  exact absurd (hbreaks '\r' hmem (by decide)) (by decide)

theorem lineAround_getElem? (hj : j ≤ cs.length) (h : '\n' ∉ Lexer.slice cs i j) (hk : i + k < j) :
    (lineAround cs i)[i - lineStart cs i + k]? = cs[i + k]? := by
  have hle := lineStart_le cs i
  have hstop := le_lineStop hj h
  rw [lineAround_eq_slice hbreaks, getElem?_slice (by omega)]
  congr 1
  omega

end Span

end Text

namespace Rendering

/-- What stands in front of a quoted line and in front of carets, with a gutter of any width. -/
def margin (gutter : String) : String :=
  "  " ++ gutter ++ " | "

theorem margin_length (g : String) : (margin g).length = g.length + 5 := by
  simp only [margin, String.length_append]
  have hbefore : "  ".length = 2 := rfl
  have hafter : " | ".length = 3 := rfl
  omega

theorem gutter_length (n : Nat) : (gutter n).length = max 4 (toString n).length := by
  rw [gutter, spaces, String.length_append, String.length_ofList, List.length_replicate]
  omega

theorem not_mem_replicate {c d : Char} (h : c ≠ d) (n : Nat) : c ∉ List.replicate n d :=
  fun hmem => h (List.eq_of_mem_replicate hmem)

theorem newline_not_mem_gutter (n : Nat) : '\n' ∉ (gutter n).toList := by
  rw [gutter, spaces, String.toList_append, String.toList_ofList, List.mem_append, not_or]
  refine ⟨not_mem_replicate (by decide) _, fun hmem => ?_⟩
  exact absurd ((Lexer.isNumeral_toString n).2 '\n' hmem) (by decide)

theorem newline_not_mem_margin {g : String} (h : '\n' ∉ g.toList) : '\n' ∉ (margin g).toList := by
  simpa [margin] using h

section Plain

variable {r : Rendering} (hcolor : r.color = false)

include hcolor

theorem escape_plain (code : String) : r.escape code = "" := by
  simp [escape, hcolor]

theorem severity_plain (s : Severity) : r.severity s = "" := by
  cases s <;> exact escape_plain hcolor _

theorem bar_plain (g : String) : r.bar g ++ " " = margin g := by
  rw [bar, blue, reset, escape_plain hcolor, escape_plain hcolor, String.append_empty,
    String.append_empty, margin, String.append_assoc]
  rfl

theorem carets_plain (s : Severity) (line start stop : Nat) :
    r.carets s ⟨line, start⟩ ⟨line, stop⟩ = [margin "  " ++ spaces (start - 1) ++
      String.ofList (List.replicate (max 1 (stop + 1 - start)) '^')] := by
  rw [carets, if_pos rfl, bar_plain hcolor, severity_plain hcolor, reset, escape_plain hcolor,
    String.append_empty, String.append_empty]

end Plain

/-- Of two lines the one shows the line of a text that has the characters from `i` to before `j`, the
first of them in a column, and the other has its carets from a column on. -/
structure Drawn (cs : List Char) (i j : Nat) (quoted carets : String) (column caret : Nat) :
    Prop where
  line : ∃ front, quoted.toList = front ++ Text.lineAround cs i ∧
    column = front.length + (i - Text.lineStart cs i)
  marked : ∀ k < j - i, quoted.toList[column + k]? = cs[i + k]?
  carets : ∃ padding, carets.toList = padding ++ List.replicate (j - i) '^' ∧ '^' ∉ padding ∧
    padding.length = caret

def quotedLine (cs : List Char) (i : Nat) : String :=
  margin (gutter (1 + (cs.take i).count '\n')) ++ String.ofList (Text.lineAround cs i)

def caretLine (cs : List Char) (i j : Nat) : String :=
  margin "  " ++ spaces (i - Text.lineStart cs i) ++ String.ofList (List.replicate (j - i) '^')

section Lines

variable {cs : List Char} {i j : Nat}

theorem spaces_toList (n : Nat) : (spaces n).toList = List.replicate n ' ' :=
  String.toList_ofList

theorem quotedLine_toList (cs : List Char) (i : Nat) : (quotedLine cs i).toList =
    (margin (gutter (1 + (cs.take i).count '\n'))).toList ++ Text.lineAround cs i := by
  rw [quotedLine, String.toList_append, String.toList_ofList]

theorem caretLine_toList (cs : List Char) (i j : Nat) : (caretLine cs i j).toList =
    (margin "  ").toList ++ List.replicate (i - Text.lineStart cs i) ' ' ++
      List.replicate (j - i) '^' := by
  rw [caretLine, String.toList_append, String.toList_append, String.toList_ofList, spaces_toList]

theorem newline_not_mem_caretLine (cs : List Char) (i j : Nat) :
    '\n' ∉ (caretLine cs i j).toList := by
  rw [caretLine_toList, List.mem_append, List.mem_append, not_or, not_or]
  exact ⟨⟨newline_not_mem_margin (by decide), not_mem_replicate (by decide) _⟩,
    not_mem_replicate (by decide) _⟩

section Plain

variable (hbreaks : ∀ c ∈ cs, Text.isLineBreak c → c = '\n')

include hbreaks

theorem newline_not_mem_quotedLine (i : Nat) : '\n' ∉ (quotedLine cs i).toList := by
  rw [quotedLine_toList, List.mem_append, not_or]
  refine ⟨newline_not_mem_margin (newline_not_mem_gutter _), ?_⟩
  rw [Text.lineAround_eq_slice hbreaks]
  exact Text.newline_not_mem_line cs i

theorem drawn_lines (hj : j ≤ cs.length) (hline : '\n' ∉ Lexer.slice cs i j) :
    Drawn cs i j (quotedLine cs i) (caretLine cs i j)
      ((margin (gutter (1 + (cs.take i).count '\n'))).length + (i - Text.lineStart cs i))
      ((margin "  ").length + (i - Text.lineStart cs i)) := by
  refine ⟨⟨_, quotedLine_toList cs i, by rw [String.length_toList]⟩, fun k hk => ?_,
    ⟨_, caretLine_toList cs i j, ?_, ?_⟩⟩
  · rw [quotedLine_toList, Nat.add_assoc, ← String.length_toList,
      List.getElem?_append_right (Nat.le_add_right _ _), Nat.add_sub_cancel_left]
    exact Text.lineAround_getElem? hbreaks hj hline (by omega)
  · rw [List.mem_append, not_or]
    exact ⟨by decide, not_mem_replicate (by decide) _⟩
  · rw [List.length_append, String.length_toList, List.length_replicate]

end Plain

end Lines

section Label

variable {r : Rendering} {content name file : String} {i j : Nat}

theorem labelLines_plain (message : String) (s : Severity) (hcolor : r.color = false)
    (hsource : r.source? file = some (.ofString content name))
    (hbreaks : ∀ c ∈ content.toList, Text.isLineBreak c → c = '\n') (hij : i < j)
    (hj : j ≤ content.length) (hline : '\n' ∉ Lexer.slice content.toList i j) :
    ∃ place rail messages, r.labelLines s ⟨file, i, j, message⟩ = place :: rail ::
      quotedLine content.toList i :: caretLine content.toList i j :: messages := by
  have hi : i ≤ content.length := Nat.le_trans (Nat.le_of_lt hij) hj
  have hlast : max (i : Int) (j - 1) = (j - 1 : Nat) := by omega
  obtain ⟨hstart, hcount⟩ := Text.same_line (Nat.le_sub_one_of_lt hij) (Nat.sub_le j 1) hline
  have hquoted : SourceText.Quotes content name i :=
    SourceText.quotes_of_plain hi fun k _ => Text.not_stray hbreaks k
  rw [SourceText.Quotes] at hquoted
  have hle := Text.lineStart_le content.toList i
  have hwidth : max 1 (j - 1 - Text.lineStart content.toList i + 1 + 1 -
      (i - Text.lineStart content.toList i + 1)) = j - i := by omega
  rw [labelLines, hsource]
  simp only [hlast, hquoted]
  rw [SourceText.position_eq hi, SourceText.position_eq (Nat.le_trans (Nat.sub_le j 1) hj), hstart,
    hcount, carets_plain hcolor, hwidth, bar_plain hcolor, quotedLine, caretLine]
  exact ⟨_, _, _, rfl⟩

theorem render_labelLines {d : Diagnostic} {l : Label} (h : l ∈ d.labels) :
    ∃ above below, r.render d = "\n".intercalate (above ++ r.labelLines d.severity l ++ below) := by
  obtain ⟨before, after, hlabels⟩ := List.append_of_mem h
  refine ⟨r.heading d :: before.flatMap (r.labelLines d.severity),
    after.flatMap (r.labelLines d.severity) ++ d.notes.map r.note, ?_⟩
  rw [render, hlabels]
  simp only [List.flatMap_append, List.flatMap_cons, List.cons_append, List.append_assoc]

theorem render_carets {d : Diagnostic} {l : Label} (hcolor : r.color = false) (hl : l ∈ d.labels)
    (hspan : l.start = i ∧ l.stop = j) (hsource : r.source? l.file = some (.ofString content name))
    (hbreaks : ∀ c ∈ content.toList, Text.isLineBreak c → c = '\n') (hij : i < j)
    (hj : j ≤ content.length) (hline : '\n' ∉ Lexer.slice content.toList i j) :
    ∃ above quoted carets below column caret,
      r.render d = "\n".intercalate (above ++ r.labelLines d.severity l ++ below) ∧
      (r.labelLines d.severity l)[2]? = some quoted ∧ '\n' ∉ quoted.toList ∧
      (r.labelLines d.severity l)[3]? = some carets ∧ '\n' ∉ carets.toList ∧
      Drawn content.toList i j quoted carets column caret ∧
      column = caret +
        (max 4 (toString ((SourceText.ofString content name).position i).line).length - 2) := by
  obtain ⟨file, start, stop, message⟩ := l
  obtain ⟨rfl, rfl⟩ := hspan
  obtain ⟨above, below, hrender⟩ := render_labelLines (r := r) hl
  obtain ⟨place, rail, messages, hlines⟩ :=
    labelLines_plain message d.severity hcolor hsource hbreaks hij hj hline
  have hlength : j ≤ content.toList.length := by rwa [String.length_toList]
  refine ⟨above, _, _, below, _, _, hrender, congrArg (·[2]?) hlines,
    newline_not_mem_quotedLine hbreaks i, congrArg (·[3]?) hlines,
    newline_not_mem_caretLine content.toList i j, drawn_lines hbreaks hlength hline, ?_⟩
  rw [SourceText.position_eq (Nat.le_trans (Nat.le_of_lt hij) hj), margin_length, margin_length,
    gutter_length]
  have hblanks : "  ".length = 2 := rfl
  dsimp only
  omega

end Label

def squared : String :=
  "let\n  x = yy\n"

def squaredLabel : Label :=
  ⟨"m.whiley", 10, 12, ""⟩

def squaredDiagnostic : Diagnostic :=
  ⟨.error, "E200", "no square", [squaredLabel], []⟩

def squaredRendering : Rendering :=
  ⟨false, fun _ => some (.ofString squared "m.whiley")⟩

theorem render_carets_squared : squaredRendering.color = false ∧
    squaredLabel ∈ squaredDiagnostic.labels ∧ 12 ≤ squared.length ∧
    '\n' ∉ Lexer.slice squared.toList 10 12 ∧
    ∃ quoted carets column caret, Drawn squared.toList 10 12 quoted carets column caret ∧
      (squaredRendering.labelLines .error squaredLabel)[2]? = some quoted ∧
      (squaredRendering.labelLines .error squaredLabel)[3]? = some carets ∧ column = caret + 2 := by
  have hlabel : squaredLabel ∈ squaredDiagnostic.labels := List.mem_singleton_self _
  have hspan : squaredLabel.start = (10 : Nat) ∧ squaredLabel.stop = (12 : Nat) := ⟨rfl, rfl⟩
  have hsource : squaredRendering.source? squaredLabel.file =
      some (.ofString squared "m.whiley") := rfl
  have hbreaks : ∀ c ∈ squared.toList, Text.isLineBreak c → c = '\n' := by
    simp [squared, Text.isLineBreak]
  have hlength : 12 ≤ squared.length := by decide
  have hline : '\n' ∉ Lexer.slice squared.toList 10 12 := by decide
  obtain ⟨-, quoted, carets, -, column, caret, -, hquoted, -, hcarets, -, hdrawn, hcolumn⟩ :=
    render_carets rfl hlabel hspan hsource hbreaks (by decide) hlength hline
  have hdigits : max 4 (toString ((SourceText.ofString squared "m.whiley").position 10).line).length -
      2 = 2 := by decide +kernel
  exact ⟨rfl, hlabel, hlength, hline, quoted, carets, column, caret, hdrawn, hquoted, hcarets,
    hcolumn.trans (congrArg _ hdigits)⟩

end Rendering

end Whiley
