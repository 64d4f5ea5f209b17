import Whiley.Proofs.Grammar.Appended
import Whiley.Proofs.Grammar.LineStarts

namespace Whiley

section Lines

variable {ts us left : List Token}

theorem tokenLines_append (h : ∀ t ∈ ts.getLast?, t.kind = .newline) :
    tokenLines (ts ++ us) = tokenLines ts ++ tokenLines us := by
  induction ts with
  | nil => rfl
  | cons t ts ih =>
    by_cases ht : t.kind = .newline
    · have hts : ∀ u ∈ ts.getLast?, u.kind = .newline := by
        intro u hu
        refine h u ?_
        rw [List.getLast?_cons, hu]
        rfl
      rw [List.cons_append, tokenLines, tokenLines, if_pos ht, if_pos ht, ih hts, List.cons_append]
    · -- a line that is not over goes on in `ts`
      obtain ⟨u, rest, rfl⟩ : ∃ u rest, ts = u :: rest := by
        cases ts with
        | nil => exact absurd (h t rfl) ht
        | cons u rest => exact ⟨u, rest, rfl⟩
      rw [List.cons_append, tokenLines, tokenLines, if_neg ht, if_neg ht, ih (by simpa using h)]
      cases hlines : tokenLines (u :: rest) with
      | nil =>
        have hflatten := flatten_tokenLines (u :: rest)
        rw [hlines] at hflatten
        cases hflatten
      | cons l ls => rfl

theorem PastBlankLines.lines (h : PastBlankLines ts left) :
    ∃ passed, tokenLines ts = passed ++ tokenLines left ∧ (∀ l ∈ passed, holdsWord l = false) ∧
      ∀ l ∈ (tokenLines left).head?, holdsWord l := by
  induction h with
  | @done ts h =>
    have hall := isLineSpaceOnly_of_pastSpace h
    refine ⟨tokenLines ts, (List.append_nil _).symm, fun l hl => ?_, by simp [tokenLines]⟩
    rw [holdsWord, List.any_eq_false]
    intro t ht
    have hts : t ∈ ts := by
      rw [← flatten_tokenLines ts]
      exact List.mem_flatten.mpr ⟨l, hl, ht⟩
    simp [Input.isSpace_of_skips (List.all_eq_true.mp hall t hts)]
  | stay h hu =>
    obtain ⟨l, ls, hlines, -, hword⟩ := tokenLines_word h hu
    refine ⟨[], rfl, List.forall_mem_nil _, fun l' hl' => ?_⟩
    rw [hlines] at hl'
    obtain rfl := Option.some.inj hl'
    exact hword
  | blank h hn _ ih =>
    obtain ⟨l, hlines, hblank⟩ := tokenLines_blank h hn
    obtain ⟨passed, hrest, hpassed, hnext⟩ := ih
    refine ⟨l :: passed, by rw [hlines, hrest, List.cons_append], fun l' hl' => ?_, hnext⟩
    rcases List.mem_cons.mp hl' with rfl | hl'
    · exact hblank
    · exact hpassed l' hl'

end Lines

def Token.blanks (t : Token) : Indent :=
  ⟨t.text.toList.count ' ', t.text.toList.count '\t'⟩

/-- The indent that a line begins with, if it begins with one. -/
def lineDepth (l : List Token) : Option Indent :=
  (l.head?.filter fun t => t.kind = .indent).map Token.blanks

theorem lineDepth_head (ts : List Token) :
    (tokenLines ts).head?.bind lineDepth =
      (ts.head?.filter fun t => t.kind = .indent).map Token.blanks := by
  cases ts with
  | nil => rfl
  | cons t ts =>
    rw [tokenLines]
    split
    · rfl
    · cases tokenLines ts <;> rfl

namespace Input

variable {input : Input} {tokens : List Token} {i : Nat}

theorem BeginsLine.le_size (h : input.BeginsLine i) : i ≤ input.tokens.size := by
  rcases h with rfl | ⟨j, t, rfl, ht, -⟩
  · exact Nat.zero_le _
  · obtain ⟨hj, -⟩ := Array.getElem?_eq_some_iff.mp ht
    exact hj

theorem BeginsLine.take_ends (h : (ofTokens tokens).BeginsLine i) :
    ∀ t ∈ (tokens.take i).getLast?, t.kind = .newline := by
  rcases h with rfl | ⟨j, u, rfl, hu, hk⟩
  · exact nofun
  · intro t ht
    rw [getElem?_ofTokens] at hu
    rw [List.take_add_one, hu, Option.toList_some, List.getLast?_concat] at ht
    exact Option.some.inj ht ▸ hk

theorem skipLines_le (hi : i ≤ input.tokens.size) : input.skipLines i ≤ input.tokens.size := by
  obtain ⟨hle, hskipped⟩ := (input.pastLines_skipLines i).skipped
  by_contra hlt
  obtain ⟨t, ht, -⟩ := hskipped input.tokens.size hi (by omega)
  simp at ht

end Input

namespace Parser

variable {input : Input} {source : String} {tokens : List Token} {i : Nat}

theorem run_lineIndent (hlexed : ∀ t ∈ input.tokens, t.Lexed) (s : Reading) :
    lineIndent.run input s =
      .ok ((input.indentAt (input.skipLines s.pos)).map Token.blanks)
        { s with pos := input.skipLines s.pos } := by
  rw [lineIndent, run_bind, run_lineStart]
  cases hat : input.indentAt (input.skipLines s.pos) with
  | none => rfl
  | some t =>
    obtain ⟨ht, hk⟩ : input.tokens[input.skipLines s.pos]? = some t ∧ t.kind = .indent := by
      simpa [Input.indentAt, Option.filter_eq_some_iff] using hat
    dsimp only
    rw [(hlexed t (Array.mem_of_getElem? ht)).ofText_indent hk]
    rfl

/-- From where a line begins the lines without a word are passed, and no more; the answer is the indent
of the line that comes next, and to ask again changes nothing. -/
theorem lineIndent_settles (hlex : lex source = .ok tokens)
    (hi : (Input.ofTokens tokens).BeginsLine i) :
    ∃ before passed left j, tokenLines tokens = before ++ passed ++ left ∧
      i = before.flatten.length ∧ j = (before ++ passed).flatten.length ∧
      (∀ l ∈ passed, holdsWord l = false) ∧ (∀ l ∈ left.head?, holdsWord l) ∧
      ∀ arena,
        lineIndent.run (.ofTokens tokens) ⟨i, arena⟩ =
          .ok (left.head?.bind lineDepth) ⟨j, arena⟩ ∧
        lineIndent.run (.ofTokens tokens) ⟨j, arena⟩ =
          .ok (left.head?.bind lineDepth) ⟨j, arena⟩ := by
  let input := Input.ofTokens tokens
  have hlexed : ∀ t ∈ input.tokens, t.Lexed :=
    fun t ht => lex_lexed hlex t (List.mem_toArray.mp ht)
  have hpast : PastBlankLines (tokens.drop i) (tokens.drop (input.skipLines i)) :=
    input.after_skipLines (i := i)
  obtain ⟨passed, hlines, hpassed, hnext⟩ := hpast.lines
  have hle : i ≤ tokens.length := hi.le_size
  have hend : input.skipLines i ≤ tokens.length := Input.skipLines_le hi.le_size
  have hbefore : (tokenLines (tokens.take i)).flatten.length = i := by
    rw [flatten_tokenLines, List.length_take_of_le hle]
  -- the cut into lines loses no token, so the lines that are passed are as long as the way
  have hlength : i + passed.flatten.length = input.skipLines i := by
    have hdrop := congrArg (List.length ∘ List.flatten) hlines
    simp only [Function.comp_apply, List.flatten_append, flatten_tokenLines, List.length_append,
      List.length_drop] at hdrop
    omega
  have hdepth : (input.indentAt (input.skipLines i)).map Token.blanks =
      (tokenLines (tokens.drop (input.skipLines i))).head?.bind lineDepth := by
    rw [lineDepth_head, Input.indentAt_eq]
    rfl
  refine ⟨tokenLines (tokens.take i), passed, tokenLines (tokens.drop (input.skipLines i)),
    input.skipLines i, ?_, hbefore.symm, ?_, hpassed, hnext, fun arena => ⟨?_, ?_⟩⟩
  · rw [List.append_assoc, ← hlines, ← tokenLines_append hi.take_ends, List.take_append_drop]
  · rw [List.flatten_append, List.length_append, hbefore, hlength]
  · rw [run_lineIndent hlexed, hdepth]
  · rw [run_lineIndent hlexed, ← hdepth, input.skipLines_skipLines]

/-- After the first line an empty line, a line of a comment, a comment over two lines of the text, and
a line that begins with an indent and a comment. -/
def commentedSource : String :=
  "skip\n\n  // aside\n /* over\n two */\n\t /* here */ fail\n"

theorem lineIndent_settles_commented :
    ∃ tokens before passed left, lex commentedSource = .ok tokens ∧
      (Input.ofTokens tokens).BeginsLine 2 ∧ tokenLines tokens = before ++ passed ++ left ∧
      2 = before.flatten.length ∧ 9 = (before ++ passed).flatten.length ∧
      (∀ l ∈ passed, holdsWord l = false) ∧ left.head?.bind lineDepth = some ⟨1, 1⟩ ∧
      ∀ arena,
        lineIndent.run (.ofTokens tokens) ⟨2, arena⟩ = .ok (some ⟨1, 1⟩) ⟨9, arena⟩ ∧
        lineIndent.run (.ofTokens tokens) ⟨9, arena⟩ = .ok (some ⟨1, 1⟩) ⟨9, arena⟩ := by
  have hlex : lex commentedSource = .ok ((lex commentedSource).toOption.getD []) := by
    decide +kernel
  generalize htokens : (lex commentedSource).toOption.getD [] = tokens at hlex
  have hsecond : tokens[1]?.map (·.kind) = some .newline := by
    rw [← htokens]
    decide +kernel
  obtain ⟨t, ht, hk⟩ := Option.map_eq_some_iff.mp hsecond
  have hi : (Input.ofTokens tokens).BeginsLine 2 :=
    .inr ⟨1, t, rfl, (Input.getElem?_ofTokens tokens 1).trans ht, hk⟩
  obtain ⟨before, passed, left, j, hlines, hbefore, hj, hpassed, -, hrun⟩ :=
    lineIndent_settles hlex hi
  have hpos : (lineIndent.run (.ofTokens tokens) ⟨2, .empty⟩).reading.pos = 9 := by
    rw [← htokens]
    decide +kernel
  have hanswer : (match lineIndent.run (.ofTokens tokens) ⟨2, .empty⟩ with
      | .ok depth _ => depth
      | .error .. => none) = some ⟨1, 1⟩ := by
    rw [← htokens]
    decide +kernel
  rw [(hrun .empty).1] at hpos hanswer
  obtain rfl : j = 9 := hpos
  have hdepth : left.head?.bind lineDepth = some ⟨1, 1⟩ := hanswer
  rw [hdepth] at hrun
  exact ⟨tokens, before, passed, left, hlex, hi, hlines, hbefore, hj, hpassed, hdepth, hrun⟩

end Parser

end Whiley
