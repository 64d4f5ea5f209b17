import Whiley.Proofs.Token.Legible
import Whiley.Proofs.Token.Lossless
import Whiley.Proofs.Token.Words

namespace Whiley

namespace Kind

theorem symbols_longest_first :
    symbols.Pairwise fun k k' => k'.spelling.length ≤ k.spelling.length := by decide +kernel

theorem not_word_of_symbol {k : Kind} (h : k ∈ symbols) : ¬ (k = .identifier ∨ k ∈ keywords) := by
  cases k <;> revert h <;> decide

theorem not_symbol_of_numeral {k : Kind} (h : k = .byteLit ∨ k = .intLit) : k ∉ symbols := by
  rcases h with rfl | rfl <;> decide

theorem not_word_of_numeral {k : Kind} (h : k = .byteLit ∨ k = .intLit) :
    ¬ (k = .identifier ∨ k ∈ keywords) := by
  rcases h with rfl | rfl <;> decide

theorem ofWord_mem_keywords {text : String} :
    ofWord text ∈ keywords ↔ text ∈ keywords.map spelling := by
  rw [ofWord]
  cases hfind : keywords.find? (·.spelling = text) with
  | none =>
    refine iff_of_false (by decide) fun hmem => ?_
    obtain ⟨k, hk, hspelling⟩ := List.mem_map.mp hmem
    simpa [hspelling] using List.find?_eq_none.mp hfind k hk
  | some k =>
    have hk := List.mem_of_find?_eq_some hfind
    refine iff_of_true hk (List.mem_map.mpr ⟨k, hk, ?_⟩)
    simpa using List.find?_some hfind

end Kind

namespace Lexer

/-- Digits between two texts, as many as there are. -/
structure DigitRun (before digits after : List Char) : Prop where
  numeral : IsNumeral digits
  before : before.getLast?.any isDigit = false
  after : after.head?.any isDigit = false

/-- The token of a kind that stands between two texts could not have been cut longer. -/
structure Longest (k : Kind) (before text after : List Char) : Prop where
  symbol : k ∈ Kind.symbols → text = k.spelling.toList ∧
    ∀ k' ∈ Kind.symbols, k'.spelling.toList <+: text ++ after → k'.spelling.length ≤ text.length
  slash : k = .slash → after.head? ≠ some '/' ∧ after.head? ≠ some '*'
  word : k = .identifier ∨ k ∈ Kind.keywords → after.head?.any isWordChar = false
  keyword : k = .identifier ∨ k ∈ Kind.keywords →
    (k ∈ Kind.keywords ↔ String.ofList text ∈ Kind.keywords.map Kind.spelling) ∧
      (k ∈ Kind.keywords → text = k.spelling.toList)
  intLit : k = .intLit → DigitRun before text after ∧
    ∀ rest, after = 'b' :: rest → rest.head?.any isWordChar
  byteLit : k = .byteLit → ∃ digits, text = digits ++ ['b'] ∧
    DigitRun before digits ('b' :: after) ∧ after.head?.any isWordChar = false

section Runs

variable {p : Char → Bool} {cs : List Char}

theorem head?_drop_run (p : Char → Bool) (cs : List Char) :
    (cs.drop (run p cs)).head?.any p = false := by
  rw [List.head?_drop]
  exact (any_run p cs).2

theorem not_digit_of_not_wordChar {o : Option Char} (h : o.any isWordChar = false) :
    o.any isDigit = false := by
  cases o with
  | none => rfl
  | some c => exact eq_false_of_ne_true fun hc => absurd (isWordChar_of_isDigit hc) (by simpa using h)

theorem byteMark_eq_false (h : byteMark cs = false) :
    ∀ rest, cs = 'b' :: rest → rest.head?.any isWordChar := by
  rintro rest rfl
  cases rest with
  | nil => cases h
  | cons c rest => simpa [byteMark] using h

theorem byteMark_eq_true (h : byteMark cs) :
    ∃ rest, cs = 'b' :: rest ∧ rest.head?.any isWordChar = false := by
  unfold byteMark at h
  split at h
  · exact ⟨_, rfl, by simpa using h⟩
  · exact ⟨[], rfl, rfl⟩
  · cases h

theorem symbol_longest {k k' : Kind} (h : symbol cs = some k) (hk' : k' ∈ Kind.symbols)
    (hbegins : k'.spelling.toList <+: cs) : k'.spelling.length ≤ k.spelling.length := by
  obtain ⟨-, as, bs, hsymbols, has⟩ := List.find?_eq_some_iff_append.mp h
  have horder := Kind.symbols_longest_first
  rw [hsymbols] at hk' horder
  rcases List.mem_append.mp hk' with hmem | hmem
  · have hno := has k' hmem
    rw [List.isPrefixOf_iff_prefix.mpr hbegins] at hno
    cases hno
  · rcases List.mem_cons.mp hmem with rfl | hmem
    · exact Nat.le_refl _
    · exact List.rel_of_pairwise_cons (List.pairwise_append.mp horder).2.1 hmem

end Runs

section Cut

variable {lineStart : Bool} {c : Char} {cs : List Char} {k : Kind} {n : Nat}

theorem symbol_of_cuts (h : Cuts lineStart c cs k n) (hk : k ∈ Kind.symbols) :
    symbol (c :: cs) = some k ∧ n = k.spelling.length ∧
      (c = '/' → cs.head? ≠ some '/' ∧ cs.head? ≠ some '*') := by
  cases h with
  | symbol hsymbol hslash => exact ⟨hsymbol, rfl, hslash⟩
  | numeral _ hn => exact absurd hk (Kind.not_symbol_of_numeral (numeral_kind hn))
  | word _ hn => exact absurd (word_kind hn) (Kind.not_word_of_symbol hk)
  | _ => exact absurd hk (by decide)

theorem word_of_cuts (h : Cuts lineStart c cs k n) (hk : k = .identifier ∨ k ∈ Kind.keywords) :
    word (c :: cs) = .token k n := by
  cases h with
  | word _ hn => exact hn
  | symbol hsymbol _ => exact absurd hk (Kind.not_word_of_symbol (symbol_spelled hsymbol).1)
  | numeral _ hn => exact absurd hk (Kind.not_word_of_numeral (numeral_kind hn))
  | _ => exact absurd hk (by decide)

theorem numeral_of_cuts (h : Cuts lineStart c cs k n) (hk : k = .byteLit ∨ k = .intLit) :
    isDigit c ∧ numeral (c :: cs) = .token k n := by
  cases h with
  | numeral hc hn => exact ⟨hc, hn⟩
  | symbol hsymbol _ => exact absurd (symbol_spelled hsymbol).1 (Kind.not_symbol_of_numeral hk)
  | word _ hn => exact absurd (word_kind hn) (Kind.not_word_of_numeral hk)
  | _ => exact absurd hk (by decide)

theorem numeral_cases (h : numeral cs = .token k n) :
    (k = .byteLit ∧ n = run isDigit cs + 1 ∧ byteMark (cs.drop (run isDigit cs))) ∨
      (k = .intLit ∧ n = run isDigit cs ∧ byteMark (cs.drop (run isDigit cs)) = false) := by
  rw [numeral] at h
  split at h
  · rename_i hmark
    obtain ⟨rfl, rfl⟩ := Lexeme.token.inj h
    exact .inl ⟨rfl, rfl, hmark⟩
  · rename_i hmark
    obtain ⟨rfl, rfl⟩ := Lexeme.token.inj h
    exact .inr ⟨rfl, rfl, eq_false_of_ne_true hmark⟩

theorem word_stop (h : word cs = .token k n) : (cs.drop n).head?.any isWordChar = false := by
  obtain ⟨-, rfl⟩ := Lexeme.token.inj h
  exact head?_drop_run isWordChar cs

theorem lineLength_stop (cs : List Char) :
    (cs.drop (lineLength cs)).head?.any isDigit = false := by
  fun_induction lineLength cs with
  | case1 => rfl
  | case2 => rfl
  | case3 => rfl
  | case4 c cs _ _ ih => exact ih

def Parted (before after : List Char) : Prop :=
  before.getLast?.any isDigit → after.head?.any isDigit = false

theorem parted_of_last {before after : List Char} (h : before.getLast?.any isDigit = false) :
    Parted before after :=
  fun hlast => absurd hlast (by simp [h])

theorem not_digit_of_concat {d : Char} {ds : List Char} (hd : isDigit d = false) :
    (ds ++ [d]).getLast?.any isDigit = false := by
  rw [List.getLast?_concat]
  exact hd

theorem not_digit_of_blanks (cs : List Char) :
    (cs.take (run isBlank cs)).getLast?.any isDigit = false := by
  rw [take_run]
  cases hlast : (cs.takeWhile isBlank).getLast? with
  | none => rfl
  | some d =>
    have hd : isBlank d := List.mem_takeWhile_imp (List.mem_of_getLast? hlast)
    rcases isBlank_iff.mp hd with rfl | rfl <;> rfl

theorem parted_token (h : lexeme lineStart c cs = .ok (.token k n)) :
    Parted ((c :: cs).take n) ((c :: cs).drop n) := by
  obtain ⟨hspelled, -⟩ := lexeme_token h
  cases lexeme_cuts h with
  | indent => exact parted_of_last (not_digit_of_blanks (c :: cs))
  | newline hc =>
    subst hc
    exact parted_of_last rfl
  | lineReturn hc hcs =>
    obtain ⟨rest, rfl⟩ := List.head?_eq_some_iff.mp hcs
    exact parted_of_last rfl
  | lineComment => exact fun _ => lineLength_stop cs
  | blockComment hc hcs hn =>
    obtain ⟨rest, rfl⟩ := List.head?_eq_some_iff.mp hcs
    have hslash := commentLength_last hn
    simp only [List.drop_succ_cons, List.drop_zero] at hslash
    refine parted_of_last ?_
    simp only [List.take_succ_cons, List.getLast?_cons, hslash]
    rfl
  | string =>
    obtain ⟨body, hbody, -⟩ := hspelled
    exact parted_of_last (hbody ▸ not_digit_of_concat rfl)
  | char =>
    obtain ⟨body, hbody, -⟩ := hspelled
    exact parted_of_last (hbody ▸ not_digit_of_concat rfl)
  | numeral _ hn =>
    rcases numeral_cases hn with ⟨rfl, -, -⟩ | ⟨rfl, rfl, -⟩
    · obtain ⟨digits, hdigits, -⟩ := hspelled
      exact parted_of_last (hdigits ▸ not_digit_of_concat rfl)
    · exact fun _ => head?_drop_run isDigit (c :: cs)
  | word _ hn => exact fun _ => not_digit_of_not_wordChar (word_stop hn)
  | symbol hk =>
    have hsymbols : ∀ k ∈ Kind.symbols, k.spelling.toList.getLast?.any isDigit = false := by decide
    have hmem := (symbol_spelled hk).1
    rw [Kind.spelled_iff_of_fixed (Kind.symbols_not_classes hmem)] at hspelled
    exact parted_of_last (hspelled ▸ hsymbols k hmem)

theorem parted_blanks (h : lexeme lineStart c cs = .ok (.blanks n)) :
    Parted ((c :: cs).take n) ((c :: cs).drop n) := by
  obtain ⟨-, -, rfl⟩ := lexeme_blanks_cases h
  exact parted_of_last (not_digit_of_blanks (c :: cs))

theorem Parted.digitRun {before digits after : List Char} (h : Parted before (digits ++ after))
    (hdigits : IsNumeral digits) (hafter : after.head?.any isDigit = false) :
    DigitRun before digits after := by
  refine ⟨hdigits, eq_false_of_ne_true fun hlast => ?_, hafter⟩
  obtain ⟨d, ds, rfl⟩ := List.exists_cons_of_ne_nil hdigits.1
  have hd : isDigit d := hdigits.2 d List.mem_cons_self
  have hnot : isDigit d = false := h hlast
  rw [hnot] at hd
  cases hd

theorem slash_of_cuts (h : Cuts lineStart c cs .slash n) :
    ((c :: cs).drop n).head? ≠ some '/' ∧ ((c :: cs).drop n).head? ≠ some '*' := by
  obtain ⟨hsymbol, rfl, hnext⟩ := symbol_of_cuts h (by decide)
  obtain ⟨rest, hrest⟩ := (symbol_spelled hsymbol).2
  exact hnext (List.cons.inj hrest).1.symm

theorem keyword_of_cuts (h : Cuts lineStart c cs k n) (hk : k = .identifier ∨ k ∈ Kind.keywords) :
    k ∈ Kind.keywords ↔
      String.ofList ((c :: cs).take n) ∈ Kind.keywords.map Kind.spelling := by
  obtain ⟨rfl, rfl⟩ := Lexeme.token.inj (word_of_cuts h hk)
  exact Kind.ofWord_mem_keywords

theorem longest_token {before : List Char} (hbefore : Parted before (c :: cs))
    (h : lexeme lineStart c cs = .ok (.token k n)) :
    Longest k before ((c :: cs).take n) ((c :: cs).drop n) := by
  obtain ⟨hspelled, -⟩ := lexeme_token h
  have hcuts := lexeme_cuts h
  have hfixed (hk : k ∉ Kind.classes) : (c :: cs).take n = k.spelling.toList :=
    (Kind.spelled_iff_of_fixed hk).mp hspelled
  refine ⟨fun hk => ?_, ?_, fun hk => word_stop (word_of_cuts hcuts hk), fun hk => ?_, ?_, ?_⟩
  · obtain ⟨hsymbol, -, -⟩ := symbol_of_cuts hcuts hk
    have htext := hfixed (Kind.symbols_not_classes hk)
    refine ⟨htext, fun k' hk' hbegins => ?_⟩
    rw [List.take_append_drop] at hbegins
    rw [htext, String.length_toList]
    exact symbol_longest hsymbol hk' hbegins
  · rintro rfl
    exact slash_of_cuts hcuts
  · exact ⟨keyword_of_cuts hcuts hk, fun hk => hfixed (Kind.keywords_not_classes hk)⟩
  · rintro rfl
    rcases numeral_cases (numeral_of_cuts hcuts (.inr rfl)).2 with ⟨hk, -⟩ | ⟨-, rfl, hmark⟩
    · cases hk
    · rw [← List.take_append_drop (run isDigit (c :: cs)) (c :: cs)] at hbefore
      exact ⟨hbefore.digitRun hspelled (head?_drop_run isDigit (c :: cs)), byteMark_eq_false hmark⟩
  · rintro rfl
    rcases numeral_cases (numeral_of_cuts hcuts (.inl rfl)).2 with ⟨-, rfl, hmark⟩ | ⟨hk, -⟩
    · obtain ⟨digits, hdigits, hnumeral⟩ := hspelled
      obtain ⟨rest, hrest, hnext⟩ := byteMark_eq_true hmark
      have hafter : (c :: cs).drop (run isDigit (c :: cs) + 1) = rest := by
        rw [← List.drop_drop, hrest]
        rfl
      rw [← List.take_append_drop (run isDigit (c :: cs) + 1) (c :: cs), hdigits, hafter,
        List.append_assoc] at hbefore
      rw [hafter]
      exact ⟨digits, hdigits, hbefore.digitRun hnumeral rfl, hnext⟩
    · cases hk

end Cut

theorem Parted.advance {cs ds : List Char} {c : Char} {i n : Nat} (hcs : cs.drop i = c :: ds)
    (hn : 0 < n) (h : Parted ((c :: ds).take n) ((c :: ds).drop n)) :
    Parted (cs.take (i + n)) (cs.drop (i + n)) := by
  rw [Parted, List.take_add, ← List.drop_drop, hcs, List.getLast?_append_of_ne_nil]
  · exact h
  · obtain ⟨m, rfl⟩ := Nat.exists_eq_succ_of_ne_zero (Nat.ne_of_gt hn)
    exact List.cons_ne_nil c (ds.take m)

theorem tokensFrom_longest {cs : List Char} {fuel i : Nat} {lineStart : Bool} {ts : List Token}
    (hbefore : Parted (cs.take i) (cs.drop i))
    (h : tokensFrom fuel i lineStart (cs.drop i) = .ok ts) :
    ∀ t ∈ ts, Longest t.kind (cs.take t.start) t.text.toList (cs.drop t.stop) := by
  induction fuel generalizing i lineStart ts with
  | zero =>
    obtain rfl : [] = ts := Except.ok.inj h
    exact List.forall_mem_nil _
  | succ fuel ih =>
    cases hcs : cs.drop i with
    | nil =>
      rw [hcs] at h
      obtain rfl : [] = ts := Except.ok.inj h
      exact List.forall_mem_nil _
    | cons c ds =>
      have hdrop (n : Nat) : (c :: ds).drop n = cs.drop (i + n) := by rw [← hcs, List.drop_drop]
      rw [hcs] at h hbefore
      rcases tokensFrom_cases h with ⟨n, hl, hrest⟩ | ⟨k, n, rest, hl, hrest, rfl⟩
      · rw [hdrop] at hrest
        exact ih ((parted_blanks hl).advance hcs (lexeme_blanks hl).1) hrest
      · have hlongest := longest_token hbefore hl
        rw [hdrop] at hrest hlongest
        refine List.forall_mem_cons.mpr ⟨?_, ih ((parted_token hl).advance hcs (lexeme_token hl).2.1) hrest⟩
        exact String.toList_ofList.symm ▸ hlongest

end Lexer

open Lexer

theorem lex_longest {source : String} {tokens : List Token} (h : lex source = .ok tokens) :
    ∀ t ∈ tokens, t.text.toList = slice source.toList t.start t.stop ∧
      Longest t.kind (source.toList.take t.start) t.text.toList (source.toList.drop t.stop) := by
  have hstart : Parted (source.toList.take 0) (source.toList.drop 0) := fun hlast => nomatch hlast
  exact fun t ht => ⟨(lex_laid h).text t ht, tokensFrom_longest hstart h t ht⟩

def crowded : String :=
  "<==>=12b3 /0101b>>>.. ..iff2 if"

theorem lex_longest_crowded : ∃ tokens, lex crowded = .ok tokens ∧
    tokens.map (·.kind) = [.iff, .assign, .intLit, .identifier, .slash, .byteLit, .shiftRight,
      .greater, .dotDot, .dotDot, .identifier, .kwIf] ∧
    ∀ t ∈ tokens, Longest t.kind (crowded.toList.take t.start) t.text.toList
      (crowded.toList.drop t.stop) := by
  obtain ⟨tokens, h, hkinds⟩ : ∃ tokens, lex crowded = .ok tokens ∧
      tokens.map (·.kind) = [.iff, .assign, .intLit, .identifier, .slash, .byteLit, .shiftRight,
        .greater, .dotDot, .dotDot, .identifier, .kwIf] := ⟨_, rfl, by decide +kernel⟩
  exact ⟨tokens, h, hkinds, fun t ht => (lex_longest h t ht).2⟩

end Whiley
