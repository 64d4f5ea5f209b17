import Mathlib.Data.List.TakeWhile
import Mathlib.Tactic.SplitIfs
import Whiley.Token.Lexer

namespace Whiley

namespace Lexer

def IsWord (cs : List Char) : Prop :=
  ∃ c rest, cs = c :: rest ∧ isWordStart c ∧ ∀ d ∈ rest, isWordChar d

def IsNumeral (cs : List Char) : Prop :=
  cs ≠ [] ∧ ∀ c ∈ cs, isDigit c

def IsQuoted : List Char → Prop
  | [] => True
  | ['\\'] => False
  | '\\' :: _ :: cs => IsQuoted cs
  | c :: cs => c ≠ '"' ∧ c ≠ '\n' ∧ IsQuoted cs

theorem isQuoted_cons {c : Char} {cs : List Char} (hc : c ≠ '\\') :
    IsQuoted (c :: cs) ↔ c ≠ '"' ∧ c ≠ '\n' ∧ IsQuoted cs := by
  rw [IsQuoted]
  · exact fun h _ => hc h
  · exact fun _ _ h _ => hc h

end Lexer

open Lexer

def Kind.Spelled (cs : List Char) : Kind → Prop
  | .identifier => IsWord cs ∧ Kind.ofWord (String.ofList cs) = .identifier
  | .intLit => IsNumeral cs
  | .byteLit => ∃ ds, cs = ds ++ ['b'] ∧ IsNumeral ds
  | .charLit =>
    ∃ body, cs = '\'' :: body ++ ['\''] ∧ ((∃ c, body = [c] ∧ c ≠ '\\') ∨ ∃ c, body = ['\\', c])
  | .stringLit => ∃ body, cs = '"' :: body ++ ['"'] ∧ IsQuoted body
  | .indent => cs ≠ [] ∧ ∀ c ∈ cs, isBlank c
  | .newline => cs = ['\n'] ∨ cs = ['\r', '\n']
  | .lineComment => True
  | .blockComment => True
  | k => cs = k.spelling.toList

def Token.Lexed (t : Token) : Prop :=
  t.kind.Spelled t.text.toList

namespace Lexer

theorem isWordChar_of_isWordStart {c : Char} (h : isWordStart c) : isWordChar c := by
  simp only [isWordStart, isWordChar, Text.isAlphanumeric, Bool.or_eq_true] at h ⊢
  rcases h with h | h
  · exact Or.inl (Or.inl h)
  · exact Or.inr h

theorem isNumeral_toString (n : Nat) : IsNumeral (toString n).toList := by
  refine ⟨by simp [Nat.toDigits_ne_nil], fun c hc => ?_⟩
  have hmem : c ∈ Nat.toDigits 10 n := by simpa using hc
  have hdigit : c.isDigit := Nat.isDigit_of_mem_toDigits (by decide) (by decide) hmem
  simpa [isDigit, Char.isDigit, Char.le_def] using hdigit

theorem isNumeral_takeWhile {c : Char} {cs : List Char} (h : isDigit c) :
    IsNumeral ((c :: cs).takeWhile isDigit) := by
  constructor
  · simp [h]
  · intro d hd
    exact List.mem_takeWhile_imp hd

theorem isWord_takeWhile {c : Char} {cs : List Char} (h : isWordStart c) :
    IsWord ((c :: cs).takeWhile isWordChar) := by
  refine ⟨c, cs.takeWhile isWordChar, ?_, h, ?_⟩
  · simp [isWordChar_of_isWordStart h]
  · intro d hd
    exact List.mem_takeWhile_imp hd

theorem take_run (p : Char → Bool) (cs : List Char) : cs.take (run p cs) = cs.takeWhile p := by
  induction cs with
  | nil => rfl
  | cons c cs ih =>
    by_cases hc : p c
    · simpa [run, hc] using ih
    · simp [run, hc]

theorem drop_run (p : Char → Bool) (cs : List Char) : cs.drop (run p cs) = cs.dropWhile p := by
  induction cs with
  | nil => rfl
  | cons c cs ih =>
    by_cases hc : p c
    · simpa [run, hc] using ih
    · simp [run, hc]

theorem run_pos {p : Char → Bool} {c : Char} {cs : List Char} (h : p c) : 0 < run p (c :: cs) := by
  simp [run, h]

theorem run_le (p : Char → Bool) (cs : List Char) : run p cs ≤ cs.length :=
  (List.takeWhile_prefix p).length_le

theorem stringLength_quoted {cs : List Char} {n : Nat} (h : stringLength cs = some n) :
    ∃ body, cs.take n = body ++ ['"'] ∧ IsQuoted body ∧ n ≤ cs.length := by
  fun_induction stringLength cs generalizing n with
  | case1 => simp at h
  | case2 cs =>
    obtain rfl : 1 = n := by simpa using h
    exact ⟨[], by simp, trivial, by simp⟩
  | case3 => simp at h
  | case4 c cs ih =>
    obtain ⟨m, hm, rfl⟩ := Option.map_eq_some_iff.mp h
    obtain ⟨body, hbody, hq, hle⟩ := ih hm
    exact ⟨'\\' :: c :: body, by simp [hbody], hq, by simp only [List.length_cons]; omega⟩
  | case5 c cs hquote hline hescape ih =>
    obtain ⟨m, hm, rfl⟩ := Option.map_eq_some_iff.mp h
    obtain ⟨body, hbody, hq, hle⟩ := ih hm
    refine ⟨c :: body, by simp [hbody], ?_, by simp only [List.length_cons]; omega⟩
    have hc : c ≠ '\\' := by
      rintro rfl
      cases cs with
      | nil => simp [stringLength] at hm
      | cons d ds => exact hescape d ds rfl rfl
    exact (isQuoted_cons hc).mpr ⟨hquote, hline, hq⟩

theorem charLength_quoted {cs : List Char} {n : Nat} (h : charLength cs = some n) :
    ∃ body, cs.take n = body ++ ['\''] ∧
      ((∃ c, body = [c] ∧ c ≠ '\\') ∨ ∃ c, body = ['\\', c]) ∧ n ≤ cs.length := by
  fun_cases charLength cs with
  | case1 c cs =>
    obtain rfl : 3 = n := by simpa [charLength] using h
    exact ⟨['\\', c], by simp, Or.inr ⟨c, rfl⟩, by simp⟩
  | case2 cs hne => simp [charLength] at h
  | case3 c cs _ hne =>
    obtain rfl : 2 = n := by simpa [charLength, hne] using h
    exact ⟨[c], by simp, Or.inl ⟨c, rfl, hne⟩, by simp⟩
  | case4 => simp_all [charLength]

theorem commentLength_le {cs : List Char} {n : Nat} (h : commentLength cs = some n) :
    n ≤ cs.length := by
  fun_induction commentLength cs generalizing n with
  | case1 => simp at h
  | case2 cs =>
    obtain rfl : 2 = n := by simpa using h
    simp
  | case3 c cs hne ih =>
    obtain ⟨m, hm, rfl⟩ := Option.map_eq_some_iff.mp h
    have := ih hm
    simp only [List.length_cons]
    omega

theorem lineLength_le (cs : List Char) : lineLength cs ≤ cs.length := by
  fun_induction lineLength cs with
  | case1 => simp
  | case2 => simp
  | case3 => simp
  | case4 c cs _ _ ih =>
    simp only [List.length_cons]
    omega

theorem symbol_spelled {cs : List Char} {k : Kind} (h : symbol cs = some k) :
    k ∈ Kind.symbols ∧ k.spelling.toList <+: cs := by
  have hp := List.find?_some h
  exact ⟨List.mem_of_find?_eq_some h, by simpa using hp⟩

theorem ofWord_spelling {text : String} {k : Kind} (h : Kind.ofWord text = k)
    (hk : k ≠ .identifier) : k ∈ Kind.keywords ∧ k.spelling = text := by
  unfold Kind.ofWord at h
  cases hf : Kind.keywords.find? (·.spelling = text) with
  | none =>
    rw [hf] at h
    exact absurd h.symm hk
  | some k' =>
    rw [hf] at h
    obtain rfl : k' = k := h
    exact ⟨List.mem_of_find?_eq_some hf, by simpa using List.find?_some hf⟩

end Lexer

theorem Kind.spelled_iff_of_fixed {cs : List Char} {k : Kind} (h : k ∉ Kind.classes) :
    k.Spelled cs ↔ cs = k.spelling.toList := by
  cases k <;> first | rfl | exact absurd (by decide) h

theorem Kind.symbols_not_classes {k : Kind} (h : k ∈ Kind.symbols) : k ∉ Kind.classes := by
  cases k <;> revert h <;> decide

theorem Kind.keywords_not_classes {k : Kind} (h : k ∈ Kind.keywords) : k ∉ Kind.classes := by
  cases k <;> revert h <;> decide

namespace Lexer

theorem word_spelled {c : Char} {cs : List Char} {k : Kind} {n : Nat} (hc : isWordStart c)
    (h : word (c :: cs) = .token k n) : k.Spelled ((c :: cs).take n) ∧ 0 < n ∧ n ≤ cs.length + 1 := by
  simp only [word, Lexeme.token.injEq] at h
  obtain ⟨hk, rfl⟩ := h
  refine ⟨?_, run_pos (isWordChar_of_isWordStart hc), run_le isWordChar (c :: cs)⟩
  by_cases hid : k = .identifier
  · subst hid
    refine ⟨?_, hk⟩
    rw [take_run]
    exact isWord_takeWhile hc
  · obtain ⟨hmem, hspell⟩ := ofWord_spelling hk hid
    rw [Kind.spelled_iff_of_fixed (Kind.keywords_not_classes hmem), hspell, String.toList_ofList]

theorem numeral_spelled {c : Char} {cs : List Char} {k : Kind} {n : Nat} (hc : isDigit c)
    (h : numeral (c :: cs) = .token k n) :
    k.Spelled ((c :: cs).take n) ∧ 0 < n ∧ n ≤ cs.length + 1 := by
  have hpos : 0 < run isDigit (c :: cs) := run_pos hc
  have hle : run isDigit (c :: cs) ≤ cs.length + 1 := run_le isDigit (c :: cs)
  simp only [numeral] at h
  split at h
  · rename_i hb
    obtain ⟨rfl, rfl⟩ := Lexeme.token.inj h
    obtain ⟨rest, hrest⟩ : ∃ rest, (c :: cs).drop (run isDigit (c :: cs)) = 'b' :: rest := by
      unfold byteMark at hb
      split at hb
      · exact ⟨_, by assumption⟩
      · exact ⟨_, by assumption⟩
      · simp at hb
    have hlt : run isDigit (c :: cs) < (c :: cs).length := by
      by_contra hge
      rw [List.drop_eq_nil_of_le (by omega)] at hrest
      simp at hrest
    refine ⟨⟨(c :: cs).takeWhile isDigit, ?_, isNumeral_takeWhile hc⟩, by omega, hlt⟩
    rw [List.take_add, take_run, hrest]
    rfl
  · obtain ⟨rfl, rfl⟩ := Lexeme.token.inj h
    refine ⟨?_, hpos, hle⟩
    change IsNumeral _
    rw [take_run]
    exact isNumeral_takeWhile hc

theorem orFault_eq_token {fault : LexicalFault} {kind k : Kind} {extra n : Nat} {o : Option Nat}
    (h : orFault fault kind extra o = .ok (.token k n)) :
    kind = k ∧ ∃ m, o = some m ∧ n = m + extra := by
  cases o with
  | none => simp [orFault] at h
  | some m =>
    simp only [orFault, Except.ok.injEq, Lexeme.token.injEq] at h
    exact ⟨h.1, m, rfl, h.2.symm⟩

theorem orFault_ne_blanks {fault : LexicalFault} {kind : Kind} {extra n : Nat} {o : Option Nat} :
    orFault fault kind extra o ≠ .ok (.blanks n) := by
  cases o <;> simp [orFault]

inductive Cuts (lineStart : Bool) (c : Char) (cs : List Char) : Kind → Nat → Prop
  | indent (hc : isBlank c) (hline : lineStart = true) :
      Cuts lineStart c cs .indent (run isBlank (c :: cs))
  | newline (hc : c = '\n') : Cuts lineStart c cs .newline 1
  | lineReturn (hc : c = '\r') (hcs : cs.head? = some '\n') : Cuts lineStart c cs .newline 2
  | lineComment (hc : c = '/') (hcs : cs.head? = some '/') :
      Cuts lineStart c cs .lineComment (lineLength cs + 1)
  | blockComment {n : Nat} (hc : c = '/') (hcs : cs.head? = some '*')
      (hn : commentLength (cs.drop 1) = some n) : Cuts lineStart c cs .blockComment (n + 2)
  | string {n : Nat} (hc : c = '"') (hn : stringLength cs = some n) :
      Cuts lineStart c cs .stringLit (n + 1)
  | char {n : Nat} (hc : c = '\'') (hn : charLength cs = some n) :
      Cuts lineStart c cs .charLit (n + 1)
  | numeral {k : Kind} {n : Nat} (hc : isDigit c) (hn : numeral (c :: cs) = .token k n) :
      Cuts lineStart c cs k n
  | word {k : Kind} {n : Nat} (hc : isWordStart c) (hn : word (c :: cs) = .token k n) :
      Cuts lineStart c cs k n
  | symbol {k : Kind} (hk : symbol (c :: cs) = some k)
      (hslash : c = '/' → cs.head? ≠ some '/' ∧ cs.head? ≠ some '*') :
      Cuts lineStart c cs k k.spelling.length

section Cut

variable {lineStart : Bool} {c : Char} {cs : List Char} {k : Kind} {n : Nat}

theorem run_cons {p : Char → Bool} (h : p c) : run p (c :: cs) = run p cs + 1 := by
  simp [run, h]

theorem lexeme_of_isBlank (hc : isBlank c) : lexeme lineStart c cs = .ok
    (if lineStart then .token .indent (run isBlank (c :: cs)) else .blanks (run isBlank (c :: cs))) := by
  rw [lexeme, if_pos hc, run_cons hc]

theorem lexeme_cuts (h : lexeme lineStart c cs = .ok (.token k n)) : Cuts lineStart c cs k n := by
  by_cases hc : isBlank c
  · rw [lexeme_of_isBlank hc] at h
    split_ifs at h with hline
    · obtain ⟨rfl, rfl⟩ := Lexeme.token.inj (Except.ok.inj h)
      exact .indent hc hline
    · cases h
  · rw [lexeme, if_neg hc] at h
    split_ifs at h with hnewline hreturn hline hcomment hstring hchar hdigit hword
    · obtain ⟨rfl, rfl⟩ := Lexeme.token.inj (Except.ok.inj h)
      exact .newline hnewline
    · obtain ⟨rfl, rfl⟩ := Lexeme.token.inj (Except.ok.inj h)
      exact .lineReturn hreturn.1 hreturn.2
    · obtain ⟨rfl, rfl⟩ := Lexeme.token.inj (Except.ok.inj h)
      exact .lineComment hline.1 hline.2
    · obtain ⟨rfl, m, hm, rfl⟩ := orFault_eq_token h
      exact .blockComment hcomment.1 hcomment.2 hm
    · obtain ⟨rfl, m, hm, rfl⟩ := orFault_eq_token h
      exact .string hstring hm
    · obtain ⟨rfl, m, hm, rfl⟩ := orFault_eq_token h
      exact .char hchar hm
    · exact .numeral hdigit (Except.ok.inj h)
    · exact .word hword (Except.ok.inj h)
    · split at h
      · rename_i kind hkind
        obtain ⟨rfl, rfl⟩ := Lexeme.token.inj (Except.ok.inj h)
        exact .symbol hkind fun hslash => ⟨fun he => hline ⟨hslash, he⟩, fun he => hcomment ⟨hslash, he⟩⟩
      · cases h

theorem lexeme_blanks_cases (h : lexeme lineStart c cs = .ok (.blanks n)) :
    isBlank c ∧ lineStart = false ∧ n = run isBlank (c :: cs) := by
  by_cases hc : isBlank c
  · rw [lexeme_of_isBlank hc] at h
    split_ifs at h with hline
    · cases h
    · exact ⟨hc, eq_false_of_ne_true hline, (Lexeme.blanks.inj (Except.ok.inj h)).symm⟩
  · rw [lexeme, if_neg hc] at h
    split_ifs at h
    · cases h
    · cases h
    · cases h
    · exact absurd h orFault_ne_blanks
    · exact absurd h orFault_ne_blanks
    · exact absurd h orFault_ne_blanks
    · simp only [numeral, Except.ok.injEq] at h
      split at h <;> cases h
    · simp [word] at h
    · split at h <;> cases h

theorem lexeme_blanks (h : lexeme lineStart c cs = .ok (.blanks n)) : 0 < n ∧ n ≤ cs.length + 1 := by
  obtain ⟨hc, -, rfl⟩ := lexeme_blanks_cases h
  exact ⟨run_pos hc, run_le isBlank (c :: cs)⟩

theorem symbol_cut (hk : symbol (c :: cs) = some k) : k.Spelled ((c :: cs).take k.spelling.length) ∧
    0 < k.spelling.length ∧ k.spelling.length ≤ cs.length + 1 := by
  obtain ⟨hmem, hprefix⟩ := symbol_spelled hk
  have hlen : k.spelling.length = k.spelling.toList.length := String.length_toList.symm
  have htake : (c :: cs).take k.spelling.length = k.spelling.toList := by
    rw [hlen]
    exact (List.prefix_iff_eq_take.mp hprefix).symm
  refine ⟨?_, ?_, ?_⟩
  · rw [Kind.spelled_iff_of_fixed (Kind.symbols_not_classes hmem), htake]
  · cases k <;> revert hmem <;> decide
  · rw [hlen]
    exact hprefix.length_le

theorem lexeme_token (h : lexeme lineStart c cs = .ok (.token k n)) :
    k.Spelled ((c :: cs).take n) ∧ 0 < n ∧ n ≤ cs.length + 1 ∧ (k = .indent → lineStart = true) := by
  cases lexeme_cuts h with
  | indent hc hline =>
    refine ⟨⟨?_, ?_⟩, run_pos hc, run_le isBlank (c :: cs), fun _ => hline⟩
    · rw [take_run]
      simp [hc]
    · rw [take_run]
      exact fun d hd => List.mem_takeWhile_imp hd
  | newline hc =>
    subst hc
    exact ⟨Or.inl rfl, by omega, by omega, by simp⟩
  | lineReturn hc hcs =>
    subst hc
    obtain ⟨rest, rfl⟩ := List.head?_eq_some_iff.mp hcs
    exact ⟨Or.inr rfl, by omega, by simp, by simp⟩
  | lineComment hc hcs =>
    have := lineLength_le cs
    exact ⟨trivial, by omega, by omega, by simp⟩
  | blockComment hc hcs hn =>
    have hle := commentLength_le hn
    obtain ⟨rest, rfl⟩ := List.head?_eq_some_iff.mp hcs
    simp only [List.drop_succ_cons, List.drop_zero] at hle
    exact ⟨trivial, by omega, by simp only [List.length_cons]; omega, by simp⟩
  | string hc hn =>
    obtain ⟨body, hbody, hq, hle⟩ := stringLength_quoted hn
    subst hc
    exact ⟨⟨body, by simp [hbody], hq⟩, by omega, by omega, by simp⟩
  | char hc hn =>
    obtain ⟨body, hbody, hq, hle⟩ := charLength_quoted hn
    subst hc
    exact ⟨⟨body, by simp [hbody], hq⟩, by omega, by omega, by simp⟩
  | numeral hc hn =>
    obtain ⟨hs, hpos, hle⟩ := numeral_spelled hc hn
    refine ⟨hs, hpos, hle, ?_⟩
    rintro rfl
    simp only [Lexer.numeral] at hn
    split at hn <;> cases hn
  | word hc hn =>
    obtain ⟨hs, hpos, hle⟩ := word_spelled hc hn
    refine ⟨hs, hpos, hle, ?_⟩
    rintro rfl
    obtain ⟨hk, -⟩ := Lexeme.token.inj hn
    exact absurd (ofWord_spelling hk (by decide)).1 (by decide)
  | symbol hk =>
    obtain ⟨hs, hpos, hle⟩ := symbol_cut hk
    refine ⟨hs, hpos, hle, ?_⟩
    rintro rfl
    exact absurd (symbol_spelled hk).1 (by decide)

end Cut

theorem tokensFrom_cases {fuel offset : Nat} {lineStart : Bool} {c : Char} {cs : List Char}
    {ts : List Token} (h : tokensFrom (fuel + 1) offset lineStart (c :: cs) = .ok ts) :
    (∃ n, lexeme lineStart c cs = .ok (.blanks n) ∧
        tokensFrom fuel (offset + n) false ((c :: cs).drop n) = .ok ts) ∨
      ∃ kind n rest, lexeme lineStart c cs = .ok (.token kind n) ∧
        tokensFrom fuel (offset + n) (kind = .newline) ((c :: cs).drop n) = .ok rest ∧
          ts = ⟨kind, String.ofList ((c :: cs).take n), ⟨offset, offset + n⟩⟩ :: rest := by
  rw [tokensFrom] at h
  split at h
  · cases h
  · rename_i n hl
    exact .inl ⟨n, hl, h⟩
  · rename_i kind n hl
    cases hr : tokensFrom fuel (offset + n) (kind = .newline) ((c :: cs).drop n) with
    | error e => simp [hr, Except.map] at h
    | ok rest => exact .inr ⟨kind, n, rest, hl, hr, by simpa [hr, Except.map] using h.symm⟩

theorem tokensFrom_lexed {fuel offset : Nat} {lineStart : Bool} {cs : List Char} {ts : List Token}
    (h : tokensFrom fuel offset lineStart cs = .ok ts) : ∀ t ∈ ts, t.Lexed := by
  induction fuel generalizing offset lineStart cs ts with
  | zero =>
    obtain rfl : [] = ts := by simpa [tokensFrom] using h
    simp
  | succ fuel ih =>
    cases cs with
    | nil =>
      obtain rfl : [] = ts := by simpa [tokensFrom] using h
      simp
    | cons c cs =>
      rcases tokensFrom_cases h with ⟨n, -, hrest⟩ | ⟨kind, n, rest, hl, hrest, rfl⟩
      · exact ih hrest
      · intro t ht
        rcases List.mem_cons.mp ht with rfl | ht
        · simpa [Token.Lexed] using (lexeme_token hl).1
        · exact ih hrest t ht

end Lexer

theorem Token.text_of_fixed {t : Token} (ht : t.Lexed) (hk : t.kind ∉ Kind.classes) :
    t.text = t.kind.spelling := by
  have h := (Kind.spelled_iff_of_fixed hk).mp ht
  exact String.toList_injective h

theorem lex_lexed {source : String} {tokens : List Token} (h : lex source = .ok tokens) :
    ∀ t ∈ tokens, t.Lexed :=
  Lexer.tokensFrom_lexed h

end Whiley
