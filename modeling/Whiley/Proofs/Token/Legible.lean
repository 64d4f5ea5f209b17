import Whiley.Proofs.Token.Spelling

namespace Whiley

namespace Lexer

def Lexeme.length : Lexeme → Nat
  | .blanks n => n
  | .token _ n => n

def marks : List Char :=
  ['<', '=', '>', '.', '&', '|', '!', '-', ':', '+', '*', '%', '~', '^', '(', ')', '[', ']', '\x7b',
    '\x7d', ',', ';', '⊂', '⊆', '⊃', '⊇']

def isPlain (c : Char) : Bool :=
  isBlank c || isDigit c || c ∈ marks

def IsCharBody (body : List Char) : Prop :=
  (∃ c, body = [c] ∧ c ≠ '\\') ∨ ∃ c, body = ['\\', c]

inductive Legible : List Char → Prop
  | nil : Legible []
  | plain {c : Char} {cs : List Char} : isPlain c → Legible cs → Legible (c :: cs)
  | slash {c : Char} {cs : List Char} : c ≠ '/' → c ≠ '*' → Legible (c :: cs) →
      Legible ('/' :: c :: cs)
  | word {w cs : List Char} : IsWord w → Legible cs → Legible (w ++ cs)
  | string {body cs : List Char} : IsQuoted body → Legible cs →
      Legible ('"' :: (body ++ '"' :: cs))
  | char {body cs : List Char} : IsCharBody body → Legible cs →
      Legible ('\'' :: (body ++ '\'' :: cs))

namespace Legible

theorem append {cs ds : List Char} (hc : Legible cs) (hd : Legible ds) : Legible (cs ++ ds) := by
  induction hc with
  | nil => exact hd
  | plain h _ ih => exact plain h ih
  | slash hslash hstar _ ih => exact slash hslash hstar ih
  | word hw _ ih =>
    rw [List.append_assoc]
    exact word hw ih
  | string hbody _ ih =>
    rw [List.cons_append, List.append_assoc, List.cons_append]
    exact string hbody ih
  | char hbody _ ih =>
    rw [List.cons_append, List.append_assoc, List.cons_append]
    exact char hbody ih

theorem of_isWord {w : List Char} (hw : IsWord w) : Legible w := by
  have h := word hw nil
  rwa [List.append_nil] at h

theorem of_plain {cs : List Char} (h : ∀ c ∈ cs, isPlain c) : Legible cs := by
  induction cs with
  | nil => exact nil
  | cons c cs ih =>
    exact plain (h c List.mem_cons_self) (ih fun d hd => h d (List.mem_cons_of_mem c hd))

end Legible

theorem isPlain_of_mem_marks {c : Char} (h : c ∈ marks) : isPlain c := by
  simp [isPlain, h]

theorem isPlain_of_isDigit {c : Char} (h : isDigit c) : isPlain c := by
  simp [isPlain, h]

theorem isPlain_of_isBlank {c : Char} (h : isBlank c) : isPlain c := by
  simp [isPlain, h]

theorem not_isWordStart_of_isDigit {c : Char} (h : isDigit c) : ¬ isWordStart c := by
  have hc : 0x30 ≤ c.toNat ∧ c.toNat ≤ 0x39 := by
    simpa [isDigit, Char.le_def, UInt32.le_iff_toNat_le] using h
  have hascii : c.toNat < 128 := by omega
  have hunderscore : c ≠ '_' := by
    rintro rfl
    exact absurd h (by decide)
  have hval : c.val.toNat = c.toNat := rfl
  have hupper : c.isUpper = false := by
    delta Char.isUpper
    simp [UInt32.le_iff_toNat_le]
    omega
  have hlower : c.isLower = false := by
    delta Char.isLower
    simp [UInt32.le_iff_toNat_le]
    omega
  have halpha : c.isAlpha = (c.isUpper || c.isLower) := rfl
  simp [isWordStart, Text.isLetter, hascii, hunderscore, halpha, hupper, hlower]

theorem not_isWordStart_of_isPlain {c : Char} (h : isPlain c) : ¬ isWordStart c := by
  simp only [isPlain, Bool.or_eq_true, decide_eq_true_eq] at h
  rcases h with (hblank | hdigit) | hmark
  · rcases (by simpa [isBlank] using hblank : c = ' ' ∨ c = '\t') with rfl | rfl <;> decide
  · exact not_isWordStart_of_isDigit hdigit
  · have hmarks : marks.all fun d => !isWordStart d := by decide +kernel
    simpa using List.all_eq_true.mp hmarks c hmark

theorem Legible.tail {c : Char} {cs : List Char} (h : Legible (c :: cs)) (hc : isPlain c) :
    Legible cs := by
  generalize hx : c :: cs = xs at h
  cases h with
  | nil => cases hx
  | plain _ h =>
    obtain ⟨-, rfl⟩ := List.cons.inj hx
    exact h
  | slash =>
    obtain ⟨rfl, -⟩ := List.cons.inj hx
    exact absurd hc (by decide)
  | word hw _ =>
    obtain ⟨d, rest, rfl, hd, -⟩ := hw
    obtain ⟨rfl, -⟩ := List.cons.inj hx
    exact absurd hd (not_isWordStart_of_isPlain hc)
  | string =>
    obtain ⟨rfl, -⟩ := List.cons.inj hx
    exact absurd hc (by decide)
  | char =>
    obtain ⟨rfl, -⟩ := List.cons.inj hx
    exact absurd hc (by decide)

theorem Legible.drop_plain {cs ds : List Char} (h : Legible (cs ++ ds)) (hcs : ∀ c ∈ cs, isPlain c) :
    Legible ds := by
  induction cs with
  | nil => exact h
  | cons c cs ih =>
    exact ih (h.tail (hcs c List.mem_cons_self)) fun d hd => hcs d (List.mem_cons_of_mem c hd)

theorem Legible.dropWhile_plain {p : Char → Bool} {cs : List Char} (h : Legible cs)
    (hp : ∀ c, p c → isPlain c) : Legible (cs.dropWhile p) := by
  rw [← List.takeWhile_append_dropWhile (p := p) (l := cs)] at h
  exact h.drop_plain fun c hc => hp c (List.mem_takeWhile_imp hc)

theorem Legible.dropWhile_isWordChar {cs : List Char} (h : Legible cs) :
    Legible (cs.dropWhile isWordChar) := by
  induction h with
  | nil => exact nil
  | @plain c cs hc h ih =>
    by_cases hword : isWordChar c
    · rwa [List.dropWhile_cons_of_pos hword]
    · rw [List.dropWhile_cons_of_neg hword]
      exact plain hc h
  | slash hslash hstar h _ =>
    rw [List.dropWhile_cons_of_neg (by decide)]
    exact slash hslash hstar h
  | @word w cs hw _ ih =>
    obtain ⟨c, rest, rfl, hc, hrest⟩ := hw
    rw [List.dropWhile_append_of_pos]
    · exact ih
    · intro d hd
      rcases List.mem_cons.mp hd with rfl | hd
      · exact isWordChar_of_isWordStart hc
      · exact hrest d hd
  | string hbody h _ =>
    rw [List.dropWhile_cons_of_neg (by decide)]
    exact string hbody h
  | char hbody h _ =>
    rw [List.dropWhile_cons_of_neg (by decide)]
    exact char hbody h

theorem Legible.tail_of_byteMark {cs : List Char} (h : Legible cs) (hb : byteMark cs) :
    Legible (cs.drop 1) := by
  obtain ⟨rest, rfl⟩ : ∃ rest, cs = 'b' :: rest := by
    unfold byteMark at hb
    split at hb
    · exact ⟨_, rfl⟩
    · exact ⟨_, rfl⟩
    · cases hb
  generalize hx : 'b' :: rest = xs at h
  cases h with
  | nil => cases hx
  | plain hc _ =>
    obtain ⟨rfl, -⟩ := List.cons.inj hx
    exact absurd hc (by decide)
  | slash => cases hx
  | word hw h =>
    obtain ⟨c, w, rfl, -, hw⟩ := hw
    obtain ⟨-, hrest⟩ := List.cons.inj hx
    cases w with
    | nil =>
      obtain rfl : rest = _ := hrest
      exact h
    | cons d w =>
      obtain rfl : rest = d :: (w ++ _) := hrest
      have hd : isWordChar d := hw d List.mem_cons_self
      simp [byteMark, hd] at hb
  | string => cases hx
  | char => cases hx

theorem stringLength_of_isQuoted {body cs : List Char} (h : IsQuoted body) :
    stringLength (body ++ '"' :: cs) = some (body.length + 1) := by
  fun_induction IsQuoted body with
  | case1 => rfl
  | case2 => exact h.elim
  | case3 c body ih =>
    change (stringLength (body ++ '"' :: cs)).map (· + 2) = _
    rw [ih h]
    rfl
  | case4 c body hend hpair ih =>
    obtain ⟨hquote, hline, hbody⟩ := h
    rw [List.cons_append, stringLength, ih hbody]
    · rfl
    · exact hquote
    · exact hline
    · rintro d ds rfl hds
      cases body with
      | nil => exact hend rfl rfl
      | cons e body => exact hpair e body rfl rfl

theorem charLength_of_isCharBody {body cs : List Char} (h : IsCharBody body) :
    charLength (body ++ '\'' :: cs) = some (body.length + 1) := by
  rcases h with ⟨c, rfl, hc⟩ | ⟨c, rfl⟩
  · simp [charLength, hc]
  · rfl

theorem head_of_isPrefixOf {cs ds : List Char} {c d : Char} (h : (d :: ds).isPrefixOf (c :: cs)) :
    d = c := by
  simp only [List.isPrefixOf_cons_cons, Bool.and_eq_true, beq_iff_eq] at h
  exact h.1

theorem symbol_of_mem_marks {c : Char} (cs : List Char) (hc : c ∈ marks) :
    ∃ k, symbol (c :: cs) = some k ∧ k.spelling.toList <+: c :: cs ∧
      ∀ d ∈ k.spelling.toList, d ∈ marks := by
  have hsingle : marks.all fun d => Kind.symbols.any fun k => k.spelling.toList = [d] := by
    decide +kernel
  have hspelling : ∀ k ∈ Kind.symbols, k.spelling.toList ≠ [] ∧
      (k.spelling.toList.head? ≠ some '/' → k.spelling.toList.all fun d => d ∈ marks) := by
    decide +kernel
  obtain ⟨k₀, hk₀, hspelled⟩ := List.any_eq_true.mp (List.all_eq_true.mp hsingle c hc)
  rw [decide_eq_true_eq] at hspelled
  cases hfind : symbol (c :: cs) with
  | none =>
    have := List.find?_eq_none.mp hfind k₀ hk₀
    simp [hspelled] at this
  | some k =>
    have hprefix := List.find?_some hfind
    obtain ⟨hne, hall⟩ := hspelling k (List.mem_of_find?_eq_some hfind)
    refine ⟨k, rfl, List.isPrefixOf_iff_prefix.mp hprefix, ?_⟩
    suffices k.spelling.toList.head? ≠ some '/' by simpa using hall this
    cases hs : k.spelling.toList with
    | nil => exact absurd hs hne
    | cons d ds =>
      rw [hs] at hprefix
      obtain rfl := head_of_isPrefixOf hprefix
      rintro ⟨⟩
      exact absurd hc (by decide)

theorem symbol_slash {cs : List Char} : symbol ('/' :: cs) = some .slash := rfl

theorem eq_append_drop {cs ds : List Char} (h : cs <+: ds) : ds = cs ++ ds.drop cs.length := by
  obtain ⟨rest, rfl⟩ := h
  simp

def LexesLegibly (lineStart : Bool) (c : Char) (cs : List Char) : Prop :=
  ∃ l, lexeme lineStart c cs = .ok l ∧ Legible ((c :: cs).drop l.length)

variable {lineStart : Bool} {c : Char} {cs : List Char}

theorem lexesLegibly_blank (hc : isBlank c) (h : Legible cs) : LexesLegibly lineStart c cs := by
  have hdrop : Legible (cs.drop (run isBlank cs)) := by
    rw [drop_run]
    exact h.dropWhile_plain fun _ => isPlain_of_isBlank
  rw [LexesLegibly, lexeme, if_pos hc]
  cases lineStart <;> exact ⟨_, rfl, hdrop⟩

theorem numeral_legible (h : Legible cs) : Legible (cs.drop (numeral cs).length) := by
  have hrest : Legible (cs.drop (run isDigit cs)) := by
    rw [drop_run]
    exact h.dropWhile_plain fun _ => isPlain_of_isDigit
  unfold numeral
  dsimp only
  split
  · rename_i hbyte
    have := hrest.tail_of_byteMark hbyte
    rwa [List.drop_drop] at this
  · exact hrest

theorem lexeme_of_isDigit (hc : isDigit c) : lexeme lineStart c cs = .ok (numeral (c :: cs)) := by
  have hne {d : Char} (hd : ¬ isDigit d) : c ≠ d := by
    rintro rfl
    exact hd hc
  have hblank : ¬ isBlank c := by
    simp [isBlank, hne (d := ' ') (by decide), hne (d := '\t') (by decide)]
  simp [lexeme, hblank, hc, hne (d := '\n') (by decide), hne (d := '\r') (by decide),
    hne (d := '/') (by decide), hne (d := '"') (by decide), hne (d := '\'') (by decide)]

theorem lexesLegibly_digit (hc : isDigit c) (h : Legible cs) : LexesLegibly lineStart c cs :=
  ⟨numeral (c :: cs), lexeme_of_isDigit hc, numeral_legible (.plain (isPlain_of_isDigit hc) h)⟩

theorem lexeme_of_isWordStart (hc : isWordStart c) :
    lexeme lineStart c cs = .ok (word (c :: cs)) := by
  have hne {d : Char} (hd : ¬ isWordStart d) : c ≠ d := by
    rintro rfl
    exact hd hc
  have hblank : ¬ isBlank c := by
    simp [isBlank, hne (d := ' ') (by decide), hne (d := '\t') (by decide)]
  have hdigit : ¬ isDigit c := fun hd => not_isWordStart_of_isDigit hd hc
  simp [lexeme, hblank, hdigit, hc, hne (d := '\n') (by decide), hne (d := '\r') (by decide),
    hne (d := '/') (by decide), hne (d := '"') (by decide), hne (d := '\'') (by decide)]

theorem lexesLegibly_word (hc : isWordStart c) (h : Legible (c :: cs)) :
    LexesLegibly lineStart c cs := by
  refine ⟨word (c :: cs), lexeme_of_isWordStart hc, ?_⟩
  change Legible ((c :: cs).drop (run isWordChar (c :: cs)))
  rw [drop_run]
  exact h.dropWhile_isWordChar

theorem lexesLegibly_mark (hc : c ∈ marks) (h : Legible (c :: cs)) :
    LexesLegibly lineStart c cs := by
  have hmarks : marks.all fun d => (isBlank d = false ∧ isDigit d = false ∧ isWordStart d = false) ∧
      d ≠ '\n' ∧ d ≠ '\r' ∧ d ≠ '/' ∧ d ≠ '"' ∧ d ≠ '\'' := by decide +kernel
  obtain ⟨⟨hblank, hdigit, hword⟩, hline, hreturn, hslash, hquote, hapostrophe⟩ :=
    of_decide_eq_true (List.all_eq_true.mp hmarks c hc)
  obtain ⟨k, hk, hprefix, hall⟩ := symbol_of_mem_marks cs hc
  refine ⟨.token k k.spelling.length, ?_, ?_⟩
  · simp [lexeme, hblank, hline, hreturn, hslash, hquote, hapostrophe, hdigit, hword, hk]
  · rw [eq_append_drop hprefix] at h
    have := h.drop_plain fun d hd => isPlain_of_mem_marks (hall d hd)
    rwa [String.length_toList] at this

theorem lexesLegibly_slash (hslash : cs.head? ≠ some '/') (hstar : cs.head? ≠ some '*')
    (h : Legible cs) : LexesLegibly lineStart '/' cs := by
  refine ⟨.token .slash 1, ?_, h⟩
  have hblank : ¬ isBlank '/' := by decide
  have hdigit : ¬ isDigit '/' := by decide
  have hword : ¬ isWordStart '/' := by decide
  simp [lexeme, hblank, hdigit, hword, hslash, hstar, symbol_slash]
  rfl

theorem lexeme_string {body : List Char} (hbody : IsQuoted body) :
    lexeme lineStart '"' (body ++ '"' :: cs) = .ok (.token .stringLit (body.length + 1 + 1)) := by
  have hblank : ¬ isBlank '"' := by decide
  simp [lexeme, hblank, stringLength_of_isQuoted hbody, orFault]

theorem lexesLegibly_string {body : List Char} (hbody : IsQuoted body) (h : Legible cs) :
    LexesLegibly lineStart '"' (body ++ '"' :: cs) := by
  refine ⟨.token .stringLit (body.length + 1 + 1), lexeme_string hbody, ?_⟩
  simpa [Lexeme.length] using h

theorem lexeme_char {body : List Char} (hbody : IsCharBody body) :
    lexeme lineStart '\'' (body ++ '\'' :: cs) = .ok (.token .charLit (body.length + 1 + 1)) := by
  have hblank : ¬ isBlank '\'' := by decide
  simp [lexeme, hblank, charLength_of_isCharBody hbody, orFault]

theorem lexesLegibly_char {body : List Char} (hbody : IsCharBody body) (h : Legible cs) :
    LexesLegibly lineStart '\'' (body ++ '\'' :: cs) := by
  refine ⟨.token .charLit (body.length + 1 + 1), lexeme_char hbody, ?_⟩
  simpa [Lexeme.length] using h

theorem lexeme_legible (lineStart : Bool) (h : Legible (c :: cs)) : LexesLegibly lineStart c cs := by
  generalize hx : c :: cs = xs at h
  cases h with
  | nil => cases hx
  | plain hc h =>
    obtain ⟨rfl, rfl⟩ := List.cons.inj hx
    simp only [isPlain, Bool.or_eq_true, decide_eq_true_eq] at hc
    rcases hc with (hblank | hdigit) | hmark
    · exact lexesLegibly_blank hblank h
    · exact lexesLegibly_digit hdigit h
    · exact lexesLegibly_mark hmark (.plain (isPlain_of_mem_marks hmark) h)
  | slash hslash hstar h =>
    obtain ⟨rfl, rfl⟩ := List.cons.inj hx
    exact lexesLegibly_slash (by simpa using hslash) (by simpa using hstar) h
  | word hw h =>
    obtain ⟨d, rest, rfl, hd, hrest⟩ := hw
    obtain ⟨rfl, rfl⟩ := List.cons.inj hx
    exact lexesLegibly_word hd (.word ⟨c, rest, rfl, hd, hrest⟩ h)
  | string hbody h =>
    obtain ⟨rfl, rfl⟩ := List.cons.inj hx
    exact lexesLegibly_string hbody h
  | char hbody h =>
    obtain ⟨rfl, rfl⟩ := List.cons.inj hx
    exact lexesLegibly_char hbody h

theorem tokensFrom_legible (fuel offset : Nat) (lineStart : Bool) (h : Legible cs) :
    ∃ tokens, tokensFrom fuel offset lineStart cs = .ok tokens := by
  induction fuel generalizing offset lineStart cs with
  | zero => exact ⟨[], rfl⟩
  | succ fuel ih =>
    cases cs with
    | nil => exact ⟨[], rfl⟩
    | cons c cs =>
      obtain ⟨l, hl, hrest⟩ := lexeme_legible lineStart h
      rw [tokensFrom, hl]
      cases l with
      | blanks n => exact ih _ _ hrest
      | token k n =>
        obtain ⟨tokens, htokens⟩ := ih (offset + n) (k = .newline) hrest
        refine ⟨⟨k, String.ofList ((c :: cs).take n), ⟨offset, offset + n⟩⟩ :: tokens, ?_⟩
        change Except.map _ (tokensFrom fuel (offset + n) (k = .newline) ((c :: cs).drop n)) = _
        rw [show (c :: cs).drop n = (c :: cs).drop (Lexeme.token k n).length from rfl, htokens]
        rfl

end Lexer

theorem lex_legible {text : String} (h : Lexer.Legible text.toList) :
    ∃ tokens, lex text = .ok tokens :=
  Lexer.tokensFrom_legible _ _ _ h

end Whiley
