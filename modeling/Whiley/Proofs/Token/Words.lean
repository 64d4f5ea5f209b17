import Whiley.Layout.Piece
import Whiley.Proofs.Token.Appended
import Whiley.Proofs.Token.Essence
import Whiley.Proofs.Token.Legible

namespace Whiley

open Lexer

/-- What kind of token a word is: a keyword or symbol that is spelled so, a numeral or a name. -/
def Kind.ofText (text : String) : Kind :=
  ((Kind.keywords ++ Kind.symbols).find? (·.spelling = text)).getD
    (if text.toList.all isDigit then .intLit else .identifier)

/-- Whether a token of the kind would take in the character, if it stood right after it. -/
def Kind.runsOn (k : Kind) (c : Char) : Bool :=
  if k ∈ Kind.symbols then
    Kind.symbols.any (fun l => (k.spelling.toList ++ [c]).isPrefixOf l.spelling.toList) ||
      k = .slash && (c = '/' || c = '*')
  else isWordChar c

namespace Piece

def front (next : Option Char) : Pieces → Option Char
  | [] => next
  | p :: ps => p.text.toList.head?.or (front next ps)

def Ends (next : Option Char) : Piece → Prop
  | .word text =>
    (Kind.ofText text).Spelled text.toList ∧ ∀ c, next = some c → (Kind.ofText text).runsOn c = false
  | .blank => ∀ c, next = some c → isBlank c = false
  | .fault _ => False

/-- No piece runs on into what comes after it, which is `next` for the last. -/
def Spaced (next : Option Char) : Pieces → Prop
  | [] => True
  | p :: ps => p.Ends (front next ps) ∧ Spaced next ps

def faces : Pieces → List Face
  | [] => []
  | .word text :: ps => .word (Kind.ofText text) text :: faces ps
  | _ :: ps => faces ps

variable {next : Option Char} {ps qs : Pieces} {text : String}

@[simp]
theorem front_append : front next (ps ++ qs) = front (front next qs) ps := by
  induction ps with
  | nil => rfl
  | cons p ps ih => rw [List.cons_append, front, ih, front]

@[simp]
theorem spaced_append : Spaced next (ps ++ qs) ↔ Spaced (front next qs) ps ∧ Spaced next qs := by
  induction ps with
  | nil => simp [Spaced]
  | cons p ps ih => simp [Spaced, ih, and_assoc]

@[simp]
theorem faces_append : faces (ps ++ qs) = faces ps ++ faces qs := by
  induction ps with
  | nil => rfl
  | cons p ps ih => cases p <;> simp [faces, ih]

theorem head?_textOf (rest : List Char) :
    ((textOf ps).toList ++ rest).head? = front rest.head? ps := by
  induction ps with
  | nil => rfl
  | cons p ps ih => simp [textOf, front, List.head?_append, ← ih]

end Piece

namespace Kind

theorem ofText_spelling {k : Kind} (hk : k ∈ keywords ++ symbols) : ofText k.spelling = k := by
  revert k
  decide +kernel

theorem runsOn_word {k : Kind} {c : Char} (hk : k ∉ symbols) : k.runsOn c = isWordChar c :=
  if_neg hk

theorem find?_eq_none {text : String} (h : ∀ k ∈ keywords ++ symbols, k.spelling ≠ text) :
    (keywords ++ symbols).find? (·.spelling = text) = none := by
  exact List.find?_eq_none.mpr fun k hk => by simpa using h k hk

theorem symbols_head {k : Kind} (hk : k ∈ symbols) : ∃ c cs, k.spelling.toList = c :: cs ∧
    isWordStart c = false ∧ isDigit c = false ∧ isBlank c = false ∧ c ≠ '\n' ∧ c ≠ '\r' ∧
      c ≠ '"' ∧ c ≠ '\'' ∧ (c = '/' → k = .slash ∧ cs = []) := by
  have hall : symbols.all fun k => k.spelling.toList.head?.any fun c =>
      decide (isWordStart c = false ∧ isDigit c = false ∧ isBlank c = false ∧ c ≠ '\n' ∧ c ≠ '\r' ∧
        c ≠ '"' ∧ c ≠ '\'' ∧ (c = '/' → k = .slash ∧ k.spelling.toList.tail = [])) := by
    decide +kernel
  have hspelling := List.all_eq_true.mp hall k hk
  cases hs : k.spelling.toList with
  | nil =>
    rw [hs] at hspelling
    cases hspelling
  | cons c cs =>
    rw [hs] at hspelling
    exact ⟨c, cs, rfl, of_decide_eq_true hspelling⟩

theorem keywords_head {k : Kind} (hk : k ∈ keywords) : ∃ c cs, k.spelling.toList = c :: cs ∧
    isWordStart c ∧ ∀ d ∈ cs, isWordChar d := by
  have hall : keywords.all fun k => k.spelling.toList.head?.any isWordStart &&
      k.spelling.toList.tail.all isWordChar := by
    decide +kernel
  obtain ⟨hstart, hword⟩ := Bool.and_eq_true_iff.mp (List.all_eq_true.mp hall k hk)
  cases hs : k.spelling.toList with
  | nil =>
    rw [hs] at hstart
    cases hstart
  | cons c cs =>
    rw [hs] at hstart hword
    exact ⟨c, cs, rfl, hstart, List.all_eq_true.mp hword⟩

theorem ofText_identifier {text : String} (h : Kind.identifier.Spelled text.toList) :
    ofText text = .identifier := by
  obtain ⟨⟨c, cs, hcs, hstart, -⟩, hword⟩ := h
  rw [String.ofList_toList] at hword
  have hnone : (keywords ++ symbols).find? (·.spelling = text) = none := by
    refine find?_eq_none fun k hk htext => ?_
    rcases List.mem_append.mp hk with hk | hk
    · rw [ofWord, Option.getD_eq_iff] at hword
      rcases hword with hword | ⟨hword, -⟩
      · have hmem := List.mem_of_find?_eq_some hword
        revert hmem
        decide
      · simpa [htext] using List.find?_eq_none.mp hword k hk
    · obtain ⟨d, ds, hds, hd, -⟩ := symbols_head hk
      rw [htext, hcs] at hds
      rw [(List.cons.inj hds).1, hd] at hstart
      cases hstart
  have hdigit : isDigit c = false := by
    cases hd : isDigit c with
    | true => exact absurd hstart (not_isWordStart_of_isDigit hd)
    | false => rfl
  simp [ofText, hnone, hcs, hdigit]

theorem ofText_intLit {text : String} (h : Kind.intLit.Spelled text.toList) :
    ofText text = .intLit := by
  obtain ⟨hne, hall⟩ := h
  have hnone : (keywords ++ symbols).find? (·.spelling = text) = none := by
    refine find?_eq_none fun k hk htext => ?_
    obtain ⟨c, cs, hcs⟩ := List.exists_cons_of_ne_nil hne
    have hdigit : isDigit c := hall c (by simp [hcs])
    rcases List.mem_append.mp hk with hk | hk
    · obtain ⟨d, ds, hds, hd, -⟩ := keywords_head hk
      rw [htext, hcs] at hds
      exact not_isWordStart_of_isDigit hdigit ((List.cons.inj hds).1 ▸ hd)
    · obtain ⟨d, ds, hds, -, hd, -⟩ := symbols_head hk
      rw [htext, hcs] at hds
      rw [(List.cons.inj hds).1, hd] at hdigit
      cases hdigit
  have hdigits : text.toList.all isDigit := List.all_eq_true.mpr hall
  simp [ofText, hnone, hdigits]

end Kind

namespace Lexer

/-- What the tokens of a text show, where it stands at the start of a line or not. -/
def Lexes (lineStart : Bool) (cs : List Char) (fs : List Face) : Prop :=
  ∃ ts, tokensFrom cs.length 0 lineStart cs = .ok ts ∧ ts.map Token.face = fs

variable {lineStart : Bool} {c : Char} {cs ds rest : List Char} {fs : List Face} {n : Nat} {k : Kind}

theorem isWordChar_of_isDigit {c : Char} (h : isDigit c) : isWordChar c := by
  have hc : 0x30 ≤ c.toNat ∧ c.toNat ≤ 0x39 := by
    simpa [isDigit, Char.le_def, UInt32.le_iff_toNat_le] using h
  have hsmall : c.toNat < 128 := by omega
  have hdigit : c.isDigit := by simpa [isDigit, Char.isDigit, Char.le_def] using h
  simp [isWordChar, Text.isAlphanumeric, Text.isNumeral, hsmall, hdigit]

theorem run_append_of_stop {p : Char → Bool} (h : ∀ c ∈ cs, p c)
    (hstop : ∀ c, rest.head? = some c → p c = false) : run p (cs ++ rest) = cs.length := by
  have hrest : rest.takeWhile p = [] := by
    cases rest with
    | nil => rfl
    | cons d ds => simp [hstop d rfl]
  rw [run, List.takeWhile_append_of_pos h, hrest, List.append_nil]

theorem lexes_nil : Lexes lineStart [] [] :=
  ⟨[], rfl, rfl⟩

theorem map_face_moved (distance : Nat) (ts : List Token) :
    (ts.map (Token.moved distance)).map Token.face = ts.map Token.face := by
  rw [List.map_map]
  rfl

theorem tokensFrom_drop {ts : List Token} (hn : 0 < n)
    (h : tokensFrom ((c :: cs).drop n).length 0 lineStart ((c :: cs).drop n) = .ok ts) :
    tokensFrom cs.length n lineStart ((c :: cs).drop n) = .ok (ts.map (Token.moved n)) := by
  have hlength : ((c :: cs).drop n).length ≤ cs.length := length_drop_lt hn (Nat.le_refl _)
  rw [← Nat.zero_add n]
  simpa only [Nat.zero_add] using tokensFrom_moved (Nat.le_refl _) hlength h

theorem Lexes.token (h : lexeme lineStart c cs = .ok (.token k n))
    (hrest : Lexes (k = .newline) ((c :: cs).drop n) fs) :
    Lexes lineStart (c :: cs)
      (Token.face ⟨k, String.ofList ((c :: cs).take n), ⟨0, n⟩⟩ :: fs) := by
  obtain ⟨ts, hts, rfl⟩ := hrest
  obtain ⟨-, hpos, -⟩ := lexeme_token h
  have hmoved := tokensFrom_drop hpos hts
  refine ⟨⟨k, String.ofList ((c :: cs).take n), ⟨0, n⟩⟩ :: ts.map (Token.moved n), ?_, ?_⟩
  · rw [List.length_cons, tokensFrom, h]
    simp only [Nat.zero_add] at hmoved ⊢
    rw [hmoved]
    rfl
  · rw [List.map_cons, map_face_moved]

theorem Lexes.blanks (h : lexeme lineStart c cs = .ok (.blanks n))
    (hrest : Lexes false ((c :: cs).drop n) fs) : Lexes lineStart (c :: cs) fs := by
  obtain ⟨ts, hts, rfl⟩ := hrest
  have hmoved := tokensFrom_drop (lexeme_blanks h).1 hts
  refine ⟨ts.map (Token.moved n), ?_, map_face_moved n ts⟩
  rw [List.length_cons, tokensFrom, h]
  simpa only [Nat.zero_add] using hmoved

theorem symbol_spelling (hk : k ∈ Kind.symbols)
    (hstop : ∀ c, rest.head? = some c → k.runsOn c = false) :
    symbol (k.spelling.toList ++ rest) = some k := by
  have hself : ∀ k ∈ Kind.symbols, symbol k.spelling.toList = some k := by decide +kernel
  rw [← hself k hk]
  refine List.find?_congr fun l hl => Bool.eq_iff_iff.mpr ?_
  rw [List.isPrefixOf_iff_prefix, List.isPrefixOf_iff_prefix]
  constructor
  · rintro ⟨tail, htail⟩
    rcases List.append_eq_append_iff.mp htail with ⟨t, ht, -⟩ | ⟨t, ht, hrest⟩
    · exact ⟨t, ht.symm⟩
    · cases t with
      | nil => exact ⟨[], by simpa using ht⟩
      | cons d ds =>
        -- what the longer symbol goes on with would be run on into
        subst hrest
        have hruns := hstop d rfl
        simp only [Kind.runsOn, hk, if_true, Bool.or_eq_false_iff, List.any_eq_false] at hruns
        have hlonger : k.spelling.toList ++ [d] <+: l.spelling.toList := ⟨ds, by simp [ht]⟩
        exact absurd (List.isPrefixOf_iff_prefix.mpr hlonger) (hruns.1 l hl)
  · intro hprefix
    exact hprefix.trans (List.prefix_append _ _)

theorem lexeme_symbol (hk : k ∈ Kind.symbols)
    (hstop : ∀ c, rest.head? = some c → k.runsOn c = false) (hcs : k.spelling.toList = c :: cs) :
    lexeme lineStart c (cs ++ rest) = .ok (.token k k.spelling.length) := by
  obtain ⟨d, ds, hds, hword, hdigit, hblank, hline, hreturn, hquote, hapostrophe, hslash⟩ :=
    Kind.symbols_head hk
  obtain ⟨rfl, rfl⟩ := List.cons.inj (hds.symm.trans hcs)
  have hcomment : ∀ e, e = '/' ∨ e = '*' → ¬ (d = '/' ∧ (ds ++ rest).head? = some e) := by
    rintro e he ⟨hd, hnext⟩
    obtain ⟨rfl, rfl⟩ := hslash hd
    have hruns := hstop e hnext
    rcases he with rfl | rfl <;> revert hruns <;> decide
  have hsymbol : symbol (d :: (ds ++ rest)) = some k := by
    rw [← List.cons_append, ← hds]
    exact symbol_spelling hk hstop
  rw [lexeme, if_neg (by simp [hblank]), if_neg hline, if_neg fun h => hreturn h.1,
    if_neg (hcomment '/' (.inl rfl)), if_neg (hcomment '*' (.inr rfl)), if_neg hquote,
    if_neg hapostrophe, if_neg (by simp [hdigit]), if_neg (by simp [hword]), hsymbol]

theorem lexeme_word (hcs : IsWord (c :: cs))
    (hstop : ∀ c, rest.head? = some c → isWordChar c = false) :
    lexeme lineStart c (cs ++ rest) =
      .ok (.token (Kind.ofWord (String.ofList (c :: cs))) (c :: cs).length) := by
  obtain ⟨d, ds, hds, hstart, hall⟩ := hcs
  obtain ⟨rfl, rfl⟩ := List.cons.inj hds
  have hword : ∀ e ∈ c :: cs, isWordChar e :=
    List.forall_mem_cons.mpr ⟨isWordChar_of_isWordStart hstart, hall⟩
  have hrun : run isWordChar (c :: (cs ++ rest)) = (c :: cs).length :=
    run_append_of_stop hword hstop
  have htake : (c :: (cs ++ rest)).take (c :: cs).length = c :: cs :=
    List.take_left
  rw [lexeme_of_isWordStart hstart, word, hrun, htake]

theorem lexeme_intLit (hcs : IsNumeral (c :: cs))
    (hstop : ∀ c, rest.head? = some c → isWordChar c = false) :
    lexeme lineStart c (cs ++ rest) = .ok (.token .intLit (c :: cs).length) := by
  have hrun : run isDigit (c :: (cs ++ rest)) = (c :: cs).length := by
    refine run_append_of_stop hcs.2 fun e he => eq_false_of_ne_true fun hdigit => ?_
    exact absurd (isWordChar_of_isDigit hdigit) (by simp [hstop e he])
  have hdrop : (c :: (cs ++ rest)).drop (c :: cs).length = rest := List.drop_left
  have hmark : byteMark rest = false := by
    unfold byteMark
    split
    · exact absurd (hstop 'b' rfl) (by decide)
    · exact absurd (hstop 'b' rfl) (by decide)
    · rfl
  rw [lexeme_of_isDigit (hcs.2 c List.mem_cons_self), numeral, hrun, hdrop, hmark]
  rfl

theorem lexeme_ofText {text : String}
    (h : (Piece.word text).Ends rest.head?) (hcs : text.toList = c :: cs) :
    lexeme lineStart c (cs ++ rest) = .ok (.token (Kind.ofText text) (c :: cs).length) := by
  obtain ⟨hspelled, hstop⟩ := h
  rw [hcs] at hspelled
  unfold Kind.ofText at hspelled hstop ⊢
  cases hfind : (Kind.keywords ++ Kind.symbols).find? (·.spelling = text) with
  | some k =>
    simp only [hfind, Option.getD_some] at hstop ⊢
    have htext : k.spelling = text := by simpa using List.find?_some hfind
    have hlength : k.spelling.length = (c :: cs).length := by
      rw [htext, ← String.length_toList, hcs]
    rcases List.mem_append.mp (List.mem_of_find?_eq_some hfind) with hk | hk
    · have hsymbol : ∀ k ∈ Kind.keywords, k ∉ Kind.symbols ∧ Kind.ofWord k.spelling = k := by
        decide +kernel
      obtain ⟨hsymbol, hself⟩ := hsymbol k hk
      obtain ⟨d, ds, hds, hword⟩ := Kind.keywords_head hk
      have hspelled : IsWord (c :: cs) := ⟨d, ds, by rw [← hcs, ← htext, hds], hword⟩
      have hw : lexeme lineStart c (cs ++ rest) = _ :=
        lexeme_word hspelled (by simpa [Kind.runsOn_word hsymbol] using hstop)
      rwa [← hcs, String.ofList_toList, ← htext, hself, htext, hcs] at hw
    · rw [← hlength]
      exact lexeme_symbol hk hstop (htext ▸ hcs)
  | none =>
    have hword : ∀ k : Kind, k = .intLit ∨ k = .identifier → k ∉ Kind.symbols := by
      rintro k (rfl | rfl) <;> decide
    simp only [hfind, Option.getD_none] at hspelled hstop ⊢
    split at hspelled
    · rename_i hdigits
      rw [if_pos hdigits] at hstop ⊢
      exact lexeme_intLit hspelled fun e he => Kind.runsOn_word (hword _ (.inl rfl)) ▸ hstop e he
    · rename_i hdigits
      rw [if_neg hdigits] at hstop ⊢
      rw [← hspelled.2]
      exact lexeme_word hspelled.1 fun e he => Kind.runsOn_word (hword _ (.inr rfl)) ▸ hstop e he

theorem face_ofText (text : String) (span : Span) :
    Token.face ⟨Kind.ofText text, text, span⟩ = .word (Kind.ofText text) text ∧
      Kind.ofText text ≠ .newline := by
  have hkind : Kind.ofText text ≠ .newline ∧ Kind.ofText text ≠ .indent := by
    unfold Kind.ofText
    cases hfind : (Kind.keywords ++ Kind.symbols).find? (·.spelling = text) with
    | some k =>
      have hmem := List.mem_of_find?_eq_some hfind
      constructor <;> rintro rfl <;> revert hmem <;> decide
    | none =>
      dsimp only [Option.getD_none]
      split <;> exact ⟨nofun, nofun⟩
  exact ⟨by rw [Token.face, if_neg hkind.1, if_neg hkind.2], hkind.1⟩

theorem spelled_ne_nil {text : String} (h : (Kind.ofText text).Spelled text.toList) :
    ∃ c cs, text.toList = c :: cs := by
  refine List.exists_cons_of_ne_nil fun hnil => ?_
  obtain rfl : text = "" := String.toList_injective hnil
  have hempty : (Kind.ofText "") = .intLit := by decide +kernel
  rw [hempty] at h
  exact h.1 hnil

theorem lexes_word {text : String} (h : (Piece.word text).Ends rest.head?)
    (hrest : Lexes false rest fs) :
    Lexes lineStart (text.toList ++ rest) (.word (Kind.ofText text) text :: fs) := by
  obtain ⟨c, cs, hcs⟩ := spelled_ne_nil h.1
  have hlexeme : lexeme lineStart c (cs ++ rest) = _ := lexeme_ofText h hcs
  have hdrop : (c :: (cs ++ rest)).drop (c :: cs).length = rest := List.drop_left
  have htake : (c :: (cs ++ rest)).take (c :: cs).length = text.toList := by
    rw [hcs, ← List.cons_append, List.take_left]
  obtain ⟨hface, hkind⟩ := face_ofText text ⟨0, (c :: cs).length⟩
  have htoken := Lexes.token hlexeme (by rwa [hdrop, decide_eq_false hkind])
  rw [htake, String.ofList_toList, hface] at htoken
  rwa [hcs]

theorem lexes_blank (h : Piece.blank.Ends rest.head?) (hrest : Lexes false rest fs) :
    Lexes false (' ' :: rest) fs := by
  have hrun : run isBlank ([] ++ rest) = ([] : List Char).length := run_append_of_stop nofun h
  refine Lexes.blanks (n := 1) ?_ hrest
  rw [List.nil_append] at hrun
  rw [lexeme, if_pos (by decide), hrun]
  rfl

theorem lexes_lineEnd (hrest : Lexes true rest fs) : Lexes false ('\n' :: rest) (.lineEnd :: fs) :=
  Lexes.token (k := .newline) (n := 1) rfl hrest

theorem ofChars_spaces (n : Nat) :
    Indent.ofChars (List.replicate n ' ') = .ok ⟨n, 0⟩ := by
  induction n with
  | zero => rfl
  | succ n ih =>
    rw [List.replicate_succ, Indent.ofChars, if_pos rfl, ih]
    rfl

theorem lexes_margin (h : Piece.blank.Ends rest.head?) (hrest : Lexes false rest fs) :
    Lexes true (List.replicate (n + 1) ' ' ++ rest) (.indent (.ok ⟨n + 1, 0⟩) :: fs) := by
  have hrun : run isBlank (List.replicate n ' ' ++ rest) = (List.replicate n ' ').length :=
    run_append_of_stop (fun c hc => by rw [List.eq_of_mem_replicate hc]; decide) h
  have hlexeme : lexeme true ' ' (List.replicate n ' ' ++ rest) = .ok (.token .indent (n + 1)) := by
    rw [lexeme, if_pos (by decide), if_pos rfl, hrun, List.length_replicate]
  have hsplit : List.replicate (n + 1) ' ' ++ rest = ' ' :: (List.replicate n ' ' ++ rest) := rfl
  have hlength : (List.replicate (n + 1) ' ').length = n + 1 := List.length_replicate
  have htoken : Lexes true _ (_ :: fs) := Lexes.token hlexeme (by
    rw [← hsplit, List.drop_left' hlength, decide_eq_false (by decide)]
    exact hrest)
  have hindent : Kind.indent ≠ .newline := by decide
  rw [← hsplit, List.take_left' hlength, Token.face, if_neg hindent, if_pos rfl, Indent.ofText,
    String.toList_ofList, ofChars_spaces] at htoken
  exact htoken

/-- Where no piece runs on into the next, every word of a printed text is one token. -/
theorem lexes_pieces {ps : Pieces} (h : Piece.Spaced rest.head? ps) (hrest : Lexes false rest fs) :
    Lexes false ((Piece.textOf ps).toList ++ rest) (Piece.faces ps ++ fs) := by
  induction ps with
  | nil => exact hrest
  | cons p ps ih =>
    obtain ⟨hends, hspaced⟩ := h
    rw [← Piece.head?_textOf] at hends
    have htail := ih hspaced
    cases p with
    | word text =>
      have hword : Lexes false (text.toList ++ _) _ := lexes_word hends htail
      simpa [Piece.textOf, Piece.text, Piece.faces] using hword
    | blank => simpa [Piece.textOf, Piece.text, Piece.faces] using lexes_blank hends htail
    | fault f => exact hends.elim

theorem lexes_line {text : String} {ps : Pieces} (h : Piece.Spaced rest.head? (.word text :: ps))
    (hrest : Lexes false rest fs) : Lexes lineStart ((Piece.textOf (.word text :: ps)).toList ++ rest)
      (Piece.faces (.word text :: ps) ++ fs) := by
  obtain ⟨hends, hspaced⟩ := h
  rw [← Piece.head?_textOf] at hends
  have hword : Lexes lineStart (text.toList ++ _) _ := lexes_word hends (lexes_pieces hspaced hrest)
  simpa [Piece.textOf, Piece.text, Piece.faces] using hword

end Lexer

theorem lex_pieces {text : String} {ps : Pieces} (h : Piece.Spaced none (.word text :: ps)) :
    ∃ tokens, lex (Piece.textOf (.word text :: ps)) = .ok tokens ∧
      tokens.map Token.face = Piece.faces (.word text :: ps) := by
  have hlexes : Lexes true (_ ++ []) (_ ++ []) := lexes_line h lexes_nil
  rwa [List.append_nil, List.append_nil] at hlexes

end Whiley
