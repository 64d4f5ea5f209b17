import Whiley.Proofs.Grammar.Delivers
import Whiley.Proofs.Grammar.Literals
import Whiley.Proofs.Layout.ReadableExprs
import Whiley.Proofs.Token.Words

namespace Whiley

open Lexer Piece Whiley.Parser Whiley.Grammar

namespace Token

variable {t : Token}

section Bytes

theorem length_binaryDigits (width n : Nat) : (binaryDigits width n).length = width := by
  induction width generalizing n with
  | zero => rfl
  | succ width ih => simp [binaryDigits, ih]

theorem binaryValue_append (cs ds : List Char) (m : Nat) :
    binaryValue m (cs ++ ds) = (binaryValue m cs).bind fun n => binaryValue n ds := by
  induction cs generalizing m with
  | nil => rfl
  | cons c cs ih =>
    simp only [List.cons_append, binaryValue]
    split_ifs
    · exact ih _
    · exact ih _
    · rfl

theorem binaryValue_binaryDigits (width n m : Nat) :
    binaryValue m (binaryDigits width n) = some (m * 2 ^ width + n % 2 ^ width) := by
  induction width generalizing n with
  | zero => simp [binaryDigits, binaryValue, Nat.mod_one]
  | succ width ih =>
    have hpow : 2 ^ (width + 1) = 2 * 2 ^ width := by rw [Nat.pow_succ, Nat.mul_comm]
    have hmod : n % 2 ^ (width + 1) = n % 2 + 2 * (n / 2 % 2 ^ width) := by rw [hpow, Nat.mod_mul]
    have hvalue : m * 2 ^ (width + 1) = (m * 2 ^ width) * 2 := by rw [Nat.pow_succ, Nat.mul_assoc]
    rw [binaryDigits, binaryValue_append, ih, Option.bind_some, hmod, hvalue]
    rcases Nat.mod_two_eq_zero_or_one n with hn | hn
    · rw [if_pos hn, binaryValue, if_pos rfl, binaryValue]
      congr 1
      omega
    · rw [if_neg (by omega), binaryValue, if_neg (by decide), if_pos rfl, binaryValue]
      congr 1
      omega

theorem byteValue_literal {n : Nat} (ht : t.text = byteLiteral n) (hn : n < 256) :
    t.byteValue = .ok n := by
  have htext : t.text.toList = binaryDigits 8 n ++ ['b'] := by rw [ht, byteLiteral, String.toList_ofList]
  have hlength : t.text.length = 9 := by
    rw [← String.length_toList, htext, List.length_append, length_binaryDigits]
    rfl
  have hvalue : binaryValue 0 (binaryDigits 8 n) = some n := by
    rw [binaryValue_binaryDigits, Nat.zero_mul, Nat.zero_add]
    exact congrArg some (Nat.mod_eq_of_lt hn)
  rw [byteValue, if_neg (by omega), htext, List.dropLast_concat, hvalue]

end Bytes

theorem charValue_literal {c : Char} (ht : t.text = charLiteral c) : t.charValue = .ok c := by
  obtain ⟨body, hliteral, hbody⟩ := charLiteral_body c
  have hquoted : t.quotedBody = body := quotedBody_of_text (ht ▸ hliteral)
  rw [charValue, hquoted]
  rcases hbody with ⟨rfl, hc⟩ | ⟨d, rfl, hd⟩
  · simp
  · simp [hd]

section Strings

theorem hexValue_hexDigit {n : Nat} (h : n < 16) : hexValue? (Text.hexDigit n) = some n := by
  revert n
  decide

theorem codePoint_hex {n : Nat} (h : n < 0x10000) :
    ∃ a b c d, Text.hex 4 n = [a, b, c, d] ∧ codePoint? a b c d = some n := by
  refine ⟨_, _, _, _, rfl, ?_⟩
  have hdigit (m : Nat) : hexValue? (Text.hexDigit (m % 16)) = some (m % 16) :=
    hexValue_hexDigit (Nat.mod_lt m (by decide))
  simp only [codePoint?, hdigit, bind, Option.bind, pure]
  congr 1
  omega

theorem codePoints_literalChar (c : Char) (cs : List Char) :
    t.codePoints (stringLiteralChar c ++ cs) = (t.codePoints cs).map (c.toNat :: ·) := by
  unfold stringLiteralChar
  split
  · rename_i e he
    obtain ⟨d, hd, hne, hescaped⟩ := literalEscape_shape he
    simp [hd, codePoints, hne, hescaped]
  · rename_i hnone
    split
    · rename_i hquote
      subst hquote
      simp [codePoints, escaped?, escapes]
    · split
      · rename_i hsmall
        obtain ⟨x, y, z, w, hhex, hvalue⟩ := codePoint_hex (n := c.toNat) (by omega)
        simp [hhex, codePoints, hvalue]
      · have hc := (literalEscape_none hnone).1
        simp [codePoints, hc]

theorem codePoints_literal (cs : List Char) :
    t.codePoints (cs.flatMap stringLiteralChar) = .ok (cs.map Char.toNat) := by
  induction cs with
  | nil => rfl
  | cons c cs ih =>
    rw [List.flatMap_cons, codePoints_literalChar, ih]
    rfl

theorem characters_toNat (cs : List Char) : characters? (cs.map Char.toNat) = some cs := by
  induction cs with
  | nil => rfl
  | cons c cs ih =>
    have hc : c.toNat.isValidChar := c.valid
    have hchar : Char.ofNatAux c.toNat hc = c := by
      have hself := Char.ofNat_toNat c
      rwa [Char.ofNat, dif_pos hc] at hself
    rw [characters?] at ih ⊢
    rw [List.map_cons, List.mapM_cons, dif_pos hc, hchar, ih]
    rfl

theorem stringValue_literal {s : String} (ht : t.text = stringLiteral s) :
    t.stringValue = .ok s := by
  have htext : t.text.toList = '"' :: s.toList.flatMap stringLiteralChar ++ ['"'] := by
    rw [ht, stringLiteral, String.toList_ofList]
  have hquoted := quotedBody_of_text htext
  rw [stringValue, hquoted, codePoints_literal]
  simp only [bind, Except.bind, characters_toNat, String.ofList_toList]
  rfl

end Strings

end Token

namespace Lexer

variable {text : String} {c : Char} {cs : List Char} {k : Kind}

theorem lex_single (htext : text.toList = c :: cs)
    (h : lexeme true c cs = .ok (.token k (c :: cs).length)) :
    lex text = .ok [⟨k, text, ⟨0, text.length⟩⟩] := by
  have hlength : (c :: cs).length = text.length := by rw [← htext, String.length_toList]
  have hrest : ∀ lineStart, tokensFrom cs.length (0 + (c :: cs).length) lineStart [] = .ok [] := by
    intro lineStart
    cases cs.length <;> rfl
  rw [lex, htext, List.length_cons, tokensFrom, h]
  simp only [List.drop_length, List.take_length, hrest, Except.map]
  rw [Nat.zero_add, hlength, ← htext, String.ofList_toList]

theorem lex_intLiteral (n : Nat) :
    lex (toString n) = .ok [⟨.intLit, toString n, ⟨0, (toString n).length⟩⟩] := by
  have hnumeral := isNumeral_toString n
  obtain ⟨c, cs, hcs⟩ := List.exists_cons_of_ne_nil hnumeral.1
  have hlexeme : lexeme true c (cs ++ []) = .ok (.token .intLit (c :: cs).length) :=
    lexeme_intLit (hcs ▸ hnumeral) nofun
  exact lex_single hcs (by rwa [List.append_nil] at hlexeme)

theorem lex_byteLiteral (n : Nat) :
    lex (byteLiteral n) = .ok [⟨.byteLit, byteLiteral n, ⟨0, (byteLiteral n).length⟩⟩] := by
  have hdigits := binaryDigits_digits 8 n
  have hlength := Token.length_binaryDigits 8 n
  obtain ⟨c, ds, hds⟩ : ∃ c ds, binaryDigits 8 n = c :: ds :=
    List.exists_cons_of_ne_nil fun hnil => by simp [hnil] at hlength
  have htext : (byteLiteral n).toList = c :: (ds ++ ['b']) := by
    rw [byteLiteral, String.toList_ofList, hds, List.cons_append]
  rw [hds] at hdigits
  have hrun : run isDigit (c :: (ds ++ ['b'])) = (c :: ds).length :=
    run_append_of_stop hdigits (by rintro e ⟨⟩; decide)
  refine lex_single htext ?_
  rw [lexeme_of_isDigit (hdigits c List.mem_cons_self), numeral, hrun]
  have hdrop : (c :: (ds ++ ['b'])).drop (c :: ds).length = ['b'] := List.drop_left
  rw [hdrop]
  simp [byteMark]

theorem lex_charLiteral (c : Char) :
    lex (charLiteral c) = .ok [⟨.charLit, charLiteral c, ⟨0, (charLiteral c).length⟩⟩] := by
  obtain ⟨body, hliteral, hbody⟩ := charLiteral_body c
  have hchar : IsCharBody body := by
    rcases hbody with ⟨rfl, hc⟩ | ⟨d, rfl, -⟩
    · exact .inl ⟨c, rfl, hc⟩
    · exact .inr ⟨d, rfl⟩
  refine lex_single hliteral ?_
  rw [lexeme_char hchar]
  simp

theorem lex_stringLiteral (s : String) :
    lex (stringLiteral s) = .ok [⟨.stringLit, stringLiteral s, ⟨0, (stringLiteral s).length⟩⟩] := by
  have htext : (stringLiteral s).toList = '"' :: (s.toList.flatMap stringLiteralChar ++ ['"']) := by
    rw [stringLiteral, String.toList_ofList, List.cons_append]
  refine lex_single htext ?_
  rw [lexeme_string (stringLiteral_quoted s)]
  simp

end Lexer

namespace Expr

variable {α : Type} {k : Kind} {value : Token → Except Failure α} {build : Mark → α → Expr} {a : α}

/-- One token is printed, from which the value is read, and a parser that meets it builds the literal. -/
def ReadsPrinted (k : Kind) (value : Token → Except Failure α) (build : Mark → α → Expr)
    (a : α) : Prop :=
  ∀ mark, ∃ t, lex (textOf (build mark a).pieces) = .ok [t] ∧ t.kind = k ∧
    t.span = ⟨0, (textOf (build mark a).pieces).length⟩ ∧ value t = .ok a ∧
      ∀ (g : ExprParsers) scope lines input i, input.tokens[i]? = some t →
        Delivers input i (g.term scope lines) (i + 1) fun e => ∃ m, e = build m a

theorem textOf_pieces {e : Expr} {text : String} (hbare : e.bare none = [.word text])
    (hswallows : e.swallows none = false) : textOf e.pieces = text := by
  simp [pieces, within, hbare, hswallows, textOf, Piece.text]

theorem readsPrinted {text : String} (hspace : k.isSpace = false)
    (hprinted : ∀ mark, textOf (build mark a).pieces = text)
    (hlex : lex text = .ok [⟨k, text, ⟨0, text.length⟩⟩])
    (hvalue : ∀ t, t.text = text → value t = .ok a)
    (hterm : ∀ (g : ExprParsers) scope lines, ∃ rest, g.term scope lines = current >>= rest ∧
      ∀ t, t.kind = k → rest t = (do
        let start ← position
        let _ ← advance
        let a ← ofReading (value t)
        make start (build · a))) :
    ReadsPrinted k value build a := by
  intro mark
  rw [hprinted mark]
  refine ⟨_, hlex, rfl, rfl, hvalue _ rfl, fun g scope lines input i ht => ?_⟩
  have hat : input.At i (.word k text) := by
    refine Option.map_eq_some_iff.mpr ⟨_, ht, ?_⟩
    rw [Token.face, if_neg, if_neg] <;> (rintro rfl; cases hspace)
  obtain ⟨rest, hrest, hliteral⟩ := hterm g scope lines
  rw [hrest]
  refine .showing hat hspace fun t ht htext => ?_
  rw [hliteral t ht]
  exact .here (.advancing hat hspace fun _ _ _ =>
    .valued (hvalue t htext) (.make fun m => ⟨m, rfl⟩))

theorem byteLit_readsPrinted {n : Nat} (hn : n < 256) :
    ReadsPrinted .byteLit Token.byteValue .byteLit n :=
  readsPrinted rfl (fun _ => textOf_pieces rfl rfl) (lex_byteLiteral n)
    (fun _ ht => Token.byteValue_literal ht hn) fun _ _ _ => ⟨_, rfl, fun t ht => by simp only [ht]⟩

theorem charLit_readsPrinted (c : Char) : ReadsPrinted .charLit Token.charValue .charLit c :=
  readsPrinted rfl (fun _ => textOf_pieces rfl rfl) (lex_charLiteral c)
    (fun _ ht => Token.charValue_literal ht) fun _ _ _ => ⟨_, rfl, fun t ht => by simp only [ht]⟩

theorem stringLit_readsPrinted (s : String) :
    ReadsPrinted .stringLit Token.stringValue .stringLit s :=
  readsPrinted rfl (fun _ => textOf_pieces rfl rfl) (lex_stringLiteral s)
    (fun _ ht => Token.stringValue_literal ht) fun _ _ _ => ⟨_, rfl, fun t ht => by simp only [ht]⟩

theorem intLit_readsPrinted {n : Nat} (hn : n < 10 ^ Text.digitLimit) :
    ReadsPrinted .intLit Token.integerValue .intLit n :=
  readsPrinted rfl (fun _ => textOf_pieces rfl rfl) (lex_intLiteral n)
    (fun _ ht => Token.integerValue_toString ht hn) fun _ _ _ =>
      ⟨_, rfl, fun t ht => by simp only [ht]⟩

end Expr

open Whiley.Expr in
/-- Every byte, character, well-formed run of bytes and number of at most 4300 digits is read back. -/
theorem literal_reads_printed :
    (∀ n < 256, ReadsPrinted .byteLit Token.byteValue .byteLit n) ∧
      (∀ c, ReadsPrinted .charLit Token.charValue .charLit c) ∧
      (∀ (bytes : ByteArray) (valid : bytes.IsValidUTF8),
        ReadsPrinted .stringLit Token.stringValue .stringLit (.ofByteArray bytes valid)) ∧
      ∀ n, (Nat.toDigits 10 n).length ≤ 4300 →
        ReadsPrinted .intLit Token.integerValue .intLit n := by
  refine ⟨fun n hn => byteLit_readsPrinted hn, charLit_readsPrinted,
    fun bytes valid => stringLit_readsPrinted _, fun n hn => intLit_readsPrinted ?_⟩
  exact (Nat.length_toDigits_le_iff (by decide) (by decide)).mp hn

open Whiley.Expr in
theorem literal_reads_printed_escapes :
    textOf (Expr.byteLit default 165).pieces = "10100101b" ∧
      ReadsPrinted .byteLit Token.byteValue .byteLit 165 ∧
      textOf (Expr.stringLit default "é\"\\\x01\n😀").pieces = "\"é\\\"\\\\\\u0001\\n😀\"" ∧
      ReadsPrinted .stringLit Token.stringValue .stringLit "é\"\\\x01\n😀" ∧
      (Nat.toDigits 10 (2 ^ 64)).length ≤ 4300 ∧
      ReadsPrinted .intLit Token.integerValue .intLit (2 ^ 64) := by
  obtain ⟨hbyte, -, hstring, hint⟩ := literal_reads_printed
  have hshort : (Nat.toDigits 10 (2 ^ 64)).length ≤ 4300 := by decide +kernel
  exact ⟨by decide +kernel, hbyte 165 (by decide), by decide +kernel,
    hstring _ "é\"\\\x01\n😀".isValidUTF8, hshort, hint _ hshort⟩

end Whiley
