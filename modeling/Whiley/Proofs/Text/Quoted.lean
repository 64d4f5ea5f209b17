import Mathlib.Algebra.Group.Nat.Defs
import Mathlib.Tactic.SplitIfs
import Whiley.Text.Quoted

namespace Whiley.Text

theorem hexDigit_injective :
    ∀ m < 16, ∀ n < 16, hexDigit m = hexDigit n → m = n := by
  decide

theorem hexDigit_ne_newline {n : Nat} (h : n < 16) : hexDigit n ≠ '\n' := by
  revert n
  decide

theorem hex_injective {width m n : Nat} (hm : m < 16 ^ width) (hn : n < 16 ^ width)
    (h : hex width m = hex width n) : m = n := by
  induction width generalizing m n with
  | zero => omega
  | succ width ih =>
    obtain ⟨hleading, hlast⟩ := List.append_inj' h rfl
    have hquotient := ih (by omega) (by omega) hleading
    have hremainder := hexDigit_injective (m % 16) (Nat.mod_lt m (by decide)) (n % 16)
      (Nat.mod_lt n (by decide)) (List.singleton_inj.mp hlast)
    omega

theorem newline_not_mem_hex (width n : Nat) : '\n' ∉ hex width n := by
  induction width generalizing n with
  | zero => exact List.not_mem_nil
  | succ width ih =>
    have hdigit := hexDigit_ne_newline (Nat.mod_lt n (by decide))
    simp [hex, ih, hdigit.symm]

def IsQuote (c : Char) : Prop :=
  c = '\'' ∨ c = '"'

def letters (quote : Char) : List (Char × Char) :=
  [(quote, quote), ('\\', '\\'), ('\n', 'n'), ('\r', 'r'), ('\t', 't')]

def widths : List (Char × Nat) :=
  [('x', 2), ('u', 4), ('U', 8)]

/-- What a character is written as between two quotes. -/
inductive Written (quote c : Char) : List Char → Prop
  | plain (hquote : c ≠ quote) (hescape : c ≠ '\\') (hline : c ≠ '\n') : Written quote c [c]
  | letter {l} (h : (c, l) ∈ letters quote) : Written quote c ['\\', l]
  | digits {l width} (h : (l, width) ∈ widths) (hc : c.toNat < 16 ^ width) :
    Written quote c ('\\' :: l :: hex width c.toNat)

section Written

variable {quote c d : Char} {cs ds rest rest' : List Char}

theorem Written.of_escape? (h : escape? quote c = some cs) : Written quote c cs := by
  unfold escape? at h
  split_ifs at h with hself hline hreturn htab <;> obtain rfl := Option.some.inj h
  · rcases hself with rfl | rfl <;> exact .letter (by simp [letters])
  · exact .letter (by simp [letters, hline])
  · exact .letter (by simp [letters, hreturn])
  · exact .letter (by simp [letters, htab])

theorem not_special_of_escape? (h : escape? quote c = none) :
    c ≠ quote ∧ c ≠ '\\' ∧ c ≠ '\n' := by
  unfold escape? at h
  split_ifs at h with hself hline
  exact ⟨fun hc => hself (.inl hc), fun hc => hself (.inr hc), hline⟩

theorem quotedChar_written (quote c : Char) : Written quote c (quotedChar quote c) := by
  unfold quotedChar
  split
  · rename_i cs hcs
    exact .of_escape? hcs
  · rename_i hnone
    obtain ⟨hquote, hescape, hline⟩ := not_special_of_escape? hnone
    have hvalid : c.toNat.isValidChar := c.valid
    rw [Nat.isValidChar] at hvalid
    split_ifs with hprint hx hu
    · exact .plain hquote hescape hline
    · exact .digits (by simp [widths]) hx
    · exact .digits (by simp [widths]) hu
    · exact .digits (by simp [widths]) (by omega)

theorem toNat_byte (b : UInt8) : (Char.ofNat b.toNat).toNat = b.toNat := by
  have hb : b.toNat < 256 := b.toNat_lt
  have hvalid : b.toNat.isValidChar := .inl (by omega)
  rw [Char.ofNat, dif_pos hvalid]
  rfl

theorem quotedByte_written (quote : Char) (b : UInt8) :
    Written quote (Char.ofNat b.toNat) (quotedByte quote b) := by
  have hb : b.toNat < 256 := b.toNat_lt
  have hvalue := toNat_byte b
  unfold quotedByte
  split
  · rename_i cs hcs
    exact .of_escape? hcs
  · rename_i hnone
    obtain ⟨hquote, hescape, hline⟩ := not_special_of_escape? hnone
    split_ifs with hprint
    · exact .plain hquote hescape hline
    · have hwidth : ('x', 2) ∈ widths := List.mem_cons_self
      have hdigits : Written quote (Char.ofNat b.toNat) _ := .digits hwidth (by omega)
      rwa [hvalue] at hdigits

theorem letters_unique (hquote : IsQuote quote) :
    (∀ x ∈ letters quote, ∀ y ∈ letters quote, x.2 = y.2 → x.1 = y.1) ∧
      ∀ x ∈ letters quote, ∀ y ∈ widths, x.2 ≠ y.1 := by
  rcases hquote with rfl | rfl <;> decide

theorem widths_unique : ∀ x ∈ widths, ∀ y ∈ widths, x.1 = y.1 → x.2 = y.2 := by
  decide

theorem Written.unique (hquote : IsQuote quote) (h : Written quote c cs)
    (h' : Written quote d ds) (heq : cs ++ rest = ds ++ rest') : c = d ∧ rest = rest' := by
  obtain ⟨hletters, hapart⟩ := letters_unique hquote
  cases h with
  | plain _ hescape _ =>
    cases h' with
    | plain => exact List.cons.inj heq
    | letter => exact absurd (List.cons.inj heq).1 hescape
    | digits => exact absurd (List.cons.inj heq).1 hescape
  | letter hl =>
    cases h' with
    | plain _ hescape _ => exact absurd (List.cons.inj heq).1.symm hescape
    | letter hl' =>
      obtain ⟨hsame, hrest⟩ := List.cons.inj (List.cons.inj heq).2
      exact ⟨hletters _ hl _ hl' hsame, hrest⟩
    | digits hw => exact absurd (List.cons.inj (List.cons.inj heq).2).1 (hapart _ hl _ hw)
  | @digits l width hw hc =>
    cases h' with
    | plain _ hescape _ => exact absurd (List.cons.inj heq).1.symm hescape
    | letter hl => exact absurd (List.cons.inj (List.cons.inj heq).2).1.symm (hapart _ hl _ hw)
    | @digits l' width' hw' hd =>
      obtain ⟨hsame, hrest⟩ := List.cons.inj (List.cons.inj heq).2
      obtain rfl : width = width' := widths_unique _ hw _ hw' hsame
      obtain ⟨hhex, hrest⟩ := List.append_inj hrest (by rw [length_hex, length_hex])
      exact ⟨Char.toNat_inj.mp (hex_injective hc hd hhex), hrest⟩

theorem Written.head_ne (hquote : IsQuote quote) (h : Written quote c cs) :
    cs.head? ≠ some quote := by
  have hescape : '\\' ≠ quote := by rcases hquote with rfl | rfl <;> decide
  cases h with
  | plain hc => simpa using hc
  | letter => simpa using hescape
  | digits => simpa using hescape

theorem Written.ne_quote (hquote : IsQuote quote) (h : Written quote c cs) (rest : List Char) :
    [quote] ≠ cs ++ rest := by
  intro heq
  have hhead := h.head_ne hquote
  cases cs with
  | nil => cases h
  | cons d ds => exact hhead (congrArg some (List.cons.inj heq).1.symm)

theorem Written.newline_not_mem (hquote : IsQuote quote) (h : Written quote c cs) :
    '\n' ∉ cs := by
  have hletters : ∀ x ∈ letters quote, x.2 ≠ '\n' := by rcases hquote with rfl | rfl <;> decide
  have hwidths : ∀ x ∈ widths, x.1 ≠ '\n' := by decide
  cases h with
  | plain _ _ hline => simpa using hline.symm
  | letter hl => simpa using (hletters _ hl).symm
  | digits hw => simpa using ⟨(hwidths _ hw).symm, newline_not_mem_hex _ _⟩

end Written

section Bodies

variable {α : Type} {quote : Char} {char : α → Char} {code : α → List Char}
  (hquote : IsQuote quote) (hcode : ∀ a, Written quote (char a) (code a))

include hquote hcode

theorem flatMap_injective (hchar : ∀ a b, char a = char b → a = b) {as bs : List α}
    (h : as.flatMap code ++ [quote] = bs.flatMap code ++ [quote]) : as = bs := by
  induction as generalizing bs with
  | nil =>
    cases bs with
    | nil => rfl
    | cons b bs =>
      rw [List.flatMap_cons, List.append_assoc] at h
      exact absurd h ((hcode b).ne_quote hquote _)
  | cons a as ih =>
    cases bs with
    | nil =>
      rw [List.flatMap_cons, List.append_assoc] at h
      exact absurd h.symm ((hcode a).ne_quote hquote _)
    | cons b bs =>
      rw [List.flatMap_cons, List.flatMap_cons, List.append_assoc, List.append_assoc] at h
      obtain ⟨hab, hrest⟩ := (hcode a).unique hquote (hcode b) h
      rw [hchar a b hab, ih hrest]

theorem newline_not_mem_flatMap (as : List α) : '\n' ∉ as.flatMap code := by
  intro h
  obtain ⟨a, -, ha⟩ := List.mem_flatMap.mp h
  exact (hcode a).newline_not_mem hquote ha

end Bodies

theorem quoteFor_isQuote (cs : List Char) : IsQuote (quoteFor cs) := by
  unfold quoteFor
  split
  · exact .inr rfl
  · exact .inl rfl

theorem IsQuote.ne_newline {quote : Char} (h : IsQuote quote) : '\n' ≠ quote := by
  rcases h with rfl | rfl <;> decide

theorem quoted_injective {s t : String} (h : quoted s = quoted t) : s = t := by
  have hchars := congrArg String.toList h
  rw [quoted, quoted, String.toList_ofList, String.toList_ofList, List.cons_append,
    List.cons_append] at hchars
  obtain ⟨hquote, hbody⟩ := List.cons.inj hchars
  rw [hquote] at hbody
  exact String.toList_injective (flatMap_injective (quoteFor_isQuote _) (quotedChar_written _)
    (fun _ _ => id) hbody)

theorem newline_not_mem_quoted (s : String) : '\n' ∉ (quoted s).toList := by
  have hquote := quoteFor_isQuote s.toList
  have hbody := newline_not_mem_flatMap hquote (quotedChar_written _) s.toList
  have hends := hquote.ne_newline
  rw [quoted, String.toList_ofList]
  simp [hends, hbody]

theorem char_of_byte_injective (a b : UInt8) (h : Char.ofNat a.toNat = Char.ofNat b.toNat) :
    a = b := by
  have hvalue := congrArg Char.toNat h
  rw [toNat_byte, toNat_byte] at hvalue
  exact UInt8.toNat_inj.mp hvalue

theorem quotedBytes_injective {bs cs : List UInt8} (h : quotedBytes bs = quotedBytes cs) :
    bs = cs := by
  have hchars := congrArg String.toList h
  rw [quotedBytes, quotedBytes, String.toList_ofList, String.toList_ofList, List.cons_append,
    List.cons_append, List.cons_append, List.cons_append] at hchars
  obtain ⟨hquote, hbody⟩ := List.cons.inj (List.cons.inj hchars).2
  rw [hquote] at hbody
  exact flatMap_injective (quoteFor_isQuote _) (quotedByte_written _) char_of_byte_injective hbody

theorem newline_not_mem_quotedBytes (bs : List UInt8) : '\n' ∉ (quotedBytes bs).toList := by
  have hquote := quoteFor_isQuote (bs.map fun b => Char.ofNat b.toNat)
  have hbody := newline_not_mem_flatMap hquote (quotedByte_written _) bs
  have hends := hquote.ne_newline
  rw [quotedBytes, String.toList_ofList]
  simp [hends, hbody]

end Whiley.Text
