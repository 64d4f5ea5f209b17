import Mathlib.Data.List.Find
import Whiley.Proofs.Token.Spelling

namespace Whiley

def Token.moved (distance : Nat) (t : Token) : Token :=
  { t with span := ⟨t.start + distance, t.stop + distance⟩ }

def LexicalError.moved (distance : Nat) (e : LexicalError) : LexicalError :=
  { e with offset := e.offset + distance }

theorem LexicalError.span_moved (distance : Nat) (e : LexicalError) :
    (e.moved distance).span = ⟨e.span.start + distance, e.span.stop + distance⟩ := by
  simp only [moved, span]
  rw [Nat.add_right_comm]

namespace Lexer

def movedOutcome (distance : Nat) :
    Except LexicalError (List Token) → Except LexicalError (List Token)
  | .ok ts => .ok (ts.map (Token.moved distance))
  | .error e => .error (e.moved distance)

section Append

variable {cs ds : List Char} {c : Char}

theorem run_append {p : Char → Bool} (hp : p '\n' = false) (h : '\n' ∈ cs) :
    run p (cs ++ ds) = run p cs := by
  induction cs with
  | nil => exact absurd h nofun
  | cons c cs ih =>
    by_cases hc : p c
    · have hmem : '\n' ∈ cs := by
        rcases List.mem_cons.mp h with rfl | hmem
        · simp [hp] at hc
        · exact hmem
      simpa [run, hc] using ih hmem
    · simp [run, hc]

theorem mem_drop_run {p : Char → Bool} (hp : p '\n' = false) (h : '\n' ∈ cs) :
    '\n' ∈ cs.drop (run p cs) := by
  rw [drop_run]
  induction cs with
  | nil => exact absurd h nofun
  | cons c cs ih =>
    by_cases hc : p c
    · rw [List.dropWhile_cons_of_pos hc]
      rcases List.mem_cons.mp h with rfl | hmem
      · simp [hp] at hc
      · exact ih hmem
    · rwa [List.dropWhile_cons_of_neg hc]

theorem lineLength_append (h : '\n' ∈ cs) : lineLength (cs ++ ds) = lineLength cs := by
  fun_induction lineLength cs with
  | case1 => exact absurd h List.not_mem_nil
  | case2 => rfl
  | case3 => rfl
  | case4 c cs hnewline hreturn ih =>
    have hmem : '\n' ∈ cs := by
      rcases List.mem_cons.mp h with rfl | hmem
      · exact absurd rfl hnewline
      · exact hmem
    obtain ⟨d, cs, rfl⟩ := List.exists_cons_of_ne_nil (List.ne_nil_of_mem hmem)
    rw [← ih hmem]
    simp only [List.cons_append]
    rw [lineLength]
    · exact hnewline
    · rintro rest rfl heq
      exact hreturn cs rfl (by rw [(List.cons.inj heq).1])

theorem commentLength_append {n : Nat} (h : commentLength cs = some n) :
    commentLength (cs ++ ds) = some n := by
  fun_induction commentLength cs generalizing n with
  | case1 => cases h
  | case2 => exact h
  | case3 c cs hends ih =>
    obtain ⟨m, hm, rfl⟩ := Option.map_eq_some_iff.mp h
    rw [List.cons_append, commentLength]
    · rw [ih hm]
      rfl
    · rintro rest rfl heq
      cases cs with
      | nil => cases hm
      | cons d cs => exact hends cs rfl (by rw [(List.cons.inj heq).1])

theorem stringLength_append {n : Nat} (h : stringLength cs = some n) :
    stringLength (cs ++ ds) = some n := by
  fun_induction stringLength cs generalizing n with
  | case1 => cases h
  | case2 => exact h
  | case3 => cases h
  | case4 c cs ih =>
    obtain ⟨m, hm, rfl⟩ := Option.map_eq_some_iff.mp h
    simp only [List.cons_append, stringLength, ih hm]
    rfl
  | case5 c cs hquote hline hescape ih =>
    obtain ⟨m, hm, rfl⟩ := Option.map_eq_some_iff.mp h
    rw [List.cons_append, stringLength]
    · rw [ih hm]
      rfl
    · exact hquote
    · exact hline
    · rintro d rest rfl heq
      cases cs with
      | nil => cases hm
      | cons e cs => exact hescape e cs rfl rfl

theorem charLength_append {n : Nat} (h : charLength cs = some n) :
    charLength (cs ++ ds) = some n := by
  fun_cases charLength cs with
  | case1 c cs => exact h
  | case2 cs hne => simp [charLength] at h
  | case3 c cs hescape hne =>
    rw [charLength.eq_3 _ _ hescape hne] at h
    rw [List.cons_append, List.cons_append, charLength.eq_3]
    · exact h
    · exact fun _ hc _ => hne hc
    · exact hne
  | case4 => simp_all [charLength]

theorem byteMark_append (h : '\n' ∈ cs) : byteMark (cs ++ ds) = byteMark cs := by
  fun_cases byteMark cs with
  | case1 => rfl
  | case2 => exact absurd h (by decide)
  | case3 cs hmark hend =>
    cases cs with
    | nil => exact absurd h nofun
    | cons c cs =>
      rw [List.cons_append, byteMark.eq_3]
      · rintro d rest heq
        obtain ⟨rfl, htail⟩ := List.cons.inj heq
        cases cs with
        | nil => exact absurd h (by decide)
        | cons e cs => exact hmark e cs rfl
      · intro heq
        obtain ⟨rfl, htail⟩ := List.cons.inj heq
        exact hend (by rw [(List.append_eq_nil_iff.mp htail).1])

theorem isPrefixOf_append {ws : List Char} (hw : '\n' ∉ ws) (h : '\n' ∈ cs) :
    ws.isPrefixOf (cs ++ ds) = ws.isPrefixOf cs := by
  induction ws generalizing cs with
  | nil => simp
  | cons w ws ih =>
    cases cs with
    | nil => exact absurd h nofun
    | cons c cs =>
      simp only [List.cons_append, List.isPrefixOf]
      rcases List.mem_cons.mp h with rfl | hmem
      · have hne : w ≠ '\n' := fun hw' => hw (hw' ▸ List.mem_cons_self)
        rw [beq_eq_false_iff_ne.mpr hne, Bool.false_and, Bool.false_and]
      · rw [ih (fun hmem' => hw (List.mem_cons_of_mem w hmem')) hmem]

theorem symbol_append (h : '\n' ∈ cs) : symbol (cs ++ ds) = symbol cs := by
  have hspelling : ∀ k ∈ Kind.symbols, '\n' ∉ k.spelling.toList := by decide
  refine List.find?_congr fun k hk => isPrefixOf_append (hspelling k hk) h

theorem orFault_append {fault : LexicalFault} {kind : Kind} {extra : Nat} {o o' : Option Nat}
    {l : Lexeme} (ho : ∀ n, o = some n → o' = some n) (h : orFault fault kind extra o = .ok l) :
    orFault fault kind extra o' = .ok l := by
  cases o with
  | none => cases h
  | some n => rwa [ho n rfl]

theorem numeral_append (h : '\n' ∈ cs) : numeral (cs ++ ds) = numeral cs := by
  have hdigit : isDigit '\n' = false := by decide
  have hrun : run isDigit (cs ++ ds) = run isDigit cs := run_append hdigit h
  rw [numeral, numeral, hrun, List.drop_append_of_le_length (run_le _ _),
    byteMark_append (mem_drop_run hdigit h)]

theorem word_append (h : '\n' ∈ cs) : word (cs ++ ds) = word cs := by
  have hword : isWordChar '\n' = false := by decide
  have hrun : run isWordChar (cs ++ ds) = run isWordChar cs := run_append hword h
  rw [word, word, hrun, List.take_append_of_le_length (run_le _ _)]

theorem lexeme_append {lineStart : Bool} {l : Lexeme} (hmem : '\n' ∈ c :: cs)
    (h : lexeme lineStart c cs = .ok l) : lexeme lineStart c (cs ++ ds) = .ok l := by
  by_cases hc : c = '\n'
  · subst hc
    exact h
  · have hcs : '\n' ∈ cs := (List.mem_cons.mp hmem).resolve_left (Ne.symm hc)
    obtain ⟨d, cs', rfl⟩ := List.exists_cons_of_ne_nil (List.ne_nil_of_mem hcs)
    have hblank : run isBlank (d :: cs' ++ ds) = run isBlank (d :: cs') :=
      run_append (by decide) hcs
    have hline : lineLength (d :: cs' ++ ds) = lineLength (d :: cs') := lineLength_append hcs
    have hnumeral : numeral (c :: d :: cs' ++ ds) = numeral (c :: d :: cs') := numeral_append hmem
    have hword : word (c :: d :: cs' ++ ds) = word (c :: d :: cs') := word_append hmem
    have hsymbol : symbol (c :: d :: cs' ++ ds) = symbol (c :: d :: cs') := symbol_append hmem
    unfold lexeme at h ⊢
    simp only [List.cons_append, List.head?_cons, List.drop_succ_cons, List.drop_zero] at *
    split_ifs at h ⊢
    · rwa [hblank]
    · rwa [hblank]
    · exact h
    · rwa [hline]
    · exact orFault_append (fun n => commentLength_append) h
    · exact orFault_append (fun n => stringLength_append) h
    · exact orFault_append (fun n => charLength_append) h
    · rwa [hnumeral]
    · rwa [hword]
    · rwa [hsymbol]

end Append

def Whole (lineStart : Bool) (ts : List Token) : Prop :=
  ts.getLast?.elim (lineStart = true) fun t => t.kind = .newline

theorem Whole.tail {lineStart : Bool} {t : Token} {ts : List Token}
    (h : Whole lineStart (t :: ts)) : Whole (t.kind = .newline) ts := by
  cases ts with
  | nil => simpa [Whole] using h
  | cons u ts =>
    rw [Whole, List.getLast?_cons_cons] at h
    rw [Whole]
    obtain ⟨v, hv⟩ : ∃ v, (u :: ts).getLast? = some v := 
      ⟨_, List.getLast?_eq_some_getLast (List.cons_ne_nil u ts)⟩
    rwa [hv] at h ⊢

theorem length_drop_lt {c : Char} {cs : List Char} {fuel n : Nat} (hn : 0 < n)
    (hfuel : (c :: cs).length ≤ fuel + 1) : ((c :: cs).drop n).length ≤ fuel := by
  rw [List.length_drop]
  simp only [List.length_cons] at hfuel ⊢
  omega

theorem tokensFrom_fuel {fuel fuel' offset : Nat} {lineStart : Bool} {cs : List Char}
    (hfuel : cs.length ≤ fuel) (hfuel' : fuel ≤ fuel') :
    tokensFrom fuel' offset lineStart cs = tokensFrom fuel offset lineStart cs := by
  induction fuel generalizing fuel' offset lineStart cs with
  | zero =>
    obtain rfl := List.length_eq_zero_iff.mp (Nat.le_zero.mp hfuel)
    cases fuel' <;> rfl
  | succ fuel ih =>
    cases fuel' with
    | zero => exact absurd hfuel' (Nat.not_succ_le_zero fuel)
    | succ fuel' =>
      have hle := Nat.le_of_succ_le_succ hfuel'
      cases cs with
      | nil => rfl
      | cons c cs =>
        rw [tokensFrom, tokensFrom]
        cases hl : lexeme lineStart c cs with
        | error f => rfl
        | ok l =>
          cases l with
          | blanks n => exact ih (length_drop_lt (lexeme_blanks hl).1 hfuel) hle
          | token k n =>
            dsimp only
            rw [ih (length_drop_lt (lexeme_token hl).2.1 hfuel) hle]

theorem tokensFrom_add (fuel offset distance : Nat) (lineStart : Bool) (cs : List Char) :
    tokensFrom fuel (offset + distance) lineStart cs =
      movedOutcome distance (tokensFrom fuel offset lineStart cs) := by
  induction fuel generalizing offset lineStart cs with
  | zero => rfl
  | succ fuel ih =>
    cases cs with
    | nil => rfl
    | cons c cs =>
      rw [tokensFrom, tokensFrom]
      cases lexeme lineStart c cs with
      | error f => rfl
      | ok l =>
        cases l with
        | blanks n =>
          dsimp only
          rw [Nat.add_right_comm, ih]
        | token k n =>
          dsimp only
          rw [Nat.add_right_comm, ih]
          cases tokensFrom fuel (offset + n) (k = .newline) ((c :: cs).drop n) <;> rfl

theorem tokensFrom_moved {fuel fuel' offset distance : Nat} {lineStart : Bool} {cs : List Char}
    {ts : List Token} (hfuel : cs.length ≤ fuel) (hfuel' : fuel ≤ fuel')
    (h : tokensFrom fuel offset lineStart cs = .ok ts) :
    tokensFrom fuel' (offset + distance) lineStart cs = .ok (ts.map (Token.moved distance)) := by
  rw [tokensFrom_add, tokensFrom_fuel hfuel hfuel', h]
  rfl

theorem mem_of_whole {fuel offset : Nat} {lineStart : Bool} {cs : List Char} {ts : List Token}
    (hfuel : cs.length ≤ fuel) (hcs : cs ≠ []) (h : tokensFrom fuel offset lineStart cs = .ok ts)
    (hwhole : Whole lineStart ts) : '\n' ∈ cs := by
  induction fuel generalizing offset lineStart cs ts with
  | zero => exact absurd (List.length_eq_zero_iff.mp (Nat.le_zero.mp hfuel)) hcs
  | succ fuel ih =>
    obtain ⟨c, cs, rfl⟩ := List.exists_cons_of_ne_nil hcs
    rcases tokensFrom_cases h with ⟨n, hl, hrest⟩ | ⟨kind, n, rest, hl, hrest, rfl⟩
    · obtain ⟨-, rfl, -⟩ := lexeme_blanks_cases hl
      have hlength := length_drop_lt (lexeme_blanks hl).1 hfuel
      refine List.mem_of_mem_drop (ih hlength (fun hnil => ?_) hrest hwhole)
      rw [hnil] at hrest
      obtain rfl : [] = ts := by cases fuel <;> simpa [tokensFrom] using hrest
      cases hwhole
    · have hlength := length_drop_lt (lexeme_token hl).2.1 hfuel
      by_cases hnil : (c :: cs).drop n = []
      · rw [hnil] at hrest
        obtain rfl : [] = rest := by cases fuel <;> simpa [tokensFrom] using hrest
        obtain rfl : kind = .newline := hwhole
        rcases (lexeme_token hl).1 with hline | hline
        · exact List.mem_of_mem_take (by rw [hline]; decide)
        · exact List.mem_of_mem_take (by rw [hline]; decide)
      · exact List.mem_of_mem_drop (ih hlength hnil hrest hwhole.tail)

theorem tokensFrom_append {fuel fuel' offset : Nat} {lineStart : Bool} {cs ds : List Char}
    {ts : List Token} (hfuel : cs.length ≤ fuel) (hfuel' : ds.length ≤ fuel')
    (h : tokensFrom fuel offset lineStart cs = .ok ts) (hwhole : Whole lineStart ts) :
    tokensFrom (fuel + fuel') offset lineStart (cs ++ ds) =
      (tokensFrom fuel' (offset + cs.length) true ds).map (ts ++ ·) := by
  have hnone : ∀ fuel offset, tokensFrom (fuel + fuel') offset true ds =
      (tokensFrom fuel' offset true ds).map ([] ++ ·) := by
    intro fuel offset
    rw [tokensFrom_fuel hfuel' (Nat.le_add_left fuel' fuel)]
    cases tokensFrom fuel' offset true ds <;> rfl
  induction fuel generalizing offset lineStart cs ts with
  | zero =>
    obtain rfl := List.length_eq_zero_iff.mp (Nat.le_zero.mp hfuel)
    obtain rfl : [] = ts := by simpa [tokensFrom] using h
    obtain rfl : lineStart = true := hwhole
    exact hnone 0 offset
  | succ fuel ih =>
    cases cs with
    | nil =>
      obtain rfl : [] = ts := by simpa [tokensFrom] using h
      obtain rfl : lineStart = true := hwhole
      exact hnone (fuel + 1) offset
    | cons c cs =>
      have hmem := mem_of_whole hfuel (List.cons_ne_nil c cs) h hwhole
      have hdrop : ∀ n ≤ cs.length + 1,
          (c :: (cs ++ ds)).drop n = (c :: cs).drop n ++ ds ∧
            n + ((c :: cs).drop n).length = (c :: cs).length := by
        intro n hn
        rw [← List.cons_append, List.drop_append_of_le_length hn, List.length_drop]
        exact ⟨rfl, Nat.add_sub_cancel' hn⟩
      rw [Nat.succ_add, List.cons_append]
      rcases tokensFrom_cases h with ⟨n, hl, hrest⟩ | ⟨kind, n, rest, hl, hrest, rfl⟩
      · obtain ⟨hpos, hle⟩ := lexeme_blanks hl
        obtain ⟨-, rfl, -⟩ := lexeme_blanks_cases hl
        have htail := ih (length_drop_lt hpos hfuel) hrest hwhole
        rw [Nat.add_assoc, (hdrop n hle).2] at htail
        rw [tokensFrom, lexeme_append hmem hl]
        dsimp only
        rw [(hdrop n hle).1, htail]
      · obtain ⟨-, hpos, hle, -⟩ := lexeme_token hl
        have htail := ih (length_drop_lt hpos hfuel) hrest hwhole.tail
        rw [Nat.add_assoc, (hdrop n hle).2] at htail
        have htake : (c :: (cs ++ ds)).take n = (c :: cs).take n := by
          rw [← List.cons_append, List.take_append_of_le_length hle]
        rw [tokensFrom, lexeme_append hmem hl]
        dsimp only
        rw [(hdrop n hle).1, htake, htail]
        cases tokensFrom fuel' (offset + (c :: cs).length) true ds <;> rfl

end Lexer

open Lexer

theorem lex_append_outcome {a : String} {ts : List Token} (ha : lex a = .ok ts)
    (hwhole : Whole true ts) (b : String) :
    lex (a ++ b) = (movedOutcome a.length (lex b)).map (ts ++ ·) := by
  have happend := tokensFrom_append (Nat.le_refl _) (Nat.le_refl b.toList.length) ha hwhole
  rw [lex, String.toList_append, List.length_append, happend, tokensFrom_add, String.length_toList]
  rfl

theorem lex_append {a b : String} {ts us : List Token} (ha : lex a = .ok ts)
    (hb : lex b = .ok us) (hlast : ts ≠ [] → ∃ t, ts.getLast? = some t ∧ t.kind = .newline) :
    lex (a ++ b) = .ok (ts ++ us.map (Token.moved a.length)) := by
  have hwhole : Whole true ts := by
    by_cases hts : ts = []
    · subst hts
      rfl
    · obtain ⟨t, ht, hnewline⟩ := hlast hts
      rwa [Whole, ht]
  rw [lex_append_outcome ha hwhole, hb]
  rfl

/-- So does a text that cannot be lexed: it goes wrong at the same character. -/
theorem lex_after_lines {a b : String} {ts : List Token} {last : Token} (ha : lex a = .ok ts)
    (hlast : ts.getLast? = some last) (hline : last.kind = .newline) :
    (∀ us, lex b = .ok us → lex (a ++ b) = .ok (ts ++ us.map (Token.moved a.length))) ∧
      ∀ e, lex b = .error e → ∃ e', lex (a ++ b) = .error e' ∧ e'.fault = e.fault ∧
        e'.span = ⟨e.span.start + a.length, e.span.stop + a.length⟩ := by
  have hwhole : Whole true ts := by rwa [Whole, hlast]
  constructor
  · intro us hb
    rw [lex_append_outcome ha hwhole, hb]
    rfl
  · intro e hb
    refine ⟨e.moved a.length, ?_, rfl, e.span_moved a.length⟩
    rw [lex_append_outcome ha hwhole, hb]
    rfl

def commented : String :=
  "x /* 'a\n */ \"b\" // c\r\n"

theorem lex_after_lines_commented :
    ∃ ts last, lex commented = .ok ts ∧ ts.getLast? = some last ∧ last.kind = .newline ∧
      (∃ us, lex "\t|y|" = .ok us ∧
        lex (commented ++ "\t|y|") = .ok (ts ++ us.map (Token.moved commented.length))) ∧
      ∃ e e', lex "/ /*/" = .error e ∧ lex (commented ++ "/ /*/") = .error e' ∧
        e'.fault = e.fault ∧
          e'.span = ⟨e.span.start + commented.length, e.span.stop + commented.length⟩ := by
  obtain ⟨ts, last, ha, hlast, hline⟩ :
      ∃ ts last, lex commented = .ok ts ∧ ts.getLast? = some last ∧ last.kind = .newline :=
    ⟨_, _, rfl, rfl, rfl⟩
  obtain ⟨us, hb⟩ : ∃ us, lex "\t|y|" = .ok us := ⟨_, rfl⟩
  obtain ⟨e, he⟩ : ∃ e, lex "/ /*/" = .error e := ⟨_, rfl⟩
  obtain ⟨e', he', hfault, hspan⟩ := (lex_after_lines ha hlast hline).2 e he
  exact ⟨ts, last, ha, hlast, hline, ⟨us, hb, (lex_after_lines ha hlast hline).1 us hb⟩,
    e, e', he, he', hfault, hspan⟩

end Whiley
