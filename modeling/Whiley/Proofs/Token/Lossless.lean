import Whiley.Proofs.Token.Appended
import Whiley.Proofs.Token.Order

namespace Whiley

namespace Lexer

/-- The characters of a text from one offset to before another. -/
def slice (cs : List Char) (i j : Nat) : List Char :=
  (cs.take j).drop i

def blankAt (cs : List Char) (i : Nat) : Bool :=
  (cs[i]?).any isBlank

def Blank (cs : List Char) (i j : Nat) : Prop :=
  ∀ k, i ≤ k → k < j → blankAt cs k

section Characters

variable {cs : List Char} {i j k : Nat}

theorem any_run (p : Char → Bool) (cs : List Char) :
    (∀ k < run p cs, (cs[k]?).any p) ∧ (cs[run p cs]?).any p = false := by
  induction cs with
  | nil => simp [run]
  | cons c cs ih =>
    by_cases hc : p c
    · rw [run_cons hc]
      refine ⟨fun k hk => ?_, by simpa using ih.2⟩
      cases k with
      | zero => simpa using hc
      | succ k => simpa using ih.1 k (Nat.lt_of_succ_lt_succ hk)
    · simp [run, hc]

theorem blankAt_drop (k : Nat) : ((cs.drop i)[k]?).any isBlank = blankAt cs (i + k) := by
  rw [blankAt, List.getElem?_drop]

theorem blank_run (cs : List Char) (i : Nat) : Blank cs i (i + run isBlank (cs.drop i)) := by
  intro k hik hk
  obtain ⟨m, rfl⟩ := Nat.exists_eq_add_of_le hik
  rw [← blankAt_drop]
  exact (any_run isBlank (cs.drop i)).1 m (Nat.lt_of_add_lt_add_left hk)

theorem not_blankAt_run (cs : List Char) (i : Nat) :
    blankAt cs (i + run isBlank (cs.drop i)) = false := by
  rw [← blankAt_drop]
  exact (any_run isBlank (cs.drop i)).2

theorem Blank.refl (cs : List Char) (i : Nat) : Blank cs i i :=
  fun _ hik hk => absurd hk (Nat.not_lt.mpr hik)

theorem Blank.append (h : Blank cs i j) (h' : Blank cs j k) : Blank cs i k := by
  intro m him hm
  by_cases hj : m < j
  · exact h m him hj
  · exact h' m (Nat.not_lt.mp hj) hm

theorem Blank.slice (h : Blank cs i j) : ∀ c ∈ slice cs i j, isBlank c := by
  intro c hc
  obtain ⟨m, hm⟩ := List.mem_iff_getElem?.mp hc
  rw [Lexer.slice, List.getElem?_drop, List.getElem?_take] at hm
  split_ifs at hm with hlt
  have hblank := h (i + m) (Nat.le_add_right i m) hlt
  simpa [blankAt, hm] using hblank

theorem getLast?_take {n : Nat} (hn : 0 < n) (hle : n ≤ cs.length) :
    (cs.take n).getLast? = cs[n - 1]? := by
  rw [List.getLast?_eq_getElem?, List.length_take, Nat.min_eq_left hle,
    List.getElem?_take_of_lt (Nat.sub_lt hn Nat.one_pos)]

theorem slice_add (cs : List Char) (i k : Nat) : slice cs i (i + k) = (cs.drop i).take k := by
  rw [slice, List.drop_take, Nat.add_sub_cancel_left]

theorem slice_append (hij : i ≤ j) : slice cs i j ++ cs.drop j = cs.drop i := by
  rw [slice, List.drop_take]
  have hdrop : cs.drop j = (cs.drop i).drop (j - i) := by
    rw [List.drop_drop, Nat.add_sub_cancel' hij]
  rw [hdrop, List.take_append_drop]

end Characters

section LastCharacter

variable {lineStart : Bool} {c : Char} {cs : List Char} {k : Kind} {n : Nat}

theorem spelled_last (h : k.Spelled cs) (hk : k ≠ .newline) (hline : k ≠ .lineComment)
    (hblock : k ≠ .blockComment) : cs.getLast? ≠ some '\n' := by
  intro hlast
  have hmem : '\n' ∈ cs := List.mem_of_getLast? hlast
  have hfixed : ∀ k ∈ Kind.all, k ∉ Kind.classes → '\n' ∉ k.spelling.toList := by decide
  by_cases hclass : k ∈ Kind.classes
  · cases k with
    | identifier =>
      obtain ⟨⟨c, rest, rfl, hc, hrest⟩, -⟩ := h
      rcases List.mem_cons.mp hmem with rfl | hmem
      · exact absurd hc (by decide)
      · exact absurd (hrest _ hmem) (by decide)
    | intLit => exact absurd (h.2 _ hmem) (by decide)
    | byteLit =>
      obtain ⟨ds, rfl, -⟩ := h
      simp at hlast
    | charLit =>
      obtain ⟨body, rfl, -⟩ := h
      rw [List.getLast?_concat] at hlast
      exact absurd hlast (by decide)
    | stringLit =>
      obtain ⟨body, rfl, -⟩ := h
      rw [List.getLast?_concat] at hlast
      exact absurd hlast (by decide)
    | indent => exact absurd (h.2 _ hmem) (by decide)
    | newline => exact hk rfl
    | lineComment => exact hline rfl
    | blockComment => exact hblock rfl
    | _ => exact absurd hclass (by decide)
  · rw [Kind.spelled_iff_of_fixed hclass] at h
    exact hfixed k (Kind.mem_all k) hclass (h ▸ hmem)

theorem not_mem_take_lineLength (cs : List Char) : '\n' ∉ cs.take (lineLength cs) := by
  fun_induction lineLength cs with
  | case1 => simp
  | case2 => simp
  | case3 => simp
  | case4 c cs hnewline _ ih =>
    rw [List.take_succ_cons, List.mem_cons, not_or]
    exact ⟨fun h => hnewline h.symm, ih⟩

theorem commentLength_last (h : commentLength cs = some n) : (cs.take n).getLast? = some '/' := by
  fun_induction commentLength cs generalizing n with
  | case1 => cases h
  | case2 cs =>
    obtain rfl := Option.some.inj h
    rfl
  | case3 c cs _ ih =>
    obtain ⟨m, hm, rfl⟩ := Option.map_eq_some_iff.mp h
    rw [List.take_succ_cons, List.getLast?_cons, ih hm]
    rfl

theorem numeral_kind (h : numeral cs = .token k n) : k = .byteLit ∨ k = .intLit := by
  rw [numeral] at h
  split at h
  · exact .inl (Lexeme.token.inj h).1.symm
  · exact .inr (Lexeme.token.inj h).1.symm

theorem word_kind (h : word cs = .token k n) : k = .identifier ∨ k ∈ Kind.keywords := by
  obtain ⟨hk, -⟩ := Lexeme.token.inj h
  by_cases hid : k = .identifier
  · exact .inl hid
  · exact .inr (ofWord_spelling hk hid).1

theorem lexeme_newline (h : lexeme lineStart c cs = .ok (.token k n)) :
    k = .newline ↔ ((c :: cs).take n).getLast? = some '\n' := by
  have hspelled := (lexeme_token h).1
  have hother (hk : k ≠ .newline) (hline : k ≠ .lineComment) (hblock : k ≠ .blockComment) :
      k = .newline ↔ ((c :: cs).take n).getLast? = some '\n' :=
    iff_of_false hk (spelled_last hspelled hk hline hblock)
  cases lexeme_cuts h with
  | indent => exact hother nofun nofun nofun
  | newline hc => simp [hc]
  | lineReturn hc hcs =>
    obtain ⟨rest, rfl⟩ := List.head?_eq_some_iff.mp hcs
    simp
  | lineComment hc hcs =>
    refine iff_of_false nofun fun hlast => ?_
    rcases List.mem_cons.mp (List.mem_of_getLast? hlast) with rfl | hmem
    · cases hc
    · exact not_mem_take_lineLength cs hmem
  | blockComment hc hcs hn =>
    obtain ⟨rest, rfl⟩ := List.head?_eq_some_iff.mp hcs
    refine iff_of_false nofun fun hlast => ?_
    have hslash := commentLength_last hn
    simp only [List.drop_succ_cons, List.drop_zero] at hslash
    simp [List.getLast?_cons, hslash] at hlast
  | string => exact hother nofun nofun nofun
  | char => exact hother nofun nofun nofun
  | numeral hc hn => rcases numeral_kind hn with rfl | rfl <;> exact hother nofun nofun nofun
  | word hc hn =>
    rcases word_kind hn with rfl | hmem
    · exact hother nofun nofun nofun
    · refine hother ?_ ?_ ?_ <;> (rintro rfl; exact absurd hmem (by decide))
  | symbol hk =>
    have hmem := (symbol_spelled hk).1
    refine hother ?_ ?_ ?_ <;> (rintro rfl; exact absurd hmem (by decide))

end LastCharacter

structure Stands (cs : List Char) (lineStart : Bool) (t : Token) : Prop where
  nonempty : t.start < t.stop
  text : t.text.toList = slice cs t.start t.stop
  indent : t.kind = .indent →
    lineStart = true ∧ Blank cs t.start t.stop ∧ blankAt cs t.stop = false
  word : t.kind ≠ .indent → blankAt cs t.start = false
  newline : t.kind = .newline ↔ cs[t.stop - 1]? = some '\n'

/-- Tokens that stand in a text from an offset on, with nothing but blanks between them. -/
inductive Laid (cs : List Char) : Bool → Nat → List Token → Prop
  | nil {lineStart i} (hgap : Blank cs i cs.length) (hline : lineStart = true → cs.length ≤ i) :
      Laid cs lineStart i []
  | cons {lineStart i t ts} (hstart : i ≤ t.start) (hgap : Blank cs i t.start)
      (hline : lineStart = true → t.start = i) (ht : Stands cs lineStart t)
      (hts : Laid cs (t.kind = .newline) t.stop ts) : Laid cs lineStart i (t :: ts)

theorem Laid.after_blanks {cs : List Char} {i j : Nat} {ts : List Token} (hij : i ≤ j)
    (hgap : Blank cs i j) (h : Laid cs false j ts) : Laid cs false i ts := by
  cases h with
  | nil hrest _ => exact .nil (hgap.append hrest) nofun
  | cons hstart hrest _ ht hts =>
    exact .cons (Nat.le_trans hij hstart) (hgap.append hrest) nofun ht hts

theorem stands_lexeme {cs : List Char} {lineStart : Bool} {i n : Nat} {c : Char} {ds : List Char}
    {k : Kind} (hcs : cs.drop i = c :: ds) (h : lexeme lineStart c ds = .ok (.token k n)) :
    Stands cs lineStart ⟨k, String.ofList ((c :: ds).take n), ⟨i, i + n⟩⟩ := by
  have hslice : slice cs i (i + n) = (c :: ds).take n := by rw [slice_add, hcs]
  have hblank : blankAt cs i = isBlank c := by
    rw [← Nat.add_zero i, ← blankAt_drop, hcs]
    simp
  obtain ⟨hspelled, hpos, hle, hline⟩ := lexeme_token h
  refine ⟨Nat.lt_add_of_pos_right hpos, String.toList_ofList.trans hslice.symm, ?_, ?_, ?_⟩
  · rintro rfl
    have hc : isBlank c := by
      refine hspelled.2 c ?_
      obtain ⟨m, rfl⟩ := Nat.exists_eq_succ_of_ne_zero (Nat.ne_of_gt hpos)
      exact List.mem_cons_self
    obtain rfl : run isBlank (c :: ds) = n := by
      rw [lexeme_of_isBlank hc, hline rfl] at h
      exact (Lexeme.token.inj (Except.ok.inj h)).2
    rw [← hcs]
    exact ⟨hline rfl, blank_run cs i, not_blankAt_run cs i⟩
  · intro hk
    refine hblank.trans (eq_false_of_ne_true fun hc => hk ?_)
    rw [lexeme_of_isBlank hc] at h
    split_ifs at h
    · exact (Lexeme.token.inj (Except.ok.inj h)).1.symm
    · cases h
  · change k = .newline ↔ cs[i + n - 1]? = some '\n'
    have hlast : ((c :: ds).take n).getLast? = (c :: ds)[n - 1]? := getLast?_take hpos hle
    rw [lexeme_newline h, hlast, ← hcs, List.getElem?_drop, Nat.add_sub_assoc hpos]

theorem laid_nil {cs : List Char} {i : Nat} {lineStart : Bool} (h : cs.drop i = []) :
    Laid cs lineStart i [] := by
  have hle : cs.length ≤ i := List.drop_eq_nil_iff.mp h
  exact .nil (fun k hik hk => absurd hk (by omega)) fun _ => hle

theorem tokensFrom_laid {cs : List Char} {fuel i : Nat} {lineStart : Bool} {ts : List Token}
    (hfuel : (cs.drop i).length ≤ fuel)
    (h : tokensFrom fuel i lineStart (cs.drop i) = .ok ts) : Laid cs lineStart i ts := by
  induction fuel generalizing i lineStart ts with
  | zero =>
    have hcs : cs.drop i = [] := List.length_eq_zero_iff.mp (Nat.le_zero.mp hfuel)
    obtain rfl : [] = ts := Except.ok.inj h
    exact laid_nil hcs
  | succ fuel ih =>
    cases hcs : cs.drop i with
    | nil =>
      rw [hcs] at h
      obtain rfl : [] = ts := Except.ok.inj h
      exact laid_nil hcs
    | cons c ds =>
      have hdrop (n : Nat) : (c :: ds).drop n = cs.drop (i + n) := by rw [← hcs, List.drop_drop]
      rw [hcs] at h hfuel
      rcases tokensFrom_cases h with ⟨n, hl, hrest⟩ | ⟨k, n, rest, hl, hrest, rfl⟩
      · have hlength := length_drop_lt (lexeme_blanks hl).1 hfuel
        obtain ⟨-, rfl, rfl⟩ := lexeme_blanks_cases hl
        rw [hdrop] at hrest hlength
        have hblank := blank_run cs i
        rw [hcs] at hblank
        exact .after_blanks (Nat.le_add_right i _) hblank (ih hlength hrest)
      · have hlength := length_drop_lt (lexeme_token hl).2.1 hfuel
        rw [hdrop] at hrest hlength
        exact .cons (Nat.le_refl i) (Blank.refl cs i) (fun _ => rfl) (stands_lexeme hcs hl)
          (ih hlength hrest)

def Uncovered (ts : List Token) (k : Nat) : Prop :=
  ∀ t ∈ ts, k < t.start ∨ t.stop ≤ k

/-- Where a line begins: at the start of the text, or where a line end ends. -/
def StartsLine (ts : List Token) (i : Nat) : Prop :=
  i = 0 ∨ ∃ t ∈ ts, t.kind = .newline ∧ t.stop = i

/-- A run of blanks that is part of no longer one. -/
structure BlankRun (cs : List Char) (i j : Nat) : Prop where
  nonempty : i < j
  blank : Blank cs i j
  before : ∀ k, k + 1 = i → blankAt cs k = false
  after : blankAt cs j = false

theorem not_newline_of_blankAt {cs : List Char} {k : Nat} (h : blankAt cs k) :
    cs[k]? ≠ some '\n' := by
  intro hk
  simp [blankAt, hk] at h
  exact absurd h (by decide)

section Laid

variable {cs : List Char} {lineStart : Bool} {i j k : Nat} {t : Token} {ts : List Token}

theorem Laid.text (h : Laid cs lineStart i ts) : ∀ t ∈ ts, t.text.toList = slice cs t.start t.stop := by
  induction h with
  | nil => simp
  | cons _ _ _ ht _ ih => exact List.forall_mem_cons.mpr ⟨ht.text, ih⟩

theorem Laid.blank (h : Laid cs lineStart i ts) (hik : i ≤ k) (hk : k < cs.length)
    (hout : Uncovered ts k) : blankAt cs k := by
  induction h with
  | nil hgap _ => exact hgap k hik hk
  | @cons _ _ t _ _ hgap _ _ _ ih =>
    rcases hout t List.mem_cons_self with hbefore | hafter
    · exact hgap k hik hbefore
    · exact ih hafter fun u hu => hout u (List.mem_cons_of_mem t hu)

theorem Laid.inside (h : Laid cs lineStart i ts) (hik : i ≤ k) (hk : k < cs.length)
    (hout : Uncovered ts k) :
    (k = i → lineStart = false) ∧ (i < k → cs[k - 1]? ≠ some '\n') := by
  induction h with
  | nil hgap hline =>
    refine ⟨fun hki => eq_false_of_ne_true fun hl => ?_, fun hlt => ?_⟩
    · exact absurd (hline hl) (by omega)
    · exact not_newline_of_blankAt (hgap (k - 1) (by omega) (by omega))
  | @cons l i t ts hstart hgap hline ht hts ih =>
    rcases hout t List.mem_cons_self with hbefore | hafter
    · refine ⟨fun hki => eq_false_of_ne_true fun hl => ?_, fun hlt => ?_⟩
      · exact absurd (hline hl) (by omega)
      · exact not_newline_of_blankAt (hgap (k - 1) (by omega) (by omega))
    · obtain ⟨hstop, hlater⟩ := ih hafter fun u hu => hout u (List.mem_cons_of_mem t hu)
      have hpos := ht.nonempty
      refine ⟨fun hki => absurd hki (by omega), fun _ => ?_⟩
      rcases Nat.eq_or_lt_of_le hafter with rfl | hlt
      · intro hlast
        exact absurd (ht.newline.mpr hlast) (of_decide_eq_false (hstop rfl))
      · exact hlater hlt

theorem Laid.from_newline (h : Laid cs lineStart i ts) (ht : t ∈ ts) (hk : t.kind = .newline) :
    ∃ us, (∀ u ∈ us, u ∈ ts) ∧ Laid cs true t.stop us := by
  induction h with
  | nil => cases ht
  | @cons _ _ u us _ _ _ _ hts ih =>
    rcases List.mem_cons.mp ht with rfl | ht
    · rw [hk] at hts
      exact ⟨us, fun v hv => List.mem_cons_of_mem t hv, hts⟩
    · obtain ⟨vs, hsub, hvs⟩ := ih ht
      exact ⟨vs, fun v hv => List.mem_cons_of_mem u (hsub v hv), hvs⟩

theorem BlankRun.stop_unique (h : BlankRun cs i j) (hik : i < k) (hblank : Blank cs i k)
    (hafter : blankAt cs k = false) : j = k := by
  rcases Nat.lt_trichotomy j k with hlt | heq | hlt
  · have hj := hblank j (Nat.le_of_lt h.nonempty) hlt
    rw [h.after] at hj
    cases hj
  · exact heq
  · have hk := h.blank k (Nat.le_of_lt hik) hlt
    rw [hafter] at hk
    cases hk

theorem Laid.indent_of_run (h : Laid cs true i ts) (hrun : BlankRun cs i j) :
    ∃ t ∈ ts, t.kind = .indent ∧ t.span = ⟨i, j⟩ := by
  have hi : blankAt cs i := hrun.blank i (Nat.le_refl i) hrun.nonempty
  cases h with
  | nil _ hline =>
    rw [blankAt, List.getElem?_eq_none (hline rfl)] at hi
    cases hi
  | @cons _ _ t ts _ _ hline ht _ =>
    obtain rfl := hline rfl
    have hk : t.kind = .indent := by
      by_contra hk
      rw [ht.word hk] at hi
      cases hi
    obtain ⟨-, hblank, hafter⟩ := ht.indent hk
    obtain rfl := hrun.stop_unique ht.nonempty hblank hafter
    exact ⟨t, List.mem_cons_self, hk, rfl⟩

theorem Laid.run_of_indent (h : Laid cs lineStart i ts) (ht : t ∈ ts) (hk : t.kind = .indent) :
    ((lineStart = true ∧ t.start = i) ∨ ∃ u ∈ ts, u.kind = .newline ∧ u.stop = t.start ∧
      cs[t.start - 1]? = some '\n') ∧
      t.start < t.stop ∧ Blank cs t.start t.stop ∧ blankAt cs t.stop = false := by
  induction h with
  | nil => cases ht
  | @cons l i u us _ _ hline hu _ ih =>
    rcases List.mem_cons.mp ht with rfl | ht
    · obtain ⟨hl, hblank, hafter⟩ := hu.indent hk
      exact ⟨.inl ⟨hl, hline hl⟩, hu.nonempty, hblank, hafter⟩
    · obtain ⟨hplace, hrun⟩ := ih ht
      refine ⟨.inr ?_, hrun⟩
      rcases hplace with ⟨hnewline, hstart⟩ | ⟨v, hv, hrest⟩
      · have hkind : u.kind = .newline := of_decide_eq_true hnewline
        refine ⟨u, List.mem_cons_self, hkind, hstart.symm, ?_⟩
        rw [hstart]
        exact hu.newline.mp hkind
      · exact ⟨v, List.mem_cons_of_mem u hv, hrest⟩

theorem Laid.rebuild (h : Laid cs lineStart i ts) : ∃ gaps tail,
    gaps.length = ts.length ∧ (∀ gap ∈ tail :: gaps, ∀ c ∈ gap, isBlank c) ∧
      cs.drop i = (List.zipWith (fun gap t => gap ++ t.text.toList) gaps ts).flatten ++ tail := by
  induction h with
  | @nil _ i hgap _ =>
    refine ⟨[], cs.drop i, rfl, fun gap hmem => ?_, rfl⟩
    obtain rfl : gap = cs.drop i := by simpa using hmem
    have hslice : slice cs i cs.length = cs.drop i := by rw [slice, List.take_length]
    exact hslice ▸ hgap.slice
  | @cons _ i t ts hstart hgap _ ht _ ih =>
    obtain ⟨gaps, tail, hlength, hblank, hcs⟩ := ih
    refine ⟨slice cs i t.start :: gaps, tail, congrArg (· + 1) hlength, fun gap hmem => ?_, ?_⟩
    · rcases List.mem_cons.mp hmem with rfl | hmem
      · exact hblank _ List.mem_cons_self
      · rcases List.mem_cons.mp hmem with rfl | hmem
        · exact hgap.slice
        · exact hblank gap (List.mem_cons_of_mem tail hmem)
    · rw [List.zipWith_cons_cons, List.flatten_cons, List.append_assoc, ← hcs, ht.text,
        List.append_assoc, slice_append (Nat.le_of_lt ht.nonempty), slice_append hstart]

end Laid

/-- What tokens show of the text that they were cut from. -/
structure Lossless (cs : List Char) (ts : List Token) : Prop where
  text : ∀ t ∈ ts, t.start < t.stop ∧ t.stop ≤ cs.length ∧
    t.text.toList = slice cs t.start t.stop
  order : ts.Pairwise fun t u => t.stop ≤ u.start
  gap : ∀ k c, cs[k]? = some c → Uncovered ts k →
    (c = ' ' ∨ c = '\t') ∧ ¬ StartsLine ts k ∧ 0 < k ∧ cs[k - 1]? ≠ some '\n'
  indent : ∀ i j, (∃ t ∈ ts, t.kind = .indent ∧ t.span = ⟨i, j⟩) ↔
    StartsLine ts i ∧ BlankRun cs i j
  rebuild : ∃ gaps tail, gaps.length = ts.length ∧
    (∀ gap ∈ tail :: gaps, ∀ c ∈ gap, c = ' ' ∨ c = '\t') ∧
      cs = (List.zipWith (fun gap t => gap ++ t.text.toList) gaps ts).flatten ++ tail

end Lexer

open Lexer

theorem lex_laid {source : String} {tokens : List Token} (h : lex source = .ok tokens) :
    Laid source.toList true 0 tokens :=
  tokensFrom_laid (Nat.le_refl _) h

theorem not_startsLine {cs : List Char} {ts : List Token} {k : Nat} (h : Laid cs true 0 ts)
    (hk : k < cs.length) (hout : Uncovered ts k) : ¬ StartsLine ts k := by
  rintro (rfl | ⟨t, ht, hnewline, rfl⟩)
  · cases (h.inside (Nat.le_refl 0) hk hout).1 rfl
  · obtain ⟨us, hsub, hus⟩ := h.from_newline ht hnewline
    cases (hus.inside (Nat.le_refl _) hk fun u hu => hout u (hsub u hu)).1 rfl

theorem indent_iff {cs : List Char} {ts : List Token} {i j : Nat} (h : Laid cs true 0 ts) :
    (∃ t ∈ ts, t.kind = .indent ∧ t.span = ⟨i, j⟩) ↔ StartsLine ts i ∧ BlankRun cs i j := by
  constructor
  · rintro ⟨t, ht, hk, hspan⟩
    obtain ⟨rfl, rfl⟩ : t.start = i ∧ t.stop = j := by simp [Token.start, Token.stop, hspan]
    obtain ⟨hplace, hpos, hblank, hafter⟩ := h.run_of_indent ht hk
    rcases hplace with ⟨-, hzero⟩ | ⟨u, hu, hnewline, hstop, hlast⟩
    · exact ⟨.inl hzero, hpos, hblank, fun k hk => by omega, hafter⟩
    · refine ⟨.inr ⟨u, hu, hnewline, hstop⟩, hpos, hblank, fun k hk => ?_, hafter⟩
      have hprev : cs[k]? = some '\n' := by rw [← hlast, ← hk, Nat.add_sub_cancel]
      exact eq_false_of_ne_true fun hk => not_newline_of_blankAt hk hprev
  · rintro ⟨rfl | ⟨t, ht, hnewline, rfl⟩, hrun⟩
    · exact h.indent_of_run hrun
    · obtain ⟨us, hsub, hus⟩ := h.from_newline ht hnewline
      obtain ⟨u, hu, hindent⟩ := hus.indent_of_run hrun
      exact ⟨u, hsub u hu, hindent⟩

theorem isBlank_iff {c : Char} : isBlank c ↔ c = ' ' ∨ c = '\t' := by
  simp [isBlank]

theorem lex_lossless {source : String} {tokens : List Token} (h : lex source = .ok tokens) :
    Lossless source.toList tokens := by
  have hlaid := lex_laid h
  have horder := lex_inOrder h
  refine ⟨fun t ht => ?_, horder.pairwise, fun k c hc hout => ?_, fun i j => indent_iff hlaid, ?_⟩
  · obtain ⟨-, hpos, hstop⟩ := horder.mem t ht
    exact ⟨hpos, String.length_toList ▸ hstop, hlaid.text t ht⟩
  · obtain ⟨hk, -⟩ := List.getElem?_eq_some_iff.mp hc
    have hblank : isBlank c := by
      have hk := hlaid.blank (Nat.zero_le k) hk hout
      simpa [blankAt, hc] using hk
    have hline := not_startsLine hlaid hk hout
    have hpos : 0 < k := Nat.pos_of_ne_zero fun hzero => hline (.inl hzero)
    exact ⟨isBlank_iff.mp hblank, hline, hpos, (hlaid.inside (Nat.zero_le k) hk hout).2 hpos⟩
  · obtain ⟨gaps, tail, hlength, hblank, hcs⟩ := hlaid.rebuild
    exact ⟨gaps, tail, hlength, fun gap hgap c hc => isBlank_iff.mp (hblank gap hgap c hc), hcs⟩

def blanks : String :=
  "\t if  x /* \n */ :\r\n  \n   y\t"

theorem lex_lossless_blanks : ∃ tokens, lex blanks = .ok tokens ∧
    tokens.map (·.kind) = [.indent, .kwIf, .identifier, .blockComment, .colon, .newline, .indent,
      .newline, .indent, .identifier] ∧ Lossless blanks.toList tokens := by
  obtain ⟨tokens, h, hkinds⟩ : ∃ tokens, lex blanks = .ok tokens ∧
      tokens.map (·.kind) = [.indent, .kwIf, .identifier, .blockComment, .colon, .newline, .indent,
        .newline, .indent, .identifier] := ⟨_, rfl, by decide +kernel⟩
  exact ⟨tokens, h, hkinds, lex_lossless h⟩

end Whiley
