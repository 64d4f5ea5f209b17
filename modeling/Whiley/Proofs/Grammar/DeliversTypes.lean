import Whiley.Proofs.Grammar.DeliversNames

namespace Whiley

open Whiley.Parser Whiley.Grammar Piece

namespace Grammar.TypeParsers

/-- The levels of the grammar, from the loosest, with room for types nested `depth` deep. -/
def rung (depth : Nat) (s : Scope) : Nat → Parser TypeExpr
  | 0 => (ofDepth (depth + 2)).type s
  | 1 => separated (ofDepth (depth + 1)).array .ampersand .intersection s
  | _ => (ofDepth (depth + 1)).array s

/-- Of the levels that leave a token of the kind to what comes after the type, the loosest. -/
def hold : Kind → Nat
  | .identifier | .comma | .rparen | .rbracket => 0
  | .bar => 1
  | .ampersand => 2
  | .lbracket => 3
  | _ => 4

theorem solid_of_hold {k : Kind} (hk : hold k ≤ 3) : k.isSpace = false := by
  revert hk
  cases k <;> decide

section Levels

variable {input : Input} {i j m n depth : Nat} {k head separator : Kind} {s : Scope}
  {level : Scope → Parser TypeExpr} {build : Mark → List TypeExpr → TypeExpr} {P : TypeExpr → Prop}

variable (hroom : input.tokens.size < input.allowance)

include hroom

theorem separated_single (hi : input.Meets i head) (hhead : head.isSpace = false)
    (hj : input.Meets j k) (hk : k.isSpace = false) (hne : k ≠ separator)
    (h : Delivers input i (level s) j P) :
    Delivers input i (separated level separator build s) j P := by
  refine .settled hi hhead (h.bind fun t ht => ?_)
  refine (Delivers.afterNone hroom (hj.awaits (Input.skips_of_solid hk)) hne).bind fun ts hts => ?_
  obtain rfl := hts
  exact .pure ht

theorem type_of_base (hi : input.Meets i head) (hhead : head.isSpace = false) (hj : input.Meets j k)
    (hk : k.isSpace = false) (hother : k ∉ [Kind.lbracket, .ampersand, .bar])
    (h : Delivers input i ((ofDepth depth).base s) j P) :
    Delivers input i ((ofDepth (depth + 2)).type s) j P := by
  simp only [List.mem_cons, List.not_mem_nil, or_false, not_or] at hother
  obtain ⟨hbracket, hampersand, hbar⟩ := hother
  have harray : Delivers input i ((ofDepth (depth + 1)).array s) j P := by
    refine .settled hi hhead (h.bind fun t ht => ?_)
    have hnone : k ∉ [Kind.lbracket] := by simpa using hbracket
    refine Delivers.imp (P := (· = t)) (.foldNone hroom ?_) fun u hu => hu ▸ ht
    exact .declining hj (Input.skips_of_solid hk) hnone (.pure rfl)
  apply separated_single hroom hi hhead hj hk hbar
  exact separated_single hroom hi hhead hj hk hampersand harray

theorem rung_mono (hmn : m ≤ n) (hn : n ≤ 2) (hi : input.Meets i head)
    (hhead : head.isSpace = false) (hj : input.Meets j k) (hk : hold k ≤ m)
    (h : Delivers input i (rung depth s n) j P) : Delivers input i (rung depth s m) j P := by
  have hsolid : k.isSpace = false := solid_of_hold (by omega)
  induction n, hmn using Nat.le_induction with
  | base => exact h
  | succ n hmn ih =>
    refine ih (by omega) ?_
    have hn' : hold k ≤ n := hk.trans hmn
    match n with
    | 0 => exact separated_single hroom hi hhead hj hsolid (by rintro rfl; cases hn') h
    | 1 =>
      have hne : k ≠ .ampersand := by
        rintro rfl
        exact absurd hn' (by decide)
      exact separated_single hroom hi hhead hj hsolid hne h
    | n + 2 => omega

theorem separated_operands {γ : Type} {w : γ → List Face} {R : γ → TypeExpr → Prop} {y z : γ}
    {zs : List γ} {text : String} (hseparator : separator.isSpace = false)
    (hi : input.Shows i (Input.listing (.word separator text) false ((y :: z :: zs).map w)) j)
    (hj : input.Meets j k) (hk : k.isSpace = false) (hne : k ≠ separator)
    (hlevel : ∀ x ∈ y :: z :: zs, ∀ a b l, i ≤ a → input.Shows a (w x) b → input.Meets b l →
      l = separator ∨ l = k → (∃ head, input.Meets a head ∧ head.isSpace = false) ∧
        Delivers input a (level s) b (R x)) :
    Delivers input i (separated level separator build s) j fun t =>
      ∃ mark ts, t = build mark ts ∧ List.Forall₂ R (y :: z :: zs) ts := by
  obtain ⟨a, hy, hrest⟩ := Input.shows_append.mp hi
  obtain ⟨l, ha, hl⟩ := hrest.follower hj
  obtain ⟨⟨head, hmeets, hhead⟩, hfirst⟩ := hlevel y (by simp) i a l (Nat.le_refl i) hy ha hl
  have hia := hy.le
  refine .settled hmeets hhead (hfirst.bind fun t ht => ?_)
  refine Delivers.bind (.afterEach hroom (R := R) hseparator (Input.skips_of_solid hk) hne hrest hj
    fun x hx b c l hab hshows hc hl => ?_) fun ts hts => ?_
  · exact (hlevel x (List.mem_cons_of_mem y hx) b c l (by omega) hshows hc hl).2
  · cases hts with
    | cons hz hzs => exact .make fun mark => ⟨mark, _, rfl, .cons ht (.cons hz hzs)⟩

end Levels

end Grammar.TypeParsers

namespace TypeExpr

open TypeParsers (rung hold solid_of_hold rung_mono separated_operands)

theorem pieces_eq_bare (t : TypeExpr) : t.pieces = t.bare false := by
  simp [pieces, within]

def arrayMarks (marks : List Mark) : Pieces :=
  marks.flatMap fun _ => [.word "[", .word "]"]

def arrays (t : TypeExpr) (marks : List Mark) : TypeExpr :=
  marks.foldl (fun t m => .array m t) t

/-- The grammar reads the type where it stands without brackets, and goes on to arrays of it. -/
def ReadsBack (input : Input) (s : Scope) (t : TypeExpr) : Prop :=
  ∀ followed marks depth i j k, marks = [] ∨ t.strength = 3 →
    2 * (input.tokens.size - i) ≤ depth →
      input.Shows i (faces (t.bare followed ++ arrayMarks marks)) j → input.Meets j k →
        hold k ≤ min t.strength 2 →
          Delivers input i (rung depth s (min t.strength 2)) j (t.arrays marks).Same

variable {input : Input} {i j m depth : Nat} {k head : Kind} {s : Scope} {t element : TypeExpr}
  {marks : List Mark} {least : Nat} {followed : Bool}

variable (hroom : input.tokens.size < input.allowance)

include hroom

theorem arrayOf_delivers (hi : input.Meets i head) (hhead : head.isSpace = false)
    (hbase : Delivers input i ((TypeParsers.ofDepth depth).base s) m t.Same)
    (hm : input.Shows m (faces (arrayMarks marks)) j) (hj : input.Meets j k) (hk : hold k ≤ 2) :
    Delivers input i ((TypeParsers.ofDepth depth).arrayOf s) j (t.arrays marks).Same := by
  let I (rest : List Mark) (a : Nat) (x : TypeExpr) : Prop :=
    input.Shows a (faces (arrayMarks rest)) j ∧
      ∃ done, marks = done ++ rest ∧ (t.arrays done).Same x
  refine .settled hi hhead (hbase.bind fun x hx => ?_)
  refine .foldWhile hroom (I := I) ⟨hm, [], rfl, hx⟩ (fun y rest a x h => ?_) fun a x h => ?_
  · obtain ⟨hshows, done, hmarks, hsame⟩ := h
    simp only [arrayMarks, List.flatMap_cons, faces_append, faces, Kind.ofText_marks] at hshows
    obtain ⟨hopen, hclose, hrest⟩ := hshows
    have hsize := hclose.lt_size
    refine ⟨a + 1 + 1, by omega, by omega, .accepting hopen (by simp) rfl fun _ _ _ =>
      .expecting hclose rfl fun _ _ _ => ?_⟩
    refine Delivers.bind (P := fun x' => (t.arrays (done ++ [y])).Same x') (.make fun mark => ?_)
      fun x' hx' => .pure ⟨x', rfl, hrest, done ++ [y], by simp [hmarks], hx'⟩
    rw [arrays, List.foldl_append]
    exact same_array.mpr hsame
  · obtain ⟨hshows, done, hmarks, hsame⟩ := h
    obtain rfl : a = j := hshows
    rw [List.append_nil] at hmarks
    have hne : k ∉ [Kind.lbracket] := by
      rintro hmem
      obtain rfl := List.mem_singleton.mp hmem
      cases hk
      contradiction
    exact ⟨.declining hj (Input.skips_of_solid (solid_of_hold (by omega))) hne (.pure rfl), hmarks ▸ hsame⟩

theorem within_delivers (least : Nat) (followed : Bool) (marks : List Mark) (hformed : t.Formed s) (h : t.ReadsBack input s)
    (hmarks : marks = [] ∨ least = 3) (hdepth : 2 * (input.tokens.size - i) ≤ depth)
    (hi : input.Shows i (faces (t.within least followed t.bare ++ arrayMarks marks)) j)
    (hj : input.Meets j k) (hk : hold k ≤ min least 2) :
    Delivers input i (rung depth s (min least 2)) j (t.arrays marks).Same := by
  have hspace : ∀ k ∈ allHeads, k.isSpace = false := by decide
  unfold within at hi
  split at hi
  · have hbrackets : brackets (t.bare false) ++ arrayMarks marks =
        .word "(" :: (t.bare false ++ .word ")" :: arrayMarks marks) := by simp [brackets]
    rw [hbrackets, faces, faces_append] at hi
    simp only [faces, Kind.ofText_marks] at hi
    obtain ⟨hopen, hi⟩ := hi
    obtain ⟨m, hinner, hclose, hrest⟩ := Input.shows_append.mp hi
    have hlt := hopen.lt_size
    obtain ⟨depth, rfl⟩ : ∃ d, depth = d + 2 := ⟨depth - 2, by omega⟩
    obtain ⟨head, hhead, text, hfirst⟩ := (TypeExpr.Formed.begins t hformed false).at_front hinner
    have hhead := hspace head (heads_allHeads head hhead)
    have htype := rung_mono hroom (Nat.zero_le _) (Nat.min_le_right t.strength 2) hfirst.meets hhead
      hclose.meets (Nat.le_refl 0) (h false [] depth (i + 1) m .rparen (.inl rfl) (by omega)
        (by rwa [arrayMarks, List.flatMap_nil, List.append_nil]) hclose.meets (Nat.zero_le _))
    have hbase : Delivers input i ((TypeParsers.ofDepth (depth + 2)).base s) (m + 1) t.Same := by
      refine .showing hopen rfl fun u hu _ => .here ?_
      rw [hu]
      refine .advancing hopen rfl fun _ _ _ => htype.bind fun x hx => ?_
      exact .expecting hclose rfl fun _ _ _ => .pure hx
    exact rung_mono hroom (Nat.min_le_right least 2) (Nat.le_refl 2) hopen.meets rfl hj hk
      (arrayOf_delivers hroom hopen.meets rfl hbase hrest hj (by omega))
  · rename_i hbare
    have hleast : least ≤ t.strength := by
      by_contra hlt
      exact hbare (by simp [Nat.lt_of_not_le hlt])
    obtain ⟨head, hhead, text, hfirst⟩ :=
      (TypeExpr.Formed.begins t hformed followed).append.at_front hi
    have hthree : marks = [] ∨ t.strength = 3 := by
      refine hmarks.imp id fun h3 => ?_
      subst h3
      revert hleast
      cases t <;> simp [strength]
    exact rung_mono hroom (by omega) (Nat.min_le_right t.strength 2) hfirst.meets
      (hspace head (heads_allHeads head hhead)) hj hk
      (h followed marks depth i j k hthree hdepth hi hj (by omega))

theorem type_delivers (hformed : t.Formed s) (h : t.ReadsBack input s)
    (hdepth : 2 * (input.tokens.size - i) + 2 ≤ depth) (hi : input.Shows i (faces t.pieces) j)
    (hj : input.Meets j k) (hk : hold k = 0) :
    Delivers input i ((TypeParsers.ofDepth depth).type s) j t.Same := by
  obtain ⟨depth, rfl⟩ := Nat.exists_eq_add_of_le' (Nat.le_of_add_left_le hdepth)
  exact within_delivers hroom 0 false [] hformed h (.inl rfl) (by omega)
    (by rwa [arrayMarks, List.flatMap_nil, List.append_nil]) hj (by omega)

theorem array_delivers (hformed : t.Formed s) (h : t.ReadsBack input s)
    (hdepth : 2 * (input.tokens.size - i) + 1 ≤ depth)
    (hi : input.Shows i (faces (t.within 2 followed t.bare)) j) (hj : input.Meets j k)
    (hk : hold k ≤ 2) : Delivers input i ((TypeParsers.ofDepth depth).array s) j t.Same := by
  obtain ⟨depth, rfl⟩ := Nat.exists_eq_add_of_le' (Nat.le_of_add_left_le hdepth)
  exact within_delivers hroom 2 followed [] hformed h (.inl rfl) (by omega)
    (by rwa [arrayMarks, List.flatMap_nil, List.append_nil]) hj hk

/-- What the lowest rule reads whole, up to a token that none of the rules goes on with. -/
def BaseReads (input : Input) (s : Scope) (t : TypeExpr) : Prop :=
  ∀ followed depth i j k, 2 * (input.tokens.size - i) ≤ depth →
    input.Shows i (faces (t.bare followed)) j → input.Meets j k →
      (hold k ≤ 2 ∨ t.strength = 3 ∧ k = .lbracket) →
        Delivers input i ((TypeParsers.ofDepth depth).base s) j t.Same

theorem BaseReads.readsBack (hformed : t.Formed s) (hstrength : 2 ≤ t.strength)
    (h : t.BaseReads input s) : t.ReadsBack input s := by
  intro followed marks depth i j k hmarks hdepth hi hj hk
  have hspace : ∀ k ∈ allHeads, k.isSpace = false := by decide
  rw [Nat.min_eq_right hstrength] at hk ⊢
  rw [faces_append] at hi
  obtain ⟨m, hbare, hrest⟩ := Input.shows_append.mp hi
  obtain ⟨head, hhead, text, hfirst⟩ := (TypeExpr.Formed.begins t hformed followed).at_front hbare
  have hbase : Delivers input i ((TypeParsers.ofDepth depth).base s) m t.Same := by
    cases marks with
    | nil =>
      obtain rfl : m = j := hrest
      exact h followed depth i m k hdepth hbare hj (.inl hk)
    | cons mark marks =>
      have hopen := hrest
      simp only [arrayMarks, List.flatMap_cons, faces_append, faces, Kind.ofText_marks] at hopen
      exact h followed depth i m .lbracket hdepth hbare hopen.1.meets
        (.inr ⟨hmarks.resolve_left (by simp), rfl⟩)
  exact arrayOf_delivers hroom hfirst.meets (hspace head (heads_allHeads head hhead)) hbase hrest hj
    hk

omit hroom in
theorem primitive_reads {mark : Mark} {name : String}
    (h : (TypeExpr.primitive mark name).Formed s) : (TypeExpr.primitive mark name).BaseReads input s := by
  intro _ depth i j k _ hi _ _
  obtain ⟨l, hl, rfl⟩ := primitive_kind h
  simp only [List.mem_cons, List.not_mem_nil, or_false] at hl
  rcases hl with rfl | rfl | rfl | rfl | rfl | rfl <;>
  · rw [bare, faces, Kind.ofText_spelling (by decide)] at hi
    obtain ⟨hi, rfl⟩ := hi
    refine .showing hi rfl fun u hu htext => .here ?_
    rw [hu]
    exact .advancing hi rfl fun _ _ _ => .make fun _ => htext ▸ same_primitive

theorem nominal_reads {mark : Mark} {name : Name} (h : (TypeExpr.nominal mark name).Formed s) :
    (TypeExpr.nominal mark name).BaseReads input s := by
  intro _ depth i j k _ hi hj hk
  have hsolid : k.isSpace = false := solid_of_hold (by rcases hk with hk | ⟨-, rfl⟩; omega; decide)
  have hne : k ≠ .colonColon := by
    rintro rfl
    rcases hk with hk | ⟨-, hk⟩
    · exact absurd hk (by decide)
    · cases hk
  obtain ⟨head, hhead, text, hfirst⟩ := (Name.Formed.begins h).at_front hi
  obtain rfl := List.mem_singleton.mp hhead
  refine .showing hfirst rfl fun u hu _ => .here ?_
  rw [hu]
  exact (qualifiedName_delivers hroom h hi hj hsolid hne).bind fun x hx => .make fun _ => same_nominal.mpr hx

theorem list_reads {mark : Mark} (hformed : (TypeExpr.list mark element).Formed s) (h : element.ReadsBack input s) :
    (TypeExpr.list mark element).BaseReads input s := by
  have helement : element.Formed s := hformed
  intro _ depth i j k hdepth hi _ _
  rw [bare, List.cons_append, faces, faces_append] at hi
  simp only [faces, Kind.ofText_marks] at hi
  obtain ⟨hopen, hi⟩ := hi
  obtain ⟨m, hinner, hclose, rfl⟩ := Input.shows_append.mp hi
  have hlt := hopen.lt_size
  refine .showing hopen rfl fun u hu _ => .here ?_
  rw [hu]
  refine .advancing hopen rfl fun _ _ _ => ?_
  refine (type_delivers hroom helement h (by omega) hinner hclose.meets rfl).bind fun x hx => ?_
  exact .expecting hclose rfl fun _ _ _ => .make fun _ => same_list.mpr hx

theorem negation_reads {mark : Mark} (hformed : (TypeExpr.negation mark element).Formed s) (h : element.ReadsBack input s) :
    (TypeExpr.negation mark element).BaseReads input s := by
  have helement : element.Formed s := hformed
  intro followed depth i j k hdepth hi hj hk
  rw [bare, faces] at hi
  simp only [Kind.ofText_marks] at hi
  obtain ⟨hbang, hinner⟩ := hi
  have hlt := hbang.lt_size
  refine .showing hbang rfl fun u hu _ => .here ?_
  rw [hu]
  refine .advancing hbang rfl fun _ _ _ => ?_
  refine (array_delivers hroom helement h (by omega) hinner hj ?_).bind fun x hx =>
    .make fun _ => same_negation.mpr hx
  exact hk.resolve_right fun h3 => by cases h3.1

theorem parameterTypes_delivers {ts : List TypeExpr}
    (hts : ∀ t ∈ ts, t.Formed s ∧ t.ReadsBack input s)
    (hdepth : 2 * (input.tokens.size - i) ≤ depth)
    (hi : input.Shows i (faces (brackets (commas (listPieces ts)))) j) :
    Delivers input i ((TypeParsers.ofDepth depth).parameterTypes s) j fun us =>
      List.Forall₂ Same ts us := by
  have hpieces : listPieces ts = ts.map pieces := by
    clear hts hi
    induction ts with
    | nil => rfl
    | cons t ts ih => rw [listPieces, ih]; rfl
  rw [brackets, List.cons_append, faces, faces_append, faces_commas, hpieces, List.map_map] at hi
  simp only [faces, Kind.ofText_marks] at hi
  obtain ⟨hopen, hi⟩ := hi
  obtain ⟨m, hlist, hclose, rfl⟩ := Input.shows_append.mp hi
  have hlt := hopen.lt_size
  refine .expecting hopen rfl fun _ _ _ => .listUntil hroom rfl (by decide) hlist hclose
    (fun t ht => ?_) fun t ht a b l hia _ hshows hb hl => ?_
  · have hne : ∀ k ∈ allHeads, k.isSpace = false ∧ k ≠ .rparen := by decide
    obtain ⟨k, text, fs, hfaces, hk⟩ :=
      (TypeExpr.Formed.within_begins (hts t ht).1 0 false).faces
    exact ⟨k, text, fs, hfaces, hne k (headsWithin_allHeads k hk)⟩
  · exact type_delivers hroom (hts t ht).1 (hts t ht).2 (by omega) hshows hb
      (by rcases hl with rfl | rfl <;> rfl)

theorem returnTypes_delivers {ts : List TypeExpr}
    (hts : ∀ t ∈ ts, t.Formed s ∧ t.ReadsBack input s)
    (hdepth : 2 * (input.tokens.size - i) ≤ depth)
    (hi : input.Shows i (faces (brackets (commas (listPieces ts)))) j) :
    Delivers input i ((TypeParsers.ofDepth depth).returnTypes s) j fun us =>
      List.Forall₂ Same ts us :=
  .looking (brackets_front hi) rfl (parameterTypes_delivers hroom hts hdepth hi)

omit hroom in
theorem function_shows {mark : Mark} {ps rs : List TypeExpr}
    (hi : input.Shows i (faces ((TypeExpr.function mark ps rs).bare followed)) j) :
    ∃ m, input.At i (.word .kwFunction "function") ∧
      input.Shows (i + 1) (faces (brackets (commas (listPieces ps)))) m ∧
        input.At m (.word .arrow "->") ∧
          input.Shows (m + 1) (faces (brackets (commas (listPieces rs)))) j := by
  rw [bare, List.cons_append, faces, faces_append, faces] at hi
  simp only [Kind.ofText_marks] at hi
  obtain ⟨hkeyword, hi⟩ := hi
  obtain ⟨m, hparameters, harrow, hreturns⟩ := Input.shows_append.mp hi
  exact ⟨m, hkeyword, hparameters, harrow, hreturns⟩

theorem function_reads {mark : Mark} {ps rs : List TypeExpr}
    (hps : ∀ t ∈ ps, t.Formed s ∧ t.ReadsBack input s)
    (hrs : ∀ t ∈ rs, t.Formed s ∧ t.ReadsBack input s) :
    (TypeExpr.function mark ps rs).BaseReads input s := by
  intro _ depth i j k hdepth hi _ _
  obtain ⟨m, hkeyword, hparameters, harrow, hreturns⟩ := function_shows hi
  have hlt := hkeyword.lt_size
  have hle := hparameters.le
  refine .showing hkeyword rfl fun u hu _ => .here ?_
  rw [hu]
  refine .here (.advancing hkeyword rfl fun _ _ _ => ?_)
  refine (parameterTypes_delivers hroom hps (by omega) hparameters).bind fun us hus => ?_
  refine .expecting harrow rfl fun _ _ _ => ?_
  refine (returnTypes_delivers hroom hrs (by omega) hreturns).bind fun vs hvs => ?_
  exact .make fun _ => same_function.mpr ⟨hus, hvs⟩

theorem optionalReturnTypes_delivers {ts : List TypeExpr}
    (hts : ∀ t ∈ ts, t.Formed s ∧ t.ReadsBack input s)
    (hdepth : 2 * (input.tokens.size - i) ≤ depth)
    (hi : input.Shows i (faces (if ts.isEmpty then [] else
      .word "->" :: brackets (commas (listPieces ts)))) j)
    (hj : input.Meets j k) (hk : k.isSpace = false) (hne : k ≠ .arrow) :
    Delivers input i ((TypeParsers.ofDepth depth).optionalReturnTypes s) j fun us =>
      List.Forall₂ Same ts us := by
  cases ts with
  | nil =>
    obtain rfl : i = j := hi
    exact .declining hj (Input.skips_of_solid hk) (by simpa using hne) (.pure .nil)
  | cons t ts =>
    rw [if_neg (by simp), faces] at hi
    simp only [Kind.ofText_marks] at hi
    obtain ⟨harrow, hi⟩ := hi
    exact .accepting harrow (by simp) rfl fun _ _ _ => returnTypes_delivers hroom hts (by omega) hi

omit hroom in
theorem method_shows {mark : Mark} {ps rs : List TypeExpr} {captures lifetimes : List Identifier}
    (hi : input.Shows i (faces ((TypeExpr.method mark ps rs captures lifetimes).bare followed)) j) :
    ∃ a b c, input.At i (.word .kwMethod "method") ∧
      input.Shows (i + 1) (faces (Identifier.enclosed "[" "]" captures)) a ∧
        input.Shows a (faces (Identifier.enclosed "<" ">" lifetimes)) b ∧
          input.Shows b (faces (brackets (commas (listPieces ps)))) c ∧
            input.Shows c (faces (if rs.isEmpty then [] else
              .word "->" :: brackets (commas (listPieces rs)))) j := by
  rw [bare, faces_append, faces_append, faces_append, faces] at hi
  simp only [Kind.ofText_marks] at hi
  obtain ⟨c, hi, hreturns⟩ := Input.shows_append.mp hi
  obtain ⟨b, hi, hparameters⟩ := Input.shows_append.mp hi
  obtain ⟨a, ⟨hkeyword, hcaptured⟩, hdeclared⟩ := Input.shows_append.mp hi
  exact ⟨a, b, c, hkeyword, hcaptured, hdeclared, hparameters, hreturns⟩

theorem method_reads {mark : Mark} {ps rs : List TypeExpr} {captures lifetimes : List Identifier}
    (hcaptures : ∀ l ∈ captures, l.IsLifetime) (hlifetimes : s.Declares lifetimes)
    (hps : ∀ t ∈ ps, t.Formed (s.addLifetimes lifetimes) ∧
      t.ReadsBack input (s.addLifetimes lifetimes))
    (hrs : ∀ t ∈ rs, t.Formed (s.addLifetimes lifetimes) ∧
      t.ReadsBack input (s.addLifetimes lifetimes)) :
    (TypeExpr.method mark ps rs captures lifetimes).BaseReads input s := by
  intro _ depth i j k hdepth hi hj hk
  have hsolid : k.isSpace = false := solid_of_hold (by rcases hk with hk | ⟨-, rfl⟩; omega; decide)
  have hne : k ≠ .arrow := by
    rintro rfl
    rcases hk with hk | ⟨-, hk⟩
    · exact absurd hk (by decide)
    · cases hk
  obtain ⟨a, b, c, hkeyword, hcaptured, hdeclared, hparameters, hreturns⟩ := method_shows hi
  have hopen := brackets_front hparameters
  obtain ⟨l, hmeets, hspace, hl⟩ : ∃ l, input.Meets a l ∧ l.isSpace = false ∧ l ≠ .lbracket := by
    rcases Identifier.enclosed_front hdeclared hopen with hless | hopen
    · rw [show Kind.ofText "<" = .less by simp only [Kind.ofText_marks]] at hless
      exact ⟨_, hless, rfl, by decide⟩
    · exact ⟨_, hopen, rfl, by decide⟩
  have hlt := hkeyword.lt_size
  have hia := hcaptured.le
  have hab := hdeclared.le
  have hbc := hparameters.le
  refine .showing hkeyword rfl fun u hu _ => .here ?_
  rw [hu]
  refine .here (.advancing hkeyword rfl fun _ _ _ => ?_)
  refine (optionalCaptures_delivers hroom hcaptures hcaptured hmeets hspace hl).bind fun cs hcs => ?_
  refine (optionalLifetimeParameters_delivers hroom hlifetimes hdeclared hopen).bind fun r hr => ?_
  obtain ⟨ls, inner⟩ := r
  obtain ⟨hls, rfl⟩ := hr
  refine (parameterTypes_delivers hroom hps (by omega) hparameters).bind fun us hus => ?_
  refine (optionalReturnTypes_delivers hroom hrs (by omega) hreturns hj hsolid hne).bind
    fun vs hvs => ?_
  exact .make fun _ => same_method.mpr ⟨hus, hvs, hcs, hls⟩

theorem reference_reads {mark : Mark} {lifetime : Identifier} (hlifetime : lifetime.IsLifetime)
    (hdeclared : s.isLifetime lifetime.text) (hformed : element.Formed s)
    (h : element.ReadsBack input s) :
    (TypeExpr.reference mark element (some lifetime)).BaseReads input s := by
  intro followed depth i j k hdepth hi hj hk
  have hk := hk.resolve_right fun h3 => by cases h3.1
  rw [bare, faces, Identifier.piece, faces, faces] at hi
  simp only [Kind.ofText_marks] at hi
  obtain ⟨hampersand, hname, hcolon, helement⟩ := hi
  have hlt := hampersand.lt_size
  have hspace : ∀ k ∈ allHeads, k.isSpace = false := by decide
  obtain ⟨head, hhead, text, hfirst⟩ :=
    (TypeExpr.Formed.within_begins hformed 2 followed).at_front helement
  refine .showing hampersand rfl fun u hu _ => .here ?_
  rw [hu]
  refine .here (.expecting hampersand rfl fun _ _ _ => .here ?_)
  refine (optionalLifetime_delivers hlifetime hname).bind fun o ho => ?_
  obtain ⟨x, rfl, hx⟩ := ho
  refine .accepting hcolon (by simp) rfl fun _ _ _ => ?_
  refine .inLine hfirst.meets (hspace head (headsWithin_allHeads head hhead)) ?_
  have hcheck : s.checkLifetime x = .ok () := by
    rw [Scope.checkLifetime, ← hx, if_pos hdeclared]
  refine .checked hcheck ?_
  refine (array_delivers hroom hformed h (by omega) helement hj hk).bind fun y hy => ?_
  exact .make fun _ => same_reference.mpr ⟨hy, hx⟩

omit hroom in
theorem name_goes_on {least : Nat} {followed : Bool} : (t : TypeExpr) → t.Formed s → 2 ≤ least →
    ∀ text rest, t.within least followed t.bare = .word text :: rest →
      Kind.ofText text = .identifier → rest = [] ∨ Begins [.colonColon, .lbracket] rest := by
  intro t hformed hleast text rest hpieces hname
  have hmark {mark : String} {tail : Pieces} (h : .word mark :: tail = .word text :: rest)
      (hk : Kind.ofText mark ≠ .identifier) : False := by
    obtain ⟨hword, -⟩ := List.cons.inj h
    exact hk (Piece.word.inj hword ▸ hname)
  unfold within at hpieces
  split at hpieces
  · exact (hmark hpieces (by simp only [Kind.ofText_marks]; decide)).elim
  rename_i hbare
  match t, hformed with
  | .primitive .., _ => exact .inl (List.cons.inj hpieces).2.symm
  | .nominal _ name, h =>
    obtain ⟨first, others, hcomponents⟩ := List.exists_cons_of_ne_nil h.1
    rw [bare, Name.pieces, hcomponents, List.map_cons, separated_cons] at hpieces
    obtain ⟨-, rfl⟩ := List.cons.inj hpieces
    cases others with
    | nil => exact .inl rfl
    | cons second others => exact .inr (begins_fixed (k := .colonColon) (by decide) (by decide))
  | .array _ element, h =>
    obtain ⟨word, tail, htail, -⟩ := TypeExpr.Formed.within_begins (t := element) h 3 true
    rw [bare, htail, List.cons_append] at hpieces
    obtain ⟨hword, rfl⟩ := List.cons.inj hpieces
    rcases name_goes_on element h (by decide) word tail htail (Piece.word.inj hword ▸ hname) with
      rfl | hbegins
    · exact .inr (begins_fixed (k := .lbracket) (by decide) (by decide))
    · exact .inr hbegins.append
  | .union .., _ =>
    exact (hbare (by simp [strength, Nat.lt_of_lt_of_le Nat.zero_lt_two hleast])).elim
  | .intersection .., _ =>
    exact (hbare (by simp [strength, Nat.lt_of_lt_of_le Nat.one_lt_two hleast])).elim
  | .list .., _ | .record .., _ | .negation .., _ | .reference _ _ none, _
  | .reference _ _ (some _), _ | .function .., _ | .method .., _ =>
    exact (hmark hpieces (by simp only [Kind.ofText_marks]; decide)).elim

theorem plain_reads {mark : Mark} (hformed : element.Formed s) (h : element.ReadsBack input s) :
    (TypeExpr.reference mark element none).BaseReads input s := by
  intro followed depth i j k hdepth hi hj hk
  have hk := hk.resolve_right fun h3 => by cases h3.1
  rw [bare, faces] at hi
  simp only [Kind.ofText_marks] at hi
  obtain ⟨hampersand, helement⟩ := hi
  have hlt := hampersand.lt_size
  have hplain : Delivers input (i + 1) ((TypeParsers.ofDepth depth).plainReference s i (i + 1)) j
      (TypeExpr.reference mark element none).Same := by
    refine .moved ((array_delivers hroom hformed h (by omega) helement hj hk).bind fun y hy => ?_)
    exact .make fun _ => same_plain.mpr hy
  refine .showing hampersand rfl fun u hu _ => .here ?_
  rw [hu]
  refine .here (.expecting hampersand rfl fun _ _ _ => .here ?_)
  obtain ⟨word, tail, hpieces, hhead⟩ := TypeExpr.Formed.within_begins hformed 2 followed
  have hgoes := name_goes_on element hformed (Nat.le_refl 2) word tail hpieces
  rw [hpieces, faces] at helement
  obtain ⟨hfirst, htail⟩ := helement
  by_cases hname : Kind.ofText word = .identifier
  · rw [hname] at hfirst
    obtain ⟨l, hl, hnext⟩ : ∃ l, (l.isSpace = false ∧ l ≠ .colon) ∧ input.Meets (i + 1 + 1) l := by
      rcases hgoes hname with rfl | hbegins
      · obtain rfl : i + 1 + 1 = j := htail
        refine ⟨k, ⟨solid_of_hold (by omega), ?_⟩, hj⟩
        rintro rfl
        exact absurd hk (by decide)
      · obtain ⟨l, hl, text, hnext⟩ := hbegins.at_front htail
        have hall : ∀ l ∈ [Kind.colonColon, .lbracket], l.isSpace = false ∧ l ≠ .colon := by decide
        exact ⟨l, hall l hl, hnext.meets⟩
    refine Delivers.bind (m := i + 1 + 1) (P := fun o => ∃ x, o = some x) (.accepting hfirst
      (by simp) rfl fun _ _ _ => identifierOf_delivers.bind fun x _ => .pure ⟨x, rfl⟩) fun o ho => ?_
    obtain ⟨x, rfl⟩ := ho
    refine .declining hnext (Input.skips_of_solid hl.1) (by simpa using hl.2) ?_
    exact hplain
  · have hall : ∀ l ∈ allHeads, l ≠ .identifier →
        l.isSpace = false ∧ l ∉ [Kind.identifier, .kwThis, .star] := by decide
    obtain ⟨hspace, hne⟩ := hall _ (headsWithin_allHeads _ hhead) hname
    refine Delivers.bind (m := i + 1) (P := (· = none)) (.declining hfirst.meets
      (Input.skips_of_solid hspace) hne (.pure rfl)) fun o ho => ?_
    obtain rfl := ho
    exact hplain

theorem typeThenName_delivers {text : String} (hformed : t.Formed s) (h : t.ReadsBack input s)
    (hdepth : 2 * (input.tokens.size - i) + 2 ≤ depth) (hi : input.Shows i (faces t.pieces) m)
    (hm : input.At m (.word .identifier text)) :
    Delivers input i ((TypeParsers.ofDepth depth).typeThenName s) (m + 1) fun x =>
      t.Same x.1 ∧ text = x.2.text :=
  (type_delivers hroom hformed h hdepth hi hm.meets rfl).bind fun _ hx =>
    (identifier_delivers hm).bind fun _ hy => .pure ⟨hx, hy⟩

theorem named_delivers {text : String} (hformed : t.Formed s) (h : t.ReadsBack input s)
    (hdepth : 2 * (input.tokens.size - i) + 2 ≤ depth) (hi : input.Shows i (faces t.pieces) m)
    (hm : input.At m (.word .identifier text)) :
    Delivers input i ((TypeParsers.ofDepth depth).named s) (m + 1) fun x =>
      t.Same x.1 ∧ text = x.2.text := by
  have hread := typeThenName_delivers hroom hformed h hdepth hi hm
  have hother : ∀ k ∈ Kind.ampersand :: closedHeads, k ∉ [Kind.kwFunction, .kwMethod] := by decide
  have hspace : ∀ k ∈ allHeads, k.isSpace = false := by decide
  obtain ⟨head, hhead, word, hfirst⟩ := (TypeExpr.Formed.begins t hformed false).at_front hi
  have hsolid := hspace head (heads_allHeads head hhead)
  rw [pieces_eq_bare] at hi
  refine .here ?_
  by_cases hkeyword : head ∈ [Kind.kwFunction, .kwMethod]
  · cases t with
    | function mark ps rs =>
      obtain ⟨a, hkeyword, hparameters, -⟩ := function_shows hi
      refine .accepting hkeyword (by simp) rfl fun u hu _ => ?_
      dsimp only
      rw [if_pos hu]
      refine (optionalIdentifier_declines (brackets_front hparameters) rfl (by decide)).bind
        fun o ho => ?_
      obtain rfl := ho
      exact .moved hread
    | method mark ps rs captures lifetimes =>
      obtain ⟨a, b, c, hkeyword, hcaptured, hdeclared, hparameters, -⟩ := method_shows hi
      have hopen := brackets_front hparameters
      refine .accepting hkeyword (by simp) rfl fun u hu _ => ?_
      dsimp only
      rw [if_neg (by rw [hu]; decide)]
      obtain ⟨-, hlifetimes, -⟩ := hformed
      by_cases hless : input.Meets (i + 1) .less
      · cases captures with
        | cons l ls => exact absurd (hcaptured.1.meets.unique hless) (by simp only [Kind.ofText_marks]; decide)
        | nil =>
          obtain rfl : i + 1 = a := hcaptured
          cases lifetimes with
          | nil =>
            obtain rfl : i + 1 = b := hdeclared
            exact absurd (hopen.unique hless) (by decide)
          | cons l ls =>
            rw [Identifier.enclosed, if_neg (by simp), List.cons_append, faces] at hdeclared
            simp only [Kind.ofText_marks] at hdeclared
            obtain ⟨hmark, hlist⟩ := hdeclared
            refine .accepting hmark (by simp) rfl fun _ _ _ => ?_
            refine (lifetimeParameters_delivers hroom (by simp) hlifetimes hlist).bind fun r _ => ?_
            refine (optionalIdentifier_declines hopen rfl (by decide)).bind fun o ho => ?_
            obtain rfl := ho
            exact .moved hread
      · obtain ⟨l, hl, hmeets⟩ : ∃ l ∈ [Kind.lbracket, .lparen], input.Meets (i + 1) l := by
          rcases Identifier.enclosed_front hdeclared hopen with hnext | hnext
          · rcases Identifier.enclosed_front hcaptured hnext with hmeets | hmeets
            · exact ⟨_, by simp only [Kind.ofText_marks]; decide, hmeets⟩
            · rw [show Kind.ofText "<" = .less by simp only [Kind.ofText_marks]] at hmeets
              exact absurd hmeets hless
          · rcases Identifier.enclosed_front hcaptured hnext with hmeets | hmeets
            · exact ⟨_, by simp only [Kind.ofText_marks]; decide, hmeets⟩
            · exact ⟨_, by decide, hmeets⟩
        have hall : ∀ l ∈ [Kind.lbracket, .lparen],
          l.isSpace = false ∧ l ∉ [Kind.less] ∧ l ≠ .identifier := by decide
        obtain ⟨hspace, hne, hname⟩ := hall l hl
        refine .declining hmeets (Input.skips_of_solid hspace) hne ?_
        refine (optionalIdentifier_declines hmeets hspace hname).bind fun o ho => ?_
        obtain rfl := ho
        exact .moved hread
    | reference =>
      obtain rfl := List.mem_singleton.mp hhead
      exact absurd hkeyword (by decide)
    | union => exact absurd hkeyword (hother head hhead)
    | intersection => exact absurd hkeyword (hother head hhead)
    | _ => exact absurd hkeyword (hother head (List.mem_cons_of_mem _ hhead))
  · exact .declining hfirst.meets (Input.skips_of_solid hsolid) hkeyword hread

theorem field_delivers {f : Field} (hformed : f.type.Formed s) (hname : f.name.IsWord)
    (h : f.type.ReadsBack input s) (hdepth : 2 * (input.tokens.size - i) + 2 ≤ depth)
    (hi : input.Shows i (faces (f.type.pieces ++ [.blank, f.name.piece])) j) :
    Delivers input i ((TypeParsers.ofDepth depth).field s) j f.Same := by
  have hspace : ∀ k ∈ allHeads, k.isSpace = false := by decide
  have hname' : faces [.blank, f.name.piece] = [.word .identifier f.name.text] :=
    congrArg (fun f => [f]) hname.face_eq
  rw [faces_append, hname'] at hi
  obtain ⟨m, htype, hm, rfl⟩ := Input.shows_append.mp hi
  obtain ⟨head, hhead, text, hfirst⟩ :=
    (TypeExpr.Formed.within_begins hformed 0 false).at_front htype
  refine .settled hfirst.meets (hspace head (headsWithin_allHeads head hhead)) ?_
  exact (named_delivers hroom hformed h hdepth htype hm).bind fun x hx => .make fun _ => hx

omit hroom in
theorem fieldPieces_eq (fs : List Field) :
    fieldPieces fs = fs.map fun f => f.type.pieces ++ [.blank, f.name.piece] := by
  induction fs with
  | nil => rfl
  | cons f fs ih =>
    obtain ⟨m, type, name⟩ := f
    rw [fieldPieces, ih]
    rfl

theorem record_reads {mark : Mark} {isOpen : Bool} {fs : List Field}
    (hformed : (TypeExpr.record mark isOpen fs).Formed s)
    (hfs : ∀ f ∈ fs, f.type.ReadsBack input s) :
    (TypeExpr.record mark isOpen fs).BaseReads input s := by
  intro _ depth i j k hdepth hi _ _
  obtain ⟨hne, hnodup, hfields⟩ := hformed
  rw [Field.allFormed_iff] at hfields
  let w (f : Field) : List Face := faces (f.type.pieces ++ [.blank, f.name.piece])
  let tail : List (List Face) := if isOpen then [[.word .dotDotDot "..."]] else []
  have hparts : (fieldPieces fs ++ if isOpen then [[Piece.word "..."]] else []).map faces =
      fs.map w ++ tail := by
    rw [fieldPieces_eq, List.map_append, List.map_map]
    cases isOpen with
    | false => rfl
    | true => simp [tail, faces, Kind.ofText_marks, w]
  rw [bare, List.cons_append, faces, faces_append, faces_commas, hparts] at hi
  simp only [faces, Kind.ofText_marks] at hi
  obtain ⟨hopen, hi⟩ := hi
  obtain ⟨m, hlist, hclose, rfl⟩ := Input.shows_append.mp hi
  obtain ⟨first, rest, rfl⟩ := List.exists_cons_of_ne_nil hne
  obtain ⟨a, hfirst, hrest⟩ := Input.shows_append.mp hlist
  have hlt := hopen.lt_size
  have hm := hclose.lt_size
  have hfield (f : Field) (hf : f ∈ first :: rest) {a b : Nat} (hia : i < a)
      (hshows : input.Shows a (w f) b) :
      Delivers input a ((TypeParsers.ofDepth depth).field s) b f.Same :=
    field_delivers hroom (hfields f hf).1 (hfields f hf).2 (hfs f hf) (by omega) hshows
  let I (later : List Field) (b : Nat) (found : List Field) : Prop :=
    i < b ∧ input.Shows b (Input.listing (.word .comma ",") true (later.map w ++ tail)) m ∧
      ∃ done, first :: rest = done ++ later ∧ List.Forall₂ Field.Same done found.reverse
  refine .showing hopen rfl fun u hu _ => .here ?_
  rw [hu]
  refine .here (.expecting hopen rfl fun _ _ _ => ?_)
  refine (hfield first List.mem_cons_self (by omega) hfirst).bind fun x hx => ?_
  have hia := hfirst.le
  refine Delivers.bind (m := m + 1) (P := fun r => r.1 = isOpen ∧ List.Forall₂ Field.Same
    (first :: rest) r.2.reverse) (.repeating hroom (I := I)
      ⟨by omega, hrest, [first], rfl, .cons hx .nil⟩ (fun y later b found h => ?_)
      fun b found h => ?_) fun r hr => ?_
  · obtain ⟨hib, ⟨hcomma, hshows⟩, done, hall, hdone⟩ := h
    obtain ⟨c, hy, hlater⟩ := Input.shows_append.mp hshows
    have hmem : y ∈ first :: rest := by simp [hall]
    have hbc := hy.le
    have hcm := hlater.le
    refine ⟨c, by omega, by omega, .decliningNext hcomma.meets rfl (by decide) ?_⟩
    refine .expecting hcomma rfl fun _ _ _ => ?_
    have hdots : ∀ k ∈ allHeads, k.isSpace = false ∧ k ∉ [Kind.dotDotDot] := by decide
    obtain ⟨head, hhead, text, hfront⟩ :=
      ((TypeExpr.Formed.within_begins (hfields y hmem).1 0 false).append).at_front hy
    obtain ⟨hspace, hne⟩ := hdots head (headsWithin_allHeads head hhead)
    refine .declining hfront.meets (Input.skips_of_solid hspace) hne ?_
    refine (hfield y hmem (by omega) hy).bind fun z hz => ?_
    have hnew : z.name.text ∉ found.map (·.name.text) := by
      rw [← List.mem_reverse, ← List.map_reverse, ← Field.names_of_same hdone, ← hz.2]
      rw [hall, List.map_append, List.map_cons, List.nodup_append] at hnodup
      exact fun hold => hnodup.2.2 _ hold _ List.mem_cons_self rfl
    rw [if_neg hnew]
    refine .pure ⟨_, rfl, by omega, hlater, done ++ [y], by simp [hall], ?_⟩
    rw [List.reverse_cons]
    exact List.rel_append hdone (.cons hz .nil)
  · obtain ⟨-, hshows, done, hall, hdone⟩ := h
    rw [List.append_nil] at hall
    cases isOpen with
    | false =>
      obtain rfl : b = m := hshows
      exact .acceptingNext hclose rfl fun _ _ _ => .pure ⟨_, rfl, rfl, hall ▸ hdone⟩
    | true =>
      obtain ⟨hcomma, hdots, rfl⟩ := hshows
      refine .decliningNext hcomma.meets rfl (by decide) (.expecting hcomma rfl fun _ _ _ => ?_)
      refine .accepting hdots (by simp) rfl fun _ _ _ => .expecting hclose rfl fun _ _ _ => ?_
      exact .pure ⟨_, rfl, rfl, hall ▸ hdone⟩
  · obtain ⟨o, found⟩ := r
    obtain ⟨rfl, hfound⟩ := hr
    exact .make fun _ => same_record hfound

def operands (followed : Bool) : List TypeExpr → List (TypeExpr × Bool)
  | [] => []
  | t :: ts => (t, followed || !ts.isEmpty) :: operands followed ts

omit hroom in
theorem operands_fst (followed : Bool) (ts : List TypeExpr) :
    (operands followed ts).map Prod.fst = ts := by
  induction ts with
  | nil => rfl
  | cons t ts ih => rw [operands, List.map_cons, ih]

omit hroom in
theorem faces_operands {text : String} (ts : List TypeExpr) :
    faces (operandPieces [.blank, .word text, .blank] least followed ts) =
      Input.listing (.word (Kind.ofText text) text) false
        ((operands followed ts).map fun p => faces (p.1.within least p.2 p.1.bare)) := by
  have hrest : ∀ t ts, faces (operandPieces [.blank, .word text, .blank] least followed (t :: ts)) =
      faces (t.within least (followed || !ts.isEmpty) t.bare) ++
        Input.listing (.word (Kind.ofText text) text) true
          ((operands followed ts).map fun p => faces (p.1.within least p.2 p.1.bare)) := by
    intro t ts
    induction ts generalizing t with
    | nil => simp [operandPieces, operands, Input.listing]
    | cons u ts ih =>
      rw [operandPieces, faces_append, if_neg (by simp), faces_append, ih]
      rfl
  cases ts with
  | nil => rfl
  | cons t ts => exact hrest t ts

theorem operands_deliver (least : Nat) {text : String} {separator : Kind} {level : Scope → Parser TypeExpr}
    {build : Mark → List TypeExpr → TypeExpr} {ts : List TypeExpr}
    (hlevel : level s = rung depth s least) (hleast : least ≤ 2) (htext : Kind.ofText text = separator)
    (hseparator : hold separator = least) (hlength : 2 ≤ ts.length)
    (hts : ∀ t ∈ ts, t.Formed s ∧ t.ReadsBack input s)
    (hdepth : 2 * (input.tokens.size - i) ≤ depth)
    (hi : input.Shows i (faces (operandPieces [.blank, .word text, .blank] least followed ts)) j)
    (hj : input.Meets j k) (hk : hold k < least) :
    Delivers input i (TypeParsers.separated level separator build s) j fun t =>
      ∃ mark us, t = build mark us ∧ List.Forall₂ Same ts us := by
  rw [faces_operands, htext] at hi
  match ts, hlength with
  | t :: u :: ts, _ =>
    have hspace : ∀ k ∈ allHeads, k.isSpace = false := by decide
    refine (separated_operands hroom (R := fun p => p.1.Same) (solid_of_hold (by omega)) hi hj
      (solid_of_hold (by omega)) (by rintro rfl; omega) fun p hp a b l hia hshows hb hl => ?_).imp
        fun x hx => ?_
    · have hmem : p.1 ∈ t :: u :: ts := by
        rw [← operands_fst followed (t :: u :: ts)]
        exact List.mem_map_of_mem hp
      obtain ⟨hformed, hreads⟩ := hts p.1 hmem
      obtain ⟨head, hhead, word, hfirst⟩ :=
        (TypeExpr.Formed.within_begins hformed least p.2).at_front hshows
      refine ⟨⟨head, hfirst.meets, hspace head (headsWithin_allHeads head hhead)⟩, ?_⟩
      have hread : Delivers input a (rung depth s (min least 2)) b p.1.Same :=
        within_delivers hroom least p.2 [] hformed hreads (.inl rfl) (by omega)
          (by rwa [arrayMarks, List.flatMap_nil, List.append_nil]) hb
          (by rcases hl with rfl | rfl <;> omega)
      rwa [Nat.min_eq_left hleast, ← hlevel] at hread
    · obtain ⟨mark, us, rfl, hus⟩ := hx
      refine ⟨mark, us, rfl, ?_⟩
      rw [← operands_fst followed (t :: u :: ts), List.forall₂_map_left_iff]
      exact hus

theorem union_readsBack {mark : Mark} {ts : List TypeExpr} (hlength : 2 ≤ ts.length)
    (hts : ∀ t ∈ ts, t.Formed s ∧ t.ReadsBack input s) :
    (TypeExpr.union mark ts).ReadsBack input s := by
  intro followed marks depth i j k hmarks hdepth hi hj hk
  obtain rfl := hmarks.resolve_right fun h => by cases h
  rw [arrayMarks, List.flatMap_nil, List.append_nil] at hi
  refine (operands_deliver hroom 1 rfl (by decide) (by simp only [Kind.ofText_marks]) rfl
    hlength hts hdepth hi hj (Nat.lt_succ_of_le hk)).imp fun x hx => ?_
  obtain ⟨_, us, rfl, hus⟩ := hx
  exact same_union.mpr hus

theorem intersection_readsBack {mark : Mark} {ts : List TypeExpr} (hlength : 2 ≤ ts.length)
    (hts : ∀ t ∈ ts, t.Formed s ∧ t.ReadsBack input s) :
    (TypeExpr.intersection mark ts).ReadsBack input s := by
  intro followed marks depth i j k hmarks hdepth hi hj hk
  obtain rfl := hmarks.resolve_right fun h => by cases h
  rw [arrayMarks, List.flatMap_nil, List.append_nil] at hi
  refine (operands_deliver hroom 2 rfl (by decide) (by simp only [Kind.ofText_marks]) rfl
    hlength hts hdepth hi hj (Nat.lt_succ_of_le hk)).imp fun x hx => ?_
  obtain ⟨_, us, rfl, hus⟩ := hx
  exact same_intersection.mpr hus

theorem array_readsBack {mark : Mark} (hformed : element.Formed s)
    (h : element.ReadsBack input s) : (TypeExpr.array mark element).ReadsBack input s := by
  intro followed marks depth i j k _ hdepth hi hj hk
  rw [bare, List.append_assoc] at hi
  exact within_delivers hroom 3 true (mark :: marks) hformed h (.inr rfl) hdepth hi hj hk

end TypeExpr

mutual

/-- Every type of a program is read back from what is printed for it. -/
theorem TypeExpr.Formed.readsBack {input : Input} (hroom : input.tokens.size < input.allowance)
    {s : Scope} : (t : TypeExpr) → t.Formed s → t.ReadsBack input s
  | .primitive .., h => (TypeExpr.primitive_reads h).readsBack hroom h (Nat.le_succ 2)
  | .nominal .., h => (TypeExpr.nominal_reads hroom h).readsBack hroom h (Nat.le_succ 2)
  | .array _ element, h => TypeExpr.array_readsBack hroom h (TypeExpr.Formed.readsBack hroom element h)
  | .list _ element, h =>
    (TypeExpr.list_reads hroom h (TypeExpr.Formed.readsBack hroom element h)).readsBack hroom h
      (Nat.le_succ 2)
  | .record _ _ fields, h =>
    (TypeExpr.record_reads hroom h (Field.AllFormed.readsBack hroom fields h.2.2)).readsBack hroom h
      (Nat.le_succ 2)
  | .negation _ element, h =>
    (TypeExpr.negation_reads hroom h (TypeExpr.Formed.readsBack hroom element h)).readsBack hroom h
      (Nat.le_refl 2)
  | .reference _ element none, h =>
    (TypeExpr.plain_reads hroom h.2 (TypeExpr.Formed.readsBack hroom element h.2)).readsBack hroom h
      (Nat.le_refl 2)
  | .reference _ element (some l), h =>
    (TypeExpr.reference_reads hroom (h.1 l rfl).1 (h.1 l rfl).2 h.2
      (TypeExpr.Formed.readsBack hroom element h.2)).readsBack hroom h (Nat.le_refl 2)
  | .union _ operands, h =>
    TypeExpr.union_readsBack hroom h.1 (TypeExpr.AllFormed.readsBack hroom operands h.2)
  | .intersection _ operands, h =>
    TypeExpr.intersection_readsBack hroom h.1 (TypeExpr.AllFormed.readsBack hroom operands h.2)
  | .function _ parameters returns, h =>
    (TypeExpr.function_reads hroom (TypeExpr.AllFormed.readsBack hroom parameters h.1)
      (TypeExpr.AllFormed.readsBack hroom returns h.2)).readsBack hroom h (Nat.le_refl 2)
  | .method _ parameters returns _ _, h =>
    (TypeExpr.method_reads hroom h.1 h.2.1 (TypeExpr.AllFormed.readsBack hroom parameters h.2.2.1)
      (TypeExpr.AllFormed.readsBack hroom returns h.2.2.2)).readsBack hroom h (Nat.le_refl 2)

theorem TypeExpr.AllFormed.readsBack {input : Input}
    (hroom : input.tokens.size < input.allowance) {s : Scope} : (ts : List TypeExpr) →
    TypeExpr.AllFormed s ts → ∀ t ∈ ts, t.Formed s ∧ t.ReadsBack input s
  | [], _ => nofun
  | t :: ts, h => List.forall_mem_cons.mpr
      ⟨⟨h.1, TypeExpr.Formed.readsBack hroom t h.1⟩, TypeExpr.AllFormed.readsBack hroom ts h.2⟩

theorem Field.AllFormed.readsBack {input : Input} (hroom : input.tokens.size < input.allowance)
    {s : Scope} : (fs : List Field) → Field.AllFormed s fs →
    ∀ f ∈ fs, f.type.ReadsBack input s
  | [], _ => nofun
  | .mk _ type _ :: fs, h => List.forall_mem_cons.mpr
      ⟨TypeExpr.Formed.readsBack hroom type h.1, Field.AllFormed.readsBack hroom fs h.2.2⟩

end

end Whiley
