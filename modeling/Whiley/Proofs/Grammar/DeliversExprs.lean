import Mathlib.Tactic.IntervalCases
import Whiley.Proofs.Grammar.Literals
import Whiley.Proofs.Grammar.Tries

namespace Whiley

open Whiley.Parser Whiley.Grammar Piece

def Kind.grip : Kind → Nat
  | .rparen | .rbracket | .comma | .newline => 0
  | .implies | .iff => 1
  | .logicalAnd | .logicalOr => 2
  | .caret => 4
  | .ampersand => 5
  | .lessEqual | .less | .greaterEqual | .greater | .equal | .notEqual | .subset | .subsetEqual
  | .superset | .supersetEqual => 6
  | .shiftLeft | .shiftRight => 7
  | .plus | .minus => 8
  | .star | .slash | .percent => 9
  | .dot => 10
  | _ => 11

namespace Grammar

def Level.ofStrength : Nat → Level
  | 0 => .logical
  | 1 => .logical
  | 2 => .connective
  | 3 => .bitOr
  | 4 => .bitXor
  | 5 => .bitAnd
  | 6 => .condition
  | 7 => .shift
  | 8 => .additive
  | 9 => .multiplicative
  | 10 => .access
  | _ => .term

namespace ExprParsers

def operators : Nat → List Kind
  | 1 => [.implies, .iff]
  | 2 => [.logicalAnd, .logicalOr]
  | 3 => [.bar]
  | 4 => [.caret]
  | 5 => [.ampersand]
  | 6 => relations
  | 7 => [.shiftLeft, .shiftRight]
  | 8 => [.plus, .minus]
  | 9 => [.star, .slash, .percent]
  | _ => []

theorem grip_of_operator {n : Nat} {k : Kind} (hk : k ∈ operators n) : n ≤ k.grip := by
  have hall : ∀ n < 10, ∀ k ∈ operators n, n ≤ k.grip := by decide
  by_cases hn : n < 10
  · exact hall n hn k hk
  · rw [operators.eq_def] at hk
    split at hk <;> first | omega | cases hk

theorem operators_of_infixes {k : Kind} (hk : k ∈ Kind.infixes) :
    k ∈ operators (operatorStrength k.spelling) ∧ k.grip = operatorStrength k.spelling ∧
      1 ≤ operatorStrength k.spelling ∧ operatorStrength k.spelling ≤ 9 := by
  have hall : ∀ k ∈ Kind.infixes, k ∈ operators (operatorStrength k.spelling) ∧
      k.grip = operatorStrength k.spelling ∧ 1 ≤ operatorStrength k.spelling ∧
        operatorStrength k.spelling ≤ 9 := by decide +kernel
  exact hall k hk

section Levels

variable {types : TypeParsers} {depth n : Nat} {s : Scope} {lines : Bool}

theorem level_right (hn : 1 ≤ n) (hn' : n ≤ 5) :
    (ofDepth types (depth + 1)).level (.ofStrength n) s lines =
      (ofDepth types depth).rightGrouped (.ofStrength (n + 1)) (.ofStrength n) (operators n) s lines := by
  interval_cases n <;> rfl

def goingOn (g : ExprParsers) (n : Nat) (s : Scope) (lines : Bool) (start : Nat) (left : Expr) :
    Parser (Option Expr) :=
  if n = 10 then g.accessStep s lines start left
  else do
    match ← accept lines (operators n) with
    | none => return none
    | some op =>
      let right ← g.level (.ofStrength (n + 1)) s lines
      return some (← make start (.binary · left op.text right))

theorem level_left (hn : 7 ≤ n) (hn' : n ≤ 10) :
    (ofDepth types (depth + 1)).level (.ofStrength n) s lines = (do
      let start ← settle
      let first ← (ofDepth types depth).level (.ofStrength (n + 1)) s lines
      foldWhile ((ofDepth types depth).goingOn n s lines start) first) := by
  interval_cases n <;> rfl

end Levels

section Climbing

variable {input : Input} {types : TypeParsers} {depth n i m start : Nat} {s : Scope} {lines : Bool}
  {head k : Kind} {left : Expr} {P : Expr → Prop}

theorem goingOn_declines {g : ExprParsers} (hline : input.Awaits false m k)
    (hstops : input.Awaits lines m k) (hk : k.grip < n) :
    Delivers input m (g.goingOn n s lines start left) m (· = none) := by
  unfold goingOn
  split
  · rename_i hten
    subst hten
    have hall : k ∉ [Kind.lbracket] ∧ k ∉ [Kind.dot, .arrow, .colonColon] := by
      revert hk
      cases k <;> decide
    exact .passing hline hall.1 (.passing hstops hall.2 (.pure rfl))
  · refine .passing hstops (fun hmem => ?_) (.pure rfl)
    exact absurd (grip_of_operator hmem) (Nat.not_le_of_lt hk)

theorem level_climbs (hroom : input.tokens.size < input.allowance) (hi : input.Meets i head)
    (hhead : head.isSpace = false) (hquantifier : head ∉ [Kind.kwSome, .kwAll])
    (hline : input.Awaits false m k) (hstops : input.Awaits lines m k) (hk : k.grip < n)
    (hn : 1 ≤ n) (hn' : n ≤ 10)
    (h : Delivers input i ((ofDepth types (depth + 1)).level (.ofStrength (n + 1)) s lines) m P) :
    Delivers input i ((ofDepth types (depth + 2)).level (.ofStrength n) s lines) m P := by
  have hdeclines : k ∉ operators n := fun hmem =>
    absurd (grip_of_operator hmem) (Nat.not_le_of_lt hk)
  by_cases hloop : 7 ≤ n
  · rw [level_left hloop hn']
    refine .settled hi hhead (h.bind fun x hx => ?_)
    exact (Delivers.foldNone hroom (goingOn_declines hline hstops hk)).imp fun y hy => hy ▸ hx
  · by_cases hcondition : n = 6
    · subst hcondition
      refine .settled hi hhead (.declining hi (Input.skips_of_solid hhead) hquantifier ?_)
      exact h.bind fun x hx => .passing hstops hdeclines (.pure hx)
    · rw [level_right hn (by omega)]
      refine .settled hi hhead (h.bind fun x hx => ?_)
      exact .passing hstops hdeclines (.pure hx)

theorem expression_of_term (hroom : input.tokens.size < input.allowance) (hi : input.Meets i head)
    (hhead : head.isSpace = false) (hquantifier : head ∉ [Kind.kwSome, .kwAll])
    (hline : input.Awaits false m k) (hstops : input.Awaits lines m k) (hk : k.grip = 0)
    (h : Delivers input i ((ofDepth types depth).term s lines) m P) :
    Delivers input i ((ofDepth types (depth + 11)).expression s lines) m P := by
  -- one level of depth for each level of the grammar
  have hlevel : ∀ n ≤ 10, Delivers input i
      ((ofDepth types (depth + n + 1)).level (.ofStrength (11 - n)) s lines) m P := by
    intro n hn
    induction n with
    | zero => exact h
    | succ n ih =>
      have hread := ih (by omega)
      rw [show 11 - n = 11 - (n + 1) + 1 by omega] at hread
      exact level_climbs hroom hi hhead hquantifier hline hstops (by omega) (by omega) (by omega) hread
  exact hlevel 10 (Nat.le_refl 10)

end Climbing

end ExprParsers

end Grammar

open ExprParsers (operators grip_of_operator operators_of_infixes level_right level_left)

/--
Tokens that are read in a scope with variables of the given names: wherever a bracket opens among
them, no type is forced.
-/
structure Passage where
  input : Input
  types : TypeParsers
  scope : Scope
  names : List String
  first : Nat
  last : Nat
  room : input.tokens.size < input.allowance
  spelled : ∀ text ∈ names, Kind.identifier.Spelled text.toList
  known : ∀ text, scope.isVariable text = decide (text ∈ names)
  noAliases : scope.aliases = []
  noLifetimes : ∀ text, Kind.ofText text = .identifier → scope.isLifetime text = false
  unforced : ∀ i, first ≤ i → i < last → input.Meets i .lparen →
    Delivers input (i + 1) (forcedType types scope) (i + 1) (· = none)

namespace Passage

variable {r : Passage} {lines : Bool} {i j m n : Nat} {k : Kind} {e : Expr} {ps qs : Pieces}

abbrev grammar (r : Passage) (depth : Nat) : ExprParsers :=
  .ofDepth r.types depth

def Heads (r : Passage) (i : Nat) : Prop :=
  ∃ text, Kind.ofText text ∈ Kind.operandHeads ∧ r.input.At i (.word (Kind.ofText text) text)

/-- After an expression comes a token that ends it or an operator, and what is compared is an operand. -/
structure Ends (r : Passage) (lines : Bool) (m : Nat) (k : Kind) : Prop where
  meets : r.input.Meets m k
  stops : Input.skips lines k = false
  grip : k.grip ≤ 10
  compared : k = .less → r.Heads (m + 1)

/-- A text stands on the tokens from `i` to before `m`, and a token of the kind comes after it. -/
structure Stands (r : Passage) (lines : Bool) (ps : Pieces) (i m : Nat) (k : Kind) : Prop where
  first : r.first ≤ i
  shows : r.input.Shows i (faces ps) m
  last : m ≤ r.last
  ends : r.Ends lines m k

/--
The level for expressions that bind as tight as `n` reads the expression; where it groups to the left,
what the level goes on to read after the expression it reads after it here.
-/
def Reads (r : Passage) (lines : Bool) (n i m : Nat) (k : Kind) (e : Expr) : Prop :=
  ∀ depth, 12 * (r.input.tokens.size - i) + (11 - n) ≤ depth →
    (k.grip < n →
      Delivers r.input i ((r.grammar (depth + 1)).level (.ofStrength n) r.scope lines) m e.Same) ∧
    (7 ≤ n → n ≤ 10 → k.grip ≤ n → ∀ j Q,
      (∀ start, Folds r.input ((r.grammar depth).goingOn n r.scope lines start) m e.Same j Q) →
        Delivers r.input i ((r.grammar (depth + 1)).level (.ofStrength n) r.scope lines) j Q)

theorem Ends.skips (h : r.Ends lines m k) {lines' : Bool} (hlines : lines' = lines ∨ lines' = false) :
    Input.skips lines' k = false := by
  rcases hlines with rfl | rfl
  · exact h.stops
  · cases lines with
    | false => exact h.stops
    | true =>
      have hspace : k.isSpace = false := h.stops
      exact Input.skips_of_solid hspace

theorem Ends.awaits (h : r.Ends lines m k) {lines' : Bool} (hlines : lines' = lines ∨ lines' = false) :
    r.input.Awaits lines' m k :=
  h.meets.awaits (h.skips hlines)

theorem Ends.goingOn (h : r.Ends lines m k) (hk : k.grip < n) {depth start : Nat} {left : Expr} :
    Delivers r.input m ((r.grammar depth).goingOn n r.scope lines start left) m (· = none) :=
  ExprParsers.goingOn_declines (h.awaits (.inr rfl)) (h.awaits (.inl rfl)) hk

theorem Reads.of_loop (hends : r.Ends lines m k)
    (h : ∀ depth, 12 * (r.input.tokens.size - i) + (11 - n) ≤ depth → k.grip ≤ n → ∀ j Q,
      (∀ start, Folds r.input ((r.grammar depth).goingOn n r.scope lines start) m e.Same j Q) →
        Delivers r.input i ((r.grammar (depth + 1)).level (.ofStrength n) r.scope lines) j Q) :
    r.Reads lines n i m k e :=
  fun depth hdepth => ⟨fun hk => h depth hdepth (Nat.le_of_lt hk) m e.Same fun _ =>
    .last fun _ _ => hends.goingOn hk, fun _ _ => h depth hdepth⟩

theorem Reads.climb (hhead : r.Heads i) (hends : r.Ends lines m k) (hn : 1 ≤ n) (hn' : n ≤ 10)
    (h : r.Reads lines (n + 1) i m k e) : r.Reads lines n i m k e := by
  obtain ⟨text, hmem, hat⟩ := hhead
  have hheads : ∀ k ∈ Kind.operandHeads, k.isSpace = false ∧ k ∉ [Kind.kwSome, .kwAll] := by decide
  obtain ⟨hsolid, hquantifier⟩ := hheads _ hmem
  by_cases hloop : 7 ≤ n
  · refine .of_loop hends fun depth hdepth hk j Q hQ => ?_
    obtain ⟨depth, rfl⟩ := Nat.exists_eq_add_of_le' (by omega : 1 ≤ depth)
    rw [level_left hloop hn']
    refine .settled hat.meets hsolid ?_
    exact ((h depth (by omega)).1 (by omega)).bind fun _ hx => (hQ i).delivers r.room hx
  · intro depth hdepth
    refine ⟨fun hk => ?_, fun h7 => absurd h7 hloop⟩
    obtain ⟨depth, rfl⟩ := Nat.exists_eq_add_of_le' (by omega : 1 ≤ depth)
    exact ExprParsers.level_climbs r.room hat.meets hsolid hquantifier (hends.awaits (.inr rfl))
      (hends.awaits (.inl rfl)) hk hn hn' ((h depth (by omega)).1 (by omega))

theorem Reads.climb_to {l : Nat} (hhead : r.Heads i) (hends : r.Ends lines m k) (hl : 1 ≤ l)
    (hln : l ≤ n) (hn : n ≤ 11) (h : r.Reads lines n i m k e) : r.Reads lines l i m k e := by
  induction n, hln using Nat.le_induction with
  | base => exact h
  | succ n hln ih => exact ih (by omega) (.climb hhead hends (by omega) (by omega) h)

theorem Reads.expression {depth : Nat} (h : r.Reads lines 1 i m k e) (hk : k.grip = 0)
    (hdepth : 12 * (r.input.tokens.size - i) + 11 ≤ depth) :
    Delivers r.input i ((r.grammar depth).expression r.scope lines) m e.Same := by
  obtain ⟨depth, rfl⟩ := Nat.exists_eq_add_of_le' (by omega : 1 ≤ depth)
  exact (h depth (by omega)).1 (by omega)

theorem Ends.termFollows (h : r.Ends lines m k) :
    Delivers r.input m ExprParsers.termFollows m (· = false) := by
  have hskip := h.meets.skip_eq (h.skips (.inr rfl))
  have hstarts : k.startsTerm = false := by
    have hgrip := h.grip
    revert hgrip
    cases k <;> decide
  obtain ⟨t, ht, rfl⟩ := h.meets
  refine .given (.here (.pure ?_))
  rw [hskip, ht]
  exact hstarts

theorem Reads.of_term (h : ∀ depth, 12 * (r.input.tokens.size - i) ≤ depth →
    Delivers r.input i ((r.grammar depth).term r.scope lines) m e.Same) :
    r.Reads lines 11 i m k e :=
  fun depth hdepth => ⟨fun _ => h depth hdepth, fun _ hn => absurd hn (by decide)⟩

theorem Reads.brackets (hfirst : r.first ≤ i) (hlast : m < r.last)
    (hopen : r.input.At i (.word .lparen "(")) (h : r.Reads true 1 (i + 1) m .rparen e)
    (him : i ≤ m) (hclose : r.input.At m (.word .rparen ")")) (hends : r.Ends lines (m + 1) k) :
    r.Reads lines 11 i (m + 1) k e := by
  refine .of_term fun depth hdepth => ?_
  have hsize := hopen.lt_size
  refine .showing hopen rfl fun t ht _ => .here ?_
  rw [ht]
  refine .here (.expecting hopen rfl fun _ _ _ => ?_)
  refine (r.unforced i hfirst (by omega) hopen.meets).bind fun o ho => ?_
  obtain rfl := ho
  refine .moved (.expecting hopen rfl fun _ _ _ => ?_)
  refine (h.expression rfl (by omega)).bind fun x hx => .expecting hclose rfl fun _ _ _ => ?_
  refine hends.termFollows.bind fun b hb => ?_
  rw [hb, Bool.and_false]
  exact .pure hx

theorem Ends.closing (h : r.input.Meets m k) (hk : k ∈ [Kind.rparen, .rbracket, .comma]) :
    r.Ends true m k := by
  have hall : ∀ k ∈ [Kind.rparen, .rbracket, .comma],
      Input.skips true k = false ∧ k.grip ≤ 10 ∧ k ≠ .less := by decide
  obtain ⟨hstops, hgrip, hless⟩ := hall k hk
  exact ⟨h, hstops, hgrip, fun hk => absurd hk hless⟩

theorem Heads.of_shows (hps : Fluent ps) (h : r.input.Shows i (faces ps) m) : r.Heads i := by
  obtain ⟨text, rest, rfl, hk⟩ := hps.begins
  exact ⟨text, hk, h.1⟩

namespace Stands

theorem heads (h : r.Stands lines ps i m k) (hps : Fluent ps) : r.Heads i :=
  .of_shows hps h.shows

theorem brackets (h : r.Stands lines (brackets ps) i m k) :
    ∃ a, r.input.At i (.word .lparen "(") ∧ r.Stands true ps (i + 1) a .rparen ∧
      r.input.At a (.word .rparen ")") ∧ m = a + 1 := by
  have hshows := h.shows
  rw [Piece.brackets, List.cons_append, faces, faces_append] at hshows
  simp only [faces, Kind.ofText_marks] at hshows
  obtain ⟨hopen, hshows⟩ := hshows
  obtain ⟨a, hps, hclose, rfl⟩ := Input.shows_append.mp hshows
  have hfirst := h.first
  have hlast := h.last
  exact ⟨a, hopen, ⟨by omega, hps, by omega, .closing hclose.meets (by decide)⟩, hclose, rfl⟩

theorem name {text : String} (h : r.Stands lines [.word text] i m k)
    (htext : Kind.identifier.Spelled text.toList) :
    r.input.At i (.word .identifier text) ∧ m = i + 1 := by
  have hshows := h.shows
  rw [faces, faces, Kind.ofText_identifier htext] at hshows
  exact ⟨hshows.1, hshows.2.symm⟩

theorem prefixed {l : Kind} (hl : l ∈ [Kind.bang, .minus, .tilde])
    (h : r.Stands lines (.word l.spelling :: ps) i m k) :
    r.input.At i (.word l l.spelling) ∧ r.Stands lines ps (i + 1) m k := by
  have hfixed : ∀ k ∈ [Kind.bang, .minus, .tilde], k ∈ Kind.keywords ++ Kind.symbols := by decide
  have hshows := h.shows
  rw [faces, Kind.ofText_spelling (hfixed l hl)] at hshows
  obtain ⟨hat, hps⟩ := hshows
  have hfirst := h.first
  exact ⟨hat, by omega, hps, h.last, h.ends⟩

theorem joined {l : Kind} (hl : l ∈ Kind.infixes) (hqs : Fluent qs)
    (h : r.Stands lines (ps ++ .blank :: .word l.spelling :: .blank :: qs) i m k) :
    ∃ a, r.Stands lines ps i a l ∧ r.input.At a (.word l l.spelling) ∧
      r.Stands lines qs (a + 1) m k := by
  have hall : ∀ l ∈ Kind.infixes, l ∈ Kind.keywords ++ Kind.symbols ∧ l.isSpace = false ∧
      l.grip ≤ 10 := by decide
  obtain ⟨hfixed, hsolid, hgrip⟩ := hall l hl
  have hright : faces (.blank :: .word l.spelling :: .blank :: qs) =
      .word l l.spelling :: faces qs := by
    simp only [faces, Kind.ofText_spelling hfixed]
  have hshows := h.shows
  rw [faces_append, hright] at hshows
  obtain ⟨a, hps, hat, hrest⟩ := Input.shows_append.mp hshows
  have hfirst := h.first
  have hlast := h.last
  have hia := hps.le
  have ham := hrest.le
  exact ⟨a, ⟨hfirst, hps, by omega, hat.meets, Input.skips_of_solid hsolid, hgrip,
    fun _ => .of_shows hqs hrest⟩, hat, by omega, hrest, hlast, h.ends⟩

theorem field {text : String} (h : r.Stands lines (ps ++ [.word ".", .word text]) i m k)
    (htext : Kind.identifier.Spelled text.toList) :
    ∃ a, r.Stands lines ps i a .dot ∧ r.input.At a (.word .dot ".") ∧
      r.input.At (a + 1) (.word .identifier text) ∧ m = a + 1 + 1 := by
  have hshows := h.shows
  rw [faces_append] at hshows
  simp only [faces, Kind.ofText_marks, Kind.ofText_identifier htext] at hshows
  obtain ⟨a, hps, hdot, hfield, rfl⟩ := Input.shows_append.mp hshows
  have hlast := h.last
  have hless : Kind.dot ≠ .less := by decide
  exact ⟨a, ⟨h.first, hps, by omega, hdot.meets, Input.skips_of_solid rfl, by decide,
    fun h => absurd h hless⟩, hdot, hfield, rfl⟩

theorem reads_brackets (h : r.Stands lines (Piece.brackets ps) i m k) (hps : Fluent ps) (hn : 1 ≤ n)
    (hn' : n ≤ 11)
    (hinner : ∀ a, r.Stands true ps (i + 1) a .rparen → r.Reads true 1 (i + 1) a .rparen e) :
    r.Reads lines n i m k e := by
  obtain ⟨a, hopen, hstands, hclose, rfl⟩ := h.brackets
  have hle := hstands.shows.le
  exact .climb_to (h.heads hps.brackets) h.ends hn hn' (Nat.le_refl 11)
    (.brackets h.first h.last hopen (hinner a hstands) (by omega) hclose h.ends)

end Stands

end Passage

/-- The grammar reads the expression where it stands without brackets. -/
def Expr.ReadsBack (r : Passage) (e : Expr) : Prop :=
  ∀ lines follow ps i m k, e.WrittenBare follow ps → r.Stands lines ps i m k →
    k.grip ≤ follow.getD 0 → (∀ n, e.reach? = some n → k.grip < n) →
      r.Reads lines e.strength i m k e

theorem Expr.Plain.strength_bounds {names : List String} {e : Expr} (h : e.Plain names) :
    1 ≤ e.strength ∧ e.strength ≤ 11 := by
  cases e with
  | binary _ left op right =>
    obtain ⟨⟨k, hk, rfl⟩, -⟩ := h
    obtain ⟨-, -, hlow, hhigh⟩ := operators_of_infixes hk
    exact ⟨hlow, Nat.le_trans hhigh (by decide)⟩
  | _ => simp [Expr.strength, Strength.condition, Strength.access, Strength.term]

theorem Expr.reach_pos {e : Expr} {n : Nat} (h : e.reach? = some n) : 1 ≤ n := by
  unfold Expr.reach? at h
  split at h <;> cases h <;> decide

section Within

variable {r : Passage} {lines : Bool} {i j m n least : Nat} {k : Kind} {e : Expr} {ps qs : Pieces}
  {follow : Option Nat}

theorem Expr.reach_of_swallows (h : e.swallows follow = false) (hk : k.grip ≤ follow.getD 0) :
    ∀ n, e.reach? = some n → k.grip < n := by
  intro n hn
  have hpos := Expr.reach_pos hn
  cases follow with
  | none => exact Nat.lt_of_le_of_lt hk hpos
  | some f =>
    unfold Expr.swallows at h
    rw [hn] at h
    exact Nat.lt_of_le_of_lt hk (Nat.lt_of_not_le (of_decide_eq_false h))

theorem Expr.ReadsBack.within (he : e.Plain r.names) (h : e.ReadsBack r)
    (hps : e.WrittenWithin least follow e.WrittenBare ps) (hn : 1 ≤ n) (hleast : n ≤ max least 1)
    (hn' : n ≤ 11) (hi : r.Stands lines ps i m k) (hk : k.grip ≤ follow.getD 0) :
    r.Reads lines n i m k e := by
  have hfluent : ∀ follow ps, e.WrittenBare follow ps → Fluent ps :=
    Expr.Plain.fluent_bare r.spelled e he
  obtain ⟨hlow, hhigh⟩ := he.strength_bounds
  unfold Expr.WrittenWithin at hps
  induction hps generalizing lines i m k n with
  | more hps ih =>
    exact hi.reads_brackets (he.fluent r.spelled hps) hn hn' fun a ha =>
      ih (Nat.le_refl 1) (Nat.le_max_right least 1) (by decide) ha (Nat.zero_le _)
  | bare hps =>
    rcases hps with ⟨hbare, hps⟩ | ⟨qs, hqs, rfl⟩
    · obtain ⟨hstrength, hswallows⟩ := Bool.or_eq_false_iff.mp hbare
      have hstrength := of_decide_eq_false hstrength
      exact .climb_to (hi.heads (hfluent _ _ hps)) hi.ends hn (by omega) hhigh
        (h lines follow _ i m k hps hi hk (Expr.reach_of_swallows hswallows hk))
    · refine hi.reads_brackets (hfluent _ _ hqs) hn hn' fun a ha => ?_
      exact .climb_to (ha.heads (hfluent _ _ hqs)) ha.ends (Nat.le_refl 1) hlow hhigh
        (h true none qs (i + 1) a .rparen hqs ha (Nat.le_refl 0) fun _ => Expr.reach_pos)

theorem Passage.Ends.noLifetimes (h : r.Ends lines m .less) :
    Delivers r.input m (optionalLifetimeArguments r.scope lines) m (· = none) := by
  obtain ⟨text, hmem, hat⟩ := h.compared rfl
  have hheads : ∀ k ∈ Kind.operandHeads, k.isSpace = false ∧
      (k ≠ .identifier → k ∉ [Kind.identifier, .kwThis, .star]) := by decide
  obtain ⟨hsolid, hother⟩ := hheads _ hmem
  obtain ⟨word, hless⟩ := h.meets.at (by decide) (by decide)
  refine .here (.expecting hless rfl fun _ _ _ => .here ?_)
  by_cases hname : Kind.ofText text = .identifier
  · rw [hname] at hat
    refine .accepting hat (by simp) rfl fun t ht htext => ?_
    have hlifetime : r.scope.isLifetime t.text = false := htext ▸ r.noLifetimes text hname
    rw [if_neg (by simp [ht, hlifetime])]
    exact .moved (.pure rfl)
  · exact .declining hat.meets (Input.skips_of_solid hsolid) (hother hname) (.moved (.pure rfl))

theorem Passage.Ends.name_delivers {text : String} {depth : Nat} {Q : Expr → Prop}
    (hat : r.input.At i (.word .identifier text)) (h : r.Ends lines (i + 1) k)
    (hplain : ∀ start x, text = x.text →
      Delivers r.input (i + 1) (ExprParsers.plainName r.scope start x) (i + 1) Q) :
    Delivers r.input i ((r.grammar depth).name r.scope lines) (i + 1) Q := by
  have hgrip := h.grip
  have hothers : k ∉ [Kind.lparen] ∧ k ≠ .colon ∧ k ≠ .lbrace := by
    revert hgrip
    cases k <;> decide
  obtain ⟨hparen, hcolon, hbrace⟩ := hothers
  refine .here ((identifier_delivers hat).bind fun x hx => ?_)
  refine .declining h.meets h.stops hparen (.overlooking h.meets h.stops hcolon ?_)
  refine .looking h.meets h.stops ?_
  by_cases hless : k = .less
  · subst hless
    refine h.noLifetimes.bind fun o ho => ?_
    obtain rfl := ho
    exact hplain i x hx
  · rw [decide_eq_false hless]
    exact .overlooking h.meets h.stops hbrace (hplain i x hx)

theorem Expr.intLit_readsBack {mark : Mark} {value : Nat} (h : value < 10 ^ Text.digitLimit) :
    (Expr.intLit mark value).ReadsBack r := by
  rintro lines follow ps i m k rfl hi _ _
  have hshows := hi.shows
  rw [faces, faces, Kind.ofText_intLit (Lexer.isNumeral_toString value)] at hshows
  obtain ⟨hat, rfl⟩ := hshows
  refine .of_term fun depth _ => .showing hat rfl fun t ht htext => .here ?_
  rw [ht]
  refine .advancing hat rfl fun _ _ _ => .valued (Token.integerValue_toString htext h) ?_
  exact .make fun _ => same_intLit

theorem Expr.variableAccess_readsBack {mark : Mark} {name : Identifier} {declaration : Option Nat}
    (h : name.text ∈ r.names) : (Expr.variableAccess mark name declaration).ReadsBack r := by
  rintro lines follow ps i m k rfl hi _ _
  have hends := hi.ends
  obtain ⟨hat, rfl⟩ := hi.name (r.spelled _ h)
  refine .of_term fun depth _ => .showing hat rfl fun t ht _ => .here ?_
  rw [ht]
  refine hends.name_delivers hat fun start x hx => ?_
  have hvariable : r.scope.isVariable x.text := by
    rw [r.known, ← hx]
    exact decide_eq_true h
  obtain ⟨v, hv⟩ := Option.isSome_iff_exists.mp hvariable
  rw [ExprParsers.plainName, hv]
  exact .make fun _ => same_variableAccess.mpr hx

theorem Passage.unbound {text : String} (h : text ∉ r.names) : r.scope.lookup text = none := by
  have hunknown : (r.scope.lookup text).isSome = false := (r.known text).trans (decide_eq_false h)
  exact Option.not_isSome_iff_eq_none.mp (by simp [hunknown])

theorem Expr.staticAccess_readsBack {mark : Mark} {name : Name} (h : name.IsOther r.names) :
    (Expr.staticAccess mark name).ReadsBack r := by
  obtain ⟨m, components⟩ := name
  obtain ⟨c, rfl, hword, hother⟩ := h
  rintro lines follow ps i m k rfl hi _ _
  have hends := hi.ends
  obtain ⟨hat, rfl⟩ : r.input.At i (.word .identifier c.text) ∧ m = i + 1 := hi.name hword
  refine .of_term fun depth _ => .showing hat rfl fun t ht _ => .here ?_
  rw [ht]
  refine hends.name_delivers hat fun start x hx => ?_
  have halias : r.scope.isAlias x.text = false := by simp [Scope.isAlias, r.noAliases]
  rw [ExprParsers.plainName, r.unbound (hx ▸ hother)]
  dsimp only
  rw [halias]
  refine Delivers.bind (P := fun n => n.components = [x]) (.allocate fun _ => rfl) fun n hn => ?_
  refine .make fun _ => same_staticAccess.mpr ?_
  rw [Name.Same, hn]
  exact .cons hx .nil

theorem Expr.unary_readsBack {mark : Mark} {op : UnaryOp} {operand : Expr}
    (hplain : operand.Plain r.names) (h : operand.ReadsBack r) :
    (Expr.unary mark op operand).ReadsBack r := by
  rintro lines follow _ i m k ⟨ps, hps, rfl⟩ hi hk hreach
  refine .of_term fun depth hdepth => ?_
  have hread (l : Kind) (hl : l ∈ [Kind.bang, .minus, .tilde]) (hop : op.spelling = l.spelling)
      (n : Nat) (hn : 1 ≤ n) (hleast : n ≤ max op.least 1) (hn' : n ≤ 10) (hkn : k.grip < n) :
      r.input.At i (.word l l.spelling) ∧ Delivers r.input (i + 1)
        ((r.grammar depth).level (.ofStrength n) r.scope lines) m operand.Same := by
    rw [hop] at hi
    obtain ⟨hat, hoperand⟩ := hi.prefixed hl
    have hsize := hat.lt_size
    obtain ⟨depth, rfl⟩ := Nat.exists_eq_add_of_le' (by omega : 1 ≤ depth)
    exact ⟨hat, (h.within hplain hps hn hleast (by omega) hoperand hk depth (by omega)).1 hkn⟩
  cases op with
  | not =>
    obtain ⟨hat, hoperand⟩ := hread .bang (by decide) rfl 6 (by decide) (by decide) (by decide)
      (hreach 6 rfl)
    refine .showing hat rfl fun t ht _ => .here ?_
    rw [ht]
    exact .advancing hat rfl fun _ _ _ => hoperand.bind fun x hx => .make fun _ => same_unary hx
  | negate =>
    obtain ⟨hat, hoperand⟩ := hread .minus (by decide) rfl 10 (by decide) (by decide) (by decide)
      (hreach 10 rfl)
    refine .showing hat rfl fun t ht _ => .here ?_
    rw [ht]
    exact .advancing hat rfl fun _ _ _ => hoperand.bind fun x hx => .make fun _ => same_unary hx
  | complement =>
    obtain ⟨hat, hoperand⟩ := hread .tilde (by decide) rfl 1 (by decide) (by decide) (by decide)
      (hreach 1 rfl)
    refine .showing hat rfl fun t ht _ => .here ?_
    rw [ht]
    exact .advancing hat rfl fun _ _ _ => hoperand.bind fun x hx => .make fun _ => same_unary hx

theorem Passage.Ends.field_delivers {mark : Mark} {source x : Expr} {field : Identifier}
    {depth start : Nat} (hat : r.input.At i (.word .identifier field.text))
    (h : r.Ends lines (i + 1) k) (hx : source.Same x) :
    Delivers r.input i ((r.grammar depth).fieldAccess r.scope lines start x) (i + 1)
      (Expr.recordAccess mark source field).Same := by
  have hgrip := h.grip
  have hparen : k ∉ [Kind.lparen] := by
    revert hgrip
    cases k <;> decide
  refine (identifier_delivers hat).bind fun y hy => ?_
  refine Delivers.bind (P := (Expr.recordAccess mark source field).Same)
    (.make fun _ => Expr.same_recordAccess.mpr ⟨hx, hy⟩) fun z hz => ?_
  refine .declining h.meets h.stops hparen (.looking h.meets h.stops ?_)
  by_cases hless : k = .less
  · subst hless
    refine h.noLifetimes.bind fun o ho => ?_
    obtain rfl := ho
    exact .pure hz
  · rw [decide_eq_false hless]
    exact .pure hz

theorem Expr.recordAccess_readsBack {mark : Mark} {source : Expr} {field : Identifier}
    (hfield : field.IsWord) (hplain : source.Plain r.names) (h : source.ReadsBack r) :
    (Expr.recordAccess mark source field).ReadsBack r := by
  rintro lines follow _ i m k ⟨ps, hps, rfl⟩ hi hk _
  obtain ⟨a, hsource, hdot, hat, rfl⟩ := hi.field hfield
  have hread : r.Reads lines 10 i a .dot source :=
    h.within hplain hps (by decide) (by decide) (by decide) hsource (Nat.le_refl 10)
  have hsize := hat.lt_size
  refine .of_loop hi.ends fun depth hdepth _ j Q hQ => ?_
  refine (hread depth hdepth).2 (by decide) (by decide) (Nat.le_refl 10) j Q fun start => ?_
  refine .round (by omega) (by omega) (fun x hx => ?_) (hQ start)
  refine .declining hdot.meets rfl (by decide) (.accepting hdot (by decide) rfl fun t ht _ => ?_)
  dsimp only
  rw [if_neg (by rw [ht]; decide), if_neg (by rw [ht]; decide)]
  exact (hi.ends.field_delivers hat hx).bind fun y hy => .pure ⟨y, rfl, hy⟩

section Operators

variable {a : Nat} {l : Kind} {op : String} {mark : Mark} {left right : Expr}

theorem Passage.Reads.rightGrouped (hn : 1 ≤ n) (hn' : n ≤ 5) (hl : l ∈ operators n)
    (hgrip : l.grip ≤ n) (hsolid : l.isSpace = false) (hi : r.Heads i)
    (hleft : r.Reads lines (n + 1) i a l left) (hia : i ≤ a) (hat : r.input.At a (.word l op))
    (hright : r.Reads lines n (a + 1) m k right) :
    r.Reads lines n i m k (.binary mark left op right) := by
  intro depth hdepth
  refine ⟨fun hk => ?_, fun h7 => absurd h7 (by omega)⟩
  have hsize := hat.lt_size
  obtain ⟨text, hhead, hfirst⟩ := hi
  have hheads : ∀ k ∈ Kind.operandHeads, k.isSpace = false := by decide
  obtain ⟨depth, rfl⟩ := Nat.exists_eq_add_of_le' (by omega : 1 ≤ depth)
  rw [level_right hn hn']
  refine .settled hfirst.meets (hheads _ hhead) ?_
  refine ((hleft depth (by omega)).1 (by omega)).bind fun x hx => ?_
  refine .accepting hat hl hsolid fun t _ htext => ?_
  refine ((hright depth (by omega)).1 hk).bind fun y hy => ?_
  rw [htext]
  exact .make fun _ => Expr.same_binary hx hy

theorem Passage.Reads.relation (hl : l ∈ operators 6) (hgrip : l.grip ≤ 6) (hsolid : l.isSpace = false)
    (hi : r.Heads i) (hleft : r.Reads lines 7 i a l left) (hia : i ≤ a)
    (hat : r.input.At a (.word l op)) (hright : r.Reads lines 7 (a + 1) m k right) :
    r.Reads lines 6 i m k (.binary mark left op right) := by
  intro depth hdepth
  refine ⟨fun hk => ?_, fun h7 => absurd h7 (by omega)⟩
  have hsize := hat.lt_size
  obtain ⟨text, hhead, hfirst⟩ := hi
  have hheads : ∀ k ∈ Kind.operandHeads, k.isSpace = false ∧ k ∉ [Kind.kwSome, .kwAll] := by decide
  obtain ⟨hhead, hquantifier⟩ := hheads _ hhead
  obtain ⟨depth, rfl⟩ := Nat.exists_eq_add_of_le' (by omega : 1 ≤ depth)
  refine .settled hfirst.meets hhead ?_
  refine .declining hfirst.meets (Input.skips_of_solid hhead) hquantifier ?_
  refine ((hleft depth (by omega)).1 (by omega)).bind fun x hx => ?_
  refine .accepting hat hl hsolid fun t ht htext => ?_
  have htest : t.kind ≠ .kwIs := by
    rintro his
    rw [← ht, his] at hgrip
    exact absurd hgrip (by decide)
  dsimp only
  rw [if_neg htest]
  refine ((hright depth (by omega)).1 (by omega)).bind fun y hy => ?_
  rw [htext]
  exact .make fun _ => Expr.same_binary hx hy

theorem Passage.Reads.leftGrouped (hn : 7 ≤ n) (hn' : n ≤ 9) (hl : l ∈ operators n)
    (hgrip : l.grip ≤ n) (hsolid : l.isSpace = false) (hends : r.Ends lines m k)
    (hleft : r.Reads lines n i a l left) (hia : i ≤ a) (hat : r.input.At a (.word l op)) (ham : a < m)
    (hm : m ≤ r.input.tokens.size) (hright : r.Reads lines (n + 1) (a + 1) m k right) :
    r.Reads lines n i m k (.binary mark left op right) := by
  have hsize := hat.lt_size
  refine .of_loop hends fun depth hdepth hk j Q hQ => ?_
  refine (hleft depth hdepth).2 hn (by omega) hgrip j Q fun start => ?_
  refine .round ham hm (fun x hx => ?_) (hQ start)
  obtain ⟨depth, rfl⟩ := Nat.exists_eq_add_of_le' (by omega : 1 ≤ depth)
  unfold ExprParsers.goingOn
  rw [if_neg (by omega)]
  refine .accepting hat hl hsolid fun t _ htext => ?_
  refine ((hright depth (by omega)).1 (by omega)).bind fun y hy => ?_
  rw [htext]
  refine Delivers.bind (P := (Expr.binary mark left op right).Same)
    (.make fun _ => Expr.same_binary hx hy) fun z hz => .pure ⟨z, rfl, hz⟩

end Operators

theorem Expr.binary_readsBack {mark : Mark} {left right : Expr} {op : String}
    (hop : ∃ l ∈ Kind.infixes, op = l.spelling) (hplain : left.Plain r.names)
    (hplain' : right.Plain r.names) (h : left.ReadsBack r) (h' : right.ReadsBack r) :
    (Expr.binary mark left op right).ReadsBack r := by
  rintro lines follow _ i m k ⟨ls, rs, hls, hrs, rfl⟩ hi hk _
  have hfluent := hplain.fluent r.spelled hls
  have hfluent' := hplain'.fluent r.spelled hrs
  have hsolids : ∀ l ∈ Kind.infixes, l.isSpace = false := by decide
  rw [operatorPiece_eq hop] at hi
  obtain ⟨l, hl, rfl⟩ := hop
  obtain ⟨a, hleft, hat, hright⟩ := hi.joined hl hfluent'
  obtain ⟨hmem, hgrip, hlow, hhigh⟩ := operators_of_infixes hl
  have hsolid := hsolids l hl
  have hheads := hleft.heads hfluent
  have hia := hleft.shows.le
  have ham := hright.shows.le
  change r.Reads lines (operatorStrength l.spelling) i m k _
  generalize operatorStrength l.spelling = n at *
  have hread (least : Nat) (hleast : 1 ≤ least) (hls : left.WrittenWithin least (some n) left.WrittenBare ls)
      (hlimit : least ≤ 11) : r.Reads lines least i a l left :=
    h.within hplain hls hleast (Nat.le_max_left _ _) hlimit hleft (Nat.le_of_eq hgrip)
  have hread' (least : Nat) (hleast : 1 ≤ least) (hrs : right.WrittenWithin least follow right.WrittenBare rs)
      (hlimit : least ≤ 11) : r.Reads lines least (a + 1) m k right :=
    h'.within hplain' hrs hleast (Nat.le_max_left _ _) hlimit hright hk
  rcases Nat.lt_trichotomy n 6 with hn | rfl | hn
  · have hoperands : Strength.operands n = (n + 1, n) := if_pos hn
    rw [hoperands] at hls hrs
    exact .rightGrouped hlow (by omega) hmem (Nat.le_of_eq hgrip) hsolid hheads
      (hread (n + 1) (by omega) hls (by omega)) hia hat (hread' n hlow hrs (by omega))
  · exact .relation hmem (Nat.le_of_eq hgrip) hsolid hheads (hread 7 (by decide) hls (by decide)) hia hat
      (hread' 7 (by decide) hrs (by decide))
  · have hoperands : Strength.operands n = (n, n + 1) := by
      rw [Strength.operands, if_neg (by simp only [Strength.condition]; omega),
        if_neg (by simp only [Strength.condition]; omega)]
    rw [hoperands] at hls hrs
    have hsize := hright.shows.le_size hat.lt_size
    exact .leftGrouped hn hhigh hmem (Nat.le_of_eq hgrip) hsolid hi.ends
      (hread n hlow hls (by omega)) hia hat ham hsize (hread' (n + 1) (by omega) hrs (by omega))

theorem Expr.ReadsBack.element {depth : Nat} (he : e.Plain r.names) (h : e.ReadsBack r)
    (hps : e.Written ps) (hfirst : r.first ≤ i) (hi : r.input.Shows i (faces ps) m)
    (hlast : m ≤ r.last) (hm : r.input.Meets m k) (hk : k ∈ [Kind.rparen, .rbracket, .comma])
    (hdepth : 12 * (r.input.tokens.size - i) + 11 ≤ depth) :
    Delivers r.input i ((r.grammar depth).expression r.scope true) m e.Same := by
  have hgrips : ∀ k ∈ [Kind.rparen, .rbracket, .comma], k.grip = 0 := by decide
  have hgrip := hgrips k hk
  have hread : r.Reads true 1 i m k e := h.within he hps (Nat.le_refl 1) (Nat.le_refl 1) (by decide)
    ⟨hfirst, hi, hlast, .closing hm hk⟩ (by simp [hgrip])
  exact hread.expression hgrip hdepth

section Lists

variable {es : List Expr} {pss : List Pieces} {depth : Nat}
  (hes : ∀ e ∈ es, e.Plain r.names ∧ e.ReadsBack r)

include hes

theorem Expr.AllWritten.element (close : Kind) (hpss : Expr.AllWritten es pss)
    (hclose : close ∈ [Kind.rparen, .rbracket]) (hfirst : r.first ≤ i) (hlast : j ≤ r.last)
    (hdepth : 12 * (r.input.tokens.size - i) + 11 ≤ depth) :
    ∀ y ∈ es.zip pss, ∀ a b k, i ≤ a → b ≤ j → r.input.Shows a (faces y.2) b →
      r.input.Meets b k → k = .comma ∨ k = close →
        Delivers r.input a ((r.grammar depth).expression r.scope true) b y.1.Same := by
  rintro ⟨e, ps⟩ hmem a b k hia hbj hshows hb hk
  obtain ⟨he, hread⟩ := hes e (List.of_mem_zip hmem).1
  have hps : e.Written ps := List.forall₂_zip (Expr.allWritten_iff.mp hpss) hmem
  refine hread.element he hps (by omega) hshows (by omega) hb ?_ (by omega)
  simp only [List.mem_cons, List.not_mem_nil, or_false] at hclose ⊢
  rcases hk with rfl | rfl
  · exact .inr (.inr rfl)
  · exact hclose.imp id .inl

theorem Expr.AllWritten.heads (close : Kind) (hpss : Expr.AllWritten es pss)
    (hclose : close ∈ [Kind.rparen, .rbracket]) :
    ∀ y ∈ es.zip pss, ∃ k text fs, faces y.2 = .word k text :: fs ∧ k.isSpace = false ∧ k ≠ close := by
  rintro ⟨e, ps⟩ hmem
  have hheads : ∀ close ∈ [Kind.rparen, .rbracket], ∀ k ∈ Kind.operandHeads,
      k.isSpace = false ∧ k ≠ close := by decide
  have hps : e.Written ps := List.forall₂_zip (Expr.allWritten_iff.mp hpss) hmem
  obtain ⟨k, text, fs, hfaces, hk⟩ := ((hes e (List.of_mem_zip hmem).1).1.fluent r.spelled hps).begins.faces
  exact ⟨k, text, fs, hfaces, hheads close hclose k hk⟩

omit hes in
theorem Expr.AllWritten.zip (hpss : Expr.AllWritten es pss) :
    (es.zip pss).map Prod.fst = es ∧ (es.zip pss).map Prod.snd = pss := by
  have hlength := (Expr.allWritten_iff.mp hpss).length_eq
  exact ⟨List.map_fst_zip (Nat.le_of_eq hlength), List.map_snd_zip (Nat.le_of_eq hlength.symm)⟩

theorem Expr.arguments_deliver (hpss : Expr.AllWritten es pss) (hfirst : r.first ≤ i)
    (hlast : j ≤ r.last) (hi : r.input.Shows i (faces (commas pss)) j)
    (hj : r.input.At j (.word .rparen ")"))
    (hdepth : 12 * (r.input.tokens.size - i) + 11 ≤ depth) :
    Delivers r.input i ((r.grammar depth).arguments r.scope) (j + 1) fun xs =>
      List.Forall₂ Expr.Same es xs := by
  obtain ⟨hfst, hsnd⟩ := hpss.zip
  rw [faces_commas, ← hsnd, List.map_map] at hi
  have hread : Delivers r.input i ((r.grammar depth).arguments r.scope) (j + 1) fun xs =>
      List.Forall₂ (fun y x => Expr.Same y.1 x) (es.zip pss) xs :=
    .listUntil r.room rfl (by decide) hi hj (hpss.heads hes .rparen (by decide))
      (hpss.element hes .rparen (by decide) hfirst hlast hdepth)
  refine hread.imp fun xs hxs => ?_
  rw [← hfst, List.forall₂_map_left_iff]
  exact hxs

theorem Expr.invoke_readsBack {mark : Mark} {name : Name} (hname : name.IsOther r.names) :
    (Expr.invoke mark name none es).ReadsBack r := by
  obtain ⟨nameMark, components⟩ := name
  obtain ⟨c, rfl, hword, hother⟩ := hname
  rintro lines follow _ i m k ⟨pss, hpss, rfl⟩ hi _ _
  have hshows : r.input.Shows i (faces (.word c.text :: brackets (commas pss))) m := hi.shows
  rw [faces, Kind.ofText_identifier hword, brackets, List.cons_append, faces, faces_append] at hshows
  simp only [faces, Kind.ofText_marks] at hshows
  obtain ⟨hname, hopen, hshows⟩ := hshows
  obtain ⟨j, hlist, hclose, rfl⟩ := Input.shows_append.mp hshows
  have hfirst := hi.first
  have hlast := hi.last
  have hsize := hname.lt_size
  refine .of_term fun depth hdepth => .showing hname rfl fun t ht _ => .here ?_
  rw [ht]
  refine .here ((identifier_delivers hname).bind fun x hx => ?_)
  refine .accepting hopen (by simp) rfl fun _ _ _ => ?_
  have harguments := Expr.arguments_deliver hes hpss (by omega) (by omega) hlist hclose
    (by omega : _ ≤ depth)
  refine harguments.bind fun xs hxs => ?_
  rw [r.unbound (hx ▸ hother)]
  refine Delivers.bind (P := fun n => n.components = [x]) (.allocate fun _ => rfl) fun n hn => ?_
  refine .make fun _ => same_invoke ?_ hxs
  rw [Name.Same, hn]
  exact .cons hx .nil

theorem Expr.arrayInitialiser_readsBack {mark : Mark} :
    (Expr.arrayInitialiser mark es).ReadsBack r := by
  rintro lines follow _ i m k ⟨pss, hpss, rfl⟩ hi _ _
  have hshows := hi.shows
  have hfirst := hi.first
  have hlast := hi.last
  rw [List.cons_append, faces, faces_append] at hshows
  simp only [faces, Kind.ofText_marks] at hshows
  obtain ⟨hopen, hshows⟩ := hshows
  obtain ⟨j, hlist, hclose, rfl⟩ := Input.shows_append.mp hshows
  have hsize := hopen.lt_size
  refine .of_term fun depth hdepth => .showing hopen rfl fun t ht _ => .here ?_
  rw [ht]
  refine .here (.expecting hopen rfl fun _ _ _ => ?_)
  cases es with
  | nil =>
    obtain rfl : pss = [] := hpss
    obtain rfl : i + 1 = j := hlist
    exact .acceptingNext hclose rfl fun _ _ _ => .make fun _ => same_arrayInitialiser.mpr .nil
  | cons e es =>
    obtain ⟨hfst, -⟩ := hpss.zip
    have hitem := hpss.element hes .rbracket (by decide) (by omega : r.first ≤ i + 1)
      (by omega : j ≤ r.last) (by omega : _ ≤ depth)
    have hheads := hpss.heads hes .rbracket (by decide)
    obtain ⟨ps, pss, hps, hrest, rfl⟩ := hpss
    rw [List.zip_cons_cons] at hitem hheads hfst
    rw [faces_commas, List.map_cons] at hlist
    obtain ⟨a, hfirst, hothers⟩ := Input.shows_append.mp hlist
    obtain ⟨l, ha, hl⟩ := hothers.follower hclose.meets
    have hia := hfirst.le
    have haj := hothers.le
    have hread := hitem (e, ps) List.mem_cons_self (i + 1) a l (Nat.le_refl _) haj hfirst ha hl
    obtain ⟨k, text, fs, hfaces, hsolid, hk⟩ := hheads (e, ps) List.mem_cons_self
    have hfront : r.input.Meets (i + 1) k := by
      rw [hfaces] at hfirst
      exact hfirst.1.meets
    have hsemicolon : Input.skips true l = false ∧ l ∉ [Kind.semicolon] := by
      rcases hl with rfl | rfl <;> decide
    refine .decliningNext hfront hsolid hk (hread.bind fun _ _ => ?_)
    refine .declining ha hsemicolon.1 hsemicolon.2 (.moved (.expecting hopen rfl fun _ _ _ => ?_))
    refine hread.bind fun x hx => ?_
    have hdone : List.Forall₂ (fun y x => Expr.Same y.1 x) [(e, ps)] [x].reverse := .cons hx .nil
    have hrest' := Expr.AllWritten.zip hrest
    rw [← hrest'.2, List.map_map] at hothers
    have hmore := Delivers.collecting r.room rfl (by decide) hothers hclose hdone
      (fun y hy => hheads y (List.mem_cons_of_mem _ hy))
      fun y hy b c l hab => hitem y (List.mem_cons_of_mem _ hy) b c l (by omega)
    refine hmore.bind fun found hfound => .make fun _ => same_arrayInitialiser.mpr ?_
    rw [← hfst, List.forall₂_map_left_iff]
    exact hfound

end Lists

end Within

mutual

theorem Expr.Plain.readsBack {r : Passage} : (e : Expr) → e.Plain r.names → e.ReadsBack r
  | .intLit .., h => Expr.intLit_readsBack h
  | .variableAccess .., h => Expr.variableAccess_readsBack h
  | .staticAccess .., h => Expr.staticAccess_readsBack h
  | .recordAccess _ source _, ⟨hfield, h⟩ =>
    Expr.recordAccess_readsBack hfield h (Expr.Plain.readsBack source h)
  | .arrayInitialiser _ elements, h =>
    Expr.arrayInitialiser_readsBack (Expr.AllPlain.readsBack elements h)
  | .binary _ left _ right, ⟨hop, hleft, hright⟩ =>
    Expr.binary_readsBack hop hleft hright (Expr.Plain.readsBack left hleft)
      (Expr.Plain.readsBack right hright)
  | .unary _ _ operand, h => Expr.unary_readsBack h (Expr.Plain.readsBack operand h)
  | .invoke _ _ _ arguments, ⟨hname, rfl, h⟩ =>
    Expr.invoke_readsBack (Expr.AllPlain.readsBack arguments h) hname

theorem Expr.AllPlain.readsBack {r : Passage} : (es : List Expr) → Expr.AllPlain r.names es →
    ∀ e ∈ es, e.Plain r.names ∧ e.ReadsBack r
  | [], _ => nofun
  | e :: es, ⟨he, hes⟩ => List.forall_mem_cons.mpr
      ⟨⟨he, Expr.Plain.readsBack e he⟩, Expr.AllPlain.readsBack es hes⟩

end

end Whiley
