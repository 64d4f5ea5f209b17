import Whiley.Grammar.Exprs
import Whiley.Proofs.Layout.Written

/-!
After an opening bracket a type is tried, for it may be that of a cast. Where operands and operators
take turns a type may be found, but none that could not be an expression too, and the try is given up.
-/

namespace Whiley

open Whiley.Parser Whiley.Grammar

namespace Parser

variable {α β σ : Type} {input : Input} {i m : Nat} {k : Kind}

/-- Started at `i`, it gives a value at a place of which `Q` holds, or the program does not fit it. -/
def Tries (input : Input) (i : Nat) (p : Parser α) (Q : Nat → α → Prop) : Prop :=
  ∀ arena, (∃ a j arena', p.run input ⟨i, arena⟩ = .ok a ⟨j, arena'⟩ ∧ Q j a) ∨
    ∃ e s, p.run input ⟨i, arena⟩ = .error (.error e) s

namespace Tries

variable {Q : Nat → α → Prop}

theorem pure {a : α} (h : Q i a) : Tries input i (pure a) Q :=
  fun arena => .inl ⟨a, i, arena, rfl, h⟩

theorem reject {fault : SyntaxFault} {span : Span} : Tries input i (reject fault span) Q :=
  fun _ => .inr ⟨_, _, rfl⟩

theorem make [ToNode α] {start : Nat} {build : Mark → α} (h : ∀ mark, Q i (build mark)) :
    Tries input i (make start build) Q :=
  fun _ => .inl ⟨_, _, _, rfl, h _⟩

theorem here {f : Nat → Parser α} (h : Tries input i (f i) Q) : Tries input i (position >>= f) Q :=
  h

theorem bind {p : Parser α} {f : α → Parser β} {P : Nat → α → Prop} {Q : Nat → β → Prop}
    (hp : Tries input i p P) (hf : ∀ a j, P j a → Tries input j (f a) Q) :
    Tries input i (p >>= f) Q := by
  intro arena
  rcases hp arena with ⟨a, j, arena', hrun, ha⟩ | ⟨e, s, hrun⟩
  · rw [run_bind_ok hrun]
    exact hf a j ha arena'
  · rw [run_bind, hrun]
    exact .inr ⟨e, s, rfl⟩

theorem delivered {p : Parser α} {P : α → Prop} (hp : Delivers input i p m P)
    (h : ∀ a, P a → Q m a) : Tries input i p Q := by
  intro arena
  obtain ⟨a, arena', hrun, ha⟩ := hp arena
  exact .inl ⟨a, m, arena', hrun, h a ha⟩

theorem following {p : Parser β} {f : β → Parser α} {P : β → Prop}
    (hp : Delivers input i (p >>= Pure.pure) m P) (hf : ∀ a, P a → Tries input m (f a) Q) :
    Tries input i (p >>= f) Q := by
  intro arena
  obtain ⟨a, arena', hrun, ha⟩ := hp arena
  obtain ⟨b, s, hb, hpure⟩ := bind_ok hrun
  obtain ⟨rfl, rfl⟩ := pure_ok hpure
  rw [run_bind_ok hb]
  exact hf b ha arena'

theorem expecting {l : Kind} {f : Token → Parser α} (hi : input.Meets i l)
    (hl : l.isSpace = false) (h : ∀ t, l = k → Tries input (i + 1) (f t) Q) :
    Tries input i (expect k >>= f) Q := by
  intro arena
  have hskip : input.skip true i = i := hi.skip_eq (Input.skips_of_solid hl)
  obtain ⟨t, ht, rfl⟩ := hi
  rw [expect, run_bind, run_bind, run_advance, hskip, ht]
  dsimp only
  by_cases hk : t.kind = k
  · rw [if_pos hk]
    exact h t hk arena
  · rw [if_neg hk]
    exact .inr ⟨_, _, rfl⟩

theorem attempted {p : Parser α} (hp : Tries input i p Q) (arena : Arena Node) :
    ∃ o j arena', (attempt p).run input ⟨i, arena⟩ = .ok o ⟨j, arena'⟩ ∧ o.elim (j = i) (Q j) := by
  unfold attempt
  dsimp only
  rcases hp arena with ⟨a, j, arena', hrun, ha⟩ | ⟨e, s, hrun⟩
  · rw [hrun]
    exact ⟨some a, j, arena', rfl, ha⟩
  · rw [hrun]
    exact ⟨none, i, s.arena, rfl, rfl⟩

theorem iterate {step : σ → Parser (σ ⊕ α)} {I : Nat → σ → Prop}
    (hstep : ∀ j s, I j s → Tries input j (step s) fun l x =>
      (∃ s', x = .inl s' ∧ j < l ∧ l ≤ input.tokens.size ∧ I l s') ∨ ∃ a, x = .inr a ∧ Q l a)
    {fuel : Nat} {s : σ} (hfuel : input.tokens.size - i < fuel) (hs : I i s) :
    Tries input i (iterate step fuel s) Q := by
  induction fuel generalizing i s with
  | zero => omega
  | succ fuel ih =>
    refine (hstep i s hs).bind fun x l hx => ?_
    rcases hx with ⟨s', rfl, hlt, hle, hs'⟩ | ⟨a, rfl, ha⟩
    · exact ih (by omega) hs'
    · exact .pure ha

theorem many {next : Parser (Option α)} {I : Nat → Prop} {P : α → Prop}
    (hroom : input.tokens.size < input.allowance)
    (hnext : ∀ j, I j → Tries input j next fun l o =>
      I l ∧ ∀ a, o = some a → P a ∧ j < l ∧ l ≤ input.tokens.size) (hi : I i) :
    Tries input i (many next) fun l as => I l ∧ ∀ a ∈ as, P a := by
  let J (j : Nat) (found : List α) : Prop := I j ∧ ∀ a ∈ found, P a
  have hfold : Tries input i (foldWhile (fun found => do return (← next).map (· :: found)) []) J := by
    refine iterate (I := J) (fun j found hfound => ?_) (by omega) ⟨hi, nofun⟩
    obtain ⟨hj, hfound⟩ := hfound
    refine bind (P := fun l o => I l ∧ ∀ found', o = some found' →
      (∀ a ∈ found', P a) ∧ j < l ∧ l ≤ input.tokens.size)
      ((hnext j hj).bind fun o l ho => .pure ⟨ho.1, ?_⟩) fun o l ho => ?_
    · intro found' hfound'
      obtain ⟨a, rfl, rfl⟩ := Option.map_eq_some_iff.mp hfound'
      obtain ⟨ha, hlt, hle⟩ := ho.2 a rfl
      exact ⟨List.forall_mem_cons.mpr ⟨ha, hfound⟩, hlt, hle⟩
    · cases o with
      | none => exact .pure (.inr ⟨_, rfl, ho.1, hfound⟩)
      | some found' =>
        obtain ⟨hall, hlt, hle⟩ := ho.2 found' rfl
        exact .pure (.inl ⟨_, rfl, hlt, hle, ho.1, hall⟩)
  exact hfold.bind fun found l hfound => .pure ⟨hfound.1, by simpa using hfound.2⟩

end Tries

end Parser

/-- From `i` to before `last`, operands and operators take turns. -/
def Input.Turning (input : Input) (last depth : Nat) (closed : Bool) (i : Nat) : Prop :=
  ∃ fs, input.Shows i fs last ∧ Turns depth closed fs

namespace Input.Turning

variable {input : Input} {last depth i : Nat} {closed : Bool}

theorem inside {j : Nat} (h : input.Turning last depth closed i) (hij : i ≤ j) (hj : j < last)
    (hopen : input.Meets j .lparen) : ∃ depth, input.Turning last (depth + 1) false (j + 1) := by
  obtain ⟨fs, hshows, hturns⟩ := h
  induction fs generalizing i depth closed with
  | nil =>
    obtain rfl : i = last := hshows
    omega
  | cons f fs ih =>
    obtain ⟨hat, hrest⟩ := hshows
    cases f with
    | word k text =>
      obtain ⟨-, hnext⟩ := hturns
      by_cases heq : i = j
      · subst heq
        obtain rfl := hopen.unique hat.meets
        exact ⟨depth, fs, hrest, hnext⟩
      · have hlater : i + 1 ≤ j := by omega
        split_ifs at hnext
        · exact ih hlater hrest hnext
        · exact ih hlater hrest hnext.2
        · exact ih hlater hrest hnext
    | _ => exact hturns.elim

theorem step (h : input.Turning last (depth + 1) closed i) :
    ∃ k text, input.At i (.word k text) ∧ k ∈ Kind.inTurn closed ∧
      if k = .lparen ∨ k = .lbracket then input.Turning last (depth + 1 + 1) false (i + 1)
      else if k = .rparen ∨ k = .rbracket then input.Turning last depth true (i + 1)
      else input.Turning last (depth + 1) (k = .intLit ∨ k = .identifier) (i + 1) := by
  obtain ⟨fs, hshows, hturns⟩ := h
  cases fs with
  | nil => exact absurd hturns.1 (Nat.succ_ne_zero depth)
  | cons f fs =>
    obtain ⟨hat, hrest⟩ := hshows
    cases f with
    | word k text =>
      obtain ⟨hk, hnext⟩ := hturns
      refine ⟨k, text, hat, hk, ?_⟩
      split_ifs at hnext ⊢
      · exact ⟨fs, hrest, hnext⟩
      · exact ⟨fs, hrest, hnext.2⟩
      · exact ⟨fs, hrest, hnext⟩
    | _ => exact hturns.elim

end Input.Turning

theorem Kind.inTurn_solid {closed : Bool} {k : Kind} (hk : k ∈ Kind.inTurn closed) :
    k.isSpace = false := by
  revert closed k
  decide

namespace Grammar.TypeParsers

variable {input : Input} {last depth i j : Nat} {s : Scope} {g : TypeParsers}

/-- A type was read, which could be an expression as well. -/
def Guessed (input : Input) (last depth i j : Nat) (t : TypeExpr) : Prop :=
  i < j ∧ input.Turning last (depth + 1) true j ∧ t.isForced = false

/-- The levels to which the rules go back guess from any place after `i`. -/
def Guesses (input : Input) (last i : Nat) (s : Scope) (g : TypeParsers) : Prop :=
  ∀ j depth, i < j → input.Turning last (depth + 1) false j →
    Tries input j (g.type s) (Guessed input last depth j) ∧
      Tries input j (g.array s) (Guessed input last depth j)

variable (hroom : input.tokens.size < input.allowance)

include hroom

theorem qualifiedName_stops {text : String} (hi : input.At i (.word .identifier text))
    (hnext : input.Turning last (depth + 1) true (i + 1)) :
    Delivers input i qualifiedName (i + 1) fun _ => True := by
  have hother : ∀ k ∈ Kind.inTurn true, k ≠ .colonColon := by decide
  obtain ⟨k, _, hat, hturn, -⟩ := hnext.step
  exact (qualifiedName_single hroom hi hat.meets (Kind.inTurn_solid hturn) (hother k hturn)).imp
    fun _ _ => trivial

theorem base_tries (hg : g.Guesses input last i s) (hi : input.Turning last (depth + 1) false i) :
    Tries input i (g.base s) (Guessed input last depth i) := by
  obtain ⟨k, text, hat, hk, hnext⟩ := hi.step
  have hlt := hat.lt_size
  refine .following (.showing hat (Kind.inTurn_solid hk) fun t ht _ => .pure ht) fun t ht => .here ?_
  rw [ht]
  cases k with
  | identifier =>
    exact .following ((qualifiedName_stops hroom hat hnext).bind fun x hx => .pure hx)
      fun _ _ => .make fun _ => ⟨Nat.lt_succ_self i, hnext, rfl⟩
  | lparen =>
    refine .following (.advancing hat rfl fun _ _ _ => .pure trivial) fun _ _ => ?_
    refine (hg (i + 1) _ (Nat.lt_succ_self i) hnext).1.bind fun t j ht => ?_
    obtain ⟨hij, hturning, hforced⟩ := ht
    obtain ⟨l, word, hl, hturn, hclosed⟩ := hturning.step
    refine .expecting hl.meets (Kind.inTurn_solid hturn) fun _ hl => .pure ?_
    subst hl
    exact ⟨by omega, hclosed, hforced⟩
  | lbracket =>
    refine .following (.advancing hat rfl fun _ _ _ => .pure trivial) fun _ _ => ?_
    refine (hg (i + 1) _ (Nat.lt_succ_self i) hnext).1.bind fun t j ht => ?_
    obtain ⟨hij, hturning, hforced⟩ := ht
    obtain ⟨l, word, hl, hturn, hclosed⟩ := hturning.step
    refine .expecting hl.meets (Kind.inTurn_solid hturn) fun _ hl => .make fun _ => ?_
    subst hl
    exact ⟨by omega, hclosed, hforced⟩
  | bang =>
    refine .following (.advancing hat rfl fun _ _ _ => .pure trivial) fun _ _ => ?_
    refine (hg (i + 1) _ (Nat.lt_succ_self i) hnext).2.bind fun t j ht => ?_
    obtain ⟨hij, hturning, hforced⟩ := ht
    exact .make fun _ => ⟨by omega, hturning, hforced⟩
  | _ => first | exact .reject | exact absurd hk (by decide)

theorem arrayOf_tries (hg : g.Guesses input last i s)
    (hi : input.Turning last (depth + 1) false i) :
    Tries input i (g.arrayOf s) (Guessed input last depth i) := by
  obtain ⟨k, text, hat, hk, -⟩ := hi.step
  refine .following (P := fun _ => True) (.settled hat.meets (Kind.inTurn_solid hk) (.pure trivial))
    fun start _ => (base_tries hroom hg hi).bind fun t j ht => ?_
  obtain ⟨l, word, hl, hturn, -⟩ := ht.2.1.step
  have hother : ∀ l ∈ Kind.inTurn true, l ∉ [Kind.lbracket] := by decide
  refine .delivered (.foldNone hroom (.declining hl.meets (Input.skips_of_solid
    (Kind.inTurn_solid hturn)) (hother l hturn) (.pure rfl))) fun x hx => hx ▸ ht

theorem separated_tries {level : Scope → Parser TypeExpr} {separator : Kind}
    {build : Mark → List TypeExpr → TypeExpr} (hseparator : separator ∈ [Kind.ampersand, .bar])
    (hbuild : ∀ mark ts, (∀ t ∈ ts, t.isForced = false) → (build mark ts).isForced = false)
    (hlevel : ∀ j, i ≤ j → input.Turning last (depth + 1) false j →
      Tries input j (level s) (Guessed input last depth j))
    (hi : input.Turning last (depth + 1) false i) :
    Tries input i (separated level separator build s) (Guessed input last depth i) := by
  obtain ⟨k, text, hat, hk, -⟩ := hi.step
  refine .following (P := fun _ => True) (.settled hat.meets (Kind.inTurn_solid hk) (.pure trivial))
    fun start _ => (hlevel i (Nat.le_refl i) hi).bind fun t j ht => ?_
  obtain ⟨hij, hturning, hforced⟩ := ht
  have hoperator : ∀ k ∈ [Kind.ampersand, .bar], ¬ (k = .lparen ∨ k = .lbracket) ∧
      ¬ (k = .rparen ∨ k = .rbracket) ∧ ¬ (k = .intLit ∨ k = .identifier) := by decide
  have hmany : Tries input j (afterEach true separator (level s)) fun l ts =>
      (j ≤ l ∧ input.Turning last (depth + 1) true l) ∧ ∀ t ∈ ts, t.isForced = false := by
    refine .many hroom (I := fun l => j ≤ l ∧ input.Turning last (depth + 1) true l)
      (fun l hl => ?_) ⟨Nat.le_refl j, hturning⟩
    obtain ⟨k, word, hat, hturn, hnext⟩ := hl.2.step
    by_cases hk : k = separator
    · subst hk
      obtain ⟨hopen, hclose, hend⟩ := hoperator k hseparator
      rw [if_neg hopen, if_neg hclose, decide_eq_false hend] at hnext
      have hsize := hat.lt_size
      refine .following (P := fun o => o.isSome) (.accepting hat (by simp) (Kind.inTurn_solid hturn)
        fun _ _ _ => .pure rfl) fun o ho => ?_
      obtain ⟨u, rfl⟩ := Option.isSome_iff_exists.mp ho
      refine (hlevel (l + 1) (by omega) hnext).bind fun x m hx => ?_
      obtain ⟨hlm, hturning, hforced⟩ := hx
      obtain ⟨_, _, hm, -⟩ := hturning.step
      have hsize := hm.lt_size
      refine .pure ⟨⟨by omega, hturning⟩, ?_⟩
      rintro _ ⟨⟩
      exact ⟨hforced, by omega, by omega⟩
    · refine .following (.declining hat.meets (Input.skips_of_solid (Kind.inTurn_solid hturn))
        (by simpa using hk) (.pure rfl)) fun o ho => ?_
      subst ho
      exact .pure ⟨hl, nofun⟩
  refine hmany.bind fun ts l hts => ?_
  obtain ⟨⟨hjl, hlast⟩, hall⟩ := hts
  cases ts with
  | nil => exact .pure ⟨by omega, hlast, hforced⟩
  | cons u us =>
    exact .make fun mark => ⟨by omega, hlast, hbuild mark _ (List.forall_mem_cons.mpr ⟨hforced, hall⟩)⟩

omit hroom in
theorem anyForced_of_none {ts : List TypeExpr} (h : ∀ t ∈ ts, t.isForced = false) :
    TypeExpr.anyForced ts = false := by
  induction ts with
  | nil => rfl
  | cons t ts ih =>
    rw [TypeExpr.anyForced, h t List.mem_cons_self, Bool.false_or]
    exact ih fun u hu => h u (List.mem_cons_of_mem t hu)

theorem ofDepth_tries {bound : Nat} (hbound : 2 * (input.tokens.size - i) ≤ bound)
    (hi : input.Turning last (depth + 1) false i) :
    Tries input i ((ofDepth (bound + 1)).array s) (Guessed input last depth i) ∧
      Tries input i ((ofDepth (bound + 2)).type s) (Guessed input last depth i) := by
  induction bound using Nat.strong_induction_on generalizing i depth with
  | _ bound ih =>
    have harray : ∀ j, i ≤ j → input.Turning last (depth + 1) false j →
        Tries input j ((ofDepth (bound + 1)).array s) (Guessed input last depth j) := by
      intro j hij hj
      refine arrayOf_tries hroom (fun l depth hjl hl => ?_) hj
      obtain ⟨_, _, hat, -⟩ := hj.step
      have hsize := hat.lt_size
      obtain ⟨bound, rfl⟩ := Nat.exists_eq_add_of_le' (by omega : 2 ≤ bound)
      obtain ⟨harray, -⟩ := ih (bound + 1) (by omega) (by omega) hl
      exact ⟨(ih bound (by omega) (by omega) hl).2, harray⟩
    refine ⟨harray i (Nat.le_refl i) hi, ?_⟩
    refine separated_tries hroom (.tail _ (.head _)) (fun _ _ => anyForced_of_none)
      (fun j hij hj => ?_) hi
    exact separated_tries hroom (.head _)
      (fun _ _ => anyForced_of_none) (fun l hjl => harray l (by omega)) hj

theorem forcedType_declines {bound : Nat} (hbound : 2 * input.tokens.size + 2 ≤ bound)
    (hi : input.Turning last (depth + 1) false i) :
    Delivers input i (forcedType (ofDepth bound) s) i (· = none) := by
  obtain ⟨bound, rfl⟩ := Nat.exists_eq_add_of_le' (by omega : 2 ≤ bound)
  obtain ⟨-, htype⟩ := ofDepth_tries (s := s) hroom (by omega : _ ≤ bound) hi
  refine .here fun arena => ?_
  obtain ⟨o, j, arena', hrun, ho⟩ := htype.attempted arena
  rw [run_bind_ok hrun]
  cases o with
  | none =>
    obtain rfl : j = i := ho
    exact ⟨none, arena', rfl, rfl⟩
  | some t =>
    obtain ⟨-, -, hforced⟩ := ho
    dsimp only
    rw [hforced]
    exact ⟨none, arena', rfl, rfl⟩

end Grammar.TypeParsers

end Whiley
