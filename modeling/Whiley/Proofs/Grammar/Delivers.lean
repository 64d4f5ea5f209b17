import Whiley.Grammar.Decls
import Whiley.Proofs.Grammar.Places
import Whiley.Proofs.Token.Essence

/-!
That a parser gives a value and stops at a known place, where the tokens to be read are known by what
they show. The judgement is total: a parser that delivers neither fails nor is exhausted.
-/

namespace Whiley

namespace Input

/-- The token at `i` shows `f`. -/
def At (input : Input) (i : Nat) (f : Face) : Prop :=
  input.tokens[i]?.map Token.face = some f

/-- The tokens from `i` on to before `j` show `fs`. -/
def Shows (input : Input) : Nat → List Face → Nat → Prop
  | i, [], j => i = j
  | i, f :: fs, j => input.At i f ∧ input.Shows (i + 1) fs j

def Meets (input : Input) (i : Nat) (k : Kind) : Prop :=
  ∃ t, input.tokens[i]? = some t ∧ t.kind = k

def Awaits (input : Input) (lines : Bool) (i : Nat) (k : Kind) : Prop :=
  ∀ t, input.tokens[input.skip lines i]? = some t → t.kind = k

variable {input : Input} {i j : Nat} {k : Kind} {text : String} {fs gs : List Face} {lines : Bool}

@[simp]
theorem shows_nil : input.Shows i [] j ↔ i = j :=
  Iff.rfl

@[simp]
theorem shows_cons {f : Face} : input.Shows i (f :: fs) j ↔ input.At i f ∧ input.Shows (i + 1) fs j :=
  Iff.rfl

theorem shows_append :
    input.Shows i (fs ++ gs) j ↔ ∃ m, input.Shows i fs m ∧ input.Shows m gs j := by
  induction fs generalizing i with
  | nil => simp
  | cons f fs ih => simp [ih, and_assoc]

theorem Shows.length_eq (h : input.Shows i fs j) : j = i + fs.length := by
  induction fs generalizing i with
  | nil => exact h.symm
  | cons f fs ih =>
    have hj := ih h.2
    simp only [List.length_cons]
    omega

theorem Shows.le (h : input.Shows i fs j) : i ≤ j := by
  have hj := h.length_eq
  omega

theorem At.token (h : input.At i (.word k text)) :
    ∃ t, input.tokens[i]? = some t ∧ t.kind = k ∧ t.text = text := by
  obtain ⟨t, ht, hface⟩ := Option.map_eq_some_iff.mp h
  unfold Token.face at hface
  split_ifs at hface
  obtain ⟨hkind, htext⟩ := Face.word.inj hface
  exact ⟨t, ht, hkind, htext⟩

theorem Meets.at (h : input.Meets i k) (hnewline : k ≠ .newline) (hindent : k ≠ .indent) :
    ∃ text, input.At i (.word k text) := by
  obtain ⟨t, ht, rfl⟩ := h
  refine ⟨t.text, ?_⟩
  rw [At, ht, Option.map_some, Token.face, if_neg hnewline, if_neg hindent]

theorem At.lt_size {f : Face} (h : input.At i f) : i < input.tokens.size := by
  obtain ⟨t, ht, -⟩ := Option.map_eq_some_iff.mp h
  obtain ⟨hsize, -⟩ := Array.getElem?_eq_some_iff.mp ht
  exact hsize

theorem At.lineEnd (h : input.At i .lineEnd) : input.Meets i .newline := by
  obtain ⟨t, ht, hface⟩ := Option.map_eq_some_iff.mp h
  unfold Token.face at hface
  split_ifs at hface with hkind
  exact ⟨t, ht, hkind⟩

theorem At.indent {depth : Except Char Indent} (h : input.At i (.indent depth)) :
    ∃ t, input.tokens[i]? = some t ∧ t.kind = .indent ∧ Indent.ofText t.text = depth := by
  obtain ⟨t, ht, hface⟩ := Option.map_eq_some_iff.mp h
  unfold Token.face at hface
  split_ifs at hface with hnewline hkind
  exact ⟨t, ht, hkind, Face.indent.inj hface⟩

theorem At.meets (h : input.At i (.word k text)) : input.Meets i k := by
  obtain ⟨t, ht, hkind, -⟩ := h.token
  exact ⟨t, ht, hkind⟩

theorem Meets.lt_size (h : input.Meets i k) : i < input.tokens.size := by
  obtain ⟨t, ht, -⟩ := h
  obtain ⟨hsize, -⟩ := Array.getElem?_eq_some_iff.mp ht
  exact hsize

theorem Meets.unique {l : Kind} (h : input.Meets i k) (h' : input.Meets i l) : k = l := by
  obtain ⟨t, ht, rfl⟩ := h
  obtain ⟨u, hu, rfl⟩ := h'
  rw [Option.some.inj (ht.symm.trans hu)]

theorem Shows.le_size (h : input.Shows i fs j) (hi : i ≤ input.tokens.size) :
    j ≤ input.tokens.size := by
  induction fs generalizing i with
  | nil => exact h ▸ hi
  | cons f fs ih => exact ih h.2 h.1.lt_size

theorem Meets.skip_eq (h : input.Meets i k) (hk : skips lines k = false) : input.skip lines i = i := by
  obtain ⟨t, ht, rfl⟩ := h
  exact skip_of_stop ht hk

theorem Meets.awaits (h : input.Meets i k) (hk : skips lines k = false) : input.Awaits lines i k := by
  intro t ht
  rw [h.skip_eq hk] at ht
  exact Meets.unique ⟨t, ht, rfl⟩ h

theorem skips_of_solid (hk : k.isSpace = false) : skips lines k = false := by
  cases hskips : skips lines k with
  | false => rfl
  | true => exact absurd (isSpace_of_skips hskips) (by simp [hk])

theorem shows_ofTokens {before ts rest : List Token} :
    (Input.ofTokens (before ++ ts ++ rest)).Shows before.length (ts.map Token.face)
      (before.length + ts.length) := by
  induction ts generalizing before with
  | nil => rfl
  | cons t ts ih =>
    have hat : (Input.ofTokens (before ++ t :: ts ++ rest)).At before.length t.face := by
      simp [At, Input.ofTokens]
    have htail : (Input.ofTokens ((before ++ [t]) ++ ts ++ rest)).Shows (before ++ [t]).length
        (ts.map Token.face) _ := ih
    simp only [List.append_assoc, List.singleton_append, List.length_append,
      List.length_singleton] at htail
    refine ⟨hat, ?_⟩
    rw [List.length_cons, Nat.add_comm ts.length 1, ← Nat.add_assoc]
    simpa only [List.append_assoc, List.cons_append] using htail

def listing (separator : Face) : Bool → List (List Face) → List Face
  | _, [] => []
  | false, fs :: rest => fs ++ listing separator true rest
  | true, fs :: rest => separator :: fs ++ listing separator true rest

theorem Shows.follower {separator : Kind} {rest : List (List Face)}
    (h : input.Shows i (listing (.word separator text) true rest) j) (hj : input.Meets j k) :
    ∃ l, input.Meets i l ∧ (l = separator ∨ l = k) := by
  cases rest with
  | nil =>
    obtain rfl : i = j := h
    exact ⟨k, hj, .inr rfl⟩
  | cons fs rest => exact ⟨separator, h.1.meets, .inl rfl⟩

end Input

namespace Parser

variable {α β σ : Type} {input : Input} {i j m : Nat} {P : α → Prop} {Q : β → Prop}

/-- Started at `i`, it gives a value of which `P` holds and stops at `j`, whatever was stored. -/
def Delivers (input : Input) (i : Nat) (p : Parser α) (j : Nat) (P : α → Prop) : Prop :=
  ∀ arena, ∃ a arena', p.run input ⟨i, arena⟩ = .ok a ⟨j, arena'⟩ ∧ P a

namespace Delivers

theorem pure {a : α} (h : P a) : Delivers input i (pure a) i P :=
  fun arena => ⟨a, arena, rfl, h⟩

theorem bind {p : Parser α} {f : α → Parser β} (hp : Delivers input i p m P)
    (hf : ∀ a, P a → Delivers input m (f a) j Q) : Delivers input i (p >>= f) j Q := by
  intro arena
  obtain ⟨a, arena', hrun, ha⟩ := hp arena
  obtain ⟨b, arena'', hrun', hb⟩ := hf a ha arena'
  exact ⟨b, arena'', (run_bind_ok hrun).trans hrun', hb⟩

theorem imp {p : Parser α} {P' : α → Prop} (hp : Delivers input i p j P) (h : ∀ a, P a → P' a) :
    Delivers input i p j P' := by
  intro arena
  obtain ⟨a, arena', hrun, ha⟩ := hp arena
  exact ⟨a, arena', hrun, h a ha⟩

theorem given {f : Input → Parser β} (h : Delivers input i (f input) j Q) :
    Delivers input i (tokens >>= f) j Q :=
  h

theorem here {f : Nat → Parser β} (h : Delivers input i (f i) j Q) :
    Delivers input i (position >>= f) j Q :=
  h

theorem moved {f : Unit → Parser β} (h : Delivers input m (f ()) j Q) :
    Delivers input i (moveTo m >>= f) j Q :=
  h

theorem allocate [ToNode α] {span : Span} {build : Mark → α} (h : ∀ mark, P (build mark)) :
    Delivers input i (allocate span build) i P :=
  fun _ => ⟨_, _, rfl, h _⟩

theorem make [ToNode α] {start : Nat} {build : Mark → α} (h : ∀ mark, P (build mark)) :
    Delivers input i (make start build) i P :=
  fun _ => ⟨_, _, rfl, h _⟩

theorem checked {x : Except SyntaxError α} {a : α} {f : α → Parser β} (hx : x = .ok a)
    (h : Delivers input i (f a) j Q) : Delivers input i (ofExcept x >>= f) j Q := by
  subst hx
  exact h

theorem valued {x : Except Failure α} {a : α} {f : α → Parser β} (hx : x = .ok a)
    (h : Delivers input i (f a) j Q) : Delivers input i (ofReading x >>= f) j Q := by
  subst hx
  exact h

section Tokens

variable {k : Kind} {ks : List Kind} {text : String} {lines : Bool} {f : Face}

theorem showing {f : Token → Parser β} (hi : input.At i (.word k text)) (hk : k.isSpace = false)
    (h : ∀ t, t.kind = k → t.text = text → Delivers input i (f t) j Q) :
    Delivers input i (current >>= f) j Q := by
  intro arena
  obtain ⟨t, ht, hkind, htext⟩ := hi.token
  rw [run_bind, run_current, hi.meets.skip_eq (Input.skips_of_solid hk), ht]
  exact h t hkind htext arena

theorem settled {f : Nat → Parser β} (hi : input.Meets i k) (hk : k.isSpace = false)
    (h : Delivers input i (f i) j Q) : Delivers input i (settle >>= f) j Q := by
  have hsettle : Delivers input i settle i (· = i) := by
    intro arena
    have hskip : input.skip true i = i := hi.skip_eq (Input.skips_of_solid hk)
    obtain ⟨t, ht, -⟩ := hi
    rw [settle, run_bind, run_current, hskip, ht]
    exact ⟨i, arena, rfl, rfl⟩
  exact hsettle.bind fun a ha => ha ▸ h

theorem advancing {f : Token → Parser β} (hi : input.At i (.word k text)) (hk : k.isSpace = false)
    (h : ∀ t, t.kind = k → t.text = text → Delivers input (i + 1) (f t) j Q) :
    Delivers input i (advance >>= f) j Q := by
  intro arena
  obtain ⟨t, ht, hkind, htext⟩ := hi.token
  rw [run_bind, run_advance, hi.meets.skip_eq (Input.skips_of_solid hk), ht]
  exact h t hkind htext arena

theorem expecting {f : Token → Parser β} (hi : input.At i (.word k text)) (hk : k.isSpace = false)
    (h : ∀ t, t.kind = k → t.text = text → Delivers input (i + 1) (f t) j Q) :
    Delivers input i (expect k >>= f) j Q := by
  intro arena
  obtain ⟨t, ht, hkind, htext⟩ := hi.token
  have hexpect : (expect k).run input ⟨i, arena⟩ = .ok t ⟨i + 1, arena⟩ := by
    rw [expect_ok, hi.meets.skip_eq (Input.skips_of_solid hk)]
    exact ⟨ht, hkind, rfl⟩
  rw [run_bind_ok hexpect]
  exact h t hkind htext arena

theorem accepting {f : Option Token → Parser β} (hi : input.At i (.word k text))
    (hk : k ∈ ks) (hspace : k.isSpace = false)
    (h : ∀ t, t.kind = k → t.text = text → Delivers input (i + 1) (f (some t)) j Q) :
    Delivers input i (accept lines ks >>= f) j Q := by
  intro arena
  obtain ⟨t, ht, hkind, htext⟩ := hi.token
  rw [run_bind, run_accept, hi.meets.skip_eq (Input.skips_of_solid hspace), ht]
  dsimp only
  rw [if_pos (hkind ▸ hk)]
  exact h t hkind htext arena

theorem passing {f : Option Token → Parser β} (hi : input.Awaits lines i k) (hk : k ∉ ks)
    (h : Delivers input i (f none) j Q) : Delivers input i (accept lines ks >>= f) j Q := by
  intro arena
  rw [run_bind, run_accept]
  cases ht : input.tokens[input.skip lines i]? with
  | none => exact h arena
  | some t =>
    obtain rfl := hi t ht
    dsimp only
    rw [if_neg hk]
    exact h arena

theorem declining {f : Option Token → Parser β} (hi : input.Meets i k)
    (hstop : Input.skips lines k = false) (hk : k ∉ ks) (h : Delivers input i (f none) j Q) :
    Delivers input i (accept lines ks >>= f) j Q :=
  .passing (hi.awaits hstop) hk h

theorem acceptingNext {f : Option Token → Parser β} (hi : input.At i (.word k text))
    (hspace : k.isSpace = false)
    (h : ∀ t, t.kind = k → t.text = text → Delivers input (i + 1) (f (some t)) j Q) :
    Delivers input i (acceptNext k >>= f) j Q := by
  intro arena
  obtain ⟨t, ht, hkind, htext⟩ := hi.token
  rw [run_bind, run_acceptNext, hi.meets.skip_eq (Input.skips_of_solid hspace), ht]
  dsimp only
  rw [if_pos hkind]
  exact h t hkind htext arena

theorem decliningNext {l : Kind} {f : Option Token → Parser β} (hi : input.Meets i k)
    (hspace : k.isSpace = false) (hk : k ≠ l) (h : Delivers input i (f none) j Q) :
    Delivers input i (acceptNext l >>= f) j Q := by
  intro arena
  have hskip : input.skip true i = i := hi.skip_eq (Input.skips_of_solid hspace)
  obtain ⟨t, ht, rfl⟩ := hi
  rw [run_bind, run_acceptNext, hskip, ht]
  dsimp only
  rw [if_neg hk]
  exact h arena

theorem looking {l : Kind} {f : Bool → Parser β} (hi : input.Meets i k)
    (hstop : Input.skips lines k = false) (h : Delivers input i (f (k = l)) j Q) :
    Delivers input i (ahead lines [l] >>= f) j Q := by
  have hskip := hi.skip_eq hstop
  obtain ⟨t, ht, rfl⟩ := hi
  have hcomes : comes input lines [l] i = decide (t.kind = l) := by simp [comes, hskip, ht]
  intro arena
  obtain ⟨a, arena', hrun, ha⟩ := h arena
  refine ⟨a, arena', ?_, ha⟩
  rw [← hrun, ← hcomes]
  rfl

theorem overlooking {l : Kind} {f : Bool → Parser β} (hi : input.Meets i k)
    (hstop : Input.skips lines k = false) (hk : k ≠ l) (h : Delivers input i (f false) j Q) :
    Delivers input i (ahead lines (l :: ks) >>= f) j Q := by
  have hskip := hi.skip_eq hstop
  obtain ⟨t, ht, rfl⟩ := hi
  have hcomes : comes input lines (l :: ks) i = false := by simp [comes, hskip, ht, hk]
  intro arena
  obtain ⟨a, arena', hrun, ha⟩ := h arena
  refine ⟨a, arena', ?_, ha⟩
  rw [← hrun, ← hcomes]
  rfl

theorem inLine {f : Bool → Parser β} (hi : input.Meets i k) (hk : k.isSpace = false)
    (h : Delivers input i (f false) j Q) : Delivers input i (atLineEnd >>= f) j Q := by
  have hskip : input.skip false i = i := hi.skip_eq (Input.skips_of_solid hk)
  obtain ⟨t, ht, rfl⟩ := hi
  have hline : Delivers input i atLineEnd i (· = false) := by
    refine .given (.here ?_)
    rw [hskip, ht]
    refine .pure (decide_eq_false fun hnewline => ?_)
    rw [hnewline] at hk
    cases hk
  exact hline.bind fun b hb => hb ▸ h

theorem ending (hi : input.At i .lineEnd) : Delivers input i endLine (i + 1) fun _ => True := by
  intro arena
  have hskip : input.skip false i = i := hi.lineEnd.skip_eq rfl
  obtain ⟨t, ht, hkind⟩ := hi.lineEnd
  rw [run_endLine, hskip, ht]
  dsimp only
  rw [if_pos hkind]
  exact ⟨(), arena, rfl, trivial⟩

theorem awaits_newline (h : Delivers input i endLine j fun _ => True) :
    input.Awaits false i .newline := by
  intro t ht
  obtain ⟨_, _, hrun, _⟩ := h .empty
  rw [run_endLine, ht] at hrun
  dsimp only at hrun
  split at hrun
  · assumption
  · cases hrun

section Indents

variable {depth : Indent} (hi : input.At i (.indent (.ok depth)))
  (hnext : input.At (i + 1) (.word k text)) (hk : k.isSpace = false)

include hi hnext hk

theorem indenting {f : Option (Token × Indent) → Parser β}
    (h : ∀ t, Delivers input i (f (some (t, depth))) j Q) :
    Delivers input i (lineStart >>= f) j Q := by
  obtain ⟨t, ht, hkind, hdepth⟩ := hi.indent
  have hskip : input.skip false i = i + 1 := by
    rw [Input.skip_succ ht (by rw [hkind]; rfl), hnext.meets.skip_eq (Input.skips_of_solid hk)]
  have hlines : input.skipLines i = i := by
    obtain ⟨u, hu, rfl⟩ := hnext.meets
    exact Input.PastLines.eq (.stay (by rw [hskip, hu]) (by rintro hnewline; rw [hnewline] at hk; cases hk))
  have hstart : Delivers input i lineStart i (· = some (t, depth)) := by
    refine .given (.here (.moved ?_))
    rw [hlines, ht]
    dsimp only
    rw [if_pos hkind, hdepth]
    exact .pure rfl
  exact hstart.bind fun o ho => ho ▸ h t

theorem showingIndented {f : Token → Parser β}
    (h : ∀ t, t.kind = k → t.text = text → Delivers input (i + 1) (f t) j Q) :
    Delivers input i (current >>= f) j Q := by
  intro arena
  obtain ⟨t, ht, hkind, -⟩ := hi.indent
  have hskip : input.skip true i = i + 1 := by
    rw [Input.skip_succ ht (by rw [hkind]; rfl), hnext.meets.skip_eq (Input.skips_of_solid hk)]
  obtain ⟨u, hu, hkind, htext⟩ := hnext.token
  rw [run_bind, run_current, hskip, hu]
  exact h u hkind htext arena

end Indents

theorem lastLine {f : Option (Token × Indent) → Parser β} (hi : input.tokens.size ≤ i)
    (h : Delivers input i (f none) j Q) : Delivers input i (lineStart >>= f) j Q := by
  have hnone : input.tokens[i]? = none := Array.getElem?_eq_none_iff.mpr hi
  have hskip : input.skip false i = i := Input.skip_of_none hnone
  have hlines : input.skipLines i = i := by
    have hends : input.PastLines i (input.skip false i) := .ends (by rw [hskip, hnone])
    rw [hskip] at hends
    exact hends.eq
  have hstart : Delivers input i lineStart i (· = none) := by
    refine .given (.here (.moved ?_))
    rw [hlines, hnone]
    exact .pure rfl
  exact hstart.bind fun o ho => ho ▸ h

end Tokens

section Loops

variable {γ : Type} {y : γ} {ys : List γ}

theorem iterate {step : σ → Parser (σ ⊕ β)} {fuel : Nat} {s : σ} {I : List γ → Nat → σ → Prop}
    (hfuel : input.tokens.size - i < fuel) (hs : I ys i s)
    (hnext : ∀ y ys i s, I (y :: ys) i s → ∃ m, i < m ∧ m ≤ input.tokens.size ∧
      Delivers input i (step s) m fun x => ∃ s', x = .inl s' ∧ I ys m s')
    (hlast : ∀ i s, I [] i s → Delivers input i (step s) j fun x => ∃ b, x = .inr b ∧ Q b) :
    Delivers input i (iterate step fuel s) j Q := by
  induction ys generalizing i s fuel with
  | nil =>
    obtain ⟨fuel, rfl⟩ := Nat.exists_eq_add_of_lt hfuel
    refine (hlast i s hs).bind fun x hx => ?_
    obtain ⟨b, rfl, hb⟩ := hx
    exact .pure hb
  | cons y ys ih =>
    obtain ⟨m, him, hm, hstep⟩ := hnext y ys i s hs
    obtain ⟨fuel, rfl⟩ : ∃ n, fuel = n + 1 := ⟨fuel - 1, by omega⟩
    refine hstep.bind fun x hx => ?_
    obtain ⟨s', rfl, hs'⟩ := hx
    exact ih (by omega) hs'

variable (hroom : input.tokens.size < input.allowance)

include hroom

theorem repeating {step : σ → Parser (σ ⊕ β)} {s : σ} {I : List γ → Nat → σ → Prop}
    (hs : I ys i s)
    (hnext : ∀ y ys i s, I (y :: ys) i s → ∃ m, i < m ∧ m ≤ input.tokens.size ∧
      Delivers input i (step s) m fun x => ∃ s', x = .inl s' ∧ I ys m s')
    (hlast : ∀ i s, I [] i s → Delivers input i (step s) j fun x => ∃ b, x = .inr b ∧ Q b) :
    Delivers input i (repeating step s) j Q :=
  .given (.iterate (by omega) hs hnext hlast)

theorem foldWhile {step : σ → Parser (Option σ)} {s : σ} {I : List γ → Nat → σ → Prop}
    {Q : σ → Prop} (hs : I ys i s)
    (hnext : ∀ y ys i s, I (y :: ys) i s → ∃ m, i < m ∧ m ≤ input.tokens.size ∧
      Delivers input i (step s) m fun o => ∃ s', o = some s' ∧ I ys m s')
    (hlast : ∀ i s, I [] i s → Delivers input i (step s) j (· = none) ∧ Q s) :
    Delivers input i (foldWhile step s) j Q := by
  refine .repeating hroom hs (fun y ys i s h => ?_) fun i s h => ?_
  · obtain ⟨m, him, hm, hstep⟩ := hnext y ys i s h
    refine ⟨m, him, hm, hstep.bind fun o ho => ?_⟩
    obtain ⟨s', rfl, hs'⟩ := ho
    exact .pure ⟨s', rfl, hs'⟩
  · obtain ⟨hstep, hQ⟩ := hlast i s h
    refine hstep.bind fun o ho => ?_
    obtain rfl := ho
    exact .pure ⟨s, rfl, hQ⟩

theorem foldNone {step : σ → Parser (Option σ)} {s : σ}
    (h : Delivers input i (step s) j (· = none)) : Delivers input i (Parser.foldWhile step s) j (· = s) :=
  .foldWhile hroom (I := fun (ys : List Unit) l x => ys = [] ∧ l = i ∧ x = s)
    ⟨rfl, rfl, rfl⟩ (fun _ _ _ _ h => nomatch h.1) fun _ _ ⟨_, hl, hx⟩ => ⟨hl ▸ hx ▸ h, hx⟩

theorem many {next : Parser (Option α)} {R : γ → α → Prop} {I : List γ → Nat → Prop} (hi : I ys i)
    (hnext : ∀ y ys i, I (y :: ys) i → ∃ m, i < m ∧ m ≤ input.tokens.size ∧
      Delivers input i next m (fun o => ∃ a, o = some a ∧ R y a) ∧ I ys m)
    (hlast : ∀ i, I [] i → Delivers input i next j (· = none)) :
    Delivers input i (many next) j fun as => List.Forall₂ R ys as := by
  let J (rest : List γ) (i : Nat) (found : List α) : Prop :=
    I rest i ∧ ∃ done, ys = done ++ rest ∧ List.Forall₂ R done found.reverse
  have hfold : Delivers input i (Parser.foldWhile (fun found => do
      return (← next).map (· :: found)) []) j fun found => List.Forall₂ R ys found.reverse := by
    refine .foldWhile hroom (I := J) ⟨hi, [], rfl, .nil⟩ (fun y rest i found h => ?_)
      fun i found h => ?_
    · obtain ⟨hrest, done, hys, hdone⟩ := h
      obtain ⟨m, him, hm, hitem, hI⟩ := hnext y rest i hrest
      refine ⟨m, him, hm, hitem.bind fun o ho => ?_⟩
      obtain ⟨a, rfl, ha⟩ := ho
      refine .pure ⟨a :: found, rfl, hI, done ++ [y], by simp [hys], ?_⟩
      rw [List.reverse_cons]
      exact List.rel_append hdone (.cons ha .nil)
    · obtain ⟨hrest, done, hys, hdone⟩ := h
      refine ⟨(hlast i hrest).bind fun o ho => ?_, ?_⟩
      · obtain rfl := ho
        exact .pure rfl
      · rw [hys, List.append_nil]
        exact hdone
  exact hfold.bind fun found hfound => .pure hfound

theorem afterEach {lines : Bool} {separator last : Kind} {text : String} {item : Parser α}
    {w : γ → List Face} {R : γ → α → Prop} (hspace : separator.isSpace = false)
    (hstop : Input.skips lines last = false) (hne : last ≠ separator)
    (hi : input.Shows i (Input.listing (.word separator text) true (ys.map w)) j)
    (hj : input.Meets j last)
    (hitem : ∀ y ∈ ys, ∀ a b k, i < a → input.Shows a (w y) b → input.Meets b k →
      k = separator ∨ k = last → Delivers input a item b (R y)) :
    Delivers input i (afterEach lines separator item) j fun as => List.Forall₂ R ys as := by
  let I (rest : List γ) (a : Nat) : Prop := i ≤ a ∧ (∀ y ∈ rest, y ∈ ys) ∧
    input.Shows a (Input.listing (.word separator text) true (rest.map w)) j
  refine .many hroom (I := I) ⟨Nat.le_refl i, fun _ h => h, hi⟩ (fun y rest a h => ?_) fun a h => ?_
  · obtain ⟨hia, hmem, hseparator, hshows⟩ := h
    obtain ⟨b, hy, hrest⟩ := Input.shows_append.mp hshows
    obtain ⟨k, hb, hk⟩ := hrest.follower hj
    have hab := hy.le
    have hbj := hrest.le
    have hsize := hj.lt_size
    have hread := hitem y (hmem y List.mem_cons_self) (a + 1) b k (by omega) hy hb hk
    refine ⟨b, by omega, by omega, ?_, by omega,
      fun z hz => hmem z (List.mem_cons_of_mem y hz), hrest⟩
    exact .accepting hseparator (by simp) hspace fun _ _ _ => hread.bind fun x hx => .pure ⟨x, rfl, hx⟩
  · obtain ⟨-, -, rfl⟩ := h
    exact .declining hj hstop (by simpa using hne) (.pure rfl)

theorem afterNone {lines : Bool} {separator last : Kind} {item : Parser α}
    (hi : input.Awaits lines i last) (hne : last ≠ separator) :
    Delivers input i (Parser.afterEach lines separator item) i (· = []) := by
  refine (Delivers.many hroom (R := fun (_ : Unit) _ => True) (I := fun ys a => ys = [] ∧ a = i)
    ⟨rfl, rfl⟩ (fun _ _ _ h => by cases h.1) fun a h => ?_).imp fun as has => ?_
  · obtain ⟨-, rfl⟩ := h
    exact .passing hi (by simpa using hne) (.pure rfl)
  · cases has
    rfl

theorem untilClose {close : Kind} {text : String} {started : Bool} {item : σ → Parser σ} {s : σ}
    {w : γ → List Face} {I : List γ → σ → Prop} (hclose : close.isSpace = false)
    (hcomma : close ≠ .comma)
    (hi : input.Shows i (Input.listing (.word .comma ",") started (ys.map w)) j)
    (hj : input.At j (.word close text)) (hs : I ys s)
    (hhead : ∀ y ∈ ys, ∃ k text fs, w y = .word k text :: fs ∧ k.isSpace = false ∧ k ≠ close)
    (hitem : ∀ y ys s a b k, I (y :: ys) s → i ≤ a → b ≤ j → input.Shows a (w y) b →
      input.Meets b k → k = .comma ∨ k = close → Delivers input a (item s) b (I ys)) :
    Delivers input i (untilClose close started item s) (j + 1) (I []) := by
  let J (rest : List γ) (a : Nat) (x : Bool × σ) : Prop := i ≤ a ∧ (∀ y ∈ rest, y ∈ ys) ∧
    input.Shows a (Input.listing (.word .comma ",") x.1 (rest.map w)) j ∧ I rest x.2
  refine Delivers.bind (P := fun x => I [] x.2) (.foldWhile hroom (I := J)
    ⟨Nat.le_refl i, fun _ h => h, hi, hs⟩ (fun y rest a x h => ?_) fun a x h => ?_)
    fun x hx => .pure hx
  · obtain ⟨started, s⟩ := x
    obtain ⟨hia, hmem, hshows, hI⟩ := h
    have hsize := hj.lt_size
    have hread : ∀ c b, i ≤ c → input.Shows c (w y) b →
        input.Shows b (Input.listing (.word .comma ",") true (rest.map w)) j →
          Delivers input c (item s) b (I rest) ∧ b ≤ j ∧ (c < b) := by
      intro c b hic hy hrest
      obtain ⟨k, hb, hk⟩ := hrest.follower hj.meets
      obtain ⟨l, head, fs, hw, -⟩ := hhead y (hmem y List.mem_cons_self)
      have hlt := hy.length_eq
      rw [hw, List.length_cons] at hlt
      exact ⟨hitem y rest s c b k hI hic hrest.le hy hb hk, hrest.le, by omega⟩
    cases started with
    | false =>
      obtain ⟨b, hy, hrest⟩ := Input.shows_append.mp hshows
      obtain ⟨hdelivers, hbj, hab⟩ := hread a b hia hy hrest
      obtain ⟨l, head, fs, hw, hspace, hl⟩ := hhead y (hmem y List.mem_cons_self)
      rw [hw] at hy
      refine ⟨b, hab, by omega, .decliningNext hy.1.meets hspace hl ?_⟩
      exact hdelivers.bind fun s' hs' =>
        .pure ⟨_, rfl, by omega, fun z hz => hmem z (List.mem_cons_of_mem y hz), hrest, hs'⟩
    | true =>
      obtain ⟨hseparator, hshows⟩ := hshows
      obtain ⟨b, hy, hrest⟩ := Input.shows_append.mp hshows
      obtain ⟨hdelivers, hbj, hab⟩ := hread (a + 1) b (by omega) hy hrest
      refine ⟨b, by omega, by omega, .decliningNext hseparator.meets rfl hcomma.symm ?_⟩
      refine .expecting hseparator rfl fun _ _ _ => hdelivers.bind fun s' hs' => ?_
      exact .pure ⟨_, rfl, by omega, fun z hz => hmem z (List.mem_cons_of_mem y hz), hrest, hs'⟩
  · obtain ⟨started, s⟩ := x
    obtain ⟨-, -, hshows, hI⟩ := h
    obtain rfl : a = j := by cases started <;> exact hshows
    exact ⟨.acceptingNext hj hclose fun _ _ _ => .pure rfl, hI⟩

theorem collecting {close : Kind} {text : String} {started : Bool} {item : Parser α}
    {w : γ → List Face} {R : γ → α → Prop} {done : List γ} {found : List α}
    (hclose : close.isSpace = false) (hcomma : close ≠ .comma)
    (hi : input.Shows i (Input.listing (.word .comma ",") started (ys.map w)) j)
    (hj : input.At j (.word close text)) (hdone : List.Forall₂ R done found.reverse)
    (hhead : ∀ y ∈ ys, ∃ k text fs, w y = .word k text :: fs ∧ k.isSpace = false ∧ k ≠ close)
    (hitem : ∀ y ∈ ys, ∀ a b k, i ≤ a → b ≤ j → input.Shows a (w y) b → input.Meets b k →
      k = .comma ∨ k = close → Delivers input a item b (R y)) :
    Delivers input i (Parser.untilClose close started (fun found => do return (← item) :: found) found)
      (j + 1) fun found => List.Forall₂ R (done ++ ys) found.reverse := by
  let I (rest : List γ) (found : List α) : Prop :=
    ∃ later, ys = later ++ rest ∧ List.Forall₂ R (done ++ later) found.reverse
  refine (Delivers.untilClose hroom (I := I) hclose hcomma hi hj ⟨[], rfl, by simpa using hdone⟩ hhead
    fun y rest found a b k h hia hbj hshows hb hk => ?_).imp fun found hfound => ?_
  · obtain ⟨later, hys, hlater⟩ := h
    refine (hitem y (by simp [hys]) a b k hia hbj hshows hb hk).bind fun x hx => .pure ?_
    refine ⟨later ++ [y], by simp [hys], ?_⟩
    rw [List.reverse_cons, ← List.append_assoc]
    exact List.rel_append hlater (.cons hx .nil)
  · obtain ⟨later, hys, hlater⟩ := hfound
    rwa [hys, List.append_nil]

theorem listUntil {close : Kind} {text : String} {item : Parser α} {w : γ → List Face}
    {R : γ → α → Prop} (hclose : close.isSpace = false) (hcomma : close ≠ .comma)
    (hi : input.Shows i (Input.listing (.word .comma ",") false (ys.map w)) j)
    (hj : input.At j (.word close text))
    (hhead : ∀ y ∈ ys, ∃ k text fs, w y = .word k text :: fs ∧ k.isSpace = false ∧ k ≠ close)
    (hitem : ∀ y ∈ ys, ∀ a b k, i ≤ a → b ≤ j → input.Shows a (w y) b → input.Meets b k →
      k = .comma ∨ k = close → Delivers input a item b (R y)) :
    Delivers input i (listUntil close item) (j + 1) fun as => List.Forall₂ R ys as := by
  have hnone : List.Forall₂ R [] ([] : List α).reverse := .nil
  exact (Delivers.collecting hroom hclose hcomma hi hj hnone hhead hitem).bind
    fun _ hfound => .pure hfound

end Loops

end Delivers

def folding (step : σ → Parser (Option σ)) (s : σ) : Parser (σ ⊕ σ) := do
  return (← step s).elim (.inr s) .inl

theorem foldWhile_eq (step : σ → Parser (Option σ)) : foldWhile step = repeating (folding step) := by
  unfold foldWhile folding
  congr
  funext s
  congr
  funext o
  cases o <;> rfl

/-- From `m` on, with a value of which `P` holds, a fold gives one of which `Q` holds and stops at `j`. -/
def Folds (input : Input) (step : σ → Parser (Option σ)) (m : Nat) (P : σ → Prop) (j : Nat)
    (Q : σ → Prop) : Prop :=
  ∀ fuel s, input.tokens.size - m < fuel → P s →
    Delivers input m (iterate (folding step) fuel s) j Q

namespace Folds

variable {step : σ → Parser (Option σ)} {l : Nat} {P Q R : σ → Prop}

theorem last (h : ∀ s, P s → Delivers input m (step s) m (· = none)) :
    Folds input step m P m P := by
  intro fuel s hfuel hs
  obtain ⟨fuel, rfl⟩ := Nat.exists_eq_add_of_lt hfuel
  refine Delivers.bind (m := m) (P := (· = .inr s)) ((h s hs).bind fun o ho => ?_) fun x hx => ?_
  · obtain rfl := ho
    exact .pure rfl
  · obtain rfl := hx
    exact .pure hs

theorem round (hml : m < l) (hl : l ≤ input.tokens.size)
    (h : ∀ s, P s → Delivers input m (step s) l fun o => ∃ s', o = some s' ∧ R s')
    (hrest : Folds input step l R j Q) : Folds input step m P j Q := by
  intro fuel s hfuel hs
  obtain ⟨fuel, rfl⟩ : ∃ n, fuel = n + 1 := ⟨fuel - 1, by omega⟩
  refine Delivers.bind (m := l) (P := fun x => ∃ s', x = .inl s' ∧ R s')
    ((h s hs).bind fun o ho => ?_) fun x hx => ?_
  · obtain ⟨s', rfl, hs'⟩ := ho
    exact .pure ⟨s', rfl, hs'⟩
  · obtain ⟨s', rfl, hs'⟩ := hx
    exact hrest fuel s' (by omega) hs'

theorem delivers {s : σ} (hroom : input.tokens.size < input.allowance)
    (h : Folds input step m P j Q) (hs : P s) : Delivers input m (foldWhile step s) j Q := by
  rw [foldWhile_eq]
  exact .given (h _ s (by omega) hs)

end Folds

end Parser

end Whiley
