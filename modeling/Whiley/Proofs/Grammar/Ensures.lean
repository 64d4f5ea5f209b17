import Whiley.Grammar.Decls
import Whiley.Proofs.Token.Spelling

namespace Whiley

theorem Indent.ofChars_blanks {cs : List Char} (h : ∀ c ∈ cs, Lexer.isBlank c) :
    Indent.ofChars cs = .ok ⟨cs.count ' ', cs.count '\t'⟩ := by
  induction cs with
  | nil => rfl
  | cons c cs ih =>
    have hcs := ih fun d hd => h d (List.mem_cons_of_mem c hd)
    have hc : c = ' ' ∨ c = '\t' := by simpa [Lexer.isBlank] using h c List.mem_cons_self
    rcases hc with rfl | rfl
    · simp [Indent.ofChars, hcs, Except.map]
    · simp [Indent.ofChars, hcs, Except.map]

theorem Token.Lexed.ofText_indent {t : Token} (h : t.Lexed) (hk : t.kind = .indent) :
    Indent.ofText t.text = .ok ⟨t.text.toList.count ' ', t.text.toList.count '\t'⟩ := by
  rw [Token.Lexed, hk] at h
  exact Indent.ofChars_blanks h.2

structure Run where
  input : Input
  lexed : ∀ t ∈ input.tokens, t.Lexed
  arena : Arena Node

namespace Run

theorem text_of_fixed (r : Run) {t : Token} (ht : t ∈ r.input.tokens) (hk : t.kind ∉ Kind.classes) :
    t.text = t.kind.spelling :=
  Token.text_of_fixed (r.lexed t ht) hk

theorem word (r : Run) {t : Token} (ht : t ∈ r.input.tokens) (hk : t.kind = .identifier) :
    Kind.identifier.Spelled t.text.toList := by
  have h := r.lexed t ht
  rwa [Token.Lexed, hk] at h

end Run

def Failure.Proper (input : Input) : Failure → Prop
  | .error _ => True
  | .integer text fault =>
    ∃ t ∈ input.tokens, t.kind = .intLit ∧ t.text = text ∧ Text.digitLimit < text.length ∧
      fault = .tooLong text.length
  | .exhausted => True
  | _ => False

namespace Parser

variable {α β σ : Type} {r : Run}

def Result.Holds (r : Run) (Q : α → Prop) : Result α → Prop
  | .ok a s => s.arena ≤ r.arena → Q a
  | .error f s => s.arena ≤ r.arena → f.Proper r.input

def Ensures (r : Run) (p : Parser α) (Q : α → Prop) : Prop :=
  ∀ s, (p.run r.input s).Holds r Q

theorem run_pure (a : α) (input : Input) (s : Reading) :
    (pure a : Parser α).run input s = .ok a s := rfl

theorem run_bind (p : Parser α) (f : α → Parser β) (input : Input) (s : Reading) :
    (p >>= f).run input s =
      match p.run input s with
      | .ok a s' => (f a).run input s'
      | .error e s' => .error e s' := rfl

namespace Ensures

theorem pure {a : α} {Q : α → Prop} (h : Q a) : Ensures r (pure a) Q :=
  fun _ _ => h

theorem bind {p : Parser α} {f : α → Parser β} {P : α → Prop} {Q : β → Prop}
    (hp : Ensures r p P) (hf : ∀ a, P a → Ensures r (f a) Q) : Ensures r (p >>= f) Q := by
  intro s
  have hps := hp s
  rw [run_bind]
  cases h : p.run r.input s with
  | error e s' =>
    rw [h] at hps
    exact hps
  | ok a s' =>
    rw [h] at hps
    -- the arena after `p` lies below the one after `f a`, so what `p` promised holds by then
    have hgrows := (f a).grows r.input s'
    change ((f a).run r.input s').Holds r Q
    cases hfa : (f a).run r.input s' with
    | ok b s'' =>
      intro hle
      rw [hfa] at hgrows
      have := hf a (hps (Arena.le_trans hgrows hle)) s'
      rw [hfa] at this
      exact this hle
    | error e s'' =>
      intro hle
      rw [hfa] at hgrows
      have := hf a (hps (Arena.le_trans hgrows hle)) s'
      rw [hfa] at this
      exact this hle

theorem mono {p : Parser α} {P Q : α → Prop} (hp : Ensures r p P) (h : ∀ a, P a → Q a) :
    Ensures r p Q := by
  intro s
  have hps := hp s
  cases hr : p.run r.input s with
  | ok a s' =>
    rw [hr] at hps
    exact fun hle => h a (hps hle)
  | error f s' =>
    rw [hr] at hps
    exact hps

theorem found {p : Parser α} {P : α → Prop} (hp : Ensures r p P) :
    Ensures r (do return some (← p)) fun o => ∀ a, o = some a → P a := by
  refine hp.bind fun a ha => .pure ?_
  rintro _ ⟨⟩
  exact ha

theorem fail {f : Failure} {Q : α → Prop} (h : f.Proper r.input) : Ensures r (fail f) Q :=
  fun _ _ => h

theorem exhausted {Q : α → Prop} : Ensures r (Parser.fail .exhausted) Q :=
  .fail trivial

theorem reject {fault : SyntaxFault} {span : Span} {Q : α → Prop} :
    Ensures r (reject fault span) Q :=
  .fail trivial

theorem tokens : Ensures r tokens (· = r.input) :=
  fun _ _ => rfl

theorem position : Ensures r position fun _ => True :=
  fun _ _ => trivial

theorem moveTo {pos : Nat} : Ensures r (moveTo pos) fun _ => True :=
  fun _ _ => trivial

theorem ofExcept {x : Except SyntaxError α} {Q : α → Prop} (h : ∀ a, x = .ok a → Q a) :
    Ensures r (ofExcept x) Q := by
  cases x with
  | ok a => exact .pure (h a rfl)
  | error e => exact .fail trivial

theorem ofReading {x : Except Failure α} {Q : α → Prop} (h : ∀ a, x = .ok a → Q a)
    (hf : ∀ f, x = .error f → f.Proper r.input) : Ensures r (ofReading x) Q := by
  cases x with
  | ok a => exact .pure (h a rfl)
  | error f => exact .fail (hf f rfl)

theorem current : Ensures r current (· ∈ r.input.tokens) := by
  refine tokens.bind fun input hinput => ?_
  subst hinput
  refine position.bind fun pos _ => ?_
  refine moveTo.bind fun _ _ => ?_
  split
  · rename_i t ht
    exact .pure (Array.mem_of_getElem? ht)
  · exact .reject

theorem settle : Ensures r settle fun _ => True :=
  current.bind fun _ _ => position

theorem advance : Ensures r advance (· ∈ r.input.tokens) := by
  refine current.bind fun t ht => ?_
  refine position.bind fun _ _ => ?_
  exact moveTo.bind fun _ _ => .pure ht

theorem expect {k : Kind} :
    Ensures r (expect k) fun t => t ∈ r.input.tokens ∧ t.kind = k := by
  refine advance.bind fun t ht => ?_
  split
  · rename_i hk
    exact .pure ⟨ht, hk⟩
  · exact .reject

theorem accept {lines : Bool} {ks : List Kind} :
    Ensures r (accept lines ks) fun o => ∀ t, o = some t → t ∈ r.input.tokens ∧ t.kind ∈ ks := by
  refine tokens.bind fun input hinput => ?_
  subst hinput
  refine position.bind fun pos _ => ?_
  dsimp only
  split
  · rename_i t ht
    split
    · rename_i hk
      refine moveTo.bind fun _ _ => .pure ?_
      rintro _ ⟨⟩
      exact ⟨Array.mem_of_getElem? ht, hk⟩
    · exact .pure nofun
  · exact .pure nofun

theorem acceptNext {k : Kind} : Ensures r (acceptNext k) fun _ => True := by
  refine current.bind fun t _ => ?_
  split
  · refine position.bind fun _ _ => ?_
    exact moveTo.bind fun _ _ => .pure trivial
  · exact .pure trivial

theorem ahead {lines : Bool} {ks : List Kind} : Ensures r (ahead lines ks) fun _ => True :=
  tokens.bind fun _ _ => position.bind fun _ _ => .pure trivial

theorem atLineEnd : Ensures r atLineEnd fun _ => True := by
  refine tokens.bind fun input _ => position.bind fun pos _ => ?_
  split <;> exact .pure trivial

theorem endLine : Ensures r endLine fun _ => True := by
  refine tokens.bind fun input _ => position.bind fun pos _ => ?_
  refine moveTo.bind fun _ _ => ?_
  split
  · split
    · exact moveTo
    · exact .reject
  · exact .pure trivial

theorem lineStart : Ensures r lineStart fun _ => True := by
  refine tokens.bind fun input hinput => ?_
  subst hinput
  refine position.bind fun pos _ => ?_
  refine moveTo.bind fun _ _ => ?_
  split
  · rename_i t ht
    split
    · rename_i hk
      rw [(r.lexed t (Array.mem_of_getElem? ht)).ofText_indent hk]
      exact .pure trivial
    · exact .pure trivial
  · exact .pure trivial

theorem lineIndent : Ensures r lineIndent fun _ => True :=
  lineStart.bind fun _ _ => .pure trivial

theorem acceptAtIndent {indent : Indent} {k : Kind} :
    Ensures r (acceptAtIndent indent k) fun _ => True := by
  refine position.bind fun start _ => lineIndent.bind fun i _ => ?_
  split
  · refine accept.bind fun found _ => ?_
    cases found with
    | some t => exact .pure trivial
    | none => exact moveTo.bind fun _ _ => .pure trivial
  · exact moveTo.bind fun _ _ => .pure trivial

theorem entry_of_le {a b : Arena Node} (h : a ≤ b) {n : Node} {i : Nat}
    (hn : a.toList[i]? = some n) : b.toList[i]? = some n := by
  obtain ⟨rest, hrest⟩ := h
  obtain ⟨hi, -⟩ := List.getElem?_eq_some_iff.mp hn
  rw [← hrest, List.getElem?_append_left hi, hn]

theorem allocate [ToNode α] {span : Span} {build : Mark → α} {Q : α → Prop}
    (h : ∀ i, r.arena.toList[i]? = some (ToNode.toNode (build ⟨span, i⟩)) → Q (build ⟨span, i⟩)) :
    Ensures r (allocate span build) Q := by
  intro s hle
  refine h s.arena.size (entry_of_le hle ?_)
  simp [← Arena.length_toList]

theorem make [ToNode α] {start : Nat} {build : Mark → α} {Q : α → Prop}
    (h : ∀ m, r.arena.toList[m.index]? = some (ToNode.toNode (build m)) → Q (build m)) :
    Ensures r (make start build) Q := by
  refine tokens.bind fun _ _ => position.bind fun _ _ => ?_
  exact allocate fun i hi => h ⟨_, i⟩ hi

theorem attempt {p : Parser α} {P : α → Prop} (hp : Ensures r p P) :
    Ensures r (attempt p) fun o => ∀ a, o = some a → P a := by
  intro s
  have hps := hp s
  unfold Parser.attempt
  dsimp only
  cases h : p.run r.input s with
  | ok a s' =>
    rw [h] at hps
    rintro hle _ ⟨⟩
    exact hps hle
  | error f s' =>
    rw [h] at hps
    cases f <;> first | exact hps | exact fun _ _ => nofun

theorem iterate {step : σ → Parser (σ ⊕ α)} {I : σ → Prop} {Q : α → Prop}
    (hstep : ∀ s, I s → Ensures r (step s) (Sum.elim I Q)) {n : Nat} {s : σ} (hs : I s) :
    Ensures r (iterate step n s) Q := by
  induction n generalizing s with
  | zero => exact exhausted
  | succ n ih =>
    refine (hstep s hs).bind fun x hx => ?_
    cases x with
    | inl s' => exact ih hx
    | inr a => exact .pure hx

theorem repeating {step : σ → Parser (σ ⊕ α)} {s : σ} (I : σ → Prop) {Q : α → Prop} (hs : I s)
    (hstep : ∀ s, I s → Ensures r (step s) (Sum.elim I Q)) : Ensures r (repeating step s) Q :=
  tokens.bind fun _ _ => iterate hstep hs

theorem foldWhile {step : σ → Parser (Option σ)} {s : σ} (I : σ → Prop) (hs : I s)
    (hstep : ∀ s, I s → Ensures r (step s) fun o => ∀ s', o = some s' → I s') :
    Ensures r (foldWhile step s) I := by
  refine repeating I hs fun s hs => (hstep s hs).bind fun o ho => ?_
  cases o with
  | some s' => exact .pure (ho s' rfl)
  | none => exact .pure hs

theorem many {next : Parser (Option α)} {P : α → Prop}
    (h : Ensures r next fun o => ∀ a, o = some a → P a) : Ensures r (many next) fun as => ∀ a ∈ as, P a := by
  refine (foldWhile (fun found => ∀ a ∈ found, P a) (by simp) fun found hfound => ?_).bind
    fun found hfound => ?_
  · refine h.bind fun o ho => .pure ?_
    intro found' hfound' a ha
    obtain ⟨a', rfl, rfl⟩ := Option.map_eq_some_iff.mp hfound'
    rcases List.mem_cons.mp ha with rfl | ha
    · exact ho a rfl
    · exact hfound a ha
  · exact .pure fun a ha => hfound a (List.mem_reverse.mp ha)

theorem afterEach {lines : Bool} {separator : Kind} {item : Parser α} {P : α → Prop}
    (h : Ensures r item P) :
    Ensures r (afterEach lines separator item) fun as => ∀ a ∈ as, P a := by
  refine many (accept.bind fun found _ => ?_)
  cases found with
  | none => exact .pure nofun
  | some t => exact h.found

theorem untilClose {close : Kind} {started : Bool} {item : σ → Parser σ} {s : σ} (I : σ → Prop)
    (hs : I s) (hitem : ∀ s, I s → Ensures r (item s) I) :
    Ensures r (untilClose close started item s) I := by
  refine (foldWhile (fun x => I x.2) hs fun x hx => ?_).bind fun x hx => .pure hx
  obtain ⟨started, s⟩ := x
  refine acceptNext.bind fun found _ => ?_
  cases found with
  | some t => exact .pure nofun
  | none =>
    have hnext : Ensures r (do return some (true, ← item s)) fun o => ∀ x, o = some x → I x.2 := by
      refine (hitem s hx).bind fun s' hs' => .pure ?_
      rintro _ ⟨⟩
      exact hs'
    dsimp only
    split
    · exact expect.bind fun _ _ => hnext
    · exact hnext

theorem listUntil {close : Kind} {item : Parser α} {P : α → Prop} (h : Ensures r item P) :
    Ensures r (listUntil close item) fun as => ∀ a ∈ as, P a := by
  refine (untilClose (fun found => ∀ a ∈ found, P a) (by simp) fun found hfound => ?_).bind
    fun found hfound => .pure fun a ha => hfound a (List.mem_reverse.mp ha)
  refine h.bind fun a ha => .pure ?_
  intro b hb
  rcases List.mem_cons.mp hb with rfl | hb
  · exact ha
  · exact hfound b hb

end Ensures

end Parser

end Whiley
