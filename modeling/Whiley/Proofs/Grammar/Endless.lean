import Whiley.Proofs.Grammar.DeliversDecls
import Whiley.Proofs.Grammar.Termination

namespace Whiley

open Whiley.Parser Whiley.Grammar

namespace Parser

variable {α β σ : Type} {input : Input} {i m : Nat} {P : α → Prop}

theorem Delivers.bare {p : Parser α} (h : Delivers input i (p >>= Pure.pure) m P) :
    Delivers input i p m P := by
  intro arena
  obtain ⟨a, arena', hrun, ha⟩ := h arena
  obtain ⟨b, t, hp, hb⟩ := bind_ok hrun
  obtain ⟨rfl, rfl⟩ := pure_ok hb
  exact ⟨b, arena', hp, ha⟩

/-- Started at `i`, it meets its bounds, whatever was stored. -/
def Exhausts (input : Input) (i : Nat) (p : Parser α) : Prop :=
  ∀ arena, ∃ s, p.run input ⟨i, arena⟩ = .error .exhausted s

namespace Exhausts

theorem fail : Exhausts input i (Parser.fail .exhausted : Parser α) :=
  fun _ => ⟨_, rfl⟩

theorem bind {p : Parser α} {f : α → Parser β} (hp : Exhausts input i p) :
    Exhausts input i (p >>= f) := by
  intro arena
  obtain ⟨s, hs⟩ := hp arena
  exact ⟨s, by rw [run_bind, hs]⟩

theorem after {p : Parser α} {f : α → Parser β} (hp : Delivers input i p m P)
    (hf : ∀ a, P a → Exhausts input m (f a)) : Exhausts input i (p >>= f) := by
  intro arena
  obtain ⟨a, arena', hrun, ha⟩ := hp arena
  obtain ⟨s, hs⟩ := hf a ha arena'
  exact ⟨s, (run_bind_ok hrun).trans hs⟩

theorem settled {k : Kind} {f : Nat → Parser β} (hi : input.Meets i k) (hk : k.isSpace = false)
    (h : Exhausts input i (f i)) : Exhausts input i (settle >>= f) :=
  .after (Delivers.settled hi hk (.pure rfl)).bare fun _ ha => ha ▸ h

theorem iterate {step : σ → Parser (σ ⊕ β)}
    (hthere : ∀ s, Delivers input i (step s) m fun x => ∃ s', x = .inl s')
    (hback : ∀ s, Delivers input m (step s) i fun x => ∃ s', x = .inl s') (rounds : Nat) (s : σ) :
    Exhausts input i (iterate step rounds s) ∧ Exhausts input m (iterate step rounds s) := by
  induction rounds generalizing s with
  | zero => exact ⟨fail, fail⟩
  | succ rounds ih =>
    constructor
    · refine after (hthere s) fun x hx => ?_
      obtain ⟨s', rfl⟩ := hx
      exact (ih s').2
    · refine after (hback s) fun x hx => ?_
      obtain ⟨s', rfl⟩ := hx
      exact (ih s').1

theorem foldWhile {step : σ → Parser (Option σ)}
    (hthere : ∀ s, Delivers input i (step s) m fun o => ∃ s', o = some s')
    (hback : ∀ s, Delivers input m (step s) i fun o => ∃ s', o = some s') (s : σ) :
    Exhausts input i (foldWhile step s) := by
  have hround {a b : Nat} (h : ∀ s, Delivers input a (step s) b fun o => ∃ s', o = some s') (s : σ) :
      Delivers input a (folding step s) b fun x => ∃ s', x = .inl s' := by
    refine (h s).bind fun o ho => ?_
    obtain ⟨s', rfl⟩ := ho
    exact .pure ⟨s', rfl⟩
  rw [foldWhile_eq]
  exact (iterate (hround hthere) (hround hback) input.allowance s).1

theorem round {step : σ → Parser (Option σ)} {s : σ} (h : Exhausts input i (step s)) :
    Exhausts input i (Parser.foldWhile step s) := by
  have hiterate (rounds : Nat) : Exhausts input i (Parser.iterate (folding step) rounds s) := by
    cases rounds with
    | zero => exact fail
    | succ rounds => exact bind (bind h)
  rw [foldWhile_eq]
  exact hiterate input.allowance

end Exhausts

end Parser

namespace Grammar.ExprParsers

variable {input : Input} {i : Nat} {a b dot colons : String} {s : Scope} {lines : Bool}
  (hroom : input.tokens.size < input.allowance)
  (ha : input.At i (.word .identifier a)) (hdot : input.At (i + 1) (.word .dot dot))
  (hb : input.At (i + 2) (.word .identifier b)) (hcolons : input.At (i + 3) (.word .colonColon colons))

theorem plainName_ends (start : Nat) (x : Identifier) :
    Delivers input i (plainName s start x) i fun _ => True := by
  unfold plainName
  split
  · exact .make fun _ => trivial
  · split
    · exact .bind (P := fun _ => True) (.allocate fun _ => trivial) fun _ _ =>
        .bind (P := fun _ => True) (.make fun _ => trivial) fun _ _ => .make fun _ => trivial
    · exact .bind (P := fun _ => True) (.allocate fun _ => trivial) fun _ _ =>
        .make fun _ => trivial

include ha hdot in
theorem term_ends (g : ExprParsers) :
    Delivers input i (g.term s lines) (i + 1) fun _ => True := by
  refine .showing ha rfl fun t ht _ => .here ?_
  rw [ht]
  refine .here ((identifier_delivers ha).bind fun x _ => ?_)
  refine .declining hdot.meets (Input.skips_of_solid rfl) (by decide) ?_
  refine .overlooking hdot.meets (Input.skips_of_solid rfl) (by decide) ?_
  refine .overlooking hdot.meets (Input.skips_of_solid rfl) (by decide) ?_
  exact .overlooking hdot.meets (Input.skips_of_solid rfl) (by decide) (plainName_ends _ _)

include hdot hb hcolons in
theorem field_read (g : ExprParsers) (start : Nat) (source : Expr) :
    Delivers input (i + 1) (g.accessStep s lines start source) (i + 3) fun o => ∃ e, o = some e := by
  refine .declining hdot.meets rfl (by decide) (.accepting hdot (by decide) rfl fun t ht _ => ?_)
  dsimp only
  rw [if_neg (by rw [ht]; decide), if_neg (by rw [ht]; decide)]
  refine Delivers.bind (P := fun _ => True) ((identifier_delivers hb).bind fun x _ => ?_)
    fun e _ => .pure ⟨e, rfl⟩
  refine Delivers.bind (P := fun _ => True) (.make fun _ => trivial) fun e _ => ?_
  refine .declining hcolons.meets (Input.skips_of_solid rfl) (by decide) ?_
  exact .overlooking hcolons.meets (Input.skips_of_solid rfl) (by decide) (.pure trivial)

include hroom ha hdot hcolons in
theorem name_read_again (g : ExprParsers) (source : Expr) :
    Delivers input (i + 3) (g.accessStep s lines i source) (i + 1) fun o => ∃ e, o = some e := by
  refine .declining hcolons.meets rfl (by decide)
    (.accepting hcolons (by decide) rfl fun t ht _ => ?_)
  dsimp only
  rw [if_pos ht]
  refine .moved (Delivers.bind (P := fun _ => True) (.here ?_) fun e _ => .pure ⟨e, rfl⟩)
  refine (qualifiedName_single hroom ha hdot.meets rfl (by decide)).bind fun n _ => ?_
  exact .declining hdot.meets (Input.skips_of_solid rfl) (by decide) (.make fun _ => trivial)

include hroom ha hdot hb hcolons in
theorem levels_exhaust {types : TypeParsers} (depth : Nat) :
    ∀ level ≠ Level.term, Exhausts input i (levelAt types depth level s lines) := by
  -- Every level begins with a lower one at the same place; the lowest of them goes round for ever.
  induction depth with
  | zero => exact fun _ _ => .fail
  | succ depth ih =>
    have hright (operand self : Level) (ks : List Kind) (h : operand ≠ .term) : Exhausts input i
        (rightGrouped ⟨types, levelAt types depth⟩ operand self ks s lines) :=
      .settled ha.meets rfl (.bind (ih operand h))
    have hleft (operand : Level) (ks : List Kind) (h : operand ≠ .term) : Exhausts input i
        (leftGrouped ⟨types, levelAt types depth⟩ operand ks s lines) :=
      .settled ha.meets rfl (.bind (ih operand h))
    intro level hlevel
    cases level with
    | logical => exact hright _ _ _ (by decide)
    | connective => exact hright _ _ _ (by decide)
    | bitOr => exact hright _ _ _ (by decide)
    | bitXor => exact hright _ _ _ (by decide)
    | bitAnd => exact hright _ _ _ (by decide)
    | condition =>
      have hnone : Delivers input i (accept lines [.kwSome, .kwAll]) i (· = none) :=
        .bare (.declining ha.meets (Input.skips_of_solid rfl) (by decide) (.pure rfl))
      refine .settled ha.meets rfl (.after hnone fun o ho => ?_)
      rw [ho]
      exact .bind (ih .shift (by decide))
    | shift => exact hleft _ _ (by decide)
    | additive => exact hleft _ _ (by decide)
    | multiplicative => exact hleft _ _ (by decide)
    | access =>
      refine .settled ha.meets rfl ?_
      cases depth with
      | zero => exact .bind .fail
      | succ depth =>
        refine .after (term_ends ha hdot _) fun e _ => ?_
        exact .foldWhile (field_read hdot hb hcolons _ i) (name_read_again hroom ha hdot hcolons _) e
    | term => exact absurd rfl hlevel

end Grammar.ExprParsers

namespace Grammar

variable {input : Input} {x a b : String}
  (hroom : input.tokens.size < input.allowance)
  (hconstant : input.At 0 (.word .identifier "constant")) (hname : input.At 1 (.word .identifier x))
  (his : input.At 2 (.word .kwIs "is")) (ha : input.At 3 (.word .identifier a))
  (hdot : input.At 4 (.word .dot ".")) (hb : input.At 5 (.word .identifier b))
  (hcolons : input.At 6 (.word .colonColon "::"))

include hroom hconstant hname his ha hdot hb hcolons

theorem declaration_exhausts (depth : Nat) :
    Exhausts input 0 (DeclParsers.declaration (ofDepth depth)) := by
  have hcurrent : Delivers input 0 current 0 fun t => t.kind = .identifier ∧ t.text = "constant" :=
    .bare (.showing hconstant rfl fun t ht htext => .pure ⟨ht, htext⟩)
  have hmodifiers : Delivers input 0 DeclParsers.modifiers 0 fun _ => True :=
    .bind (P := (· = (false, []))) (.foldNone hroom (.declining hconstant.meets rfl (by decide)
      (.pure rfl))) fun _ _ => .pure trivial
  have hkeyword : Delivers input 0 advance 1 fun _ => True :=
    .bare (.advancing hconstant rfl fun _ _ _ => .pure trivial)
  have his' : Delivers input 2 (expect .kwIs) 3 fun _ => True :=
    .bare (.expecting his rfl fun _ _ _ => .pure trivial)
  refine .settled hconstant.meets rfl (.after hcurrent fun t ht => ?_)
  rw [if_neg (by simp [ht])]
  refine .after hmodifiers fun ms _ => .after hcurrent fun t ht => ?_
  rw [if_neg (by simp [ht]), if_pos ht]
  refine .after hkeyword fun _ _ => .after (identifier_delivers hname) fun _ _ => ?_
  refine .after his' fun _ _ => .bind ?_
  exact ExprParsers.levels_exhaust hroom ha hdot hb hcolons depth .logical (by decide)

theorem module_exhausts (depth : Nat) : Exhausts input 0 (module (ofDepth depth)) := by
  have hpackage : Delivers input 0 package 0 fun _ => True :=
    .declining hconstant.meets rfl (by decide) (.pure trivial)
  refine .after hpackage fun _ _ => .bind (.bind (.round (.bind ?_)))
  refine .after (Delivers.moreTokens hconstant.meets rfl) fun more hmore => ?_
  rw [hmore, if_pos rfl]
  exact .bind (declaration_exhausts hroom hconstant hname his ha hdot hb hcolons depth)

end Grammar

/-- A constant whose value goes on with `::` behind a field is never parsed to an end, within whatever
bounds and whatever comes after it. -/
theorem parse_endless {ts : List Token} {x a b : String}
    (hts : ts.map Token.face = [.word .identifier "constant", .word .identifier x, .word .kwIs "is",
      .word .identifier a, .word .dot ".", .word .identifier b, .word .colonColon "::"])
    (rest : List Token) {rounds : Nat} (hrounds : (ts ++ rest).length < rounds) (depth : Nat) :
    parseWithin rounds depth (ts ++ rest) = .error .exhausted := by
  have hshows := @Input.shows_ofTokens [] ts rest
  rw [hts] at hshows
  obtain ⟨hconstant, hname, his, ha, hdot, hb, hcolons, -⟩ := hshows
  let input : Input := ⟨(ts ++ rest).toArray, rounds⟩
  have hroom : input.tokens.size < input.allowance := by simpa [input] using hrounds
  obtain ⟨s, hs⟩ := module_exhausts hroom hconstant hname his ha hdot hb hcolons depth .empty
  rw [parseWithin, hs]

/-- `constant A is a.b::c`. -/
example : ((lex "constant A is a.b::c\n").map fun tokens => (tokens.take 7).map Token.face) =
    .ok [.word .identifier "constant", .word .identifier "A", .word .kwIs "is",
      .word .identifier "a", .word .dot ".", .word .identifier "b", .word .colonColon "::"] := by
  decide +kernel

end Whiley
