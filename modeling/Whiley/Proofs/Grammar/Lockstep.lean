import Whiley.Proofs.Grammar.Simulation

namespace Whiley

namespace Input

def map (g : Token → Token) (input : Input) : Input :=
  ⟨input.tokens.map g, input.allowance⟩

theorem ofTokens_map (g : Token → Token) (ts : List Token) :
    ofTokens (ts.map g) = (ofTokens ts).map g := by
  simp [ofTokens, map]

section Map

variable {g : Token → Token} {input : Input}

theorem getElem?_map (i : Nat) : (input.map g).tokens[i]? = input.tokens[i]?.map g :=
  Array.getElem?_map

theorem map_id : input.map id = input := by
  simp [map]

theorem size_map : (input.map g).tokens.size = input.tokens.size :=
  Array.size_map

variable (hkind : ∀ t, (g t).kind = t.kind)

include hkind

theorem skipFrom_map (lines : Bool) (fuel i : Nat) :
    (input.map g).skipFrom lines fuel i = input.skipFrom lines fuel i := by
  induction fuel generalizing i with
  | zero => rfl
  | succ fuel ih =>
    rw [skipFrom, skipFrom, getElem?_map]
    cases input.tokens[i]? with
    | none => rfl
    | some t => simp only [Option.map_some, hkind, ih]

theorem skip_map (lines : Bool) (i : Nat) : (input.map g).skip lines i = input.skip lines i := by
  rw [skip, skip, size_map, skipFrom_map hkind]

theorem skipLinesFrom_map (fuel i : Nat) :
    (input.map g).skipLinesFrom fuel i = input.skipLinesFrom fuel i := by
  induction fuel generalizing i with
  | zero => rfl
  | succ fuel ih =>
    rw [skipLinesFrom, skipLinesFrom, skip_map hkind, getElem?_map]
    cases input.tokens[input.skip false i]? with
    | none => rfl
    | some t => simp only [Option.map_some, hkind, ih]

theorem skipLines_map (i : Nat) : (input.map g).skipLines i = input.skipLines i := by
  rw [skipLines, skipLines, size_map, skipLinesFrom_map hkind]

theorem trimEnd_map (i : Nat) : (input.map g).trimEnd i = input.trimEnd i := by
  induction i with
  | zero => rfl
  | succ i ih =>
    rw [trimEnd, trimEnd, getElem?_map]
    cases input.tokens[i]? with
    | none => exact ih
    | some t => simp only [Option.map_some, hkind, ih]

variable (hspan : ∀ t, (g t).span = t.span)

include hspan

theorem span_map (i j : Nat) : (input.map g).span i j = input.span i j := by
  have hstart : ∀ i, (input.map g).startAt i = input.startAt i := by
    intro i
    rw [startAt, startAt, getElem?_map, Option.map_map]
    exact congrArg (Option.getD · 0) (Option.map_congr fun t _ => congrArg Span.start (hspan t))
  have hstop : ∀ i, (input.map g).stopBefore i = input.stopBefore i := by
    intro i
    cases i with
    | zero => rfl
    | succ i =>
      rw [stopBefore, stopBefore, getElem?_map, Option.map_map]
      exact congrArg (Option.getD · 0) (Option.map_congr fun t _ => congrArg Span.stop (hspan t))
  simp only [span, skip_map hkind, trimEnd_map hkind, hstart, hstop]

omit hkind

theorem lastSpan_map : (input.map g).lastSpan = input.lastSpan := by
  have hlast : (input.map g).tokens.back? = input.tokens.back?.map g := Array.back?_map
  rw [lastSpan, lastSpan, hlast, Option.map_map]
  exact congrArg (Option.getD · ⟨0, 0⟩) (Option.map_congr fun t _ => hspan t)

end Map

end Input

/--
A stream beside itself with other tokens: the places that answer each other are the same. What the
arenas hold may differ, as `sizes` says.
-/
def Simulation.lockstep (input : Input) (g : Token → Token) (f f' : Relabelling)
    (sizes : Nat → Nat → Prop) (hkind : ∀ t, (g t).kind = t.kind) (hspan : ∀ t, (g t).span = t.span)
    (hspans : f.span = f'.span) (halike : ∀ t ∈ input.tokens, Token.Alike f f' t (g t))
    (hindex : ∀ m n, sizes m n → f.index m = f'.index n)
    (hsucc : ∀ m n, sizes m n → sizes (m + 1) (n + 1)) : Simulation where
  left := input
  right := input.map g
  lhs := f
  rhs := f'
  within := Eq
  anywhere := Eq
  sizes := sizes
  uneven := False
  anywhere_of_within := id
  allowance := .inl rfl
  index := hindex _ _
  sizes_succ := hsucc _ _
  span hp hq := by rw [hp, hq, hspans, Input.span_map hkind hspan]
  last := by rw [hspans, Input.lastSpan_map hspan]
  whole := by rw [hspans, Input.lastSpan_map hspan]
  skip lines {p q} h := by
    have hpq : p = q := by
      cases lines <;> exact h
    subst hpq
    rw [Input.skip_map hkind, Input.getElem?_map]
    refine ⟨rfl, ?_⟩
    cases ht : input.tokens[input.skip lines p]? with
    | none => exact .none
    | some t => exact .some (halike t (Array.mem_of_getElem? ht))
  step h _ _ _ _ := congrArg Nat.succ h
  newline h _ _ _ _ := congrArg Nat.succ h
  lines {p q} h := by
    subst h
    rw [Input.skipLines_map hkind]
    refine ⟨rfl, ?_⟩
    rw [Input.indentAt, Input.indentAt, Input.getElem?_map]
    cases ht : input.tokens[input.skipLines p]? with
    | none => exact .none
    | some t =>
      by_cases hk : t.kind = .indent
      · have htext := (halike t (Array.mem_of_getElem? ht)).text (by simp [hk]) (by simp [hk])
        simp [Option.filter, hk, hkind, hspan, hspans, htext]
      · simp [Option.filter, hk, hkind]

end Whiley
