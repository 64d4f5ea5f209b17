import Whiley.Proofs.Grammar.DeliversTypes

namespace Whiley

open Whiley.Parser Whiley.Grammar Piece

/-- The tokens of a printed type, wherever they stand, are read back up to the name after them. -/
theorem named_reads_printed {s : Scope} {t : TypeExpr} (hformed : t.Formed s)
    (hrefs : t.ReferencesApart) :
    ∃ tokens, lex (textOf t.pieces) = .ok tokens ∧
      ∀ (before rest : List Token) (name : Token) (arena : Arena Node) (depth : Nat),
        name.kind = .identifier → depthFor (before ++ tokens ++ name :: rest).length ≤ depth →
          ∃ t' i arena', ((TypeParsers.ofDepth depth).named s).run
              (.ofTokens (before ++ tokens ++ name :: rest)) ⟨before.length, arena⟩ =
                .ok (t', i) ⟨before.length + tokens.length + 1, arena'⟩ ∧
            t.Same t' ∧ i.text = name.text := by
  obtain ⟨text, ps, hpieces, -⟩ := TypeExpr.Formed.within_begins hformed 0 false
  have hspaced : Spaced none t.pieces :=
    TypeExpr.within_spaced (TypeExpr.Formed.spaced t hformed hrefs) stops_none
  rw [TypeExpr.pieces, hpieces] at hspaced
  obtain ⟨tokens, htokens, hfaces⟩ := lex_pieces hspaced
  rw [← hpieces] at htokens hfaces
  refine ⟨tokens, htokens, fun before rest name arena depth hname hdepth => ?_⟩
  let input := Input.ofTokens (before ++ tokens ++ name :: rest)
  have hsize : input.tokens.size = (before ++ tokens ++ name :: rest).length := by
    simp [input, Input.ofTokens]
  have hroom : input.tokens.size < input.allowance := by
    simp [input, Input.ofTokens]
  have htype : input.Shows before.length (faces t.pieces) (before.length + tokens.length) := by
    rw [TypeExpr.pieces, ← hfaces]
    exact Input.shows_ofTokens
  have hat : input.At (before.length + tokens.length) (.word .identifier name.text) := by
    have hshows : (Input.ofTokens ((before ++ tokens) ++ [name] ++ rest)).Shows _ _ _ :=
      Input.shows_ofTokens
    rw [List.append_assoc, List.singleton_append, List.length_append, List.map_singleton,
      Token.face_solid hname rfl] at hshows
    exact hshows.1
  have hread : Delivers input before.length ((TypeParsers.ofDepth depth).named s)
      (before.length + tokens.length + 1) fun x => t.Same x.1 ∧ name.text = x.2.text := by
    refine TypeExpr.named_delivers hroom hformed (TypeExpr.Formed.readsBack hroom t hformed) ?_
      htype hat
    unfold depthFor at hdepth
    omega
  obtain ⟨⟨t', i⟩, arena', hrun, hsame, htext⟩ := hread arena
  exact ⟨t', i, arena', hrun, hsame, htext.symm⟩

def borrower : TypeExpr :=
  let name (text : String) : Identifier := ⟨default, text⟩
  .intersection default
    [.negation default (.method default
      [.reference default (.nominal default ⟨default, [name "T"]⟩) (some (name "l"))]
      [.primitive default "bool"] [name "this"] [name "l"]),
    .array default (.union default
      [.reference default (.primitive default "int") (some (name "a")), .primitive default "null"])]

def lending : Scope :=
  { Scope.root with lifetimes := ["a"] }

theorem named_reads_printed_borrower :
    borrower.Formed lending ∧ borrower.ReferencesApart ∧
      ∃ tokens, lex "!(method[this]<l>(&l:T)->(bool)) & (&a:int | null)[]" = .ok tokens ∧
        ∀ (before rest : List Token) (name : Token) (arena : Arena Node) (depth : Nat),
          name.kind = .identifier → depthFor (before ++ tokens ++ name :: rest).length ≤ depth →
            ∃ t' i arena', ((TypeParsers.ofDepth depth).named lending).run
                (.ofTokens (before ++ tokens ++ name :: rest)) ⟨before.length, arena⟩ =
                  .ok (t', i) ⟨before.length + tokens.length + 1, arena'⟩ ∧
              borrower.Same t' ∧ i.text = name.text := by
  have hword (c : Char) (hc : Lexer.isWordStart c)
      (hk : Kind.ofWord (String.ofList [c]) = .identifier) : Kind.identifier.Spelled [c] :=
    ⟨⟨c, [], rfl, hc, nofun⟩, hk⟩
  have hl := hword 'l' (by decide) (by decide +kernel)
  have hnamed : ∀ name ∈ ["bool", "int", "null"],
      name ∈ ["void", "any", "null", "bool", "byte", "int"] := by decide
  have hformed : borrower.Formed lending := by
    refine ⟨Nat.le_refl 2, ⟨?captures, ?declares, ⟨?borrowed, trivial⟩, ⟨hnamed _ (by decide), trivial⟩⟩,
      ⟨Nat.le_refl 2, ?lent, hnamed _ (by decide), trivial⟩, trivial⟩
    case captures => exact List.forall_mem_singleton.mpr (.inr (.inl rfl))
    case declares => exact ⟨hl, by decide +kernel, trivial⟩
    case borrowed =>
      refine ⟨?_, List.cons_ne_nil _ _, List.forall_mem_singleton.mpr ?_⟩
      · rintro _ ⟨⟩
        exact ⟨.inl hl, by decide +kernel⟩
      · exact hword 'T' (by decide) (by decide +kernel)
    case lent =>
      refine ⟨?_, hnamed _ (by decide)⟩
      rintro _ ⟨⟩
      exact ⟨.inl (hword 'a' (by decide) (by decide +kernel)), by decide +kernel⟩
  have htext : textOf borrower.pieces = "!(method[this]<l>(&l:T)->(bool)) & (&a:int | null)[]" := by
    decide +kernel
  have hrefs : borrower.ReferencesApart := by
    simp [borrower, TypeExpr.ReferencesApart, TypeExpr.AllReferencesApart]
  exact ⟨hformed, hrefs, htext ▸ named_reads_printed hformed hrefs⟩

end Whiley
