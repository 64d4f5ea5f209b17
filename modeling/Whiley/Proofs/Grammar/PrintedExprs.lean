import Whiley.Proofs.Grammar.DeliversDecls

namespace Whiley

open Lexer Whiley.Parser Whiley.Grammar Piece

/-- The text of a function that returns what is written in the last line. -/
def returning (name : Identifier) (parameters returns : List Variable) (ps : Pieces) : String :=
  textOf (functionHeader name parameters returns) ++ "\n    " ++
    textOf (.word "return" :: .blank :: ps) ++ "\n"

section Text

variable {s : Scope} {name : Identifier} {parameters returns vs : List Variable} {e : Expr}
  {ps : Pieces}

theorem Scope.Introduces.spaced (h : s.Introduces vs) : Spaced (some ')') (Variable.list vs) := by
  have hparts : ∀ ps ∈ vs.map (·.pieces), Begins TypeExpr.allHeads ps ∧
      ∀ next, Stops next → Spaced next ps := by
    intro ps hps
    obtain ⟨v, hv, rfl⟩ := List.mem_map.mp hps
    obtain ⟨⟨s, htype⟩, hrefs, hname⟩ := h.formed v hv
    exact htype.named_spaced (TypeExpr.Formed.spaced v.type htype hrefs) hname
  exact spaced_commas hparts (stops_some (by decide))

theorem returnPieces_spaced (h : s.Introduces vs) :
    Spaced (some '\n') (returnPieces vs ++ [.word ":"]) := by
  have hcolon : Spaced (some '\n') [.word ":"] :=
    ⟨ends_symbol (k := .colon) (by decide) (by rintro c ⟨⟩; decide +kernel), trivial⟩
  by_cases hvs : vs = []
  · subst hvs
    exact hcolon
  · rw [returnPieces_eq hvs fun v hv => (h.formed v hv).2.2]
    have hlist : Spaced (some '\n') (.blank :: (brackets (Variable.list vs) ++ [.word ":"])) :=
      spaced_blank begins_brackets.append (spaced_append.mpr ⟨spaced_brackets h.spaced, hcolon⟩)
    exact spaced_blank (begins_fixed (k := .arrow) (by decide) (by decide : _ ∈ [Kind.arrow]))
      ⟨ends_final (k := .arrow) (by decide +kernel), hlist⟩

theorem functionHeader_spaced (hname : name.IsWord) (hparameters : s.Introduces parameters)
    (hreturns : (s.addVariables parameters).Introduces returns) :
    Spaced (some '\n') (functionHeader name parameters returns) := by
  have hlists : Spaced (some '\n') (name.piece ::
      (brackets (Variable.list parameters) ++ (returnPieces returns ++ [.word ":"]))) :=
    ⟨ends_name hname (stops_some (c := '(') (by decide)),
      spaced_append.mpr ⟨spaced_brackets hparameters.spaced, returnPieces_spaced hreturns⟩⟩
  have hnamed := spaced_blank (begins_name hname) hlists
  rw [functionHeader, List.append_assoc]
  exact ⟨ends_keyword (k := .kwFunction) (by decide) (stops_some (c := ' ') (by decide)), hnamed⟩

theorem lex_returning (hname : name.IsWord) (hvariables : Scope.root.Introduces (parameters ++ returns))
    (hps : Fluent ps) :
    ∃ tokens, lex (returning name parameters returns ps) = .ok tokens ∧
      tokens.map Token.face = faces (functionHeader name parameters returns) ++ .lineEnd ::
        .indent (.ok ⟨4, 0⟩) :: (.word .kwReturn "return" :: faces ps ++ [.lineEnd]) := by
  obtain ⟨hparameters, hreturns⟩ := Scope.introduces_append.mp hvariables
  have hreturn : Spaced (some '\n') (.word "return" :: .blank :: ps) :=
    ⟨ends_keyword (k := .kwReturn) (by decide) (stops_some (c := ' ') (by decide)),
      spaced_blank hps.begins (hps.spaced _ (stops_some (by decide)))⟩
  have hline : Lexes false ((textOf (.word "return" :: .blank :: ps)).toList ++ ['\n'])
      (.word .kwReturn "return" :: faces ps ++ [.lineEnd]) := by
    have hlexes : Lexes false (_ ++ ['\n']) _ := lexes_pieces hreturn (lexes_lineEnd lexes_nil)
    simpa only [faces, Kind.ofText_marks] using hlexes
  have hblank : Piece.blank.Ends ((textOf (.word "return" :: .blank :: ps)).toList ++ ['\n']).head? := by
    rw [head?_textOf]
    exact ends_blank (begins_fixed (k := .kwReturn) (by decide) (by decide : _ ∈ [Kind.kwReturn]))
      hreturn
  have htext : (returning name parameters returns ps).toList =
      (textOf (functionHeader name parameters returns)).toList ++ '\n' ::
        (List.replicate 4 ' ' ++ ((textOf (.word "return" :: .blank :: ps)).toList ++ ['\n'])) := by
    simp [returning]
  change Lexes true (returning name parameters returns ps).toList _
  rw [htext]
  exact lexes_line (functionHeader_spaced hname hparameters hreturns)
    (lexes_lineEnd (lexes_margin (n := 3) hblank hline))

end Text

/--
What is printed for an operator expression is a text of it, and whichever of its texts a function
returns, it is read back as the expression.
-/
theorem returned_reads_written {name : Identifier} {parameters returns : List Variable} {e : Expr}
    (hname : name.IsWord) (hvariables : Scope.root.Introduces (parameters ++ returns))
    (he : e.Plain ((parameters ++ returns).map (·.name.text))) :
    e.Written e.pieces ∧ ∀ ps, e.Written ps →
      ∃ tokens m arena d, lex (returning name parameters returns ps) = .ok tokens ∧
        parse tokens = .ok (m, arena) ∧ m.declarations = [d] ∧
          d.IsFunction name parameters returns e := by
  refine ⟨he.written hvariables.spelled, fun ps hps => ?_⟩
  obtain ⟨tokens, htokens, hfaces⟩ := lex_returning hname hvariables (he.fluent hvariables.spelled hps)
  have hsize : (Input.ofTokens tokens).tokens.size = tokens.length := by simp [Input.ofTokens]
  have hroom : (Input.ofTokens tokens).tokens.size < (Input.ofTokens tokens).allowance := by
    simp [Input.ofTokens]
  have hshows : (Input.ofTokens ([] ++ tokens ++ [])).Shows 0 (tokens.map Token.face)
      (0 + tokens.length) := Input.shows_ofTokens
  rw [List.nil_append, List.append_nil, hfaces, Nat.zero_add] at hshows
  obtain ⟨h, hheader, hline, hmargin, hreturn, hbody⟩ := Input.shows_append.mp hshows
  obtain ⟨n, hvalue, hend, hlast⟩ := Input.shows_append.mp hbody
  have hindent : Indent.root < ⟨4, 0⟩ := by decide
  have hdepth : 12 * (Input.ofTokens tokens).tokens.size + 12 ≤ depthFor tokens.length := by
    unfold depthFor
    omega
  obtain ⟨m, arena, hrun, d, hd, hfunction⟩ := module_delivers hroom hvariables he hps hindent hdepth
    hline hmargin hreturn hvalue hend (hsize.trans hlast.symm) hname hheader .empty
  refine ⟨tokens, m, arena, d, htokens, ?_, hd, hfunction⟩
  rw [parse, parseInto, hrun]

namespace Guard

def named (text : String) : Identifier :=
  ⟨default, text⟩

def of (text type : String) : Variable :=
  ⟨default, named text, .primitive default type⟩

def x : Expr := .variableAccess default (named "x") none

def y : Expr := .variableAccess default (named "y") none

/-- A comparison, with a sum in brackets. -/
def below : Expr :=
  .unary default .not (.binary default
    (.binary default (.binary default x "+" (.intLit default 1)) "*" y) "<"
      (.staticAccess default ⟨default, [named "K"]⟩))

def found : Expr :=
  .binary default
    (.recordAccess default (.invoke default ⟨default, [named "g"]⟩ none [x]) (named "n")) "=="
      (.arrayInitialiser default [.unary default .complement y])

def both : Expr := .binary default below "&&" found

end Guard

theorem returned_reads_written_both :
    (Guard.named "f").IsWord ∧
      Scope.root.Introduces [Guard.of "x" "int", Guard.of "y" "int", Guard.of "r" "bool"] ∧
      Guard.both.Plain ["x", "y", "r"] ∧
      textOf Guard.both.pieces = "!(x + 1) * y < K && g(x).n == [~y]" ∧
      Guard.both.Written Guard.both.pieces ∧
      ∃ tokens m arena d,
        lex ("function f(int x, int y) -> (bool r):\n" ++
          "    return (!(x + 1) * y < K) && g(x).n == [~y]\n") = .ok tokens ∧
        parse tokens = .ok (m, arena) ∧ m.declarations = [d] ∧
          d.IsFunction (Guard.named "f") [Guard.of "x" "int", Guard.of "y" "int"]
            [Guard.of "r" "bool"] Guard.both := by
  have hword (c : Char) (hc : Lexer.isWordStart c)
      (hk : Kind.ofWord (String.ofList [c]) = .identifier) : Kind.identifier.Spelled [c] :=
    ⟨⟨c, [], rfl, hc, nofun⟩, hk⟩
  have hname : (Guard.named "f").IsWord := hword 'f' (by decide) (by decide +kernel)
  have hvariables :
      Scope.root.Introduces [Guard.of "x" "int", Guard.of "y" "int", Guard.of "r" "bool"] := by
    refine ⟨?_, trivial, hword 'x' (by decide) (by decide +kernel), by decide +kernel,
      ?_, trivial, hword 'y' (by decide) (by decide +kernel), by decide +kernel,
      ?_, trivial, hword 'r' (by decide) (by decide +kernel), by decide +kernel, trivial⟩ <;>
    · change _ ∈ ["void", "any", "null", "bool", "byte", "int"]
      decide
  have hbelow : Guard.below.Plain ["x", "y", "r"] := by
    refine ⟨⟨.less, by decide, rfl⟩, ⟨⟨.star, by decide, rfl⟩, ⟨⟨.plus, by decide, rfl⟩, ?_, ?_⟩, ?_⟩,
      ⟨_, rfl, hword 'K' (by decide) (by decide +kernel), by decide⟩⟩
    · exact List.mem_cons_self
    · exact Nat.one_lt_pow (by decide) (by decide)
    · exact .tail _ List.mem_cons_self
  have hfound : Guard.found.Plain ["x", "y", "r"] := by
    refine ⟨⟨.equal, by decide, rfl⟩, ⟨hword 'n' (by decide) (by decide +kernel),
      ⟨_, rfl, hword 'g' (by decide) (by decide +kernel), by decide⟩, rfl, ?_, trivial⟩, ?_, trivial⟩
    · exact List.mem_cons_self
    · exact .tail _ List.mem_cons_self
  have hboth : Guard.both.Plain ["x", "y", "r"] := ⟨⟨.logicalAnd, by decide, rfl⟩, hbelow, hfound⟩
  have hheader : Scope.root.Introduces
      ([Guard.of "x" "int", Guard.of "y" "int"] ++ [Guard.of "r" "bool"]) := hvariables
  obtain ⟨hprinted, hread⟩ := returned_reads_written hname hheader hboth
  obtain ⟨ps, hps, htext⟩ : ∃ ps, Guard.both.Written ps ∧
      returning (Guard.named "f") [Guard.of "x" "int", Guard.of "y" "int"] [Guard.of "r" "bool"] ps =
        "function f(int x, int y) -> (bool r):\n" ++
          "    return (!(x + 1) * y < K) && g(x).n == [~y]\n" := by
    have hleft := Expr.Plain.written_bare hvariables.spelled _ hbelow
    have hright := Expr.Plain.written_bare hvariables.spelled _ hfound
    exact ⟨_, .bare (.inl ⟨rfl, _, _, .more (Expr.WrittenWithin.printed hleft),
      Expr.WrittenWithin.printed hright, rfl⟩), by decide +kernel⟩
  exact ⟨hname, hvariables, hboth, by decide +kernel, hprinted, htext ▸ hread ps hps⟩

end Whiley
