import Whiley.Proofs.Grammar.Beside
import Whiley.Proofs.Grammar.DeliversDecls

namespace Whiley

open Whiley.Parser Whiley.Grammar Piece

def TypeExpr.IsNamed (text : String) (t : TypeExpr) : Prop :=
  ∃ mark name c, t = .nominal mark name ∧ name.components = [c] ∧ c.text = text

namespace Grammar

section Brackets

variable {input : Input} {i m depth bound : Nat} {s : Scope} {lines : Bool} {head : Kind}
  {text : String}

variable (hroom : input.tokens.size < input.allowance) (hfree : s.lookup text = none)
  (halias : s.isAlias text = false)

section Close

variable (hname : input.At i (.word .identifier text)) (hclose : input.Meets (i + 1) .rparen)

include hfree halias hname hclose

theorem name_before_close {g : ExprParsers} :
    Delivers input i (g.name s true) (i + 1) fun e => e.isForced = false := by
  refine .here ((identifier_delivers hname).bind fun x hx => ?_)
  refine .declining hclose rfl (by decide) (.overlooking hclose rfl (by decide) ?_)
  refine .looking hclose rfl (.overlooking hclose rfl (by decide) ?_)
  rw [ExprParsers.plainName, ← hx, hfree]
  dsimp only
  rw [halias]
  refine Delivers.bind (P := fun _ => True) (.allocate fun _ => trivial) fun n _ => ?_
  exact .make fun _ => rfl

include hroom

theorem constant_before_close {types : TypeParsers} (hdepth : 11 ≤ depth) :
    Delivers input i ((ExprParsers.ofDepth types depth).expression s true) (i + 1)
      fun e => e.isForced = false := by
  obtain ⟨depth, rfl⟩ := Nat.exists_eq_add_of_le' hdepth
  apply ExprParsers.expression_of_term hroom hname.meets rfl (by decide) (hclose.awaits rfl)
    (hclose.awaits rfl) rfl
  refine .showing hname rfl fun t ht _ => .here ?_
  rw [ht]
  exact name_before_close hfree halias hname hclose

end Close

variable (hopen : input.Meets i .lparen) (hname : input.At (i + 1) (.word .identifier text))
  (hclose : input.Meets (i + 2) .rparen)

include hroom hname hclose

theorem name_not_forced (hbound : 2 * input.tokens.size + 2 ≤ bound) :
    Delivers input (i + 1) (forcedType (.ofDepth bound) s) (i + 1) (· = none) := by
  obtain ⟨closing, hat⟩ := hclose.at (by decide) (by decide)
  have hturning : input.Turning (i + 3) (0 + 1) false (i + 1) :=
    ⟨[.word .identifier text, .word .rparen closing], ⟨hname, hat, rfl⟩,
      by decide, by decide, by decide, rfl, rfl⟩
  exact TypeParsers.forcedType_declines hroom hbound hturning

include hopen

theorem type_in_brackets (hbound : 4 ≤ bound) (hi : input.Meets (i + 3) head)
    (hhead : head.isSpace = false) (hother : head ∉ [Kind.lbracket, .ampersand, .bar]) :
    Delivers input i ((TypeParsers.ofDepth bound).type s) (i + 3) (TypeExpr.IsNamed text) := by
  obtain ⟨bound, rfl⟩ := Nat.exists_eq_add_of_le' hbound
  obtain ⟨opening, hopens⟩ := hopen.at (by decide) (by decide)
  obtain ⟨closing, hcloses⟩ := hclose.at (by decide) (by decide)
  have hinner : Delivers input (i + 1) ((TypeParsers.ofDepth (bound + 2)).type s) (i + 2)
      (TypeExpr.IsNamed text) := by
    apply TypeParsers.type_of_base hroom hname.meets rfl hclose rfl (by decide)
    refine .showing hname rfl fun t ht _ => .here ?_
    rw [ht]
    refine (qualifiedName_single hroom hname hclose rfl (by decide)).bind fun n hn => ?_
    obtain ⟨c, hc, htext⟩ := hn
    exact .make fun mark => ⟨mark, n, c, rfl, hc, htext⟩
  apply TypeParsers.type_of_base hroom hopen rfl hi hhead hother
  refine .showing hopens rfl fun t ht _ => .here ?_
  rw [ht]
  refine .advancing hopens rfl fun _ _ _ => hinner.bind fun t ht => ?_
  exact .expecting hcloses rfl fun _ _ _ => .pure ht

include hfree halias

theorem cast_delivers {P : Expr → Prop} (hbound : 2 * input.tokens.size + 2 ≤ bound)
    (hdepth : 11 ≤ depth) (hi : input.Meets (i + 3) head) (hstarts : head.startsTerm)
    (hother : head ∉ [Kind.lbracket, .bar])
    (hoperand : Delivers input (i + 3)
      ((ExprParsers.ofDepth (.ofDepth bound) depth).expression s lines) m P) :
    Delivers input i ((ExprParsers.ofDepth (.ofDepth bound) depth).term s lines) m
      fun e => ∃ mark t x, e = .cast mark t x ∧ t.IsNamed text ∧ P x := by
  have hsize := hclose.lt_size
  obtain ⟨opening, hopens⟩ := hopen.at (by decide) (by decide)
  obtain ⟨closing, hcloses⟩ := hclose.at (by decide) (by decide)
  obtain ⟨hsolid, hsuffix⟩ : head.isSpace = false ∧ head ∉ [Kind.lbracket, .ampersand, .bar] := by
    revert hstarts hother
    cases head <;> decide
  have hfollows : Delivers input (i + 3) ExprParsers.termFollows (i + 3) (· = true) := by
    have hskip : input.skip false (i + 3) = i + 3 := hi.skip_eq (Input.skips_of_solid hsolid)
    obtain ⟨t, ht, rfl⟩ := hi
    refine .given (.here (.pure ?_))
    rw [hskip, ht]
    exact hstarts
  refine .showing hopens rfl fun t ht _ => .here ?_
  rw [ht]
  refine .here (.expecting hopens rfl fun _ _ _ => ?_)
  refine (name_not_forced hroom hname hclose hbound).bind fun o ho => ?_
  obtain rfl := ho
  refine .moved (.expecting hopens rfl fun _ _ _ => ?_)
  refine (constant_before_close hroom hfree halias hname hclose hdepth).bind fun e he => ?_
  refine .expecting hcloses rfl fun _ _ _ => hfollows.bind fun b hb => ?_
  rw [he, hb]
  refine .moved ((type_in_brackets hroom hopen hname hclose (by omega) hi hsolid hsuffix).bind
    fun t ht => hoperand.bind fun x hx => ?_)
  exact .make fun mark => ⟨mark, t, x, rfl, ht, hx⟩

end Brackets

namespace StmtParsers

variable {g : StmtParsers} {input : Input} {s : Scope} {mark : Mark} {e : Expr} {u u' : Reading}

theorem expressions_single (h : (g.expressions s).run input u = .ok [e] u') :
    (g.expression s false).run input u = .ok e u' := by
  obtain ⟨first, v, hfirst, h⟩ := bind_ok h
  obtain ⟨rest, v', hrest, h⟩ := bind_ok h
  obtain ⟨hvalues, rfl⟩ := pure_ok h
  obtain ⟨rfl, rfl⟩ := List.cons.inj hvalues
  obtain rfl := afterEach_nil hrest
  exact hfirst

theorem returns_single (h : (g.returns s).run input u = .ok (.return mark [e]) u') :
    ∃ t v w arena, (expect .kwReturn).run input u = .ok t v ∧
      (g.expression s false).run input v = .ok e w ∧ endLine.run input ⟨w.pos, arena⟩ = .ok () u' := by
  obtain ⟨start, u₁, hstart, h⟩ := bind_ok h
  obtain ⟨-, rfl⟩ := Result.ok.inj hstart
  obtain ⟨t, v, hkeyword, h⟩ := bind_ok h
  obtain ⟨b, v', hempty, h⟩ := bind_ok h
  obtain rfl := atLineEnd_ok hempty
  obtain ⟨values, w, hvalues, h⟩ : ∃ values w,
      (if b then pure [] else g.expressions s).run input v' = .ok values w ∧
        (make start (Stmt.return · values) >>= fun st => endLine >>= fun _ => pure st).run input w =
          .ok (.return mark [e]) u' := by
    cases b <;> exact bind_ok h
  obtain ⟨st, w', hmake, h⟩ := bind_ok h
  obtain ⟨_, w'', hline, h⟩ := bind_ok h
  obtain ⟨rfl, rfl⟩ := pure_ok h
  obtain ⟨hst, rfl⟩ := Result.ok.inj hmake
  obtain ⟨-, rfl⟩ := Stmt.return.inj hst
  cases b with
  | true => exact absurd (pure_ok hvalues).1 nofun
  | false => exact ⟨t, v', w, _, hkeyword, expressions_single hvalues, hline⟩

end StmtParsers

end Grammar

/-- A line that returns a value, and the same line with a name in brackets before the value. -/
structure CastLine where
  before : List Token
  keyword : Token
  opening : Token
  name : Token
  closing : Token
  first : Token
  more : List Token
  distance : Nat
  keyword_kind : keyword.kind = .kwReturn
  opening_kind : opening.kind = .lparen
  name_kind : name.kind = .identifier
  closing_kind : closing.kind = .rparen
  starts : first.kind.startsTerm
  noSuffix : first.kind ∉ [Kind.lbracket, .bar]

namespace CastLine

variable (l : CastLine)

def rest : List Token :=
  l.first :: l.more

def plain : List Token :=
  l.before ++ [l.keyword] ++ l.rest

def casting : List Token :=
  l.before ++ [l.keyword, l.opening, l.name, l.closing] ++ l.rest.map (Token.moved l.distance)

/-- The cast of `e` to the type that is named, wherever its nodes stand. -/
def IsCast (e x : Expr) : Prop :=
  ∃ mark, x.relabel markless =
    (Expr.cast mark (.nominal mark ⟨mark, [⟨mark, l.name.text⟩]⟩) e).relabel markless

variable {l} {s : Scope} {e : Expr} {arena : Arena Node} {w : Reading} {i j bound depth : Nat}

theorem length_casting : l.casting.length = l.plain.length + 3 := by
  simp only [plain, casting, List.length_append, List.length_cons, List.length_map, List.length_nil]
  omega

theorem room : (Input.ofTokens l.casting).tokens.size < (Input.ofTokens l.casting).allowance := by
  simp [Input.ofTokens]

theorem shows_casting : (Input.ofTokens l.casting).Shows l.before.length
    [.word .kwReturn l.keyword.text, .word .lparen l.opening.text, .word .identifier l.name.text,
      .word .rparen l.closing.text] (l.before.length + 4) := by
  have hshows := @Input.shows_ofTokens l.before [l.keyword, l.opening, l.name, l.closing]
    (l.rest.map (Token.moved l.distance))
  simp only [List.map_cons, List.map_nil, Token.face_solid l.keyword_kind rfl,
    Token.face_solid l.opening_kind rfl, Token.face_solid l.name_kind rfl,
    Token.face_solid l.closing_kind rfl] at hshows
  exact hshows

theorem first_casting : (Input.ofTokens l.casting).Meets (l.before.length + 4) l.first.kind := by
  have htoken := @tokens_after (l.before ++ [l.keyword, l.opening, l.name, l.closing]) l.rest l.distance 0
  rw [List.length_append] at htoken
  exact ⟨l.first.moved l.distance, htoken, rfl⟩

theorem operand_casting (hbound : depthFor l.plain.length ≤ bound)
    (hdepth : depthFor l.plain.length ≤ depth)
    (h : ((Grammar.ofDepth (depthFor l.plain.length)).expression s false).run (.ofTokens l.plain)
      ⟨l.before.length + 1, arena⟩ = .ok e w) :
    ∃ j, w.pos = l.before.length + 1 + j ∧
      Delivers (.ofTokens l.casting) (l.before.length + 4)
        ((ExprParsers.ofDepth (.ofDepth bound) depth).expression s false) (l.before.length + 4 + j)
          fun x => x.relabel markless = e.relabel markless := by
  have hmoved : l.rest.map (Token.moved 0) = l.rest := List.map_id _
  have hbeside := @expression_beside (l.before ++ [l.keyword])
    (l.before ++ [l.keyword, l.opening, l.name, l.closing]) l.rest 0 l.distance 0 _ bound _ depth s
    false e arena w (by simp) hbound hdepth
  rw [hmoved, List.length_append, List.length_append] at hbeside
  exact hbeside h

theorem endLine_casting {u' : Reading}
    (h : endLine.run (.ofTokens l.plain) ⟨l.before.length + 1 + i, arena⟩ = .ok () u') :
    ∃ j, u'.pos = l.before.length + 1 + j ∧
      Delivers (.ofTokens l.casting) (l.before.length + 4 + i) endLine (l.before.length + 4 + j)
        fun _ => True := by
  have hmoved : l.rest.map (Token.moved 0) = l.rest := List.map_id _
  have hbeside := @endLine_beside (l.before ++ [l.keyword])
    (l.before ++ [l.keyword, l.opening, l.name, l.closing]) l.rest 0 l.distance i arena u'
  rw [hmoved, List.length_append, List.length_append] at hbeside
  exact hbeside h

theorem value_casting (hvariable : s.isVariable l.name.text = false)
    (halias : s.isAlias l.name.text = false)
    (hend : (Input.ofTokens l.casting).Awaits false (l.before.length + 4 + j) .newline)
    (hoperand : ∀ bound ≥ depthFor l.plain.length, ∀ depth ≥ depthFor l.plain.length,
      Delivers (.ofTokens l.casting) (l.before.length + 4)
        ((ExprParsers.ofDepth (.ofDepth bound) depth).expression s false) (l.before.length + 4 + j)
          fun x => x.relabel markless = e.relabel markless) :
    Delivers (.ofTokens l.casting) (l.before.length + 1)
      ((Grammar.ofDepth (depthFor l.casting.length)).expression s false) (l.before.length + 4 + j)
        (l.IsCast e) := by
  obtain ⟨-, hopen, hname, hclose, -⟩ := l.shows_casting
  have hfree : s.lookup l.name.text = none := by simpa [Scope.isVariable] using hvariable
  -- eleven levels of the grammar stand above a term, and the line has three tokens more
  obtain ⟨depth, hdepth, hmore⟩ : ∃ depth, depthFor l.casting.length = depth + 11 ∧
      depthFor l.plain.length ≤ depth := by
    refine ⟨depthFor l.casting.length - 11, ?_, ?_⟩ <;>
      simp only [depthFor, length_casting] <;> omega
  have hbound : 2 * (Input.ofTokens l.casting).tokens.size + 2 ≤ depth + 11 := by
    rw [Input.ofTokens, List.size_toArray, ← hdepth, depthFor]
    omega
  have hcast := cast_delivers l.room hfree halias hopen.meets hname hclose.meets hbound
    (by rw [depthFor] at hmore; omega) l.first_casting l.starts l.noSuffix
    (hoperand (depth + 11) (by omega) depth hmore)
  have hread := ExprParsers.expression_of_term l.room hopen.meets rfl (by decide) hend hend rfl hcast
  rw [hdepth]
  refine hread.imp fun x hx => ?_
  obtain ⟨mark, t, y, rfl, ⟨m, ⟨m', components⟩, c, rfl, hcomponents, htext⟩, hy⟩ := hx
  obtain rfl : components = [c] := hcomponents
  refine ⟨mark, ?_⟩
  simp only [Expr.relabel, TypeExpr.relabel, Name.relabel, Identifier.relabel, List.map_cons,
    List.map_nil, hy, htext]
  rfl

end CastLine

/--
A name in brackets before a value that is returned makes a cast of it, where the value may be an operand
and begins with nothing that could go on with the type.
-/
theorem returned_cast (l : CastLine) {s : Scope} {mark : Mark} {e : Expr} {arena arena' : Arena Node}
    {n : Nat} (hvariable : s.isVariable l.name.text = false) (halias : s.isAlias l.name.text = false)
    (h : ((Grammar.ofDepth (depthFor l.plain.length)).returns s).run (.ofTokens l.plain)
      ⟨l.before.length, arena⟩ = .ok (.return mark [e]) ⟨l.before.length + 1 + n, arena'⟩) :
    Delivers (.ofTokens l.casting) l.before.length
      ((Grammar.ofDepth (depthFor l.casting.length)).returns s) (l.before.length + 4 + n) fun st =>
        ∃ mark' x, st = .return mark' [x] ∧ l.IsCast e x := by
  obtain ⟨t, v, w, arena₁, hexpect, hvalue, hline⟩ := StmtParsers.returns_single h
  have hplain : (Input.ofTokens l.plain).Meets l.before.length .kwReturn :=
    ⟨l.keyword, by simp [Input.ofTokens, CastLine.plain], l.keyword_kind⟩
  obtain ⟨-, -, rfl⟩ := expect_ok.mp hexpect
  rw [hplain.skip_eq rfl] at hvalue
  obtain ⟨j, hj, -⟩ := CastLine.operand_casting (Nat.le_refl _) (Nat.le_refl _) hvalue
  rw [hj] at hline
  obtain ⟨n', hn, hends⟩ := CastLine.endLine_casting hline
  obtain rfl : n = n' := Nat.add_left_cancel hn
  have hend := hends.awaits_newline
  obtain ⟨hkeyword, hopen, -⟩ := l.shows_casting
  have hvalue' := CastLine.value_casting hvariable halias hend fun bound hbound depth hdepth => by
    obtain ⟨i, hi, hoperand⟩ := CastLine.operand_casting hbound hdepth hvalue
    obtain rfl : i = j := Nat.add_left_cancel (hi.symm.trans hj)
    exact hoperand
  exact StmtParsers.returns_delivers _ l.room hkeyword hopen.meets rfl hvalue' hends

/-- `return !a // b` and `return (T) !a // b`. -/
def CastLine.negated : CastLine where
  before := [⟨.indent, "    ", ⟨0, 4⟩⟩]
  keyword := ⟨.kwReturn, "return", ⟨4, 10⟩⟩
  opening := ⟨.lparen, "(", ⟨11, 12⟩⟩
  name := ⟨.identifier, "T", ⟨12, 13⟩⟩
  closing := ⟨.rparen, ")", ⟨13, 14⟩⟩
  first := ⟨.bang, "!", ⟨11, 12⟩⟩
  more := [⟨.identifier, "a", ⟨12, 13⟩⟩, ⟨.lineComment, "// b", ⟨14, 18⟩⟩, ⟨.newline, "\n", ⟨18, 19⟩⟩]
  distance := 4
  keyword_kind := rfl
  opening_kind := rfl
  name_kind := rfl
  closing_kind := rfl
  starts := rfl
  noSuffix := by decide

theorem returned_cast_negated :
    Scope.root.isVariable "T" = false ∧ Scope.root.isAlias "T" = false ∧ ∃ mark e arena',
      ((Grammar.ofDepth (depthFor 6)).returns .root).run (.ofTokens CastLine.negated.plain) ⟨1, .empty⟩ =
        .ok (.return mark [e]) ⟨6, arena'⟩ ∧ textOf e.pieces = "!a" ∧
      Delivers (.ofTokens CastLine.negated.casting) 1 ((Grammar.ofDepth (depthFor 9)).returns .root) 9
        fun st => ∃ mark' x, st = .return mark' [x] ∧ CastLine.negated.IsCast e x := by
  have hvariable : Scope.root.isVariable "T" = false := by decide
  have halias : Scope.root.isAlias "T" = false := by decide
  obtain ⟨mark, e, arena', hrun, htext⟩ : ∃ mark e arena',
      ((Grammar.ofDepth (depthFor 6)).returns .root).run (.ofTokens CastLine.negated.plain) ⟨1, .empty⟩ =
        .ok (.return mark [e]) ⟨6, arena'⟩ ∧ textOf e.pieces = "!a" :=
    ⟨_, _, _, rfl, by decide +kernel⟩
  exact ⟨hvariable, halias, mark, e, arena', hrun, htext,
    returned_cast CastLine.negated (n := 4) hvariable halias hrun⟩

/-- The brackets of an array go on with the type. -/
example : ((lex "function f():\n    return (T) [1]\n").toOption.bind fun ts => (parse ts).toOption).isNone := by
  decide +kernel

end Whiley
