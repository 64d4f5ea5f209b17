import Mathlib.Data.List.Forall2
import Whiley.Layout.Module
import Whiley.Proofs.Grammar.DeliversNames

/-!
The texts of an operator expression: what is printed for it, with any further brackets around what it
is made of. Such a text begins as an operand does, no word of it runs on into the next, and operands
and operators take turns in it.
-/

namespace Whiley

open Piece

namespace Kind

def operandHeads : List Kind :=
  [.intLit, .identifier, .lparen, .lbracket, .bang, .minus, .tilde]

/-- The binary operators, but for the one that also stands around a length. -/
def infixes : List Kind :=
  binaryKinds.filter (· ≠ .bar)

/-- The kinds of word that may come next: after an operand, and where one is awaited. -/
def inTurn : Bool → List Kind
  | true => [.lparen, .rparen, .rbracket, .comma, .dot] ++ infixes
  | false => [.rparen, .rbracket] ++ operandHeads

end Kind

/-- Operands and operators take turns, up to the end of an operand outside of all brackets. -/
def Turns : Nat → Bool → List Face → Prop
  | depth, closed, [] => depth = 0 ∧ closed = true
  | depth, closed, .word k _ :: fs =>
    k ∈ Kind.inTurn closed ∧
      if k = .lparen ∨ k = .lbracket then Turns (depth + 1) false fs
      else if k = .rparen ∨ k = .rbracket then 0 < depth ∧ Turns (depth - 1) true fs
      else Turns depth (k = .intLit ∨ k = .identifier) fs
  | _, _, _ :: _ => False

/-- A text that may stand where an operand does. -/
structure Piece.Fluent (ps : Pieces) : Prop where
  begins : Begins Kind.operandHeads ps
  spaced : ∀ next, Stops next → Spaced next ps
  turns : ∀ depth fs, Turns depth true fs → Turns depth false (faces ps ++ fs)

namespace Piece.Fluent

variable {ps qs : Pieces} {pss : List Pieces} {text : String} {k : Kind}

theorem name (h : Kind.identifier.Spelled text.toList) : Fluent [.word text] where
  begins := (begins_name h).mono (by decide)
  spaced _ hnext := ⟨ends_name h hnext, trivial⟩
  turns depth fs hfs := by
    rw [faces, Kind.ofText_identifier h]
    exact ⟨by decide, hfs⟩

theorem numeral (h : Kind.intLit.Spelled text.toList) : Fluent [.word text] where
  begins := begins_word (by rw [Kind.ofText_intLit h]; decide)
  spaced _ hnext := ⟨ends_numeral h hnext, trivial⟩
  turns depth fs hfs := by
    rw [faces, Kind.ofText_intLit h]
    exact ⟨by decide, hfs⟩

theorem brackets (h : Fluent ps) : Fluent (brackets ps) where
  begins := begins_brackets.mono (by decide)
  spaced _ _ := spaced_brackets (h.spaced _ (stops_some (by decide)))
  turns depth fs hfs := by
    rw [Piece.brackets, List.cons_append, faces, faces_append, List.cons_append, List.append_assoc]
    simp only [faces, Kind.ofText_marks]
    exact ⟨by decide, h.turns _ _ ⟨by decide, Nat.succ_pos depth, hfs⟩⟩

theorem prefixed (hk : k ∈ [Kind.bang, .minus, .tilde]) (h : Fluent ps) :
    Fluent (.word k.spelling :: ps) where
  begins := by
    have hheads : ∀ k ∈ [Kind.bang, .minus, .tilde],
        k ∈ Kind.keywords ++ Kind.symbols ∧ k ∈ Kind.operandHeads := by decide
    exact begins_fixed (hheads k hk).1 (hheads k hk).2
  spaced next hnext := by
    have hparts : ∀ k ∈ [Kind.bang, .minus, .tilde],
        k ∈ Kind.symbols ∧ Kind.operandHeads.all k.parts := by decide +kernel
    obtain ⟨hsymbol, hall⟩ := hparts k hk
    have hps := h.spaced next hnext
    exact ⟨ends_before hsymbol h.begins hps (List.all_eq_true.mp hall), hps⟩
  turns depth fs hfs := by
    have hops : ∀ k ∈ [Kind.bang, .minus, .tilde], k ∈ Kind.keywords ++ Kind.symbols ∧
        k ∈ Kind.inTurn false ∧ ¬ (k = .lparen ∨ k = .lbracket) ∧ ¬ (k = .rparen ∨ k = .rbracket) ∧
          ¬ (k = .intLit ∨ k = .identifier) := by decide
    obtain ⟨hfixed, hturn, hopen, hclose, hend⟩ := hops k hk
    rw [faces, Kind.ofText_spelling hfixed, List.cons_append, Turns, if_neg hopen, if_neg hclose,
      decide_eq_false hend]
    exact ⟨hturn, h.turns depth fs hfs⟩

theorem joined (hk : k ∈ Kind.infixes) (hps : Fluent ps) (hqs : Fluent qs) :
    Fluent (ps ++ .blank :: .word k.spelling :: .blank :: qs) where
  begins := hps.begins.append
  spaced next hnext := by
    have hsymbols : ∀ k ∈ Kind.infixes, k ∈ Kind.symbols ∧ k.runsOn ' ' = false := by decide +kernel
    obtain ⟨hsymbol, hblank⟩ := hsymbols k hk
    have hright := hqs.spaced next hnext
    have hword : Spaced (some ' ') [.word k.spelling] :=
      ⟨ends_symbol hsymbol (by rintro c ⟨⟩; exact hblank), trivial⟩
    have hbefore := ends_blank (begins_fixed (List.mem_append_right _ hsymbol) List.mem_cons_self :
      Begins [k] [.word k.spelling]) hword
    exact spaced_append.mpr ⟨hps.spaced _ (stops_some (by decide)), hbefore, hword.1,
      ends_blank hqs.begins hright, hright⟩
  turns depth fs hfs := by
    have hops : ∀ k ∈ Kind.infixes, k ∈ Kind.keywords ++ Kind.symbols ∧ k ∈ Kind.inTurn true ∧
        ¬ (k = .lparen ∨ k = .lbracket) ∧ ¬ (k = .rparen ∨ k = .rbracket) ∧
          ¬ (k = .intLit ∨ k = .identifier) := by decide
    obtain ⟨hfixed, hturn, hopen, hclose, hend⟩ := hops k hk
    have hright : faces (.blank :: .word k.spelling :: .blank :: qs) =
        .word k k.spelling :: faces qs := by
      simp only [faces, Kind.ofText_spelling hfixed]
    rw [faces_append, List.append_assoc, hright]
    refine hps.turns _ _ ?_
    rw [List.cons_append, Turns, if_neg hopen, if_neg hclose, decide_eq_false hend]
    exact ⟨hturn, hqs.turns depth fs hfs⟩

theorem field (h : Fluent ps) (hfield : Kind.identifier.Spelled text.toList) :
    Fluent (ps ++ [.word ".", .word text]) where
  begins := h.begins.append
  spaced next hnext := by
    have hname : Spaced next [.word text] := ⟨ends_name hfield hnext, trivial⟩
    exact spaced_append.mpr ⟨h.spaced _ (stops_some (by decide)),
      ends_before (k := .dot) (by decide) (begins_name hfield) hname (by decide +kernel), hname⟩
  turns depth fs hfs := by
    rw [faces_append, List.append_assoc]
    refine h.turns _ _ ?_
    simp only [faces, Kind.ofText_identifier hfield, Kind.ofText_marks]
    exact ⟨by decide, by decide, hfs⟩

theorem spaced_commas (h : ∀ ps ∈ pss, Fluent ps) {next : Option Char} (hnext : Stops next) :
    Spaced next (commas pss) :=
  Piece.spaced_commas (fun ps hps => ⟨(h ps hps).begins, (h ps hps).spaced⟩) hnext

theorem turns_commas (h : ∀ ps ∈ pss, Fluent ps) {depth : Nat} {fs : List Face}
    (hfs : ∀ closed, Turns depth closed fs) : Turns depth false (faces (commas pss) ++ fs) := by
  rw [faces_commas]
  have hrest : ∀ pss : List Pieces, (∀ ps ∈ pss, Fluent ps) →
      Turns depth true (Input.listing (.word .comma ",") true (pss.map faces) ++ fs) := by
    intro pss h
    induction pss with
    | nil => exact hfs true
    | cons ps pss ih =>
      rw [List.map_cons, Input.listing, List.cons_append, List.cons_append, List.append_assoc]
      refine ⟨by decide, (h ps List.mem_cons_self).turns _ _ ?_⟩
      exact ih fun qs hqs => h qs (List.mem_cons_of_mem ps hqs)
  cases pss with
  | nil => exact hfs false
  | cons ps pss =>
    rw [List.map_cons, Input.listing, List.append_assoc]
    exact (h ps List.mem_cons_self).turns _ _ (hrest pss fun qs hqs => h qs (List.mem_cons_of_mem ps hqs))

theorem array (h : ∀ ps ∈ pss, Fluent ps) : Fluent (.word "[" :: commas pss ++ [.word "]"]) where
  begins := begins_fixed (k := .lbracket) (by decide) (by decide)
  spaced _ _ := ⟨ends_final (k := .lbracket) (by decide +kernel),
    spaced_append.mpr ⟨spaced_commas h (stops_some (by decide)),
      ends_final (k := .rbracket) (by decide +kernel), trivial⟩⟩
  turns depth fs hfs := by
    rw [List.cons_append, faces, faces_append, List.cons_append, List.append_assoc]
    simp only [faces, Kind.ofText_marks]
    refine ⟨by decide, turns_commas h fun closed => ⟨?_, Nat.succ_pos depth, hfs⟩⟩
    cases closed <;> decide

theorem call (hname : Kind.identifier.Spelled text.toList) (h : ∀ ps ∈ pss, Fluent ps) :
    Fluent (.word text :: Piece.brackets (commas pss)) where
  begins := (begins_name hname).mono (by decide)
  spaced _ _ := ⟨ends_name hname (stops_some (by decide)),
    spaced_brackets (spaced_commas h (stops_some (by decide)))⟩
  turns depth fs hfs := by
    rw [Piece.brackets, List.cons_append, faces, faces, faces_append, List.cons_append,
      List.cons_append, List.append_assoc]
    simp only [faces, Kind.ofText_identifier hname, Kind.ofText_marks]
    refine ⟨by decide, by decide, turns_commas h fun closed => ⟨?_, Nat.succ_pos depth, hfs⟩⟩
    cases closed <;> decide

end Piece.Fluent

/-- A name of one component that is none of `names`. -/
def Name.IsOther (names : List String) (n : Name) : Prop :=
  ∃ c, n.components = [c] ∧ c.IsWord ∧ c.text ∉ names

mutual

/--
Expressions of numbers, names, operators, fields, arrays and calls by name, where `names` are those of
the variables.
-/
def Expr.Plain (names : List String) : Expr → Prop
  | .intLit _ value => value < 10 ^ Text.digitLimit
  | .variableAccess _ name _ => name.text ∈ names
  | .staticAccess _ name => name.IsOther names
  | .recordAccess _ source field => field.IsWord ∧ source.Plain names
  | .arrayInitialiser _ elements => Expr.AllPlain names elements
  | .binary _ left op right =>
    (∃ k ∈ Kind.infixes, op = k.spelling) ∧ left.Plain names ∧ right.Plain names
  | .unary _ _ operand => operand.Plain names
  | .invoke _ name lifetimes arguments =>
    name.IsOther names ∧ lifetimes = none ∧ Expr.AllPlain names arguments
  | _ => False

def Expr.AllPlain (names : List String) : List Expr → Prop
  | [] => True
  | e :: es => e.Plain names ∧ Expr.AllPlain names es

end

/-- What `P` holds of, with any number of brackets around it. -/
inductive Piece.Wrapped (P : Pieces → Prop) : Pieces → Prop
  | bare {ps : Pieces} : P ps → Wrapped P ps
  | more {ps : Pieces} : Wrapped P ps → Wrapped P (brackets ps)

/-- How tight the operand of an operator must bind. -/
def UnaryOp.least : UnaryOp → Nat
  | .not => Strength.condition
  | .negate => Strength.access
  | .complement => 0

namespace Expr

/--
A text of the expression where it must bind as tight as `least`, given its texts without brackets:
in brackets if it must be, and then in any number of brackets.
-/
def WrittenWithin (e : Expr) (least : Nat) (follow : Option Nat)
    (bare : Option Nat → Pieces → Prop) : Pieces → Prop :=
  Wrapped fun ps =>
    (e.strength < least || e.swallows follow) = false ∧ bare follow ps ∨
      ∃ qs, bare none qs ∧ ps = brackets qs

mutual

/-- A text of the expression without brackets around it; `follow` is the operator written after it. -/
def WrittenBare : Expr → Option Nat → Pieces → Prop
  | .intLit _ value, _, ps => ps = [.word (toString value)]
  | .variableAccess _ name _, _, ps => ps = [name.piece]
  | .staticAccess _ name, _, ps => ps = name.pieces
  | .recordAccess _ source field, _, ps =>
    ∃ qs, source.WrittenWithin Strength.access (some Strength.access) source.WrittenBare qs ∧
      ps = qs ++ [.word ".", field.piece]
  | .arrayInitialiser _ elements, _, ps =>
    ∃ pss, AllWritten elements pss ∧ ps = .word "[" :: commas pss ++ [.word "]"]
  | .binary _ left op right, follow, ps =>
    let s := operatorStrength op
    ∃ ls rs, left.WrittenWithin (Strength.operands s).1 (some s) left.WrittenBare ls ∧
      right.WrittenWithin (Strength.operands s).2 follow right.WrittenBare rs ∧
        ps = ls ++ .blank :: operatorPiece op :: .blank :: rs
  | .unary _ op operand, follow, ps =>
    ∃ qs, operand.WrittenWithin op.least follow operand.WrittenBare qs ∧
      ps = .word op.spelling :: qs
  | .invoke _ name lifetimes arguments, _, ps =>
    ∃ pss, AllWritten arguments pss ∧
      ps = name.pieces ++ Identifier.optionalList lifetimes ++ brackets (commas pss)
  | _, _, _ => False

def AllWritten : List Expr → List Pieces → Prop
  | [], pss => pss = []
  | e :: es, pss =>
    ∃ ps rest, e.WrittenWithin 0 none e.WrittenBare ps ∧ AllWritten es rest ∧ pss = ps :: rest

end

/-- A text of the expression: what is printed for it, with any further brackets. -/
def Written (e : Expr) : Pieces → Prop :=
  e.WrittenWithin 0 none e.WrittenBare

theorem allWritten_iff {es : List Expr} {pss : List Pieces} :
    AllWritten es pss ↔ List.Forall₂ Written es pss := by
  induction es generalizing pss with
  | nil => rw [AllWritten, List.forall₂_nil_left_iff]
  | cons e es ih =>
    rw [AllWritten, List.forall₂_cons_left_iff]
    simp only [ih]
    constructor
    · rintro ⟨ps, rest, hps, hrest, rfl⟩
      exact ⟨ps, rest, hps, hrest, rfl⟩
    · rintro ⟨ps, rest, hps, hrest, rfl⟩
      exact ⟨ps, rest, hps, hrest, rfl⟩

end Expr

theorem Piece.Wrapped.imp {P Q : Pieces → Prop} {ps : Pieces} (h : Wrapped P ps)
    (hPQ : ∀ ps, P ps → Q ps) (hQ : ∀ ps, Q ps → Q (brackets ps)) : Q ps := by
  induction h with
  | bare h => exact hPQ _ h
  | more _ ih => exact hQ _ ih

theorem operatorPiece_eq {op : String} (h : ∃ k ∈ Kind.infixes, op = k.spelling) :
    operatorPiece op = .word op := by
  have hall : ∀ k ∈ Kind.infixes, operatorStrength k.spelling ≠ 0 := by decide +kernel
  obtain ⟨k, hk, rfl⟩ := h
  rw [operatorPiece, if_neg (hall k hk)]

theorem Name.IsOther.pieces_eq {names : List String} {n : Name} (h : n.IsOther names) :
    ∃ text, n.pieces = [.word text] ∧ Kind.identifier.Spelled text.toList ∧ text ∉ names := by
  obtain ⟨m, components⟩ := n
  obtain ⟨c, rfl, hword, hother⟩ := h
  exact ⟨c.text, rfl, hword, hother⟩

theorem not_spelled_dollar : ¬ Kind.identifier.Spelled "$".toList := by
  rintro ⟨⟨c, cs, hcs, hstart, -⟩, -⟩
  obtain ⟨rfl, -⟩ := List.cons.inj (hcs : ['$'] = c :: cs)
  revert hstart
  decide

namespace Expr

variable {e : Expr} {least : Nat} {follow : Option Nat} {ps : Pieces}

theorem WrittenWithin.fluent (hps : e.WrittenWithin least follow e.WrittenBare ps)
    (h : ∀ follow ps, e.WrittenBare follow ps → Fluent ps) : Fluent ps := by
  refine Wrapped.imp hps (fun ps hps => ?_) fun _ => Fluent.brackets
  rcases hps with ⟨-, hbare⟩ | ⟨qs, hbare, rfl⟩
  · exact h follow ps hbare
  · exact (h none qs hbare).brackets

theorem WrittenWithin.printed (h : ∀ follow, e.WrittenBare follow (e.bare follow)) :
    e.WrittenWithin least follow e.WrittenBare (e.within least follow e.bare) := by
  unfold within
  split
  · exact .bare (.inr ⟨_, h none, rfl⟩)
  · rename_i hbare
    exact .bare (.inl ⟨eq_false_of_ne_true hbare, h follow⟩)

theorem bare_recordAccess {m : Mark} {source : Expr} {field : Identifier}
    (hne : ∀ m operand, source ≠ .dereference m operand) (hdollar : source.isDollar = false) :
    (recordAccess m source field).bare follow =
      source.within Strength.access (some Strength.access) source.bare ++
        [.word ".", field.piece] := by
  rw [bare, if_neg (by simp [hdollar])]
  exact hne

end Expr

mutual

/-- Every text of an operator expression may stand where an operand does. -/
theorem Expr.Plain.fluent_bare {names : List String}
    (hnames : ∀ n ∈ names, Kind.identifier.Spelled n.toList) : (e : Expr) → e.Plain names →
    ∀ follow ps, e.WrittenBare follow ps → Fluent ps
  | .intLit _ value, _, _, _, rfl => .numeral (Lexer.isNumeral_toString value)
  | .variableAccess _ name _, h, _, _, rfl => .name (hnames _ h)
  | .staticAccess _ name, h, _, _, rfl => by
    obtain ⟨text, htext, hword, -⟩ := Name.IsOther.pieces_eq h
    exact htext ▸ .name hword
  | .recordAccess _ source field, ⟨hfield, h⟩, _, _, ⟨_, hps, rfl⟩ =>
    (hps.fluent (Expr.Plain.fluent_bare hnames source h)).field hfield
  | .arrayInitialiser _ elements, h, _, _, ⟨_, hpss, rfl⟩ =>
    .array (Expr.AllPlain.fluent hnames elements h _ hpss)
  | .binary _ left _ right, ⟨hop, hleft, hright⟩, _, _, ⟨_, _, hls, hrs, rfl⟩ => by
    rw [operatorPiece_eq hop]
    obtain ⟨k, hk, rfl⟩ := hop
    exact .joined hk (hls.fluent (Expr.Plain.fluent_bare hnames left hleft))
      (hrs.fluent (Expr.Plain.fluent_bare hnames right hright))
  | .unary _ op operand, h, _, _, ⟨_, hps, rfl⟩ => by
    have hfluent := hps.fluent (Expr.Plain.fluent_bare hnames operand h)
    cases op with
    | not => exact .prefixed (k := .bang) (by decide) hfluent
    | negate => exact .prefixed (k := .minus) (by decide) hfluent
    | complement => exact .prefixed (k := .tilde) (by decide) hfluent
  | .invoke _ name _ arguments, ⟨hname, rfl, h⟩, _, _, ⟨_, hpss, rfl⟩ => by
    obtain ⟨text, htext, hword, -⟩ := Name.IsOther.pieces_eq hname
    rw [htext]
    exact .call hword (Expr.AllPlain.fluent hnames arguments h _ hpss)

theorem Expr.AllPlain.fluent {names : List String}
    (hnames : ∀ n ∈ names, Kind.identifier.Spelled n.toList) : (es : List Expr) →
    Expr.AllPlain names es → ∀ pss, Expr.AllWritten es pss → ∀ ps ∈ pss, Fluent ps
  | [], _, _, rfl => nofun
  | e :: es, ⟨he, hes⟩, _, ⟨_, _, hps, hrest, rfl⟩ => List.forall_mem_cons.mpr
      ⟨hps.fluent (Expr.Plain.fluent_bare hnames e he), Expr.AllPlain.fluent hnames es hes _ hrest⟩

end

mutual

theorem Expr.Plain.written_bare {names : List String}
    (hnames : ∀ n ∈ names, Kind.identifier.Spelled n.toList) : (e : Expr) → e.Plain names →
    ∀ follow, e.WrittenBare follow (e.bare follow)
  | .intLit .., _, _ => rfl
  | .variableAccess .., _, _ => rfl
  | .staticAccess .., _, _ => rfl
  | .recordAccess _ source field, ⟨_, h⟩, _ => by
    have hdollar : source.isDollar = false := by
      unfold Expr.isDollar
      split
      · have hword := hnames _ h
        exact decide_eq_false fun htext => absurd (htext ▸ hword) not_spelled_dollar
      · rfl
    refine ⟨_, .printed (Expr.Plain.written_bare hnames source h), Expr.bare_recordAccess ?_ hdollar⟩
    rintro _ _ rfl
    exact h
  | .arrayInitialiser _ elements, h, _ => ⟨_, Expr.AllPlain.written hnames elements h, rfl⟩
  | .binary _ left _ right, ⟨_, hleft, hright⟩, _ => ⟨_, _,
    .printed (Expr.Plain.written_bare hnames left hleft),
    .printed (Expr.Plain.written_bare hnames right hright), rfl⟩
  | .unary _ op operand, h, _ => by
    cases op <;> exact ⟨_, .printed (Expr.Plain.written_bare hnames operand h), rfl⟩
  | .invoke _ name _ arguments, ⟨_, _, h⟩, _ => ⟨_, Expr.AllPlain.written hnames arguments h, rfl⟩

theorem Expr.AllPlain.written {names : List String}
    (hnames : ∀ n ∈ names, Kind.identifier.Spelled n.toList) : (es : List Expr) →
    Expr.AllPlain names es → Expr.AllWritten es (Expr.listPieces es)
  | [], _ => rfl
  | e :: es, ⟨he, hes⟩ => ⟨_, _, .printed (Expr.Plain.written_bare hnames e he),
    Expr.AllPlain.written hnames es hes, rfl⟩

end

section Texts

variable {names : List String} (hnames : ∀ n ∈ names, Kind.identifier.Spelled n.toList)
  {e : Expr} (h : e.Plain names)

include hnames h

theorem Expr.Plain.fluent {least : Nat} {follow : Option Nat} {ps : Pieces}
    (hps : e.WrittenWithin least follow e.WrittenBare ps) : Fluent ps :=
  hps.fluent (Expr.Plain.fluent_bare hnames e h)

theorem Expr.Plain.written : e.Written e.pieces :=
  .printed (Expr.Plain.written_bare hnames e h)

end Texts

end Whiley
