import Whiley.Proofs.Layout.Readable

namespace Whiley

open Lexer Piece

theorem Lexer.IsQuoted.append {cs ds : List Char} (hc : IsQuoted cs) (hd : IsQuoted ds) :
    IsQuoted (cs ++ ds) := by
  fun_induction IsQuoted cs with
  | case1 => exact hd
  | case2 => exact hc.elim
  | case3 c cs ih => exact ih hc
  | case4 c cs hend hpair ih =>
    obtain ⟨hquote, hline, hcs⟩ := hc
    have hescape : c ≠ '\\' := by
      rintro rfl
      cases cs with
      | nil => exact hend rfl rfl
      | cons d ds => exact hpair d ds rfl rfl
    exact (isQuoted_cons hescape).mpr ⟨hquote, hline, ih hcs⟩

theorem Lexer.isQuoted_of_all {cs : List Char} (h : ∀ c ∈ cs, c ≠ '\\' ∧ c ≠ '"' ∧ c ≠ '\n') :
    IsQuoted cs := by
  induction cs with
  | nil => trivial
  | cons c cs ih =>
    obtain ⟨hescape, hquote, hline⟩ := h c List.mem_cons_self
    exact (isQuoted_cons hescape).mpr
      ⟨hquote, hline, ih fun d hd => h d (List.mem_cons_of_mem c hd)⟩

theorem hexDigit_plain {n : Nat} (h : n < 16) :
    Text.hexDigit n ≠ '\\' ∧ Text.hexDigit n ≠ '"' ∧ Text.hexDigit n ≠ '\n' := by
  revert n
  decide

theorem hex_quoted (width n : Nat) : IsQuoted (Text.hex width n) := by
  induction width generalizing n with
  | zero => trivial
  | succ width ih =>
    refine (ih (n / 16)).append (isQuoted_of_all ?_)
    simpa using hexDigit_plain (Nat.mod_lt n (by decide))

theorem literalEscape_shape {c : Char} {e : String} (h : literalEscape? c = some e) :
    ∃ d, e.toList = ['\\', d] ∧ d ≠ 'u' ∧ escaped? d = some c := by
  unfold literalEscape? at h
  split_ifs at h with hc hc hc hc hc hc <;>
    (obtain rfl := Option.some.inj h; subst hc; exact ⟨_, rfl, by decide, rfl⟩)

theorem literalEscape_none {c : Char} (h : literalEscape? c = none) : c ≠ '\\' ∧ c ≠ '\n' := by
  constructor
  · rintro rfl
    exact absurd h (by decide)
  · rintro rfl
    exact absurd h (by decide)

theorem stringLiteralChar_quoted (c : Char) : IsQuoted (stringLiteralChar c) := by
  unfold stringLiteralChar
  split
  · rename_i e he
    obtain ⟨d, hd, -⟩ := literalEscape_shape he
    rw [hd]
    trivial
  · rename_i hnone
    obtain ⟨hescape, hline⟩ := literalEscape_none hnone
    split
    · trivial
    · rename_i hquote
      split
      · exact hex_quoted 4 c.toNat
      · exact (isQuoted_cons hescape).mpr ⟨hquote, hline, trivial⟩

theorem stringLiteral_quoted (s : String) : IsQuoted (s.toList.flatMap stringLiteralChar) := by
  induction s.toList with
  | nil => trivial
  | cons c cs ih => exact (stringLiteralChar_quoted c).append ih

theorem stringLiteral_legible (s : String) : Legible (stringLiteral s).toList := by
  have h := Legible.string (stringLiteral_quoted s) .nil
  simpa [stringLiteral] using h

theorem charLiteral_body (c : Char) : ∃ body, (charLiteral c).toList = '\'' :: (body ++ ['\'']) ∧
    ((body = [c] ∧ c ≠ '\\') ∨ ∃ d, body = ['\\', d] ∧ escaped? d = some c) := by
  unfold charLiteral
  split
  · rename_i e he
    obtain ⟨d, hd, -, hescaped⟩ := literalEscape_shape he
    exact ⟨['\\', d], by simp [hd], .inr ⟨d, rfl, hescaped⟩⟩
  · rename_i hnone
    split
    · rename_i hquote
      subst hquote
      exact ⟨['\\', '\''], rfl, .inr ⟨'\'', rfl, rfl⟩⟩
    · exact ⟨[c], by simp, .inl ⟨rfl, (literalEscape_none hnone).1⟩⟩

theorem charLiteral_legible (c : Char) : Legible (charLiteral c).toList := by
  obtain ⟨body, hliteral, hbody⟩ := charLiteral_body c
  rw [hliteral]
  refine .char ?_ .nil
  rcases hbody with ⟨rfl, hc⟩ | ⟨d, rfl, -⟩
  · exact .inl ⟨c, rfl, hc⟩
  · exact .inr ⟨d, rfl⟩

theorem binaryDigits_digits (width n : Nat) : ∀ c ∈ binaryDigits width n, isDigit c := by
  induction width generalizing n with
  | zero => simp [binaryDigits]
  | succ width ih =>
    refine List.forall_mem_append.mpr ⟨ih (n / 2), ?_⟩
    split <;> simp <;> decide

theorem byteLiteral_legible (n : Nat) : Legible (byteLiteral n).toList := by
  have hmark : IsWord ['b'] := ⟨'b', [], rfl, by decide, by simp⟩
  simpa [byteLiteral] using
    (Legible.of_plain fun c hc => isPlain_of_isDigit (binaryDigits_digits 8 n c hc)).append
      (.of_isWord hmark)

theorem intLiteral_legible (n : Nat) : Legible (toString n).toList :=
  .of_plain fun c hc => isPlain_of_isDigit ((Lexer.isNumeral_toString n).2 c hc)

theorem Piece.Readable.operator {ps : Pieces} {op : String} (hop : ∃ k ∈ binaryKinds, op = k.spelling)
    (hps : Readable ps) : Readable (operatorPiece op :: .blank :: ps) := by
  obtain ⟨k, hk, rfl⟩ := hop
  have hknown : ∀ k ∈ binaryKinds, operatorPiece k.spelling = .word k.spelling := by decide
  rw [hknown k hk]
  by_cases hslash : k = .slash
  · subst hslash
    -- a slash is legible only with what comes after it
    have hrest : Legible (' ' :: (textOf ps).toList) := .plain (by decide) hps.legible
    refine ⟨?_, by simpa using hps.faultless⟩
    rw [toList_textOf_cons, toList_textOf_cons]
    exact .slash (by decide) (by decide) hrest
  · have hplain : ∀ k ∈ binaryKinds, k ≠ .slash → k.spelling.toList.all isPlain := by decide
    exact .mark (hplain k hk hslash) (.blank hps)

theorem castOperand_readable {type : TypeExpr} {ps : Pieces} (h : Readable ps) :
    Readable (castOperand type ps) := by
  unfold castOperand
  split
  · exact h
  · obtain ⟨tokens, htokens⟩ := lex_legible h.legible
    rw [startsTerm, htokens]
    cases tokens with
    | nil => exact h.brackets
    | cons t ts =>
      simp only [Except.map]
      cases t.kind.startsTerm with
      | false => exact h.brackets
      | true => exact h

theorem optionalList_readable {lifetimes : Option (List Identifier)}
    (h : ∀ ls, lifetimes = some ls → ∀ l ∈ ls, l.IsLifetime) :
    Readable (Identifier.optionalList lifetimes) := by
  cases lifetimes with
  | none => exact .nil
  | some ls =>
    exact Identifier.enclosed_readable (by decide) (by decide) fun l hl => (h ls rfl l hl).legible

theorem Scope.AdmitsVariables.types {a : Arena Node} {s : Scope} {vs : List Variable}
    (h : s.AdmitsVariables a vs) : ∀ v ∈ vs, ∃ s : Scope, v.type.Formed s := by
  induction vs generalizing s with
  | nil => simp
  | cons v vs ih => exact List.forall_mem_cons.mpr ⟨⟨s, h.1⟩, ih h.2.2.2⟩

theorem TypeExpr.Formed.pieces_readable {s : Scope} {t : TypeExpr} (h : t.Formed s) :
    Readable t.pieces :=
  TypeExpr.within_readable (TypeExpr.Formed.readable t h) _ _

theorem Scope.AdmitsParameters.readable {a : Arena Node} {s : Scope} {vs : List Variable}
    (h : s.AdmitsParameters a vs) : Readable (Variable.list vs) := by
  refine .commas ?_
  intro ps hps
  obtain ⟨v, hv, rfl⟩ := List.mem_map.mp hps
  obtain ⟨s', htype⟩ := h.2.types v hv
  exact htype.pieces_readable.append (.blank (.word (h.1 v hv).legible .nil))

structure Expr.Readable (e : Expr) : Prop where
  bare : ∀ follow, Piece.Readable (e.bare follow)
  pointer : ∀ m operand, e = .dereference m operand →
    ∀ follow, Piece.Readable (operand.bare follow)

namespace Expr

variable {e source operand : Expr} {field : Identifier} {m : Mark}

theorem within_readable (h : ∀ follow, Piece.Readable (e.bare follow)) (least : Nat)
    (follow : Option Nat) : Piece.Readable (e.within least follow e.bare) := by
  unfold Expr.within
  split
  · exact (h none).brackets
  · exact h follow

theorem Readable.of_bare (hne : ∀ m operand, e ≠ .dereference m operand)
    (h : ∀ follow, Piece.Readable (e.bare follow)) : e.Readable :=
  ⟨h, fun m operand he => absurd he (hne m operand)⟩

theorem Readable.within (h : e.Readable) (least : Nat) (follow : Option Nat) :
    Piece.Readable (e.within least follow e.bare) :=
  within_readable h.bare least follow

theorem readable_word {text : String} (hne : ∀ m operand, e ≠ .dereference m operand)
    (hbare : ∀ follow, e.bare follow = [.word text]) (h : Legible text.toList) : e.Readable := by
  refine .of_bare hne fun follow => ?_
  rw [hbare]
  exact .word h .nil

theorem readable_dereference (h : operand.Readable) : (dereference m operand).Readable := by
  refine ⟨fun follow => .mark (by decide) (h.within _ _), ?_⟩
  rintro _ _ ⟨⟩
  exact h.bare

theorem readable_field (hfield : field.IsWord) (hsource : source.Readable) :
    (recordAccess m source field).Readable := by
  refine .of_bare nofun fun follow => ?_
  by_cases hpointer : ∃ m' operand, source = .dereference m' operand
  · obtain ⟨m', operand, rfl⟩ := hpointer
    have hoperand := hsource.pointer m' operand rfl
    exact (within_readable hoperand _ _).append (.mark (by decide) (.word hfield.legible .nil))
  · rw [bare]
    · split
      · exact .word hfield.legible .nil
      · exact (hsource.within _ _).append (.mark (by decide) (.word hfield.legible .nil))
    · exact fun m' operand h => hpointer ⟨m', operand, h⟩

theorem readable_implicit {s : Scope} (hfield : field.IsWord) (h : source.IsOwner s field) :
    (recordAccess m source field).Readable := by
  obtain ⟨-, -, m', d, rfl⟩ := h
  refine .of_bare nofun fun follow => ?_
  exact .word hfield.legible .nil

theorem readable_lambda {parameters : List Variable} {captures lifetimes : List Identifier}
    (hcaptures : ∀ c ∈ captures, c.IsLifetime) (hlifetimes : ∀ l ∈ lifetimes, l.IsWord)
    (hparameters : Piece.Readable (Variable.list parameters)) (h : operand.Readable) :
    (lambda m parameters captures lifetimes operand).Readable := by
  refine .of_bare nofun fun follow => ?_
  have hcaptured : Piece.Readable (Identifier.enclosed "[" "]" captures) :=
    Identifier.enclosed_readable (by decide) (by decide) fun i hi => (hcaptures i hi).legible
  have hdeclared : Piece.Readable (Identifier.enclosed "<" ">" lifetimes) :=
    Identifier.enclosed_readable (by decide) (by decide) fun i hi => (hlifetimes i hi).legible
  have hgap : Piece.Readable (if parameters.isEmpty then [] else [Piece.blank]) := by
    split
    · exact .nil
    · exact .blank .nil
  exact .mark (by decide) ((hcaptured.append hdeclared).append
    ((hparameters.append hgap).append (.mark (by decide) (.blank (h.within _ _)))).brackets)

theorem readable_keyword {keyword : String} (h : keyword ∈ ["some", "all"]) {ps : Pieces}
    (hps : Piece.Readable ps) : Piece.Readable (.word keyword :: ps) := by
  refine .keyword ?_ hps
  revert keyword
  decide

end Expr

mutual

theorem Expr.Formed.readable {a : Arena Node} {s : Scope} :
    (e : Expr) → e.Formed a s → e.Readable
  | .nullLit _, _ => .of_bare nofun fun _ => .keyword (by decide) .nil
  | .boolLit _ value, _ => by
    refine .of_bare nofun fun _ => .keyword ?_ .nil
    cases value <;> decide
  | .byteLit _ value, _ => Expr.readable_word nofun (fun _ => rfl) (byteLiteral_legible value)
  | .charLit _ value, _ => Expr.readable_word nofun (fun _ => rfl) (charLiteral_legible value)
  | .intLit _ value, _ => Expr.readable_word nofun (fun _ => rfl) (intLiteral_legible value)
  | .stringLit _ value, _ => Expr.readable_word nofun (fun _ => rfl) (stringLiteral_legible value)
  | .variableAccess _ _ _, ⟨hname, _⟩ => Expr.readable_word nofun (fun _ => rfl) hname.legible
  | .staticAccess _ _, hname => .of_bare nofun fun _ => Name.Formed.readable hname
  | .recordAccess _ source _, ⟨hfield, hsource⟩ =>
    hsource.elim (Expr.readable_implicit hfield)
      fun h => Expr.readable_field hfield (Expr.Formed.readable source h)
  | .dereference _ operand, h => Expr.readable_dereference (Expr.Formed.readable operand h)
  | .arrayAccess _ source index, ⟨hsource, hindex⟩ =>
    .of_bare nofun fun _ => (((Expr.Formed.readable source hsource).within _ _).append
      (.mark (by decide) ((Expr.Formed.readable index hindex).within _ _))).append
        (.mark (by decide) .nil)
  | .arrayLength _ operand, h =>
    .of_bare nofun fun _ => .mark (by decide)
      (((Expr.Formed.readable operand h).within _ _).append (.mark (by decide) .nil))
  | .arrayInitialiser _ elements, h =>
    .of_bare nofun fun _ => .mark (by decide)
      ((Readable.commas (Expr.AllFormed.readable elements h)).append (.mark (by decide) .nil))
  | .arrayGenerator _ element length, ⟨helement, hlength⟩ =>
    .of_bare nofun fun _ => .mark (by decide)
      ((((Expr.Formed.readable element helement).within _ _).append (.mark (by decide) (.blank
        ((Expr.Formed.readable length hlength).within _ _)))).append (.mark (by decide) .nil))
  | .recordInitialiser _ name fields, ⟨hname, _, hfields⟩ => by
    refine .of_bare nofun fun _ => (Readable.append ?_ (.mark (by decide)
      (Readable.commas (FieldValue.AllFormed.readable fields hfields)))).append
        (.mark (by decide) .nil)
    cases name with
    | none => exact .nil
    | some n => exact .word (hname n rfl).legible .nil
  | .binary _ left _ right, ⟨hop, hleft, hright⟩ =>
    .of_bare nofun fun _ => ((Expr.Formed.readable left hleft).within _ _).append
      (.blank (.operator hop ((Expr.Formed.readable right hright).within _ _)))
  | .unary _ .not operand, h =>
    .of_bare nofun fun _ => .mark (by decide) ((Expr.Formed.readable operand h).within _ _)
  | .unary _ .negate operand, h =>
    .of_bare nofun fun _ => .mark (by decide) ((Expr.Formed.readable operand h).within _ _)
  | .unary _ .complement operand, h =>
    .of_bare nofun fun _ => .mark (by decide) ((Expr.Formed.readable operand h).within _ _)
  | .isType _ operand _, ⟨h, htype⟩ =>
    .of_bare nofun fun _ => ((Expr.Formed.readable operand h).within _ _).append
      (.blank (.keyword (by decide) (.blank htype.pieces_readable)))
  | .cast _ _ operand, ⟨htype, h⟩ =>
    .of_bare nofun fun _ => htype.pieces_readable.brackets.append
      (.blank (castOperand_readable ((Expr.Formed.readable operand h).within _ _)))
  | .invoke _ _ _ arguments, ⟨hname, hlifetimes, harguments⟩ =>
    .of_bare nofun fun _ => ((Name.Formed.readable hname).append
      (optionalList_readable hlifetimes)).append
        (Readable.commas (Expr.AllFormed.readable arguments harguments)).brackets
  | .indirectInvoke _ source _ arguments, ⟨hsource, hlifetimes, harguments⟩ =>
    .of_bare nofun fun _ => (((Expr.Formed.readable source hsource).within _ _).append
      (optionalList_readable hlifetimes)).append
        (Readable.commas (Expr.AllFormed.readable arguments harguments)).brackets
  | .quantifier _ _ ranges condition, ⟨hkeyword, _, hranges, hcondition⟩ =>
    .of_bare nofun fun _ => Expr.readable_keyword hkeyword (.blank (.mark (by decide) (.blank
      (((Readable.commas (Range.AllFormed.readable ranges hranges)).append
        (.blank (.mark (by decide) (.blank
          ((Expr.Formed.readable condition hcondition).within _ _))))).append
            (.blank (.mark (by decide) .nil))))))
  | .new _ operand lifetime, ⟨hlifetime, _, h⟩ => by
    refine .of_bare nofun fun _ => Readable.append ?_
      (.keyword (by decide) (.blank ((Expr.Formed.readable operand h).within _ _)))
    split
    · exact .nil
    · exact .word hlifetime.legible (.mark (by decide) .nil)
  | .lambda _ _ _ _ body, ⟨hcaptures, hlifetimes, hparameters, hbody⟩ =>
    Expr.readable_lambda hcaptures hlifetimes.isWord hparameters.readable
      (Expr.Formed.readable body hbody)
  | .lambdaConstant _ _ parameterTypes, ⟨hname, htypes⟩ => by
    refine .of_bare nofun fun _ => .mark (by decide) ((Name.Formed.readable hname).append ?_)
    split
    · exact .nil
    · refine (Readable.commas ?_).brackets
      intro ps hps
      obtain ⟨t, ht, rfl⟩ := List.mem_map.mp hps
      exact (TypeExpr.allFormed_iff.mp htypes t ht).pieces_readable

theorem Expr.AllFormed.readable {a : Arena Node} {s : Scope} :
    (es : List Expr) → Expr.AllFormed a s es → ∀ ps ∈ Expr.listPieces es, Piece.Readable ps
  | [], _ => by simp [Expr.listPieces]
  | e :: es, ⟨he, hes⟩ =>
    List.forall_mem_cons.mpr
      ⟨(Expr.Formed.readable e he).within _ _, Expr.AllFormed.readable es hes⟩

theorem FieldValue.AllFormed.readable {a : Arena Node} {s : Scope} :
    (fs : List FieldValue) → FieldValue.AllFormed a s fs →
      ∀ ps ∈ Expr.fieldPieces fs, Piece.Readable ps
  | [], _ => by simp [Expr.fieldPieces]
  | .mk _ value :: fs, ⟨hname, hvalue, hfs⟩ =>
    List.forall_mem_cons.mpr
      ⟨.word hname.legible (.mark (by decide) (.blank
        ((Expr.Formed.readable value hvalue).within _ _))), FieldValue.AllFormed.readable fs hfs⟩

theorem Range.AllFormed.readable {a : Arena Node} {s : Scope} :
    (rs : List Range) → Range.AllFormed a s rs → ∀ ps ∈ Expr.rangePieces rs, Piece.Readable ps
  | [], _ => by simp [Expr.rangePieces]
  | .mk _ _ start stop :: rs, ⟨hname, _, hstart, hstop, _, hrs⟩ =>
    List.forall_mem_cons.mpr
      ⟨.word hname.legible (.blank (.keyword (by decide) (.blank
        (((Expr.Formed.readable start hstart).within _ _).append
          (.mark (by decide) ((Expr.Formed.readable stop hstop).within _ _)))))),
        Range.AllFormed.readable rs hrs⟩

end

theorem Expr.FormedTarget.readable {a : Arena Node} {s : Scope} :
    (e : Expr) → e.FormedTarget a s → e.Readable
  | .variableAccess _ _ _, ⟨hname, _⟩ => Expr.readable_word nofun (fun _ => rfl) hname.legible
  | .recordAccess _ source _, ⟨hfield, h⟩ =>
    Expr.readable_field hfield (Expr.FormedTarget.readable source h)
  | .dereference _ operand, h => Expr.readable_dereference (Expr.FormedTarget.readable operand h)
  | .arrayAccess _ source index, ⟨hsource, hindex⟩ =>
    .of_bare nofun fun _ => (((Expr.FormedTarget.readable source hsource).within _ _).append
      (.mark (by decide) ((Expr.Formed.readable index hindex).within _ _))).append
        (.mark (by decide) .nil)

theorem Expr.Readable.pieces {e : Expr} (h : e.Readable) : Piece.Readable e.pieces :=
  h.within 0 none

theorem Expr.list_readable {es : List Expr} (h : ∀ e ∈ es, e.Readable) :
    Piece.Readable (Expr.list es) := by
  refine .commas ?_
  intro ps hps
  obtain ⟨e, he, rfl⟩ := List.mem_map.mp hps
  exact (h e he).pieces

end Whiley
