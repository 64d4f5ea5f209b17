import Whiley.Layout.Module
import Whiley.Proofs.Layout.Readable
import Whiley.Proofs.Token.Words

/-!
The printer parts its words: in the text of a type no word runs on into the next. Where a reference
held a reference, `&&` would be one symbol; such types alone are left out.
-/

namespace Whiley

open Lexer Piece

def Stops (next : Option Char) : Prop :=
  ∀ c, next = some c → isWordChar c = false

theorem stops_none : Stops none :=
  nofun

theorem stops_some {c : Char} (h : isWordChar c = false) : Stops (some c) := by
  rintro d ⟨⟩
  exact h

namespace Kind

def isFinal (k : Kind) : Bool :=
  k ∈ symbols && k ≠ .slash &&
    symbols.all fun l => !k.spelling.toList.isPrefixOf l.spelling.toList || l = k

def parts (symbol l : Kind) : Bool :=
  l ∉ symbols || l.spelling.toList.head?.all fun c => !symbol.runsOn c

theorem runsOn_final {k : Kind} (hk : k.isFinal) (c : Char) : k.runsOn c = false := by
  simp only [isFinal, Bool.and_eq_true, decide_eq_true_eq, List.all_eq_true, Bool.or_eq_true,
    Bool.not_eq_true'] at hk
  obtain ⟨⟨hsymbol, hslash⟩, hall⟩ := hk
  have hany : (symbols.any fun l => (k.spelling.toList ++ [c]).isPrefixOf l.spelling.toList) = false := by
    refine List.any_eq_false.mpr fun l hl hprefix => ?_
    have hlonger := List.isPrefixOf_iff_prefix.mp hprefix
    rcases hall l hl with hnot | rfl
    · have hshorter := (List.prefix_append k.spelling.toList [c]).trans hlonger
      rw [← List.isPrefixOf_iff_prefix, hnot] at hshorter
      cases hshorter
    · have hlength := hlonger.length_le
      rw [List.length_append, List.length_singleton] at hlength
      omega
  simp [runsOn, hsymbol, hany, hslash]

theorem runsOn_wordChar {k : Kind} {c : Char} (hk : k ∈ symbols) (hc : isWordChar c) :
    k.runsOn c = false := by
  have hplain : ∀ l ∈ symbols, l.spelling.toList.all fun d => !isWordChar d := by decide +kernel
  have hany : (symbols.any fun l => (k.spelling.toList ++ [c]).isPrefixOf l.spelling.toList) = false := by
    refine List.any_eq_false.mpr fun l hl hprefix => ?_
    have hmem : c ∈ l.spelling.toList := (List.isPrefixOf_iff_prefix.mp hprefix).subset (by simp)
    have hother := List.all_eq_true.mp (hplain l hl) c hmem
    rw [hc] at hother
    cases hother
  have hslash : c ≠ '/' ∧ c ≠ '*' := by
    constructor <;> rintro rfl <;> revert hc <;> decide
  simp [runsOn, hk, hany, hslash]

end Kind

namespace Piece

variable {next : Option Char} {k : Kind} {ks : List Kind} {text : String} {ps qs : Pieces}

theorem ends_symbol (hk : k ∈ Kind.symbols) (hnext : ∀ c, next = some c → k.runsOn c = false) :
    (Piece.word k.spelling).Ends next := by
  rw [Ends, Kind.ofText_spelling (List.mem_append_right _ hk)]
  exact ⟨(Kind.spelled_iff_of_fixed (Kind.symbols_not_classes hk)).mpr rfl, hnext⟩

theorem ends_final (hk : k.isFinal) : (Piece.word k.spelling).Ends next := by
  have hsymbol : k ∈ Kind.symbols := by
    simp only [Kind.isFinal, Bool.and_eq_true, decide_eq_true_eq] at hk
    exact hk.1.1
  exact ends_symbol hsymbol fun c _ => Kind.runsOn_final hk c

theorem ends_keyword (hk : k ∈ Kind.keywords) (hnext : Stops next) :
    (Piece.word k.spelling).Ends next := by
  have hsymbol : k ∉ Kind.symbols := by
    revert hk
    cases k <;> decide
  rw [Ends, Kind.ofText_spelling (List.mem_append_left _ hk)]
  refine ⟨(Kind.spelled_iff_of_fixed (Kind.keywords_not_classes hk)).mpr rfl, fun c hc => ?_⟩
  rw [Kind.runsOn_word hsymbol]
  exact hnext c hc

theorem ends_name (h : Kind.identifier.Spelled text.toList) (hnext : Stops next) :
    (Piece.word text).Ends next := by
  rw [Ends, Kind.ofText_identifier h]
  exact ⟨h, fun c hc => Kind.runsOn_word (k := .identifier) (by decide) ▸ hnext c hc⟩

theorem ends_numeral (h : Kind.intLit.Spelled text.toList) (hnext : Stops next) :
    (Piece.word text).Ends next := by
  rw [Ends, Kind.ofText_intLit h]
  exact ⟨h, fun c hc => Kind.runsOn_word (k := .intLit) (by decide) ▸ hnext c hc⟩

theorem ends_lifetime {l : Identifier} (h : l.IsLifetime) (hnext : Stops next) :
    l.piece.Ends next := by
  unfold Identifier.piece
  rcases h with h | h | h
  · exact ends_name h hnext
  · rw [h]
    exact ends_keyword (k := .kwThis) (by decide) hnext
  · rw [h]
    exact ends_final (k := .star) (by decide +kernel)

def Begins (ks : List Kind) (ps : Pieces) : Prop :=
  ∃ text rest, ps = .word text :: rest ∧ Kind.ofText text ∈ ks

theorem Begins.mono {ls : List Kind} (h : Begins ks ps) (hks : ∀ k ∈ ks, k ∈ ls) : Begins ls ps := by
  obtain ⟨text, rest, hps, hk⟩ := h
  exact ⟨text, rest, hps, hks _ hk⟩

theorem Begins.append (h : Begins ks ps) : Begins ks (ps ++ qs) := by
  obtain ⟨text, rest, rfl, hk⟩ := h
  exact ⟨text, rest ++ qs, rfl, hk⟩

theorem begins_fixed (hk : k ∈ Kind.keywords ++ Kind.symbols) (hmem : k ∈ ks) :
    Begins ks (.word k.spelling :: ps) :=
  ⟨k.spelling, ps, rfl, (Kind.ofText_spelling hk).symm ▸ hmem⟩

theorem begins_word (hk : Kind.ofText text ∈ ks) : Begins ks (.word text :: ps) :=
  ⟨text, ps, rfl, hk⟩

theorem begins_name (h : Kind.identifier.Spelled text.toList) : Begins [.identifier] (.word text :: ps) :=
  begins_word (by rw [Kind.ofText_identifier h]; exact List.mem_cons_self)

theorem head_spelled (h : (Kind.ofText text).Spelled text.toList) (hk : Kind.ofText text ∉ Kind.symbols) :
    ∃ c, text.toList.head? = some c ∧ isWordChar c := by
  obtain ⟨c, cs, hcs⟩ := spelled_ne_nil h
  refine ⟨c, by rw [hcs]; rfl, ?_⟩
  unfold Kind.ofText at h hk
  cases hfind : (Kind.keywords ++ Kind.symbols).find? (·.spelling = text) with
  | some k =>
    rw [hfind] at hk
    have htext : k.spelling = text := by simpa using List.find?_some hfind
    rcases List.mem_append.mp (List.mem_of_find?_eq_some hfind) with hword | hsymbol
    · obtain ⟨d, ds, hds, hd, -⟩ := Kind.keywords_head hword
      rw [htext, hcs] at hds
      exact isWordChar_of_isWordStart ((List.cons.inj hds).1 ▸ hd)
    · exact absurd hsymbol hk
  | none =>
    rw [hfind, Option.getD_none] at h
    split at h
    · exact isWordChar_of_isDigit (h.2 c (by rw [hcs]; exact List.mem_cons_self))
    · obtain ⟨d, ds, hds, hd, -⟩ := h.1
      rw [hcs] at hds
      exact isWordChar_of_isWordStart ((List.cons.inj hds).1 ▸ hd)

theorem ends_before (hk : k ∈ Kind.symbols) (hps : Begins ks ps) (hspaced : Spaced next ps)
    (hparts : ∀ l ∈ ks, k.parts l) : (Piece.word k.spelling).Ends (front next ps) := by
  refine ends_symbol hk fun c hc => ?_
  obtain ⟨text, rest, rfl, hmem⟩ := hps
  obtain ⟨⟨hspelled, -⟩, -⟩ := hspaced
  obtain ⟨d, ds, hds⟩ := spelled_ne_nil hspelled
  rw [front, Piece.text, hds] at hc
  obtain rfl := Option.some.inj hc
  by_cases hsymbol : Kind.ofText text ∈ Kind.symbols
  · have hall := hparts _ hmem
    have htext := (Kind.spelled_iff_of_fixed (Kind.symbols_not_classes hsymbol)).mp hspelled
    rw [Kind.parts, ← htext, hds] at hall
    simpa [hsymbol] using hall
  · obtain ⟨e, he, hword⟩ := head_spelled hspelled hsymbol
    rw [hds] at he
    obtain rfl := Option.some.inj he
    exact Kind.runsOn_wordChar hk hword

theorem ends_blank (hps : Begins ks ps) (hspaced : Spaced next ps) : Piece.blank.Ends (front next ps) := by
  intro c hc
  obtain ⟨text, rest, rfl, -⟩ := hps
  obtain ⟨⟨hspelled, -⟩, -⟩ := hspaced
  obtain ⟨d, ds, hds⟩ := spelled_ne_nil hspelled
  rw [front, Piece.text, hds] at hc
  obtain rfl := Option.some.inj hc
  by_cases hsymbol : Kind.ofText text ∈ Kind.symbols
  · have htext := (Kind.spelled_iff_of_fixed (Kind.symbols_not_classes hsymbol)).mp hspelled
    obtain ⟨e, es, hes, -, -, hblank, -⟩ := Kind.symbols_head hsymbol
    rw [← htext, hds] at hes
    exact (List.cons.inj hes).1 ▸ hblank
  · obtain ⟨e, he, hword⟩ := head_spelled hspelled hsymbol
    rw [hds] at he
    obtain rfl := Option.some.inj he
    cases hblank : isBlank d with
    | false => rfl
    | true =>
      simp only [isBlank, Bool.or_eq_true, decide_eq_true_eq] at hblank
      rcases hblank with rfl | rfl <;> revert hword <;> decide

theorem spaced_blank (hps : Begins ks ps) (h : Spaced next ps) : Spaced next (.blank :: ps) :=
  ⟨ends_blank hps h, h⟩

theorem spaced_brackets (h : Spaced (some ')') ps) : Spaced next (brackets ps) := by
  refine ⟨ends_final (k := .lparen) (by decide +kernel), spaced_append.mpr ⟨h, ?_, trivial⟩⟩
  exact ends_final (k := .rparen) (by decide +kernel)

theorem begins_brackets : Begins [.lparen] (brackets ps) :=
  begins_fixed (k := .lparen) (by decide) (by decide)

theorem separated_cons (sep ps : Pieces) (parts : List Pieces) :
    separated sep (ps :: parts) = ps ++ parts.flatMap (sep ++ ·) := by
  induction parts generalizing ps with
  | nil => simp [separated]
  | cons qs parts ih => simp [separated, ih]

theorem spaced_separated {sep : Pieces} {parts : List Pieces} (hsep : ∀ o, Stops (front o sep))
    (hends : ∀ qs ∈ parts, ∀ o, Spaced o qs → Spaced (front o qs) sep)
    (h : ∀ ps ∈ parts, ∀ o, Stops o → Spaced o ps) (hnext : Stops next) :
    Spaced next (separated sep parts) := by
  induction parts with
  | nil => trivial
  | cons ps parts ih =>
    have hrest := ih (fun qs hqs => hends qs (List.mem_cons_of_mem ps hqs))
      (fun qs hqs => h qs (List.mem_cons_of_mem ps hqs))
    have hps := h ps List.mem_cons_self
    cases parts with
    | nil => exact hps next hnext
    | cons qs parts =>
      change Spaced next (ps ++ sep ++ separated sep (qs :: parts))
      rw [List.append_assoc, spaced_append, spaced_append, front_append]
      refine ⟨hps _ (hsep _), ?_, hrest⟩
      rw [separated_cons, spaced_append] at hrest
      rw [separated_cons, front_append]
      exact hends qs (by simp) _ hrest.1

theorem spaced_commas {parts : List Pieces}
    (h : ∀ ps ∈ parts, Begins ks ps ∧ ∀ o, Stops o → Spaced o ps) (hnext : Stops next) :
    Spaced next (commas parts) := by
  refine spaced_separated (fun o => stops_some (by decide)) (fun qs hqs o hspaced => ?_)
    (fun ps hps => (h ps hps).2) hnext
  have hblank := ends_blank (h qs hqs).1 hspaced
  exact ⟨ends_final (k := .comma) (by decide +kernel), hblank, trivial⟩

end Piece

theorem Identifier.IsLifetime.kind {l : Identifier} (h : l.IsLifetime) :
    Kind.ofText l.text ∈ [.identifier, .kwThis, .star] := by
  rcases h with h | h | h
  · simp [Kind.ofText_identifier h]
  · rw [h]
    decide +kernel
  · rw [h]
    decide +kernel

section Names

variable {next : Option Char}

theorem Name.Formed.spaced {n : Name} (h : n.Formed) (hnext : Stops next) :
    Spaced next n.pieces := by
  refine spaced_separated (fun o => stops_some (by decide)) (fun qs hqs o _ => ?_)
    (fun qs hqs o ho => ?_) hnext
  · exact ⟨ends_final (k := .colonColon) (by decide +kernel), trivial⟩
  · obtain ⟨i, hi, rfl⟩ := List.mem_map.mp hqs
    exact ⟨ends_name (h.2 i hi) ho, trivial⟩

theorem Name.Formed.begins {n : Name} (h : n.Formed) : Begins [.identifier] n.pieces := by
  obtain ⟨i, is, his⟩ := List.exists_cons_of_ne_nil h.1
  have hi : i.IsWord := h.2 i (by rw [his]; exact List.mem_cons_self)
  rw [Name.pieces, his, List.map_cons, separated_cons]
  exact begins_name hi

theorem Identifier.list_spaced {is : List Identifier} (h : ∀ i ∈ is, i.IsLifetime)
    (hnext : Stops next) : Spaced next (Identifier.list is) := by
  have hparts : ∀ ps ∈ is.map (fun i => [Identifier.piece i]),
      Begins [.identifier, .kwThis, .star] ps ∧ ∀ o, Stops o → Spaced o ps := by
    intro ps hps
    obtain ⟨i, hi, rfl⟩ := List.mem_map.mp hps
    exact ⟨begins_word (h i hi).kind, fun o ho => ⟨ends_lifetime (h i hi) ho, trivial⟩⟩
  exact spaced_commas hparts hnext

theorem Identifier.captures_spaced {is : List Identifier} (h : ∀ i ∈ is, i.IsLifetime) :
    Spaced next (Identifier.enclosed "[" "]" is) := by
  unfold Identifier.enclosed
  split
  · trivial
  · refine ⟨ends_final (k := .lbracket) (by decide +kernel), spaced_append.mpr ⟨?_, ?_, trivial⟩⟩
    · exact Identifier.list_spaced h (stops_some (by decide))
    · exact ends_final (k := .rbracket) (by decide +kernel)

theorem Identifier.lifetimes_spaced {is : List Identifier} (h : ∀ i ∈ is, i.IsWord) :
    Spaced (some '(') (Identifier.enclosed "<" ">" is) := by
  unfold Identifier.enclosed
  split
  · trivial
  · rename_i hempty
    have hlist : Spaced (some '>') (Identifier.list is) :=
      Identifier.list_spaced (fun i hi => .inl (h i hi)) (stops_some (by decide))
    have hgreater : (Piece.word ">").Ends (some '(') :=
      ends_symbol (k := .greater) (by decide) (by rintro c ⟨⟩; decide +kernel)
    have hall : Spaced (some '(') (Identifier.list is ++ [.word ">"]) :=
      spaced_append.mpr ⟨hlist, hgreater, trivial⟩
    have hbegins : Begins [.identifier] (Identifier.list is) := by
      obtain ⟨i, is, rfl⟩ := List.exists_cons_of_ne_nil (by simpa using hempty : is ≠ [])
      rw [Identifier.list, List.map_cons, commas, separated_cons]
      exact begins_name (h i List.mem_cons_self)
    exact ⟨ends_before (k := .less) (by decide) hbegins.append hall (by decide +kernel), hall⟩

end Names

/-- A reference with or without a lifetime. -/
def TypeExpr.isReference : TypeExpr → Bool
  | .reference .. => true
  | _ => false

mutual

/-- No reference without a lifetime holds a reference directly. -/
def TypeExpr.ReferencesApart : TypeExpr → Prop
  | .primitive .. => True
  | .nominal .. => True
  | .array _ element => element.ReferencesApart
  | .list _ element => element.ReferencesApart
  | .record _ _ fields => Field.AllReferencesApart fields
  | .negation _ element => element.ReferencesApart
  | .reference _ element none => element.isReference = false ∧ element.ReferencesApart
  | .reference _ element (some _) => element.ReferencesApart
  | .union _ operands => TypeExpr.AllReferencesApart operands
  | .intersection _ operands => TypeExpr.AllReferencesApart operands
  | .function _ parameters returns =>
    TypeExpr.AllReferencesApart parameters ∧ TypeExpr.AllReferencesApart returns
  | .method _ parameters returns _ _ =>
    TypeExpr.AllReferencesApart parameters ∧ TypeExpr.AllReferencesApart returns

def TypeExpr.AllReferencesApart : List TypeExpr → Prop
  | [] => True
  | t :: ts => t.ReferencesApart ∧ TypeExpr.AllReferencesApart ts

def Field.AllReferencesApart : List Field → Prop
  | [] => True
  | .mk _ type _ :: fs => type.ReferencesApart ∧ Field.AllReferencesApart fs

end

namespace TypeExpr

/-- The kinds of word that a type can begin with, unless it is a reference, a function or a method. -/
def closedHeads : List Kind :=
  [.kwVoid, .kwAny, .kwNull, .kwBool, .kwByte, .kwInt, .lparen, .lbracket, .lbrace, .bang,
    .identifier]

def heads : TypeExpr → List Kind
  | .reference .. => [.ampersand]
  | .function .. => [.kwFunction]
  | .method .. => [.kwMethod]
  | .union .. => .ampersand :: closedHeads
  | .intersection .. => .ampersand :: closedHeads
  | _ => closedHeads

def headsWithin (t : TypeExpr) (least : Nat) (followed : Bool) : List Kind :=
  if t.strength < least || (followed && t.isOpenEnded) then [.lparen] else t.heads

def allHeads : List Kind :=
  .ampersand :: .kwFunction :: .kwMethod :: closedHeads

variable {t : TypeExpr} {least : Nat} {followed : Bool} {next : Option Char}

theorem heads_allHeads : ∀ k ∈ t.heads, k ∈ allHeads := by
  cases t <;> simp +contextual [heads, allHeads, closedHeads]

theorem headsWithin_allHeads : ∀ k ∈ t.headsWithin least followed, k ∈ allHeads := by
  unfold headsWithin
  split
  · decide
  · exact heads_allHeads

theorem headsWithin_operand : ∀ k ∈ t.headsWithin least true, k ∈ Kind.ampersand :: closedHeads := by
  unfold headsWithin
  split
  · decide
  · rename_i hopen
    cases t <;> simp +contextual [heads, closedHeads, isOpenEnded] at hopen ⊢

theorem headsWithin_array : ∀ k ∈ t.headsWithin 3 true, k ∈ closedHeads := by
  unfold headsWithin
  split
  · decide
  · rename_i hopen
    cases t <;> simp +contextual [heads, closedHeads, isOpenEnded, strength] at hopen ⊢

theorem headsWithin_reference (h : t.isReference = false) :
    ∀ k ∈ t.headsWithin 2 followed, k ≠ .ampersand := by
  unfold headsWithin
  split
  · decide
  · rename_i hopen
    cases t <;> simp +contextual [heads, closedHeads, isReference, strength] at h hopen ⊢

theorem within_begins (h : ∀ followed, Begins t.heads (t.bare followed)) :
    Begins (t.headsWithin least followed) (t.within least followed t.bare) := by
  unfold headsWithin within
  split
  · exact begins_brackets
  · exact h followed

theorem within_spaced (h : ∀ followed next, Stops next → Spaced next (t.bare followed))
    (hnext : Stops next) : Spaced next (t.within least followed t.bare) := by
  unfold within
  split
  · exact spaced_brackets (h false _ (stops_some (by decide)))
  · exact h followed next hnext

theorem primitive_kind {name : String} (h : name ∈ ["void", "any", "null", "bool", "byte", "int"]) :
    ∃ k ∈ [Kind.kwVoid, .kwAny, .kwNull, .kwBool, .kwByte, .kwInt], name = k.spelling := by
  revert name
  decide

end TypeExpr

open TypeExpr

theorem TypeExpr.Formed.begins {s : Scope} :
    (t : TypeExpr) → t.Formed s → ∀ followed, Begins t.heads (t.bare followed)
  | .primitive _ _, h, _ => by
    obtain ⟨k, hk, rfl⟩ := primitive_kind h
    have hheads : ∀ k ∈ [Kind.kwVoid, .kwAny, .kwNull, .kwBool, .kwByte, .kwInt],
        Kind.ofText k.spelling ∈ closedHeads := by decide +kernel
    exact begins_word (hheads k hk)
  | .nominal _ _, h, _ => (Name.Formed.begins h).mono (by decide : ∀ k ∈ [Kind.identifier], k ∈ closedHeads)
  | .array _ element, h, _ =>
    (within_begins (TypeExpr.Formed.begins element h)).append.mono headsWithin_array
  | .list .., _, _ => begins_fixed (by decide) (by decide : Kind.lbracket ∈ closedHeads)
  | .record .., _, _ => begins_fixed (by decide) (by decide : Kind.lbrace ∈ closedHeads)
  | .negation .., _, _ => begins_fixed (by decide) (by decide : Kind.bang ∈ closedHeads)
  | .reference _ _ none, _, _ =>
    begins_fixed (by decide) (by decide : Kind.ampersand ∈ [.ampersand])
  | .reference _ _ (some _), _, _ =>
    begins_fixed (by decide) (by decide : Kind.ampersand ∈ [.ampersand])
  | .union _ [], h, _ => absurd h.1 (by simp)
  | .union _ [_], h, _ => absurd h.1 (by simp)
  | .union _ (t :: _ :: _), h, followed => by
    rw [TypeExpr.bare, TypeExpr.operandPieces, List.isEmpty_cons, Bool.not_false, Bool.or_true]
    exact (within_begins (TypeExpr.Formed.begins t h.2.1)).append.mono headsWithin_operand
  | .intersection _ [], h, _ => absurd h.1 (by simp)
  | .intersection _ [_], h, _ => absurd h.1 (by simp)
  | .intersection _ (t :: _ :: _), h, followed => by
    rw [TypeExpr.bare, TypeExpr.operandPieces, List.isEmpty_cons, Bool.not_false, Bool.or_true]
    exact (within_begins (TypeExpr.Formed.begins t h.2.1)).append.mono headsWithin_operand
  | .function .., _, _ =>
    begins_fixed (by decide) (by decide : Kind.kwFunction ∈ [.kwFunction])
  | .method .., _, _ => begins_fixed (by decide) (by decide : Kind.kwMethod ∈ [.kwMethod])

theorem TypeExpr.Formed.within_begins {s : Scope} {t : TypeExpr} (h : t.Formed s) (least : Nat)
    (followed : Bool) : Begins (t.headsWithin least followed) (t.within least followed t.bare) :=
  TypeExpr.within_begins (TypeExpr.Formed.begins t h)

theorem TypeExpr.Formed.named_spaced {s : Scope} {t : TypeExpr} {i : Identifier} (ht : t.Formed s)
    (h : ∀ followed next, Stops next → Spaced next (t.bare followed)) (hi : i.IsWord) :
    Begins allHeads (t.pieces ++ [.blank, i.piece]) ∧
      ∀ next, Stops next → Spaced next (t.pieces ++ [.blank, i.piece]) := by
  refine ⟨((ht.within_begins 0 false).mono headsWithin_allHeads).append, fun next hnext => ?_⟩
  have hlast : Spaced next [.blank, i.piece] :=
    spaced_blank (begins_name hi) ⟨ends_name hi hnext, trivial⟩
  exact spaced_append.mpr ⟨within_spaced h (stops_some (by decide)), hlast⟩

mutual

theorem TypeExpr.Formed.spaced {s : Scope} : (t : TypeExpr) → t.Formed s → t.ReferencesApart →
    ∀ followed next, Stops next → Spaced next (t.bare followed)
  | .primitive _ _, h, _, _, _, hnext => by
    obtain ⟨k, hk, rfl⟩ := primitive_kind h
    have hkeywords : ∀ k ∈ [Kind.kwVoid, .kwAny, .kwNull, .kwBool, .kwByte, .kwInt],
        k ∈ Kind.keywords := by decide
    exact ⟨ends_keyword (hkeywords k hk) hnext, trivial⟩
  | .nominal _ _, h, _, _, _, hnext => Name.Formed.spaced h hnext
  | .array _ element, h, hrefs, _, _, hnext => by
    refine spaced_append.mpr ⟨within_spaced (TypeExpr.Formed.spaced element h hrefs)
      (stops_some (by decide)), ?_, ?_, trivial⟩
    · exact ends_final (k := .lbracket) (by decide +kernel)
    · exact ends_final (k := .rbracket) (by decide +kernel)
  | .list _ element, h, hrefs, _, _, hnext => by
    refine ⟨ends_final (k := .lbracket) (by decide +kernel), spaced_append.mpr
      ⟨within_spaced (TypeExpr.Formed.spaced element h hrefs) (stops_some (by decide)), ?_, trivial⟩⟩
    exact ends_final (k := .rbracket) (by decide +kernel)
  | .record _ isOpen fields, ⟨_, _, h⟩, hrefs, _, _, hnext => by
    have hparts : ∀ ps ∈ TypeExpr.fieldPieces fields ++ if isOpen then [[.word "..."]] else [],
        Begins (.dotDotDot :: allHeads) ps ∧ ∀ o, Stops o → Spaced o ps := by
      intro ps hps
      rcases List.mem_append.mp hps with hps | hps
      · obtain ⟨hbegins, hspaced⟩ := Field.AllFormed.spaced fields h hrefs ps hps
        exact ⟨hbegins.mono fun k hk => List.mem_cons_of_mem _ hk, hspaced⟩
      · obtain ⟨-, rfl⟩ : isOpen = true ∧ ps = [.word "..."] := by
          cases isOpen <;> simp at hps ⊢
          exact hps
        exact ⟨begins_fixed (k := .dotDotDot) (by decide) (by decide),
          fun o _ => ⟨ends_final (k := .dotDotDot) (by decide +kernel), trivial⟩⟩
    refine ⟨ends_final (k := .lbrace) (by decide +kernel), spaced_append.mpr
      ⟨spaced_commas hparts (stops_some (by decide)), ?_, trivial⟩⟩
    exact ends_final (k := .rbrace) (by decide +kernel)
  | .negation _ element, h, hrefs, followed, _, hnext => by
    have helement : Spaced _ (element.within 2 followed element.bare) :=
      within_spaced (TypeExpr.Formed.spaced element h hrefs) hnext
    have hbegins := (TypeExpr.Formed.within_begins (t := element) h 2 followed).mono headsWithin_allHeads
    exact ⟨ends_before (k := .bang) (by decide) hbegins helement (by decide +kernel), helement⟩
  | .reference _ element none, ⟨_, h⟩, ⟨hreference, hrefs⟩, followed, _, hnext => by
    have helement : Spaced _ (element.within 2 followed element.bare) :=
      within_spaced (TypeExpr.Formed.spaced element h hrefs) hnext
    have hparts : ∀ l ∈ allHeads, l ≠ .ampersand → Kind.ampersand.parts l := by decide +kernel
    exact ⟨ends_before (k := .ampersand) (by decide) (TypeExpr.Formed.within_begins h _ _) helement
      fun l hl => hparts l (headsWithin_allHeads l hl) (headsWithin_reference hreference l hl),
      helement⟩
  | .reference _ element (some l), ⟨hl, h⟩, hrefs, followed, _, hnext => by
    have helement : Spaced _ (element.within 2 followed element.bare) :=
      within_spaced (TypeExpr.Formed.spaced element h hrefs) hnext
    have hlifetime := (hl l rfl).1
    have hrest : Spaced _ (l.piece :: .word ":" :: element.within 2 _ element.bare) :=
      ⟨ends_lifetime hlifetime (stops_some (by decide)),
        ends_before (k := .colon) (by decide)
          ((TypeExpr.Formed.within_begins h _ _).mono headsWithin_allHeads) helement
          (by decide +kernel), helement⟩
    exact ⟨ends_before (k := .ampersand) (by decide)
      (begins_word hlifetime.kind) hrest (by decide +kernel), hrest⟩
  | .union _ operands, ⟨_, h⟩, hrefs, _, _, hnext =>
    TypeExpr.AllFormed.operands_spaced (k := .bar) (by decide) (by decide +kernel) operands h hrefs hnext
  | .intersection _ operands, ⟨_, h⟩, hrefs, _, _, hnext =>
    TypeExpr.AllFormed.operands_spaced (k := .ampersand) (by decide) (by decide +kernel) operands h
      hrefs hnext
  | .function _ parameters returns, ⟨hparameters, hreturns⟩, ⟨hps, hrs⟩, _, _, _ => by
    refine ⟨ends_keyword (k := .kwFunction) (by decide) (stops_some (by decide)),
      spaced_append.mpr ⟨spaced_brackets (spaced_commas
        (TypeExpr.AllFormed.spaced parameters hparameters hps) (stops_some (by decide))), ?_, ?_⟩⟩
    · exact ends_final (k := .arrow) (by decide +kernel)
    · exact spaced_brackets (spaced_commas (TypeExpr.AllFormed.spaced returns hreturns hrs)
        (stops_some (by decide)))
  | .method _ parameters returns captures lifetimes, ⟨hcaptures, hlifetimes, hparameters, hreturns⟩,
      ⟨hps, hrs⟩, _, next, _ => by
    have hreturned : Spaced next (if returns.isEmpty then [] else
        .word "->" :: brackets (commas (TypeExpr.listPieces returns))) := by
      split
      · trivial
      · refine ⟨ends_final (k := .arrow) (by decide +kernel), spaced_brackets (spaced_commas
          (TypeExpr.AllFormed.spaced returns hreturns hrs) (stops_some (by decide)))⟩
    refine spaced_append.mpr ⟨spaced_append.mpr ⟨spaced_append.mpr ⟨⟨ends_keyword (k := .kwMethod)
      (by decide) ?_, Identifier.captures_spaced hcaptures⟩,
      Identifier.lifetimes_spaced hlifetimes.isWord⟩, spaced_brackets (spaced_commas
        (TypeExpr.AllFormed.spaced parameters hparameters hps) (stops_some (by decide)))⟩, hreturned⟩
    cases captures <;> cases lifetimes <;> exact stops_some (by decide)

theorem TypeExpr.AllFormed.spaced {s : Scope} : (ts : List TypeExpr) → TypeExpr.AllFormed s ts →
    TypeExpr.AllReferencesApart ts → ∀ ps ∈ TypeExpr.listPieces ts,
      Begins allHeads ps ∧ ∀ next, Stops next → Spaced next ps
  | [], _, _ => by simp [TypeExpr.listPieces]
  | t :: ts, ⟨ht, hts⟩, ⟨hrefs, hrest⟩ =>
    List.forall_mem_cons.mpr
      ⟨⟨(TypeExpr.Formed.within_begins ht _ _).mono headsWithin_allHeads,
        fun _ hnext => within_spaced (TypeExpr.Formed.spaced t ht hrefs) hnext⟩,
      TypeExpr.AllFormed.spaced ts hts hrest⟩

theorem TypeExpr.AllFormed.operands_spaced {s : Scope} {next : Option Char} {k : Kind} {least : Nat}
    {followed : Bool} (hk : k ∈ Kind.symbols) (hblank : k.runsOn ' ' = false) :
    (ts : List TypeExpr) → TypeExpr.AllFormed s ts → TypeExpr.AllReferencesApart ts → Stops next →
      Spaced next (TypeExpr.operandPieces [.blank, .word k.spelling, .blank] least followed ts)
  | [], _, _, _ => trivial
  | [t], ⟨ht, _⟩, ⟨hrefs, _⟩, hnext => by
    rw [TypeExpr.operandPieces, List.isEmpty_nil, if_pos rfl, List.append_nil]
    exact within_spaced (TypeExpr.Formed.spaced t ht hrefs) hnext
  | t :: u :: ts, ⟨ht, hts⟩, ⟨hrefs, hrest⟩, hnext => by
    have hothers : Spaced next (TypeExpr.operandPieces [.blank, .word k.spelling, .blank] least
        followed (u :: ts)) :=
      TypeExpr.AllFormed.operands_spaced hk hblank (u :: ts) hts hrest hnext
    have hbegins : Begins allHeads
        (TypeExpr.operandPieces [.blank, .word k.spelling, .blank] least followed (u :: ts)) :=
      ((TypeExpr.Formed.within_begins hts.1 _ _).mono headsWithin_allHeads).append
    have hsymbol : Spaced (some ' ') [.word k.spelling] :=
      ⟨ends_symbol hk (by rintro c ⟨⟩; exact hblank), trivial⟩
    have hbefore := ends_blank (begins_fixed (List.mem_append_right _ hk) List.mem_cons_self :
      Begins [k] [.word k.spelling]) hsymbol
    have hafter := ends_blank hbegins hothers
    exact spaced_append.mpr ⟨within_spaced (TypeExpr.Formed.spaced t ht hrefs)
      (stops_some (by decide)), spaced_append.mpr ⟨⟨hbefore, hsymbol.1, hafter, trivial⟩, hothers⟩⟩

theorem Field.AllFormed.spaced {s : Scope} : (fs : List Field) → Field.AllFormed s fs →
    Field.AllReferencesApart fs → ∀ ps ∈ TypeExpr.fieldPieces fs,
      Begins allHeads ps ∧ ∀ next, Stops next → Spaced next ps
  | [], _, _ => by simp [TypeExpr.fieldPieces]
  | .mk _ type _ :: fs, ⟨htype, hname, hfs⟩, ⟨hrefs, hrest⟩ =>
    List.forall_mem_cons.mpr
      ⟨TypeExpr.Formed.named_spaced htype (TypeExpr.Formed.spaced type htype hrefs) hname,
        Field.AllFormed.spaced fs hfs hrest⟩

end

end Whiley
