import Whiley.Layout.Module
import Whiley.Proofs.Token.Legible
import Whiley.Proofs.Tree.Formed

namespace Whiley

open Lexer Piece

def Piece.Faultless (ps : Pieces) : Prop :=
  ∀ p ∈ ps, p.fault? = none

namespace Piece

@[simp]
theorem faultless_nil : Faultless [] := by
  simp [Faultless]

@[simp]
theorem faultless_word {text : String} {ps : Pieces} :
    Faultless (.word text :: ps) ↔ Faultless ps := by
  simp [Faultless, fault?]

@[simp]
theorem faultless_blank {ps : Pieces} : Faultless (.blank :: ps) ↔ Faultless ps := by
  simp [Faultless, fault?]

@[simp]
theorem faultless_append {ps qs : Pieces} :
    Faultless (ps ++ qs) ↔ Faultless ps ∧ Faultless qs := by
  simp [Faultless, or_imp, forall_and]

@[simp]
theorem faultless_brackets {ps : Pieces} : Faultless (brackets ps) ↔ Faultless ps := by
  simp [brackets]

@[simp]
theorem faultless_piece {i : Identifier} {ps : Pieces} :
    Faultless (i.piece :: ps) ↔ Faultless ps :=
  faultless_word

theorem faultless_separated {separator : Pieces} {parts : List Pieces} (hs : Faultless separator)
    (h : ∀ ps ∈ parts, Faultless ps) : Faultless (separated separator parts) := by
  induction parts with
  | nil => exact faultless_nil
  | cons ps rest ih =>
    have hps := h ps List.mem_cons_self
    cases rest with
    | nil => exact hps
    | cons qs rest =>
      have hrest := ih fun ps hps => h ps (List.mem_cons_of_mem _ hps)
      rw [separated, faultless_append, faultless_append]
      exact ⟨⟨hps, hs⟩, hrest⟩
      · exact nofun

end Piece

structure Piece.Readable (ps : Pieces) : Prop where
  legible : Legible (textOf ps).toList
  faultless : Faultless ps

namespace Piece.Readable

variable {ps qs : Pieces} {text : String}

theorem toList_textOf_cons (p : Piece) (ps : Pieces) :
    (textOf (p :: ps)).toList = p.text.toList ++ (textOf ps).toList := by
  simp [textOf]

theorem nil : Readable [] :=
  ⟨.nil, by simp⟩

theorem append (hp : Readable ps) (hq : Readable qs) : Readable (ps ++ qs) := by
  refine ⟨?_, by simpa using ⟨hp.faultless, hq.faultless⟩⟩
  rw [textOf_append, String.toList_append]
  exact hp.legible.append hq.legible

theorem word (h : Legible text.toList) (hp : Readable ps) : Readable (.word text :: ps) := by
  refine ⟨?_, by simpa using hp.faultless⟩
  rw [toList_textOf_cons]
  exact h.append hp.legible

theorem blank (hp : Readable ps) : Readable (.blank :: ps) := by
  refine ⟨?_, by simpa using hp.faultless⟩
  rw [toList_textOf_cons]
  exact .plain (by decide) hp.legible

theorem mark (h : text.toList.all isPlain) (hp : Readable ps) : Readable (.word text :: ps) :=
  hp.word (.of_plain (List.all_eq_true.mp h))

def isWordText : List Char → Bool
  | [] => false
  | c :: cs => isWordStart c && cs.all isWordChar

theorem keyword (h : isWordText text.toList) (hp : Readable ps) : Readable (.word text :: ps) := by
  refine hp.word (.of_isWord ?_)
  cases hcs : text.toList with
  | nil =>
    rw [hcs] at h
    cases h
  | cons c cs =>
    rw [hcs, isWordText, Bool.and_eq_true] at h
    exact ⟨c, cs, rfl, h.1, List.all_eq_true.mp h.2⟩

theorem brackets (hp : Readable ps) : Readable (brackets ps) :=
  mark (by decide) (hp.append (mark (by decide) nil))

theorem separated {separator : Pieces} {parts : List Pieces} (hs : Readable separator)
    (h : ∀ ps ∈ parts, Readable ps) : Readable (separated separator parts) := by
  induction parts with
  | nil => exact nil
  | cons ps rest ih =>
    have hps := h ps List.mem_cons_self
    cases rest with
    | nil => exact hps
    | cons qs rest =>
      exact (hps.append hs).append (ih fun ps hps => h ps (List.mem_cons_of_mem _ hps))

theorem commas {parts : List Pieces} (h : ∀ ps ∈ parts, Readable ps) : Readable (commas parts) :=
  separated (mark (by decide) (blank nil)) h

end Piece.Readable

theorem Identifier.IsWord.legible {i : Identifier} (h : i.IsWord) : Legible i.text.toList :=
  .of_isWord h.1

theorem Identifier.IsLifetime.legible {i : Identifier} (h : i.IsLifetime) :
    Legible i.text.toList := by
  rcases h with h | h | h
  · exact h.legible
  · rw [h]
    exact .of_isWord ⟨'t', ['h', 'i', 's'], rfl, by decide, List.all_eq_true.mp (by decide)⟩
  · rw [h]
    exact .of_plain (List.all_eq_true.mp (by decide))

theorem Name.Formed.readable {n : Name} (h : n.Formed) : Readable n.pieces := by
  refine .separated (.mark (by decide) .nil) ?_
  intro ps hps
  obtain ⟨i, hi, rfl⟩ := List.mem_map.mp hps
  exact .word (h.2 i hi).legible .nil

theorem Identifier.enclosed_readable {opening closing : String} {is : List Identifier}
    (hopening : opening.toList.all isPlain) (hclosing : closing.toList.all isPlain)
    (h : ∀ i ∈ is, Legible i.text.toList) : Readable (Identifier.enclosed opening closing is) := by
  unfold Identifier.enclosed
  split
  · exact .nil
  · refine .mark hopening ((Readable.commas ?_).append (.mark hclosing .nil))
    intro ps hps
    obtain ⟨i, hi, rfl⟩ := List.mem_map.mp hps
    exact .word (h i hi) .nil

theorem Scope.Declares.isWord {s : Scope} {ls : List Identifier} (h : s.Declares ls) :
    ∀ l ∈ ls, l.IsWord := by
  induction ls generalizing s with
  | nil => simp
  | cons l ls ih => exact List.forall_mem_cons.mpr ⟨h.1, ih h.2.2⟩

namespace TypeExpr

theorem within_readable {t : TypeExpr} (h : ∀ followed, Readable (t.bare followed)) (least : Nat)
    (followed : Bool) : Readable (t.within least followed t.bare) := by
  unfold within
  split
  · exact (h false).brackets
  · exact h followed

theorem primitive_legible {name : String}
    (h : name ∈ ["void", "any", "null", "bool", "byte", "int"]) : Readable [.word name] := by
  refine .keyword ?_ .nil
  revert name
  decide

end TypeExpr

mutual

theorem TypeExpr.Formed.readable {s : Scope} :
    (t : TypeExpr) → t.Formed s → ∀ followed, Readable (t.bare followed)
  | .primitive _ _, h, _ => TypeExpr.primitive_legible h
  | .nominal _ _, h, _ => Name.Formed.readable h
  | .array _ element, h, _ =>
    (TypeExpr.within_readable (TypeExpr.Formed.readable element h) _ _).append
      (.mark (by decide) (.mark (by decide) .nil))
  | .list _ element, h, _ =>
    .mark (by decide) ((TypeExpr.within_readable (TypeExpr.Formed.readable element h) _ _).append
      (.mark (by decide) .nil))
  | .record _ isOpen fields, ⟨_, _, h⟩, _ => by
    have hdots : ∀ ps ∈ if isOpen then [[Piece.word "..."]] else [], Readable ps := by
      cases isOpen
      · simp
      · simpa using Readable.mark (by decide) .nil
    have hparts := List.forall_mem_append.mpr ⟨Field.AllFormed.readable fields h, hdots⟩
    exact .mark (by decide) ((Readable.commas hparts).append (.mark (by decide) .nil))
  | .negation _ element, h, _ =>
    .mark (by decide) (TypeExpr.within_readable (TypeExpr.Formed.readable element h) _ _)
  | .reference _ element none, ⟨_, h⟩, _ =>
    .mark (by decide) (TypeExpr.within_readable (TypeExpr.Formed.readable element h) _ _)
  | .reference _ element (some l), ⟨hl, h⟩, _ =>
    .mark (by decide) (.word (hl l rfl).1.legible (.mark (by decide)
      (TypeExpr.within_readable (TypeExpr.Formed.readable element h) _ _)))
  | .union _ operands, ⟨_, h⟩, _ =>
    TypeExpr.AllFormed.operands_readable (.blank (.mark (by decide) (.blank .nil))) operands h
  | .intersection _ operands, ⟨_, h⟩, _ =>
    TypeExpr.AllFormed.operands_readable (.blank (.mark (by decide) (.blank .nil))) operands h
  | .function _ parameters returns, ⟨hparameters, hreturns⟩, _ =>
    .keyword (by decide)
      ((Readable.commas (TypeExpr.AllFormed.readable parameters hparameters)).brackets.append
        (.mark (by decide)
          (Readable.commas (TypeExpr.AllFormed.readable returns hreturns)).brackets))
  | .method _ parameters returns captures lifetimes, ⟨hcaptures, hlifetimes, hparameters, hreturns⟩,
      _ => by
    have hcaptured : Readable (Identifier.enclosed "[" "]" captures) :=
      Identifier.enclosed_readable (by decide) (by decide) fun i hi => (hcaptures i hi).legible
    have hdeclared : Readable (Identifier.enclosed "<" ">" lifetimes) :=
      Identifier.enclosed_readable (by decide) (by decide)
        fun i hi => (hlifetimes.isWord i hi).legible
    have hreturned : Readable (if returns.isEmpty then [] else
        .word "->" :: brackets (commas (TypeExpr.listPieces returns))) := by
      split
      · exact .nil
      · exact .mark (by decide)
          (Readable.commas (TypeExpr.AllFormed.readable returns hreturns)).brackets
    exact .keyword (by decide) (((hcaptured.append hdeclared).append
      (Readable.commas (TypeExpr.AllFormed.readable parameters hparameters)).brackets).append
        hreturned)

theorem TypeExpr.AllFormed.readable {s : Scope} :
    (ts : List TypeExpr) → TypeExpr.AllFormed s ts → ∀ ps ∈ TypeExpr.listPieces ts, Readable ps
  | [], _ => by simp [TypeExpr.listPieces]
  | t :: ts, ⟨ht, hts⟩ =>
    List.forall_mem_cons.mpr ⟨TypeExpr.within_readable (TypeExpr.Formed.readable t ht) _ _,
      TypeExpr.AllFormed.readable ts hts⟩

theorem TypeExpr.AllFormed.operands_readable {s : Scope} {operator : Pieces} {least : Nat}
    {followed : Bool} (hoperator : Readable operator) :
    (ts : List TypeExpr) → TypeExpr.AllFormed s ts →
      Readable (TypeExpr.operandPieces operator least followed ts)
  | [], _ => .nil
  | t :: ts, ⟨ht, hts⟩ => by
    refine (TypeExpr.within_readable (TypeExpr.Formed.readable t ht) _ _).append ?_
    split
    · exact .nil
    · exact hoperator.append (TypeExpr.AllFormed.operands_readable hoperator ts hts)

theorem Field.AllFormed.readable {s : Scope} :
    (fs : List Field) → Field.AllFormed s fs → ∀ ps ∈ TypeExpr.fieldPieces fs, Readable ps
  | [], _ => by simp [TypeExpr.fieldPieces]
  | .mk _ type _ :: fs, ⟨htype, hname, hfs⟩ =>
    List.forall_mem_cons.mpr
      ⟨(TypeExpr.within_readable (TypeExpr.Formed.readable type htype) _ _).append
        (.blank (.word hname.legible .nil)), Field.AllFormed.readable fs hfs⟩

end

end Whiley
