import Mathlib.Data.List.Forall2
import Whiley.Proofs.Tree.Ordered

namespace Whiley

namespace Outline

variable {l n : String} {m m' : Mark} {es es' : List Entry} {c c' : Content}

theorem same_node : (node l m es).same (node l m' es') ↔ sameEntries es es' := by
  simp [same]

theorem sameEntries_cons :
    sameEntries (.mk n c :: es) (.mk n c' :: es') ↔ c.same c' ∧ sameEntries es es' := by
  simp [sameEntries, Entry.same]

theorem same_one : (node l m [.mk n c]).same (node l m' [.mk n c']) ↔ c.same c' := by
  rw [same_node, sameEntries_cons]
  exact and_iff_left rfl

theorem sameNodes_iff {os os' : List Outline} :
    sameNodes os os' ↔ List.Forall₂ (fun o o' => o.same o') os os' := by
  induction os generalizing os' with
  | nil => cases os' <;> simp [sameNodes]
  | cons o os ih => cases os' <;> simp [sameNodes, ih]

end Outline

def Identifier.Same (i i' : Identifier) : Prop :=
  i.text = i'.text

def Name.Same (n n' : Name) : Prop :=
  List.Forall₂ Identifier.Same n.components n'.components

def TypeExpr.Same (t t' : TypeExpr) : Prop :=
  t.outline.same t'.outline

def Field.Same (f f' : Field) : Prop :=
  f.type.Same f'.type ∧ f.name.Same f'.name

def Expr.Same (e e' : Expr) : Prop :=
  e.outline.same e'.outline

theorem Field.names_of_same {fs gs : List Field} (h : List.Forall₂ Field.Same fs gs) :
    fs.map (·.name.text) = gs.map (·.name.text) := by
  induction h with
  | nil => rfl
  | cons hfirst _ ih => rw [List.map_cons, List.map_cons, ih, hfirst.2]

theorem Identifier.same_outline {i i' : Identifier} : i.outline.same i'.outline ↔ i.Same i' :=
  Outline.same_one.trans decide_eq_true_iff

theorem Identifier.sameNodes_outlines {is is' : List Identifier} :
    Outline.sameNodes (is.map (·.outline)) (is'.map (·.outline)) ↔
      List.Forall₂ Identifier.Same is is' := by
  simp only [Outline.sameNodes_iff, List.forall₂_map_left_iff, List.forall₂_map_right_iff,
    Identifier.same_outline]

theorem Name.same_outline {n n' : Name} : n.outline.same n'.outline ↔ n.Same n' :=
  Outline.same_one.trans Identifier.sameNodes_outlines

namespace TypeExpr

variable {m m' : Mark} {t t' : TypeExpr} {ts ts' us us' : List TypeExpr}

theorem sameNodes_outlines : Outline.sameNodes (outlines ts) (outlines ts') ↔
    List.Forall₂ Same ts ts' := by
  rw [outlines_eq, outlines_eq, Outline.sameNodes_iff, List.forall₂_map_left_iff,
    List.forall₂_map_right_iff]
  rfl

theorem same_primitive {name : String} : (primitive m name).Same (primitive m' name) :=
  Outline.same_one.mpr (decide_eq_true rfl)

theorem same_array : (array m t).Same (array m' t') ↔ t.Same t' :=
  Outline.same_one

theorem same_list : (list m t).Same (list m' t') ↔ t.Same t' :=
  Outline.same_one

theorem same_negation : (negation m t).Same (negation m' t') ↔ t.Same t' :=
  Outline.same_one

theorem same_nominal {n n' : Name} : (nominal m n).Same (nominal m' n') ↔ n.Same n' :=
  Outline.same_one.trans Name.same_outline

theorem same_union : (union m ts).Same (union m' ts') ↔ List.Forall₂ Same ts ts' :=
  Outline.same_one.trans sameNodes_outlines

theorem same_intersection :
    (intersection m ts).Same (intersection m' ts') ↔ List.Forall₂ Same ts ts' :=
  Outline.same_one.trans sameNodes_outlines

theorem same_plain : (reference m t none).Same (reference m' t' none) ↔ t.Same t' :=
  Outline.same_node.trans (Outline.sameEntries_cons.trans (and_iff_left rfl))

theorem same_reference {l l' : Identifier} :
    (reference m t (some l)).Same (reference m' t' (some l')) ↔ t.Same t' ∧ l.Same l' :=
  Outline.same_node.trans (Outline.sameEntries_cons.trans (and_congr Iff.rfl
    (Outline.sameEntries_cons.trans ((and_iff_left rfl).trans Identifier.same_outline))))

theorem same_function :
    (function m ts us).Same (function m' ts' us') ↔
      List.Forall₂ Same ts ts' ∧ List.Forall₂ Same us us' :=
  Outline.same_node.trans (Outline.sameEntries_cons.trans (and_congr sameNodes_outlines
    (Outline.sameEntries_cons.trans ((and_iff_left rfl).trans sameNodes_outlines))))

theorem same_method {cs cs' ls ls' : List Identifier} :
    (method m ts us cs ls).Same (method m' ts' us' cs' ls') ↔
      List.Forall₂ Same ts ts' ∧ List.Forall₂ Same us us' ∧
        List.Forall₂ Identifier.Same cs cs' ∧ List.Forall₂ Identifier.Same ls ls' := by
  refine Outline.same_node.trans (Outline.sameEntries_cons.trans (and_congr sameNodes_outlines ?_))
  refine Outline.sameEntries_cons.trans (and_congr sameNodes_outlines ?_)
  refine Outline.sameEntries_cons.trans (and_congr Identifier.sameNodes_outlines ?_)
  exact Outline.sameEntries_cons.trans ((and_iff_left rfl).trans Identifier.sameNodes_outlines)

theorem same_record {isOpen : Bool} {fs fs' : List Field}
    (h : List.Forall₂ Field.Same fs fs') : (record m isOpen fs).Same (record m' isOpen fs') := by
  have hfield : ∀ f f' : Field, f.Same f' → f.outline.same f'.outline := by
    rintro ⟨m, t, i⟩ ⟨m', t', i'⟩ ⟨ht, hi⟩
    refine Outline.same_node.mpr (Outline.sameEntries_cons.mpr ⟨ht, ?_⟩)
    exact Outline.sameEntries_cons.mpr ⟨Identifier.same_outline.mpr hi, rfl⟩
  refine Outline.same_node.mpr (Outline.sameEntries_cons.mpr ⟨decide_eq_true rfl, ?_⟩)
  refine Outline.sameEntries_cons.mpr ⟨Outline.sameNodes_iff.mpr ?_, rfl⟩
  rw [Field.outlines_eq, Field.outlines_eq, List.forall₂_map_left_iff, List.forall₂_map_right_iff]
  exact h.imp hfield

end TypeExpr

namespace Expr

variable {m m' : Mark} {e e' a a' b b' : Expr} {es es' : List Expr} {i i' : Identifier}

theorem sameNodes_outlines : Outline.sameNodes (outlines es) (outlines es') ↔
    List.Forall₂ Same es es' := by
  rw [outlines_eq, outlines_eq, Outline.sameNodes_iff, List.forall₂_map_left_iff,
    List.forall₂_map_right_iff]
  rfl

theorem same_intLit {value : Nat} : (intLit m value).Same (intLit m' value) :=
  Outline.same_one.mpr (decide_eq_true rfl)

theorem same_variableAccess {d d' : Option Nat} :
    (variableAccess m i d).Same (variableAccess m' i' d') ↔ i.Same i' :=
  Outline.same_node.trans (Outline.sameEntries_cons.trans
    ((and_iff_left rfl).trans Identifier.same_outline))

theorem same_staticAccess {n n' : Name} :
    (staticAccess m n).Same (staticAccess m' n') ↔ n.Same n' :=
  Outline.same_one.trans Name.same_outline

theorem same_recordAccess :
    (recordAccess m e i).Same (recordAccess m' e' i') ↔ e.Same e' ∧ i.Same i' :=
  Outline.same_node.trans (Outline.sameEntries_cons.trans (and_congr Iff.rfl
    (Outline.sameEntries_cons.trans ((and_iff_left rfl).trans Identifier.same_outline))))

theorem same_arrayInitialiser :
    (arrayInitialiser m es).Same (arrayInitialiser m' es') ↔ List.Forall₂ Same es es' :=
  Outline.same_one.trans sameNodes_outlines

theorem same_binary {op : String} (ha : a.Same a') (hb : b.Same b') :
    (binary m a op b).Same (binary m' a' op b') := by
  refine Outline.same_node.mpr (Outline.sameEntries_cons.mpr ⟨ha, ?_⟩)
  refine Outline.sameEntries_cons.mpr ⟨decide_eq_true rfl, ?_⟩
  exact Outline.sameEntries_cons.mpr ⟨hb, rfl⟩

theorem same_unary {op : UnaryOp} (h : e.Same e') : (unary m op e).Same (unary m' op e') :=
  Outline.same_node.mpr (Outline.sameEntries_cons.mpr
    ⟨decide_eq_true rfl, Outline.sameEntries_cons.mpr ⟨h, rfl⟩⟩)

theorem same_invoke {n n' : Name} (hn : n.Same n') (hes : List.Forall₂ Same es es') :
    (invoke m n none es).Same (invoke m' n' none es') := by
  refine Outline.same_node.mpr (Outline.sameEntries_cons.mpr ⟨Name.same_outline.mpr hn, ?_⟩)
  refine Outline.sameEntries_cons.mpr ⟨rfl, ?_⟩
  exact Outline.sameEntries_cons.mpr ⟨sameNodes_outlines.mpr hes, rfl⟩

end Expr

end Whiley
