import Mathlib.Logic.ExistsUnique
import Mathlib.Logic.Relation
import Whiley.Arena
import Whiley.Tree.Node

namespace Whiley

def Content.nodes : Content → List Outline
  | .child o => [o]
  | .children os => os
  | .pairs os => os
  | _ => []

def Entry.nodes : Entry → List Outline
  | .mk _ c => c.nodes

def Outline.children (o : Outline) : List Outline :=
  o.entries.flatMap Entry.nodes

/-- From a node down to itself or a node anywhere below it. -/
def Outline.Reaches : Outline → Outline → Prop :=
  Relation.ReflTransGen fun o c => c ∈ o.children

section Lists

theorem TypeExpr.outlines_eq (ts : List TypeExpr) :
    TypeExpr.outlines ts = ts.map TypeExpr.outline := by
  induction ts with
  | nil => rfl
  | cons t ts ih => rw [TypeExpr.outlines, ih, List.map_cons]

theorem Field.outlines_eq (fs : List Field) : Field.outlines fs = fs.map Field.outline := by
  induction fs with
  | nil => rfl
  | cons x fs ih => rw [Field.outlines, ih, List.map_cons]

theorem Expr.outlines_eq (es : List Expr) : Expr.outlines es = es.map Expr.outline := by
  induction es with
  | nil => rfl
  | cons e es ih => rw [Expr.outlines, ih, List.map_cons]

theorem FieldValue.outlines_eq (fs : List FieldValue) :
    FieldValue.outlines fs = fs.flatMap fun x => [x.name.outline, x.value.outline] := by
  induction fs with
  | nil => rfl
  | cons x fs ih =>
    obtain ⟨name, value⟩ := x
    rw [FieldValue.outlines, ih, List.flatMap_cons]
    rfl

theorem Range.outlines_eq (rs : List Range) : Range.outlines rs = rs.map Range.outline := by
  induction rs with
  | nil => rfl
  | cons r rs ih => rw [Range.outlines, ih, List.map_cons]

theorem ToNode.outline_stmt (s : Stmt) : (ToNode.toNode s).outline = s.outline := by
  cases s <;> rfl

theorem Stmt.outlines_eq (ss : List Stmt) :
    Stmt.outlines ss = ss.map fun s => (ToNode.toNode s).outline := by
  induction ss with
  | nil => rfl
  | cons s ss ih => rw [Stmt.outlines, ih, List.map_cons, ToNode.outline_stmt]

theorem Case.outlines_eq (cs : List Case) : Case.outlines cs = cs.map Case.outline := by
  induction cs with
  | nil => rfl
  | cons c cs ih => rw [Case.outlines, ih, List.map_cons]

end Lists

namespace Arena

variable {a b : Arena Node} {o c : Outline} {m n i : Nat}

theorem size_le (h : a ≤ b) : a.size ≤ b.size := by
  rw [← length_toList, ← length_toList]
  exact List.IsPrefix.length_le h

/-- The node stands in the arena, at the place of its mark and before `n`. -/
def Stands (a : Arena Node) (n : Nat) (o : Outline) : Prop :=
  o.mark.index < n ∧ (a.toList[o.mark.index]?).map Node.outline = some o

theorem Stands.mono (h : a.Stands m o) (hmn : m ≤ n) : a.Stands n o :=
  ⟨Nat.lt_of_lt_of_le h.1 hmn, h.2⟩

/-- What the node at `i` is to be: its children stand before it, and so does the variable it names. -/
structure Admits (a : Arena Node) (i : Nat) (o : Outline) : Prop where
  index : o.mark.index = i
  children : ∀ c ∈ o.children, a.Stands i c
  link : ∀ m name d, o = (Expr.variableAccess m name (some d)).outline →
    d < i ∧ ∃ v initialiser, a.toList[d]? = some (.variable v initialiser) ∧ v.name.text = name.text

def OrderedTo (a : Arena Node) (n : Nat) : Prop :=
  ∀ i < n, ∀ x, a.toList[i]? = some x → a.Admits i x.outline

def Ordered (a : Arena Node) : Prop :=
  a.OrderedTo a.size

theorem OrderedTo.snoc {x : Node} (h : a.OrderedTo n) (hx : a.toList[n]? = some x)
    (hadmits : a.Admits n x.outline) : a.OrderedTo (n + 1) := by
  intro i hi y hy
  rcases Nat.lt_succ_iff_lt_or_eq.mp hi with hlt | rfl
  · exact h i hlt y hy
  · obtain rfl := Option.some.inj (hx.symm.trans hy)
    exact hadmits

section Ordered

variable (h : a.Ordered)

include h

theorem Ordered.admits (hc : a.Stands n o) : a.Admits o.mark.index o := by
  obtain ⟨x, hx, rfl⟩ := Option.map_eq_some_iff.mp hc.2
  have hlt := (List.getElem?_eq_some_iff.mp hx).1
  rw [length_toList] at hlt
  exact h _ hlt x hx

theorem Ordered.stands_of_reaches (ho : a.Stands n o) (hreaches : o.Reaches c) : a.Stands n c := by
  induction hreaches with
  | refl => exact ho
  | tail _ hc ih => exact ((h.admits ih).children _ hc).mono (Nat.le_of_lt ih.1)

theorem Ordered.unique (hc : a.Stands n c) :
    ∃! i : Nat, (a.toList[i]?).map Node.outline = some c := by
  refine ⟨c.mark.index, hc.2, fun i hi => ?_⟩
  obtain ⟨x, hx, rfl⟩ := Option.map_eq_some_iff.mp hi
  have hlt := (List.getElem?_eq_some_iff.mp hx).1
  rw [length_toList] at hlt
  exact (h i hlt x hx).index.symm

end Ordered

end Arena

end Whiley
