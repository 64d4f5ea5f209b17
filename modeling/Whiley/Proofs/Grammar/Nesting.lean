import Whiley.Proofs.Grammar.Places
import Whiley.Proofs.Tree.Ordered

/-!
Which tokens a node is made of. Places are counted in tokens; a node goes from one token that is no
space to another, and its children lie between the two.
-/

namespace Whiley

namespace Input

variable {input : Input} {i j k l a b : Nat} {s : Span}

/-- There is a token at `i`, and it is no space. -/
def Solid (input : Input) (i : Nat) : Prop :=
  ∃ t, input.tokens[i]? = some t ∧ t.kind.isSpace = false

/-- From `i` to before `j` there is only space. -/
def Blank (input : Input) (i j : Nat) : Prop :=
  ∀ k, i ≤ k → k < j → ¬ input.Solid k

def Passes (input : Input) (i j : Nat) : Prop :=
  ∃ k, i ≤ k ∧ k < j ∧ input.Solid k

/-- The span goes from the start of one token to the end of another. -/
structure Covers (input : Input) (first last : Nat) (s : Span) : Prop where
  le : first ≤ last
  start : input.Solid first
  stop : input.Solid last
  span : s = ⟨input.startAt first, input.stopBefore (last + 1)⟩

/-- The span is that of all that is no space from `i` to before `j`. -/
def Fills (input : Input) (i j : Nat) (s : Span) : Prop :=
  ∃ first last, input.Covers first last s ∧ i ≤ first ∧ last < j ∧ input.Blank i first ∧
    input.Blank (last + 1) j

theorem Blank.trans (h : input.Blank i j) (h' : input.Blank j k) : input.Blank i k := by
  intro m him hmk
  rcases Nat.lt_or_ge m j with hmj | hjm
  · exact h m him hmj
  · exact h' m hjm hmk

theorem Skipped.blank {lines : Bool} (h : input.Skipped lines i j) : input.Blank i j := by
  rintro k hik hkj ⟨t, ht, hsolid⟩
  obtain ⟨u, hu, hskips⟩ := h.2 k hik hkj
  obtain rfl := Option.some.inj (ht.symm.trans hu)
  rw [isSpace_of_skips hskips] at hsolid
  cases hsolid

theorem blank_skip (input : Input) (lines : Bool) (i : Nat) :
    input.Blank i (input.skip lines i) :=
  (input.skipped_skip lines i).blank

theorem le_skip (input : Input) (lines : Bool) (i : Nat) : i ≤ input.skip lines i :=
  (input.skipped_skip lines i).1

theorem Solid.skip_eq (h : input.Solid j) (hij : i ≤ j) (hblank : input.Blank i j) :
    input.skip true i = j := by
  obtain ⟨t, ht, hsolid⟩ := h
  have hle : input.skip true i ≤ j := by
    by_contra hlt
    exact input.blank_skip true i j hij (by omega) ⟨t, ht, hsolid⟩
  rcases Nat.lt_or_eq_of_le hle with hlt | heq
  · obtain ⟨hj, -⟩ := Array.getElem?_eq_some_iff.mp ht
    have hu : input.tokens[input.skip true i]? = some input.tokens[input.skip true i] :=
      Array.getElem?_eq_getElem _
    have hstops : Kind.isSpace _ = false := input.skip_stops hu
    exact absurd ⟨_, hu, hstops⟩ (hblank _ (input.le_skip true i) hlt)
  · exact heq

theorem Passes.mono (h : input.Passes i j) (hki : k ≤ i) (hjl : j ≤ l) : input.Passes k l := by
  obtain ⟨m, him, hmj, hsolid⟩ := h
  exact ⟨m, by omega, by omega, hsolid⟩

theorem Passes.lt (h : input.Passes i j) : i < j := by
  obtain ⟨m, him, hmj, -⟩ := h
  omega

theorem Passes.skip (h : input.Passes i j) :
    input.skip true i < j ∧ input.Solid (input.skip true i) := by
  obtain ⟨k, hik, hkj, hsolid⟩ := h
  have hle : input.skip true i ≤ k := by
    by_contra hlt
    exact input.blank_skip true i k hik (by omega) hsolid
  obtain ⟨t, ht, -⟩ := hsolid
  obtain ⟨hk, -⟩ := Array.getElem?_eq_some_iff.mp ht
  have hu : input.tokens[input.skip true i]? = some input.tokens[input.skip true i] :=
    Array.getElem?_eq_getElem _
  exact ⟨by omega, _, hu, input.skip_stops hu⟩

theorem Solid.trimEnd_eq (h : input.Solid j) (hjk : j < k) (hblank : input.Blank (j + 1) k) :
    input.trimEnd k = j + 1 := by
  induction hjk with
  | refl =>
    obtain ⟨t, ht, hsolid⟩ := h
    rw [trimEnd, ht]
    simp [hsolid]
  | @step k hjk ih =>
    have hprevious := ih fun m hjm hmk => hblank m hjm (by omega)
    have hspace : ∀ t, input.tokens[k]? = some t → t.kind.isSpace = true := by
      intro t ht
      by_contra hsolid
      exact hblank k hjk (Nat.lt_succ_self k) ⟨t, ht, eq_false_of_ne_true hsolid⟩
    rw [trimEnd]
    cases ht : input.tokens[k]? with
    | none => exact hprevious
    | some t =>
      simp only [hspace t ht, if_true]
      exact hprevious

theorem Passes.last (h : input.Passes i j) :
    ∃ last, i ≤ last ∧ last < j ∧ input.Solid last ∧ input.Blank (last + 1) j := by
  obtain ⟨k, hik, hkj, hsolid⟩ := h
  induction hkj with
  | refl => exact ⟨k, hik, Nat.lt_succ_self k, hsolid, fun m hkm hmk => by omega⟩
  | @step j hkj ih =>
    by_cases hj : input.Solid j
    · exact ⟨j, by omega, Nat.lt_succ_self j, hj, fun m hjm hmj => by omega⟩
    · obtain ⟨last, hle, hlt, hlast, hblank⟩ := ih
      refine ⟨last, hle, by omega, hlast, fun m hlm hmj => ?_⟩
      rcases Nat.lt_succ_iff_lt_or_eq.mp hmj with hlt | rfl
      · exact hblank m hlm hlt
      · exact hj

theorem Covers.ends (h : input.Covers a b s) : ∃ t u, input.tokens[a]? = some t ∧
    input.tokens[b]? = some u ∧ t.kind.isSpace = false ∧ u.kind.isSpace = false ∧
      s = ⟨t.start, u.stop⟩ := by
  obtain ⟨t, ht, hstart⟩ := h.start
  obtain ⟨u, hu, hstop⟩ := h.stop
  refine ⟨t, u, ht, hu, hstart, hstop, ?_⟩
  rw [h.span]
  simp [startAt, stopBefore, ht, hu]

theorem Covers.passes (h : input.Covers a b s) (hi : i ≤ a) (hj : b < j) : input.Passes i j :=
  ⟨a, hi, Nat.lt_of_le_of_lt h.le hj, h.start⟩

theorem Passes.fills (h : input.Passes i j) : input.Fills i j (input.span i j) := by
  obtain ⟨last, hle, hlt, hlast, hblank⟩ := h.last
  obtain ⟨-, hfirst⟩ := h.skip
  have hskip : input.skip true i ≤ last := by
    by_contra hgt
    exact input.blank_skip true i last hle (by omega) hlast
  refine ⟨input.skip true i, last, ⟨hskip, hfirst, hlast, ?_⟩, input.le_skip true i, hlt,
    input.blank_skip true i, hblank⟩
  rw [Input.span, hlast.trimEnd_eq hlt hblank]
  exact if_pos (Nat.lt_succ_of_le hskip)

theorem Fills.extend (h : input.Fills i j s) (hjk : j ≤ k) (hblank : input.Blank j k) :
    input.Fills i k s := by
  obtain ⟨first, last, hcovers, hi, hj, hbefore, hafter⟩ := h
  exact ⟨first, last, hcovers, hi, by omega, hbefore, hafter.trans hblank⟩

theorem Fills.unskip (h : input.Fills j k s) (hij : input.Skipped true i j) :
    input.Fills i k s := by
  obtain ⟨first, last, hcovers, hi, hj, hbefore, hafter⟩ := h
  exact ⟨first, last, hcovers, Nat.le_trans hij.1 hi, hj, hij.blank.trans hbefore, hafter⟩

theorem Fills.start_eq (h : input.Fills i j s) : s.start = input.startAt (input.skip true i) := by
  obtain ⟨first, last, hcovers, hi, -, hbefore, -⟩ := h
  rw [hcovers.span, hcovers.start.skip_eq hi hbefore]

theorem Fills.within (h : input.Fills i j s) (hk : input.Solid k) (hik : i ≤ k) (hkj : k < j) :
    ∃ first last, input.Covers first last s ∧ first ≤ k ∧ k ≤ last := by
  obtain ⟨first, last, hcovers, -, -, hbefore, hafter⟩ := h
  refine ⟨first, last, hcovers, ?_, ?_⟩
  · by_contra hlt
    exact hbefore k hik (by omega) hk
  · by_contra hgt
    exact hafter k (by omega) hkj hk

theorem Fills.passes (h : input.Fills i j s) : input.Passes i j := by
  obtain ⟨first, last, hcovers, hi, hj, -, -⟩ := h
  exact hcovers.passes hi hj

theorem covers_token {t : Token} (ht : input.tokens[i]? = some t)
    (hsolid : t.kind.isSpace = false) : input.Covers i i t.span where
  le := Nat.le_refl i
  start := ⟨t, ht, hsolid⟩
  stop := ⟨t, ht, hsolid⟩
  span := by simp [startAt, stopBefore, ht, Token.start, Token.stop]

/-- The next token from `i` on is `t`, and after it comes `j`. -/
structure Takes (input : Input) (lines : Bool) (i : Nat) (t : Token) (j : Nat) : Prop where
  token : input.tokens[input.skip lines i]? = some t
  solid : t.kind.isSpace = false
  next : j = input.skip lines i + 1

namespace Takes

variable {lines : Bool} {t : Token}

theorem lt (h : input.Takes lines i t j) : i < j := by
  rw [h.next]
  exact Nat.lt_succ_of_le (input.le_skip lines i)

theorem covers (h : input.Takes lines i t j) :
    input.Covers (input.skip lines i) (input.skip lines i) t.span :=
  covers_token h.token h.solid

theorem passes (h : input.Takes lines i t j) : input.Passes i j :=
  h.covers.passes (input.le_skip lines i) (by rw [h.next]; exact Nat.lt_succ_self _)

theorem unskip (h : input.Takes lines j t k) (hij : input.Skipped lines i j) :
    input.Takes lines i t k := by
  obtain ⟨htoken, hsolid, hnext⟩ := h
  rw [hij.skip_eq] at htoken hnext
  exact ⟨htoken, hsolid, hnext⟩

end Takes

/-- What is read is an opening bracket, something with the span, and a closing bracket. -/
inductive Enclosed (input : Input) : Nat → Nat → Span → Prop
  | once {i j k l t u s} (ht : input.Takes true i t j) (hopen : t.kind = .lparen)
    (hs : input.Fills j k s) (hu : input.Takes true k u l) (hclose : u.kind = .rparen) :
    Enclosed input i l s
  | more {i j k l t u s} (ht : input.Takes true i t j) (hopen : t.kind = .lparen)
    (hs : Enclosed input j k s) (hu : input.Takes true k u l) (hclose : u.kind = .rparen) :
    Enclosed input i l s

theorem Takes.afterSkip {lines : Bool} {t : Token} (h : input.Takes lines i t j) :
    input.Takes lines (input.skip lines i) t j := by
  obtain ⟨htoken, hsolid, hnext⟩ := h
  rw [← input.skip_skip lines i] at htoken hnext
  exact ⟨htoken, hsolid, hnext⟩

theorem Enclosed.afterSkip (h : input.Enclosed i j s) :
    input.Enclosed (input.skip true i) j s := by
  cases h with
  | once ht hopen hs hu hclose => exact .once ht.afterSkip hopen hs hu hclose
  | more ht hopen hs hu hclose => exact .more ht.afterSkip hopen hs hu hclose

theorem Enclosed.unskip (h : input.Enclosed j k s) (hij : input.Skipped true i j) :
    input.Enclosed i k s := by
  cases h with
  | once ht hopen hs hu hclose => exact .once (ht.unskip hij) hopen hs hu hclose
  | more ht hopen hs hu hclose => exact .more (ht.unskip hij) hopen hs hu hclose

/-- The tokens that a node and all nodes below it are made of lie from `i` to before `j`. -/
inductive Nests (input : Input) : Nat → Nat → Outline → Prop
  | empty {i j m} : Nests input i j (.node "Block" m [.mk "statements" (.children [])])
  | node {i j first last label m es} (hi : i ≤ first) (hj : last < j)
    (hcovers : input.Covers first last m.span)
    (hes : ∀ c ∈ es.flatMap Entry.nodes, Nests input first (last + 1) c) :
    Nests input i j (.node label m es)

namespace Nests

variable {o : Outline}

theorem mono (h : input.Nests i j o) (hki : k ≤ i) (hjl : j ≤ l) : input.Nests k l o := by
  cases h with
  | empty => exact .empty
  | node hi hj hcovers hes => exact .node (by omega) (by omega) hcovers hes

theorem tight (h : input.Nests i j o) (hpasses : input.Passes i j) :
    input.Nests (input.skip true i) (input.trimEnd j) o := by
  cases h with
  | empty => exact .empty
  | @node _ _ first last _ _ _ hi hj hcovers hes =>
    refine .node ?_ ?_ hcovers hes
    · by_contra hlt
      exact input.blank_skip true i first hi (by omega) hcovers.start
    · obtain ⟨end_, -, hlt, hend, hblank⟩ := hpasses.last
      rw [hend.trimEnd_eq hlt hblank]
      by_contra hgt
      exact hblank last (by omega) hj hcovers.stop

theorem to_size (h : input.Nests i j o) : input.Nests i input.tokens.size o := by
  cases h with
  | empty => exact .empty
  | node hi hj hcovers hes =>
    obtain ⟨t, ht, -⟩ := hcovers.stop
    exact .node hi (Array.getElem?_eq_some_iff.mp ht).1 hcovers hes

theorem covers (h : input.Nests i j o) (ho : o.label ≠ "Block") :
    ∃ first last, i ≤ first ∧ last < j ∧ input.Covers first last o.mark.span := by
  cases h with
  | empty => exact absurd rfl ho
  | @node _ _ first last _ _ _ hi hj hcovers _ => exact ⟨first, last, hi, hj, hcovers⟩

theorem passes (h : input.Nests i j o) (ho : o.label ≠ "Block") : input.Passes i j := by
  obtain ⟨first, last, hi, hj, hcovers⟩ := h.covers ho
  exact hcovers.passes hi hj

theorem children (h : input.Nests i j o) : ∀ c ∈ o.children, input.Nests i j c := by
  cases h with
  | empty => exact fun c hc => absurd hc List.not_mem_nil
  | node hi hj _ hes => exact fun c hc => (hes c hc).mono hi hj

theorem withSpan {label : String} {m : Mark} {es : List Entry} (h : input.Nests i j o)
    (ho : o.label ≠ "Block") (hspan : m.span = o.mark.span)
    (hes : ∀ c ∈ es.flatMap Entry.nodes, c = o) : input.Nests i j (.node label m es) := by
  cases h with
  | empty => exact absurd rfl ho
  | @node _ _ first last _ _ _ hi hj hcovers hchildren =>
    rw [Outline.mark] at hspan
    refine .node hi hj (hspan ▸ hcovers) fun c hc => ?_
    rw [hes c hc]
    exact .node (Nat.le_refl _) (Nat.lt_succ_self _) hcovers hchildren

end Nests

def NestsContent (input : Input) (i j : Nat) : Content → Prop
  | .child o => input.Nests i j o
  | .children os => ∀ o ∈ os, input.Nests i j o
  | .pairs os => ∀ o ∈ os, input.Nests i j o
  | _ => True

def NestsAll (input : Input) (i j : Nat) : List Entry → Prop
  | [] => True
  | .mk _ c :: es => input.NestsContent i j c ∧ input.NestsAll i j es

theorem NestsContent.nodes {c : Content} (h : input.NestsContent i j c) :
    ∀ o ∈ c.nodes, input.Nests i j o := by
  cases c with
  | child o => exact fun o ho => List.mem_singleton.mp ho ▸ h
  | children os => exact h
  | pairs os => exact h
  | _ => exact fun o ho => absurd ho List.not_mem_nil

theorem NestsAll.nodes {es : List Entry} (h : input.NestsAll i j es) :
    ∀ o ∈ es.flatMap Entry.nodes, input.Nests i j o := by
  induction es with
  | nil => exact fun o ho => absurd ho List.not_mem_nil
  | cons e es ih =>
    obtain ⟨name, c⟩ := e
    intro o ho
    rw [List.flatMap_cons] at ho
    rcases List.mem_append.mp ho with ho | ho
    · exact h.1.nodes o ho
    · exact ih h.2 o ho

theorem NestsAll.append {es es' : List Entry} (h : input.NestsAll i j es)
    (h' : input.NestsAll i j es') : input.NestsAll i j (es ++ es') := by
  induction es with
  | nil => exact h'
  | cons e es ih =>
    obtain ⟨name, c⟩ := e
    exact ⟨h.1, ih h.2⟩

theorem NestsAll.node {label : String} {m : Mark} {es : List Entry} (h : input.NestsAll i j es)
    (hpasses : input.Passes i j) (hspan : m.span = input.span i j) :
    input.Nests i j (.node label m es) := by
  obtain ⟨first, last, hcovers, hi, hj, hbefore, hafter⟩ := hpasses.fills
  have hfirst := hcovers.start.skip_eq hi hbefore
  have hlast := hcovers.stop.trimEnd_eq hj hafter
  refine .node hi hj (hspan ▸ hcovers) fun c hc => ?_
  rw [← hfirst, ← hlast]
  exact (h.nodes c hc).tight hpasses

end Input

/-- What is made of nodes, and so of tokens. -/
class Held (α : Type) where
  held : Input → Nat → Nat → α → Prop
  mono : ∀ {input x i j k l}, k ≤ i → j ≤ l → held input i j x → held input k l x

def Input.Holds {α : Type} [Held α] (input : Input) (i j : Nat) (x : α) : Prop :=
  Held.held input i j x

instance {α : Type} [ToNode α] : Held α where
  held input i j x := input.Nests i j (ToNode.toNode x).outline
  mono hki hjl h := h.mono hki hjl

instance : Held FieldValue where
  held input i j x := input.Nests i j x.name.outline ∧ input.Nests i j x.value.outline
  mono hki hjl h := ⟨h.1.mono hki hjl, h.2.mono hki hjl⟩

instance {α : Type} [Held α] : Held (List α) where
  held input i j xs := ∀ x ∈ xs, input.Holds i j x
  mono hki hjl h x hx := Held.mono hki hjl (h x hx)

instance {α : Type} [Held α] : Held (Option α) where
  held input i j o := ∀ x ∈ o, input.Holds i j x
  mono hki hjl h x hx := Held.mono hki hjl (h x hx)

instance {α β : Type} [Held α] [Held β] : Held (α × β) where
  held input i j x := input.Holds i j x.1 ∧ input.Holds i j x.2
  mono hki hjl h := ⟨Held.mono hki hjl h.1, Held.mono hki hjl h.2⟩

namespace Input.Holds

variable {α : Type} {input : Input} {i j k l : Nat}

theorem mono [Held α] {x : α} (h : input.Holds i j x) (hki : k ≤ i) (hjl : j ≤ l) :
    input.Holds k l x :=
  Held.mono hki hjl h

theorem outlines [ToNode α] {xs : List α} {os : List Outline} (h : input.Holds i j xs)
    (hos : os = xs.map fun x => (ToNode.toNode x).outline) : ∀ o ∈ os, input.Nests i j o := by
  rw [hos]
  exact List.forall_mem_map.mpr h

theorem nil [Held α] : input.Holds i j ([] : List α) :=
  fun _ hx => absurd hx List.not_mem_nil

theorem cons [Held α] {x : α} {xs : List α} (hx : input.Holds i j x) (hxs : input.Holds i j xs) :
    input.Holds i j (x :: xs) :=
  List.forall_mem_cons.mpr ⟨hx, hxs⟩

theorem reverse [Held α] {xs : List α} (h : input.Holds i j xs) : input.Holds i j xs.reverse :=
  fun x hx => h x (List.mem_reverse.mp hx)

theorem none [Held α] : input.Holds i j (Option.none : Option α) :=
  nofun

theorem some [Held α] {x : α} (hx : input.Holds i j x) : input.Holds i j (Option.some x) := by
  rintro _ ⟨⟩
  exact hx

theorem pairs {fs : List FieldValue} (h : input.Holds i j fs) :
    ∀ o ∈ FieldValue.outlines fs, input.Nests i j o := by
  intro o ho
  rw [FieldValue.outlines_eq] at ho
  obtain ⟨x, hx, ho⟩ := List.mem_flatMap.mp ho
  simp only [List.mem_cons, List.not_mem_nil, or_false] at ho
  rcases ho with rfl | rfl
  · exact (h x hx).1
  · exact (h x hx).2

theorem option [ToNode α] {o : Option α} (h : input.Holds i j o) :
    input.NestsContent i j (.ofOption (o.map fun x => (ToNode.toNode x).outline)) := by
  cases o with
  | none => trivial
  | some x => exact h x rfl

end Input.Holds

theorem Identifier.label_ne_block (x : Identifier) : x.outline.label ≠ "Block" := by
  simp [Identifier.outline, Outline.label]

theorem Name.label_ne_block (n : Name) : n.outline.label ≠ "Block" := by
  simp [Name.outline, Outline.label]

theorem TypeExpr.label_ne_block (t : TypeExpr) : t.outline.label ≠ "Block" := by
  cases t <;> simp [TypeExpr.outline, Outline.label]

theorem Expr.label_ne_block (e : Expr) : e.outline.label ≠ "Block" := by
  cases e <;> simp [Expr.outline, Outline.label]

theorem Stmt.label_ne_block (s : Stmt) : s.outline.label ≠ "Block" := by
  cases s with
  | invocation e => exact e.label_ne_block
  | _ => simp [Stmt.outline, Variable.outlineWith, Outline.label]

end Whiley
