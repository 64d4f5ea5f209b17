import Whiley.Grammar.Decls
import Whiley.Proofs.Grammar.Ensures
import Whiley.Proofs.Tree.Formed
import Whiley.Proofs.Tree.Ordered

/-!
Parsers that store every node after its children. The arena meant is the one that the whole run ends
with; what stands in it when `n` nodes are stored goes on standing there.
-/

namespace Whiley

structure Whole where
  input : Input
  arena : Arena Node

/-- What may be built upon when `n` nodes are stored. -/
class Known (α : Type) where
  knows : Whole → Nat → α → Prop
  mono : ∀ {w x m n}, m ≤ n → knows w m x → knows w n x

namespace Whole

variable {α β : Type} {w : Whole} {m n : Nat}

def Knows [Known α] (w : Whole) (n : Nat) (x : α) : Prop :=
  Known.knows w n x

def Stands (w : Whole) (n : Nat) (o : Outline) : Prop :=
  w.arena.Stands n o

theorem Stands.mono {o : Outline} (h : w.Stands m o) (hmn : m ≤ n) : w.Stands n o :=
  Arena.Stands.mono h hmn

theorem Knows.mono [Known α] {x : α} (h : w.Knows m x) (hmn : m ≤ n) : w.Knows n x :=
  Known.mono hmn h

def StandsContent (w : Whole) (n : Nat) : Content → Prop
  | .child o => w.Stands n o
  | .children os => ∀ o ∈ os, w.Stands n o
  | .pairs os => ∀ o ∈ os, w.Stands n o
  | .link _ => False
  | _ => True

def StandsAll (w : Whole) (n : Nat) : List Entry → Prop
  | [] => True
  | .mk _ c :: es => w.StandsContent n c ∧ w.StandsAll n es

theorem StandsContent.nodes {c : Content} (h : w.StandsContent n c) : ∀ o ∈ c.nodes,
    w.Stands n o := by
  cases c with
  | child o => exact fun o ho => List.mem_singleton.mp ho ▸ h
  | children os => exact h
  | pairs os => exact h
  | _ => exact nofun

theorem StandsAll.nodes {es : List Entry} (h : w.StandsAll n es) :
    ∀ o ∈ es.flatMap Entry.nodes, w.Stands n o := by
  induction es with
  | nil => exact nofun
  | cons e es ih =>
    obtain ⟨name, c⟩ := e
    intro o ho
    rw [List.flatMap_cons] at ho
    rcases List.mem_append.mp ho with ho | ho
    · exact h.1.nodes o ho
    · exact ih h.2 o ho

theorem StandsAll.append {es es' : List Entry} (h : w.StandsAll n es) (h' : w.StandsAll n es') :
    w.StandsAll n (es ++ es') := by
  induction es with
  | nil => exact h'
  | cons e es ih =>
    obtain ⟨name, c⟩ := e
    exact ⟨h.1, ih h.2⟩

theorem StandsAll.mono {es : List Entry} (h : w.StandsAll m es) (hmn : m ≤ n) :
    w.StandsAll n es := by
  induction es with
  | nil => trivial
  | cons e es ih =>
    obtain ⟨name, c⟩ := e
    refine ⟨?_, ih h.2⟩
    cases c with
    | child o => exact h.1.mono hmn
    | children os => exact fun o ho => (h.1 o ho).mono hmn
    | pairs os => exact fun o ho => (h.1 o ho).mono hmn
    | _ => exact h.1

theorem StandsAll.admits {m : Mark} {label : String} {es : List Entry} {o : Outline}
    (h : w.StandsAll m.index es) (ho : o = .node label m es) : w.arena.Admits m.index o where
  index := by rw [ho, Outline.mark]
  children c hc := by
    rw [ho] at hc
    exact h.nodes c hc
  link m' name d hlink := by
    rw [ho] at hlink
    rw [(Outline.node.inj hlink).2.2] at h
    exact h.2.1.elim

end Whole

instance {α : Type} [ToNode α] : Known α where
  knows w n x := w.Stands n (ToNode.toNode x).outline
  mono hmn h := h.mono hmn

instance : Known FieldValue where
  knows w n x := w.Stands n x.name.outline ∧ w.Stands n x.value.outline
  mono hmn h := ⟨h.1.mono hmn, h.2.mono hmn⟩

/-- The variable is in the arena, as the parameter or the statement that it is. -/
def Whole.Declares (w : Whole) (n : Nat) (v : Variable) : Prop :=
  v.mark.index < n ∧ ∃ initialiser, w.arena.toList[v.mark.index]? = some (.variable v initialiser)

instance : Known Scope where
  knows w n s := ∀ x ∈ s.locals, x.2.name.text = x.1 ∧ w.Declares n x.2
  mono hmn h x hx :=
    let ⟨hname, hlt, hentry⟩ := h x hx
    ⟨hname, Nat.lt_of_lt_of_le hlt hmn, hentry⟩

instance {α : Type} [Known α] : Known (List α) where
  knows w n xs := ∀ x ∈ xs, w.Knows n x
  mono hmn h x hx := (h x hx).mono hmn

instance {α : Type} [Known α] : Known (Option α) where
  knows w n o := ∀ x ∈ o, w.Knows n x
  mono hmn h x hx := (h x hx).mono hmn

instance {α β : Type} [Known α] [Known β] : Known (α × β) where
  knows w n x := w.Knows n x.1 ∧ w.Knows n x.2
  mono hmn h := ⟨h.1.mono hmn, h.2.mono hmn⟩

instance {α β : Type} [Known α] [Known β] : Known (α ⊕ β) where
  knows w n := Sum.elim (w.Knows n) (w.Knows n)
  mono {_ x _ _} hmn h := by
    cases x with
    | inl a => exact Whole.Knows.mono h hmn
    | inr b => exact Whole.Knows.mono h hmn

instance : Known Bool := ⟨fun _ _ _ => True, fun _ h => h⟩

instance : Known String := ⟨fun _ _ _ => True, fun _ h => h⟩

namespace Whole

variable {α : Type} {w : Whole} {n : Nat}

theorem Knows.outlines [ToNode α] {xs : List α} {os : List Outline} (h : w.Knows n xs)
    (hos : os = xs.map fun x => (ToNode.toNode x).outline) : ∀ o ∈ os, w.Stands n o := by
  rw [hos]
  exact List.forall_mem_map.mpr h

theorem Knows.nil [Known α] : w.Knows n ([] : List α) :=
  nofun

theorem Knows.cons [Known α] {x : α} {xs : List α} (hx : w.Knows n x) (hxs : w.Knows n xs) :
    w.Knows n (x :: xs) :=
  List.forall_mem_cons.mpr ⟨hx, hxs⟩

theorem Knows.reverse [Known α] {xs : List α} (h : w.Knows n xs) : w.Knows n xs.reverse :=
  fun x hx => h x (List.mem_reverse.mp hx)

theorem Knows.none [Known α] : w.Knows n (Option.none : Option α) :=
  nofun

theorem Knows.some [Known α] {x : α} (hx : w.Knows n x) : w.Knows n (Option.some x) := by
  rintro _ ⟨⟩
  exact hx

theorem Knows.pairs {fs : List FieldValue} (h : w.Knows n fs) :
    ∀ o ∈ FieldValue.outlines fs, w.Stands n o := by
  intro o ho
  rw [FieldValue.outlines_eq] at ho
  obtain ⟨x, hx, ho⟩ := List.mem_flatMap.mp ho
  simp only [List.mem_cons, List.not_mem_nil, or_false] at ho
  rcases ho with rfl | rfl
  · exact (h x hx).1
  · exact (h x hx).2

theorem Knows.of_locals {s s' : Scope} (h : w.Knows n s) (hlocals : s'.locals = s.locals) :
    w.Knows n s' := by
  intro x hx
  rw [hlocals] at hx
  exact h x hx

theorem Knows.declareLifetime {s s' : Scope} {l : Identifier} (h : w.Knows n s)
    (hs' : s.declareLifetime l = .ok s') : w.Knows n s' :=
  h.of_locals (by rw [(Scope.declareLifetime_ok hs').2]; rfl)

theorem Knows.declareVariable {s s' : Scope} {v : Variable} (h : w.Knows n s)
    (hs' : s.declareVariable v = .ok s') (hv : w.Declares n v) : w.Knows n s' := by
  rw [(Scope.declareVariable_ok hs').2]
  exact List.forall_mem_cons.mpr ⟨⟨rfl, hv⟩, h⟩

end Whole

namespace Parser

variable {α β σ : Type} {w : Whole} {n : Nat}

def Result.Stores (w : Whole) (Q : Nat → α → Prop) : Result α → Prop
  | .ok a s => w.arena.OrderedTo s.arena.size ∧ Q s.arena.size a
  | .error _ s => w.arena.OrderedTo s.arena.size

/-- With `n` nodes stored at least, what is stored stays ordered, and of the value `Q` holds. -/
def Yields (w : Whole) (n : Nat) (p : Parser α) (Q : Nat → α → Prop) : Prop :=
  ∀ s, n ≤ s.arena.size → w.arena.OrderedTo s.arena.size →
    (p.run w.input s).reading.arena ≤ w.arena → (p.run w.input s).Stores w Q

abbrev Stores [Known α] (w : Whole) (n : Nat) (p : Parser α) : Prop :=
  Yields w n p w.Knows

abbrev Keeps (w : Whole) (n : Nat) (p : Parser α) : Prop :=
  Yields w n p fun _ _ => True

namespace Yields

theorem pure {a : α} {Q : Nat → α → Prop} (h : ∀ m, n ≤ m → Q m a) : Yields w n (pure a) Q :=
  fun s hn hs _ => ⟨hs, h s.arena.size hn⟩

theorem bind {p : Parser α} {f : α → Parser β} {P : Nat → α → Prop} {Q : Nat → β → Prop}
    (hp : Yields w n p P) (hf : ∀ a m, n ≤ m → P m a → Yields w m (f a) Q) :
    Yields w n (p >>= f) Q := by
  intro s hn hs hle
  have hps := hp s hn hs
  have hsize := Arena.size_le (p.grows w.input s)
  rw [run_bind] at hle ⊢
  cases h : p.run w.input s with
  | error e t =>
    rw [h] at hps hle
    exact hps hle
  | ok a t =>
    rw [h] at hps hle hsize
    obtain ⟨ht, ha⟩ := hps (Arena.le_trans ((f a).grows w.input t) hle)
    exact hf a t.arena.size (Nat.le_trans hn hsize) ha t (Nat.le_refl _) ht hle

theorem known [Known α] {a : α} (h : w.Knows n a) : Stores w n (Pure.pure a) :=
  pure fun _ hm => h.mono hm

theorem kept {a : α} : Keeps w n (Pure.pure a) :=
  pure fun _ _ => trivial

theorem fail {f : Failure} {Q : Nat → α → Prop} : Yields w n (fail f) Q :=
  fun _ _ hs _ => hs

theorem reject {fault : SyntaxFault} {span : Span} {Q : Nat → α → Prop} :
    Yields w n (reject fault span) Q :=
  fail

theorem tokens : Yields w n tokens fun _ input => input = w.input :=
  fun _ _ hs _ => ⟨hs, rfl⟩

theorem position : Keeps w n position :=
  fun _ _ hs _ => ⟨hs, trivial⟩

theorem moveTo {pos : Nat} : Keeps w n (moveTo pos) :=
  fun _ _ hs _ => ⟨hs, trivial⟩

theorem ofExcept {x : Except SyntaxError α} {Q : Nat → α → Prop}
    (h : ∀ a m, x = .ok a → n ≤ m → Q m a) : Yields w n (ofExcept x) Q := by
  cases x with
  | ok a => exact pure fun m => h a m rfl
  | error e => exact fail

theorem ofReading {x : Except Failure α} : Keeps w n (ofReading x) := by
  cases x with
  | ok a => exact kept
  | error f => exact fail

theorem current : Keeps w n current := by
  refine tokens.bind fun input m hm _ => position.bind fun pos m hm _ => ?_
  refine moveTo.bind fun _ m hm _ => ?_
  split
  · exact kept
  · exact reject

theorem settle : Keeps w n settle :=
  current.bind fun _ _ _ _ => position

theorem advance : Keeps w n advance :=
  current.bind fun _ _ _ _ => position.bind fun _ _ _ _ => moveTo.bind fun _ _ _ _ => kept

theorem expect {k : Kind} : Keeps w n (expect k) := by
  refine advance.bind fun t m hm _ => ?_
  split
  · exact kept
  · exact reject

theorem accept {lines : Bool} {ks : List Kind} : Keeps w n (accept lines ks) := by
  refine tokens.bind fun input m hm _ => position.bind fun pos m hm _ => ?_
  dsimp only
  split
  · split
    · exact moveTo.bind fun _ _ _ _ => kept
    · exact kept
  · exact kept

theorem acceptNext {k : Kind} : Keeps w n (acceptNext k) := by
  refine current.bind fun t m hm _ => ?_
  split
  · exact position.bind fun _ _ _ _ => moveTo.bind fun _ _ _ _ => kept
  · exact kept

theorem ahead {lines : Bool} {ks : List Kind} : Keeps w n (ahead lines ks) :=
  tokens.bind fun _ _ _ _ => position.bind fun _ _ _ _ => kept

theorem atLineEnd : Keeps w n atLineEnd := by
  refine tokens.bind fun input m hm _ => position.bind fun pos m hm _ => ?_
  split <;> exact kept

theorem endLine : Keeps w n endLine := by
  refine tokens.bind fun input m hm _ => position.bind fun pos m hm _ => ?_
  refine moveTo.bind fun _ m hm _ => ?_
  split
  · split
    · exact moveTo
    · exact reject
  · exact kept

theorem lineStart : Keeps w n lineStart := by
  refine tokens.bind fun input m hm _ => position.bind fun pos m hm _ => ?_
  refine moveTo.bind fun _ m hm _ => ?_
  split
  · split
    · split
      · exact kept
      · exact fail
    · exact kept
  · exact kept

theorem lineIndent : Keeps w n lineIndent :=
  lineStart.bind fun _ _ _ _ => kept

theorem acceptAtIndent {indent : Indent} {k : Kind} : Keeps w n (acceptAtIndent indent k) := by
  refine position.bind fun start m hm _ => lineIndent.bind fun i m hm _ => ?_
  split
  · refine accept.bind fun found m hm _ => ?_
    cases found with
    | some t => exact kept
    | none => exact moveTo.bind fun _ _ _ _ => kept
  · exact moveTo.bind fun _ _ _ _ => kept

theorem allocated [ToNode α] {span : Span} {build : Mark → α} {Q : Nat → α → Prop}
    (hadmits : ∀ m, n ≤ m.index → w.arena.Admits m.index (ToNode.toNode (build m)).outline)
    (h : ∀ m, w.arena.toList[m.index]? = some (ToNode.toNode (build m)) →
      Q (m.index + 1) (build m)) : Yields w n (allocate span build) Q := by
  intro s hn hs hle
  have hentry : w.arena.toList[s.arena.size]? =
      some (ToNode.toNode (build ⟨span, s.arena.size⟩)) := by
    refine Ensures.entry_of_le hle ?_
    simp [Parser.allocate, ← Arena.length_toList]
  have hsize : (s.arena.allocate (ToNode.toNode (build ⟨span, s.arena.size⟩))).size =
      s.arena.size + 1 := Arena.size_allocate _ _
  simp only [Parser.allocate, Result.Stores, hsize]
  exact ⟨hs.snoc hentry (hadmits ⟨span, s.arena.size⟩ hn), h ⟨span, s.arena.size⟩ hentry⟩

theorem stands_entry {m : Mark} {label : String} {es : List Entry} {x : Node}
    (hx : x.outline = .node label m es) (hentry : w.arena.toList[m.index]? = some x) :
    w.Stands (m.index + 1) x.outline := by
  have hmark : x.outline.mark = m := by rw [hx, Outline.mark]
  constructor
  · rw [hmark]
    exact Nat.lt_succ_self _
  · rw [hmark, hentry, Option.map_some]

theorem allocate [ToNode α] {span : Span} {build : Mark → α} {label : String}
    {es : Mark → List Entry}
      (hbuild : ∀ m, (ToNode.toNode (build m)).outline = .node label m (es m))
    (h : ∀ m, w.StandsAll n (es m)) : Stores w n (allocate span build) :=
  allocated (fun m hm => ((h m).mono hm).admits (hbuild m)) fun m hentry =>
    stands_entry (hbuild m) hentry

theorem make [ToNode α] {start : Nat} {build : Mark → α} {label : String}
    {es : Mark → List Entry}
      (hbuild : ∀ m, (ToNode.toNode (build m)).outline = .node label m (es m))
    (h : ∀ m, w.StandsAll n (es m)) : Stores w n (make start build) :=
  tokens.bind fun _ _ _ _ => position.bind fun _ _ _ _ => allocate hbuild fun m => (h m).mono
    (by omega)

theorem allocateIdentifier {span : Span} {text : String} :
    Yields w n (Parser.allocate span (Identifier.mk · text)) fun k i =>
      w.Knows k i ∧ i.text = text := by
  have hall : w.StandsAll n [.mk "text" (.text text)] := ⟨trivial, trivial⟩
  refine allocated (fun m hm => (hall.mono hm).admits rfl) fun m hentry => ?_
  exact ⟨stands_entry rfl hentry, rfl⟩

theorem makeVariable {start : Nat} {name : Identifier} {type : TypeExpr} (hname : w.Knows n name)
    (htype : w.Knows n type) :
    Yields w n (Parser.make start (Variable.mk · name type)) fun k v =>
      w.Knows k v ∧ w.Declares k v := by
  have hall : w.StandsAll n [.mk "name" (.child name.outline), .mk "type" (.child type.outline),
      .mk "initialiser" .absent] := ⟨hname, htype, trivial, trivial⟩
  refine tokens.bind fun _ m hm _ => position.bind fun _ j hj _ => ?_
  refine allocated (fun i hi => ?_) fun i hentry => ?_
  · exact (hall.mono (by omega)).admits rfl
  · exact ⟨stands_entry rfl hentry, Nat.lt_succ_self _, none, hentry⟩

theorem makeLocal {start : Nat} {name : Identifier} {type : TypeExpr} {initialiser : Option Expr}
    (hname : w.Knows n name) (htype : w.Knows n type) (hinitialiser : w.Knows n initialiser) :
    Yields w n (Parser.make start fun m => Stmt.variable ⟨m, name, type⟩ initialiser)
      fun k s => w.Knows k s ∧ w.Declares k ⟨s.mark, name, type⟩ := by
  have hcontent : w.StandsContent n (.ofOption (initialiser.map Expr.outline)) := by
    cases initialiser with
    | none => trivial
    | some e => exact hinitialiser e rfl
  have hall : w.StandsAll n [.mk "name" (.child name.outline), .mk "type" (.child type.outline),
      .mk "initialiser" (.ofOption (initialiser.map Expr.outline))] :=
    ⟨hname, htype, hcontent, trivial⟩
  refine tokens.bind fun _ m hm _ => position.bind fun _ j hj _ => ?_
  refine allocated (fun i hi => ?_) fun i hentry => ?_
  · exact (hall.mono (by omega)).admits rfl
  · exact ⟨stands_entry rfl hentry, Nat.lt_succ_self _, initialiser, hentry⟩

theorem access {span : Span} {scope : Scope} {name : Identifier} {declaration : Option Nat}
    (hs : w.Knows n scope) (hname : w.Knows n name)
    (hfound : ∀ d ∈ declaration, ∃ v, scope.lookup name.text = some v ∧ v.mark.index = d) :
    Stores w n (Parser.allocate span (Expr.variableAccess · name declaration)) := by
  refine allocated (fun m hm => ⟨rfl, ?_, ?_⟩) fun m hentry => stands_entry rfl hentry
  · have hall : w.StandsAll n [.mk "name" (.child name.outline)] := ⟨hname, trivial⟩
    exact (hall.mono hm).nodes
  · intro m' name' d hlink
    have hlink' : Outline.node "VariableAccess" m
        [.mk "name" (.child name.outline), .mk "declaration" (.link declaration)] =
      .node "VariableAccess" m'
        [.mk "name" (.child name'.outline), .mk "declaration" (.link (Option.some d))] := hlink
    simp only [Outline.node.injEq, List.cons.injEq, Entry.mk.injEq, Content.child.injEq,
      Content.link.injEq, Identifier.outline, Content.text.injEq, and_true, true_and] at hlink'
    obtain ⟨-, ⟨-, htext⟩, rfl⟩ := hlink'
    obtain ⟨v, hv, rfl⟩ := hfound d rfl
    obtain ⟨hname, hlt, initialiser, hentry⟩ := hs _ (Dictionary.mem_of_get? hv)
    exact ⟨Nat.lt_of_lt_of_le hlt hm, v, initialiser, hentry, hname.trans htext⟩

theorem makeAccess {start : Nat} {scope : Scope} {name : Identifier} {declaration : Option Nat}
    (hs : w.Knows n scope) (hname : w.Knows n name)
    (hfound : ∀ d ∈ declaration, ∃ v, scope.lookup name.text = some v ∧ v.mark.index = d) :
    Stores w n (Parser.make start (Expr.variableAccess · name declaration)) :=
  tokens.bind fun _ _ _ _ => position.bind fun _ _ _ _ => access (hs.mono (by omega))
    (hname.mono (by omega)) hfound

theorem attempt [Known α] {p : Parser α} (hp : Stores w n p) : Stores w n (attempt p) := by
  intro s hn hs
  have hps := hp s hn hs
  unfold Parser.attempt
  dsimp only
  intro hle
  cases h : p.run w.input s with
  | ok a t =>
    rw [h] at hps hle
    exact ⟨(hps hle).1, .some (hps hle).2⟩
  | error f t =>
    rw [h] at hps hle
    cases f <;> first | exact ⟨hps hle, .none⟩ | exact hps hle

theorem iterate [Known σ] [Known α] {step : σ → Parser (σ ⊕ α)} {fuel : Nat} {s : σ}
    (hs : w.Knows n s) (hstep : ∀ s m, n ≤ m → w.Knows m s → Stores w m (step s)) :
    Stores w n (iterate step fuel s) := by
  induction fuel generalizing n s with
  | zero => exact fail
  | succ fuel ih =>
    refine (hstep s n (Nat.le_refl n) hs).bind fun x m hm hx => ?_
    cases x with
    | inl s' => exact ih hx fun s k hk => hstep s k (Nat.le_trans hm hk)
    | inr a => exact known hx

theorem repeating [Known σ] [Known α] {step : σ → Parser (σ ⊕ α)} {s : σ} (hs : w.Knows n s)
    (hstep : ∀ s m, n ≤ m → w.Knows m s → Stores w m (step s)) :
    Stores w n (repeating step s) :=
  tokens.bind fun _ _ hm _ => iterate (hs.mono (by omega)) fun s k hk => hstep s k
    (Nat.le_trans hm hk)

theorem foldWhile [Known σ] {step : σ → Parser (Option σ)} {s : σ} (hs : w.Knows n s)
    (hstep : ∀ s m, n ≤ m → w.Knows m s → Stores w m (step s)) :
    Stores w n (foldWhile step s) := by
  refine repeating hs fun s m hm hs => (hstep s m hm hs).bind fun o k hk ho => ?_
  cases o with
  | some s' => exact known (ho s' rfl)
  | none => exact known (hs.mono (by omega))

theorem many [Known α] {next : Parser (Option α)} (h : ∀ m, n ≤ m → Stores w m next) :
    Stores w n (many next) := by
  refine (foldWhile .nil fun found m hm hfound => ?_).bind fun found m hm hfound => ?_
  · refine (h m hm).bind fun o k hk ho => known ?_
    cases o with
    | none => exact .none
    | some a => exact .some (.cons (ho a rfl) (hfound.mono (by omega)))
  · exact known hfound.reverse

theorem afterEach [Known α] {lines : Bool} {separator : Kind} {item : Parser α}
    (h : ∀ m, n ≤ m → Stores w m item) : Stores w n (afterEach lines separator item) := by
  refine many fun m hm => accept.bind fun o k hk _ => ?_
  cases o with
  | none => exact known .none
  | some t => exact (h k (Nat.le_trans hm hk)).bind fun a _ _ ha => known (.some ha)

theorem untilClose [Known σ] {close : Kind} {started : Bool} {item : σ → Parser σ} {s : σ}
    (hs : w.Knows n s) (hitem : ∀ s m, n ≤ m → w.Knows m s → Stores w m (item s)) :
    Stores w n (untilClose close started item s) := by
  have hstart : w.Knows n (started, s) := ⟨trivial, hs⟩
  refine (foldWhile hstart fun x m hm hx => ?_).bind fun x m hm hx => known hx.2
  refine acceptNext.bind fun o k hk _ => ?_
  cases o with
  | some t => exact known .none
  | none =>
    have hnext : ∀ j, k ≤ j → Stores w j (do return some (true, ← item x.2)) := fun j hj =>
      (hitem x.2 j (by omega) (hx.2.mono (by omega))).bind fun s' _ _ hs' => known
        (.some ⟨trivial, hs'⟩)
    dsimp only
    split
    · exact expect.bind fun _ j hj _ => hnext j hj
    · exact hnext k (Nat.le_refl k)

theorem listUntil [Known α] {close : Kind} {item : Parser α} (h : ∀ m, n ≤ m → Stores w m item) :
    Stores w n (listUntil close item) := by
  refine (untilClose .nil fun found m hm hfound => ?_).bind fun found m hm hfound =>
    known hfound.reverse
  exact (h m hm).bind fun a _ _ ha => known (.cons ha (hfound.mono (by omega)))

end Yields

end Parser

end Whiley
