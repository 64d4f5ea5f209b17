import Whiley.Proofs.Grammar.DeliversExprs
import Whiley.Proofs.Grammar.DeliversTypes
import Whiley.Proofs.Grammar.FormedExprs

namespace Whiley

open Whiley.Parser Whiley.Grammar Piece

def Variable.Same (v v' : Variable) : Prop :=
  v.type.Same v'.type ∧ v.name.Same v'.name

namespace Scope

structure SameNames (s s' : Scope) : Prop where
  isVariable : ∀ text, s.isVariable text = s'.isVariable text
  lifetimes : s.lifetimes = s'.lifetimes

/-- Variables that may be declared one after the other, of types that the printer parts. -/
def Introduces (s : Scope) : List Variable → Prop
  | [] => True
  | v :: vs =>
    v.type.Formed s ∧ v.type.ReferencesApart ∧ v.name.IsWord ∧ s.isAvailable v.name.text ∧
      (s.addVariable v).Introduces vs

variable {s s' : Scope} {v v' : Variable} {vs vs' : List Variable} {text : String}

theorem isVariable_addVariable :
    (s.addVariable v).isVariable text = (decide (v.name.text = text) || s.isVariable text) := by
  rw [isVariable, lookup, addVariable, Dictionary.get?_cons]
  split
  · rename_i hname
    simp only [hname, decide_true, Bool.true_or, Option.isSome_some]
  · rename_i hname
    simp only [hname, decide_false, Bool.false_or]
    rfl

theorem isVariable_addVariables :
    (s.addVariables vs).isVariable text =
      (decide (text ∈ vs.map (·.name.text)) || s.isVariable text) := by
  induction vs generalizing s with
  | nil => rfl
  | cons v vs ih =>
    rw [addVariables, List.foldl_cons, ← addVariables, ih, isVariable_addVariable, ← Bool.or_assoc]
    congr 1
    rw [Bool.eq_iff_iff, Bool.or_eq_true, decide_eq_true_iff, decide_eq_true_iff, decide_eq_true_iff,
      List.map_cons, List.mem_cons, or_comm, eq_comm]

namespace SameNames

theorem isAvailable (h : s.SameNames s') : s.isAvailable text = s'.isAvailable text := by
  rw [Scope.isAvailable, Scope.isAvailable, h.isVariable, h.lifetimes]

theorem isLifetime (h : s.SameNames s') : s.isLifetime text = s'.isLifetime text := by
  rw [Scope.isLifetime, Scope.isLifetime, h.lifetimes]

theorem addLifetime (h : s.SameNames s') (l : Identifier) :
    (s.addLifetime l).SameNames (s'.addLifetime l) :=
  ⟨h.isVariable, congrArg (l.text :: ·) h.lifetimes⟩

theorem addLifetimes (h : s.SameNames s') (ls : List Identifier) :
    (s.addLifetimes ls).SameNames (s'.addLifetimes ls) := by
  induction ls generalizing s s' with
  | nil => exact h
  | cons l ls ih => exact ih (h.addLifetime l)

theorem addVariable (h : s.SameNames s') (hv : v.Same v') :
    (s.addVariable v).SameNames (s'.addVariable v') := by
  refine ⟨fun text => ?_, h.lifetimes⟩
  rw [isVariable_addVariable, isVariable_addVariable, h.isVariable, (hv.2 : v.name.text = v'.name.text)]

theorem addVariables (h : s.SameNames s') (hvs : List.Forall₂ Variable.Same vs vs') :
    (s.addVariables vs).SameNames (s'.addVariables vs') := by
  induction hvs generalizing s s' with
  | nil => exact h
  | cons hv _ ih => exact ih (h.addVariable hv)

theorem declares (h : s.SameNames s') {ls : List Identifier} (hls : s.Declares ls) :
    s'.Declares ls := by
  induction ls generalizing s s' with
  | nil => trivial
  | cons l ls ih => exact ⟨hls.1, h.isAvailable ▸ hls.2.1, ih (h.addLifetime l) hls.2.2⟩

end SameNames

end Scope

mutual

theorem TypeExpr.Formed.transfer {s s' : Scope} (hs : s.SameNames s') :
    (t : TypeExpr) → t.Formed s → t.Formed s'
  | .primitive .., h => h
  | .nominal .., h => h
  | .array _ element, h => TypeExpr.Formed.transfer hs element h
  | .list _ element, h => TypeExpr.Formed.transfer hs element h
  | .record _ _ fields, ⟨hne, hnodup, h⟩ => ⟨hne, hnodup, Field.AllFormed.transfer hs fields h⟩
  | .reference _ element _, ⟨hl, h⟩ =>
    ⟨fun l hlifetime => ⟨(hl l hlifetime).1, hs.isLifetime ▸ (hl l hlifetime).2⟩,
      TypeExpr.Formed.transfer hs element h⟩
  | .negation _ element, h => TypeExpr.Formed.transfer hs element h
  | .union _ operands, ⟨hlength, h⟩ => ⟨hlength, TypeExpr.AllFormed.transfer hs operands h⟩
  | .intersection _ operands, ⟨hlength, h⟩ => ⟨hlength, TypeExpr.AllFormed.transfer hs operands h⟩
  | .function _ parameters returns, ⟨hparameters, hreturns⟩ =>
    ⟨TypeExpr.AllFormed.transfer hs parameters hparameters,
      TypeExpr.AllFormed.transfer hs returns hreturns⟩
  | .method _ parameters returns _ lifetimes, ⟨hcaptures, hlifetimes, hparameters, hreturns⟩ =>
    ⟨hcaptures, hs.declares hlifetimes,
      TypeExpr.AllFormed.transfer (hs.addLifetimes lifetimes) parameters hparameters,
      TypeExpr.AllFormed.transfer (hs.addLifetimes lifetimes) returns hreturns⟩

theorem TypeExpr.AllFormed.transfer {s s' : Scope} (hs : s.SameNames s') :
    (ts : List TypeExpr) → TypeExpr.AllFormed s ts → TypeExpr.AllFormed s' ts
  | [], _ => trivial
  | t :: ts, ⟨ht, hts⟩ =>
    ⟨TypeExpr.Formed.transfer hs t ht, TypeExpr.AllFormed.transfer hs ts hts⟩

theorem Field.AllFormed.transfer {s s' : Scope} (hs : s.SameNames s') :
    (fs : List Field) → Field.AllFormed s fs → Field.AllFormed s' fs
  | [], _ => trivial
  | .mk _ type _ :: fs, ⟨htype, hname, hfs⟩ =>
    ⟨TypeExpr.Formed.transfer hs type htype, hname, Field.AllFormed.transfer hs fs hfs⟩

end

theorem Scope.Introduces.formed {s : Scope} {vs : List Variable} (h : s.Introduces vs) :
    ∀ v ∈ vs, (∃ s' : Scope, v.type.Formed s') ∧ v.type.ReferencesApart ∧ v.name.IsWord := by
  induction vs generalizing s with
  | nil => nofun
  | cons v vs ih =>
    obtain ⟨htype, hrefs, hname, -, hvs⟩ := h
    exact List.forall_mem_cons.mpr ⟨⟨⟨s, htype⟩, hrefs, hname⟩, ih hvs⟩

theorem Scope.Introduces.spelled {s : Scope} {vs : List Variable} (h : s.Introduces vs) :
    ∀ text ∈ vs.map (·.name.text), Kind.identifier.Spelled text.toList := by
  rintro _ htext
  obtain ⟨v, hv, rfl⟩ := List.mem_map.mp htext
  exact (h.formed v hv).2.2

section Header

variable {input : Input} {i j depth : Nat} {s s' : Scope} {v : Variable} {vs : List Variable}

variable (hroom : input.tokens.size < input.allowance)

include hroom

theorem parameter_delivers (htype : v.type.Formed s) (hname : v.name.IsWord)
    (havailable : s.isAvailable v.name.text) (hdepth : 2 * (input.tokens.size - i) + 2 ≤ depth)
    (hi : input.Shows i (faces v.pieces) j) :
    Delivers input i (parameter (.ofDepth depth) s) j fun r =>
      v.Same r.1 ∧ r.2 = s.addVariable r.1 := by
  have hfaces : faces [.blank, v.name.piece] = [.word .identifier v.name.text] :=
    congrArg (fun f => [f]) hname.face_eq
  rw [Variable.pieces, faces_append, hfaces] at hi
  obtain ⟨m, hshows, hm, rfl⟩ := Input.shows_append.mp hi
  have hnamed := TypeExpr.named_delivers hroom htype (TypeExpr.Formed.readsBack hroom v.type htype)
    hdepth hshows hm
  refine .here (hnamed.bind fun x hx => ?_)
  refine Delivers.bind (P := v.Same) (.make fun _ => hx) fun v' hv => ?_
  have hdeclare : s.declareVariable v' = .ok (s.addVariable v') := by
    rw [Scope.declareVariable, Scope.checkAvailable, if_pos ((hv.2 : v.name.text = _) ▸ havailable)]
    rfl
  exact .checked hdeclare (.pure ⟨hv, rfl⟩)

theorem parameters_delivers (hs : s.SameNames s') (h : s.Introduces vs)
    (hdepth : 2 * (input.tokens.size - i) + 2 ≤ depth)
    (hi : input.Shows i (faces (brackets (Variable.list vs))) j) :
    Delivers input i (parameters (.ofDepth depth) .rparen s') j fun r =>
      List.Forall₂ Variable.Same vs r.1 ∧ r.2 = s'.addVariables r.1 := by
  have hheads : ∀ k ∈ TypeExpr.allHeads, k.isSpace = false ∧ k ≠ .rparen := by decide
  rw [brackets, List.cons_append, faces, faces_append, Variable.list, faces_commas,
    List.map_map] at hi
  simp only [faces, Kind.ofText_marks] at hi
  obtain ⟨hopen, hi⟩ := hi
  obtain ⟨m, hlist, hclose, rfl⟩ := Input.shows_append.mp hi
  let I (rest : List Variable) (r : List Variable × Scope) : Prop :=
    (∃ done, vs = done ++ rest ∧ List.Forall₂ Variable.Same done r.1.reverse ∧
      (s.addVariables done).Introduces rest) ∧ r.2 = s'.addVariables r.1.reverse
  refine .expecting hopen rfl fun _ _ _ => ?_
  refine Delivers.bind (.untilClose hroom (I := I) rfl (by decide) hlist hclose
    ⟨⟨[], rfl, .nil, h⟩, rfl⟩ (fun v hv => ?_) fun v rest r a b k hr hia hbm hshows _ _ => ?_)
    fun r hr => .pure ?_
  · obtain ⟨⟨s, htype⟩, -, -⟩ := h.formed v hv
    have hbegins : Begins _ v.pieces := (TypeExpr.Formed.within_begins htype 0 false).append
    obtain ⟨k, text, fs, hfaces, hk⟩ := hbegins.faces
    exact ⟨k, text, fs, hfaces, hheads k (TypeExpr.headsWithin_allHeads k hk)⟩
  · obtain ⟨found, scope⟩ := r
    obtain ⟨⟨done, rfl, hdone, htype, -, hname, havailable, hrest⟩, hscope⟩ := hr
    obtain rfl : scope = s'.addVariables found.reverse := hscope
    have hnames := hs.addVariables hdone
    have hdepth : 2 * (input.tokens.size - a) + 2 ≤ depth := by omega
    refine (parameter_delivers hroom (TypeExpr.Formed.transfer hnames v.type htype) hname
      (hnames.isAvailable ▸ havailable) hdepth hshows).bind fun r hr => .pure ?_
    obtain ⟨hsame, hadd⟩ := hr
    refine ⟨⟨done ++ [v], by simp, ?_, ?_⟩, ?_⟩
    · rw [List.reverse_cons]
      exact List.rel_append hdone (.cons hsame .nil)
    · rwa [addVariables_append]
    · rw [hadd, List.reverse_cons, addVariables_append]
      rfl
  · obtain ⟨⟨done, hall, hdone, -⟩, hscope⟩ := hr
    rw [List.append_nil] at hall
    exact ⟨hall ▸ hdone, hscope⟩

omit hroom in
theorem returnPieces_eq (hne : vs ≠ []) (h : ∀ v ∈ vs, v.name.IsWord) :
    returnPieces vs = .blank :: .word "->" :: .blank :: brackets (Variable.list vs) := by
  match vs, hne with
  | [v], _ =>
    have hname : v.name.text ≠ "$" := fun htext =>
      not_spelled_dollar (htext ▸ (h v List.mem_cons_self : Kind.identifier.Spelled v.name.text.toList))
    rw [returnPieces, List.isEmpty_cons, if_neg (by decide), resultPieces, if_neg hname]
    rfl
  | _ :: _ :: _, _ => rfl

theorem results_delivers (hs : s.SameNames s') (h : s.Introduces vs)
    (hdepth : 2 * (input.tokens.size - i) + 2 ≤ depth)
    (hi : input.Shows i (faces (returnPieces vs)) j) (hj : input.Meets j .colon) :
    Delivers input i (DeclParsers.results (.ofDepth depth) s') j fun r =>
      List.Forall₂ Variable.Same vs r.1 ∧ r.2 = s'.addVariables r.1 := by
  by_cases hvs : vs = []
  · subst hvs
    obtain rfl : i = j := hi
    exact .declining hj rfl (by decide) (.pure ⟨.nil, rfl⟩)
  · rw [returnPieces_eq hvs fun v hv => (h.formed v hv).2.2] at hi
    simp only [faces, Kind.ofText_marks] at hi
    obtain ⟨harrow, hi⟩ := hi
    refine .accepting harrow (by simp) rfl fun _ _ _ => ?_
    refine .looking (brackets_front hi) rfl ?_
    exact parameters_delivers hroom hs h (by omega) hi

end Header

theorem Grammar.StmtParsers.returns_delivers {input : Input} {i m j : Nat} {s : Scope} {text : String}
    {head : Kind} {P : Expr → Prop} (g : StmtParsers) (hroom : input.tokens.size < input.allowance)
    (hi : input.At i (.word .kwReturn text)) (hfront : input.Meets (i + 1) head)
    (hhead : head.isSpace = false) (hvalue : Delivers input (i + 1) (g.expression s false) m P)
    (hend : Delivers input m endLine j fun _ => True) :
    Delivers input i (g.returns s) j fun st => ∃ mark x, st = .return mark [x] ∧ P x := by
  have hvalues : Delivers input (i + 1) (g.expressions s) m fun xs => ∃ x, xs = [x] ∧ P x := by
    refine hvalue.bind fun x hx => ?_
    refine (Delivers.afterNone hroom hend.awaits_newline (by decide)).bind fun xs hxs => .pure ?_
    exact ⟨x, by rw [hxs], hx⟩
  refine .here (.expecting hi rfl fun _ _ _ => .inLine hfront hhead ?_)
  refine hvalues.bind fun xs hxs => ?_
  obtain ⟨x, rfl, hx⟩ := hxs
  refine Delivers.bind (P := fun st => ∃ mark, st = Stmt.return mark [x]) (.make fun mark => ⟨mark, rfl⟩)
    fun st hst => hend.bind fun _ _ => .pure ?_
  obtain ⟨mark, rfl⟩ := hst
  exact ⟨mark, x, rfl, hx⟩

/-- The block returns the expression and does nothing else. -/
def Block.Returns (e : Expr) (b : Block) : Prop :=
  ∃ m m' x, b = .mk m [.return m' [x]] ∧ e.Same x

section Body

variable {r : Passage} {g : StmtParsers} {e : Expr} {ps : Pieces} {i m depth : Nat}
  (hg : g.exprs = r.grammar depth) (he : e.Plain r.names) (hps : e.Written ps)
  (hfirst : r.first ≤ i + 1) (hlast : m ≤ r.last)
  (hi : r.input.At i (.word .kwReturn "return")) (hshows : r.input.Shows (i + 1) (faces ps) m)
  (hm : r.input.At m .lineEnd) (hdepth : 12 * (r.input.tokens.size - i) + 11 ≤ depth)

include hg he hps hfirst hlast hi hshows hm hdepth

theorem Passage.returns_delivers :
    Delivers r.input i (g.returns r.scope) (m + 1) fun s =>
      ∃ mark x, s = .return mark [x] ∧ e.Same x := by
  have hheads : ∀ k ∈ Kind.operandHeads, k.isSpace = false := by decide
  obtain ⟨head, hhead, text, hfront⟩ := (he.fluent r.spelled hps).begins.at_front hshows
  have hstands : r.Stands false ps (i + 1) m .newline :=
    ⟨hfirst, hshows, hlast, hm.lineEnd, rfl, Nat.zero_le 10, nofun⟩
  have hread : r.Reads false 1 (i + 1) m .newline e :=
    (Expr.Plain.readsBack e he).within he hps (Nat.le_refl 1) (Nat.le_refl 1) (by decide) hstands
      (Nat.le_refl 0)
  have hvalue : Delivers r.input (i + 1) (g.expression r.scope false) m e.Same := by
    unfold StmtParsers.expression
    rw [hg]
    exact hread.expression rfl (by omega)
  exact g.returns_delivers r.room hi hfront.meets (hheads head hhead) hvalue (.ending hm)

theorem Passage.block_delivers {s : Scope} {inLoop : Bool} {indent : Indent} {a : Nat}
    (hs : r.scope = (s.deeper indent).looping inLoop) (hindent : s.indent < indent)
    (ha : r.input.At a (.indent (.ok indent))) (hai : i = a + 1)
    (hend : r.input.tokens.size ≤ m + 1) :
    Delivers r.input a (g.blockOf s inLoop) (m + 1) (Block.Returns e) := by
  have hread := returns_delivers hg he hps hfirst hlast hi hshows hm hdepth
  subst hai
  have hsize := hm.lineEnd.lt_size
  have hle := hshows.le
  have hstatement : Delivers r.input a (g.statement r.scope) (m + 1) fun x =>
      ∃ mark x', x.1 = .return mark [x'] ∧ e.Same x' := by
    refine .showingIndented ha hi rfl fun t ht _ => ?_
    rw [ht]
    exact hread.bind fun s hs => .pure hs
  have hstatements : Delivers r.input a (g.statements indent r.scope) (m + 1) fun ss =>
      ∃ mark x', ss = [.return mark [x']] ∧ e.Same x' := by
    refine Delivers.bind (Folds.delivers r.room (P := (· = ([], r.scope))) (.round (l := m + 1)
      (R := fun x => ∃ mark x', x.1 = [.return mark [x']] ∧ e.Same x') (by omega) (by omega)
      (fun x hx => .indenting ha hi rfl fun t => ?_)
      (.last fun x _ => .lastLine hend (.pure rfl))) rfl) fun x hx => .pure ?_
    · obtain rfl := hx
      dsimp only
      rw [if_neg (Indent.lt_irrefl indent), if_pos rfl]
      refine Delivers.bind (hstatement.bind fun x hx => .pure ?_) fun x hx => .pure ⟨x, rfl, hx⟩
      obtain ⟨mark, x', hstatement, hx'⟩ := hx
      exact ⟨mark, x', by rw [hstatement], hx'⟩
    · obtain ⟨mark, x', hfound, hx'⟩ := hx
      exact ⟨mark, x', by rw [hfound]; rfl, hx'⟩
  have hindented : Delivers r.input a (deeperIndent s) a (· = some indent) := by
    refine Delivers.bind (P := (· = some indent)) (.indenting ha hi rfl fun _ => .pure rfl) fun o ho => ?_
    obtain rfl := ho
    dsimp only
    rw [if_pos hindent]
    exact .pure rfl
  refine .here (hindented.bind fun o ho => ?_)
  obtain rfl := ho
  dsimp only
  rw [← hs]
  refine hstatements.bind fun ss hss => .make fun mark => ?_
  obtain ⟨mark', x', rfl, hx'⟩ := hss
  exact ⟨mark, mark', x', rfl, hx'⟩

end Body

/-- The line that a function begins with. -/
def functionHeader (name : Identifier) (parameters returns : List Variable) : Pieces :=
  .word "function" :: .blank :: name.piece :: brackets (Variable.list parameters) ++
    returnPieces returns ++ [.word ":"]

/-- A function of the name, with the parameters and the results, whose body returns the expression. -/
def Decl.IsFunction (name : Identifier) (parameters returns : List Variable) (e : Expr) (d : Decl) :
    Prop :=
  ∃ mark routine, d = .function mark routine ∧ name.Same routine.name ∧
    List.Forall₂ Variable.Same parameters routine.parameters ∧
      List.Forall₂ Variable.Same returns routine.returns ∧ routine.body.Returns e

namespace Scope

variable {s : Scope} {vs vs' : List Variable}

theorem addVariables_eq : s.addVariables vs =
    { s with locals := (vs.map fun v => (v.name.text, v)).reverse ++ s.locals } := by
  induction vs generalizing s with
  | nil => rfl
  | cons v vs ih =>
    rw [addVariables, List.foldl_cons, ← addVariables, ih, List.map_cons, List.reverse_cons,
      List.append_assoc]
    rfl

theorem introduces_append : s.Introduces (vs ++ vs') ↔
    s.Introduces vs ∧ (s.addVariables vs).Introduces vs' := by
  induction vs generalizing s with
  | nil => exact (and_iff_right trivial).symm
  | cons v vs ih =>
    simp only [List.cons_append, Introduces, ih, and_assoc]
    rfl

end Scope

def Passage.inFunction {input : Input} {bound first last : Nat} {s : Scope} {names : List String}
    (room : input.tokens.size < input.allowance)
    (spelled : ∀ text ∈ names, Kind.identifier.Spelled text.toList)
    (known : ∀ text, s.isVariable text = decide (text ∈ names)) (aliases : s.aliases = [])
    (lifetimes : s.lifetimes = ["this"]) (hbound : 2 * input.tokens.size + 2 ≤ bound)
    (turning : input.Turning last 0 false first) : Passage where
  input := input
  types := .ofDepth bound
  scope := s
  names := names
  first := first
  last := last
  room := room
  spelled := spelled
  known := known
  noAliases := aliases
  noLifetimes text htext := by
    have hreserved : ∀ text ∈ ["*", "this"], Kind.ofText text ≠ .identifier := by decide +kernel
    refine eq_false_of_ne_true fun hlifetime => hreserved text ?_ htext
    simpa [Scope.isLifetime, lifetimes] using hlifetime
  unforced i hi hlast hopen := by
    obtain ⟨depth, hinside⟩ := turning.inside hi hlast hopen
    exact TypeParsers.forcedType_declines room hbound hinside

namespace Parser.Delivers

variable {input : Input} {i : Nat} {k : Kind}

theorem moreTokens (hi : input.Meets i k) (hk : k.isSpace = false) :
    Delivers input i moreTokens i (· = true) := by
  have hskip : input.skip true i = i := hi.skip_eq (Input.skips_of_solid hk)
  refine .given (.here ?_)
  rw [hskip]
  exact .moved (.pure (decide_eq_true hi.lt_size))

theorem noTokens (hi : input.tokens.size ≤ i) : Delivers input i Grammar.moreTokens i (· = false) := by
  have hskip : input.skip true i = i := Input.skip_of_none (Array.getElem?_eq_none_iff.mpr hi)
  refine .given (.here ?_)
  rw [hskip]
  exact .moved (.pure (decide_eq_false (Nat.not_lt_of_le hi)))

end Parser.Delivers

section Function

variable {input : Input} {name : Identifier} {parameters returns : List Variable} {e : Expr}
  {ps : Pieces} {indent : Indent} {i h m depth : Nat}
  (hroom : input.tokens.size < input.allowance)
  (hvariables : Scope.root.Introduces (parameters ++ returns))
  (he : e.Plain ((parameters ++ returns).map (·.name.text))) (hps : e.Written ps)
  (hindent : Indent.root < indent) (hdepth : 12 * input.tokens.size + 12 ≤ depth)
  (hline : input.At h .lineEnd) (hmargin : input.At (h + 1) (.indent (.ok indent)))
  (hreturn : input.At (h + 1 + 1) (.word .kwReturn "return"))
  (hshows : input.Shows (h + 1 + 1 + 1) (faces ps) m) (hend : input.At m .lineEnd)
  (hlast : input.tokens.size = m + 1)

include hroom hvariables he hps hindent hdepth hmargin hreturn hshows hend hlast

theorem body_delivers {vs : List Variable}
    (hvs : List.Forall₂ Variable.Same (parameters ++ returns) vs) :
    Delivers input (h + 1) ((Grammar.ofDepth depth).block (Scope.root.addVariables vs).declareThis false)
      (m + 1) (Block.Returns e) := by
  obtain ⟨depth, rfl⟩ := Nat.exists_eq_add_of_le' (by omega : 1 ≤ depth)
  have hnames : Scope.root.SameNames Scope.root := ⟨fun _ => rfl, rfl⟩
  let s := (((Scope.root.addVariables vs).declareThis).deeper indent).looping false
  have hknown (text : String) :
      s.isVariable text = decide (text ∈ (parameters ++ returns).map (·.name.text)) := by
    change (Scope.root.addVariables vs).isVariable text = _
    rw [← (hnames.addVariables hvs).isVariable, Scope.isVariable_addVariables]
    exact Bool.or_false _
  have hturning : input.Turning m 0 false (h + 1 + 1 + 1) :=
    ⟨faces ps, hshows, by
      have hturns := (he.fluent hvariables.spelled hps).turns 0 [] ⟨rfl, rfl⟩
      rwa [List.append_nil] at hturns⟩
  have hfresh : s.aliases = [] ∧ s.lifetimes = ["this"] := by
    simp only [s, Scope.addVariables_eq]
    exact ⟨rfl, rfl⟩
  have htypes : 2 * input.tokens.size + 2 ≤ depth + 1 := by omega
  let r : Passage :=
    .inFunction hroom hvariables.spelled hknown hfresh.1 hfresh.2 htypes hturning
  have hroot : (Scope.root.addVariables vs).declareThis.indent = Indent.root := by
    rw [Scope.addVariables_eq]
    rfl
  have hbound : 12 * (input.tokens.size - (h + 1 + 1)) + 11 ≤ depth + 1 := by omega
  exact r.block_delivers rfl he hps (Nat.le_refl _) (Nat.le_refl m) hreturn hshows hend hbound rfl
    (hroot ▸ hindent) hmargin rfl (Nat.le_of_eq hlast)

include hline in
theorem function_delivers (hname : name.IsWord)
    (hheader : input.Shows i (faces (functionHeader name parameters returns)) h) :
    Delivers input i ((Grammar.ofDepth depth).function i []) (m + 1)
      (Decl.IsFunction name parameters returns e) := by
  obtain ⟨hparameters, hreturns⟩ := Scope.introduces_append.mp hvariables
  rw [functionHeader, List.append_assoc, List.cons_append, faces] at hheader
  simp only [faces, faces_append, List.cons_append, Identifier.piece, Kind.ofText_identifier hname,
    Kind.ofText_marks] at hheader
  obtain ⟨hkeyword, hat, hheader⟩ := hheader
  obtain ⟨a, hlist, hheader⟩ := Input.shows_append.mp hheader
  obtain ⟨b, hresults, hcolon, rfl⟩ := Input.shows_append.mp hheader
  have hnames : Scope.root.SameNames Scope.root := ⟨fun _ => rfl, rfl⟩
  refine .advancing hkeyword rfl fun _ _ _ => ?_
  refine Delivers.bind (P := fun routine => name.Same routine.name ∧
    List.Forall₂ Variable.Same parameters routine.parameters ∧
      List.Forall₂ Variable.Same returns routine.returns ∧ routine.body.Returns e) ?_
    fun routine hroutine => .make fun mark => ⟨mark, routine, rfl, hroutine⟩
  refine (identifier_delivers hat).bind fun n hn => ?_
  refine (parameters_delivers hroom hnames hparameters (by omega) hlist).bind fun x hx => ?_
  obtain ⟨xs, scope⟩ := x
  obtain ⟨hxs, hscope⟩ := hx
  obtain rfl : scope = Scope.root.addVariables xs := hscope
  refine (results_delivers hroom (hnames.addVariables hxs) hreturns (by omega) hresults
    hcolon.meets).bind fun x hx => ?_
  obtain ⟨rs, scope⟩ := x
  obtain ⟨hrs, hscope⟩ := hx
  obtain rfl : scope = (Scope.root.addVariables xs).addVariables rs := hscope
  refine (Delivers.afterNone hroom (hcolon.meets.awaits rfl) (by decide)).bind fun requires _ => ?_
  refine (Delivers.afterNone hroom (hcolon.meets.awaits rfl) (by decide)).bind fun ensures _ => ?_
  refine Delivers.bind (.expecting hcolon rfl fun _ _ _ => .ending hline) fun _ _ => ?_
  have hbody := body_delivers hroom hvariables he hps hindent hdepth hmargin hreturn hshows hend hlast
    (List.rel_append hxs hrs)
  rw [addVariables_append] at hbody
  exact hbody.bind fun b hb => .pure ⟨hn, hxs, hrs, hb⟩

include hline in
theorem module_delivers (hname : name.IsWord)
    (hheader : input.Shows 0 (faces (functionHeader name parameters returns)) h) :
    Delivers input 0 (Grammar.module (Grammar.ofDepth depth)) (m + 1) fun x =>
      ∃ d, x.declarations = [d] ∧ d.IsFunction name parameters returns e := by
  have hread := function_delivers hroom hvariables he hps hindent hdepth hline hmargin hreturn hshows
    hend hlast hname hheader
  have hkeyword : input.At 0 (.word .kwFunction "function") := by
    rw [functionHeader, List.append_assoc, List.cons_append, faces] at hheader
    simp only [Kind.ofText_marks] at hheader
    exact hheader.1
  have hother : ∀ ks ∈ [[Kind.kwPackage], [Kind.kwPublic, .kwPrivate, .kwNative, .kwExport]],
      Kind.kwFunction ∉ ks := by decide
  have hpackage : Delivers input 0 package 0 (· = []) :=
    .declining hkeyword.meets rfl (hother _ (by decide)) (.pure rfl)
  have hmodifiers : Delivers input 0 DeclParsers.modifiers 0 (· = []) := by
    refine Delivers.bind (P := (· = (false, []))) (.foldNone hroom (.declining hkeyword.meets rfl
      (hother _ (by decide)) (.pure rfl))) fun x hx => .pure ?_
    rw [hx]
    rfl
  have hdeclaration : Delivers input 0 (DeclParsers.declaration (Grammar.ofDepth depth)) (m + 1)
      (Decl.IsFunction name parameters returns e) := by
    refine .settled hkeyword.meets rfl (.showing hkeyword rfl fun t ht _ => ?_)
    rw [if_neg (by rw [ht]; decide)]
    refine hmodifiers.bind fun ms hms => .showing hkeyword rfl fun t ht _ => ?_
    rw [if_neg (by simp [ht]), if_neg (by simp [ht]), if_pos ht, hms]
    exact hread
  let I (ys : List Unit) (i : Nat) : Prop := ys = [()] ∧ i = 0 ∨ ys = [] ∧ i = m + 1
  have hfirst : I [()] 0 := .inl ⟨rfl, rfl⟩
  refine hpackage.bind fun _ _ => Delivers.bind (m := m + 1) (.many hroom
    (R := fun _ => Decl.IsFunction name parameters returns e) hfirst (fun y ys i hI => ?_)
    fun i hI => ?_) fun ds hds => ?_
  · obtain ⟨hys, rfl⟩ : ys = [] ∧ i = 0 := by simpa [I] using hI
    refine ⟨m + 1, by omega, by omega, ?_, .inr ⟨hys, rfl⟩⟩
    refine Delivers.bind (P := (· = true)) (.moreTokens hkeyword.meets rfl) fun b hb => ?_
    rw [hb, if_pos rfl]
    exact hdeclaration.bind fun d hd => .pure ⟨d, rfl, hd⟩
  · obtain rfl : i = m + 1 := by simpa [I] using hI
    refine Delivers.bind (P := (· = false)) (.noTokens (by omega)) fun b hb => ?_
    rw [hb, if_neg Bool.false_ne_true]
    exact .pure rfl
  · obtain ⟨d, rfl⟩ := List.length_eq_one_iff.mp hds.length_eq.symm
    exact .given (.allocate fun _ => ⟨d, rfl, (List.forall₂_cons.mp hds).1⟩)

end Function

end Whiley
