import Whiley.Proofs.Grammar.FormedDecls
import Whiley.Proofs.Grammar.ReadsStmts

namespace Whiley

instance : Held Routine where
  held input i j r := input.Holds i j r.name ∧ input.Holds i j r.parameters ∧
    input.Holds i j r.returns ∧ input.Holds i j r.requires ∧ input.Holds i j r.ensures ∧
      input.Holds i j r.body
  mono hki hjl h :=
    ⟨h.1.mono hki hjl, h.2.1.mono hki hjl, h.2.2.1.mono hki hjl, h.2.2.2.1.mono hki hjl,
      h.2.2.2.2.1.mono hki hjl, h.2.2.2.2.2.mono hki hjl⟩

theorem Input.Holds.entries {input : Input} {i j : Nat} {r : Routine} {es : List Entry}
    (h : input.Holds i j r) (hes : input.NestsAll i j es) :
    input.NestsAll i j (r.entries es) := by
  obtain ⟨hname, hparameters, hreturns, hrequires, hensures, hbody⟩ := h
  have hbefore : input.NestsAll i j
      [.mk "modifiers" (.words r.modifiers), .mk "name" (.child r.name.outline)] :=
    ⟨trivial, hname, trivial⟩
  exact (hbefore.append hes).append ⟨hparameters.outlines rfl, hreturns.outlines rfl,
    hrequires.outlines rfl, hensures.outlines rfl, hbody, trivial⟩

theorem Decl.mark_outline (d : Decl) : d.outline.mark = d.mark := by
  cases d <;> rfl

theorem TypeExpr.mark_outline (t : TypeExpr) : t.outline.mark = t.mark := by
  cases t <;> rfl

namespace Input

variable {input : Input} {i j k : Nat}

/-- The declaration is made of the tokens from `i` to before `j`, of all of them, and the blocks in
it keep the offside rule. -/
structure Declares (input : Input) (i j : Nat) (d : Decl) : Prop where
  holds : input.Holds i j d
  fills : input.Fills i j d.mark.span
  offside : d.Offside input

theorem Declares.unskip {d : Decl} (h : input.Declares j k d) (hij : input.Skipped true i j) :
    input.Declares i k d where
  holds := h.holds.mono hij.1 (Nat.le_refl k)
  fills := h.fills.unskip hij
  offside := h.offside

theorem Declares.extend {d : Decl} (h : input.Declares i j d) (hjk : j ≤ k)
    (hblank : input.Blank j k) : input.Declares i k d where
  holds := h.holds.mono (Nat.le_refl i) hjk
  fills := h.fills.extend hjk hblank
  offside := h.offside

/-- From `i` to before `j` there are the declarations, one after the other, and nothing else. -/
inductive Tiles (input : Input) : Nat → Nat → List Decl → Prop
  | nil {i j : Nat} (hblank : input.Blank i j) : Tiles input i j []
  | snoc {i j k : Nat} {ds d} (hds : Tiles input i j ds) (hd : input.Declares j k d) :
    Tiles input i k (ds ++ [d])

theorem Tiles.extend {ds : List Decl} (h : input.Tiles i j ds) (hjk : j ≤ k)
    (hblank : input.Blank j k) : input.Tiles i k ds := by
  cases h with
  | nil hbefore => exact .nil (hbefore.trans hblank)
  | snoc hds hd => exact .snoc hds (hd.extend hjk hblank)

def textsBefore (input : Input) (i : Nat) : List String :=
  ((input.tokens.toList.take i).filter (!·.kind.isSpace)).map (·.text)

theorem textsBefore_succ : input.textsBefore (i + 1) = input.textsBefore i ++
    (input.tokens[i]?.toList.filter (!·.kind.isSpace)).map (·.text) := by
  rw [textsBefore, List.take_add_one, List.filter_append, List.map_append, Array.getElem?_toList]
  rfl

theorem Blank.textsBefore_eq (h : input.Blank i j) (hij : i ≤ j) :
    input.textsBefore j = input.textsBefore i := by
  induction hij with
  | refl => rfl
  | @step j hij ih =>
    have hspace : input.tokens[j]?.toList.filter (!·.kind.isSpace) = [] := by
      refine List.filter_eq_nil_iff.mpr fun t ht hsolid => ?_
      exact h j hij (Nat.lt_succ_self j) ⟨t, Option.mem_toList.mp ht, by simpa using hsolid⟩
    rw [textsBefore_succ, hspace, ih fun k hik hkj => h k hik (by omega)]
    simp

theorem Takes.textsBefore_eq {lines : Bool} {t : Token} (h : input.Takes lines i t j) :
    input.textsBefore j = input.textsBefore i ++ [t.text] := by
  have hskip := (input.blank_skip lines i).textsBefore_eq (input.le_skip lines i)
  rw [h.next, textsBefore_succ, hskip, h.token]
  simp [h.solid]

end Input

/-- The words of a package header. -/
def headerWords : List String → List String
  | [] => []
  | first :: rest => "package" :: first :: rest.flatMap fun c => [".", c]

theorem headerWords_snoc {first last : String} {rest : List String} :
    headerWords (first :: (rest ++ [last])) = headerWords (first :: rest) ++ [".", last] := by
  simp [headerWords]

namespace Grammar

open Whiley.Parser

variable {input : Input} {i j start : Nat}

namespace DeclParsers

section Made

variable {build : Mark → Decl} {label : String} {es : Mark → List Entry}

theorem declares_made {m : Mark} (hpasses : input.Passes start i)
    (hbuild : (ToNode.toNode (build m)).outline = .node label m (es m))
    (hm : m.span = input.span start i) (hholds : input.Holds start i (build m)) (hij : i ≤ j)
    (hblank : input.Blank i j) (hoffside : (build m).Offside input) :
    input.Declares start j (build m) where
  holds := hholds.mono (Nat.le_refl start) hij
  fills := by
    have hmark : (build m).mark = m := by
      change (build m).outline = _ at hbuild
      rw [← Decl.mark_outline, hbuild, Outline.mark]
    rw [hmark, hm]
    exact hpasses.fills.extend hij hblank
  offside := hoffside

theorem make_declares (hpasses : input.Passes start i)
    (hbuild : ∀ m, (ToNode.toNode (build m)).outline = .node label m (es m))
    (hes : ∀ m, input.NestsAll start i (es m)) (hoffside : ∀ m, (build m).Offside input) :
    Reads input i (make start build) (input.Declares start) :=
  .make hpasses hbuild hes fun m hm hholds => declares_made hpasses (hbuild m) hm hholds
    (Nat.le_refl i) (fun k hik hki => by omega) (hoffside m)

theorem makeLine_declares (hpasses : input.Passes start i)
    (hbuild : ∀ m, (ToNode.toNode (build m)).outline = .node label m (es m))
    (hes : ∀ m, input.NestsAll start i (es m)) (hoffside : ∀ m, (build m).Offside input) :
    Reads input i (do
      let d ← make start build
      endLine
      return d) (input.Declares start) :=
  .making hpasses hbuild hes fun m hm hholds => endLine_reads.bind fun _ _ hj hline => .pure <|
    declares_made hpasses (hbuild m) hm hholds hj hline.1 (hoffside m)

end Made

theorem component_gives : Gives input i component := by
  refine (accept_reads (by decide)).bind fun o j hj ho => ?_
  cases o with
  | none =>
    obtain rfl := ho
    exact identifier_gives
  | some t =>
    have hstar : Stays input j (starOf t) (input.Holds i j) :=
      .allocateToken ho.1 (fun _ => rfl) fun _ => rfl
    exact hstar.imp fun _ hx => ⟨hj, hx⟩

theorem imports_reads : Reads input i imports (input.Declares i) := by
  refine .here (expect_reads.bind fun _ j hj hkeyword => identifier_gives.bind
    fun first k hk hfirst => ?_)
  refine (afterEach_gives (by decide) fun _ _ => component_gives).bind fun rest l hl hrest => ?_
  have hpath : input.Holds i l (first :: rest) :=
    .cons (hfirst.mono hj hl) (hrest.mono (by omega) (Nat.le_refl l))
  exact makeLine_declares (hkeyword.1.passes.mono (Nat.le_refl i) (by omega)) (fun _ => rfl)
    (fun _ => ⟨hpath.outlines rfl, trivial⟩) fun _ => trivial

theorem modifiers_reads : Goes input i modifiers fun _ _ => True := by
  refine (Reads.foldWhile (I := fun j (_ : Bool × List String) => i ≤ j) (Nat.le_refl i)
    fun x j hj => ?_).bind fun x j hj => .pure ⟨hj, trivial⟩
  refine (accept_reads (by decide)).bind fun o k hk ho => ?_
  cases o with
  | none => exact .pure (Nat.le_trans hj hk)
  | some t =>
    dsimp only
    split
    · exact .reject (input.marks_token ho.1.token)
    · exact .pure (Nat.le_trans hj hk)

section Scoped

variable {types : TypeParsers} (ht : types.Giving input) {s : Scope}

include ht

theorem result_reads : Goes input i (result types s) fun j x =>
    input.Holds i j x.1 ∧ x.2.indent = s.indent := by
  have hrest : ∀ {j} {x : TypeExpr × Identifier}, input.Holds i j x → Reads input j (do
      let v ← make i fun m => Variable.mk m x.2 x.1
      return (v, ← ofExcept (s.declareVariable v))) fun k y =>
        i ≤ k ∧ input.Holds i k y.1 ∧ y.2.indent = s.indent := by
    intro j x hx
    have hpasses := TypeParsers.holds_passes hx.1
    refine .making hpasses (fun _ => rfl) (fun _ => ⟨hx.2, hx.1, trivial, trivial⟩) fun m _ hv => ?_
    exact (declareVariable_reads (v := ⟨m, x.2, x.1⟩) hx.2).bind fun s' hindent =>
      .pure ⟨Nat.le_of_lt hpasses.lt, hv, hindent⟩
  refine .here ((accept_reads (by decide)).bind fun o j hj ho => ?_)
  cases o with
  | some _ =>
    refine (TypeParsers.named_gives ht).bind fun named k hk hnamed => expect_reads.bind
      fun _ l hl _ => ?_
    exact hrest (hnamed.mono hj hl)
  | none =>
    -- a result without a name gets one that has the span of the type
    obtain rfl := ho
    refine ht.type.bind fun type k hk htype => ?_
    rw [← TypeExpr.mark_outline]
    refine Stays.bind (.allocateOver (o := type.outline) htype type.label_ne_block (fun _ => rfl)
      fun _ => List.forall_mem_nil _) fun name hname => ?_
    have hnamed : Stays input k (pure (type, name)) (input.Holds j k) := .pure ⟨rfl, htype, hname⟩
    exact hnamed.bind fun x hx => hrest hx

theorem results_reads : Goes input i (results types s) fun j x =>
    input.Holds i j x.1 ∧ x.2.indent = s.indent := by
  refine (accept_reads (by decide)).bind fun o j hj _ => ?_
  cases o with
  | none => exact .pure ⟨hj, .nil, rfl⟩
  | some _ =>
    refine ahead_reads.bind fun b _ => ?_
    split
    · exact (parameters_reads ht).imp fun x l hx =>
        ⟨Nat.le_trans hj hx.1, hx.2.1.mono hj (Nat.le_refl l), hx.2.2⟩
    · refine (result_reads ht).bind fun x l hl hx => .pure ⟨Nat.le_trans hj hl, ?_, hx.2⟩
      exact .cons (hx.1.mono hj (Nat.le_refl l)) .nil

end Scoped

section Rules

variable {g : DeclParsers} (hg : StmtParsers.Giving input g) {modifiers : List String}

include hg

theorem routine_reads {s : Scope} : Goes input i (g.routine modifiers s) fun j r =>
    input.Holds i j r ∧ r.body.Offside input s.indent := by
  refine identifier_gives.bind fun name j hj hname => ?_
  refine (parameters_reads hg.exprs.types).bind fun x k hk hx => ?_
  refine (results_reads hg.exprs.types).bind fun y l hl hy => ?_
  refine (clauses_gives hg.exprs (by decide)).bind fun requires m hm hrequires => ?_
  refine (clauses_gives hg.exprs (by decide)).bind fun ensures n hn hensures => ?_
  refine StmtParsers.headerEnd_reads.bind fun _ q hq hline => (hg.block hline.1).bind
    fun body r hr hbody => .pure ⟨by omega, ?_, ?_⟩
  · exact ⟨hname.mono (Nat.le_refl i) (by omega), hx.1.mono (by omega) (by omega),
      hy.1.mono (by omega) (by omega), hrequires.mono (by omega) (by omega),
      hensures.mono (by omega) (by omega), hbody.1.mono (by omega) (Nat.le_refl r)⟩
  · have hindent : y.2.declareThis.indent = s.indent := hy.2.trans hx.2
    rw [← hindent]
    exact hbody.2.2

theorem typeDecl_reads (hstart : start ≤ i) :
    Reads input i (g.typeDecl start modifiers) (input.Declares start) := by
  refine advance_reads.bind fun _ j hj hkeyword => identifier_gives.bind fun name k hk hname => ?_
  refine expect_reads.bind fun _ l hl _ => (result_reads hg.exprs.types).bind fun x m hm hx => ?_
  refine (clauses_gives hg.exprs (by decide)).bind fun invariant n hn hinvariant => ?_
  have hinvariant' : input.Holds start n invariant := hinvariant.mono (by omega) (Nat.le_refl n)
  refine makeLine_declares (hkeyword.passes.mono hstart (by omega)) (fun _ => rfl) (fun _ => ?_)
    fun _ => trivial
  exact ⟨trivial, hname.mono (by omega) (by omega), hx.1.mono (by omega) hn,
    hinvariant'.outlines rfl, trivial⟩

theorem constant_reads (hstart : start ≤ i) :
    Reads input i (g.constant start modifiers) (input.Declares start) := by
  refine advance_reads.bind fun _ j hj hkeyword => identifier_gives.bind fun name k hk hname => ?_
  refine expect_reads.bind fun _ l hl _ => (StmtParsers.expression_reads hg).bind
    fun value m hvalue => ?_
  have hle := hvalue.le
  refine makeLine_declares (hkeyword.passes.mono hstart (by omega)) (fun _ => rfl) (fun _ => ?_)
    fun _ => trivial
  exact ⟨trivial, hname.mono (by omega) (by omega), hvalue.holds.mono (by omega) (Nat.le_refl m),
    trivial⟩

theorem function_reads (hstart : start ≤ i) :
    Reads input i (g.function start modifiers) (input.Declares start) := by
  refine advance_reads.bind fun _ j hj hkeyword => (routine_reads hg).bind fun r k hk hr => ?_
  have hr' : input.Holds start k r := hr.1.mono (by omega) (Nat.le_refl k)
  exact make_declares (hkeyword.passes.mono hstart hk) (fun _ => rfl) (fun _ => hr'.entries trivial)
    fun _ => hr.2

theorem method_reads (hstart : start ≤ i) :
    Reads input i (g.method start modifiers) (input.Declares start) := by
  refine advance_reads.bind fun _ j hj hkeyword => ?_
  refine optionalLifetimeParameters_reads.bind fun x k hk hx => (routine_reads hg).bind
    fun r l hl hr => ?_
  have hr' : input.Holds start l r := hr.1.mono (by omega) (Nat.le_refl l)
  have hlifetimes : input.Holds start l x.1 := hx.1.mono (by omega) hl
  refine make_declares (hkeyword.passes.mono hstart (by omega)) (fun _ => rfl)
    (fun _ => hr'.entries ⟨hlifetimes.outlines rfl, trivial⟩) fun _ => ?_
  have hindent : x.2.indent = .root := hx.2
  rw [hindent] at hr
  exact hr.2

theorem property_reads (hstart : start ≤ i) :
    Reads input i (g.property start modifiers) (input.Declares start) := by
  refine advance_reads.bind fun _ j hj hkeyword => identifier_gives.bind fun name k hk hname => ?_
  refine (parameters_reads hg.exprs.types).bind fun x l hl hx => ?_
  refine (clauses_gives hg.exprs (by decide)).bind fun invariant m hm hinvariant => ?_
  have hparameters : input.Holds start m x.1 := hx.1.mono (by omega) hm
  have hinvariant' : input.Holds start m invariant := hinvariant.mono (by omega) (Nat.le_refl m)
  refine makeLine_declares (hkeyword.passes.mono hstart (by omega)) (fun _ => rfl) (fun _ => ?_)
    fun _ => trivial
  exact ⟨trivial, hname.mono (by omega) (by omega), hparameters.outlines rfl,
    hinvariant'.outlines rfl, trivial⟩

theorem declaration_reads : Reads input i (declaration g) (input.Declares i) := by
  refine .settled fun start _ hstart => .showing fun t j hj hstart' _ _ => ?_
  split
  · exact imports_reads.imp fun _ _ hd => (hd.unskip hstart').unskip hstart
  · refine modifiers_reads.bind fun modifiers k hk _ => .showing fun t l hl _ ht _ => ?_
    have hle : start ≤ l := by omega
    have hdeclares : ∀ {p}, Reads input l p (input.Declares start) →
        Reads input l p (input.Declares i) := fun hp => hp.imp fun _ _ hd => hd.unskip hstart
    split
    · exact hdeclares (typeDecl_reads hg hle)
    · split
      · exact hdeclares (constant_reads hg hle)
      · split
        · exact hdeclares (function_reads hg hle)
        · split
          · exact hdeclares (method_reads hg hle)
          · split
            · exact hdeclares (property_reads hg hle)
            · exact .reject (input.marks_token ht)

end Rules

end DeclParsers

section Header

variable (hlexed : ∀ t ∈ input.tokens, t.Lexed)

theorem packageComponent_reads : Reads input i packageComponent fun j c =>
    ∃ t, input.Takes true i t j ∧ t.text = c :=
  expect_reads.bind fun t _ _ ht => .pure ⟨t, ht.1, rfl⟩

include hlexed

theorem text_of_takes {lines : Bool} {t : Token} {k : Kind} (ht : input.Takes lines i t j)
    (hk : t.kind = k) (hfixed : k ∉ Kind.classes) : t.text = k.spelling := by
  subst hk
  exact Token.text_of_fixed (hlexed t (Array.mem_of_getElem? ht.token)) hfixed

theorem package_reads : Reads input 0 package fun j package =>
    input.textsBefore j = headerWords package := by
  refine (accept_reads (by decide)).bind fun o i _ ho => ?_
  cases o with
  | none =>
    obtain rfl := ho
    exact .pure rfl
  | some keyword =>
    obtain ⟨hkeyword, hmem⟩ := ho
    have hpackage : keyword.text = "package" :=
      text_of_takes hlexed hkeyword (List.mem_singleton.mp hmem) (by decide)
    refine packageComponent_reads.bind fun first j hfirst => ?_
    obtain ⟨t, ht, rfl⟩ := hfirst
    have hstart : input.textsBefore j = headerWords [t.text] := by
      rw [ht.textsBefore_eq, hkeyword.textsBefore_eq, hpackage]
      rfl
    refine Reads.bind (.many (I := fun k rest => input.textsBefore k = headerWords (t.text :: rest))
      hstart fun rest k hrest => ?_) fun rest k hrest => endLine_reads.bind fun _ l hl hline => ?_
    · refine (accept_reads (by decide)).bind fun o l hl ho => ?_
      cases o with
      | none =>
        obtain rfl := ho
        exact .pure hrest
      | some dot =>
        obtain ⟨hdot, hmem⟩ := ho
        have htext : dot.text = "." :=
          text_of_takes hlexed hdot (List.mem_singleton.mp hmem) (by decide)
        refine packageComponent_reads.bind fun c m hc => .pure ?_
        obtain ⟨u, hu, rfl⟩ := hc
        change input.textsBefore m = headerWords (t.text :: (rest ++ [u.text]))
        rw [headerWords_snoc, hu.textsBefore_eq, hdot.textsBefore_eq, hrest, htext]
        simp
    · exact .pure ((hline.1.textsBefore_eq hl).trans hrest)

end Header

theorem moreTokens_reads : Reads input i moreTokens fun j b =>
    input.Skipped true i j ∧ (b = false → input.tokens.size ≤ j) := by
  refine .given (.here (.moved (.pure ⟨input.skipped_skip true i, fun hb => ?_⟩)))
  simpa using hb

theorem declarations_reads {g : DeclParsers} (hg : StmtParsers.Giving input g) :
    Reads input i (many do
      if ← moreTokens then return some (← DeclParsers.declaration g) else return none)
      fun j ds => input.tokens.size ≤ j ∧ input.Tiles i j ds := by
  refine .manyUntil (I := input.Tiles i) (.nil fun k hik hki => by omega) fun ds j hds => ?_
  refine moreTokens_reads.bind fun b k hk => ?_
  split
  · exact (DeclParsers.declaration_reads hg).bind fun d l hd => .pure (.snoc hds (hd.unskip hk.1))
  · rename_i hb
    exact .pure ⟨hk.2 (eq_false_of_ne_true hb), hds.extend hk.1.1 hk.1.blank⟩

theorem module_reads {g : DeclParsers} (hg : StmtParsers.Giving input g)
    (hlexed : ∀ t ∈ input.tokens, t.Lexed) : Reads input 0 (module g) fun j m =>
      input.tokens.size ≤ j ∧ m.mark.span = ⟨0, input.lastSpan.stop⟩ ∧
        ∃ i, input.textsBefore i = headerWords m.package ∧ input.Tiles i j m.declarations := by
  refine (package_reads hlexed).bind fun package i hpackage => ?_
  refine (declarations_reads hg).bind fun ds j hds => .given fun arena => ?_
  exact ⟨hds.1, rfl, i, hpackage, hds.2⟩

theorem ofDepth_giving (depth : Nat) : StmtParsers.Giving input (ofDepth depth) := by
  have hexprs : (ExprParsers.ofDepth (TypeParsers.ofDepth depth) depth).Giving input :=
    ExprParsers.ofDepth_giving (TypeParsers.ofDepth_giving depth) depth
  exact StmtParsers.ofDepth_giving hexprs (TargetParser.ofDepth_gives hexprs depth) depth

end Grammar

section Parsing

variable {tokens : List Token} (hlexed : ∀ t ∈ tokens, t.Lexed)

include hlexed

theorem parser_reads : Parser.Reads (.ofTokens tokens) 0
    (Grammar.module (Grammar.ofDepth (Grammar.depthFor tokens.length))) fun j m =>
      tokens.length ≤ j ∧ m.mark.span = ⟨0, (Input.ofTokens tokens).lastSpan.stop⟩ ∧
        ∃ i, (Input.ofTokens tokens).textsBefore i = headerWords m.package ∧
          (Input.ofTokens tokens).Tiles i j m.declarations :=
  Grammar.module_reads (Grammar.ofDepth_giving _) (by simpa [Input.ofTokens] using hlexed)

/-- A module is read from all tokens: the package header, and after it the declarations. -/
theorem parse_tiles {m : Module} {arena : Arena Node} (h : parse tokens = .ok (m, arena)) :
    m.mark.span = ⟨0, (Input.ofTokens tokens).lastSpan.stop⟩ ∧ ∃ i j, tokens.length ≤ j ∧
      (Input.ofTokens tokens).textsBefore i = headerWords m.package ∧
        (Input.ofTokens tokens).Tiles i j m.declarations := by
  obtain ⟨s, rfl, hrun⟩ := parseInto_ok h
  have hmodule := parser_reads hlexed .empty
  rw [hrun] at hmodule
  obtain ⟨hsize, hspan, i, hheader, htiles⟩ := hmodule
  exact ⟨hspan, i, s.pos, hsize, hheader, htiles⟩

theorem parse_error_located {f : Failure} (h : parse tokens = .error f) :
    f.Located (.ofTokens tokens) := by
  obtain ⟨s, hrun⟩ := parseInto_error h
  have hmodule := parser_reads hlexed .empty
  rw [hrun] at hmodule
  exact hmodule

end Parsing

theorem exists_module_of_eq {α : Type} (source : String) (f : Module → α) (a : α)
    (h : ((lex source).toOption.bind fun ts => (parse ts).toOption.map (f ·.1)) = some a) :
    ∃ ts m arena, lex source = .ok ts ∧ parse ts = .ok (m, arena) ∧ f m = a := by
  cases hlex : lex source with
  | error e =>
    rw [hlex] at h
    cases h
  | ok ts =>
    cases hparse : parse ts with
    | error e =>
      rw [hlex] at h
      simp [Except.toOption, hparse] at h
    | ok x =>
      rw [hlex] at h
      refine ⟨ts, x.1, x.2, rfl, hparse, ?_⟩
      simpa [Except.toOption, hparse] using h

end Whiley
