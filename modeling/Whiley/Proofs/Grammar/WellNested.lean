import Whiley.Proofs.Grammar.ReadsDecls
import Whiley.Proofs.Token.Order

namespace Whiley

def Span.Within (s whole : Span) : Prop :=
  whole.start ≤ s.start ∧ s.stop ≤ whole.stop

/-- From the start of a token that is no space to the end of one. -/
structure Span.Aligned (tokens : List Token) (s : Span) : Prop where
  pos : s.start < s.stop
  start : ∃ t ∈ tokens, t.kind.isSpace = false ∧ t.start = s.start
  stop : ∃ t ∈ tokens, t.kind.isSpace = false ∧ t.stop = s.stop

/-- A block without statements, which has no tokens of its own. -/
def Outline.IsEmptyBlock (o : Outline) : Prop :=
  ∃ m, o = (Block.mk m []).outline

namespace Input

theorem Nests.cases {input : Input} {i j : Nat} {o : Outline} (h : input.Nests i j o) :
    o.IsEmptyBlock ∨ ∃ first last, i ≤ first ∧ last < j ∧ input.Covers first last o.mark.span ∧
      ∀ c ∈ o.children, input.Nests first (last + 1) c := by
  cases h with
  | @empty _ _ m => exact .inl ⟨m, rfl⟩
  | node hi hj hcovers hes => exact .inr ⟨_, _, hi, hj, hcovers, hes⟩

theorem Nests.reaches {input : Input} {i j : Nat} {o c : Outline} (h : input.Nests i j o)
    (hc : o.Reaches c) : input.Nests i j c := by
  induction hc with
  | refl => exact h
  | tail _ hchild ih => exact ih.children _ hchild

section Offsets

variable {tokens : List Token} {n i j k first last a b : Nat} {s s' : Span}
  (horder : Lexer.InOrder 0 n tokens)

include horder

theorem Covers.aligned (h : (ofTokens tokens).Covers first last s) : s.Aligned tokens := by
  obtain ⟨t, u, ht, hu, hstart, hstop, rfl⟩ := h.ends
  rw [getElem?_ofTokens] at ht hu
  exact ⟨horder.start_lt_stop h.le ht hu, ⟨t, List.mem_of_getElem? ht, hstart, rfl⟩,
    ⟨u, List.mem_of_getElem? hu, hstop, rfl⟩⟩

theorem Covers.within (h : (ofTokens tokens).Covers first last s)
    (h' : (ofTokens tokens).Covers a b s') (ha : a ≤ first) (hb : last ≤ b) : s.Within s' := by
  obtain ⟨t, u, ht, hu, -, -, rfl⟩ := h.ends
  obtain ⟨t', u', ht', hu', -, -, rfl⟩ := h'.ends
  rw [getElem?_ofTokens] at ht hu ht' hu'
  exact ⟨horder.start_le_start ha ht' ht, horder.stop_le_stop hb hu hu'⟩

theorem Covers.before (h : (ofTokens tokens).Covers first last s)
    (h' : (ofTokens tokens).Covers a b s') (hlt : last < a) : s.stop ≤ s'.start := by
  obtain ⟨t, u, ht, hu, -, -, rfl⟩ := h.ends
  obtain ⟨t', u', ht', hu', -, -, rfl⟩ := h'.ends
  rw [getElem?_ofTokens] at hu ht'
  exact horder.stop_le_start hlt hu ht'

theorem Covers.stop_le (h : (ofTokens tokens).Covers first last s) :
    s.stop ≤ (ofTokens tokens).lastSpan.stop := by
  obtain ⟨t, u, ht, hu, -, -, rfl⟩ := h.ends
  rw [getElem?_ofTokens] at hu
  have hlast : tokens[tokens.length - 1]? = tokens.getLast? := List.getLast?_eq_getElem?.symm
  obtain ⟨hlt, -⟩ := List.getElem?_eq_some_iff.mp hu
  cases hback : tokens.getLast? with
  | none =>
    rw [List.getLast?_eq_none_iff.mp hback] at hlt
    cases hlt
  | some v =>
    have hspan : (ofTokens tokens).lastSpan = v.span := by
      simp [lastSpan, ofTokens, hback]
    rw [hspan]
    exact horder.stop_le_stop (by omega) hu (hlast.trans hback)

theorem Nests.spans {o : Outline} (h : (ofTokens tokens).Nests i j o) :
    ∀ c ∈ o.children, ¬ c.IsEmptyBlock →
      c.mark.span.Aligned tokens ∧ c.mark.span.Within o.mark.span := by
  intro c hc hne
  rcases h.cases with ⟨m, rfl⟩ | ⟨first, last, -, -, hcovers, hchildren⟩
  · exact absurd hc List.not_mem_nil
  · rcases (hchildren c hc).cases with hempty | ⟨a, b, ha, hb, hcovers', -⟩
    · exact absurd hempty hne
    · exact ⟨hcovers'.aligned horder, hcovers'.within horder hcovers ha (by omega)⟩

end Offsets

theorem Tiles.mem {input : Input} {i j : Nat} {ds : List Decl} (h : input.Tiles i j ds) :
    ∀ d ∈ ds, ∃ k l, l ≤ j ∧ input.Declares k l d := by
  induction h with
  | nil => exact List.forall_mem_nil _
  | snoc hds hd ih =>
    refine List.forall_mem_append.mpr ⟨fun d hmem => ?_, List.forall_mem_singleton.mpr ?_⟩
    · obtain ⟨k, l, hl, hdeclares⟩ := ih d hmem
      exact ⟨k, l, Nat.le_trans hl (Nat.le_of_lt hd.fills.passes.lt), hdeclares⟩
    · exact ⟨_, _, Nat.le_refl _, hd⟩

theorem Tiles.covers {input : Input} {i j k : Nat} {ds : List Decl} (h : input.Tiles i j ds)
    (hk : input.Solid k) (hik : i ≤ k) (hkj : k < j) :
    ∃ d ∈ ds, ∃ first last, input.Covers first last d.mark.span ∧ first ≤ k ∧ k ≤ last := by
  induction h with
  | nil hblank => exact absurd hk (hblank k hik hkj)
  | @snoc j l ds d hds hd ih =>
    rcases Nat.lt_or_ge k j with hlt | hge
    · obtain ⟨d', hd', hcovers⟩ := ih hlt
      exact ⟨d', List.mem_append_left _ hd', hcovers⟩
    · exact ⟨d, by simp, hd.fills.within hk hge hkj⟩

theorem Tiles.pairwise {tokens : List Token} {n i j : Nat} {ds : List Decl}
    (horder : Lexer.InOrder 0 n tokens) (h : (ofTokens tokens).Tiles i j ds) :
    ds.Pairwise fun d e => d.mark.span.stop ≤ e.mark.span.start := by
  induction h with
  | nil => exact .nil
  | snoc hds hd ih =>
    refine List.pairwise_append.mpr ⟨ih, List.pairwise_singleton _ _, fun d hd' e he => ?_⟩
    obtain rfl := List.mem_singleton.mp he
    obtain ⟨k, l, hl, hdeclares⟩ := hds.mem d hd'
    obtain ⟨a, last, hcovers, -, hlast, -⟩ := hdeclares.fills
    obtain ⟨first, b, hcovers', hfirst, -⟩ := hd.fills
    exact hcovers.before horder hcovers' (by omega)

end Input

theorem Span.Within.not_both {s s' t : Span} (h : t.Within s) (h' : t.Within s')
    (hpos : t.start < t.stop) : ¬ s.stop ≤ s'.start := by
  have hstop := h.2
  have hstart := h'.1
  omega

theorem Span.Within.unique {ds : List Decl} {t : Span} {d e : Decl}
    (hds : ds.Pairwise fun d e => d.mark.span.stop ≤ e.mark.span.start) (hpos : t.start < t.stop)
    (hd : d ∈ ds) (he : e ∈ ds) (hdt : t.Within d.mark.span) (het : t.Within e.mark.span) :
    e = d :=
  List.Pairwise.forall_of_forall_of_flip
    (R := fun d e => t.Within d.mark.span → t.Within e.mark.span → e = d)
    (fun _ _ _ _ => rfl) (hds.imp fun hde hdt het => absurd hde (hdt.not_both het hpos))
    (hds.imp fun hde het hdt => absurd hde (hdt.not_both het hpos)) hd he hdt het

theorem Module.children_outline (m : Module) :
    m.outline.children = m.declarations.map Decl.outline := by
  simp [Module.outline, Outline.children, Outline.entries, Entry.nodes, Content.nodes]

namespace Input.Tiles

variable {tokens : List Token} {n i j k : Nat} {ds : List Decl}
  (horder : Lexer.InOrder 0 n tokens)

include horder

theorem spans {m : Module} (h : (ofTokens tokens).Tiles i j m.declarations)
    (hspan : m.mark.span = ⟨0, (ofTokens tokens).lastSpan.stop⟩) {o : Outline}
    (ho : m.outline.Reaches o) : ∀ c ∈ o.children, ¬ c.IsEmptyBlock →
      c.mark.span.Aligned tokens ∧ c.mark.span.Within o.mark.span := by
  have hdecl : ∀ c ∈ m.outline.children, ∃ d ∈ m.declarations, d.outline = c := by
    rw [m.children_outline]
    exact fun c hc => List.mem_map.mp hc
  rcases Relation.ReflTransGen.cases_head ho with rfl | ⟨child, hchild, hreaches⟩
  · intro c hc _
    obtain ⟨d, hd, rfl⟩ := hdecl c hc
    obtain ⟨k, l, -, hdeclares⟩ := h.mem d hd
    obtain ⟨first, last, hcovers, -⟩ := hdeclares.fills
    have hmodule : m.outline.mark.span = ⟨0, (ofTokens tokens).lastSpan.stop⟩ := hspan
    rw [Decl.mark_outline, hmodule]
    exact ⟨hcovers.aligned horder, Nat.zero_le _, hcovers.stop_le horder⟩
  · obtain ⟨d, hd, rfl⟩ := hdecl child hchild
    obtain ⟨k, l, -, hdeclares⟩ := h.mem d hd
    exact (Nests.reaches hdeclares.holds hreaches).spans horder

theorem owner {t : Token} (h : (ofTokens tokens).Tiles i j ds) (ht : tokens[k]? = some t)
    (hsolid : t.kind.isSpace = false) (hik : i ≤ k) (hkj : k < j) :
    ∃! d, d ∈ ds ∧ t.span.Within d.mark.span := by
  have ht' : (ofTokens tokens).tokens[k]? = some t := (getElem?_ofTokens tokens k).trans ht
  obtain ⟨d, hd, first, last, hcovers, hfirst, hlast⟩ := h.covers ⟨t, ht', hsolid⟩ hik hkj
  have hwithin := (covers_token ht' hsolid).within horder hcovers hfirst hlast
  have hpos := (horder.mem t (List.mem_of_getElem? ht)).2.1
  exact ⟨d, ⟨hd, hwithin⟩, fun e he =>
    Span.Within.unique (h.pairwise horder) hpos hd he.1 hwithin he.2⟩

end Input.Tiles

theorem parse_nested {source : String} {tokens : List Token} {m : Module} {arena : Arena Node}
    (hlex : lex source = .ok tokens) (hparse : parse tokens = .ok (m, arena)) :
    (∀ o, m.outline.Reaches o → ∀ c ∈ o.children, ¬ c.IsEmptyBlock →
      c.mark.span.Aligned tokens ∧ c.mark.span.Within o.mark.span) ∧
    m.declarations.Pairwise (fun d e => d.mark.span.stop ≤ e.mark.span.start) ∧
    ∃ header rest, tokens = header ++ rest ∧
      (header.filter (!·.kind.isSpace)).map (·.text) = headerWords m.package ∧
      ∀ t ∈ rest, t.kind.isSpace = false →
        ∃! d, d ∈ m.declarations ∧ t.span.Within d.mark.span := by
  have horder := lex_inOrder hlex
  obtain ⟨hspan, i, j, hj, hheader, htiles⟩ := parse_tiles (lex_lexed hlex) hparse
  refine ⟨fun o ho => htiles.spans horder hspan ho, htiles.pairwise horder, tokens.take i,
    tokens.drop i, (List.take_append_drop i tokens).symm, hheader, fun t ht hsolid => ?_⟩
  obtain ⟨k, hk⟩ := List.getElem?_of_mem ht
  rw [List.getElem?_drop] at hk
  obtain ⟨hlt, -⟩ := List.getElem?_eq_some_iff.mp hk
  exact htiles.owner horder hk hsolid (Nat.le_add_right i k) (by omega)

def packaged : String :=
  "package a.b // here\n\ntype nat is (int n) where n >= 0\n\nmethod m(nat x):\n    while x > 0:\n"

theorem parse_nested_packaged :
    ∃ ts m arena, lex packaged = .ok ts ∧ parse ts = .ok (m, arena) ∧ m.package = ["a", "b"] ∧
      m.declarations.length = 2 ∧
      ∃ header rest, ts = header ++ rest ∧
        (header.filter (!·.kind.isSpace)).map (·.text) = ["package", "a", ".", "b"] ∧
        ∀ t ∈ rest, t.kind.isSpace = false →
          ∃! d, d ∈ m.declarations ∧ t.span.Within d.mark.span := by
  obtain ⟨ts, m, arena, hlex, hparse, hshape⟩ := exists_module_of_eq packaged
    (fun m => (m.package, m.declarations.length)) (["a", "b"], 2) (by decide +kernel)
  obtain ⟨hpackage, hlength⟩ := Prod.mk.inj hshape
  obtain ⟨-, -, hshared⟩ := parse_nested hlex hparse
  rw [hpackage] at hshared
  exact ⟨ts, m, arena, hlex, hparse, hpackage, hlength, hshared⟩

end Whiley
