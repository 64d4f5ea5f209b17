import Whiley.Proofs.Grammar.Continued
import Whiley.Proofs.Grammar.Modules
import Whiley.Proofs.Grammar.SameEssence
import Whiley.Proofs.Token.Appended

namespace Whiley

/-- Whether a line holds more than space and comments. -/
def holdsWord (l : List Token) : Bool :=
  l.any (!·.kind.isSpace)

/-- The first line that holds a word does not begin with an indent. -/
def Flush (ts : List Token) : Prop :=
  ∀ l ∈ (tokenLines ts).find? holdsWord, ∀ t ∈ l.head?, t.kind ≠ .indent

instance (ts : List Token) : Decidable (Flush ts) :=
  inferInstanceAs (Decidable (∀ l ∈ (tokenLines ts).find? holdsWord, ∀ t ∈ l.head?, t.kind ≠ .indent))

section Flush

variable {ts rest : List Token} {u : Token}

theorem isSpace_of_stop (h : Input.skips false u.kind = false) (hnewline : u.kind ≠ .newline) :
    u.kind.isSpace = false := by
  have hline : u.kind.isLineSpace = false := h
  simp [Kind.isSpace, hline, hnewline]

theorem tokenLines_word (h : pastSpace false ts = u :: rest) (hu : u.kind ≠ .newline) :
    ∃ l ls, tokenLines ts = l :: ls ∧ l.head? = ts.head? ∧ holdsWord l := by
  induction ts with
  | nil => cases h
  | cons t ts ih =>
    cases hskips : Input.skips false t.kind with
    | true =>
      rw [pastSpace_skip hskips] at h
      obtain ⟨l, ls, hlines, -, hany⟩ := ih h
      refine ⟨t :: l, ls, ?_, rfl, ?_⟩
      · rw [tokenLines, if_neg (not_newline_of_skips hskips), hlines]
      · rw [holdsWord, List.any_cons, Bool.or_eq_true]
        exact .inr hany
    | false =>
      rw [pastSpace_stop hskips] at h
      obtain ⟨rfl, rfl⟩ := List.cons.inj h
      rw [tokenLines, if_neg hu]
      cases tokenLines ts with
      | nil => exact ⟨[t], [], rfl, rfl, by simp [holdsWord, isSpace_of_stop hskips hu]⟩
      | cons l ls => exact ⟨t :: l, ls, rfl, rfl, by simp [holdsWord, isSpace_of_stop hskips hu]⟩

theorem tokenLines_blank (h : pastSpace false ts = u :: rest) (hu : u.kind = .newline) :
    ∃ l, tokenLines ts = l :: tokenLines rest ∧ holdsWord l = false := by
  induction ts with
  | nil => cases h
  | cons t ts ih =>
    cases hskips : Input.skips false t.kind with
    | true =>
      rw [pastSpace_skip hskips] at h
      obtain ⟨l, hlines, hall⟩ := ih h
      refine ⟨t :: l, ?_, ?_⟩
      · rw [tokenLines, if_neg (not_newline_of_skips hskips), hlines]
      · rwa [holdsWord, List.any_cons, Input.isSpace_of_skips hskips]
    | false =>
      rw [pastSpace_stop hskips] at h
      obtain ⟨rfl, rfl⟩ := List.cons.inj h
      exact ⟨[t], by rw [tokenLines, if_pos hu], by simp [holdsWord, hu, Kind.isSpace]⟩

theorem PastBlankLines.flush {left : List Token} (h : PastBlankLines ts left) (hts : Flush ts) :
    ∀ t ∈ left.head?, t.kind ≠ .indent := by
  induction h with
  | done => exact nofun
  | stay h hu =>
    obtain ⟨l, ls, hlines, hhead, hany⟩ := tokenLines_word h hu
    rw [← hhead]
    exact hts l (by rw [hlines, List.find?_cons_of_pos hany]; rfl)
  | blank h hn _ ih =>
    obtain ⟨l, hlines, hall⟩ := tokenLines_blank h hn
    refine ih fun l' hl' => hts l' ?_
    rw [hlines, List.find?_cons_of_neg (by simp [hall])]
    exact hl'

theorem Flush.indentAt_eq (h : Flush ts) :
    (Input.ofTokens ts).indentAt ((Input.ofTokens ts).skipLines 0) = none := by
  have hpast : PastBlankLines ts _ := (Input.ofTokens ts).after_skipLines (i := 0)
  rw [Input.indentAt_eq]
  refine Option.filter_eq_none_iff.mpr fun t ht => ?_
  simpa using hpast.flush h t ht

end Flush

section After

variable {ts us : List Token} {distance p q : Nat} {lines : Bool}

theorem tokens_after (i : Nat) :
    (Input.ofTokens (ts ++ us.map (Token.moved distance))).tokens[ts.length + i]? =
      (Input.ofTokens us).tokens[i]?.map (Token.moved distance) := by
  simp only [Input.getElem?_ofTokens]
  rw [List.getElem?_append_right (Nat.le_add_right _ _), Nat.add_sub_cancel_left, List.getElem?_map]

theorem skipped_after (h : (Input.ofTokens us).Skipped lines p q) :
    (Input.ofTokens (ts ++ us.map (Token.moved distance))).Skipped lines (ts.length + p)
      (ts.length + q) := by
  refine ⟨Nat.add_le_add_left h.1 _, fun k hpk hkq => ?_⟩
  obtain ⟨k, rfl⟩ := Nat.exists_eq_add_of_le (Nat.le_trans (Nat.le_add_right _ p) hpk)
  obtain ⟨t, ht, hskips⟩ := h.2 k (Nat.le_of_add_le_add_left hpk) (Nat.lt_of_add_lt_add_left hkq)
  exact ⟨t.moved distance, by rw [tokens_after, ht]; rfl, hskips⟩

theorem skip_after : (Input.ofTokens (ts ++ us.map (Token.moved distance))).skip lines
    (ts.length + p) = ts.length + (Input.ofTokens us).skip lines p := by
  rw [← (skipped_after ((Input.ofTokens us).skipped_skip lines p)).skip_eq]
  cases ht : (Input.ofTokens us).tokens[(Input.ofTokens us).skip lines p]? with
  | none => exact Input.skip_of_none (by rw [tokens_after, ht]; rfl)
  | some t =>
    have hstop := (Input.ofTokens us).skip_stops ht
    exact Input.skip_of_stop (t := t.moved distance) (by rw [tokens_after, ht]; rfl) hstop

theorem pastLines_after (h : (Input.ofTokens us).PastLines p q) :
    (Input.ofTokens (ts ++ us.map (Token.moved distance))).PastLines (ts.length + p)
      (ts.length + q) := by
  induction h with
  | ends h =>
    rw [← skip_after]
    refine .ends ?_
    rw [skip_after, tokens_after, h]
    rfl
  | @stay m u h hu =>
    refine .stay (u := u.moved distance) ?_ hu
    rw [skip_after, tokens_after, h]
    rfl
  | @blank m n u h hu _ ih =>
    refine .blank (u := u.moved distance) ?_ hu ?_
    · rw [skip_after, tokens_after, h]
      rfl
    · rwa [skip_after, Nat.add_assoc]

theorem skipLines_after : (Input.ofTokens (ts ++ us.map (Token.moved distance))).skipLines
    (ts.length + p) = ts.length + (Input.ofTokens us).skipLines p :=
  (pastLines_after ((Input.ofTokens us).pastLines_skipLines p)).eq

theorem indentAt_after : (Input.ofTokens (ts ++ us.map (Token.moved distance))).indentAt
    (ts.length + p) = ((Input.ofTokens us).indentAt p).map (Token.moved distance) := by
  rw [Input.indentAt, Input.indentAt, tokens_after, Option.filter_map]
  rfl

end After

/-- Forgets where nodes stand, and moves every index up by `k`. -/
def spanlessFrom (k : Nat) : Relabelling :=
  { spanless with index := (· + k) }

theorem Token.alike_moved (distance k : Nat) (t : Token) :
    Token.Alike (spanlessFrom k) spanless t (t.moved distance) :=
  ⟨rfl, rfl, fun _ _ => rfl, fun _ => rfl⟩

/--
A stream on its own and after another one, with the same patience; on the right `k` nodes are stored
already.
-/
def Simulation.after (ts us : List Token) (distance k : Nat) : Simulation where
  left := (Input.ofTokens us).allowing
    (Input.ofTokens (ts ++ us.map (Token.moved distance))).allowance
  right := .ofTokens (ts ++ us.map (Token.moved distance))
  lhs := spanlessFrom k
  rhs := spanless
  within p q := q = ts.length + p
  anywhere p q := q = ts.length + p
  sizes m n := n = m + k
  uneven := False
  anywhere_of_within := id
  allowance := .inl rfl
  index h := h.symm
  sizes_succ h := by omega
  span _ _ := rfl
  last := rfl
  whole := rfl
  skip lines {p q} h := by
    obtain rfl : q = ts.length + p := by
      cases lines <;> exact h
    rw [Input.skip_allowing, skip_after, tokens_after, Input.tokens_allowing]
    refine ⟨rfl, ?_⟩
    cases (Input.ofTokens us).tokens[(Input.ofTokens us).skip lines p]? with
    | none => exact .none
    | some t => exact .some (t.alike_moved distance k)
  step h _ _ _ _ := congrArg (· + 1) h
  newline h _ _ _ _ := congrArg (· + 1) h
  lines {p q} h := by
    subst h
    rw [Input.skipLines_allowing, skipLines_after, indentAt_after]
    refine ⟨rfl, ?_⟩
    change Option.Rel _ ((Input.ofTokens us).indentAt _) _
    cases (Input.ofTokens us).indentAt ((Input.ofTokens us).skipLines p) with
    | none => exact .none
    | some t => exact .some ⟨rfl, rfl⟩

namespace Grammar

open Whiley.Parser

theorem package_stay {input : Input} {s s' : Reading} (h : package.run input s = .ok [] s') :
    s' = s := by
  obtain ⟨o, u, haccept, h⟩ := bind_ok h
  cases o with
  | some t =>
    obtain ⟨first, v, -, h⟩ := bind_ok h
    obtain ⟨rest, v', -, h⟩ := bind_ok h
    obtain ⟨_, v'', -, h⟩ := bind_ok h
    exact absurd (pure_ok h).1 (List.cons_ne_nil _ _)
  | none =>
    obtain ⟨-, rfl⟩ := pure_ok h
    exact accept_none haccept

theorem declarations_of_skip {input : Input} {g : DeclParsers} {s t u : Reading} {ds : List Decl}
    (h : Repeats (nextDeclaration g) input s ds u)
    (hskip : input.skip true s.pos = input.skip true t.pos) (harena : s.arena = t.arena) :
    Repeats (nextDeclaration g) input t ds u := by
  cases h with
  | done h =>
    refine .done ?_
    rwa [nextDeclaration_none, ← hskip, ← harena, ← nextDeclaration_none]
  | next h rest =>
    refine .next ?_ rest
    rwa [nextDeclaration_some, ← hskip, ← harena, ← nextDeclaration_some]

theorem declarations_start {input : Input} {g : DeclParsers} {s u : Reading} {ds : List Decl}
    (h : Repeats (nextDeclaration g) input s ds u) {t : Token}
    (ht : input.tokens[input.skip true s.pos]? = some t) : t.kind ∈ starters := by
  cases h with
  | done h => exact absurd (ht.symm.trans (nextDeclaration_none.mp h).1) nofun
  | next h rest =>
    refine declaration_starts ?_ (nextDeclaration_some.mp h).2
    rw [Input.skip_skip, ht]

theorem declarations_patient {input : Input} {allowance depth depth' : Nat}
    (hallowance : input.allowance ≤ allowance) (hdepth : depth ≤ depth') {s s' : Reading}
    {ds : List Decl} (h : Repeats (nextDeclaration (ofDepth depth)) input s ds s')
    (hcalm : Calm (input.trail s.pos)) :
    (∃ u, Repeats (nextDeclaration (ofDepth depth')) (input.allowing allowance) s ds u) ∧
      Calm input.finalTrail := by
  let x := Extension.patient input hallowance
  obtain ⟨p, t, -, ⟨hpt, hp⟩, hnone, hmore⟩ :=
    declarations_lead (x := x) (ofDepth_following hdepth) h rfl ⟨rfl, hcalm⟩
  obtain rfl : p = t.pos := hpt
  have hdone : Repeats (nextDeclaration (ofDepth depth')) (input.allowing allowance) t []
      ⟨(input.allowing allowance).skip true t.pos, t.arena⟩ := by
    refine .done (nextDeclaration_none.mpr ⟨?_, rfl⟩)
    rw [Input.skip_allowing]
    exact hnone
  have hall := hmore [] _ hdone
  rw [List.append_nil] at hall
  have htrail : input.trail t.pos = input.finalTrail := Input.trail_of_end hnone
  exact ⟨⟨_, hall⟩, htrail ▸ hp⟩

end Grammar

theorem Abreast.skip_eq {ts us : List Token} {p q : Nat} (h : Abreast ts us p q)
    (hend : (Input.ofTokens ts).tokens[(Input.ofTokens ts).skip true p]? = none) :
    (Input.ofTokens (ts ++ us)).skip true ts.length = (Input.ofTokens (ts ++ us)).skip true q := by
  rcases h with ⟨rfl, hp⟩ | ⟨-, rfl⟩
  · have hskipped := (extends_append ts us).skipped ((Input.ofTokens ts).skipped_skip true p)
    rw [skip_end hp hend] at hskipped
    exact hskipped.skip_eq
  · exact (Input.pastLines_skipLines _ _).skipped.skip_eq.symm

section Parse

open Whiley.Parser Whiley.Grammar

variable {ts us : List Token} {m m' : Module} {arena arena' : Arena Node}

theorem depthFor_mono {n k : Nat} (h : n ≤ k) : depthFor n ≤ depthFor k :=
  Nat.mul_le_mul_left 16 (Nat.add_le_add_right h 2)

theorem calm_nil : Calm [] :=
  nofun

theorem parse_calm (h : parse ts = .ok (m, arena)) : Calm (Input.ofTokens ts).finalTrail := by
  obtain ⟨s, s', hpackage, hds, -⟩ := parse_ok h
  let x := Extension.patient (.ofTokens ts) (Nat.le_refl (Input.ofTokens ts).allowance)
  obtain ⟨_, -, -, hrest⟩ := (package_follows (x := x) calm_nil).of_value (t := ⟨0, .empty⟩) rfl
    ⟨rfl, trivial, rfl⟩ hpackage
  exact (declarations_patient (Nat.le_refl _) (Nat.le_refl _) hds hrest.2).2

theorem declarations_after (distance : Nat) (a : Arena Node) (h : parse us = .ok (m', arena'))
    (hpackage : m'.package = []) :
    ∃ es s, Repeats (nextDeclaration
        (ofDepth (depthFor (ts ++ us.map (Token.moved distance)).length)))
        (.ofTokens (ts ++ us.map (Token.moved distance))) ⟨ts.length, a⟩ es s ∧
      es.length ≤ us.length ∧
      es.map (·.relabel spanless) = m'.declarations.map (·.relabel (spanlessFrom a.size)) := by
  obtain ⟨s, s', hheader, hds, hlength, -⟩ := parse_ok h
  rw [hpackage] at hheader
  obtain rfl := package_stay hheader
  have hlonger : us.length ≤ (ts ++ us.map (Token.moved distance)).length := by simp
  obtain ⟨⟨u, hds⟩, -⟩ := declarations_patient (Nat.succ_le_succ hlonger) (depthFor_mono hlonger)
    hds calm_nil
  let σ := Simulation.after ts us distance a.size
  obtain ⟨es, t, hes, halike⟩ := declarations_match (σ := σ) id (ofDepth_agree (.inl rfl)) hds
    (t := ⟨ts.length, a⟩) rfl (Nat.zero_add _).symm
  have hmap : m'.declarations.map (·.relabel (spanlessFrom a.size)) =
      es.map (·.relabel spanless) := halike
  refine ⟨es, t, hes, ?_, hmap.symm⟩
  have hsame := congrArg List.length hmap
  rw [List.length_map, List.length_map] at hsame
  exact hsame ▸ hlength

theorem parse_lines_append (distance : Nat) (h : parse ts = .ok (m, arena))
    (h' : parse us = .ok (m', arena')) (hne : ts ≠ []) (hts : EndsLine ts)
    (hpackage : m'.package = []) (hflush : Flush us) :
    ∃ n arena'' rest, parse (ts ++ us.map (Token.moved distance)) = .ok (n, arena'') ∧
      n.package = m.package ∧ n.declarations = m.declarations ++ rest ∧
      rest.map (·.relabel spanless) =
        m'.declarations.map (·.relabel (spanlessFrom (arena.size - 1))) := by
  obtain ⟨s, s', hheader, hds, hlength, hsize⟩ := parse_ok h
  obtain ⟨es, u, hes, hlength', hmap⟩ := @declarations_after ts us m' arena' distance s'.arena h' hpackage
  have hstarts : ∀ t, (Input.ofTokens (ts ++ us.map (Token.moved distance))).tokens[
      (Input.ofTokens (ts ++ us.map (Token.moved distance))).skip true ts.length]? = some t →
      t.kind ∈ starters := fun t => declarations_start hes
  have hmargin : (Input.ofTokens (ts ++ us.map (Token.moved distance))).indentAt
      ((Input.ofTokens (ts ++ us.map (Token.moved distance))).skipLines ts.length) = none := by
    have hlines := @skipLines_after ts us distance 0
    rw [Nat.add_zero] at hlines
    rw [hlines, indentAt_after, hflush.indentAt_eq]
    rfl
  let x := Extension.continued ts (us.map (Token.moved distance)) hts (parse_calm h) hstarts hmargin
  -- first the header, then the declarations of the first stream, then those of the second
  obtain ⟨t, hheader', harena, hrest⟩ := (package_follows (x := x) calm_nil).of_value
    (t := ⟨0, .empty⟩) rfl ⟨rfl, List.length_pos_iff.mpr hne, rfl⟩ hheader
  have hdepth : depthFor ts.length ≤ depthFor (ts ++ us.map (Token.moved distance)).length :=
    depthFor_mono (by simp)
  obtain ⟨p, t', harena', ⟨habreast, -⟩, hend, hmore⟩ :=
    declarations_lead (x := x) (ofDepth_following hdepth) hds harena hrest
  have hall := hmore es u (declarations_of_skip hes (habreast.skip_eq hend) harena')
  have htotal : (m.declarations ++ es).length ≤ (ts ++ us.map (Token.moved distance)).length := by
    simp only [List.length_append, List.length_map]
    omega
  obtain ⟨n, arena'', hn, hnpackage, hndeclarations⟩ := parse_of_declarations hheader' hall htotal
  refine ⟨n, arena'', es, hn, hnpackage, hndeclarations, ?_⟩
  rw [hmap, hsize, Nat.add_sub_cancel]

theorem parse_nil (h : parse [] = .ok (m, arena)) :
    m.package = [] ∧ m.declarations = [] ∧ arena.size = 1 := by
  cases h
  exact ⟨rfl, rfl, rfl⟩

/--
Two programs one after the other, the first of whole lines, the second without a package and with its
first line at the margin. Together they are what they are alone, the nodes of the second numbered on.
-/
theorem parse_append {a b : String} {ts us : List Token} {m m' : Module} {arena arena' : Arena Node}
    (ha : lex a = .ok ts) (hb : lex b = .ok us) (hparse : parse ts = .ok (m, arena))
    (hparse' : parse us = .ok (m', arena'))
    (hlast : a = "" ∨ ∃ t, ts.getLast? = some t ∧ t.kind = .newline) (hpackage : m'.package = [])
    (hflush : Flush us) :
    ∃ vs n arena'' rest, lex (a ++ b) = .ok vs ∧ parse vs = .ok (n, arena'') ∧
      n.package = m.package ∧ n.declarations = m.declarations ++ rest ∧
      rest.map (·.relabel spanless) =
        m'.declarations.map (·.relabel (spanlessFrom (arena.size - 1))) := by
  by_cases hts : ts = []
  · subst hts
    obtain rfl : a = "" := hlast.resolve_right fun ⟨_, ht, _⟩ => by simp at ht
    obtain ⟨hnames, hnone, hsize⟩ := parse_nil hparse
    refine ⟨us, m', arena', m'.declarations, by rwa [String.empty_append], hparse', ?_, ?_, ?_⟩
    · rw [hpackage, hnames]
    · rw [hnone, List.nil_append]
    · rw [hsize]
      rfl
  · have hends : EndsLine ts := fun _ => hlast.resolve_left fun hempty => by
      subst hempty
      exact hts (Except.ok.inj ha).symm
    obtain ⟨n, arena'', rest, hn⟩ :=
      parse_lines_append a.length hparse hparse' hts hends hpackage hflush
    exact ⟨_, n, arena'', rest, lex_append ha hb hends, hn⟩

theorem exists_of_toOption {β : Type} {f : Module → β} {b : β}
    (h : (parse ts).toOption.map (f ·.1) = some b) :
    ∃ m arena, parse ts = .ok (m, arena) ∧ f m = b := by
  cases hparse : parse ts with
  | error e =>
    rw [hparse] at h
    cases h
  | ok x =>
    rw [hparse] at h
    exact ⟨x.1, x.2, rfl, Option.some.inj h⟩

end Parse

def clauseSource : String :=
  "package p\n\ntype pos is (int n)\nwhere n > 0\n"

def routineSource : String :=
  "\n// no clause\nfunction f(pos x) -> int:\n    return x\n"

theorem parse_append_clause :
    ∃ ts us m m' arena arena' vs n arena'' rest,
      lex clauseSource = .ok ts ∧ parse ts = .ok (m, arena) ∧ m.package = ["p"] ∧
      lex routineSource = .ok us ∧ parse us = .ok (m', arena') ∧ m'.declarations.length = 1 ∧
      lex (clauseSource ++ routineSource) = .ok vs ∧ parse vs = .ok (n, arena'') ∧
      n.package = m.package ∧ n.declarations = m.declarations ++ rest ∧
      rest.map (·.relabel spanless) =
        m'.declarations.map (·.relabel (spanlessFrom (arena.size - 1))) := by
  have ha : lex clauseSource = .ok ((lex clauseSource).toOption.getD []) := by decide +kernel
  have hb : lex routineSource = .ok ((lex routineSource).toOption.getD []) := by decide +kernel
  obtain ⟨m, arena, hparse, hnames⟩ := @exists_of_toOption
    ((lex clauseSource).toOption.getD []) _ Module.package ["p"] (by decide +kernel)
  obtain ⟨m', arena', hparse', hm'⟩ := @exists_of_toOption
    ((lex routineSource).toOption.getD []) _ (fun m => (m.package, m.declarations.length)) ([], 1)
    (by decide +kernel)
  obtain ⟨hpackage, hlength⟩ := Prod.mk.inj hm'
  obtain ⟨vs, n, arena'', rest, hlex, hn⟩ :=
    parse_append ha hb hparse hparse' (.inr (by decide +kernel)) hpackage (by decide +kernel)
  exact ⟨_, _, m, m', arena, arena', vs, n, arena'', rest, ha, hparse, hnames, hb, hparse', hlength,
    hlex, hn⟩

end Whiley
