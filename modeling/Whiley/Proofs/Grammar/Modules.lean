import Whiley.Proofs.Grammar.SequelDecls

namespace Whiley

namespace Parser

variable {α : Type} {input : Input} {s s' : Reading}

/-- The items of a repetition are read one after the other, up to where there is none. -/
inductive Repeats (next : Parser (Option α)) (input : Input) : Reading → List α → Reading → Prop
  | done {u v} (h : next.run input u = .ok none v) : Repeats next input u [] v
  | next {u v w a as} (h : next.run input u = .ok (some a) v) (rest : Repeats next input v as w) :
    Repeats next input u (a :: as) w

theorem iterate_rounds {next : Parser (Option α)} {step : List α → Parser (List α ⊕ List α)}
    (hstep : ∀ found s, (step found).run input s =
      match next.run input s with
      | .ok (some a) t => .ok (.inl (a :: found)) t
      | .ok none t => .ok (.inr found) t
      | .error f t => .error f t) {n : Nat} {found all : List α} :
    (iterate step n found).run input s = .ok all s' ↔
      ∃ as, Repeats next input s as s' ∧ as.length < n ∧ all = as.reverse ++ found := by
  induction n generalizing s found with
  | zero =>
    refine ⟨fun h => ?_, fun ⟨_, _, h, _⟩ => absurd h (Nat.not_lt_zero _)⟩
    cases h
  | succ n ih =>
    rw [iterate, run_bind, hstep]
    constructor
    · intro h
      cases hnext : next.run input s with
      | error f t =>
        rw [hnext] at h
        cases h
      | ok o t =>
        rw [hnext] at h
        cases o with
        | none =>
          obtain ⟨rfl, rfl⟩ := pure_ok h
          exact ⟨[], .done hnext, Nat.succ_pos n, rfl⟩
        | some a =>
          obtain ⟨as, has, hlength, rfl⟩ := ih.mp h
          exact ⟨a :: as, .next hnext has, Nat.succ_lt_succ hlength, by simp⟩
    · rintro ⟨as, has, hlength, rfl⟩
      cases has with
      | done hnext =>
        rw [hnext]
        rfl
      | next hnext hrest =>
        rw [hnext]
        exact ih.mpr ⟨_, hrest, Nat.lt_of_succ_lt_succ hlength, by simp⟩

theorem foldWhile_ok {next : Parser (Option α)} {found all : List α} :
    (foldWhile (fun found => do return (← next).map (· :: found)) found).run input s = .ok all s' ↔
      ∃ as, Repeats next input s as s' ∧ as.length < input.allowance ∧
        all = as.reverse ++ found := by
  rw [foldWhile, repeating, run_bind]
  refine iterate_rounds fun found s => ?_
  simp only [run_bind]
  cases next.run input s with
  | error f t => rfl
  | ok o t => cases o <;> rfl

theorem many_ok {next : Parser (Option α)} {as : List α} :
    (many next).run input s = .ok as s' ↔
      Repeats next input s as s' ∧ as.length < input.allowance := by
  constructor
  · intro h
    obtain ⟨all, t, hall, h⟩ := bind_ok h
    obtain ⟨rfl, rfl⟩ := pure_ok h
    obtain ⟨as, has, hlength, rfl⟩ := foldWhile_ok.mp hall
    exact ⟨by simpa using has, by simpa using hlength⟩
  · rintro ⟨has, hlength⟩
    rw [many, run_bind_ok (foldWhile_ok.mpr ⟨as, has, hlength, rfl⟩), run_pure]
    simp

theorem afterEach_nil {lines : Bool} {separator : Kind} {item : Parser α}
    (h : (afterEach lines separator item).run input s = .ok [] s') : s' = s := by
  obtain ⟨hrepeats, -⟩ := many_ok.mp h
  cases hrepeats with
  | done h =>
    obtain ⟨o, t, haccept, h⟩ := bind_ok h
    cases o with
    | none =>
      obtain ⟨-, rfl⟩ := pure_ok h
      exact accept_none haccept
    | some u =>
      obtain ⟨a, v, -, h⟩ := bind_ok h
      exact absurd (pure_ok h).1 nofun

end Parser

namespace Grammar

open Whiley.Parser

variable {input : Input} {g : DeclParsers} {s s' : Reading}

def nextDeclaration (g : DeclParsers) : Parser (Option Decl) := do
  if ← moreTokens then return some (← DeclParsers.declaration g) else return none

theorem run_moreTokens : moreTokens.run input s =
    .ok (input.tokens[input.skip true s.pos]?).isSome ⟨input.skip true s.pos, s.arena⟩ := by
  simp only [moreTokens, run_bind, tokens, position, moveTo, run_pure]
  cases ht : input.tokens[input.skip true s.pos]? with
  | none => simpa using ht
  | some t => simpa using (Array.getElem?_eq_some_iff.mp ht).1

theorem nextDeclaration_none :
    (nextDeclaration g).run input s = .ok none s' ↔
      input.tokens[input.skip true s.pos]? = none ∧ s' = ⟨input.skip true s.pos, s.arena⟩ := by
  rw [nextDeclaration, run_bind, run_moreTokens]
  cases input.tokens[input.skip true s.pos]? with
  | none => simp [run_pure, eq_comm]
  | some t =>
    simp only [Option.isSome_some, if_true, run_bind, reduceCtorEq, false_and, iff_false]
    cases (DeclParsers.declaration g).run input ⟨input.skip true s.pos, s.arena⟩ with
    | ok d t => simp [run_pure]
    | error f t => simp

theorem nextDeclaration_some {d : Decl} :
    (nextDeclaration g).run input s = .ok (some d) s' ↔
      (∃ t, input.tokens[input.skip true s.pos]? = some t) ∧
        (DeclParsers.declaration g).run input ⟨input.skip true s.pos, s.arena⟩ = .ok d s' := by
  rw [nextDeclaration, run_bind, run_moreTokens]
  cases input.tokens[input.skip true s.pos]? with
  | none => simp [run_pure]
  | some t =>
    simp only [Option.isSome_some, if_true, run_bind]
    cases (DeclParsers.declaration g).run input ⟨input.skip true s.pos, s.arena⟩ with
    | ok d t => simp [run_pure]
    | error f t => simp

theorem declarations_lead {x : Extension} {g g' : DeclParsers} (hg : StmtParsers.Following x g g')
    {s s' t : Reading} {ds : List Decl} (h : Repeats (nextDeclaration g) x.left s ds s')
    (harena : s.arena = t.arena) (hpos : x.Rest s.pos t.pos) :
    ∃ p t', s'.arena = t'.arena ∧ x.Rest p t'.pos ∧ x.left.tokens[x.left.skip true p]? = none ∧
      ∀ es u, Repeats (nextDeclaration g') x.right t' es u →
        Repeats (nextDeclaration g') x.right t (ds ++ es) u := by
  induction h generalizing t with
  | @done s s' h =>
    obtain ⟨hnone, rfl⟩ := nextDeclaration_none.mp h
    exact ⟨s.pos, t, harena, hpos, hnone, fun _ _ => id⟩
  | @next s s₁ s' d ds h _ ih =>
    obtain ⟨⟨u, hu⟩, hread⟩ := nextDeclaration_some.mp h
    obtain ⟨hskip, hright, hinside⟩ := x.meets_even hpos.1 hu
    have hrest : x.Rest (x.left.skip true s.pos) (x.left.skip true s.pos) := by
      refine ⟨x.even_of_line (x.line_of_inside hinside), ?_⟩
      rw [Input.trail_skip]
      exact hpos.2
    obtain ⟨t₁, hread', harena', hend⟩ := (DeclParsers.declaration_follows hg).of_value
      (s := ⟨x.left.skip true s.pos, s.arena⟩) (t := ⟨x.left.skip true s.pos, t.arena⟩)
      harena hrest hread
    obtain ⟨p, t', hafter, hpos', hnone, hmore⟩ := ih harena' hend
    refine ⟨p, t', hafter, hpos', hnone, fun es v hes => .next ?_ (hmore es v hes)⟩
    exact nextDeclaration_some.mpr ⟨⟨u, hskip ▸ hright⟩, hskip ▸ hread'⟩

theorem declarations_match {σ : Simulation} (hσ : ¬ σ.uneven) {g g' : DeclParsers}
    (hg : StmtParsers.Agree σ g g') {s s' t : Reading} {ds : List Decl}
    (h : Repeats (nextDeclaration g) σ.left s ds s') (hpos : σ.anywhere s.pos t.pos)
    (hsizes : σ.sizes s.arena.size t.arena.size) :
    ∃ es t', Repeats (nextDeclaration g') σ.right t es t' ∧ σ.Alike ds es := by
  have hnext : Matches σ .anywhere .anywhere (nextDeclaration g) (nextDeclaration g')
      (Option.Rel σ.Alike) := by
    refine moreTokens_matches.bind fun more _ h => ?_
    obtain rfl := h
    split
    · exact (DeclParsers.declaration_matches hg).bind fun d d' hd => .pure (.some hd)
    · exact .pure .none
  induction h generalizing t with
  | done h =>
    have hrun := hnext _ t hpos hsizes
    rw [h] at hrun
    generalize hright : (nextDeclaration g').run σ.right t = r at hrun
    cases hrun with
    | ok value =>
      cases value with
      | none => exact ⟨[], _, .done hright, rfl⟩
    | right h => exact absurd h hσ
  | next h _ ih =>
    have hrun := hnext _ t hpos hsizes
    rw [h] at hrun
    generalize hright : (nextDeclaration g').run σ.right t = r at hrun
    cases hrun with
    | ok value pos sizes =>
      cases value with
      | some hd =>
        obtain ⟨es, t', hes, halike⟩ := ih pos sizes
        exact ⟨_ :: es, t', .next hright hes, congrArg₂ List.cons hd halike⟩
    | right h => exact absurd h hσ

theorem modifiers_stay {t : Token} {ms : List String}
    (ht : input.tokens[input.skip true s.pos]? = some t)
    (hk : t.kind ∉ [Kind.kwPublic, .kwPrivate, .kwNative, .kwExport])
    (h : DeclParsers.modifiers.run input s = .ok ms s') : s' = s := by
  obtain ⟨y, u, hfold, h⟩ := bind_ok h
  obtain ⟨-, rfl⟩ := pure_ok h
  rw [foldWhile, repeating, run_bind] at hfold
  have haccept : (accept true [.kwPublic, .kwPrivate, .kwNative, .kwExport]).run input s =
      .ok none s := by
    rw [run_accept, ht]
    exact if_neg hk
  cases hallowance : input.allowance with
  | zero =>
    simp only [Parser.tokens, hallowance, iterate] at hfold
    cases hfold
  | succ n =>
    simp only [Parser.tokens, hallowance, iterate, run_bind, haccept, run_pure] at hfold
    exact (Result.ok.inj hfold).2.symm

theorem declaration_starts {d : Decl} {t : Token}
    (ht : input.tokens[input.skip true s.pos]? = some t)
    (h : (DeclParsers.declaration g).run input s = .ok d s') : t.kind ∈ starters := by
  have hcurrent : ∀ arena, current.run input ⟨input.skip true s.pos, arena⟩ =
      .ok t ⟨input.skip true s.pos, arena⟩ := by
    intro arena
    simp only [run_current, Input.skip_skip, ht]
  by_contra hk
  have hsettle : settle.run input s = .ok (input.skip true s.pos) ⟨input.skip true s.pos, s.arena⟩ := by
    simp only [settle, run_bind, run_current, ht, position]
  rw [DeclParsers.declaration, run_bind_ok hsettle, run_bind_ok (hcurrent _)] at h
  have hne : ∀ k ∈ starters, t.kind ≠ k := fun k hmem heq => hk (heq ▸ hmem)
  have hmodifiers : [Kind.kwPublic, .kwPrivate, .kwNative, .kwExport] ⊆ starters := by decide
  rw [if_neg (hne .kwImport (by decide))] at h
  obtain ⟨ms, u, hms, h⟩ := bind_ok h
  have hstay : u = ⟨input.skip true s.pos, s.arena⟩ := by
    refine modifiers_stay (t := t) ?_ (fun hmodifier => hk (hmodifiers hmodifier)) hms
    rw [Input.skip_skip, ht]
  subst hstay
  rw [run_bind_ok (hcurrent _), if_neg fun h => hne .identifier (by decide) h.1,
    if_neg fun h => hne .identifier (by decide) h.1, if_neg (hne .kwFunction (by decide)),
    if_neg (hne .kwMethod (by decide)), if_neg (hne .kwProperty (by decide))] at h
  cases h

end Grammar

open Whiley.Parser Whiley.Grammar

variable {tokens : List Token} {m : Module} {arena : Arena Node}

theorem parse_ok (h : parse tokens = .ok (m, arena)) :
    ∃ s s', package.run (.ofTokens tokens) ⟨0, .empty⟩ = .ok m.package s ∧
      Repeats (nextDeclaration (ofDepth (depthFor tokens.length))) (.ofTokens tokens) s
        m.declarations s' ∧
      m.declarations.length ≤ tokens.length ∧ arena.size = s'.arena.size + 1 := by
  rw [parse, parseInto] at h
  cases hrun : (Grammar.module (ofDepth (depthFor tokens.length))).run (.ofTokens tokens)
    ⟨0, .empty⟩ with
  | error f s =>
    rw [hrun] at h
    cases h
  | ok m' s₂ =>
    rw [hrun] at h
    obtain ⟨rfl, rfl⟩ := Prod.mk.inj (Except.ok.inj h)
    obtain ⟨names, s, hpackage, hrun⟩ := bind_ok hrun
    obtain ⟨ds, s', hds, hrun⟩ := bind_ok hrun
    obtain ⟨hds, hlength⟩ := many_ok.mp hds
    obtain ⟨rfl, rfl⟩ := Result.ok.inj hrun
    exact ⟨s, s', hpackage, hds, Nat.le_of_lt_succ hlength, Arena.size_allocate _ _⟩

theorem parse_of_declarations {names : List String} {ds : List Decl} {s s' : Reading}
    (hpackage : package.run (.ofTokens tokens) ⟨0, .empty⟩ = .ok names s)
    (hds : Repeats (nextDeclaration (ofDepth (depthFor tokens.length))) (.ofTokens tokens) s ds s')
    (hlength : ds.length ≤ tokens.length) :
    ∃ m arena, parse tokens = .ok (m, arena) ∧ m.package = names ∧ m.declarations = ds := by
  have hmany := many_ok.mpr ⟨hds, Nat.lt_succ_of_le hlength⟩
  have hrun : (Grammar.module (ofDepth (depthFor tokens.length))).run (.ofTokens tokens)
      ⟨0, .empty⟩ = (allocate ⟨0, (Input.ofTokens tokens).lastSpan.stop⟩
        (Module.mk · names ds)).run (.ofTokens tokens) s' := by
    rw [Grammar.module, run_bind_ok hpackage]
    exact run_bind_ok hmany
  rw [parse, parseInto, hrun]
  exact ⟨_, _, rfl, rfl, rfl⟩

end Whiley
