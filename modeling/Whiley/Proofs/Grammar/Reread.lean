import Whiley.Proofs.Grammar.AlikeDecls
import Whiley.Proofs.Grammar.Inversion
import Whiley.Proofs.Grammar.Lockstep
import Whiley.Proofs.Tree.Identity

/-!
What the arena holds before a run decides the indices of new nodes and nothing else. So whatever is
read twice from one place is read alike, and the two passes over the first element of an array come
to one semicolon.
-/

namespace Whiley

namespace Relabelling

/-- Moves every index up by `k`. -/
def shift (k : Nat) : Relabelling :=
  { identity with index := (· + k) }

/-- Forgets the indices, and nothing else. -/
def unindexed : Relabelling :=
  { identity with index := fun _ => 0 }

end Relabelling

open Relabelling

namespace Simulation

/--
One stream read twice from the same places, into arenas whose sizes keep their distance: what comes
to lie after `i` nodes on the left lies after `j` nodes on the right.
-/
def rereading (input : Input) (i j : Nat) (f g : Relabelling) (hspan : f.span = g.span)
    (htext : f.text = g.text) (hindex : ∀ m n, m + j = n + i → f.index m = g.index n) :
    Simulation :=
  .lockstep input id f g (fun m n => m + j = n + i) (fun _ => rfl) (fun _ => rfl) hspan
    (fun t _ => ⟨rfl, congrFun hspan t.span, fun _ _ => rfl, fun _ => congrFun htext t.text⟩) hindex
    fun m n h => by omega

end Simulation

namespace Parser

variable {α : Type}

/-- What a run shows: the value and where the cursor stands, or the failure. -/
def Result.seen [Relabel α] (f : Relabelling) : Result α → Except Failure (α × Nat)
  | .ok a s => .ok (relabel f a, s.pos)
  | .error e _ => .error (e.relabel f)

def Result.value? : Result α → Option α
  | .ok a _ => some a
  | .error _ _ => none

/-- Whatever the two arenas hold, the runs from one place show the same and store as much. -/
def Rereads [Relabel α] (p : Parser α) : Prop :=
  ∀ input pos a b,
    (p.run input ⟨pos, a⟩).seen unindexed = (p.run input ⟨pos, b⟩).seen unindexed ∧
      (p.run input ⟨pos, a⟩).reading.arena.size + b.size =
        (p.run input ⟨pos, b⟩).reading.arena.size + a.size

section Seen

variable [Relabel α] {input : Input} {i j : Nat} {f g : Relabelling} {hspan : f.span = g.span}
  {htext : f.text = g.text} {hindex : ∀ m n, m + j = n + i → f.index m = g.index n} {Q : Spot}
  {x y : Result α}

theorem Outcome.seen_eq {σ : Simulation} (hσ : σ = .rereading input i j f g hspan htext hindex)
    (h : Outcome σ Q σ.Alike x y) :
    x.seen f = y.seen g ∧ x.reading.arena.size + j = y.reading.arena.size + i := by
  subst hσ
  cases h with
  | ok value pos sizes =>
    refine ⟨congrArg Except.ok (congrArg₂ Prod.mk value ?_), sizes⟩
    cases Q <;> exact pos
  | error failure sizes => exact ⟨congrArg Except.error failure, sizes⟩
  | left h => exact h.elim
  | right h => exact h.elim

end Seen

theorem Rereads.of_matches [Relabel α] {p : Parser α} {P Q : Spot}
    (h : ∀ σ : Simulation, σ.lhs = σ.rhs → Matches σ P Q p p σ.Alike) : p.Rereads := by
  intro input pos a b
  let σ : Simulation :=
    .rereading input a.size b.size unindexed unindexed rfl rfl fun _ _ _ => rfl
  have hpos : σ.At P pos pos := by
    cases P <;> exact rfl
  have hruns := (h σ rfl ⟨pos, a⟩ ⟨pos, b⟩ hpos (Nat.add_comm _ _)).seen_eq rfl
  have hright : σ.right = input := Input.map_id
  rwa [hright] at hruns

/-- What is read from the next token on is read from before it too. -/
def Settles (p : Parser α) : Prop :=
  ∀ input s a s', p.run input { s with pos := input.skip true s.pos } = .ok a s' →
    p.run input s = .ok a s'

theorem settle_settles (f : Nat → Parser α) : (settle >>= f).Settles := by
  intro input s a s' h
  simp only [run_bind, settle, run_current, Input.skip_skip] at h ⊢
  exact h

theorem Rereads.ok [Relabel α] {p : Parser α} (hp : p.Rereads) {input : Input} {s s' : Reading}
    {x : α} (h : p.run input s = .ok x s') (arena : Arena Node) :
    ∃ y after, p.run input ⟨s.pos, arena⟩ = .ok y ⟨s'.pos, after⟩ ∧
      relabel unindexed y = relabel unindexed x := by
  have hseen := (hp input s.pos arena s.arena).1
  rw [h] at hseen
  cases hy : p.run input ⟨s.pos, arena⟩ with
  | ok y t =>
    rw [hy] at hseen
    obtain ⟨hvalue, hpos⟩ := Prod.mk.inj (Except.ok.inj hseen)
    exact ⟨y, t.arena, by rw [← hpos], hvalue⟩
  | error e t =>
    rw [hy] at hseen
    cases hseen

end Parser

namespace Grammar

open Whiley.Parser

/-- Every rule that is read twice somewhere, at its place in the grammar. -/
structure StmtParsers.Rereads (g : StmtParsers) : Prop where
  name : qualifiedName.Rereads
  type : ∀ scope, (g.exprs.types.type scope).Rereads
  array : ∀ scope, (g.exprs.types.array scope).Rereads
  level : ∀ l scope lines, (g.exprs.level l scope lines).Rereads
  target : ∀ scope, (g.target scope).Rereads
  block : ∀ scope inLoop, (g.block scope inLoop).Rereads
  statement : ∀ scope, (g.statement scope).Rereads
  declaration : (DeclParsers.declaration g).Rereads

theorem ofDepth_rereads (depth : Nat) : (ofDepth depth).Rereads := by
  have hagree : ∀ σ : Simulation, StmtParsers.Agree σ (ofDepth depth) (ofDepth depth) :=
    fun σ => ofDepth_agree (.inl rfl)
  have hscope : ∀ (σ : Simulation) (scope : Scope), σ.lhs = σ.rhs → σ.Alike scope scope :=
    fun σ scope h => congrArg (relabel · scope) h
  constructor
  · exact .of_matches fun σ _ => qualifiedName_matches (P := .within)
  · exact fun scope => .of_matches fun σ h =>
      (hagree σ).exprs.types.type scope scope (hscope σ scope h)
  · exact fun scope => .of_matches fun σ h =>
      (hagree σ).exprs.types.array scope scope (hscope σ scope h)
  · exact fun l scope lines => .of_matches fun σ h =>
      (hagree σ).exprs.level l scope scope lines (hscope σ scope h)
  · exact fun scope => .of_matches fun σ h =>
      (hagree σ).target scope scope (hscope σ scope h)
  · exact fun scope inLoop => .of_matches fun σ h =>
      (hagree σ).block scope scope inLoop (hscope σ scope h)
  · exact fun scope => .of_matches (P := .anywhere) fun σ h =>
      StmtParsers.statement_matches (hagree σ) (hscope σ scope h)
  · exact .of_matches (P := .anywhere) fun σ _ => DeclParsers.declaration_matches (hagree σ)

namespace ExprParsers

/-- The first pass over an array: its first element, and the semicolon if one follows. -/
def firstPass (g : ExprParsers) (scope : Scope) : Parser (Option (Expr × Option Token)) := do
  let _ ← expect .lbracket
  match ← acceptNext .rbracket with
  | some _ => return none
  | none =>
    let first ← g.expression scope true
    return some (first, ← accept true [.semicolon])

/-- The second pass over an array with a semicolon, up to the semicolon. -/
def secondPass (g : ExprParsers) (scope : Scope) : Parser (Expr × Token) := do
  let _ ← expect .lbracket
  let first ← g.expression scope true
  return (first, ← expect .semicolon)

/-- What follows the semicolon. -/
def arrayLengthPart (g : ExprParsers) (scope : Scope) (start : Nat) (first : Expr) :
    Parser Expr := do
  let length ← g.expression scope true
  let _ ← expect .rbracket
  make start (.arrayGenerator · first length)

theorem expression_settles (types : TypeParsers) (depth : Nat) (scope : Scope) (lines : Bool) :
    ((ofDepth types depth).expression scope lines).Settles := by
  cases depth with
  | zero => exact fun _ _ _ _ h => absurd h nofun
  | succ depth => exact settle_settles _

section Passes

variable {g : ExprParsers} {scope : Scope} {input : Input} {s s' : Reading} {first : Expr}
  {semicolon : Token}

theorem secondPass_ok (hreads : (g.expression scope true).Rereads)
    (hsettles : (g.expression scope true).Settles)
    (h : (g.firstPass scope).run input s = .ok (some (first, some semicolon)) s')
    (arena : Arena Node) :
    ∃ again after, again.relabel unindexed = first.relabel unindexed ∧
      (g.secondPass scope).run input ⟨s.pos, arena⟩ = .ok (again, semicolon) ⟨s'.pos, after⟩ := by
  obtain ⟨opening, t, hopening, h⟩ := bind_ok h
  obtain ⟨htoken, hkind, rfl⟩ := expect_ok.mp hopening
  obtain ⟨none | _, t', hnext, h⟩ := bind_ok h
  · obtain rfl := acceptNext_none hnext
    obtain ⟨e, middle, hfirst, h⟩ := bind_ok h
    obtain ⟨o, t, haccept, h⟩ := bind_ok h
    obtain ⟨hvalue, rfl⟩ := pure_ok h
    obtain ⟨rfl, rfl⟩ := Prod.mk.inj (Option.some.inj hvalue)
    obtain ⟨hfound, hmem, rfl⟩ := accept_some haccept
    -- the first pass began at the first token of the element, the second begins before it
    obtain ⟨again, after, hagain, halike⟩ := hreads.ok (hsettles _ _ _ _ hfirst) arena
    refine ⟨again, after, halike, ?_⟩
    have hopens : (expect .lbracket).run input ⟨s.pos, arena⟩ =
        .ok opening ⟨input.skip true s.pos + 1, arena⟩ := expect_ok.mpr ⟨htoken, hkind, rfl⟩
    have hcloses : (expect .semicolon).run input ⟨middle.pos, after⟩ =
        .ok semicolon ⟨input.skip true middle.pos + 1, after⟩ :=
      expect_ok.mpr ⟨hfound, List.mem_singleton.mp hmem, rfl⟩
    rw [secondPass, run_bind_ok hopens, run_bind_ok hagain, run_bind_ok hcloses]
    rfl
  · obtain ⟨hvalue, -⟩ := pure_ok h
    cases hvalue

theorem array_of_firstPass
    (h : (g.firstPass scope).run input s = .ok (some (first, some semicolon)) s') :
    (g.array scope).run input s =
      (g.secondPass scope >>= fun x => g.arrayLengthPart scope s.pos x.1).run input
        ⟨s.pos, s'.arena⟩ := by
  obtain ⟨opening, t, hopening, h⟩ := bind_ok h
  obtain ⟨none | _, t', hnext, h⟩ := bind_ok h
  · obtain ⟨e, middle, hfirst, h⟩ := bind_ok h
    obtain ⟨o, t, haccept, h⟩ := bind_ok h
    obtain ⟨hvalue, rfl⟩ := pure_ok h
    obtain ⟨rfl, rfl⟩ := Prod.mk.inj (Option.some.inj hvalue)
    have hstart : position.run input s = .ok s.pos s := rfl
    have hback : (moveTo s.pos).run input t = .ok () ⟨s.pos, t.arena⟩ := rfl
    rw [array, run_bind_ok hstart, run_bind_ok hopening, run_bind_ok hnext, run_bind_ok hfirst,
      run_bind_ok haccept, run_bind_ok hback, secondPass, bind_assoc]
    simp only [bind_assoc]
    rfl
  · obtain ⟨hvalue, -⟩ := pure_ok h
    cases hvalue

end Passes

end ExprParsers

end Grammar

/-- The run over a whole stream, from its beginning. -/
def readModule (arena : Arena Node) (tokens : List Token) : Parser.Result Module :=
  (Grammar.module (Grammar.ofDepth (Grammar.depthFor tokens.length))).run (.ofTokens tokens)
    ⟨0, arena⟩

theorem fst_parseInto {f : Relabelling} (hspan : f.span = id) (arena : Arena Node)
    (tokens : List Token) :
    (parseInto arena tokens).map (fun x => x.1.relabel f) =
      ((readModule arena tokens).seen f).map Prod.fst := by
  rw [parseInto, readModule]
  generalize (Grammar.module _).run _ _ = x
  cases x with
  | ok m s => rfl
  | error e s => exact congrArg Except.error (Failure.relabel_eq hspan e).symm

theorem readModule_shift (before : Arena Node) (tokens : List Token) :
    (readModule .empty tokens).seen (shift before.size) =
        (readModule before tokens).seen identity ∧
      (readModule .empty tokens).reading.arena.size + before.size =
        (readModule before tokens).reading.arena.size := by
  let σ : Simulation := .rereading (.ofTokens tokens) 0 before.size (shift before.size) identity rfl
    rfl fun _ _ h => h
  have hgrammar := Grammar.ofDepth_agree (σ := σ) (d := Grammar.depthFor tokens.length) (.inl rfl)
  have hmodule := Grammar.module_matches hgrammar ⟨0, .empty⟩ ⟨0, before⟩ rfl (Nat.zero_add _)
  have hruns := hmodule.seen_eq rfl
  have hright : σ.right = .ofTokens tokens := Input.map_id
  rwa [hright] at hruns

/--
Parsing after other nodes shifts the indices and changes nothing else; so what is read twice is read
alike, and the second pass over an array meets the semicolon that the first one found.
-/
theorem parseInto_frame (tokens : List Token) (before : Arena Node) :
    (parseInto before tokens).map Prod.fst =
        (parse tokens).map (fun x => x.1.relabel (shift before.size)) ∧
      before ≤ (readModule before tokens).reading.arena ∧
      (readModule before tokens).reading.arena.size =
        (readModule .empty tokens).reading.arena.size + before.size ∧
      ∀ depth, (Grammar.ofDepth depth).Rereads ∧
        ∀ scope input s s' first semicolon,
          ((Grammar.ofDepth depth).exprs.firstPass scope).run input s =
              .ok (some (first, some semicolon)) s' →
            ∃ again after, again.relabel unindexed = first.relabel unindexed ∧
              ((Grammar.ofDepth depth).exprs.secondPass scope).run input ⟨s.pos, s'.arena⟩ =
                .ok (again, semicolon) ⟨s'.pos, after⟩ ∧
              ((Grammar.ofDepth depth).exprs.array scope).run input s =
                ((Grammar.ofDepth depth).exprs.arrayLengthPart scope s.pos again).run input
                  ⟨s'.pos, after⟩ := by
  obtain ⟨hseen, hsize⟩ := readModule_shift before tokens
  have hgrows := (Grammar.module (Grammar.ofDepth (Grammar.depthFor tokens.length))).grows
    (.ofTokens tokens) ⟨0, before⟩
  refine ⟨?_, hgrows, hsize.symm, fun depth => ⟨Grammar.ofDepth_rereads depth, ?_⟩⟩
  · have hidentity : (parseInto before tokens).map Prod.fst =
        (parseInto before tokens).map fun x => x.1.relabel identity := by simp
    rw [hidentity, fst_parseInto rfl, ← hseen, ← fst_parseInto rfl]
    rfl
  · intro scope input s s' first semicolon h
    have hreads := (Grammar.ofDepth_rereads depth).level .logical scope true
    have hsettles := Grammar.ExprParsers.expression_settles (Grammar.TypeParsers.ofDepth depth) depth
      scope true
    obtain ⟨again, after, halike, hsecond⟩ :=
      Grammar.ExprParsers.secondPass_ok hreads hsettles h s'.arena
    refine ⟨again, after, halike, hsecond, ?_⟩
    rw [Grammar.ExprParsers.array_of_firstPass h, Parser.run_bind_ok hsecond]

/-- The tokens of an array that gives its length. -/
def repeatedOnes : List Token :=
  (lex "[1; 2]").toOption.getD []

theorem parseInto_frame_repeated :
    ∃ s' first semicolon again after,
      ((Grammar.ofDepth 16).exprs.firstPass .root).run (.ofTokens repeatedOnes) ⟨0, .empty⟩ =
          .ok (some (first, some semicolon)) s' ∧
        again.relabel unindexed = first.relabel unindexed ∧
        ((Grammar.ofDepth 16).exprs.array .root).run (.ofTokens repeatedOnes) ⟨0, .empty⟩ =
          ((Grammar.ofDepth 16).exprs.arrayLengthPart .root 0 again).run (.ofTokens repeatedOnes)
            ⟨s'.pos, after⟩ := by
  have hfound : ((((Grammar.ofDepth 16).exprs.firstPass .root).run (.ofTokens repeatedOnes)
      ⟨0, .empty⟩).value?.any fun x => x.any (·.2.isSome)) = true := by decide +kernel
  cases hfirst : ((Grammar.ofDepth 16).exprs.firstPass .root).run (.ofTokens repeatedOnes)
      ⟨0, .empty⟩ with
  | error e s' =>
    rw [hfirst] at hfound
    cases hfound
  | ok x s' =>
    rw [hfirst] at hfound
    cases x with
    | none => cases hfound
    | some x =>
      obtain ⟨first, o⟩ := x
      obtain ⟨semicolon, rfl⟩ := Option.isSome_iff_exists.mp hfound
      obtain ⟨-, -, -, hreads⟩ := parseInto_frame repeatedOnes .empty
      obtain ⟨again, after, halike, -, harray⟩ := (hreads 16).2 _ _ _ _ _ _ hfirst
      exact ⟨s', first, semicolon, again, after, rfl, halike, harray⟩

end Whiley
