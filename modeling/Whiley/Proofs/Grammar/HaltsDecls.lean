import Whiley.Grammar.Decls
import Whiley.Proofs.Grammar.HaltsStmts

namespace Whiley.Grammar

open Whiley.Parser

variable {r : Anchored} {i start : Nat} {s : Scope}

namespace DeclParsers

theorem component_moves : Moves r i component :=
  .accepting (by decide) (fun _ _ ht _ => fun _ => ht.past) fun _ => identifier_moves

theorem imports_moves : Moves r i imports := by
  refine .here (expect_moves.bind fun _ j hj => identifier_moves.bind fun first k hk => ?_)
  refine (afterEach_halts (by decide) fun _ _ => component_moves).bind fun rest l hl => ?_
  exact .making fun _ => endLine_halts.bind fun _ m hm => .pure (by omega)

theorem modifiers_halts : Halts r i modifiers fun j _ => i ≤ j := by
  refine (Halts.foldUntil (I := (i ≤ ·)) (Q := (i ≤ ·)) (Nat.le_refl i) fun x j hj => ?_).bind
    fun x j hj => .pure hj
  refine .accepting (by decide) (fun t k ht _ => ?_) fun _ => .pure hj
  have hpast := ht.past
  dsimp only
  split
  · exact .reject
  · exact .pure ⟨hpast, by omega⟩

section Types

variable {types : TypeParsers} (ht : types.Halting r)

include ht

theorem result_halts : Halts r i (result types s) fun j _ => i ≤ j := by
  have hrest : ∀ {j} (x : TypeExpr × Identifier), i ≤ j → Halts r j (do
      let v ← make i (Variable.mk · x.2 x.1)
      return (v, ← ofExcept (s.declareVariable v))) fun k _ => i ≤ k :=
    fun _ hj => .making fun _ => .checking fun _ => .pure hj
  refine .here (.accepting (by decide) (fun t j hu _ => ?_) fun _ => ?_)
  · have hpast := hu.past
    refine (TypeParsers.named_moves ht.past hpast).bind fun named k hk => expect_moves.bind
      fun _ l hl => hrest named (by omega)
  · exact ht.type.bind fun type k hk => .allocating fun name => hrest (type, name) (by omega)

theorem results_halts : Halts r i (results types s) fun j _ => i ≤ j := by
  refine .accepting (by decide) (fun t j hu _ => .looking fun b => ?_) fun _ => .pure (Nat.le_refl i)
  have hpast := hu.past
  split
  · exact (parameters_closes ht (by decide)).imp fun _ k hk => by omega
  · exact (result_halts ht).bind fun x k hk => .pure (by omega)

end Types

structure Halting (r : Anchored) (g : DeclParsers) : Prop where
  exprs : g.exprs.Halting r
  block : ∀ {i s inLoop}, Halts r i (g.block s inLoop) fun j _ => i ≤ j

section Rules

variable {g : DeclParsers} (hg : g.Halting r) {modifiers : List String}

include hg

theorem typeDecl_moves : Moves r i (typeDecl g start modifiers) := by
  refine advance_halts.bind fun _ j ht => ?_
  have hpast := ht.past
  refine identifier_moves.bind fun name k hk => expect_moves.bind fun _ l hl => ?_
  refine (result_halts hg.exprs.types).bind fun x m hm => ?_
  refine (clauses_halts hg.exprs (by decide)).bind fun invariant n hn => .making fun _ => ?_
  exact endLine_halts.bind fun _ p hp => .pure (by omega)

theorem constant_moves : Moves r i (constant g start modifiers) := by
  refine advance_halts.bind fun _ j ht => ?_
  have hpast := ht.past
  refine identifier_moves.bind fun name k hk => expect_moves.bind fun _ l hl => ?_
  refine hg.exprs.moves.bind fun value m hm => .making fun _ => ?_
  exact endLine_halts.bind fun _ n hn => .pure (by omega)

theorem routine_moves : Moves r i (routine g modifiers s) := by
  refine identifier_moves.bind fun name j hj => ?_
  refine (parameters_closes hg.exprs.types (by decide)).bind fun x k hk => ?_
  refine (results_halts hg.exprs.types).bind fun y l hl => ?_
  refine (clauses_halts hg.exprs (by decide)).bind fun requires m hm => ?_
  refine (clauses_halts hg.exprs (by decide)).bind fun ensures n hn => ?_
  refine StmtParsers.headerEnd_moves.bind fun _ p hp => hg.block.bind fun body q hq => .pure ?_
  omega

theorem function_moves : Moves r i (function g start modifiers) := by
  refine advance_halts.bind fun _ j ht => (routine_moves hg).bind fun x k hk => .make fun _ => ?_
  have hpast := ht.past
  omega

theorem method_moves : Moves r i (method g start modifiers) := by
  refine advance_halts.bind fun _ j ht => optionalLifetimeParameters_halts.bind fun x k hk => ?_
  have hpast := ht.past
  exact (routine_moves hg).bind fun y l hl => .make fun _ => by omega

theorem property_moves : Moves r i (property g start modifiers) := by
  refine advance_halts.bind fun _ j ht => identifier_moves.bind fun name k hk => ?_
  have hpast := ht.past
  refine (parameters_closes hg.exprs.types (by decide)).bind fun x l hl => ?_
  refine (clauses_halts hg.exprs (by decide)).bind fun invariant m hm => .making fun _ => ?_
  exact endLine_halts.bind fun _ n hn => .pure (by omega)

theorem declaration_moves : Moves r i (declaration g) := by
  refine .settled fun start hstart hsize => .showing fun t ht => ?_
  have hle := r.input.le_skip true i
  have hle' := r.input.le_skip true start
  split
  · exact imports_moves.imp fun _ j hj => by omega
  · refine modifiers_halts.bind fun found j hj => .showing fun u hu => ?_
    have hle'' := r.input.le_skip true j
    have hlater : ∀ {p : Parser Decl}, Moves r (r.input.skip true j) p →
        Halts r (r.input.skip true j) p fun k _ => r.input.Past i k :=
      fun hp => hp.imp fun _ k hk => by omega
    split
    · exact hlater (typeDecl_moves hg)
    · split
      · exact hlater (constant_moves hg)
      · split
        · exact hlater (function_moves hg)
        · split
          · exact hlater (method_moves hg)
          · split
            · exact hlater (property_moves hg)
            · exact .reject

end Rules

end DeclParsers

theorem package_halts : Halts r i package fun j _ => i ≤ j := by
  have hcomponent : ∀ {j}, Moves r j packageComponent :=
    expect_moves.bind fun _ _ hk => .pure hk
  refine .accepting (by decide) (fun t j ht _ => ?_) fun _ => .pure (Nat.le_refl i)
  have hpast := ht.past
  refine hcomponent.bind fun first k hk => ?_
  refine (afterEach_halts (by decide) fun _ _ => hcomponent).bind fun rest l hl => ?_
  exact endLine_halts.bind fun _ m hm => .pure (by omega)

theorem module_halts {g : DeclParsers} (hg : g.Halting r) : Halts r i (module g) fun j _ => i ≤ j := by
  refine package_halts.bind fun package j hj => ?_
  refine (Halts.manyUntil (I := (j ≤ ·)) (Q := (j ≤ ·)) (Nat.le_refl j) fun k hk => ?_).bind
    fun declarations k hk => .given fun _ => Nat.le_trans hj hk
  have hmore : Halts r k moreTokens fun l more => k ≤ l ∧ (more = true → l < r.input.tokens.size) :=
    fun _ => ⟨r.input.le_skip true k, of_decide_eq_true⟩
  refine hmore.bind fun more l hl => ?_
  split
  · rename_i htrue
    have hsize := hl.2 htrue
    refine (DeclParsers.declaration_moves hg).bind fun d m hm => .pure ?_
    exact ⟨by omega, by omega⟩
  · exact .pure (Nat.le_trans hk hl.1)

theorem ofDepth_halting {depth : Nat} (hdepth : depthFor r.input.tokens.size ≤ depth) :
    DeclParsers.Halting r (ofDepth depth) := by
  rw [depthFor] at hdepth
  have htypes : (TypeParsers.ofDepth depth).Halting r :=
    ⟨(TypeParsers.ofDepth_haltsWithin depth).type (by omega),
      (TypeParsers.ofDepth_haltsWithin depth).array (by omega)⟩
  have hexprs : (ExprParsers.ofDepth (TypeParsers.ofDepth depth) depth).Halting r := by
    refine ⟨htypes, fun {l _ _ _} => (ExprParsers.ofDepth_haltsWithin htypes depth).level ?_⟩
    have hrank : l.rank ≤ 10 := by cases l <;> decide
    omega
  have hstmts : StmtParsers.HaltsWithin r depth (ofDepth depth) :=
    StmtParsers.ofDepth_haltsWithin hexprs
      (TargetParser.ofDepth_moves hexprs depth (by omega)) depth
  exact ⟨hexprs, hstmts.block (by omega)⟩

end Whiley.Grammar
