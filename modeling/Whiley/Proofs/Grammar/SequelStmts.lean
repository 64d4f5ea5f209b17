import Whiley.Proofs.Grammar.Reread
import Whiley.Proofs.Grammar.SequelExprs

namespace Whiley.Grammar

open Whiley.Parser

variable {x : Extension} {c d : List Kind} {start : Nat} {scope : Scope}

section Ends

variable {α β : Type} [ToNode α] {build : Mark → α} {c₀ : List Kind}

theorem ended_follows {f g : α → Parser β} (hstart : x.Spot c₀ start) (hd : Calm d)
    (hrest : ∀ a, Follows x True x.AtLine (f a) (g a) fun _ => x.Rest) :
    Follows x True (x.On d)
      (do
        let a ← make start build
        endLine
        f a)
      (do
        let a ← make start build
        endLine
        g a) fun _ => x.Rest :=
  (Follows.made (R := fun _ => (· = d)) hstart fun _ => rfl).then_ fun a _ hc =>
    hc ▸ (Follows.endLine hd).bind fun _ => hrest a

theorem made_rest (hstart : x.Spot c₀ start) :
    Follows x True x.Rest (make start build) (make start build) fun _ => x.Rest :=
  .make (x.line_of_inside hstart.1) (fun _ _ h => h.1) fun _ _ _ => id

theorem headerEnd_follows : Follows x True (x.On c) StmtParsers.headerEnd StmtParsers.headerEnd
    fun _ => x.AtLine :=
  (Follows.expect fun _ => trivial).bind fun _ => .endLine (by simp [Calm])

end Ends

section Clauses

variable {g g' : ExprParsers} (hg : g.Following x g')

include hg

theorem clauses_follows {keyword : Kind} (hk : Joining [keyword]) (hc : Calm c) :
    Follows x True (x.On c) (clauses g keyword scope) (clauses g' keyword scope)
      fun _ => x.Where Calm := by
  refine Follows.afterEach hk.1 hc fun d hd => ?_
  refine (ExprParsers.expression_expressed hg _).weaken fun e p q h => ⟨h.1, h.2.1, h.2.2.1.calm⟩

end Clauses

theorem aligned_follows {σ : Type} {indent : Indent} {item item' : σ → Parser σ}
    (hitem : ∀ s, Follows x True (x.Where Calm) (item s) (item' s) fun _ => x.Rest) {s : σ} :
    Follows x True x.Rest (aligned indent item s) (aligned indent item' s) fun _ => x.Rest := by
  refine Follows.foldWhile (I := fun _ => x.Rest) (J := fun _ => x.Rest) fun s => ?_
  refine Follows.lineStart.bind fun o => ?_
  cases o with
  | none => exact .pure fun _ _ => id
  | some i =>
    dsimp only
    split
    · exact .pure fun _ _ => Follows.rest_of_where
    · split
      · exact (hitem s).bind fun _ => .pure fun _ _ => id
      · exact .reject

theorem deeperIndent_follows : Follows x True x.Rest (deeperIndent scope) (deeperIndent scope)
    fun _ => x.Rest := by
  refine Follows.lineIndent.bind fun o => ?_
  cases o with
  | none => exact .pure fun _ _ => id
  | some i =>
    dsimp only
    split
    · exact .pure fun _ _ => Follows.rest_of_where
    · exact .pure fun _ _ => Follows.rest_of_where

namespace StmtParsers

structure Following (x : Extension) (g g' : StmtParsers) : Prop where
  exprs : g.exprs.Following x g'.exprs
  target : TargetParser.Following x g.target g'.target
  block : ∀ scope inLoop,
    Follows x True x.AtLine (g.block scope inLoop) (g'.block scope inLoop) fun _ => x.Rest
  ifElse : ∀ scope,
    Follows x True (x.Where Calm) (g.ifElse scope) (g'.ifElse scope) fun _ => x.Rest
  rereads : ∀ scope, (g.exprs.types.type scope).Rereads

theorem simple_follows {t : Token} {build : Mark → Stmt} (ht : t.kind ≠ .less) :
    Follows x True (x.Before c t) (simple build) (simple build) fun _ => x.Rest := by
  refine .position_before fun start hstart => Follows.advance_before.then_ fun _ d hd => ?_
  rw [hd.2]
  exact ended_follows hstart (fun h => ht (Option.some.inj h)) fun _ =>
    .pure fun _ _ => Follows.rest_of_line

theorem loopOnly_follows {t : Token} {build : Mark → Stmt} {fault : SyntaxFault}
    (ht : t.kind ≠ .less) :
    Follows x True (x.Before c t) (loopOnly build fault scope) (loopOnly build fault scope)
      fun _ => x.Rest := by
  refine Follows.current_before.bind fun u => ?_
  refine ((simple_follows ht).bind fun s => ?_).mono id (fun _ _ h => h.2) fun _ _ _ => id
  split
  · exact .pure fun _ _ => id
  · exact .reject

section Rules

variable {g g' : StmtParsers} (hg : Following x g g')

include hg

theorem expression_expressed {lines : Bool} :
    Expressed x (g.expression scope lines) (g'.expression scope lines) :=
  ExprParsers.expression_expressed hg.exprs

theorem expressions_follows : Follows x True (x.On c) (g.expressions scope) (g'.expressions scope)
    fun _ => x.Where Calm := by
  refine (expression_expressed hg c).then_ fun first d hd => ?_
  refine (Follows.afterEach (S := Calm) (by decide) hd.1.calm fun e _ => ?_).then_
    fun rest e he => .given he
  exact (expression_expressed hg _).weaken fun _ _ _ h => ⟨h.1, h.2.1, h.2.2.1.calm⟩

theorem condition_follows {keyword : Kind} {build : Mark → Expr → Stmt} :
    Follows x True (x.On c) (g.condition keyword build scope) (g'.condition keyword build scope)
      fun _ => x.Rest := by
  refine .placed fun start hstart => (Follows.expect fun _ => trivial).bind fun _ => ?_
  refine (expression_expressed hg _).then_ fun e d hd => ?_
  exact ended_follows hstart hd.1.calm fun _ => .pure fun _ _ => Follows.rest_of_line

theorem returns_follows : Follows x True (x.On c) (g.returns scope) (g'.returns scope)
    fun _ => x.Rest := by
  refine .placed fun start hstart => (Follows.expect fun _ => trivial).bind fun _ => ?_
  refine Follows.atLineEnd.bind fun atEnd => ?_
  have hrest : ∀ values, Follows x True (x.Where Calm)
      (do
        let s ← make start (Stmt.return · values)
        endLine
        return s)
      (do
        let s ← make start (Stmt.return · values)
        endLine
        return s) fun _ => x.Rest := fun values => .from_where fun d hd =>
    ended_follows hstart hd fun _ => .pure fun _ _ => Follows.rest_of_line
  split
  · exact (Follows.given (R := fun _ => Calm) (by simp [Calm])).bind hrest
  · exact (expressions_follows hg).bind hrest

theorem doLoop_follows : Follows x True (x.On c) (g.doLoop scope) (g'.doLoop scope)
    fun _ => x.Rest := by
  refine .placed fun start hstart => (Follows.expect fun _ => trivial).bind fun _ => ?_
  refine headerEnd_follows.bind fun _ => (hg.block scope true).bind fun body => ?_
  refine Follows.bind (R := fun _ => x.Where Calm) (.expect_rest (by decide)) fun _ => .from_where fun d _ => ?_
  refine (expression_expressed hg _).then_ fun condition e he => ?_
  refine (clauses_follows hg.exprs (by decide) he.1.calm).then_ fun invariants i hi => ?_
  exact ended_follows hstart hi fun _ => .pure fun _ _ => Follows.rest_of_line

theorem whileLoop_follows : Follows x True (x.On c) (g.whileLoop scope) (g'.whileLoop scope)
    fun _ => x.Rest := by
  refine .placed fun start hstart => (Follows.expect fun _ => trivial).bind fun _ => ?_
  refine (expression_expressed hg _).then_ fun condition d hd => ?_
  refine (clauses_follows hg.exprs (by decide) hd.1.calm).then_ fun invariants e _ => ?_
  refine headerEnd_follows.bind fun _ => (hg.block scope true).bind fun body => ?_
  exact made_rest hstart

theorem elseBranch_follows : Follows x True (x.Where Calm) (g.elseBranch scope)
    (g'.elseBranch scope) fun _ => x.Rest := by
  refine .from_where fun c hc => .placed fun start hstart => ?_
  refine (Follows.ahead (by decide)).bind fun chains => ?_
  split
  · refine ((hg.ifElse scope).mono id (fun _ _ => Follows.where_of_on hc) fun _ _ _ => id).bind
      fun chained => ?_
    exact made_rest hstart
  · exact headerEnd_follows.bind fun _ => hg.block scope scope.inLoop

theorem ifThen_follows : Follows x True (x.On c) (g.ifThen scope) (g'.ifThen scope)
    fun _ => x.Rest := by
  refine .placed fun start hstart => (Follows.expect fun _ => trivial).bind fun _ => ?_
  refine (expression_expressed hg _).then_ fun condition d _ => ?_
  refine headerEnd_follows.bind fun _ => (hg.block scope scope.inLoop).bind fun trueBranch => ?_
  refine (Follows.acceptAtIndent (by decide) (by decide)).bind fun o => ?_
  cases o with
  | none => exact made_rest hstart
  | some _ => exact (elseBranch_follows hg).bind fun falseBranch => made_rest hstart

theorem case_follows : Follows x True (x.Where Calm) (g.case scope) (g'.case scope)
    fun _ => x.Rest := by
  refine .from_where fun c hc => .placed fun start hstart => ?_
  have hrest : ∀ conditions d, Follows x True (x.On d)
      (do
        headerEnd
        let body ← g.block scope scope.inLoop
        make start (Case.mk · conditions body))
      (do
        headerEnd
        let body ← g'.block scope scope.inLoop
        make start (Case.mk · conditions body)) fun _ => x.Rest := fun conditions d =>
    headerEnd_follows.bind fun _ => (hg.block scope scope.inLoop).bind fun body => made_rest hstart
  refine (Follows.accept (by decide)).then_ fun o d htaken => ?_
  cases htaken with
  | some _ => exact (Follows.given (R := fun _ _ => True) trivial).then_ fun cs d _ => hrest cs d
  | none =>
    refine (Follows.expect fun _ => trivial).bind fun _ => ?_
    refine (expression_expressed hg _).then_ fun first d _ => ?_
    refine (Follows.afterEach (S := fun _ => True) (by decide) trivial fun e _ => ?_).then_
      fun rest e _ => ?_
    · exact (expression_expressed hg _).weaken fun _ _ _ h => ⟨h.1, h.2.1, trivial⟩
    · exact (Follows.given (R := fun _ _ => True) trivial).then_ fun cs d _ => hrest cs d

theorem cases_follows : Follows x True x.Rest (g.cases scope) (g'.cases scope)
    fun _ => x.Rest := by
  refine deeperIndent_follows.bind fun o => ?_
  cases o with
  | none => exact .pure fun _ _ => id
  | some indent =>
    refine (aligned_follows fun found => ?_).bind fun found => ?_
    · exact (case_follows hg).bind fun _ => .pure fun _ _ => id
    · exact Follows.ofExcept.bind fun _ => .pure fun _ _ => id

theorem switch_follows : Follows x True (x.On c) (g.switch scope) (g'.switch scope)
    fun _ => x.Rest := by
  refine .placed fun start hstart => (Follows.expect fun _ => trivial).bind fun _ => ?_
  refine (expression_expressed hg _).then_ fun condition d _ => ?_
  refine headerEnd_follows.bind fun _ => ?_
  refine ((cases_follows hg).mono id (fun _ _ => Follows.rest_of_line) fun _ _ _ => id).bind
    fun cases => ?_
  exact made_rest hstart

theorem assign_follows : Follows x True (x.On c) (g.assign scope) (g'.assign scope)
    fun _ p q => x.Rest p q ∧ ∃ d, c <:+ d ∧ .assign :: d <:+ x.final := by
  refine .placed fun start hstart => (hg.target scope c).then_ fun first d hd => ?_
  refine (Follows.afterEach (S := Spans c) (by decide) hd fun d hd => ?_).then_ fun rest d hd => ?_
  · exact (hg.target scope _).weaken fun _ _ _ h => ⟨h.1, h.2.1, hd.trans (h.2.2.after (by decide)).grows⟩
  · refine (Follows.expect fun _ => trivial).bind fun _ => .along fun hassign => ?_
    refine (expressions_follows hg).then_ fun values e he => ?_
    refine (ended_follows hstart he fun _ => ?_).weaken fun _ _ _ h => ⟨h, d, hd.grows.suffix, hassign⟩
    exact .pure fun _ _ => Follows.rest_of_line

theorem declaration_follows : Follows x True (x.On c) (g.declaration scope) (g'.declaration scope)
    fun _ => x.Rest := by
  refine .placed fun start hstart => ?_
  refine (hg.exprs.types.type scope .refl .refl).anyway.then_ fun type d hd => ?_
  refine (identifier_follows fun _ => trivial).bind fun name => Follows.ofExcept.bind fun _ => ?_
  have hrest : ∀ initialiser, Follows x True (x.Where Calm)
      (do
        let s ← make start fun m => Stmt.variable ⟨m, name, type⟩ initialiser
        endLine
        return (s, ← ofExcept (scope.declareVariable ⟨s.mark, name, type⟩)))
      (do
        let s ← make start fun m => Stmt.variable ⟨m, name, type⟩ initialiser
        endLine
        return (s, ← ofExcept (scope.declareVariable ⟨s.mark, name, type⟩)))
      fun _ => x.Rest := fun initialiser => .from_where fun d hd =>
    ended_follows hstart hd fun _ => Follows.ofExcept.bind fun _ =>
      .pure fun _ _ => Follows.rest_of_line
  refine (Follows.accept (by decide)).then_ fun o d htaken => ?_
  cases htaken with
  | none => exact (Follows.given (R := fun _ => Calm) (by simp [Calm])).bind hrest
  | some hk =>
    refine Follows.bind (R := fun _ => x.Where Calm) ?_ hrest
    exact (expression_expressed hg _).then_ fun e d hd => .given hd.1.calm

/-- An unlabelled statement where no type is told apart from an expression. -/
def untyped (g : StmtParsers) (scope : Scope) (start : Nat) : Parser (Stmt × Scope) := do
  let e ← g.expression scope false
  if e.isInvocation then
    endLine
    return (.invocation e, scope)
  else
    match ← accept true [.assign, .comma] with
    | some _ =>
      moveTo start
      return (← g.assign scope, scope)
    | none =>
      moveTo start
      g.declaration scope

theorem untyped_follows (hstart : x.Spot c start) :
    Follows x True (x.On c) (untyped g scope start) (untyped g' scope start) fun _ => x.Rest := by
  refine (expression_expressed hg c).then_ fun e d hd => ?_
  split
  · exact (Follows.endLine hd.1.calm).bind fun _ => .pure fun _ _ => Follows.rest_of_line
  · refine (Follows.accept (by decide)).then_ fun o _ _ => ?_
    cases o with
    | none => exact (Follows.moveTo hstart).bind fun _ => declaration_follows hg
    | some _ =>
      refine (Follows.moveTo hstart).bind fun _ => ?_
      exact (assign_follows hg).bind fun _ => .pure fun _ _ h => h.1

theorem untyped_no_value (hstart : x.Spot c start) (hopen : Open c x.final)
    (htype : ∃ arena f s', (g.exprs.types.type scope).run x.left ⟨start, arena⟩ = .error f s')
    {s s' : Reading} (hs : s.pos = start) (a : Stmt × Scope) :
    (untyped g scope start).run x.left s ≠ .ok a s' := by
  intro hrun
  subst hs
  obtain ⟨e, u, he, hrun⟩ := bind_ok hrun
  obtain ⟨_, -, -, -, -, hspans, hcalled⟩ :=
    (expression_expressed hg (x := x) c).of_value (t := s) rfl ⟨rfl, hstart⟩ he
  have hsuffix := x.left.trail_suffix_final u.pos
  split at hrun
  · rename_i hcall
    exact Open.not_called (hcalled hcall) (hopen.of_suffix hsuffix hspans.grows.suffix)
  · obtain ⟨o, v, -, hrun⟩ := bind_ok hrun
    cases o with
    | some _ =>
      obtain ⟨_, w, hmove, hrun⟩ := bind_ok hrun
      obtain ⟨_, v', hassign, -⟩ := bind_ok hrun
      cases hmove
      obtain ⟨_, -, -, -, d, hd, hclose⟩ :=
        (assign_follows hg (x := x) (c := c)).of_value (t := ⟨s.pos, v.arena⟩) rfl ⟨rfl, hstart⟩
          hassign
      exact Open.not_assign hd (hopen.of_suffix hclose (hd.trans (List.suffix_cons _ _)))
    | none =>
      obtain ⟨_, w, hmove, hrun⟩ := bind_ok hrun
      cases hmove
      obtain ⟨_, _, hplace, hrun⟩ := bind_ok hrun
      cases hplace
      obtain ⟨_, _, hread, -⟩ := bind_ok hrun
      obtain ⟨arena, f, s', hfails⟩ := htype
      obtain ⟨_, _, hagain, -⟩ := (hg.rereads scope).ok hread arena
      rw [hfails] at hagain
      cases hagain

theorem unlabelled_follows : Follows x True (x.On c) (g.unlabelled scope) (g'.unlabelled scope)
    fun _ => x.Rest := by
  refine .located fun start hstart => .placed_at ?_
  refine (forcedType_strays hg.exprs.types hstart).bind (fun o => .from_where fun d hd => ?_) ?_
  · cases o with
    | some _ => exact (Follows.moveTo hstart).bind fun _ => declaration_follows hg
    | none => exact hd ▸ untyped_follows hg hstart
  · rintro o s ⟨rfl, hs, hopen, htype⟩
    exact ⟨trivial, fun a s' => untyped_no_value hg hstart hopen htype hs a⟩

theorem headless_follows : Follows x True (x.On c) (g.headless scope)
    (g'.headless scope) fun _ => x.Rest := by
  refine .placed fun start hstart => optionalIdentifier_follows.bind fun o => ?_
  cases o with
  | none => exact unlabelled_follows hg
  | some name =>
    refine (Follows.accept (by decide)).then_ fun colon d htaken => ?_
    have hd : Calm d := by
      cases htaken with
      | none => simp [Calm]
      | some hk => simp [Calm, List.mem_singleton.mp hk]
    refine Follows.atLineEnd.bind fun atEnd => ?_
    split
    · refine (Follows.endLine hd).bind fun _ => Follows.ofExcept.bind fun inner => ?_
      refine (hg.block inner scope.inLoop).bind fun body => ?_
      exact (made_rest hstart).bind fun _ => .pure fun _ _ => id
    · exact (Follows.moveTo hstart).bind fun _ => unlabelled_follows hg

omit hg in
theorem keeping_follows {P : Nat → Nat → Prop} {p q : Parser Stmt}
    (h : Follows x True P p q fun _ => x.Rest) :
    Follows x True P (keeping scope p) (keeping scope q) fun _ => x.Rest :=
  h.bind fun _ => .pure fun _ _ => id

theorem statement_follows : Follows x True (x.Where Calm) (g.statement scope) (g'.statement scope)
    fun _ => x.Rest := by
  refine .from_where fun c _ => (Follows.current fun _ => trivial).bind fun t => ?_
  split
  case h_1 => exact keeping_follows (condition_follows hg).before
  case h_2 => exact keeping_follows (condition_follows hg).before
  case h_3 ht => exact keeping_follows (loopOnly_follows (by simp [ht]))
  case h_4 ht => exact keeping_follows (loopOnly_follows (by simp [ht]))
  case h_5 => exact keeping_follows (doLoop_follows hg).before
  case h_6 => exact keeping_follows (condition_follows hg).before
  case h_7 ht => exact keeping_follows (simple_follows (by simp [ht]))
  case h_8 => exact keeping_follows (ifThen_follows hg).before
  case h_9 => exact keeping_follows (returns_follows hg).before
  case h_10 => exact keeping_follows (whileLoop_follows hg).before
  case h_11 ht => exact keeping_follows (simple_follows (by simp [ht]))
  case h_12 => exact keeping_follows (switch_follows hg).before
  case h_13 => exact (headless_follows hg).before

theorem statements_follows {indent : Indent} : Follows x True x.Rest (g.statements indent scope)
    (g'.statements indent scope) fun _ => x.Rest :=
  (aligned_follows fun _ => (statement_follows hg).bind fun _ => .pure fun _ _ => id).bind
    fun _ => .pure fun _ _ => id

theorem blockOf_follows {inLoop : Bool} :
    Follows x True x.AtLine (g.blockOf scope inLoop) (g'.blockOf scope inLoop)
      fun _ => x.Rest := by
  refine .position_line fun start hstart => ?_
  have hmade : ∀ found, Follows x True x.Rest (make start (Block.mk · found))
      (make start (Block.mk · found)) fun _ => x.Rest := fun found =>
    .make hstart (fun _ _ h => h.1) fun _ _ _ => id
  refine (deeperIndent_follows.mono id (fun _ _ => Follows.rest_of_line) fun _ _ _ => id).bind
    fun o => ?_
  cases o with
  | none => exact hmade []
  | some indent => exact (statements_follows hg).bind hmade

theorem next_following : Following x g.next g'.next where
  exprs := hg.exprs
  target := hg.target
  block _ _ := blockOf_follows hg
  ifElse _ := .from_where fun _ _ => ifThen_follows hg
  rereads := hg.rereads

end Rules

theorem ofDepth_following {exprs exprs' : ExprParsers} {target target' : TargetParser}
    (hexprs : exprs.Following x exprs') (htarget : TargetParser.Following x target target')
    (hrereads : ∀ scope, (exprs.types.type scope).Rereads) {depth depth' : Nat}
    (hdepth : depth ≤ depth') :
    Following x (ofDepth exprs target depth) (ofDepth exprs' target' depth') := by
  induction depth generalizing depth' with
  | zero => exact ⟨hexprs, htarget, fun _ _ => .exhausted, fun _ => .exhausted, hrereads⟩
  | succ depth ih =>
    obtain ⟨depth', rfl⟩ := Nat.exists_eq_add_of_lt hdepth
    exact next_following (ih (Nat.le_add_right depth depth'))

end StmtParsers

end Whiley.Grammar
