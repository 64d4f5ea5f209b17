import Whiley.Proofs.Grammar.StoresTypes

namespace Whiley.Grammar

open Whiley.Parser

variable {w : Whole} {n : Nat} {s : Scope}

section Parameters

variable {types : TypeParsers} (ht : types.Storing w) (hs : w.Knows n s)

include ht hs

theorem parameter_stores : Stores w n (parameter types s) := by
  refine Yields.position.bind fun start m hm _ => ?_
  refine (TypeParsers.named_stores ht (hs.mono (by omega))).bind fun x m hm hx => ?_
  refine (Yields.makeVariable hx.2 hx.1).bind fun v m hm hv => ?_
  have hscope : w.Knows m s := hs.mono (by omega)
  refine (Yields.ofExcept fun s' k hs' hk => (hscope.declareVariable hs' hv.2).mono hk).bind
    fun s' k hk hs' => .known ⟨hv.1.mono (by omega), hs'⟩

theorem parameters_stores {close : Kind} : Stores w n (parameters types close s) := by
  refine Yields.expect.bind fun _ m hm _ => ?_
  have hstart : w.Knows m (([] : List Variable), s) := ⟨.nil, hs.mono (by omega)⟩
  refine (Yields.untilClose hstart fun x m hm hx => ?_).bind fun x m hm hx =>
    .known ⟨hx.1.reverse, hx.2⟩
  exact (parameter_stores ht hx.2).bind fun y _ _ hy => .known
    ⟨.cons hy.1 (hx.1.mono (by omega)), hy.2⟩

theorem forcedType_stores : Stores w n (forcedType types s) := by
  refine Yields.position.bind fun start m hm _ => (ht.type (hs.mono (by omega))).attempt.bind
    fun o m hm ho => ?_
  cases o with
  | none => exact .known .none
  | some t =>
    dsimp only
    split
    · exact .known ho
    · exact Yields.moveTo.bind fun _ _ _ _ => .known .none

end Parameters

namespace ExprParsers

structure Storing (w : Whole) (g : ExprParsers) : Prop where
  types : g.types.Storing w
  level : ∀ {n s l lines}, w.Knows n s → Stores w n (g.level l s lines)

section Rules

variable {g : ExprParsers} (hg : g.Storing w) (hs : w.Knows n s) {lines : Bool}

include hg hs

theorem expression_stores : Stores w n (g.expression s lines) :=
  hg.level hs

theorem rightGrouped_stores {operand self : Level} {ks : List Kind} :
    Stores w n (g.rightGrouped operand self ks s lines) := by
  refine Yields.settle.bind fun start m hm _ => (hg.level (hs.mono (by omega))).bind
    fun left m hm hleft => ?_
  refine Yields.accept.bind fun o m hm _ => ?_
  cases o with
  | none => exact .known (hleft.mono (by omega))
  | some op =>
    refine (hg.level (hs.mono (by omega))).bind fun right m hm hright => ?_
    exact .make (fun _ => rfl) fun _ => ⟨hleft.mono (by omega), trivial, hright, trivial⟩

theorem leftGrouped_stores {operand : Level} {ks : List Kind} :
    Stores w n (g.leftGrouped operand ks s lines) := by
  refine Yields.settle.bind fun start m hm _ => (hg.level (hs.mono (by omega))).bind
    fun first m hm hfirst => ?_
  refine Yields.foldWhile hfirst fun left m hm hleft => Yields.accept.bind fun o m hm _ => ?_
  cases o with
  | none => exact .known .none
  | some op =>
    refine (hg.level (hs.mono (by omega))).bind fun right m hm hright => ?_
    exact Yields.bind
      (.make (fun _ => rfl) fun _ => ⟨hleft.mono (by omega), trivial, hright, trivial⟩)
      fun e _ _ he => .known (.some he)

omit hg hs in
theorem boundRange_stores {start : Nat} {name : Identifier} {low high : Expr}
    (hname : w.Knows n name) (hlow : w.Knows n low) (hhigh : w.Knows n high) :
    Yields w n (boundRange start name low high) fun k x => w.Knows k x.1 ∧ w.Declares k x.2 := by
  refine Yields.bind (.make (fun _ => rfl) fun _ => ⟨hname, hlow, hhigh, trivial⟩)
    fun r m hm hr => ?_
  refine Yields.bind (.allocate (fun _ => rfl) fun _ => ⟨trivial, trivial⟩)
    fun type m hm htype => ?_
  refine (Yields.makeVariable (hname.mono (by omega)) htype).bind fun v m hm hv => ?_
  exact .pure fun k hk => ⟨hr.mono (by omega), Nat.lt_of_lt_of_le hv.2.1 hk, hv.2.2⟩

theorem range_stores : Stores w n (g.range s) := by
  refine Yields.position.bind fun start m hm _ => identifier_stores.bind fun name m hm hname => ?_
  refine (Yields.ofExcept (Q := fun _ _ => True) fun _ _ _ _ => trivial).bind fun _ m hm _ => ?_
  refine Yields.expect.bind fun _ m hm _ => (hg.level (hs.mono (by omega))).bind
    fun low m hm hlow => ?_
  refine Yields.expect.bind fun _ m hm _ => (hg.level (hs.mono (by omega))).bind
    fun high m hm hhigh => ?_
  refine (boundRange_stores (hname.mono (by omega)) (hlow.mono (by omega)) hhigh).bind
    fun x m hm hx => ?_
  have hscope : w.Knows m s := hs.mono (by omega)
  refine (Yields.ofExcept fun s' k hs' hk => (hscope.declareVariable hs' hx.2).mono hk).bind
    fun s' k hk hs' => .known ⟨hx.1.mono (by omega), hs'⟩

theorem quantifier_stores {start : Nat} {keyword : Token} :
    Stores w n (g.quantifier start keyword s) := by
  refine Yields.expect.bind fun _ m hm _ => ?_
  have hstart : w.Knows m (([] : List Range), s) := ⟨.nil, hs.mono (by omega)⟩
  refine Yields.bind (Yields.repeating hstart fun x m hm hx => ?_ :
    Stores w m (repeating (α := List Range × Scope) _ ([], s))) fun x m hm hx => ?_
  · refine (range_stores hg hx.2).bind fun y m hm hy => Yields.acceptNext.bind fun o m hm _ => ?_
    have hnext : w.Knows m (y.1 :: x.1, y.2) :=
      ⟨.cons (hy.1.mono (by omega)) (hx.1.mono (by omega)), hy.2.mono (by omega)⟩
    cases o with
    | some _ => exact .known hnext
    | none => exact Yields.expect.bind fun _ _ _ _ => .known (hnext.mono (by omega))
  · refine (expression_stores hg hx.2).bind fun condition m hm hcondition => ?_
    refine Yields.expect.bind fun _ m hm _ => ?_
    have hranges : w.Knows m x.1.reverse := hx.1.reverse.mono (by omega)
    exact .make (fun _ => rfl) fun _ =>
      ⟨trivial, hranges.outlines (Range.outlines_eq _), hcondition.mono (by omega), trivial⟩

theorem condition_stores : Stores w n (g.condition s lines) := by
  refine Yields.settle.bind fun start m hm _ => Yields.accept.bind fun o m hm _ => ?_
  cases o with
  | some keyword => exact quantifier_stores hg (hs.mono (by omega))
  | none =>
    refine (hg.level (hs.mono (by omega))).bind fun left m hm hleft => Yields.accept.bind
      fun o m hm _ => ?_
    cases o with
    | none => exact .known (hleft.mono (by omega))
    | some op =>
      dsimp only
      split
      · refine (hg.types.type (hs.mono (by omega))).bind fun type m hm htype => ?_
        exact .make (fun _ => rfl) fun _ => ⟨hleft.mono (by omega), htype, trivial⟩
      · refine (hg.level (hs.mono (by omega))).bind fun right m hm hright => ?_
        exact .make (fun _ => rfl) fun _ => ⟨hleft.mono (by omega), trivial, hright, trivial⟩

theorem arguments_stores : Stores w n (g.arguments s) :=
  .listUntil fun _ _ => expression_stores hg (hs.mono (by omega))

theorem qualified_stores : Stores w n (g.qualified s lines) := by
  refine Yields.position.bind fun start m hm _ => qualifiedName_stores.bind
    fun name m hm hname => ?_
  refine Yields.accept.bind fun o m hm _ => ?_
  cases o with
  | none => exact .make (fun _ => rfl) fun _ => ⟨hname.mono (by omega), trivial⟩
  | some _ =>
    refine (arguments_stores hg (hs.mono (by omega))).bind fun es m hm hes => ?_
    exact .make (fun _ => rfl) fun _ =>
      ⟨hname.mono (by omega), trivial, hes.outlines (Expr.outlines_eq _), trivial⟩

theorem fieldAccess_stores {start : Nat} {source : Expr} (hsource : w.Knows n source) :
    Stores w n (g.fieldAccess s lines start source) := by
  refine identifier_stores.bind fun name m hm hname => ?_
  refine Yields.bind (.make (fun _ => rfl) fun _ => ⟨hsource.mono (by omega), hname, trivial⟩)
    fun access m hm haccess => Yields.accept.bind fun o m hm _ => ?_
  cases o with
  | some _ =>
    refine (arguments_stores hg (hs.mono (by omega))).bind fun es m hm hes => ?_
    exact .make (fun _ => rfl) fun _ =>
      ⟨haccess.mono (by omega), trivial, hes.outlines (Expr.outlines_eq _), trivial⟩
  | none =>
    refine Yields.ahead.bind fun b m hm _ => ?_
    split
    · refine optionalLifetimeArguments_stores.bind fun o m hm ho => ?_
      cases o with
      | none => exact .known (haccess.mono (by omega))
      | some ls =>
        refine (arguments_stores hg (hs.mono (by omega))).bind fun es m hm hes => ?_
        have hls : w.Knows m ls := (ho ls rfl).mono (by omega)
        exact .make (fun _ => rfl) fun _ =>
          ⟨haccess.mono (by omega), hls.outlines rfl, hes.outlines (Expr.outlines_eq _), trivial⟩
    · exact .known (haccess.mono (by omega))

theorem accessStep_stores {start : Nat} {source : Expr} (hsource : w.Knows n source) :
    Stores w n (g.accessStep s lines start source) := by
  refine Yields.accept.bind fun o m hm _ => ?_
  cases o with
  | some _ =>
    refine (hg.level (hs.mono (by omega))).bind fun index m hm hindex => Yields.expect.bind
      fun _ m hm _ => ?_
    exact Yields.bind
      (.make (fun _ => rfl) fun _ => ⟨hsource.mono (by omega), hindex.mono (by omega), trivial⟩)
      fun e _ _ he => .known (.some he)
  | none =>
    refine Yields.accept.bind fun o m hm _ => ?_
    cases o with
    | none => exact .known .none
    | some t =>
      dsimp only
      split
      · refine Yields.moveTo.bind fun _ m hm _ => ?_
        exact (qualified_stores hg (hs.mono (by omega))).bind fun e _ _ he => .known (.some he)
      · split
        · refine Yields.bind (.make (fun _ => rfl) fun _ => ⟨hsource.mono (by omega), trivial⟩)
            fun target m hm htarget => ?_
          exact (fieldAccess_stores hg (hs.mono (by omega)) htarget).bind fun e _ _ he => .known
            (.some he)
        · exact (fieldAccess_stores hg (hs.mono (by omega)) (hsource.mono (by omega))).bind
            fun e _ _ he => .known (.some he)

theorem access_stores : Stores w n (g.access s lines) := by
  refine Yields.settle.bind fun start m hm _ => (hg.level (hs.mono (by omega))).bind
    fun first m hm hfirst => ?_
  exact .foldWhile hfirst fun source m hm hsource => accessStep_stores hg
    (hs.mono (by omega)) hsource

theorem call_stores {start : Nat} {name : Identifier} {lifetimes : Option (List Identifier)}
    (hname : w.Knows n name) (hlifetimes : w.Knows n lifetimes) :
    Stores w n (g.call s start name lifetimes) := by
  have hcontent : ∀ {m}, n ≤ m → w.StandsContent m (.ofLifetimes lifetimes) := by
    intro m hm
    cases lifetimes with
    | none => trivial
    | some ls => exact ((hlifetimes ls rfl).mono hm).outlines rfl
  refine (arguments_stores hg hs).bind fun es m hm hes => ?_
  cases hv : s.lookup name.text with
  | some v =>
    refine Yields.bind (.access (hs.mono (by omega)) (hname.mono (by omega)) ?_)
      fun source k hk hsource => ?_
    · rintro _ ⟨⟩
      exact ⟨v, hv, rfl⟩
    · have hes' : w.Knows k es := hes.mono (by omega)
      exact .make (fun _ => rfl) fun _ =>
        ⟨hsource, hcontent (by omega), hes'.outlines (Expr.outlines_eq _), trivial⟩
  | none =>
    refine (nameOf_stores (hname.mono (by omega))).bind fun name k hk hname => ?_
    have hes' : w.Knows k es := hes.mono (by omega)
    exact .make (fun _ => rfl) fun _ =>
      ⟨hname, hcontent (by omega), hes'.outlines (Expr.outlines_eq _), trivial⟩

omit hg in
theorem plainName_stores {start : Nat} {name : Identifier} (hname : w.Knows n name) :
    Stores w n (plainName s start name) := by
  unfold plainName
  cases hv : s.lookup name.text with
  | some v =>
    refine .makeAccess hs hname ?_
    rintro _ ⟨⟩
    exact ⟨v, hv, rfl⟩
  | none =>
    dsimp only
    split
    · refine Yields.allocateIdentifier.bind fun dollar m hm hdollar => ?_
      refine (Yields.makeAccess (hs.mono (by omega)) hdollar.1 fun d hd => ?_).bind
        fun source m hm hsource => ?_
      · obtain ⟨v, hv, rfl⟩ := Option.map_eq_some_iff.mp hd
        exact ⟨v, hdollar.2 ▸ hv, rfl⟩
      · exact .make (fun _ => rfl) fun _ => ⟨hsource, hname.mono (by omega), trivial⟩
    · refine (nameOf_stores hname).bind fun name m hm hname => ?_
      exact .make (fun _ => rfl) fun _ => ⟨hname, trivial⟩

theorem recordFields_stores {start : Nat} {name : Option Identifier} (hname : w.Knows n name) :
    Stores w n (g.recordFields start name s) := by
  have hcontent : ∀ {m}, n ≤ m → w.StandsContent m (.ofOption (name.map (·.outline))) := by
    intro m hm
    cases name with
    | none => trivial
    | some i => exact (hname i rfl).mono hm
  refine Yields.expect.bind fun _ m hm _ => ?_
  refine (Yields.untilClose .nil fun found m hm hfound => ?_).bind fun found m hm hfound => ?_
  · refine identifier_stores.bind fun key m hm hkey => ?_
    have hfield : Stores w m (do
        let _ ← expect .colon
        return FieldValue.mk key (← g.expression s true) :: found) :=
      Yields.expect.bind fun _ k hk _ => (expression_stores hg (hs.mono (by omega))).bind
        fun value j hj hvalue =>
        .known (.cons ⟨hkey.mono (by omega), hvalue⟩ (hfound.mono (by omega)))
    split
    · exact (Yields.reject (Q := fun _ _ => False)).bind fun _ _ _ h => h.elim
    · exact hfield
  · refine .make (fun _ => rfl) fun _ => ⟨hcontent (by omega), hfound.reverse.pairs, trivial⟩

theorem allocation_stores : Stores w n (g.allocation s lines) := by
  refine Yields.position.bind fun start m hm _ => optionalLifetime_stores.bind fun o m hm ho => ?_
  cases o with
  | some l =>
    refine (Yields.ofExcept (Q := fun _ _ => True) fun _ _ _ _ => trivial).bind fun _ m hm _ => ?_
    refine Yields.expect.bind fun _ m hm _ => Yields.expect.bind fun _ m hm _ => ?_
    refine (expression_stores hg (hs.mono (by omega))).bind fun operand m hm hoperand => ?_
    exact .make (fun _ => rfl) fun _ => ⟨hoperand, (ho l rfl).mono (by omega), trivial⟩
  | none =>
    refine Yields.expect.bind fun keyword m hm _ => ?_
    refine Yields.bind (.allocate (fun _ => rfl) fun _ => ⟨trivial, trivial⟩) fun l m hm hl => ?_
    refine (expression_stores hg (hs.mono (by omega))).bind fun operand m hm hoperand => ?_
    exact .make (fun _ => rfl) fun _ => ⟨hoperand, hl.mono (by omega), trivial⟩

theorem name_stores : Stores w n (g.name s lines) := by
  refine Yields.position.bind fun start m hm _ => identifier_stores.bind fun name m hm hname => ?_
  refine Yields.accept.bind fun o m hm _ => ?_
  cases o with
  | some _ => exact call_stores hg (hs.mono (by omega)) (hname.mono (by omega)) .none
  | none =>
    refine Yields.ahead.bind fun b m hm _ => ?_
    split
    · exact Yields.moveTo.bind fun _ _ _ _ => allocation_stores hg (hs.mono (by omega))
    · refine Yields.ahead.bind fun b m hm _ => ?_
      split
      · refine optionalLifetimeArguments_stores.bind fun o m hm ho => ?_
        cases o with
        | some ls => exact call_stores hg (hs.mono (by omega)) (hname.mono (by omega)) ho
        | none => exact plainName_stores (hs.mono (by omega)) (hname.mono (by omega))
      · refine Yields.ahead.bind fun b m hm _ => ?_
        split
        · exact recordFields_stores hg (hs.mono (by omega)) (.some (hname.mono (by omega)))
        · exact plainName_stores (hs.mono (by omega)) (hname.mono (by omega))

omit hg hs in
theorem termFollows_keeps : Keeps w n termFollows :=
  Yields.tokens.bind fun _ _ _ _ => Yields.position.bind fun _ _ _ _ => .kept

theorem inBrackets_stores {start : Nat} : Stores w n (g.inBrackets s lines start) := by
  refine Yields.moveTo.bind fun _ m hm _ => Yields.expect.bind fun _ m hm _ => ?_
  refine (expression_stores hg (hs.mono (by omega))).bind fun e m hm he => Yields.expect.bind
    fun _ m hm _ => ?_
  refine termFollows_keeps.bind fun b m hm _ => ?_
  split
  · refine Yields.moveTo.bind fun _ m hm _ => (hg.types.type (hs.mono (by omega))).bind
      fun type m hm htype => ?_
    refine (expression_stores hg (hs.mono (by omega))).bind fun operand m hm hoperand => ?_
    exact .make (fun _ => rfl) fun _ => ⟨htype.mono (by omega), hoperand, trivial⟩
  · exact .known (he.mono (by omega))

theorem bracketed_stores : Stores w n (g.bracketed s lines) := by
  refine Yields.position.bind fun start m hm _ => Yields.expect.bind fun _ m hm _ => ?_
  refine (forcedType_stores hg.types (hs.mono (by omega))).bind fun o m hm ho => ?_
  cases o with
  | none => exact inBrackets_stores hg (hs.mono (by omega))
  | some type =>
    refine Yields.accept.bind fun o m hm _ => ?_
    cases o with
    | none => exact inBrackets_stores hg (hs.mono (by omega))
    | some _ =>
      refine (expression_stores hg (hs.mono (by omega))).bind fun operand m hm hoperand => ?_
      exact .make (fun _ => rfl) fun _ => ⟨(ho type rfl).mono (by omega), hoperand, trivial⟩

theorem array_stores : Stores w n (g.array s) := by
  refine Yields.position.bind fun start m hm _ => Yields.expect.bind fun _ m hm _ => ?_
  refine Yields.acceptNext.bind fun o m hm _ => ?_
  cases o with
  | some _ => exact .make (fun _ => rfl) fun _ => ⟨nofun, trivial⟩
  | none =>
    refine (expression_stores hg (hs.mono (by omega))).bind fun _ m hm _ => Yields.accept.bind
      fun o m hm _ => ?_
    refine Yields.moveTo.bind fun _ m hm _ => Yields.expect.bind fun _ m hm _ => ?_
    refine (expression_stores hg (hs.mono (by omega))).bind fun first m hm hfirst => ?_
    cases o with
    | some _ =>
      refine Yields.expect.bind fun _ m hm _ => ?_
      refine (expression_stores hg (hs.mono (by omega))).bind fun length m hm hlength => ?_
      refine Yields.expect.bind fun _ m hm _ => ?_
      exact .make (fun _ => rfl) fun _ => ⟨hfirst.mono (by omega), hlength.mono (by omega), trivial⟩
    | none =>
      have hstart : w.Knows m [first] := .cons hfirst .nil
      refine (Yields.untilClose hstart fun found m hm hfound => ?_).bind fun found m hm hfound => ?_
      · exact (expression_stores hg (hs.mono (by omega))).bind fun e _ _ he => .known
          (.cons he (hfound.mono (by omega)))
      · exact .make (fun _ => rfl) fun _ => ⟨hfound.reverse.outlines (Expr.outlines_eq _), trivial⟩

theorem lambda_stores : Stores w n (g.lambda s) := by
  refine Yields.position.bind fun start m hm _ => Yields.expect.bind fun _ m hm _ => ?_
  refine optionalCaptures_stores.bind fun captures m hm hcaptures => ?_
  have hcapturing : w.Knows m (s.capturing captures) := (hs.mono (by omega)).of_locals rfl
  refine (optionalLifetimeParameters_stores hcapturing).bind fun x m hm hx => ?_
  refine (parameters_stores hg.types hx.2).bind fun y m hm hy => ?_
  refine (expression_stores hg hy.2).bind fun body m hm hbody => Yields.expect.bind
    fun _ m hm _ => ?_
  have hcaptures' : w.Knows m captures := hcaptures.mono (by omega)
  have hlifetimes : w.Knows m x.1 := hx.1.mono (by omega)
  have hparameters : w.Knows m y.1 := hy.1.mono (by omega)
  exact .make (fun _ => rfl) fun _ => ⟨hparameters.outlines rfl, hcaptures'.outlines rfl,
    hlifetimes.outlines rfl, hbody.mono (by omega), trivial⟩

theorem lambdaConstant_stores : Stores w n (g.lambdaConstant s lines) := by
  refine Yields.position.bind fun start m hm _ => Yields.expect.bind fun _ m hm _ => ?_
  refine qualifiedName_stores.bind fun name m hm hname => Yields.ahead.bind fun b m hm _ => ?_
  split
  · refine (TypeParsers.parameterTypes_stores hg.types (hs.mono (by omega))).bind
      fun ts m hm hts => ?_
    exact .make (fun _ => rfl) fun _ => ⟨hname.mono (by omega), hts.outlines rfl, trivial⟩
  · exact .make (fun _ => rfl) fun _ => ⟨hname.mono (by omega), nofun, trivial⟩

theorem functionValue_stores : Stores w n (g.functionValue s lines) := by
  refine Yields.position.bind fun start m hm _ => Yields.expect.bind fun _ m hm _ => ?_
  refine Yields.accept.bind fun opening m hm _ => Yields.moveTo.bind fun _ m hm _ => ?_
  cases opening with
  | some _ => exact lambda_stores hg (hs.mono (by omega))
  | none => exact lambdaConstant_stores hg (hs.mono (by omega))

theorem term_stores : Stores w n (g.term s lines) := by
  refine Yields.current.bind fun t m hm _ => Yields.position.bind fun start m hm _ => ?_
  split
  · exact bracketed_stores hg (hs.mono (by omega))
  · exact allocation_stores hg (hs.mono (by omega))
  · exact allocation_stores hg (hs.mono (by omega))
  · exact name_stores hg (hs.mono (by omega))
  · exact Yields.advance.bind fun _ _ _ _ => .make (fun _ => rfl) fun _ => trivial
  · exact Yields.advance.bind fun _ _ _ _ => .make (fun _ => rfl) fun _ => ⟨trivial, trivial⟩
  · exact Yields.advance.bind fun _ _ _ _ => .make (fun _ => rfl) fun _ => ⟨trivial, trivial⟩
  · exact Yields.advance.bind fun _ _ _ _ => Yields.ofReading.bind fun _ _ _ _ =>
      .make (fun _ => rfl) fun _ => ⟨trivial, trivial⟩
  · exact Yields.advance.bind fun _ _ _ _ => Yields.ofReading.bind fun _ _ _ _ =>
      .make (fun _ => rfl) fun _ => ⟨trivial, trivial⟩
  · exact Yields.advance.bind fun _ _ _ _ => Yields.ofReading.bind fun _ _ _ _ =>
      .make (fun _ => rfl) fun _ => ⟨trivial, trivial⟩
  · exact Yields.advance.bind fun _ _ _ _ => Yields.ofReading.bind fun _ _ _ _ =>
      .make (fun _ => rfl) fun _ => ⟨trivial, trivial⟩
  · refine Yields.advance.bind fun _ m hm _ => (hg.level (hs.mono (by omega))).bind
      fun e m hm he => ?_
    exact .make (fun _ => rfl) fun _ => ⟨trivial, he, trivial⟩
  · refine Yields.advance.bind fun _ m hm _ => (hg.level (hs.mono (by omega))).bind
      fun e m hm he => ?_
    exact Yields.expect.bind fun _ _ _ _ => .make (fun _ => rfl) fun _ =>
      ⟨he.mono (by omega), trivial⟩
  · exact array_stores hg (hs.mono (by omega))
  · exact recordFields_stores hg (hs.mono (by omega)) .none
  · refine Yields.advance.bind fun _ m hm _ => (hg.level (hs.mono (by omega))).bind
      fun e m hm he => ?_
    exact .make (fun _ => rfl) fun _ => ⟨trivial, he, trivial⟩
  · refine Yields.ahead.bind fun b m hm _ => ?_
    split
    · exact allocation_stores hg (hs.mono (by omega))
    · refine Yields.advance.bind fun _ m hm _ => (hg.level (hs.mono (by omega))).bind
        fun e m hm he => ?_
      exact .make (fun _ => rfl) fun _ => ⟨he, trivial⟩
  · refine Yields.advance.bind fun _ m hm _ => (hg.level (hs.mono (by omega))).bind
      fun e m hm he => ?_
    exact .make (fun _ => rfl) fun _ => ⟨trivial, he, trivial⟩
  · exact functionValue_stores hg (hs.mono (by omega))
  · exact .reject

end Rules

theorem next_storing {g : ExprParsers} (hg : g.Storing w) : g.next.Storing w where
  types := hg.types
  level {n s l lines} hs := by
    cases l with
    | logical => exact rightGrouped_stores hg hs
    | connective => exact rightGrouped_stores hg hs
    | bitOr => exact rightGrouped_stores hg hs
    | bitXor => exact rightGrouped_stores hg hs
    | bitAnd => exact rightGrouped_stores hg hs
    | condition => exact condition_stores hg hs
    | shift => exact leftGrouped_stores hg hs
    | additive => exact leftGrouped_stores hg hs
    | multiplicative => exact leftGrouped_stores hg hs
    | access => exact access_stores hg hs
    | term => exact term_stores hg hs

theorem ofDepth_storing {types : TypeParsers} (ht : types.Storing w) (depth : Nat) :
    (ofDepth types depth).Storing w := by
  induction depth with
  | zero => exact ⟨ht, fun _ => .fail⟩
  | succ depth ih =>
    rw [ofDepth_succ]
    exact next_storing ih

end ExprParsers

namespace TargetParser

variable {g : ExprParsers} (hg : g.Storing w)

include hg in
theorem step_stores {start : Nat} {source : Expr} (hs : w.Knows n s) (hsource : w.Knows n source) :
    Stores w n (step g s start source) := by
  refine Yields.accept.bind fun o m hm _ => ?_
  cases o with
  | some _ =>
    refine (hg.level (hs.mono (by omega))).bind fun index m hm hindex => Yields.expect.bind
      fun _ m hm _ => ?_
    exact Yields.bind
      (.make (fun _ => rfl) fun _ => ⟨hsource.mono (by omega), hindex.mono (by omega), trivial⟩)
      fun e _ _ he => .known (.some he)
  | none =>
    refine Yields.accept.bind fun o m hm _ => ?_
    cases o with
    | none => exact .known .none
    | some t =>
      have hfield : ∀ {k} {e : Expr}, w.Knows k e → Stores w k (do
          let field ← identifier
          return some (← make start (Expr.recordAccess · e field))) := by
        intro k e he
        refine identifier_stores.bind fun field k hk hfield => ?_
        exact Yields.bind (.make (fun _ => rfl) fun _ => ⟨he.mono (by omega), hfield, trivial⟩)
          fun e _ _ he => .known (.some he)
      dsimp only
      split
      · exact Yields.bind (.make (fun _ => rfl) fun _ => ⟨hsource.mono (by omega), trivial⟩)
          fun e _ _ he => hfield he
      · exact (Yields.known (hsource.mono (by omega))).bind fun e _ _ he => hfield he

theorem term_stores {target : TargetParser}
    (ht : ∀ {n s}, w.Knows n s → Stores w n (target s)) (hs : w.Knows n s) :
    Stores w n (term target s) := by
  refine Yields.current.bind fun t m hm _ => Yields.position.bind fun start m hm _ => ?_
  split
  · refine identifier_stores.bind fun name m hm hname => .makeAccess (hs.mono (by omega)) hname
      fun d hd => ?_
    exact Option.map_eq_some_iff.mp hd
  · refine Yields.advance.bind fun _ m hm _ => (ht (hs.mono (by omega))).bind
      fun inner m hm hinner => ?_
    exact Yields.expect.bind fun _ _ _ _ => .known (hinner.mono (by omega))
  · refine Yields.advance.bind fun _ m hm _ => (ht (hs.mono (by omega))).bind
      fun operand m hm hoperand => ?_
    exact .make (fun _ => rfl) fun _ => ⟨hoperand, trivial⟩
  · exact .reject

include hg in
theorem ofDepth_stores (depth : Nat) (hs : w.Knows n s) : Stores w n (ofDepth g depth s) := by
  induction depth generalizing n s with
  | zero => exact .fail
  | succ depth ih =>
    rw [ofDepth_succ]
    refine Yields.settle.bind fun start m hm _ => (term_stores ih (hs.mono (by omega))).bind
      fun first m hm hfirst => ?_
    exact .foldWhile hfirst fun source m hm hsource => step_stores hg (hs.mono (by omega)) hsource

end TargetParser

end Whiley.Grammar
