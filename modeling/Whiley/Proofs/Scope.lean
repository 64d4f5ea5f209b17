import Whiley.Proofs.Tree.Formed
import Whiley.Scope.History

namespace Whiley.Scope

/-- The label under which a step puts a scope. -/
def Step.target? : Step → Option String
  | .new target .. => some target
  | .derive _ target .. => some target
  | .capture _ target _ => some target
  | .declareVariable source _ => some source
  | .declareLifetime source _ => some source
  | .declareAlias source _ => some source
  | .declareThis source => some source
  | _ => none

def Taken (s : Scope) (name : String) : Prop :=
  s.isVariable name ∨ s.isLifetime name ∨ name = "this" ∨ name = "*"

theorem checkAvailable_of_taken {s : Scope} {i : Identifier} (h : s.Taken i.text) :
    s.checkAvailable i = .error ⟨.nameTaken, i.mark.span⟩ := by
  have hnot : ¬ s.isAvailable i.text := by
    intro havailable
    simp only [isAvailable, Bool.and_eq_true, Bool.not_eq_true', decide_eq_false_iff_not, reserved,
      List.mem_cons, List.not_mem_nil, or_false, not_or] at havailable
    simp only [Taken, isLifetime, Bool.or_eq_true, decide_eq_true_eq] at h
    rcases h with h | (h | h) | h | h <;> simp_all
  rw [checkAvailable, if_neg hnot]

theorem checkAvailable_of_not_taken {s : Scope} {i : Identifier} (h : ¬ s.Taken i.text) :
    s.checkAvailable i = .ok () := by
  have havailable : s.isAvailable i.text := by
    simp only [Taken, isLifetime, Bool.or_eq_true, decide_eq_true_eq, not_or] at h
    simp [isAvailable, reserved, h]
  rw [checkAvailable, if_pos havailable]

namespace Store

variable {store : Store} {label source target : String} {s : Scope}

theorem get?_make_of_ne {f : Scope → Except SyntaxError Scope} (h : target ≠ label) :
    (store.make source target f).1.get? label = store.get? label := by
  unfold make
  split
  · rfl
  · split
    · rw [Dictionary.get?_put, if_neg h]
    · rfl

theorem ask_fst (store : Store) (label : String) (f : Scope → Answer) :
    (store.ask label f).1 = store := by
  unfold ask
  split <;> rfl

theorem step_eq_of_asks {step : Step} (h : step.target? = none) : (store.step step).1 = store := by
  cases step with
  | new | derive | capture | declareVariable | declareLifetime | declareAlias | declareThis =>
    exact nomatch h
  | _ => exact ask_fst ..

theorem get?_step {step : Step} (h : step.target? ≠ some label) :
    (store.step step).1.get? label = store.get? label := by
  have hne : ∀ {target : String}, some target ≠ some label → target ≠ label :=
    fun h heq => h (congrArg some heq)
  cases step with
  | new => exact (Dictionary.get?_put ..).trans (if_neg (hne h))
  | derive => exact get?_make_of_ne (hne h)
  | capture => exact get?_make_of_ne (hne h)
  | declareVariable => exact get?_make_of_ne (hne h)
  | declareLifetime => exact get?_make_of_ne (hne h)
  | declareAlias => exact get?_make_of_ne (hne h)
  | declareThis => exact get?_make_of_ne (hne h)
  | _ => rw [step_eq_of_asks rfl]

theorem run_cons (store : Store) (step : Step) (steps : List Step) :
    (store.run (step :: steps)).1 = ((store.step step).1.run steps).1 := rfl

theorem get?_run {steps : List Step} (h : ∀ step ∈ steps, step.target? ≠ some label) :
    (store.run steps).1.get? label = store.get? label := by
  induction steps generalizing store with
  | nil => rfl
  | cons step steps ih =>
    rw [run_cons, ih fun x hx => h x (List.mem_cons_of_mem step hx),
      get?_step (h step List.mem_cons_self)]

/-! ### Declaring names -/

section Declaring

variable {v : Variable} {i : Identifier}

theorem make_eq {f : Scope → Except SyntaxError Scope} (h : store.get? source = some s) :
    store.make source target f =
      match f s with
      | .ok s' => (store.put target s', .done)
      | .error e => (store, .refused e) := by
  cases hmade : f s <;> simp only [make, h, hmade]

theorem declareVariable_of_taken (h : store.get? label = some s) (htaken : s.Taken v.name.text) :
    store.step (.declareVariable label v) =
      (store, .refused ⟨.nameTaken, v.name.mark.span⟩) := by
  rw [step, make_eq h, Scope.declareVariable, checkAvailable_of_taken htaken]
  rfl

theorem declareVariable_of_not_taken (h : store.get? label = some s)
    (hfree : ¬ s.Taken v.name.text) :
    store.step (.declareVariable label v) = (store.put label (s.addVariable v), .done) := by
  rw [step, make_eq h, Scope.declareVariable, checkAvailable_of_not_taken hfree]
  rfl

theorem declareLifetime_of_taken (h : store.get? label = some s) (htaken : s.Taken i.text) :
    store.step (.declareLifetime label i) = (store, .refused ⟨.nameTaken, i.mark.span⟩) := by
  rw [step, make_eq h, Scope.declareLifetime, checkAvailable_of_taken htaken]
  rfl

theorem declareLifetime_of_not_taken (h : store.get? label = some s) (hfree : ¬ s.Taken i.text) :
    store.step (.declareLifetime label i) = (store.put label (s.addLifetime i), .done) := by
  rw [step, make_eq h, Scope.declareLifetime, checkAvailable_of_not_taken hfree]
  rfl

end Declaring

/-! ### Scopes made from a scope -/

/-- The labels of a scope and of its heirs, after a scope was made from `source`: it is one more
heir if it was made from one of them and inherits, and otherwise none, whatever its label named
before. -/
def pass (store : Store) (source target : String) (inherits : Bool) (heirs : List String) :
    List String :=
  if (store.get? source).isNone then heirs
  else if source ∈ heirs && inherits then target :: heirs
  else heirs.filter (· ≠ target)

def heirsAfter (inherits : List Identifier → Bool) (store : Store) (heirs : List String) :
    Step → List String
  | .new target .. => heirs.filter (· ≠ target)
  | .derive source target .. => store.pass source target true heirs
  | .capture source target captures => store.pass source target (inherits captures) heirs
  | _ => heirs

/-- The labels of some scopes and of all that are made from them in a history, by any chain of
derivations and of captures that inherit. -/
def heirs (inherits : List Identifier → Bool) (store : Store) (labels : List String) :
    List Step → List String
  | [] => labels
  | step :: steps =>
    (store.step step).1.heirs inherits (store.heirsAfter inherits labels step) steps

/-- What every change of a scope keeps, and what passes to the scopes made from it. -/
structure Kept (inherits : List Identifier → Bool) (P : Scope → Prop) : Prop where
  derive : ∀ s indent inLoop, P s → P ((s.deeper indent).looping inLoop)
  capture : ∀ s captures, inherits captures → P s → P (s.capturing captures)
  declareVariable : ∀ s s' v, s.declareVariable v = .ok s' → P s → P s'
  declareLifetime : ∀ s s' i, s.declareLifetime i = .ok s' → P s → P s'
  declareAlias : ∀ s i, P s → P (s.declareAlias i)
  declareThis : ∀ s, P s → P s.declareThis

def Among (P : Scope → Prop) (store : Store) (labels : List String) : Prop :=
  ∀ label ∈ labels, ∃ s, store.get? label = some s ∧ P s

section Among

variable {P : Scope → Prop} {labels : List String} {inherits : List Identifier → Bool}

theorem Among.put (h : Among P store labels) (hs : P s) :
    Among P (store.put target s) (target :: labels) := by
  intro label hlabel
  rw [Dictionary.get?_put]
  split
  · exact ⟨s, rfl, hs⟩
  · rename_i hne
    exact h label ((List.mem_cons.mp hlabel).resolve_left (Ne.symm hne))

theorem Among.put_other (h : Among P store labels) :
    Among P (store.put target s) (labels.filter (· ≠ target)) := by
  intro label hlabel
  obtain ⟨hmem, hne⟩ := List.mem_filter.mp hlabel
  rw [Dictionary.get?_put, if_neg (Ne.symm (of_decide_eq_true hne))]
  exact h label hmem

theorem Among.pass {g : Scope → Scope} {b : Bool} (h : Among P store labels)
    (hg : b → ∀ s, P s → P (g s)) :
    Among P (store.make source target fun s => .ok (g s)).1
      (store.pass source target b labels) := by
  unfold Store.pass
  cases hsource : store.get? source with
  | none =>
    rw [make, hsource]
    exact h
  | some s =>
    rw [make_eq hsource, if_neg (by simp)]
    by_cases hboth : (source ∈ labels && b) = true
    · rw [if_pos hboth]
      obtain ⟨hmem, hb⟩ := (Bool.and_eq_true _ _).mp hboth
      obtain ⟨s', hs', hP⟩ := h source (of_decide_eq_true hmem)
      obtain rfl := Option.some.inj (hsource.symm.trans hs')
      exact h.put (hg hb _ hP)
    · rw [if_neg hboth]
      exact h.put_other

theorem Among.declare {f : Scope → Except SyntaxError Scope} (h : Among P store labels)
    (hf : ∀ s s', f s = .ok s' → P s → P s') : Among P (store.make source source f).1 labels := by
  intro label hlabel
  obtain ⟨s, hs, hP⟩ := h label hlabel
  by_cases heq : label = source
  · subst heq
    rw [make_eq hs]
    cases hfs : f s with
    | ok s' => exact ⟨s', (Dictionary.get?_put ..).trans (if_pos rfl), hf s s' hfs hP⟩
    | error e => exact ⟨s, hs, hP⟩
  · exact ⟨s, (get?_make_of_ne (Ne.symm heq)).trans hs, hP⟩

theorem Among.step (hP : Kept inherits P) (h : Among P store labels) (step : Step) :
    Among P (store.step step).1 (store.heirsAfter inherits labels step) := by
  cases step with
  | new => exact h.put_other
  | derive => exact h.pass fun _ s => hP.derive s _ _
  | capture => exact h.pass fun hinherits s => hP.capture s _ hinherits
  | declareVariable => exact h.declare fun s s' => hP.declareVariable s s' _
  | declareLifetime => exact h.declare fun s s' => hP.declareLifetime s s' _
  | declareAlias =>
    exact h.declare fun s s' hs hPs => Except.ok.inj hs ▸ hP.declareAlias s _ hPs
  | declareThis => exact h.declare fun s s' hs hPs => Except.ok.inj hs ▸ hP.declareThis s hPs
  | _ =>
    rw [step_eq_of_asks rfl]
    exact h

theorem Among.run (hP : Kept inherits P) (h : Among P store labels) (steps : List Step) :
    Among P (store.run steps).1 (store.heirs inherits labels steps) := by
  induction steps generalizing store labels with
  | nil => exact h
  | cons step steps ih => exact ih (h.step hP step)

end Among

/-! ### What declarations leave behind -/

theorem kept_lookup (v : Variable) :
    Kept (fun _ => true) fun s => s.lookup v.name.text = some v where
  derive _ _ _ h := h
  capture _ _ _ h := h
  declareVariable s s' w hw h := by
    obtain ⟨havailable, rfl⟩ := declareVariable_ok hw
    have hother : w.name.text ≠ v.name.text := by
      intro heq
      rw [heq, isAvailable, isVariable, h] at havailable
      simp at havailable
    exact (Dictionary.get?_cons ..).trans ((if_neg hother).trans h)
  declareLifetime s s' i hi h := by
    obtain ⟨-, rfl⟩ := declareLifetime_ok hi
    exact h
  declareAlias _ _ h := h
  declareThis _ h := h

def captured (name : String) (captures : List Identifier) : Bool :=
  captures.any (·.text = name)

theorem kept_lifetime (name : String) : Kept (captured name) fun s => name ∈ s.lifetimes where
  derive _ _ _ h := h
  capture _ _ h _ := by
    obtain ⟨i, hi, htext⟩ := List.any_eq_true.mp h
    exact List.mem_map.mpr ⟨i, hi, of_decide_eq_true htext⟩
  declareVariable s s' w hw h := by
    obtain ⟨-, rfl⟩ := declareVariable_ok hw
    exact h
  declareLifetime s s' i hi h := by
    obtain ⟨-, rfl⟩ := declareLifetime_ok hi
    exact List.mem_cons_of_mem _ h
  declareAlias _ _ h := h
  declareThis _ h := List.mem_cons_of_mem _ h

/-- Declaring a name in a scope: if it is taken the declaration is refused and nothing changes, and
otherwise it is made. -/
structure Guarded (store : Store) (label : String) (s : Scope) : Prop where
  forVariables : ∀ v : Variable,
    (s.Taken v.name.text →
      store.step (.declareVariable label v) =
        (store, .refused ⟨.nameTaken, v.name.mark.span⟩)) ∧
      (¬ s.Taken v.name.text →
        store.step (.declareVariable label v) =
          (store.put label { s with locals := (v.name.text, v) :: s.locals }, .done))
  forLifetimes : ∀ i : Identifier,
    (s.Taken i.text →
      store.step (.declareLifetime label i) = (store, .refused ⟨.nameTaken, i.mark.span⟩)) ∧
      (¬ s.Taken i.text →
        store.step (.declareLifetime label i) =
          (store.put label { s with lifetimes := i.text :: s.lifetimes }, .done))

/-- A variable is found under its name, and the name cannot be declared again. -/
structure Bound (store : Store) (label : String) (v : Variable) : Prop where
  found : store.step (.lookup label v.name.text) = (store, .found (some v))
  noVariable : ∀ w : Variable, w.name.text = v.name.text →
    store.step (.declareVariable label w) = (store, .refused ⟨.nameTaken, w.name.mark.span⟩)
  noLifetime : ∀ i : Identifier, i.text = v.name.text →
    store.step (.declareLifetime label i) = (store, .refused ⟨.nameTaken, i.mark.span⟩)

/-- A lifetime is there, and a lambda has it exactly if it captures it. -/
structure Alive (store : Store) (label name : String) : Prop where
  known : store.step (.isLifetime label name) = (store, .truth true)
  lambda : ∀ target captures,
    ((store.step (.capture label target captures)).1.step (.isLifetime target name)).2 =
      .truth (captured name captures)

/-- The steps that declare a lifetime in a scope. -/
inductive Enlivens (label : String) : Step → String → Prop
  | named (i : Identifier) : Enlivens label (.declareLifetime label i) i.text
  | this : Enlivens label (.declareThis label) "this"

theorem ask_eq {f : Scope → Answer} (h : store.get? label = some s) :
    store.ask label f = (store, f s) := by
  rw [ask, h]

theorem bound_of_lookup {v : Variable} (h : store.get? label = some s)
    (hv : s.lookup v.name.text = some v) : store.Bound label v := by
  have htaken : s.Taken v.name.text := .inl (by rw [isVariable, hv]; rfl)
  exact {
    found := by rw [step, ask_eq h, hv]
    noVariable := fun w hw => declareVariable_of_taken h (hw ▸ htaken)
    noLifetime := fun i hi => declareLifetime_of_taken h (hi ▸ htaken) }

theorem alive_of_mem {name : String} (h : store.get? label = some s) (hname : name ≠ "*")
    (hmem : name ∈ s.lifetimes) : store.Alive label name := by
  refine ⟨?_, fun target captures => ?_⟩
  · rw [step, ask_eq h, isLifetime]
    simp [hmem]
  · have hmade : (store.step (.capture label target captures)).1 =
        store.put target (s.capturing captures) := by
      rw [step, make_eq h]
    have hchild := Dictionary.get?_put store target (s.capturing captures) target
    rw [if_pos rfl] at hchild
    rw [hmade, step, ask_eq hchild]
    simp [isLifetime, hname, capturing, captured, List.any_eq]

theorem lookup_of_declared {v : Variable}
    (h : (store.step (.declareVariable label v)).2 = .done) :
    Among (fun s => s.lookup v.name.text = some v)
      (store.step (.declareVariable label v)).1 [label] := by
  intro other hother
  obtain rfl := List.mem_singleton.mp hother
  cases hs : store.get? other with
  | none =>
    rw [step, make, hs] at h
    cases h
  | some s =>
    by_cases htaken : s.Taken v.name.text
    · rw [declareVariable_of_taken hs htaken] at h
      cases h
    · rw [declareVariable_of_not_taken hs htaken]
      exact ⟨_, (Dictionary.get?_put ..).trans (if_pos rfl),
        (Dictionary.get?_cons ..).trans (if_pos rfl)⟩

theorem lifetime_of_enlivened {step : Step} {name : String} (henlivens : Enlivens label step name)
    (h : (store.step step).2 = .done) :
    name ≠ "*" ∧ Among (fun s => name ∈ s.lifetimes) (store.step step).1 [label] := by
  cases hs : store.get? label with
  | none =>
    cases henlivens <;> rw [Store.step, make, hs] at h <;> cases h
  | some s =>
    cases henlivens with
    | named i =>
      by_cases htaken : s.Taken i.text
      · rw [declareLifetime_of_taken hs htaken] at h
        cases h
      · rw [declareLifetime_of_not_taken hs htaken]
        refine ⟨fun hstar => htaken (.inr (.inr (.inr hstar))), fun other hother => ?_⟩
        obtain rfl := List.mem_singleton.mp hother
        exact ⟨_, (Dictionary.get?_put ..).trans (if_pos rfl), List.mem_cons_self⟩
    | this =>
      refine ⟨by decide, fun other hother => ?_⟩
      obtain rfl := List.mem_singleton.mp hother
      refine ⟨s.declareThis, ?_, List.mem_cons_self⟩
      rw [Store.step, make_eq hs]
      exact (Dictionary.get?_put ..).trans (if_pos rfl)

/-- Scopes after any history, and how they go on. -/
theorem scopes_evolve (store : Store) :
    (∀ steps label, (∀ step ∈ steps, Step.target? step ≠ some label) →
      (store.run steps).1.get? label = store.get? label) ∧
    (∀ label s, store.get? label = some s → store.Guarded label s) ∧
    (∀ label v, (store.step (.declareVariable label v)).2 = .done →
      let declared := (store.step (.declareVariable label v)).1
      ∀ steps, ∀ heir ∈ declared.heirs (fun _ => true) [label] steps,
        (declared.run steps).1.Bound heir v) ∧
    (∀ label step name, Enlivens label step name → (store.step step).2 = .done →
      let declared := (store.step step).1
      ∀ steps, ∀ heir ∈ declared.heirs (captured name) [label] steps,
        (declared.run steps).1.Alive heir name) := by
  refine ⟨fun steps label h => get?_run h, fun label s hs => ?_, fun label v h => ?_,
    fun label step name henlivens h => ?_⟩
  · exact {
      forVariables := fun v => ⟨declareVariable_of_taken hs, declareVariable_of_not_taken hs⟩
      forLifetimes := fun i => ⟨declareLifetime_of_taken hs, declareLifetime_of_not_taken hs⟩ }
  · intro declared steps heir hheir
    obtain ⟨s, hs, hlookup⟩ := (lookup_of_declared h).run (kept_lookup v) steps heir hheir
    exact bound_of_lookup hs hlookup
  · intro declared steps heir hheir
    obtain ⟨hname, hamong⟩ := lifetime_of_enlivened henlivens h
    obtain ⟨s, hs, hmem⟩ := hamong.run (kept_lifetime name) steps heir hheir
    exact alive_of_mem hs hname hmem

section Nursery

def nursery : Store :=
  (run [] [.new "a" .root [] [] [] false, .derive "a" "early" none none]).1

def integer : Variable := ⟨default, ⟨default, "x"⟩, .primitive default "int"⟩

def named : Identifier := ⟨default, "l"⟩

def upbringing : List Step :=
  [.derive "a" "b" none (some true), .capture "b" "c" [named], .capture "b" "d" [],
    .lookup "early" "x"]

theorem scopes_evolve_nursery :
    (run nursery (.declareVariable "a" integer :: upbringing)).1.get? "early" = some root ∧
      nursery.Guarded "a" root ∧
      (run nursery (.declareVariable "a" integer :: upbringing)).1.Bound "d" integer ∧
      (run nursery (.declareLifetime "a" named :: upbringing)).1.Alive "c" "l" ∧
      "d" ∉ heirs (captured "l") nursery ["a"] (.declareLifetime "a" named :: upbringing) := by
  obtain ⟨hapart, hguarded, hbound, halive⟩ := scopes_evolve nursery
  refine ⟨?_, hguarded "a" root rfl, ?_, ?_, by decide⟩
  · refine (hapart _ "early" ?_).trans rfl
    decide
  · exact hbound "a" integer rfl upbringing "d" (by decide)
  · exact halive "a" _ _ (.named named) rfl upbringing "c" (by decide)

end Nursery

end Store

end Whiley.Scope
