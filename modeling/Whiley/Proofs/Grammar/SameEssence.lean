import Whiley.Proofs.Grammar.AlikeDecls
import Whiley.Proofs.Token.Essence

namespace Whiley

namespace Input

def after (input : Input) (i : Nat) : List Token :=
  input.tokens.toList.drop i

variable {input : Input} {i : Nat}

theorem head?_after : (input.after i).head? = input.tokens[i]? := by
  rw [after, List.head?_drop, Array.getElem?_toList]

theorem after_eq_cons {t : Token} (h : input.tokens[i]? = some t) :
    input.after i = t :: input.after (i + 1) := by
  obtain ⟨hi, rfl⟩ := Array.getElem?_eq_some_iff.mp h
  exact List.drop_eq_getElem_cons (by simpa using hi)

theorem after_eq_nil (h : input.tokens[i]? = none) : input.after i = [] := by
  rw [Array.getElem?_eq_none_iff] at h
  exact List.drop_eq_nil_of_le (by simpa using h)

theorem after_skipFrom {lines : Bool} {fuel : Nat} (hfuel : input.tokens.size ≤ i + fuel) :
    input.after (input.skipFrom lines fuel i) = pastSpace lines (input.after i) := by
  induction fuel generalizing i with
  | zero =>
    have hnone : input.tokens[i]? = none := Array.getElem?_eq_none_iff.mpr (by omega)
    rw [skipFrom, after_eq_nil hnone]
    rfl
  | succ fuel ih =>
    rw [skipFrom]
    cases ht : input.tokens[i]? with
    | none =>
      dsimp only
      rw [after_eq_nil ht]
      rfl
    | some t =>
      dsimp only
      split
      · rename_i hskips
        rw [ih (by omega), after_eq_cons ht, pastSpace_skip hskips]
      · rename_i hstops
        rw [after_eq_cons ht, pastSpace_stop (eq_false_of_ne_true hstops)]

theorem after_skip {lines : Bool} :
    input.after (input.skip lines i) = pastSpace lines (input.after i) :=
  after_skipFrom (by omega)

theorem le_skipFrom {lines : Bool} {fuel : Nat} : i ≤ input.skipFrom lines fuel i := by
  induction fuel generalizing i with
  | zero => exact Nat.le_refl i
  | succ fuel ih =>
    rw [skipFrom]
    split
    · split
      · exact Nat.le_trans (Nat.le_succ i) ih
      · exact Nat.le_refl i
    · exact Nat.le_refl i

theorem after_skipLinesFrom {fuel : Nat} (hfuel : input.tokens.size + 1 ≤ i + fuel) :
    PastBlankLines (input.after i) (input.after (input.skipLinesFrom fuel i)) := by
  induction fuel generalizing i with
  | zero =>
    have hnil : input.after i = [] := after_eq_nil (Array.getElem?_eq_none_iff.mpr (by omega))
    rw [skipLinesFrom, hnil]
    exact .done rfl
  | succ fuel ih =>
    have hle : i ≤ input.skip false i := le_skipFrom
    have hpast : input.after (input.skip false i) = pastSpace false (input.after i) := after_skip
    rw [skipLinesFrom]
    cases ht : input.tokens[input.skip false i]? with
    | none =>
      rw [after_eq_nil ht] at hpast
      dsimp only
      rw [after_eq_nil ht]
      exact .done hpast.symm
    | some t =>
      rw [after_eq_cons ht] at hpast
      dsimp only
      split
      · rename_i hnewline
        exact .blank hpast.symm hnewline (ih (by omega))
      · rename_i hword
        exact .stay hpast.symm hword

theorem after_skipLines :
    PastBlankLines (input.after i) (input.after (input.skipLines i)) :=
  after_skipLinesFrom (by omega)

theorem indentAt_eq : input.indentAt i = (input.after i).head?.filter fun t => t.kind = .indent := by
  rw [head?_after, indentAt]

theorem indented_after (input : Input) (i : Nat) (h : Indented input.tokens.toList) : Indented (input.after i) :=
  List.IsChain.suffix h (List.drop_suffix i _)

end Input

def spanless : Relabelling where
  span _ := ⟨0, 0⟩
  index := id
  text := id
  injective := Function.injective_id
  fixed _ _ := rfl

theorem Token.alike_of_face {t u : Token} (h : t.face = u.face)
    (hstop : Input.skips false t.kind = false) : Token.Alike spanless spanless t u where
  kind := kind_of_face h
  span := rfl
  text hnewline _ := text_of_face h hnewline (stops_cases hstop).2
  name hk := text_of_face h (fun hnewline => by simp [hnewline] at hk) (stops_cases hstop).2

/-- Two places that stand before the same essence, inside of a line. -/
def SameWithin (ts us : List Token) : Prop :=
  SameFaces (essenceWithin ts) (essenceWithin us) ∧ (∀ t, ts.head? = some t → t.kind ≠ .indent) ∧
    ∀ u, us.head? = some u → u.kind ≠ .indent

/-- Two places that stand before the same essence, perhaps where a line begins. -/
def SameAnywhere (ts us : List Token) : Prop :=
  SameWithin ts us ∨ SameFaces (essence ts) (essence us)

theorem skips_false {lines : Bool} {k : Kind} (h : Input.skips lines k = false) :
    Input.skips false k = false := by
  cases lines with
  | true => exact (stops_line h).1
  | false => exact h

theorem head?_pastSpace (lines : Bool) (ts : List Token) :
    (essenceWithin (pastSpace lines ts)).head? = (pastSpace lines ts).head? := by
  cases h : pastSpace lines ts with
  | nil => rfl
  | cons t rest =>
    obtain ⟨more, hmore⟩ := essenceWithin_word rest (stop_of_pastSpace h)
    rw [hmore]
    rfl

theorem not_indent_pastSpace {lines : Bool} {ts : List Token} {t : Token}
    (h : (pastSpace lines ts).head? = some t) : Input.skips lines t.kind = false := by
  cases hpast : pastSpace lines ts with
  | nil =>
    rw [hpast] at h
    cases h
  | cons u rest =>
    rw [hpast] at h
    obtain rfl := Option.some.inj h
    exact stop_of_pastSpace hpast

theorem pastSpace_alike {lines : Bool} {ts us : List Token}
    (h : SameFaces (essenceWithin (pastSpace lines ts)) (essenceWithin (pastSpace lines us))) :
    SameWithin (pastSpace lines ts) (pastSpace lines us) ∧
      Option.Rel (Token.Alike spanless spanless) (pastSpace lines ts).head?
        (pastSpace lines us).head? := by
  refine ⟨⟨h, fun t ht => ?_, fun u hu => ?_⟩, ?_⟩
  · exact (stops_cases (not_indent_pastSpace ht)).2
  · exact (stops_cases (not_indent_pastSpace hu)).2
  · have hhead := h.head
    rw [head?_pastSpace, head?_pastSpace] at hhead
    cases hx : (pastSpace lines ts).head? with
    | none =>
      rw [hx] at hhead
      generalize (pastSpace lines us).head? = o at hhead
      cases hhead with
      | none => exact .none
    | some t =>
      have hstop := skips_false (not_indent_pastSpace hx)
      rw [hx] at hhead
      generalize (pastSpace lines us).head? = o at hhead
      cases hhead with
      | some hface => exact .some (Token.alike_of_face hface hstop)

theorem SameWithin.pastLineSpace {ts us : List Token} (h : SameWithin ts us) :
    SameFaces (essenceWithin (pastSpace false ts)) (essenceWithin (pastSpace false us)) := by
  rw [essenceWithin_pastLineSpace, essenceWithin_pastLineSpace]
  exact h.1.pastSpace

theorem SameAnywhere.pastSpace {ts us : List Token} (h : SameAnywhere ts us) :
    SameFaces (essenceWithin (pastSpace true ts)) (essenceWithin (pastSpace true us)) := by
  rw [(essence_pastSpace ts).1, (essence_pastSpace us).1]
  rcases h with hwithin | hfresh
  · exact hwithin.1.pastSpace
  · rw [← (essence_pastSpace ts).2, ← (essence_pastSpace us).2]
    exact hfresh.pastSpace

theorem SameWithin.newline {t u : Token} {ts us : List Token} (h : SameWithin (t :: ts) (u :: us))
    (ht : t.kind = .newline) (hu : u.kind = .newline) : SameFaces (essence ts) (essence us) := by
  obtain ⟨hsame, -⟩ := h
  rw [essenceWithin_newline ht, essenceWithin_newline hu] at hsame
  exact (List.forall₂_cons.mp hsame).2

theorem SameWithin.kind_eq {t u : Token} {ts us : List Token} (h : SameWithin (t :: ts) (u :: us))
    (ht : Input.skips false t.kind = false) (hu : Input.skips false u.kind = false) :
    t.kind = u.kind := by
  obtain ⟨more, hmore⟩ := essenceWithin_word ts ht
  obtain ⟨more', hmore'⟩ := essenceWithin_word us hu
  have hsame := h.1
  rw [hmore, hmore'] at hsame
  exact Token.kind_of_face (List.forall₂_cons.mp hsame).1

theorem SameWithin.step {t u : Token} {ts us : List Token} (h : SameWithin (t :: ts) (u :: us))
    (hit : Indented (t :: ts)) (hiu : Indented (u :: us)) (ht : Input.skips true t.kind = false)
    (hu : Input.skips true u.kind = false) : SameWithin ts us := by
  have hsame := h.1
  obtain ⟨hwordt, hnewlinet⟩ := stops_line ht
  obtain ⟨hwordu, hnewlineu⟩ := stops_line hu
  rw [essenceWithin_cons (stops_cases hwordt).1 hnewlinet,
    essenceWithin_cons (stops_cases hwordu).1 hnewlineu] at hsame
  refine ⟨(List.forall₂_cons.mp hsame).2, fun v hv => ?_, fun v hv => ?_⟩
  · exact fun hk => hnewlinet (List.IsChain.rel_head? hit hv hk)
  · exact fun hk => hnewlineu (List.IsChain.rel_head? hiu hv hk)

theorem SameAnywhere.lines {ts us ts' us' : List Token} (h : SameAnywhere ts us)
    (hit : Indented ts) (hiu : Indented us) (hts : PastBlankLines ts ts')
    (hus : PastBlankLines us us') :
    SameAnywhere ts' us' ∧
      Option.Rel (fun t u => Indent.ofText t.text = Indent.ofText u.text)
        (ts'.head?.filter fun t => t.kind = .indent)
        (us'.head?.filter fun t => t.kind = .indent) := by
  rcases h with hwithin | hfresh
  · obtain ⟨hpast, hhead⟩ := pastSpace_alike hwithin.pastLineSpace
    cases hts with
    | done ht =>
      cases hus with
      | done hu => exact ⟨.inr .nil, .none⟩
      | stay hu _ =>
        rw [ht, hu] at hhead
        cases hhead
      | blank hu _ _ =>
        rw [ht, hu] at hhead
        cases hhead
    | stay ht htword =>
      cases hus with
      | done hu =>
        rw [ht, hu] at hhead
        cases hhead
      | stay hu huword =>
        refine ⟨.inl hwithin, ?_⟩
        rw [Option.filter_eq_none_iff.mpr fun t ht => by simpa using hwithin.2.1 t ht,
          Option.filter_eq_none_iff.mpr fun u hu => by simpa using hwithin.2.2 u hu]
        exact .none
      | blank hu hunewline _ =>
        rw [ht, hu] at hpast
        have hkind := hpast.kind_eq (stop_of_pastSpace ht) (stop_of_pastSpace hu)
        exact absurd (hkind.trans hunewline) htword
    | blank ht htnewline htrest =>
      cases hus with
      | done hu =>
        rw [ht, hu] at hhead
        cases hhead
      | stay hu huword =>
        rw [ht, hu] at hpast
        have hkind := hpast.kind_eq (stop_of_pastSpace ht) (stop_of_pastSpace hu)
        exact absurd (hkind.symm.trans htnewline) huword
      | blank hu hunewline hurest =>
        rw [ht, hu] at hpast
        have hit' : Indented _ := ht ▸ hit.pastSpace
        have hiu' : Indented _ := hu ▸ hiu.pastSpace
        obtain ⟨hsame, hindent⟩ := htrest.sameFaces hurest hit'.tail hiu'.tail
          (hpast.newline htnewline hunewline)
        exact ⟨.inr hsame, hindent⟩
  · obtain ⟨hsame, hindent⟩ := hts.sameFaces hus hit hiu hfresh
    exact ⟨.inr hsame, hindent⟩

def essenceSimulation (ts us : List Token) (hts : Indented ts) (hus : Indented us) : Simulation where
  left := .ofTokens ts
  right := .ofTokens us
  lhs := spanless
  rhs := spanless
  within p q := SameWithin ((Input.ofTokens ts).after p) ((Input.ofTokens us).after q)
  anywhere p q := SameAnywhere ((Input.ofTokens ts).after p) ((Input.ofTokens us).after q)
  sizes := Eq
  uneven := True
  anywhere_of_within := .inl
  allowance := .inr trivial
  index h := congrArg spanless.index h
  sizes_succ h := congrArg Nat.succ h
  span _ _ := rfl
  last := rfl
  whole := rfl
  skip lines {p q} h := by
    rw [← Input.head?_after, ← Input.head?_after, Input.after_skip, Input.after_skip]
    refine pastSpace_alike ?_
    cases lines with
    | true => exact SameAnywhere.pastSpace h
    | false => exact SameWithin.pastLineSpace h
  step {p q t u} h ht hu hkind hspace := by
    have hit := Input.indented_after (.ofTokens ts) p hts
    have hiu := Input.indented_after (.ofTokens us) q hus
    rw [Input.after_eq_cons ht] at h hit
    rw [Input.after_eq_cons hu] at h hiu
    exact h.step hit hiu hspace (hkind ▸ hspace)
  newline {p q t u} h ht hu hkind hnewline := by
    rw [Input.after_eq_cons ht, Input.after_eq_cons hu] at h
    exact .inr (h.newline hnewline (hkind ▸ hnewline))
  lines {p q} h := by
    rw [Input.indentAt_eq, Input.indentAt_eq]
    have hlines := h.lines (Input.indented_after _ _ hts) (Input.indented_after _ _ hus)
      Input.after_skipLines Input.after_skipLines
    refine ⟨hlines.1, ?_⟩
    rcases Simulation.rel_cases hlines.2 with ⟨hx, hy⟩ | ⟨t, u, hx, hy, htext⟩
    · rw [hx, hy]
      exact .none
    · rw [hx, hy]
      exact .some ⟨rfl, htext⟩

/-- Parsing sees of a text only its essence, as far as it comes to an end. -/
theorem parse_of_essence_eq {source source' : String} {ts us : List Token}
    (hlex : lex source = .ok ts) (hlex' : lex source' = .ok us)
    (hessence : (essence ts).map Token.face = (essence us).map Token.face)
    (hends : parse ts ≠ .error .exhausted) (hends' : parse us ≠ .error .exhausted) :
    (∃ m m' arena arena', parse ts = .ok (m, arena) ∧ parse us = .ok (m', arena') ∧
        m.package = m'.package ∧
        m.declarations.map (·.relabel spanless) = m'.declarations.map (·.relabel spanless)) ∨
      ∃ f f', parse ts = .error f ∧ parse us = .error f' ∧ f.message = f'.message := by
  let σ := essenceSimulation ts us (lex_indented hlex) (lex_indented hlex')
  have hstart : σ.anywhere 0 0 := .inr (SameFaces.iff_map.mpr hessence)
  have hresult := σ.parseInto_ends rfl rfl (.inr trivial) hstart
    (rfl : (Arena.empty : Arena Node).size = (Arena.empty : Arena Node).size)
  change σ.Ends (parse ts) (parse us) at hresult
  generalize parse ts = x at hresult hends
  generalize parse us = y at hresult hends'
  cases hresult with
  | @ok m m' arena arena' value _ =>
    have hpackage : m.package.map id = m'.package.map id := congrArg Module.package value
    rw [List.map_id, List.map_id] at hpackage
    exact .inl ⟨m, m', arena, arena', rfl, rfl, hpackage, congrArg Module.declarations value⟩
  | error failure =>
    have hmessage := congrArg Failure.message failure
    rw [Failure.message_relabel, Failure.message_relabel] at hmessage
    exact .inr ⟨_, _, rfl, rfl, hmessage⟩
  | left _ => exact absurd rfl hends
  | right _ => exact absurd rfl hends'

def tightSource : String :=
  "function f(int x) -> int:\n    return x\n"

def looseSource : String :=
  "// one\n\nfunction f(int x) -> /* two */ int: \n  \n    /* three */\n    return x //\n\n"

theorem parse_of_essence_eq_comments :
    ∃ ts us, lex tightSource = .ok ts ∧ lex looseSource = .ok us ∧
      ((∃ m m' arena arena', parse ts = .ok (m, arena) ∧ parse us = .ok (m', arena') ∧
          m.package = m'.package ∧
          m.declarations.map (·.relabel spanless) = m'.declarations.map (·.relabel spanless)) ∨
        ∃ f f', parse ts = .error f ∧ parse us = .error f' ∧ f.message = f'.message) := by
  have hlex : lex tightSource = .ok ((lex tightSource).toOption.getD []) := by decide +kernel
  have hlex' : lex looseSource = .ok ((lex looseSource).toOption.getD []) := by decide +kernel
  refine ⟨_, _, hlex, hlex', parse_of_essence_eq hlex hlex' (by decide +kernel) ?_ ?_⟩
  · exact fun h => absurd (congrArg Except.isOk h) (by decide +kernel)
  · exact fun h => absurd (congrArg Except.isOk h) (by decide +kernel)

end Whiley
