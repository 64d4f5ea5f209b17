import Mathlib.Logic.Equiv.Basic
import Whiley.Proofs.Grammar.AlikeDecls
import Whiley.Proofs.Grammar.Lockstep
import Whiley.Proofs.Tree.Identity

namespace Whiley

def Word (w : String) : Prop :=
  Kind.identifier.Spelled w.toList

theorem Word.not_reserved {w : String} (h : Word w) : w ∉ ["$", "this", "*"] := by
  intro hw
  obtain ⟨⟨c, cs, hcs, hstart, -⟩, hword⟩ := h
  simp only [List.mem_cons, List.not_mem_nil, or_false] at hw
  rcases hw with rfl | rfl | rfl
  · obtain rfl : '$' = c := (List.cons.inj hcs).1
    exact absurd hstart (by decide)
  · exact absurd hword (by decide)
  · obtain rfl : '*' = c := (List.cons.inj hcs).1
    exact absurd hstart (by decide)

theorem exists_perm_extending {f : String → String} (ws : List String)
    (hf : ∀ v ∈ ws, ∀ w ∈ ws, f v = f w → v = w) :
    ∃ e : Equiv.Perm String, ∀ w ∈ ws, e w = f w := by
  induction ws with
  | nil => exact ⟨Equiv.refl String, by simp⟩
  | cons v ws ih =>
    obtain ⟨e, he⟩ := ih fun a ha b hb =>
      hf a (List.mem_cons_of_mem v ha) b (List.mem_cons_of_mem v hb)
    refine ⟨e.trans (Equiv.swap (e v) (f v)), fun w hw => ?_⟩
    by_cases hwv : w = v
    · subst hwv
      simp
    · have hmem := List.mem_of_ne_of_mem hwv hw
      have hnew : e w ≠ f v := fun h =>
        hwv (hf w hw v List.mem_cons_self ((he w hmem).symm.trans h))
      have hold : e w ≠ e v := fun h => hwv (e.injective h)
      rw [Equiv.trans_apply, Equiv.swap_apply_of_ne_of_ne hold hnew, he w hmem]

/-- New texts for identifiers; what the texts of other tokens become does not matter. -/
structure Renaming where
  text : String → String
  injective : ∀ {v w}, Word v → Word w → text v = text w → v = w
  type : text "type" = "type"
  constant : text "constant" = "constant"
  proper : ∀ {w}, Word w → text w ∉ ["$", "this", "*"]

namespace Renaming

variable (r : Renaming)

def token (t : Token) : Token :=
  if t.kind = .identifier then { t with text := r.text t.text } else t

theorem kind_token (t : Token) : (r.token t).kind = t.kind := by
  rw [token]
  split <;> rfl

theorem span_token (t : Token) : (r.token t).span = t.span := by
  rw [token]
  split <;> rfl

theorem token_of_ne {t : Token} (h : t.kind ≠ .identifier) : r.token t = t :=
  if_neg h

/-- `f` renames the identifiers of `ts` as `r` does, and changes nothing besides names. -/
structure Extends (ts : List Token) (f : Relabelling) : Prop where
  span : f.span = id
  index : f.index = id
  text : ∀ t ∈ ts, t.kind = .identifier → f.text t.text = r.text t.text

variable {r} {ts : List Token} {f : Relabelling}

theorem Extends.alike (hf : r.Extends ts f) (hts : ∀ t ∈ ts, t.Lexed) {t : Token} (ht : t ∈ ts) :
    Token.Alike f .identity t (r.token t) where
  kind := (r.kind_token t).symm
  span := by rw [hf.span, r.span_token]; rfl
  text _ hk := by rw [r.token_of_ne hk]
  name hk := by
    by_cases hword : t.kind = .identifier
    · rw [hf.text t ht hword, token, if_pos hword]
      rfl
    · have hfixed : t.kind ∉ Kind.classes := by
        intro hclass
        simp only [List.mem_cons, List.not_mem_nil, or_false] at hk
        rcases hk with hk | hk | hk
        · exact hword hk
        · rw [hk] at hclass
          exact absurd hclass (by decide)
        · rw [hk] at hclass
          exact absurd hclass (by decide)
      have htext := Token.text_of_fixed (hts t ht) hfixed
      rw [r.token_of_ne hword]
      refine f.fixed t.text ?_
      simp only [List.mem_cons, List.not_mem_nil, or_false] at hk
      rcases hk with hk | hk | hk
      · exact absurd hk hword
      · rw [htext, hk]
        decide
      · rw [htext, hk]
        decide

def total (r : Renaming) (w : String) : String :=
  if w ∈ ["$", "this", "*"] then w else r.text w

theorem total_word {w : String} (hw : Word w) : r.total w = r.text w :=
  if_neg (Word.not_reserved hw)

theorem total_reserved {w : String} (hw : w ∈ ["$", "this", "*"]) : r.total w = w :=
  if_pos hw

theorem total_injective {v w : String} (hv : v ∈ ["$", "this", "*"] ∨ Word v)
    (hw : w ∈ ["$", "this", "*"] ∨ Word w) (h : r.total v = r.total w) : v = w := by
  rcases hv with hv | hv <;> rcases hw with hw | hw
  · rwa [total_reserved hv, total_reserved hw] at h
  · rw [total_reserved hv, total_word hw] at h
    exact absurd (h ▸ hv) (r.proper hw)
  · rw [total_word hv, total_reserved hw] at h
    exact absurd (h ▸ hw) (r.proper hv)
  · rw [total_word hv, total_word hw] at h
    exact r.injective hv hw h

theorem word_of_chars {c : Char} {cs : List Char} {w : String} (hw : w.toList = c :: cs)
    (hstart : Lexer.isWordStart c) (hrest : cs.all Lexer.isWordChar)
    (hword : Kind.ofWord w = .identifier) : Word w :=
  ⟨⟨c, cs, hw, hstart, List.all_eq_true.mp hrest⟩, by rwa [String.ofList_toList]⟩

theorem word_type : Word "type" :=
  word_of_chars rfl (by decide) (by decide) (by decide)

theorem word_constant : Word "constant" :=
  word_of_chars rfl (by decide) (by decide) (by decide)

theorem word_of_lexed {t : Token} (ht : t.Lexed) (hk : t.kind = .identifier) : Word t.text := by
  rwa [Token.Lexed, hk] at ht

theorem exists_extends (r : Renaming) (hts : ∀ t ∈ ts, t.Lexed) : ∃ f, r.Extends ts f := by
  let identifiers := (ts.filter fun t => t.kind = .identifier).map Token.text
  have hidentifiers : ∀ w ∈ identifiers, Word w := by
    intro w hw
    obtain ⟨t, ht, rfl⟩ := List.mem_map.mp hw
    obtain ⟨hmem, hk⟩ := List.mem_filter.mp ht
    exact word_of_lexed (hts t hmem) (of_decide_eq_true hk)
  let names := ["$", "this", "*"] ++ "type" :: "constant" :: identifiers
  have hnames : ∀ w ∈ names, w ∈ ["$", "this", "*"] ∨ Word w := by
    intro w hw
    refine (List.mem_append.mp hw).imp_right fun hw => ?_
    rcases List.mem_cons.mp hw with rfl | hw
    · exact word_type
    rcases List.mem_cons.mp hw with rfl | hw
    · exact word_constant
    · exact hidentifiers w hw
  obtain ⟨e, he⟩ := exists_perm_extending names fun v hv w hw =>
    total_injective (r := r) (hnames v hv) (hnames w hw)
  refine ⟨⟨id, id, e, e.injective, fun w hw => ?_⟩, rfl, rfl, fun t ht hk => ?_⟩
  · simp only [List.mem_cons, List.not_mem_nil, or_false] at hw
    rcases hw with rfl | rfl | rfl | rfl | rfl
    · exact (he "$" (by simp [names])).trans (total_reserved (by decide))
    · exact (he "this" (by simp [names])).trans (total_reserved (by decide))
    · exact (he "*" (by simp [names])).trans (total_reserved (by decide))
    · exact (he "type" (by simp [names])).trans ((total_word word_type).trans r.type)
    · exact (he "constant" (by simp [names])).trans ((total_word word_constant).trans r.constant)
  · have hmem : t.text ∈ names := by
      have hfound : t.text ∈ identifiers :=
        List.mem_map.mpr ⟨t, List.mem_filter.mpr ⟨ht, by simpa using hk⟩, rfl⟩
      simp [names, hfound]
    exact (he t.text hmem).trans (total_word (word_of_lexed (hts t ht) hk))

def simulation (hf : r.Extends ts f) (hts : ∀ t ∈ ts, t.Lexed) : Simulation :=
  .lockstep (.ofTokens ts) r.token f .identity Eq r.kind_token r.span_token hf.span
    (fun _ ht => hf.alike hts (List.mem_toArray.mp ht))
    (fun _ _ h => h.symm ▸ congrFun hf.index _) fun _ _ h => congrArg Nat.succ h

end Renaming

/-- Parsing sees of the identifiers of a text only which are equal, and the two contextual keywords. -/
theorem parse_rename (r : Renaming) {source : String} {ts : List Token}
    (hlex : lex source = .ok ts) :
    (∃ f, r.Extends ts f) ∧ ∀ f, r.Extends ts f →
      (parse (ts.map r.token)).map Prod.fst = (parse ts).map fun x => x.1.relabel f := by
  have hts := lex_lexed hlex
  refine ⟨Renaming.exists_extends r hts, fun f hf => ?_⟩
  have hends := (Renaming.simulation hf hts).parseInto_ends rfl
    (Input.ofTokens_map r.token ts).symm (.inl (List.length_map _).symm) rfl
    (rfl : (Arena.empty : Arena Node).size = (Arena.empty : Arena Node).size)
  change (Renaming.simulation hf hts).Ends (parse ts) (parse (ts.map r.token)) at hends
  generalize parse ts = x at hends
  generalize parse (ts.map r.token) = y at hends
  cases hends with
  | ok value _ =>
    have hvalue : Module.relabel f _ = Module.relabel .identity _ := value
    rw [Module.relabel_identity] at hvalue
    exact congrArg Except.ok hvalue.symm
  | error failure =>
    have hfailure : Failure.relabel f _ = Failure.relabel .identity _ := failure
    rw [Failure.relabel_identity, Failure.relabel_eq hf.span] at hfailure
    exact congrArg Except.error hfailure.symm
  | left h => exact h.elim
  | right h => exact h.elim

/-- Exchanges two names. -/
def Renaming.exchange (v w : String) (hv : v ∉ ["$", "this", "*", "type", "constant"])
    (hw : w ∉ ["$", "this", "*", "type", "constant"]) : Renaming where
  text := Equiv.swap v w
  injective _ _ h := (Equiv.swap v w).injective h
  type := by
    simp only [List.mem_cons, List.not_mem_nil, or_false, not_or] at hv hw
    exact Equiv.swap_apply_of_ne_of_ne (Ne.symm hv.2.2.2.1) (Ne.symm hw.2.2.2.1)
  constant := by
    simp only [List.mem_cons, List.not_mem_nil, or_false, not_or] at hv hw
    exact Equiv.swap_apply_of_ne_of_ne (Ne.symm hv.2.2.2.2) (Ne.symm hw.2.2.2.2)
  proper {u} hu := by
    have hreserved := hu.not_reserved
    rw [Equiv.swap_apply_def]
    split
    · exact fun h => hw (by simp_all)
    · split
      · exact fun h => hv (by simp_all)
      · exact hreserved

def doubling : String :=
  "function f(int x) -> int:\n    return x + x\n"

theorem parse_rename_exchange :
    ∃ ts, lex doubling = .ok ts ∧
      let r := Renaming.exchange "x" "f" (by decide) (by decide)
      (∃ f, r.Extends ts f) ∧ ∀ f, r.Extends ts f →
        (parse (ts.map r.token)).map Prod.fst = (parse ts).map fun x => x.1.relabel f := by
  have hlex : lex doubling = .ok ((lex doubling).toOption.getD []) := by decide +kernel
  exact ⟨_, hlex, parse_rename _ hlex⟩

end Whiley
