import Whiley.Proofs.Grammar.Continued
import Whiley.Proofs.Grammar.HaltsDecls
import Whiley.Proofs.Grammar.SameEssence
import Whiley.Proofs.Tree.Identity

namespace Whiley

section Before

variable {tokens : List Token} {c : Nat}

theorem dropWhile_before {p : Token → Bool} {t : Token} {earlier : List Token}
    (hc : c ≤ tokens.length) (h : (tokens.take c).reverse.dropWhile p = t :: earlier) :
    ∃ n, n < c ∧ tokens[n]? = some t ∧ p t = false ∧ earlier = (tokens.take n).reverse ∧
      ∀ k, n < k → k < c → ∃ u, tokens[k]? = some u ∧ p u := by
  induction c with
  | zero => cases h
  | succ c ih =>
    have hlast : tokens[c]? = some tokens[c] := List.getElem?_eq_getElem hc
    rw [List.take_add_one, hlast, Option.toList_some, List.reverse_append, List.reverse_singleton,
      List.singleton_append, List.dropWhile_cons] at h
    split at h
    · rename_i hp
      obtain ⟨n, hn, ht, hstop, hearlier, hbetween⟩ := ih (Nat.le_of_succ_le hc) h
      refine ⟨n, Nat.lt_succ_of_lt hn, ht, hstop, hearlier, fun k hnk hkc => ?_⟩
      rcases Nat.lt_succ_iff_lt_or_eq.mp hkc with hlt | rfl
      · exact hbetween k hnk hlt
      · exact ⟨_, hlast, hp⟩
    · rename_i hp
      obtain ⟨rfl, rfl⟩ := List.cons.inj h
      exact ⟨c, Nat.lt_succ_self c, hlast, eq_false_of_ne_true hp, rfl, fun k hck hkc => by omega⟩

theorem head?_before (hc : c ≤ tokens.length) {d : Nat} {u : Token} (hu : tokens[d]? = some u)
    (hsolid : u.kind.isSpace = false) (hskipped : (Input.ofTokens tokens).Skipped true (d + 1) c) :
    ((tokens.take c).reverse.dropWhile (·.kind.isSpace)).head? = some u := by
  cases hdrop : (tokens.take c).reverse.dropWhile (·.kind.isSpace) with
  | nil =>
    have htake : (tokens.take c)[d]? = some u := by rwa [List.getElem?_take_of_lt hskipped.1]
    have hspace := List.dropWhile_eq_nil_iff.mp hdrop u
      (List.mem_reverse.mpr (List.mem_of_getElem? htake))
    exact absurd (hspace.symm.trans hsolid) (by decide)
  | cons v earlier =>
    obtain ⟨n, hn, hv, hstop, -, hbetween⟩ := dropWhile_before hc hdrop
    rcases Nat.lt_trichotomy n d with hnd | rfl | hdn
    · obtain ⟨w, hw, hspace⟩ := hbetween d hnd hskipped.1
      rw [Option.some.inj (hu.symm.trans hw), hspace] at hsolid
      cases hsolid
    · exact hv.symm.trans hu
    · obtain ⟨w, hw, hspace⟩ := hskipped.2 n hdn hn
      rw [Input.getElem?_ofTokens] at hw
      rw [Option.some.inj (hv.symm.trans hw)] at hstop
      exact absurd (hstop.symm.trans hspace) (by decide)

theorem names_of_endsInName (hc : c ≤ tokens.length) (h : endsInName (tokens.take c).reverse) :
    ∃ n, n < c ∧ (Input.ofTokens tokens).Names n ∧
      (Input.ofTokens tokens).Skipped false (n + 1) c := by
  unfold endsInName at h
  split at h
  · cases h
  · rename_i name earlier hdrop
    rw [Bool.and_eq_true, decide_eq_true_eq] at h
    obtain ⟨n, hn, hname, -, rfl, hbetween⟩ := dropWhile_before hc hdrop
    refine ⟨n, hn, ⟨name, (Input.getElem?_ofTokens tokens n).trans hname, h.1, fun d u hu hskipped => ?_⟩,
      hn, fun k hnk hkc => ?_⟩
    · rw [Input.getElem?_ofTokens] at hu
      cases hsolid : u.kind.isSpace with
      | true => constructor <;> intro hk <;> rw [hk] at hsolid <;> cases hsolid
      | false => simpa [head?_before (by omega) hu hsolid hskipped] using h.2
    · obtain ⟨t, ht, hspace⟩ := hbetween k hnk hkc
      exact ⟨t, (Input.getElem?_ofTokens tokens k).trans ht, hspace⟩

end Before

def Anchored.ofTokens {tokens : List Token} (h : ColonsFollowNames tokens) {rounds : Nat}
    (hrounds : tokens.length < rounds) : Anchored where
  input := (Input.ofTokens tokens).allowing rounds
  room := by simpa [Input.allowing, Input.ofTokens] using hrounds
  named c t ht hk := by
    have hlist : tokens[c]? = some t := (Input.getElem?_ofTokens tokens c).symm.trans ht
    obtain ⟨hc, rfl⟩ := List.getElem?_eq_some_iff.mp hlist
    exact names_of_endsInName (Nat.le_of_lt hc) (h c hc hk)

def Simulation.allowing (input : Input) (m n : Nat) : Simulation where
  left := input.allowing m
  right := input.allowing n
  lhs := .identity
  rhs := .identity
  within := Eq
  anywhere := Eq
  sizes := Eq
  uneven := True
  anywhere_of_within h := h
  allowance := .inr trivial
  index h := h
  sizes_succ h := congrArg Nat.succ h
  span {p q p' q'} hp hp' := by
    rw [Input.span_allowing, Input.span_allowing, hp, hp']
  last := rfl
  whole := rfl
  skip lines {p q} h := by
    obtain rfl : p = q := by
      cases lines <;> exact h
    rw [Input.skip_allowing, Input.skip_allowing, Input.tokens_allowing, Input.tokens_allowing]
    refine ⟨rfl, ?_⟩
    cases input.tokens[input.skip lines p]? with
    | none => exact .none
    | some t => exact .some ⟨rfl, rfl, fun _ _ => rfl, fun _ => rfl⟩
  step h _ _ _ _ := congrArg Nat.succ h
  newline h _ _ _ _ := congrArg Nat.succ h
  lines {p q} h := by
    subst h
    rw [Input.skipLines_allowing, Input.skipLines_allowing]
    refine ⟨rfl, ?_⟩
    change Option.Rel _ (input.indentAt _) (input.indentAt _)
    cases input.indentAt (input.skipLines p) with
    | none => exact .none
    | some t => exact .some ⟨rfl, rfl⟩

/-- The parse within bounds of its own: on the rounds of each repetition and on the depth. -/
def parseWithin (rounds depth : Nat) (tokens : List Token) : Except Failure Module :=
  match (Grammar.module (Grammar.ofDepth depth)).run ⟨tokens.toArray, rounds⟩ ⟨0, .empty⟩ with
  | .ok m _ => .ok m
  | .error f _ => .error f

open Grammar

variable {tokens : List Token} {rounds depth : Nat}

theorem parse_eq_parseWithin (tokens : List Token) : (parse tokens).map (·.1) =
    parseWithin (tokens.length + 1) (depthFor tokens.length) tokens := by
  rw [parse, parseInto, parseWithin]
  change Except.map _ (match (module (ofDepth (depthFor tokens.length))).run
    ⟨tokens.toArray, tokens.length + 1⟩ ⟨0, .empty⟩ with | .ok m s => _ | .error f _ => _) = _
  split <;> simp [*, Except.map]

theorem parseWithin_ne_exhausted (h : ColonsFollowNames tokens) (hrounds : tokens.length < rounds)
    (hdepth : depthFor tokens.length ≤ depth) :
    parseWithin rounds depth tokens ≠ .error .exhausted := by
  let r := Anchored.ofTokens h hrounds
  have hmodule := module_halts (r := r) (i := 0) (ofDepth_halting hdepth) .empty
  change Parser.Result.Halts _ ((module (ofDepth depth)).run ⟨tokens.toArray, rounds⟩ ⟨0, .empty⟩)
    at hmodule
  rw [parseWithin]
  split
  · exact nofun
  · rename_i f s hrun
    rw [hrun] at hmodule
    exact fun he => hmodule (Except.error.inj he)

theorem parseWithin_eq {rounds' depth' : Nat}
    (h : parseWithin rounds depth tokens ≠ .error .exhausted)
    (h' : parseWithin rounds' depth' tokens ≠ .error .exhausted) :
    parseWithin rounds depth tokens = parseWithin rounds' depth' tokens := by
  let σ := Simulation.allowing (.ofTokens tokens) rounds rounds'
  have hagree : StmtParsers.Agree σ (ofDepth depth) (ofDepth depth') := ofDepth_agree (.inr trivial)
  have hmodule := module_matches hagree ⟨0, .empty⟩ ⟨0, .empty⟩ rfl rfl
  change Parser.Outcome σ _ _
    ((module (ofDepth depth)).run ⟨tokens.toArray, rounds⟩ ⟨0, .empty⟩)
    ((module (ofDepth depth')).run ⟨tokens.toArray, rounds'⟩ ⟨0, .empty⟩) at hmodule
  rw [parseWithin] at h ⊢
  rw [parseWithin] at h' ⊢
  generalize (module (ofDepth depth)).run _ _ = x at hmodule h
  generalize (module (ofDepth depth')).run _ _ = y at hmodule h'
  cases hmodule with
  | @ok m m' _ _ value =>
    have hsame : m.relabel .identity = m'.relabel .identity := value
    rw [Module.relabel_identity, Module.relabel_identity] at hsame
    exact congrArg Except.ok hsame
  | @error f f' _ _ failure =>
    have hsame : f.relabel .identity = f'.relabel .identity := failure
    rw [Failure.relabel_identity, Failure.relabel_identity] at hsame
    exact congrArg Except.error hsame
  | left _ => exact absurd rfl h
  | right _ => exact absurd rfl h'

/--
Parsing a stream in which every `::` follows a name gives a module or a failure of its own, and no
more rounds and no more depth give another.
-/
theorem parse_terminates (h : ColonsFollowNames tokens) :
    ∃ outcome : Except Failure Module, outcome ≠ .error .exhausted ∧
      (parse tokens).map (·.1) = outcome ∧
      ∀ rounds depth, tokens.length < rounds → depthFor tokens.length ≤ depth →
        parseWithin rounds depth tokens = outcome := by
  have hown := parseWithin_ne_exhausted h (Nat.lt_succ_self _) (Nat.le_refl _)
  refine ⟨_, hown, parse_eq_parseWithin tokens, fun rounds depth hrounds hdepth => ?_⟩
  exact parseWithin_eq (parseWithin_ne_exhausted h hrounds hdepth) hown

/-- Qualified names that are read again: in an array, in brackets and behind a comment. -/
def qualifiedSource : String :=
  "constant A is [std::B, (std /* c */ ::c::d)]\n"

theorem parse_terminates_qualified : ∃ tokens, lex qualifiedSource = .ok tokens ∧
    ColonsFollowNames tokens ∧ (tokens.filter (·.kind = .colonColon)).length = 3 ∧
      ∃ outcome : Except Failure Module, outcome ≠ .error .exhausted ∧
        (parse tokens).map (·.1) = outcome ∧
        ∀ rounds depth, tokens.length < rounds → depthFor tokens.length ≤ depth →
          parseWithin rounds depth tokens = outcome := by
  have hlex : lex qualifiedSource = .ok ((lex qualifiedSource).toOption.getD []) := by decide +kernel
  have hcolons : ColonsFollowNames ((lex qualifiedSource).toOption.getD []) := by decide +kernel
  exact ⟨_, hlex, hcolons, by decide +kernel, parse_terminates hcolons⟩

end Whiley
