import Whiley.Proofs.Text.Position

namespace Whiley

/-- How many characters the first lines take up, each with the newline after it. -/
def lengthOfLines : List (List Char) → Nat → Nat
  | line :: lines, n + 1 => line.length + 1 + lengthOfLines lines n
  | _, _ => 0

/-- The offset of a place in a text of such lines. -/
def Place.offset (lines : List (List Char)) (p : Place) : Nat :=
  lengthOfLines lines p.line + p.character

/-- The text with what lies in the extent of the edit replaced, its lines split at newlines. -/
def Edit.apply (e : Edit) (text : String) : String :=
  let cs := text.toList
  let lines := cs.splitOn '\n'
  String.ofList (cs.take (e.extent.start.offset lines) ++ e.text.toList ++
    cs.drop (e.extent.stop.offset lines))

namespace Place

variable {p : Place} {cs : List Char} {n : Nat}

theorem splitOn_newline (cs : List Char) :
    ('\n' :: cs).splitOn '\n' = [] :: cs.splitOn '\n' := by
  rw [List.splitOn, List.splitOnP_cons_eq_if_modifyHead]
  rfl

theorem splitOn_cons {c : Char} (hc : c ≠ '\n') (cs : List Char) :
    ∃ line lines, cs.splitOn '\n' = line :: lines ∧ (c :: cs).splitOn '\n' = (c :: line) :: lines := by
  have hne := List.splitOnP_ne_nil (· == '\n') cs
  rw [List.splitOn, List.splitOn, List.splitOnP_cons_eq_if_modifyHead, if_neg (by simpa using hc)]
  cases hlines : cs.splitOnP (· == '\n') with
  | nil => exact absurd hlines hne
  | cons line lines => exact ⟨line, lines, rfl, rfl⟩

theorem line_le_after (p : Place) (cs : List Char) : p.line ≤ (p.after cs).line := by
  induction cs generalizing p with
  | nil => exact Nat.le_refl _
  | cons c cs ih =>
    refine Nat.le_trans ?_ (ih (p.next c))
    unfold next
    split
    · exact Nat.le_succ _
    · exact Nat.le_refl _

theorem after_cons (c : Char) : p.after (c :: cs) = (p.next c).after cs := rfl

theorem lengthOfLines_zero (lines : List (List Char)) : lengthOfLines lines 0 = 0 := by
  cases lines <;> rfl

theorem offset_after_from (hn : n ≤ cs.length) :
    lengthOfLines (cs.splitOn '\n') ((p.after (cs.take n)).line - p.line) +
      (p.after (cs.take n)).character =
        n + if (p.after (cs.take n)).line = p.line then p.character else 0 := by
  induction cs generalizing p n with
  | nil =>
    obtain rfl : n = 0 := by simpa using hn
    simp [after, lengthOfLines]
  | cons c cs ih =>
    cases n with
    | zero => simp [after, lengthOfLines]
    | succ n =>
      have hrest := ih (p := p.next c) (Nat.le_of_succ_le_succ hn)
      have hle := line_le_after (p.next c) (cs.take n)
      rw [List.take_succ_cons, after_cons]
      generalize hq : after (p.next c) (cs.take n) = q at hrest hle ⊢
      rw [next] at hrest hle
      by_cases hc : c = '\n'
      · subst hc
        rw [if_pos rfl] at hrest hle
        simp only [ite_self, Nat.add_zero] at hrest hle
        obtain ⟨k, hk⟩ := Nat.exists_eq_add_of_le hle
        have hline : q.line - p.line = k + 1 := by omega
        have hlater : q.line - (p.line + 1) = k := by omega
        rw [hlater] at hrest
        rw [splitOn_newline, hline, lengthOfLines, if_neg (by omega), List.length_nil]
        omega
      · obtain ⟨line, lines, hlines, hmore⟩ := splitOn_cons hc cs
        rw [hlines] at hrest
        rw [if_neg hc] at hrest hle
        dsimp only at hrest hle
        obtain ⟨k, hk⟩ := Nat.exists_eq_add_of_le hle
        have hline : q.line - p.line = k := by omega
        rw [hline] at hrest
        rw [hmore, hline]
        cases k with
        | zero =>
          have hsame : q.line = p.line := hk
          rw [if_pos hsame, lengthOfLines_zero] at hrest ⊢
          omega
        | succ k =>
          rw [lengthOfLines, if_neg (by omega)] at hrest ⊢
          rw [List.length_cons]
          omega

theorem offset_after (hn : n ≤ cs.length) :
    (after ⟨0, 0⟩ (cs.take n)).offset (cs.splitOn '\n') = n := by
  have h := offset_after_from (p := ⟨0, 0⟩) hn
  rwa [Nat.sub_zero, ite_self, Nat.add_zero] at h

end Place

theorem Edit.apply_whole (text name new : String) :
    Edit.apply ⟨.between (.ofString text name) 0 text.length, new⟩ text = new := by
  have hstart : ((SourceText.ofString text name).position 0).place =
      Place.after ⟨0, 0⟩ (text.toList.take 0) := SourceText.place_position (Nat.zero_le _)
  have hstop : ((SourceText.ofString text name).position text.length).place =
      Place.after ⟨0, 0⟩ (text.toList.take text.length) := SourceText.place_position (Nat.le_refl _)
  have hlength : text.toList.length = text.length := String.length_toList
  simp only [Edit.apply, Extent.between]
  rw [hstart, hstop, Place.offset_after (Nat.zero_le _), Place.offset_after (by omega), ← hlength,
    List.drop_length, List.take_zero, List.nil_append, List.append_nil, String.ofList_toList]

/-- The reading of a text comes to an end. -/
def Terminates (text : String) : Bool :=
  match lex text with
  | .error _ => true
  | .ok tokens =>
    match parse tokens with
    | .error .exhausted => false
    | _ => true

namespace Document

variable {uri text : String} {tokens : List Token} {d : Document}

theorem isSome_read? (uri text : String) : (read? uri text).isSome = Terminates text := by
  unfold Terminates
  cases hlex : lex text with
  | error e => rw [read?_of_lex_error hlex, Option.isSome_some]
  | ok tokens =>
    dsimp only
    cases hparse : parse tokens with
    | ok x => rw [read?_of_parse hlex hparse, Option.isSome_some]
    | error f =>
      rw [read?_of_failure hlex hparse, Option.isSome_map]
      cases f <;> rfl

theorem read?_eq (uri uri' text : String) : read? uri text = read? uri' text := by
  cases hlex : lex text with
  | error e =>
    rw [read?_of_lex_error hlex, read?_of_lex_error hlex]
    rfl
  | ok tokens =>
    cases hparse : parse tokens with
    | ok x => rw [read?_of_parse hlex hparse, read?_of_parse hlex hparse]
    | error f =>
      rw [read?_of_failure hlex hparse, read?_of_failure hlex hparse]
      cases f <;> rfl

theorem read?_cases (h : read? uri text = some d) :
    (∃ tokens m arena, lex text = .ok tokens ∧ parse tokens = .ok (m, arena) ∧
      d = ⟨text, tokens, some m, []⟩) ∨
    (∃ tokens n, (∀ us m arena, lex text = .ok us → parse us ≠ .ok (m, arena)) ∧
      d = ⟨text, tokens, none, [n]⟩) := by
  cases hlex : lex text with
  | error e =>
    rw [read?_of_lex_error hlex] at h
    exact .inr ⟨_, _, nofun, (Option.some.inj h).symm⟩
  | ok tokens =>
    cases hparse : parse tokens with
    | ok x =>
      rw [read?_of_parse hlex hparse] at h
      exact .inl ⟨tokens, x.1, x.2, rfl, hparse, (Option.some.inj h).symm⟩
    | error f =>
      rw [read?_of_failure hlex hparse] at h
      obtain ⟨n, -, rfl⟩ := Option.map_eq_some_iff.mp h
      refine .inr ⟨tokens, n, fun us m arena hus hm => ?_, rfl⟩
      rw [← Except.ok.inj hus, hparse] at hm
      cases hm

theorem read?_notices (h : read? uri text = some d) : (d.notices = [] ↔
    ∃ tokens m arena, lex text = .ok tokens ∧ parse tokens = .ok (m, arena)) ∧
      d.notices.length ≤ 1 := by
  rcases read?_cases h with ⟨tokens, m, arena, hlex, hparse, rfl⟩ | ⟨tokens, n, hnone, rfl⟩
  · exact ⟨⟨fun _ => ⟨tokens, m, arena, hlex, hparse⟩, fun _ => rfl⟩, Nat.zero_le 1⟩
  · exact ⟨⟨nofun, fun ⟨us, m, arena, hlex, hparse⟩ => absurd hparse (hnone us m arena hlex)⟩,
      Nat.le_refl 1⟩

theorem edit_read {e : Edit} (h : read? uri text = some d) (he : d.edit? uri = some e) :
    ∃ tokens, lex text = .ok tokens ∧ (∀ t ∈ tokens, t.kind.isComment = false) ∧
      e.apply text = e.text := by
  rcases read?_cases h with ⟨tokens, m, arena, hlex, -, rfl⟩ | ⟨tokens, n, -, rfl⟩
  · rw [edit?] at he
    dsimp only at he
    split at he
    · cases he
    · rename_i hcomments
      split at he
      · cases he
      · rename_i new hnew
        split at he
        · cases he
        · obtain rfl := Option.some.inj he
          exact ⟨tokens, hlex, by simpa using hcomments, Edit.apply_whole text uri new⟩
  · cases he

end Document

namespace Session

variable {s s' : Session} {uri uri' text : String} {x : Step} {a : Answer}

theorem keep?_eq {d : Document} (s : Session) (hd : Document.read? uri text = some d) :
    s.keep? uri text = some (s.put uri d, .published uri d) := by
  rw [keep?, hd, Option.map_some]

theorem isSome_keep? (s : Session) (uri text : String) : (s.keep? uri text).isSome = Terminates text := by
  rw [keep?, Option.isSome_map, Document.isSome_read?]

def Step.ends : Step → Bool
  | .open _ text => Terminates text
  | .change _ texts => Terminates (texts.getLast?.getD "")
  | .close _ => true
  | .symbols _ => true
  | .format _ => true

theorem isSome_step? (s : Session) (x : Step) : (s.step? x).isSome = x.ends := by
  cases x with
  | «open» uri text => exact isSome_keep? s uri text
  | change uri texts => exact isSome_keep? s uri _
  | close uri => rfl
  | symbols uri => rfl
  | format uri => rfl

/-- The text that a step leaves a document with. -/
def Step.leaves (uri : String) (text? : Option String) : Step → Option String
  | .open u text => if u = uri then some text else text?
  | .change u texts => if u = uri then some (texts.getLast?.getD "") else text?
  | .close u => if u = uri then none else text?
  | .symbols _ => text?
  | .format _ => text?

/-- The text of the last opening or change of a document that was not closed since. -/
def latest? (steps : List Step) (uri : String) : Option String :=
  steps.foldl (Step.leaves uri) none

/-- What a new session answers to a request after it opened a document. -/
def afresh? (uri text : String) (request : Step) : Option Answer :=
  (run [] [.open uri text, request])[1]?

/-- A publication that its text alone decides: with one notice if there is no module, else with none. -/
def Publishes (uri text : String) (a : Answer) : Prop :=
  ∃ d, a = .published uri d ∧ (∀ uri', Document.read? uri' text = some d) ∧
    (d.notices = [] ↔ ∃ tokens m arena, lex text = .ok tokens ∧ parse tokens = .ok (m, arena)) ∧
    d.notices.length ≤ 1

/-- What is to be answered to a step after the steps before it. -/
def Answers (before : List Step) : Step → Answer → Prop
  | .open uri text, a => Publishes uri text a
  | .change uri texts, a => Publishes uri (texts.getLast?.getD "") a
  | .close _, a => a = .closed
  | .symbols uri, a =>
    match latest? before uri with
    | some text => afresh? uri text (.symbols uri) = some a
    | none => a = .symbols []
  | .format uri, a =>
    match latest? before uri with
    | some text => afresh? uri text (.format uri) = some a ∧
      ∀ e, a = .edit (some e) → ∃ tokens, lex text = .ok tokens ∧
        (∀ t ∈ tokens, t.kind.isComment = false) ∧ e.apply text = e.text
    | none => a = .edit none

/-- The session holds of every document what its text is read as. -/
def Reflects (s : Session) (texts : String → Option String) : Prop :=
  ∀ uri, Option.Rel (fun text d => Document.read? uri text = some d) (texts uri) (s.get? uri)

theorem reflects_nil : Reflects [] (latest? []) :=
  fun _ => .none

theorem latest?_append (before : List Step) (x : Step) (uri : String) :
    latest? (before ++ [x]) uri = x.leaves uri (latest? before uri) :=
  List.foldl_append

theorem Reflects.document {texts : String → Option String} (h : Reflects s texts) (uri : String) :
    (texts uri = none ∧ s.get? uri = none) ∨
      ∃ text d, texts uri = some text ∧ s.get? uri = some d ∧ Document.read? uri text = some d := by
  have huri := h uri
  generalize texts uri = text? at huri
  generalize s.get? uri = d? at huri
  cases huri with
  | none => exact .inl ⟨rfl, rfl⟩
  | some hread => exact .inr ⟨_, _, rfl, rfl, hread⟩

theorem keep_answers {texts : String → Option String} (h : Reflects s texts)
    (hkeep : s.keep? uri text = some (s', a)) : Publishes uri text a ∧
      Reflects s' fun uri' => if uri = uri' then some text else texts uri' := by
  obtain ⟨d, hd, hanswer⟩ := Option.map_eq_some_iff.mp hkeep
  obtain ⟨rfl, rfl⟩ := Prod.mk.inj hanswer
  have hsame : ∀ uri', Document.read? uri' text = some d := fun uri' =>
    (Document.read?_eq uri' uri text).trans hd
  refine ⟨⟨d, rfl, hsame, Document.read?_notices hd⟩, fun uri' => ?_⟩
  rw [Dictionary.get?_put]
  dsimp only
  split
  · exact .some (hsame uri')
  · exact h uri'

theorem erase_reflects {texts : String → Option String} (h : Reflects s texts) (uri : String) :
    Reflects (s.erase uri) fun uri' => if uri = uri' then none else texts uri' := by
  intro uri'
  rw [Dictionary.get?_erase]
  dsimp only
  split
  · exact .none
  · exact h uri'

theorem afresh?_eq {d : Document} {request : Step} (h : Document.read? uri text = some d) :
    afresh? uri text request = (step? [(uri, d)] request).map (·.2) := by
  have hopen : step? [] (.open uri text) = some ([(uri, d)], .published uri d) :=
    keep?_eq [] h
  rw [afresh?, run, hopen]
  dsimp only
  rw [run]
  cases step? [(uri, d)] request <;> rfl

theorem afresh?_symbols {d : Document} (h : Document.read? uri text = some d) :
    afresh? uri text (.symbols uri) = some (.symbols (d.symbols uri)) := by
  rw [afresh?_eq h]
  simp [step?, Dictionary.get?]

theorem afresh?_format {d : Document} (h : Document.read? uri text = some d) :
    afresh? uri text (.format uri) = some (.edit (d.edit? uri)) := by
  rw [afresh?_eq h]
  simp [step?, Dictionary.get?]

/-- One step answers as it should, and the session goes on to reflect what it was told. -/
theorem step_answers {before : List Step} (h : Reflects s (latest? before))
    (hstep : s.step? x = some (s', a)) :
    Answers before x a ∧ Reflects s' (latest? (before ++ [x])) := by
  have hleaves : latest? (before ++ [x]) = fun uri => x.leaves uri (latest? before uri) :=
    funext (latest?_append before x)
  rw [hleaves]
  cases x with
  | «open» uri text => exact keep_answers h hstep
  | change uri texts => exact keep_answers h hstep
  | close uri =>
    obtain ⟨rfl, rfl⟩ := Prod.mk.inj (Option.some.inj hstep)
    exact ⟨rfl, erase_reflects h uri⟩
  | symbols uri =>
    obtain ⟨rfl, rfl⟩ := Prod.mk.inj (Option.some.inj hstep)
    refine ⟨?_, h⟩
    rcases h.document uri with ⟨hlatest, hget⟩ | ⟨text, d, hlatest, hget, hread⟩
    · rw [Answers, hlatest, hget]
      rfl
    · rw [Answers, hlatest, hget]
      exact afresh?_symbols hread
  | format uri =>
    obtain ⟨rfl, rfl⟩ := Prod.mk.inj (Option.some.inj hstep)
    refine ⟨?_, h⟩
    rcases h.document uri with ⟨hlatest, hget⟩ | ⟨text, d, hlatest, hget, hread⟩
    · rw [Answers, hlatest, hget]
      rfl
    · rw [Answers, hlatest, hget]
      exact ⟨afresh?_format hread, fun e he => Document.edit_read hread (Answer.edit.inj he)⟩

theorem run_answers_from {before : List Step} (h : Reflects s (latest? before)) (steps : List Step) :
    (s.run steps).length = (steps.takeWhile Step.ends).length ∧ ∀ i x a, steps[i]? = some x →
      (s.run steps)[i]? = some a → Answers (before ++ steps.take i) x a := by
  -- Over every past: after a step the session reflects a past that is longer by it.
  induction steps generalizing s before with
  | nil => exact ⟨rfl, fun i x a hx => by cases i <;> cases hx⟩
  | cons y steps ih =>
    have hsome := isSome_step? s y
    cases hstep : s.step? y with
    | none =>
      rw [hstep, Option.isSome_none] at hsome
      rw [run, hstep, List.takeWhile_cons_of_neg (by simp [← hsome])]
      exact ⟨rfl, nofun⟩
    | some answered =>
      rw [hstep, Option.isSome_some] at hsome
      rw [run, hstep, List.takeWhile_cons_of_pos hsome.symm]
      obtain ⟨hanswer, hreflects⟩ := step_answers h hstep
      obtain ⟨hlength, hanswers⟩ := ih hreflects
      refine ⟨congrArg Nat.succ hlength, fun i x a hx ha => ?_⟩
      cases i with
      | zero =>
        obtain rfl := Option.some.inj hx
        obtain rfl := Option.some.inj ha
        rwa [List.take_zero, List.append_nil]
      | succ i =>
        have hlater := hanswers i x a hx ha
        rwa [List.append_assoc, List.singleton_append] at hlater

/-- A session answers the steps before the first that tells it a text without end, and no others,
each as the steps before it require. -/
theorem run_answers (steps : List Step) :
    (run [] steps).length = (steps.takeWhile Step.ends).length ∧
      ∀ i x a, steps[i]? = some x → (run [] steps)[i]? = some a → Answers (steps.take i) x a :=
  run_answers_from reflects_nil steps

/-- Two documents of which one is changed twice, opened again after it was closed, and formatted; the
text that is told last has no end. -/
def interleaved : List Step :=
  [.open "a" "constant A is", .open "b" "x", .change "a" [], .close "a", .change "b" ["", "y"],
    .open "a" "constant  A is 1\n", .symbols "b", .format "a", .open "b" "constant A is a.b::c\n",
    .symbols "a"]

theorem run_answers_interleaved :
    ((run [] interleaved)[7]?.bind fun | .edit e => e.map (·.text) | _ => none) =
        some "constant A is 1\n" ∧
      (∃ a, (run [] interleaved)[7]? = some a ∧ Answers (interleaved.take 7) (.format "a") a) ∧
        (run [] interleaved).length = 8 := by
  obtain ⟨hlength, hanswers⟩ := run_answers interleaved
  have hends : (interleaved.takeWhile Step.ends).length = 8 := by decide +kernel
  rw [hends] at hlength
  have ha := List.getElem?_eq_getElem (l := run [] interleaved) (i := 7) (by omega)
  exact ⟨by decide +kernel, ⟨_, ha, hanswers 7 _ _ rfl ha⟩, hlength⟩

end Session

end Whiley
