import Mathlib.Data.List.Forall2
import Whiley.Proofs.Text.Quoted
import Whiley.Proofs.Tree.Same
import Whiley.Proofs.Tree.Shape
import Whiley.Tree.Dump

/-!
Inset text is read back in one way. The line of a node is followed by deeper lines up to the
next node beside it, and a content is told by the name that its line begins with; so outlines that
keep to their shapes and are written alike are the same.
-/

namespace Whiley

theorem append_inj_of_stop {α : Type} {P : α → Prop} {as bs cs ds : List α} (has : ∀ a ∈ as, P a)
    (hbs : ∀ b ∈ bs, P b) (hcs : ∀ c ∈ cs.head?, ¬ P c) (hds : ∀ d ∈ ds.head?, ¬ P d)
    (h : as ++ cs = bs ++ ds) : as = bs ∧ cs = ds := by
  induction as generalizing bs with
  | nil =>
    cases bs with
    | nil => exact ⟨rfl, h⟩
    | cons b bs => exact absurd (hbs b List.mem_cons_self) (hcs b (congrArg List.head? h))
  | cons a as ih =>
    cases bs with
    | nil => exact absurd (has a List.mem_cons_self) (hds a (congrArg List.head? h.symm))
    | cons b bs =>
      obtain ⟨rfl, htail⟩ := List.cons.inj h
      obtain ⟨rfl, hafter⟩ := ih (fun x hx => has x (List.mem_cons_of_mem a hx))
        (fun x hx => hbs x (List.mem_cons_of_mem a hx)) htail
      exact ⟨rfl, hafter⟩

theorem append_mark_inj {α : Type} {mark : α} {as bs cs ds : List α} (has : mark ∉ as)
    (hbs : mark ∉ bs) (h : as ++ mark :: cs = bs ++ mark :: ds) : as = bs ∧ cs = ds := by
  have hfront : ∀ {es : List α}, mark ∉ es → ∀ e ∈ es, e ≠ mark := fun hes e he heq =>
    hes (heq ▸ he)
  have hstop : ∀ es : List α, ∀ e ∈ (mark :: es).head?, ¬ e ≠ mark := by simp
  obtain ⟨hfront, htail⟩ :=
    append_inj_of_stop (hfront has) (hfront hbs) (hstop cs) (hstop ds) h
  exact ⟨hfront, (List.cons.inj htail).2⟩

def margin (line : String) : Nat :=
  (line.toList.takeWhile (· = ' ')).length

/-- A whole line at a depth, or deeper. -/
structure Inset (depth : Nat) (line : String) : Prop where
  margin_le : 2 * depth ≤ margin line
  whole : '\n' ∉ line.toList

theorem Inset.mono {d e : Nat} {line : String} (h : Inset e line) (hde : d ≤ e) :
    Inset d line :=
  ⟨Nat.le_trans (Nat.mul_le_mul_left 2 hde) h.margin_le, h.whole⟩

/-- Text that can stand in a line, and does not begin with a blank. -/
structure Unindented (text : String) : Prop where
  head : text.toList.head? ≠ some ' '
  whole : '\n' ∉ text.toList

theorem letter_of_isWord {s : String} (h : isWord s) {c : Char} (hc : c ∈ s.toList) :
    c ≠ ' ' ∧ c ≠ ':' ∧ c ≠ '\n' := by
  have hletter := List.all_eq_true.mp h c hc
  refine ⟨?_, ?_, ?_⟩ <;> rintro rfl <;> exact absurd hletter (by decide)

theorem unindented_of_isWord {s : String} (h : isWord s) : Unindented s :=
  ⟨fun hhead => (letter_of_isWord h (List.mem_of_mem_head? hhead)).1 rfl,
    fun hmem => (letter_of_isWord h hmem).2.2 rfl⟩

section Lines

variable {d : Nat} {s t : String}

theorem toList_dumpLine : (dumpLine d t).toList = List.replicate (2 * d) ' ' ++ t.toList := by
  rw [dumpLine, String.toList_append, String.toList_ofList]

theorem dumpLine_injective (h : dumpLine d s = dumpLine d t) : s = t := by
  have hchars := congrArg String.toList h
  rw [toList_dumpLine, toList_dumpLine] at hchars
  exact String.toList_injective (List.append_cancel_left hchars)

theorem margin_dumpLine (h : t.toList.head? ≠ some ' ') : margin (dumpLine d t) = 2 * d := by
  have hstop : t.toList.takeWhile (· = ' ') = [] := by
    cases hcs : t.toList with
    | nil => rfl
    | cons c cs =>
      rw [hcs] at h
      exact List.takeWhile_cons_of_neg (by simpa using h)
  rw [margin, toList_dumpLine, List.takeWhile_append_of_pos (by simp), hstop]
  simp

theorem inset_dumpLine (h : Unindented t) : Inset d (dumpLine d t) := by
  refine ⟨Nat.le_of_eq (margin_dumpLine h.head).symm, ?_⟩
  rw [toList_dumpLine]
  simpa using h.whole

end Lines

/-! ### Paragraphs -/

/-- A line, and deeper lines after it. -/
inductive Paragraph (d : Nat) : List String → Prop
  | lines {text : String} {rest : List String} (htext : Unindented text)
    (hrest : ∀ s ∈ rest, Inset (d + 1) s) : Paragraph d (dumpLine d text :: rest)

def Ends (d : Nat) (lines : List String) : Prop :=
  ∀ s ∈ lines.head?, margin s ≤ 2 * d

section Paragraphs

variable {d : Nat} {b b' rest rest' : List String}

theorem Paragraph.inset (h : Paragraph d b) : ∀ s ∈ b, Inset d s := by
  cases h with
  | lines htext hrest =>
    intro s hs
    rcases List.mem_cons.mp hs with rfl | hs
    · exact inset_dumpLine htext
    · exact (hrest s hs).mono (Nat.le_succ d)

theorem Paragraph.ends (h : Paragraph d b) : Ends d (b ++ rest) := by
  cases h with
  | lines htext hrest =>
    intro s hs
    obtain rfl := Option.some.inj hs
    exact Nat.le_of_eq (margin_dumpLine htext.head)

theorem Ends.not_deeper (h : Ends d rest) : ∀ s ∈ rest.head?, ¬ Inset (d + 1) s := by
  intro s hs hdeep
  have hshallow := h s hs
  have hmargin := hdeep.margin_le
  omega

theorem Paragraph.append_inj (h : Paragraph d b) (h' : Paragraph d b') (hrest : Ends d rest)
    (hrest' : Ends d rest') (heq : b ++ rest = b' ++ rest') : b = b' ∧ rest = rest' := by
  cases h with
  | lines _ hlines =>
    cases h' with
    | lines _ hlines' =>
      obtain ⟨hfirst, htail⟩ := List.cons.inj heq
      obtain ⟨rfl, hrests⟩ :=
        append_inj_of_stop hlines hlines' hrest.not_deeper hrest'.not_deeper htail
      exact ⟨by rw [hfirst], hrests⟩

end Paragraphs

/-! ### Contents -/

inductive Headed (d : Nat) (name : String) : List String → Prop
  | nothing : Headed d name []
  | lines {text : String} (cs : List Char) {rest : List String}
    (htext : text.toList = name.toList ++ ':' :: cs) (hwhole : '\n' ∉ cs)
    (hrest : ∀ s ∈ rest, Inset (d + 1) s) : Headed d name (dumpLine d text :: rest)

section Headed

variable {d : Nat} {name text : String} {ls : List String}

theorem unindented_heading {cs : List Char} (hname : isWord name)
    (htext : text.toList = name.toList ++ ':' :: cs) (hwhole : '\n' ∉ cs) : Unindented text := by
  have hword := unindented_of_isWord hname
  refine ⟨?_, ?_⟩
  · rw [htext, List.head?_append]
    cases hhead : name.toList.head? with
    | none => simp
    | some c => exact fun hc => hword.head (hhead.trans hc)
  · rw [htext]
    simp [hword.whole, hwhole]

theorem Headed.paragraph (h : Headed d name ls) (hname : isWord name) (hne : ls ≠ []) :
    Paragraph d ls := by
  cases h with
  | nothing => exact absurd rfl hne
  | lines cs htext hwhole hrest => exact .lines (unindented_heading hname htext hwhole) hrest

theorem Headed.inset (h : Headed d name ls) (hname : isWord name) : ∀ s ∈ ls, Inset d s := by
  rcases eq_or_ne ls [] with rfl | hne
  · exact fun s hs => absurd hs List.not_mem_nil
  · exact (h.paragraph hname hne).inset

theorem name_of_heading {name' : String} {cs cs' : List Char} (hname : isWord name)
    (hname' : isWord name') (h : name.toList ++ ':' :: cs = name'.toList ++ ':' :: cs') :
    name = name' := by
  have hcolon : ∀ {n : String}, isWord n → ':' ∉ n.toList := fun hn hmem =>
    (letter_of_isWord hn hmem).2.1 rfl
  exact String.toList_injective (append_mark_inj (hcolon hname) (hcolon hname') h).1

theorem headed_value {value : String} (hvalue : '\n' ∉ value.toList) :
    Headed d name [dumpLine d (name ++ ": " ++ value)] := by
  refine .lines (' ' :: value.toList) ?_ ?_ (by simp)
  · simp [String.toList_append]
  · simp [hvalue]

theorem headed_list {items : List String} (h : ∀ s ∈ items, Inset (d + 1) s) :
    Headed d name (dumpList d name items) := by
  unfold dumpList
  split
  · exact .lines [' ', '[', ']'] (by simp [String.toList_append]) (by decide) (by simp)
  · exact .lines [] (by simp [String.toList_append]) (by decide) h

end Headed

theorem dumpList_injective {d : Nat} {name : String} {items items' : List String}
    (h : dumpList d name items = dumpList d name items') : items = items' := by
  unfold dumpList at h
  split at h <;> split at h
  · rename_i hnil hnil'
    rw [List.isEmpty_iff.mp hnil, List.isEmpty_iff.mp hnil']
  · rename_i _ hne
    exact absurd (List.isEmpty_iff.mpr (List.cons.inj h).2.symm) hne
  · rename_i hne _
    exact absurd (List.isEmpty_iff.mpr (List.cons.inj h).2) hne
  · exact (List.cons.inj h).2

theorem dumpList_ne_nil {d : Nat} {name : String} {items : List String} :
    dumpList d name items ≠ [] := by
  unfold dumpList
  split <;> exact List.cons_ne_nil _ _

/-! ### Values -/

theorem dumpValue_injective {d : Nat} {name value value' : String}
    (h : [dumpLine d (name ++ ": " ++ value)] = [dumpLine d (name ++ ": " ++ value')]) :
    value = value' := by
  have hchars := congrArg String.toList (dumpLine_injective (List.singleton_inj.mp h))
  rw [String.toList_append, String.toList_append (t := value')] at hchars
  exact String.toList_injective (List.append_cancel_left hchars)

theorem flag_injective {b b' : Bool}
    (h : (if b then "True" else "False") = if b' then "True" else "False") : b = b' := by
  revert h
  decide +revert

theorem newline_not_mem_toString (n : Nat) : '\n' ∉ (toString n).toList := by
  intro h
  have hdigits : '\n' ∈ Nat.toDigits 10 n := by simpa using h
  exact absurd (Nat.isDigit_of_mem_toDigits (by decide) (by decide) hdigits) (by decide)

theorem toString_injective {m n : Nat} (h : toString m = toString n) : m = n := by
  have hdigits : Nat.toDigits 10 m = Nat.toDigits 10 n := by
    simpa using congrArg String.toList h
  have hvalues := congrArg (fun cs => Nat.ofDigitChars 10 cs 0) hdigits
  simpa using hvalues

theorem dumpWords_injective {d : Nat} {ws ws' : List String}
    (h : (ws.map fun w => dumpLine d ("str: " ++ Text.quoted w)) =
      ws'.map fun w => dumpLine d ("str: " ++ Text.quoted w)) : ws = ws' := by
  refine List.map_injective_iff.mpr (fun w w' hline => ?_) h
  have hchars := congrArg String.toList (dumpLine_injective hline)
  rw [String.toList_append, String.toList_append (t := Text.quoted w')] at hchars
  exact Text.quoted_injective (String.toList_injective (List.append_cancel_left hchars))

/-! ### Outlines as paragraphs -/

theorem isWord_of_lookup {label : String} {shape : List (String × Slot)}
    (h : shapes.lookup label = some shape) :
    isWord label ∧ (∀ f ∈ shape, isWord f.1) ∧ (shape.map (·.1)).Nodup := by
  obtain ⟨before, after, hsplit, -⟩ := List.lookup_eq_some_iff.mp h
  exact shapes_legible (label, shape) (by simp [hsplit])

theorem inset_words (d : Nat) (ws : List String) :
    ∀ s ∈ ws.map fun w => dumpLine d ("str: " ++ Text.quoted w), Inset d s := by
  intro s hs
  obtain ⟨w, -, rfl⟩ := List.mem_map.mp hs
  refine inset_dumpLine ⟨?_, ?_⟩
  · simp [String.toList_append]
  · simp [String.toList_append, Text.newline_not_mem_quoted]

mutual

theorem Outline.paragraph (d : Nat) : ∀ o : Outline, o.Fits → Paragraph d (o.dump d)
  | .node _ _ es, ⟨_, hshape, hes⟩ =>
    have hlegible := isWord_of_lookup hshape
    .lines (unindented_of_isWord hlegible.1) (Outline.inset_entries (d + 1) es hes hlegible.2.1)

theorem Outline.inset_entries (d : Nat) : ∀ (es : List Entry) {shape : List (String × Slot)},
    Outline.FitEntries es shape → (∀ f ∈ shape, isWord f.1) →
      ∀ s ∈ Outline.dumpEntries d es, Inset d s
  | [], _, _, _, _, hs => absurd hs List.not_mem_nil
  | .mk _ c :: es, _ :: shape, ⟨⟨rfl, hc⟩, hes⟩, hwords, s, hs => by
    rcases List.mem_append.mp hs with hs | hs
    · exact (Content.headed d c hc).inset (hwords _ List.mem_cons_self) s hs
    · have hrest : ∀ f ∈ shape, isWord f.1 := fun f hf => hwords f (List.mem_cons_of_mem _ hf)
      exact Outline.inset_entries d es hes hrest s hs

theorem Content.headed (d : Nat) {name : String} : ∀ (c : Content) {slot : Slot}, c.Fits slot →
    Headed d name (c.dump d name)
  | .absent, _, _ => .nothing
  | .link _, _, _ => .nothing
  | .text s, _, _ => headed_value (Text.newline_not_mem_quoted s)
  | .flag b, _, _ => headed_value (by cases b <;> decide)
  | .number n, _, _ => headed_value (newline_not_mem_toString n)
  | .bytes bs, _, _ => headed_value (Text.newline_not_mem_quotedBytes bs)
  | .words ws, _, _ => headed_list (inset_words (d + 1) ws)
  | .child o, .node, ho => by
    refine .lines [] (by simp [String.toList_append]) (by decide) ?_
    exact (Outline.paragraph (d + 1) o ho).inset
  | .children os, .nodes, hos => headed_list (Outline.inset_nodes (d + 1) os hos)
  | .pairs os, .pairs, hos => headed_list (Outline.inset_nodes (d + 1) os hos)

theorem Outline.inset_nodes (d : Nat) : ∀ os : List Outline, Outline.AllFit os →
    ∀ s ∈ Outline.dumpNodes d os, Inset d s
  | [], _, _, hs => absurd hs List.not_mem_nil
  | o :: os, ⟨ho, hos⟩, s, hs => by
    rcases List.mem_append.mp hs with hs | hs
    · exact (Outline.paragraph d o ho).inset s hs
    · exact Outline.inset_nodes d os hos s hs

end

theorem Outline.ends_nodes (d : Nat) {os : List Outline} (h : AllFit os) :
    Ends d (dumpNodes d os) := by
  cases os with
  | nil => exact fun s hs => nomatch hs
  | cons o os => exact (o.paragraph d h.1).ends

theorem Outline.dumpNodes_ne_nil (d : Nat) {o : Outline} {os : List Outline} :
    dumpNodes d (o :: os) ≠ [] := by
  obtain ⟨l, m, es⟩ := o
  exact List.cons_ne_nil _ _

theorem Outline.head_entries {d : Nat} {es : List Entry} {shape : List (String × Slot)}
    (hfit : FitEntries es shape) : ∀ s ∈ (dumpEntries d es).head?, ∃ f ∈ shape,
      ∃ text cs, s = dumpLine d text ∧ text.toList = f.1.toList ++ ':' :: cs ∧ '\n' ∉ cs := by
  induction es generalizing shape with
  | nil => exact fun s hs => nomatch hs
  | cons e es ih =>
    obtain ⟨name, c⟩ := e
    cases shape with
    | nil => exact hfit.elim
    | cons f shape =>
      obtain ⟨⟨rfl, hc⟩, hes⟩ := hfit
      intro s hs
      have hheaded : Headed d f.1 (c.dump d f.1) := c.headed d hc
      rw [dumpEntries, Entry.dump] at hs
      generalize c.dump d f.1 = ls at hheaded hs
      cases hheaded with
      | nothing =>
        obtain ⟨g, hg, htext⟩ := ih hes s hs
        exact ⟨g, List.mem_cons_of_mem _ hg, htext⟩
      | lines cs htext hwhole hrest =>
        obtain rfl := Option.some.inj hs
        exact ⟨_, List.mem_cons_self, _, _, rfl, htext, hwhole⟩

theorem Outline.ends_entries {d : Nat} {es : List Entry} {shape : List (String × Slot)}
    (hfit : FitEntries es shape) (hwords : ∀ f ∈ shape, isWord f.1) :
    Ends d (dumpEntries d es) := by
  intro s hs
  obtain ⟨f, hf, text, cs, rfl, htext, hwhole⟩ := head_entries hfit s hs
  exact Nat.le_of_eq (margin_dumpLine (unindented_heading (hwords f hf) htext hwhole).head)

theorem Headed.ne_entries {d : Nat} {name : String} {ls rest : List String} {es : List Entry}
    {shape : List (String × Slot)} (h : Headed d name ls) (hne : ls ≠ [])
    (hfit : Outline.FitEntries es shape) (hwords : ∀ f ∈ shape, isWord f.1) (hname : isWord name)
    (hnew : name ∉ shape.map (·.1)) : ls ++ rest ≠ Outline.dumpEntries d es := by
  intro heq
  cases h with
  | nothing => exact hne rfl
  | lines _ htext =>
    obtain ⟨f, hf, text, cs, hline, htext', -⟩ :=
      Outline.head_entries hfit _ (congrArg List.head? heq.symm)
    obtain rfl := dumpLine_injective hline
    have hsame := name_of_heading hname (hwords f hf) (htext.symm.trans htext')
    exact hnew (hsame ▸ List.mem_map_of_mem hf)

theorem Headed.split {d : Nat} {name : String} {ls ls' : List String} {es es' : List Entry}
    {shape : List (String × Slot)} (h : Headed d name ls) (h' : Headed d name ls')
    (hfit : Outline.FitEntries es shape) (hfit' : Outline.FitEntries es' shape)
    (hwords : ∀ f ∈ shape, isWord f.1) (hname : isWord name) (hnew : name ∉ shape.map (·.1))
    (heq : ls ++ Outline.dumpEntries d es = ls' ++ Outline.dumpEntries d es') :
    ls = ls' ∧ Outline.dumpEntries d es = Outline.dumpEntries d es' := by
  rcases eq_or_ne ls [] with rfl | hne <;> rcases eq_or_ne ls' [] with rfl | hne'
  · exact ⟨rfl, heq⟩
  · exact absurd heq.symm (h'.ne_entries hne' hfit hwords hname hnew)
  · exact absurd heq (h.ne_entries hne hfit' hwords hname hnew)
  · exact (h.paragraph hname hne).append_inj (h'.paragraph hname hne')
      (Outline.ends_entries hfit hwords) (Outline.ends_entries hfit' hwords) heq

mutual

theorem Outline.same_of_dump : ∀ (o : Outline) {o' : Outline} {d : Nat}, o.Fits → o'.Fits →
    o.dump d = o'.dump d → o.same o'
  | .node _ _ es, .node _ _ _, _, ⟨_, hshape, hes⟩, ⟨_, hshape', hes'⟩, h => by
    obtain ⟨hline, hentries⟩ := List.cons.inj h
    obtain rfl := dumpLine_injective hline
    obtain rfl := Option.some.inj (hshape.symm.trans hshape')
    obtain ⟨-, hwords, hnodup⟩ := isWord_of_lookup hshape
    exact Outline.same_node.mpr (Outline.sameEntries_of_dump es hes hes' hwords hnodup hentries)
termination_by structural o => o

theorem Outline.sameEntries_of_dump : ∀ (es : List Entry) {es' : List Entry} {d : Nat}
    {shape : List (String × Slot)}, Outline.FitEntries es shape → Outline.FitEntries es' shape →
    (∀ f ∈ shape, isWord f.1) → (shape.map (·.1)).Nodup →
    Outline.dumpEntries d es = Outline.dumpEntries d es' → Outline.sameEntries es es'
  | [], [], _, _, _, _, _, _, _ => rfl
  | [], _ :: _, _, [], _, hes', _, _, _ => hes'.elim
  | [], _ :: _, _, _ :: _, hes, _, _, _, _ => hes.elim
  | _ :: _, [], _, [], hes, _, _, _, _ => hes.elim
  | _ :: _, [], _, _ :: _, _, hes', _, _, _ => hes'.elim
  | .mk _ c :: es, .mk _ c' :: _, d, _ :: shape, ⟨⟨rfl, hc⟩, hes⟩, ⟨⟨rfl, hc'⟩, hes'⟩,
      hwords, hnodup, h => by
    have hname := hwords _ List.mem_cons_self
    have hwords' : ∀ f ∈ shape, isWord f.1 := fun f hf => hwords f (List.mem_cons_of_mem _ hf)
    obtain ⟨hnew, hnodup'⟩ := List.nodup_cons.mp hnodup
    obtain ⟨hfirst, hrest⟩ :=
      (c.headed d hc).split (c'.headed d hc') hes hes' hwords' hname hnew h
    exact Outline.sameEntries_cons.mpr ⟨Content.same_of_dump c hc hc' hfirst,
      Outline.sameEntries_of_dump es hes hes' hwords' hnodup' hrest⟩
termination_by structural es => es

theorem Content.same_of_dump : ∀ (c : Content) {c' : Content} {d : Nat} {name : String}
    {slot : Slot}, c.Fits slot → c'.Fits slot → c.dump d name = c'.dump d name → c.same c'
  | .absent, .absent, _, _, _, _, _, _ => rfl
  | .link _, .link _, _, _, _, _, _, _ => rfl
  | .text _, .text _, _, _, _, _, _, h =>
    decide_eq_true (Text.quoted_injective (dumpValue_injective h))
  | .flag _, .flag _, _, _, _, _, _, h =>
    decide_eq_true (flag_injective (dumpValue_injective h))
  | .number _, .number _, _, _, _, _, _, h =>
    decide_eq_true (toString_injective (dumpValue_injective h))
  | .bytes _, .bytes _, _, _, _, _, _, h =>
    decide_eq_true (Text.quotedBytes_injective (dumpValue_injective h))
  | .words _, .words _, _, _, _, _, _, h =>
    decide_eq_true (dumpWords_injective (dumpList_injective h))
  | .absent, .child _, _, _, .node, _, _, h => nomatch h
  | .child _, .absent, _, _, .node, _, _, h => nomatch h
  | .absent, .children _, _, _, .nodes, _, _, h => absurd h.symm dumpList_ne_nil
  | .children _, .absent, _, _, .nodes, _, _, h => absurd h dumpList_ne_nil
  | .child o, .child _, _, _, .node, ho, ho', h =>
    Outline.same_of_dump o ho ho' (List.cons.inj h).2
  | .children os, .children _, _, _, .nodes, hos, hos', h =>
    Outline.sameNodes_of_dump os hos hos' (dumpList_injective h)
  | .pairs os, .pairs _, _, _, .pairs, hos, hos', h =>
    Outline.sameNodes_of_dump os hos hos' (dumpList_injective h)
termination_by structural c => c

theorem Outline.sameNodes_of_dump : ∀ (os : List Outline) {os' : List Outline} {d : Nat},
    Outline.AllFit os → Outline.AllFit os' →
    Outline.dumpNodes d os = Outline.dumpNodes d os' → Outline.sameNodes os os'
  | [], [], _, _, _, _ => rfl
  | [], _ :: _, d, _, _, h => absurd h.symm (Outline.dumpNodes_ne_nil d)
  | _ :: _, [], d, _, _, h => absurd h (Outline.dumpNodes_ne_nil d)
  | o :: os, o' :: _, d, ⟨ho, hos⟩, ⟨ho', hos'⟩, h => by
    obtain ⟨hfirst, hrest⟩ := (o.paragraph d ho).append_inj (o'.paragraph d ho')
      (Outline.ends_nodes d hos) (Outline.ends_nodes d hos') h
    rw [Outline.sameNodes, Bool.and_eq_true]
    exact ⟨Outline.same_of_dump o ho ho' hfirst, Outline.sameNodes_of_dump os hos hos' hrest⟩
termination_by structural os => os

end

mutual

theorem Outline.dump_of_same : ∀ (o : Outline) {o' : Outline} (d : Nat), o.same o' →
    o.dump d = o'.dump d
  | .node _ _ es, .node _ _ _, d, h => by
    obtain ⟨hlabel, hentries⟩ := (Bool.and_eq_true _ _).mp h
    rw [Outline.dump, Outline.dump, of_decide_eq_true hlabel,
      Outline.dumpEntries_of_same es (d + 1) hentries]
termination_by structural o => o

theorem Outline.dumpEntries_of_same : ∀ (es : List Entry) {es' : List Entry} (d : Nat),
    Outline.sameEntries es es' → Outline.dumpEntries d es = Outline.dumpEntries d es'
  | [], [], _, _ => rfl
  | .mk _ c :: es, .mk _ _ :: _, d, h => by
    obtain ⟨hentry, hentries⟩ := (Bool.and_eq_true _ _).mp h
    obtain ⟨hname, hcontent⟩ := (Bool.and_eq_true _ _).mp hentry
    obtain rfl := of_decide_eq_true hname
    rw [Outline.dumpEntries, Outline.dumpEntries, Entry.dump, Entry.dump,
      Content.dump_of_same c d hcontent, Outline.dumpEntries_of_same es d hentries]
termination_by structural es => es

theorem Content.dump_of_same : ∀ (c : Content) {c' : Content} (d : Nat) {name : String},
    c.same c' → c.dump d name = c'.dump d name
  | .absent, .absent, _, _, _ => rfl
  | .link _, .link _, _, _, _ => rfl
  | .text _, .text _, _, _, h => congrArg (Content.dump _ _ <| .text ·) (of_decide_eq_true h)
  | .flag _, .flag _, _, _, h => congrArg (Content.dump _ _ <| .flag ·) (of_decide_eq_true h)
  | .number _, .number _, _, _, h =>
    congrArg (Content.dump _ _ <| .number ·) (of_decide_eq_true h)
  | .bytes _, .bytes _, _, _, h => congrArg (Content.dump _ _ <| .bytes ·) (of_decide_eq_true h)
  | .words _, .words _, _, _, h => congrArg (Content.dump _ _ <| .words ·) (of_decide_eq_true h)
  | .child o, .child _, d, _, h => congrArg (List.cons _) (Outline.dump_of_same o (d + 1) h)
  | .children os, .children _, d, name, h =>
    congrArg (dumpList d name) (Outline.dumpNodes_of_same os (d + 1) h)
  | .pairs os, .pairs _, d, name, h =>
    congrArg (dumpList d name) (Outline.dumpNodes_of_same os (d + 1) h)
termination_by structural c => c

theorem Outline.dumpNodes_of_same : ∀ (os : List Outline) {os' : List Outline} (d : Nat),
    Outline.sameNodes os os' → Outline.dumpNodes d os = Outline.dumpNodes d os'
  | [], [], _, _ => rfl
  | o :: os, _ :: _, d, h => by
    obtain ⟨hfirst, hrest⟩ := (Bool.and_eq_true _ _).mp h
    rw [Outline.dumpNodes, Outline.dumpNodes, Outline.dump_of_same o d hfirst,
      Outline.dumpNodes_of_same os d hrest]
termination_by structural os => os

end

theorem lines_of_join {ls ls' : List String} (h : ∀ s ∈ ls, '\n' ∉ s.toList)
    (h' : ∀ s ∈ ls', '\n' ∉ s.toList)
    (heq : String.join (ls.map (· ++ "\n")) = String.join (ls'.map (· ++ "\n"))) : ls = ls' := by
  have hjoin : ∀ (s : String) (rest : List String),
      (String.join ((s :: rest).map (· ++ "\n"))).toList =
        s.toList ++ '\n' :: (String.join (rest.map (· ++ "\n"))).toList := by
    simp [String.toList_append]
  have hnil : ∀ (s : String) (rest : List String),
      String.join ([].map (· ++ "\n")) ≠ String.join ((s :: rest).map (· ++ "\n")) := by
    intro s rest hempty
    have hchars := (congrArg String.toList hempty).trans (hjoin s rest)
    simp at hchars
  induction ls generalizing ls' with
  | nil =>
    cases ls' with
    | nil => rfl
    | cons s' ls' => exact absurd heq (hnil s' ls')
  | cons s ls ih =>
    cases ls' with
    | nil => exact absurd heq.symm (hnil s ls)
    | cons s' ls' =>
      have hchars := (hjoin s ls).symm.trans ((congrArg String.toList heq).trans (hjoin s' ls'))
      obtain ⟨hline, hrest⟩ :=
        append_mark_inj (h s List.mem_cons_self) (h' s' List.mem_cons_self) hchars
      rw [String.toList_injective hline, ih (fun x hx => h x (List.mem_cons_of_mem s hx))
        (fun x hx => h' x (List.mem_cons_of_mem s' hx)) (String.toList_injective hrest)]

/-- Modules are written alike exactly when they are the same. -/
theorem Module.dump_eq_iff_same (m m' : Module) : m.dump = m'.dump ↔ m.same m' := by
  have hwhole : ∀ m : Module, ∀ s ∈ m.outline.dump 0, '\n' ∉ s.toList := fun m s hs =>
    ((m.outline.paragraph 0 m.fits).inset s hs).whole
  constructor
  · exact fun h =>
      m.outline.same_of_dump m.fits m'.fits (lines_of_join (hwhole m) (hwhole m') h)
  · intro h
    rw [Module.dump, Module.dump, m.outline.dump_of_same 0 h]

end Whiley
