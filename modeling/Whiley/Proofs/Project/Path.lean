import Whiley.Project.Path

namespace Whiley

theorem slashPieces_eq (cs : List Char) : slashPieces cs = cs.splitOn '/' := by
  induction cs with
  | nil => rfl
  | cons c cs ih =>
    have hne := List.splitOnP_ne_nil (· == '/') cs
    rw [slashPieces, ih, List.splitOn, List.splitOn, List.splitOnP_cons_eq_if_modifyHead]
    by_cases hc : c = '/'
    · rw [if_pos hc, if_pos (beq_iff_eq.mpr hc)]
    · rw [if_neg hc, if_neg (by simpa using hc)]
      cases hpieces : cs.splitOnP (· == '/') with
      | nil => exact absurd hpieces hne
      | cons piece pieces => rfl

theorem slash_not_mem_piece {cs piece : List Char} (h : piece ∈ slashPieces cs) :
    '/' ∉ piece := by
  induction cs generalizing piece with
  | nil =>
    obtain rfl := List.mem_singleton.mp h
    exact List.not_mem_nil
  | cons c cs ih =>
    rw [slashPieces] at h
    split at h
    · rcases List.mem_cons.mp h with rfl | h
      · exact List.not_mem_nil
      · exact ih h
    · rename_i hc
      split at h
      · obtain rfl := List.mem_singleton.mp h
        simpa using fun heq : '/' = c => hc heq.symm
      · rename_i first rest hpieces
        rcases List.mem_cons.mp h with rfl | h
        · have hfirst := ih (hpieces ▸ List.mem_cons_self)
          simpa [hfirst] using fun heq : '/' = c => hc heq.symm
        · exact ih (hpieces ▸ List.mem_cons_of_mem first h)

namespace Path

/-- A step that leads somewhere. -/
structure IsPart (s : String) : Prop where
  ne_empty : s ≠ ""
  ne_dot : s ≠ "."
  whole : '/' ∉ s.toList

def Clean (p : Path) : Prop :=
  ∀ part ∈ p.parts, IsPart part

theorem clean_ofString (text : String) : (ofString text).Clean := by
  intro part hpart
  obtain ⟨hsteps, hproper⟩ := List.mem_filter.mp hpart
  obtain ⟨cs, hcs, rfl⟩ := List.mem_map.mp hsteps
  simp only [Bool.and_eq_true, decide_eq_true_eq] at hproper
  refine ⟨hproper.1, hproper.2, ?_⟩
  rw [String.toList_ofList]
  exact slash_not_mem_piece hcs

variable {p q : Path} {parts : List String}

theorem Clean.below (hp : p.Clean) (hparts : ∀ part ∈ parts, IsPart part) :
    (p.below parts).Clean := fun part hpart =>
  (List.mem_append.mp hpart).elim (hp part) (hparts part)

theorem Clean.append (hp : p.Clean) (hq : q.Clean) : (p ++ q).Clean := by
  intro part hpart
  change part ∈ (Path.append p q).parts at hpart
  unfold Path.append at hpart
  split at hpart
  · exact (List.mem_append.mp hpart).elim (hp part) (hq part)
  · exact hq part hpart

theorem steps_joined (hne : parts ≠ []) (hparts : ∀ part ∈ parts, IsPart part) :
    steps ("/".intercalate parts) = parts := by
  have hwhole : ∀ cs ∈ parts.map String.toList, '/' ∉ cs := by
    intro cs hcs
    obtain ⟨part, hpart, rfl⟩ := List.mem_map.mp hcs
    exact (hparts part hpart).whole
  have hslash : "/".toList = ['/'] := rfl
  rw [steps, slashPieces_eq, String.toList_intercalate, hslash,
    List.splitOn_intercalate '/' hwhole (by simpa using hne), List.map_map]
  exact (List.map_congr_left fun part _ => String.ofList_toList).trans (List.map_id parts)

theorem steps_slash (cs : List Char) :
    steps (String.ofList ('/' :: cs)) = "" :: steps (String.ofList cs) := by
  rw [steps, steps, String.toList_ofList, String.toList_ofList, slashPieces, if_pos rfl,
    List.map_cons]

theorem text_of_parts (hne : p.parts ≠ []) :
    p.text = String.ofList (p.start.slashes ++ ("/".intercalate p.parts).toList) := by
  have hsome : p ≠ ⟨.here, []⟩ := fun heq => hne (heq ▸ rfl)
  rw [text, if_neg hsome, String.ofList_append, String.ofList_toList]

theorem takeWhile_joined (hne : parts ≠ []) (hparts : ∀ part ∈ parts, IsPart part) :
    ("/".intercalate parts).toList.takeWhile (· = '/') = [] := by
  obtain ⟨part, rest, rfl⟩ := List.exists_cons_of_ne_nil hne
  obtain ⟨hempty, -, hwhole⟩ := hparts part List.mem_cons_self
  rw [String.toList_intercalate, List.map_cons]
  cases hcs : part.toList with
  | nil => exact absurd (String.toList_eq_nil_iff.mp hcs) hempty
  | cons c cs =>
    rw [hcs] at hwhole
    have hc : c ≠ '/' := fun heq => hwhole (heq ▸ List.mem_cons_self)
    cases rest <;> simp [List.intercalate, hc]

theorem startOf_slashes (start : Start) {cs : List Char} (h : cs.takeWhile (· = '/') = []) :
    startOf (String.ofList (start.slashes ++ cs)) = start := by
  rw [startOf, String.toList_ofList]
  cases start <;> simp [Start.slashes, h]

theorem steps_text (hp : p.Clean) (hne : p.parts ≠ []) :
    startOf p.text = p.start ∧ steps p.text = p.start.slashes.map (fun _ => "") ++ p.parts := by
  have hjoined := steps_joined hne hp
  rw [← String.ofList_toList (s := "/".intercalate p.parts)] at hjoined
  rw [text_of_parts hne]
  refine ⟨startOf_slashes p.start (takeWhile_joined hne hp), ?_⟩
  cases p.start with
  | here => exact hjoined
  | root => exact (steps_slash _).trans (congrArg _ hjoined)
  | doubleRoot =>
    exact (steps_slash _).trans (congrArg _ ((steps_slash _).trans (congrArg _ hjoined)))

theorem ofString_text (hp : p.Clean) : ofString p.text = p := by
  obtain ⟨start, parts⟩ := p
  by_cases hne : parts = []
  · subst hne
    cases start <;> decide
  · obtain ⟨hstart, hsteps⟩ := steps_text hp hne
    have hproper : parts.filter (fun part => part ≠ "" && part ≠ ".") = parts := by
      refine List.filter_eq_self.mpr fun part hpart => ?_
      have hpart := hp part hpart
      simp [hpart.ne_empty, hpart.ne_dot]
    rw [ofString, hstart, hsteps, List.filter_append, hproper]
    cases start <;> simp [Start.slashes]

end Path

end Whiley
