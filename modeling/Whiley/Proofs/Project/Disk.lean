import Mathlib.Data.List.Nodup
import Whiley.Project.Disk
import Whiley.Proofs.Project.Path

namespace Whiley.Disk

theorem isPart_of_isName {s : String} (h : isName s) : Path.IsPart s := by
  simp only [isName, Bool.and_eq_true, decide_eq_true_eq, Bool.not_eq_true',
    List.contains_eq_mem, decide_eq_false_iff_not] at h
  exact ⟨h.1.1.1, h.1.1.2, h.2⟩

section Places

variable {d : Disk} {x : Place × Entry} {place q : Place} {route : List String} {e : Entry}

theorem found_at (h : d.entries.find? (·.1 = place) = some x) : x ∈ d.entries ∧ x.1 = place :=
  ⟨List.mem_of_find?_eq_some h, by simpa using List.find?_some h⟩

theorem get?_of_mem (h : (place, e) ∈ d.entries) : d.get? place = some e := by
  unfold get?
  cases hfind : d.entries.find? (·.1 = place) with
  | none => exact absurd (List.find?_eq_none.mp hfind _ h) (by simp)
  | some y =>
    obtain ⟨hmem, hplace⟩ := found_at hfind
    rw [List.inj_on_of_nodup_map d.distinct hmem h hplace]

theorem mem_of_get?_file {bytes : List UInt8} (h : d.get? place = some (.file bytes)) :
    (place, .file bytes) ∈ d.entries := by
  unfold get? at h
  split at h
  · rename_i y e hfind
    obtain ⟨hmem, rfl⟩ := found_at hfind
    obtain rfl := Option.some.inj h
    exact hmem
  · split at h <;> cases h

theorem get?_above (hx : x ∈ d.entries) (hq : q <+: x.1) (hne : q ≠ x.1) :
    d.get? q = some .folder := by
  unfold get?
  cases hfind : d.entries.find? (·.1 = q) with
  | some y =>
    obtain ⟨hmem, rfl⟩ := found_at hfind
    obtain ⟨place, e⟩ := y
    cases e with
    | folder => rfl
    | file bytes => exact absurd (d.closed _ hmem x hx rfl hq).symm hne
  | none =>
    have hany : d.entries.any (fun y => q.isPrefixOf y.1) :=
      List.any_eq_true.mpr ⟨x, hx, List.isPrefixOf_iff_prefix.mpr hq⟩
    exact if_pos (.inr hany)

theorem isSome_above (hx : x ∈ d.entries) (hq : q <+: x.1) : (d.get? q).isSome := by
  by_cases hne : q = x.1
  · rw [hne, get?_of_mem (e := x.2) hx]
    rfl
  · rw [get?_above hx hq hne]
    rfl

theorem isName_above (hx : x ∈ d.entries) (hq : place ++ route <+: x.1) :
    ∀ part ∈ route, isName part := fun part hpart =>
  d.named x hx part (hq.subset (List.mem_append_right place hpart))

theorem walk_down (hx : x ∈ d.entries) (hq : place ++ route <+: x.1) :
    route.foldlM d.step place = some (place ++ route) := by
  induction route generalizing place with
  | nil => rw [List.foldlM_nil, List.append_nil]; rfl
  | cons part route ih =>
    have hname := isName_above hx hq part List.mem_cons_self
    have hsplit : place ++ part :: route = (place ++ [part]) ++ route := by simp
    have hnext : place ++ [part] <+: x.1 := by
      rw [hsplit] at hq
      exact (List.prefix_append _ _).trans hq
    have hhere : d.get? place = some .folder := by
      refine get?_above hx ((List.prefix_append _ _).trans hnext) fun heq => ?_
      have hlength := hnext.length_le
      rw [← heq, List.length_append, List.length_singleton] at hlength
      omega
    simp only [isName, Bool.and_eq_true, decide_eq_true_eq] at hname
    obtain ⟨⟨⟨hempty, hdot⟩, hdots⟩, -⟩ := hname
    have hstep : d.step place part = some (place ++ [part]) := by
      rw [step, if_neg (fun h => h hhere), if_neg (not_or.mpr ⟨hempty, hdot⟩), if_neg hdots,
        if_pos (isSome_above hx hnext)]
    rw [List.foldlM_cons, hstep, hsplit]
    exact ih (hsplit ▸ hq)

theorem exists_below_of_isSome (hne : place ≠ []) (h : (d.get? place).isSome) :
    ∃ x ∈ d.entries, place <+: x.1 := by
  unfold get? at h
  split at h
  · rename_i y e hfind
    obtain ⟨hmem, rfl⟩ := found_at hfind
    exact ⟨_, hmem, List.prefix_refl _⟩
  · split at h
    · rename_i hany
      obtain ⟨x, hx, hprefix⟩ := List.any_eq_true.mp (hany.resolve_left hne)
      exact ⟨x, hx, List.isPrefixOf_iff_prefix.mp hprefix⟩
    · cases h

theorem walk_filter {steps : List String} (h : steps.foldlM d.step place = some q) :
    (steps.filter fun part => part ≠ "" && part ≠ ".").foldlM d.step place = some q := by
  induction steps generalizing place with
  | nil => exact h
  | cons part steps ih =>
    rw [List.foldlM_cons] at h
    cases hstep : d.step place part with
    | none =>
      rw [hstep] at h
      cases h
    | some next =>
      rw [hstep] at h
      by_cases hidle : part = "" ∨ part = "."
      · have hsame : place = next := by
          unfold step at hstep
          split at hstep
          · cases hstep
          · exact Option.some.inj hstep
        rw [List.filter_cons_of_neg (by rcases hidle with rfl | rfl <;> simp)]
        exact ih (hsame ▸ h)
      · rw [List.filter_cons_of_pos (by simpa [not_or] using hidle), List.foldlM_cons, hstep]
        exact ih h

variable {p : Path}

theorem locate_of_atText? {text : String} (h : d.atText? text = some e) :
    ∃ place, d.locate (.ofString text) = some place ∧ d.get? place = some e := by
  unfold atText? at h
  split at h
  · cases h
  · obtain ⟨place, hwalk, hentry⟩ := Option.bind_eq_some_iff.mp h
    exact ⟨place, walk_filter hwalk, hentry⟩

theorem step_root (hx : x ∈ d.entries) (hne : x.1 ≠ []) : d.step [] "" = some [] := by
  have hfolder := get?_above hx List.nil_prefix hne.symm
  rw [step, if_neg (fun h => h hfolder), if_pos (.inl rfl)]

theorem atText?_of_locate (hclean : p.Clean) (hparts : p.parts ≠ [])
    (hroot : d.step [] "" = some []) (hplace : d.locate p = some place)
    (hentry : d.get? place = some e) : d.atText? p.text = some e := by
  have htext : p.text ≠ "" := by
    intro hempty
    have hread := Path.ofString_text hclean
    rw [hempty] at hread
    exact hparts (congrArg Path.parts hread).symm
  obtain ⟨hstart, hsteps⟩ := Path.steps_text hclean hparts
  have hidle : (p.start.slashes.map fun _ => "").foldlM d.step (d.origin p.start) =
      some (d.origin p.start) := by
    cases p.start <;> simp [Path.Start.slashes, origin, hroot]
  have hwalk : d.walk p.start (Path.steps p.text) = some place := by
    rw [walk, hsteps, List.foldlM_append, hidle]
    exact hplace
  rw [atText?, if_neg htext, hstart, hwalk]
  exact hentry

theorem atText?_below (hclean : p.Clean) (hplace : d.locate p = some place) (hne : route ≠ [])
    (hmem : (place ++ route, e) ∈ d.entries) :
    (p.below route).Clean ∧ d.atText? (p.below route).text = some e := by
  have hnames := isName_above hmem (List.prefix_refl _)
  have hbelow : (p.below route).Clean :=
    hclean.below fun part hpart => isPart_of_isName (hnames part hpart)
  have hdown : d.locate (p.below route) = some (place ++ route) := by
    refine List.foldlM_append.trans ?_
    change d.locate p >>= _ = _
    rw [hplace]
    exact walk_down hmem (List.prefix_refl _)
  exact ⟨hbelow, atText?_of_locate hbelow (List.append_ne_nil_of_right_ne_nil _ hne)
    (step_root hmem (List.append_ne_nil_of_right_ne_nil place hne)) hdown (get?_of_mem hmem)⟩

end Places

/-! ### Files below a place -/

section Order

theorem lexicographic_eq {α : Type} (order : α → α → Ordering) (as bs : List α) :
    lexicographic order as bs = List.compareLex order as bs := by
  induction as generalizing bs with
  | nil => cases bs <;> rfl
  | cons a as ih =>
    cases bs with
    | nil => rfl
    | cons b bs =>
      rw [lexicographic, List.compareLex_cons_cons, ih]
      cases order a b <;> rfl

theorem compareNames_eq (a b : String) :
    compareNames a b = List.compareLex (compareOn Char.toNat) a.toList b.toList :=
  lexicographic_eq ..

instance : Std.LawfulEqCmp (compareOn Char.toNat) where
  compare_self := Std.ReflCmp.compare_self
  eq_of_compare h := Char.toNat_inj.mp (Std.LawfulEqCmp.eq_of_compare h)

instance : Std.TransCmp compareNames where
  eq_swap {a b} := by
    rw [compareNames_eq, compareNames_eq]
    exact Std.OrientedCmp.eq_swap
  isLE_trans {a b c} := by
    rw [compareNames_eq, compareNames_eq, compareNames_eq]
    exact Std.TransCmp.isLE_trans

instance : Std.LawfulEqCmp compareNames where
  eq_of_compare {a b} h := by
    rw [compareNames_eq] at h
    exact String.toList_injective (Std.LawfulEqCmp.eq_of_compare h)

theorem compareRoutes_eq : compareRoutes = List.compareLex compareNames := by
  funext r s
  exact lexicographic_eq ..

instance : Std.TransCmp compareRoutes := by
  rw [compareRoutes_eq]
  infer_instance

instance : Std.LawfulEqCmp compareRoutes := by
  rw [compareRoutes_eq]
  infer_instance

theorem compareRoutes_append (q r s : List String) :
    compareRoutes (q ++ r) (q ++ s) = compareRoutes r s := by
  induction q with
  | nil => rfl
  | cons part q ih =>
    have hpart : compareNames part part = .eq := Std.ReflCmp.compare_self
    rw [compareRoutes_eq] at ih ⊢
    rw [List.cons_append, List.cons_append, List.compareLex_cons_cons, hpart, ih]
    rfl

end Order

section Files

variable {d : Disk} {place : Place} {route : List String}

def routeTo (place : Place) : Place × Entry → Option (List String)
  | (p, .file _) =>
    if place.isPrefixOf p && place ≠ p then some (p.drop place.length) else none
  | (_, .folder) => none

theorem routeTo_eq_some {x : Place × Entry} : routeTo place x = some route ↔
    route ≠ [] ∧ ∃ bytes, x = (place ++ route, .file bytes) := by
  obtain ⟨p, e⟩ := x
  cases e with
  | folder => simp [routeTo]
  | file bytes =>
    simp only [routeTo, Option.ite_none_right_eq_some, Bool.and_eq_true, decide_eq_true_eq,
      List.isPrefixOf_iff_prefix, Option.some.injEq, Prod.mk.injEq, Entry.file.injEq]
    constructor
    · rintro ⟨⟨⟨rest, rfl⟩, hne⟩, hroute⟩
      rw [List.drop_left] at hroute
      subst hroute
      exact ⟨fun hnil => hne (by simp [hnil]), bytes, rfl, rfl⟩
    · rintro ⟨hne, _, rfl, -⟩
      exact ⟨⟨List.prefix_append _ _, by simpa using hne⟩, List.drop_left⟩

theorem filesBelow_eq : d.filesBelow place =
    (d.entries.filterMap (routeTo place)).mergeSort fun r s => compareRoutes r s ≠ .gt := by
  unfold filesBelow
  refine congrArg (List.mergeSort · _) (congrArg (List.filterMap · _) (funext fun x => ?_))
  obtain ⟨p, e⟩ := x
  cases e <;> rfl

theorem mem_filesBelow : route ∈ d.filesBelow place ↔
    route ≠ [] ∧ ∃ bytes, (place ++ route, .file bytes) ∈ d.entries := by
  rw [filesBelow_eq, (List.mergeSort_perm _ _).mem_iff, List.mem_filterMap]
  constructor
  · rintro ⟨x, hx, hroute⟩
    obtain ⟨hne, bytes, rfl⟩ := routeTo_eq_some.mp hroute
    exact ⟨hne, bytes, hx⟩
  · rintro ⟨hne, bytes, hmem⟩
    exact ⟨_, hmem, routeTo_eq_some.mpr ⟨hne, bytes, rfl⟩⟩

theorem pairwise_filesBelow (d : Disk) (place : Place) :
    (d.filesBelow place).Pairwise fun r s => compareRoutes r s = .lt := by
  have hfound : (d.entries.filterMap (routeTo place)).Pairwise fun r s => r ≠ s := by
    refine (List.pairwise_map.mp d.distinct).filterMap _ fun x y hxy r hr s hs heq => ?_
    obtain ⟨-, _, rfl⟩ := routeTo_eq_some.mp hr
    obtain ⟨-, _, rfl⟩ := routeTo_eq_some.mp hs
    exact hxy (by rw [heq])
  have hnodup : (d.filesBelow place).Nodup := by
    rw [filesBelow_eq, (List.mergeSort_perm _ _).nodup_iff]
    exact hfound
  have hsorted : (d.filesBelow place).Pairwise fun r s => compareRoutes r s ≠ .gt := by
    rw [filesBelow_eq]
    refine (List.pairwise_mergeSort ?_ ?_ _).imp of_decide_eq_true
    · intro r s t hrs hst
      exact decide_eq_true (Std.TransCmp.le_trans (of_decide_eq_true hrs) (of_decide_eq_true hst))
    · intro r s
      have hswap : compareRoutes s r = (compareRoutes r s).swap := Std.OrientedCmp.eq_swap
      rw [hswap]
      cases compareRoutes r s <;> decide
  refine (hsorted.and hnodup).imp fun {r s} ⟨hle, hne⟩ => ?_
  have heq : compareRoutes r s ≠ .eq := fun heq => hne (Std.LawfulEqCmp.eq_of_compare heq)
  cases hcompare : compareRoutes r s with
  | lt => rfl
  | eq => exact absurd hcompare heq
  | gt => exact absurd hcompare hle

end Files

end Whiley.Disk
