import Mathlib.Data.List.Forall2
import Whiley.Command
import Whiley.Proofs.Project.Disk

namespace Whiley

namespace Command

section Findings

variable {pool : Pool} {d : Disk} {files : List String} {jobs : Int} {found : Findings}

theorem enter_ok {before : Findings} {file : String} {r : Except Failure (Option Diagnostic)}
    (h : before.enter file r = .ok found) : ∃ c, r = .ok c ∧ found = before.put file c := by
  cases r with
  | error f => cases h
  | ok c => exact ⟨c, rfl, (Except.ok.inj h).symm⟩

theorem get?_entered {before : Findings}
    (h : files.foldlM (fun found file => found.enter file (complaint d file)) before = .ok found) :
    (∀ file ∈ files, ∃ c, complaint d file = .ok c ∧ found.get? file = some c) ∧
      ∀ file ∉ files, found.get? file = before.get? file := by
  induction files generalizing before with
  | nil =>
    obtain rfl := Except.ok.inj h
    exact ⟨nofun, fun _ _ => rfl⟩
  | cons first files ih =>
    rw [List.foldlM_cons] at h
    cases hfirst : before.enter first (complaint d first) with
    | error cause =>
      rw [hfirst] at h
      cases h
    | ok next =>
      rw [hfirst] at h
      obtain ⟨c, hc, rfl⟩ := enter_ok hfirst
      obtain ⟨hfiles, hothers⟩ := ih h
      refine ⟨fun file hfile => ?_, fun file hfile => ?_⟩
      -- What is entered last under a name stays, and the same file has the same complaint.
      · by_cases hlater : file ∈ files
        · exact hfiles file hlater
        · obtain rfl := (List.mem_cons.mp hfile).resolve_right hlater
          refine ⟨c, hc, ?_⟩
          rw [hothers file hlater, Dictionary.get?_put, if_pos rfl]
      · obtain ⟨hne, hlater⟩ := not_or.mp fun h => hfile (List.mem_cons.mpr h)
        rw [hothers file hlater, Dictionary.get?_put, if_neg (Ne.symm hne)]

theorem checkInPool_ok (h : checkInPool pool d files = .ok found) :
    checkInTurn d files = .ok found := by
  unfold checkInPool at h
  dsimp only at h
  split at h
  · cases h
  · rw [checkInTurn, ← h]
    conv_lhs => rw [← List.zipIdx_map_fst 0 files, List.foldlM_map]
    rw [List.foldlM_eq_foldl, List.foldlM_eq_foldl]
    -- The files with their numbers are folded as the files are: each number leads to its own result.
    refine List.foldl_ext _ _ _ fun before x hx => congrArg (before >>= ·) (funext fun found => ?_)
    rw [Pool.resultOf?_results, List.mem_zipIdx_iff_getElem?.mp hx]
    rfl

theorem findings_ok (h : findings pool d files jobs = .ok found) :
    checkInTurn d files = .ok found := by
  unfold findings at h
  split at h
  · split at h
    · cases h
    · exact checkInPool_ok h
  · exact h

/-- The complaint about each file is read back, however the files were checked. -/
theorem complaint_findings (h : findings pool d files jobs = .ok found) :
    ∀ file ∈ files, ∃ c, complaint d file = .ok c ∧ found.complaint file = .ok c := by
  intro file hfile
  obtain ⟨c, hc, hget⟩ := (get?_entered (findings_ok h)).1 file hfile
  refine ⟨c, hc, ?_⟩
  rw [Findings.complaint, hget]

end Findings

section Files

variable {d : Disk} {texts : List String} {t : String} {found : List (Option Diagnostic)}

def verdict (d : Disk) (c : Option Diagnostic) : String :=
  (c.map (report d)).getD ""

theorem join_reports (d : Disk) (found : List (Option Diagnostic)) :
    String.join ((found.filterMap id).map (report d)) = String.join (found.map (verdict d)) := by
  induction found with
  | nil => rfl
  | cons c found ih =>
    cases c with
    | none => rw [List.filterMap_cons_none rfl, ih, List.map_cons, String.join_cons]; rfl
    | some x =>
      rw [List.filterMap_cons_some (f := id) rfl, List.map_cons, List.map_cons, String.join_cons,
        String.join_cons, ih]
      rfl

theorem isEmpty_complaints (found : List (Option Diagnostic)) :
    (found.filterMap id).isEmpty = !found.any (·.isSome) := by
  induction found with
  | nil => rfl
  | cons c found ih => cases c <;> simp_all

theorem mapM_complaints {read : String → Except Breakdown (Option Diagnostic)}
    (h : ∀ t ∈ texts, ∃ c, complaint d t = .ok c ∧ read t = .ok c) :
    ∃ found, texts.mapM read = .ok found ∧
      List.Forall₂ (fun t c => complaint d t = .ok c) texts found := by
  induction texts with
  | nil => exact ⟨[], rfl, .nil⟩
  | cons t texts ih =>
    obtain ⟨c, hc, hread⟩ := h t List.mem_cons_self
    obtain ⟨found, hfound, hall⟩ := ih fun u hu => h u (List.mem_cons_of_mem t hu)
    refine ⟨c :: found, ?_, .cons hc hall⟩
    rw [List.mapM_cons, hread, hfound]
    rfl

section Run

variable {pool : Pool} {jobs : Int}

theorem checkFiles_of_complaints (out done : String) {findings' : Findings}
    (h : findings pool d texts jobs = .ok findings')
    (hfound : texts.mapM findings'.complaint = .ok found) :
    (checkFiles pool d texts jobs out done).ending =
        .exit (if found.any (·.isSome) then 1 else 0) ∧
      (checkFiles pool d texts jobs out done).err = String.join (found.map (verdict d)) := by
  have hread : (findings pool d texts jobs >>= fun x => texts.mapM x.complaint) = .ok found := by
    rw [h]
    exact hfound
  rw [checkFiles, hread]
  dsimp only
  rw [isEmpty_complaints, join_reports]
  cases found.any (·.isSome) <;> exact ⟨rfl, rfl⟩

theorem checkFiles_exits {out done : String} {code : Nat}
    (hexit : (checkFiles pool d texts jobs out done).ending = .exit code) :
    ∃ found, List.Forall₂ (fun t c => complaint d t = .ok c) texts found ∧
      code = (if found.any (·.isSome) then 1 else 0) ∧
      (checkFiles pool d texts jobs out done).err = String.join (found.map (verdict d)) := by
  cases hfindings : findings pool d texts jobs with
  | error cause =>
    rw [checkFiles, hfindings] at hexit
    exact (Outcome.broken_ne_exit hexit).elim
  | ok findings' =>
    obtain ⟨found, hfound, hall⟩ := mapM_complaints (complaint_findings hfindings)
    obtain ⟨hending, herr⟩ := checkFiles_of_complaints out done hfindings hfound
    exact ⟨found, hall, Ending.exit.inj (hexit.symm.trans hending), herr⟩

theorem checkFile_of_complaint {c : Option Diagnostic} (out done : String) (h : complaint d t = .ok c) :
    (checkFiles pool d [t] 1 out done).ending = .exit (if c.isSome then 1 else 0) ∧
      (checkFiles pool d [t] 1 out done).err = verdict d c := by
  have hfindings : findings pool d [t] 1 = .ok [(t, c)] := by
    rw [findings, if_neg (by simp), checkInTurn, List.foldlM_cons, h]
    rfl
  have hfound : [t].mapM (Findings.complaint [(t, c)]) = .ok [c] := by
    rw [List.mapM_cons, Findings.complaint, Dictionary.get?_cons, if_pos rfl]
    rfl
  obtain ⟨hending, herr⟩ := checkFiles_of_complaints out done hfindings hfound
  refine ⟨by simpa using hending, ?_⟩
  rw [herr, List.map_singleton, String.join_cons, String.join_nil, String.append_empty]

end Run

theorem singles_of_found {single : String → Outcome}
    (hsingle : ∀ t ∈ texts, ∃ pool done, single t = checkFiles pool d [t] 1 "" done)
    (h : List.Forall₂ (fun t c => complaint d t = .ok c) texts found) :
    (∀ t ∈ texts, (single t).ending = .exit 0 ∨ (single t).ending = .exit 1) ∧
      (texts.any fun t => (single t).ending = .exit 1) = found.any (·.isSome) ∧
      String.join (texts.map fun t => (single t).err) = String.join (found.map (verdict d)) := by
  induction h with
  | nil => exact ⟨nofun, rfl, rfl⟩
  | @cons t c texts found hc _ ih =>
    obtain ⟨pool, done, hdone⟩ := hsingle t List.mem_cons_self
    obtain ⟨hending, herr⟩ := checkFile_of_complaint "" done hc
    rw [← hdone] at hending herr
    obtain ⟨hexits, hany, hjoin⟩ := ih fun u hu => hsingle u (List.mem_cons_of_mem t hu)
    refine ⟨fun u hu => ?_, ?_, ?_⟩
    · rcases List.mem_cons.mp hu with rfl | hu
      · rw [hending]
        cases c.isSome <;> simp
      · exact hexits u hu
    · rw [List.any_cons, List.any_cons, hany, hending]
      cases c.isSome <;> rfl
    · rw [List.map_cons, List.map_cons, String.join_cons, String.join_cons, hjoin, herr]

theorem checkFiles_each {pool : Pool} {jobs : Int} {out done : String} {code : Nat}
    {single : String → Outcome}
    (hsingle : ∀ t ∈ texts, ∃ pool done, single t = checkFiles pool d [t] 1 "" done)
    (hexit : (checkFiles pool d texts jobs out done).ending = .exit code) :
    (∀ t ∈ texts, (single t).ending = .exit 0 ∨ (single t).ending = .exit 1) ∧
      code = (if texts.any fun t => (single t).ending = .exit 1 then 1 else 0) ∧
      (checkFiles pool d texts jobs out done).err =
        String.join (texts.map fun t => (single t).err) := by
  obtain ⟨found, hall, hcode, herr⟩ := checkFiles_exits hexit
  obtain ⟨hexits, hany, hjoin⟩ := singles_of_found hsingle hall
  rw [herr, hany, hjoin]
  exact ⟨hexits, hcode, rfl⟩

end Files

end Command

namespace Project

/-- A path to a folder that is there. -/
structure Settled (d : Disk) (folder : Path) (place : Disk.Place) : Prop where
  clean : folder.Clean
  located : d.locate folder = some place
  isFolder : d.get? place = some .folder

/-- The project of the folder that a text leads to, and where its sources lie. -/
structure Covers (d : Disk) (text : String) (p : Project) (root : Path) (place : Disk.Place) :
    Prop where
  project : find? d (.ofString text) = .ok (some p) ∨
    find? d (.ofString text) = .ok none ∧ p = .plain (.ofString text)
  sourceRoot : p.sourceRoot d = .ok root
  settled : Settled d root place

variable {d : Disk} {text : String} {p : Project} {root : Path} {place : Disk.Place}

theorem settled_plain (h : d.atText? text = some .folder) :
    ∃ place, Settled d (plain (.ofString text)).folder place := by
  obtain ⟨place, hplace, hfolder⟩ := Disk.locate_of_atText? h
  exact ⟨place, Path.clean_ofString text, hplace, hfolder⟩

theorem settled_of_hasConfig (h : hasConfig d place) : Settled d ⟨.root, place⟩ place := by
  obtain ⟨x, hx, hbelow⟩ := Disk.exists_below_of_isSome (by simp) h
  have hplace : place <+: x.1 := (List.prefix_append _ _).trans hbelow
  have hne : place ≠ x.1 := by
    rintro rfl
    have hlength := hbelow.length_le
    rw [List.length_append, List.length_singleton] at hlength
    omega
  refine ⟨fun part hpart => ?_, ?_, Disk.get?_above hx hplace hne⟩
  · exact Disk.isPart_of_isName (d.named x hx part (hplace.subset hpart))
  · exact Disk.walk_down hx hplace

theorem settled_found {start : Path} (h : find? d start = .ok (some p)) :
    ∃ place, Settled d p.folder place := by
  unfold find? at h
  split at h
  · cases h
  · rename_i place hfound
    cases hload : loadConfig d place with
    | error f =>
      rw [hload] at h
      cases h
    | ok c =>
      rw [hload] at h
      obtain rfl := Option.some.inj (Except.ok.inj h)
      exact ⟨place, settled_of_hasConfig (List.find?_some hfound)⟩

theorem settled_root (hfolder : ∃ place, Settled d p.folder place)
    (hroot : p.sourceRoot d = .ok root) : ∃ place, Settled d root place := by
  unfold sourceRoot at hroot
  cases htext : Config.textOf p.config.sourceFolder with
  | error f =>
    rw [htext] at hroot
    cases hroot
  | ok text =>
    rw [htext] at hroot
    have hchoice := Except.ok.inj hroot
    obtain ⟨place, hsettled⟩ := hfolder
    split at hchoice
    · rename_i hthere
      obtain ⟨inner, hinner, hentry⟩ := Option.bind_eq_some_iff.mp hthere
      subst hchoice
      exact ⟨inner, hsettled.clean.append (Path.clean_ofString text), hinner, hentry⟩
    · subst hchoice
      exact ⟨place, hsettled⟩

theorem sources_eq {files : List Path} (h : p.sources d = .ok files) :
    ∃ root, p.sourceRoot d = .ok root ∧
      ∀ place, d.locate root = some place →
        files = ((d.filesBelow place).map root.below).filter (selects p.config) := by
  unfold sources at h
  cases hroot : p.sourceRoot d with
  | error f =>
    rw [hroot] at h
    cases h
  | ok root =>
    rw [hroot] at h
    refine ⟨root, rfl, fun place hplace => ?_⟩
    rw [← Except.ok.inj h, hplace]
    rfl

theorem compareRoutes_below (root : Path) (r s : List String) :
    Disk.compareRoutes (root.below r).parts (root.below s).parts = Disk.compareRoutes r s :=
  Disk.compareRoutes_append root.parts r s

theorem sources_listed {files : List Path} (hsettled : Settled d root place)
    (hfiles : files = ((d.filesBelow place).map root.below).filter (selects p.config)) :
    files.Pairwise (fun f g => Disk.compareRoutes f.parts g.parts = .lt) ∧
      ∀ f, f ∈ files ↔ selects p.config f ∧
        ∃ route bytes, f = root.below route ∧ d.get? (place ++ route) = some (.file bytes) := by
  subst hfiles
  constructor
  · refine List.Pairwise.filter _ (List.pairwise_map.mpr ?_)
    exact (d.pairwise_filesBelow place).imp fun h => (compareRoutes_below root _ _).trans h
  · intro f
    rw [List.mem_filter, List.mem_map, and_comm]
    refine and_congr Iff.rfl ⟨?_, ?_⟩
    · rintro ⟨route, hroute, rfl⟩
      obtain ⟨-, bytes, hmem⟩ := Disk.mem_filesBelow.mp hroute
      exact ⟨route, bytes, rfl, Disk.get?_of_mem hmem⟩
    · rintro ⟨route, bytes, rfl, hfile⟩
      have hne : route ≠ [] := by
        rintro rfl
        rw [List.append_nil, hsettled.isFolder] at hfile
        cases hfile
      exact ⟨route, Disk.mem_filesBelow.mpr ⟨hne, bytes, Disk.mem_of_get?_file hfile⟩, rfl⟩

end Project

namespace Command

variable {pool : Pool} {d : Disk} {path : String} {jobs : Option Int} {code : Nat}

theorem check_file {root : Path} {place : Disk.Place} {route : List String} {bytes : List UInt8}
    (hsettled : Project.Settled d root place)
    (hfile : d.get? (place ++ route) = some (.file bytes)) (pool : Pool)
    (jobs : Option Int) : ∃ done, check pool d (root.below route).text jobs =
      checkFiles pool d [(root.below route).text] 1 "" done := by
  have hne : route ≠ [] := by
    rintro rfl
    rw [List.append_nil, hsettled.isFolder] at hfile
    cases hfile
  obtain ⟨hclean, hthere⟩ := Disk.atText?_below hsettled.clean hsettled.located hne
    (Disk.mem_of_get?_file hfile)
  refine ⟨shown ("checked " ++ (root.below route).text ++ ": no errors"), ?_⟩
  unfold check
  rw [hthere, Path.ofString_text hclean]

theorem checkProject_ends {p : Project}
    (hexit : (checkProject pool d p jobs).ending = .exit code) :
    ∃ files, p.sources d = .ok files ∧ (files ≠ [] → ∃ jobs' out done,
      checkProject pool d p jobs = checkFiles pool d (files.map Path.text) jobs' out done) := by
  unfold checkProject at hexit ⊢
  cases hsources : p.sources d with
  | error f =>
    rw [hsources] at hexit
    exact (Outcome.broken_ne_exit hexit).elim
  | ok files =>
    refine ⟨files, rfl, fun hne => ?_⟩
    obtain ⟨f, rest, rfl⟩ := List.exists_cons_of_ne_nil hne
    rw [hsources] at hexit
    dsimp only at hexit ⊢
    split at hexit
    · exact (Outcome.broken_ne_exit hexit).elim
    · exact ⟨_, _, _, rfl⟩

theorem check_folder_ends (hfolder : d.atText? path = some .folder)
    (hexit : (check pool d path jobs).ending = .exit code) :
    ∃ p root place files, Project.Covers d path p root place ∧
      files = ((d.filesBelow place).map root.below).filter (Project.selects p.config) ∧
      (files ≠ [] → ∃ jobs' out done,
        check pool d path jobs = checkFiles pool d (files.map Path.text) jobs' out done) := by
  have hproject : ∃ p : Project, check pool d path jobs = checkProject pool d p jobs ∧
      (Project.find? d (.ofString path) = .ok (some p) ∨
        Project.find? d (.ofString path) = .ok none ∧ p = .plain (.ofString path)) := by
    unfold check at hexit ⊢
    rw [hfolder] at hexit ⊢
    dsimp only at hexit ⊢
    cases hfind : Project.find? d (.ofString path) with
    | error f =>
      rw [hfind] at hexit
      exact (Outcome.broken_ne_exit hexit).elim
    | ok found =>
      cases found with
      | none => exact ⟨_, rfl, .inr ⟨rfl, rfl⟩⟩
      | some p => exact ⟨p, rfl, .inl rfl⟩
  obtain ⟨p, hcheck, hfound⟩ := hproject
  have hhome : ∃ place, Project.Settled d p.folder place := by
    rcases hfound with hfound | ⟨-, rfl⟩
    · exact Project.settled_found hfound
    · exact Project.settled_plain hfolder
  rw [hcheck] at hexit ⊢
  obtain ⟨files, hsources, hchecked⟩ := checkProject_ends hexit
  obtain ⟨root, hroot, hfiles⟩ := Project.sources_eq hsources
  obtain ⟨place, hsettled⟩ := Project.settled_root hhome hroot
  exact ⟨p, root, place, files, ⟨hfound, hroot, hsettled⟩, hfiles place hsettled.located, hchecked⟩

/-- The check of a folder says what the checks of the files of its project say, one after the
other. -/
theorem check_project (hfolder : d.atText? path = some .folder)
    (hexit : (check pool d path jobs).ending = .exit code) :
    ∃ p root place files, Project.Covers d path p root place ∧
      files.Pairwise (fun f g => Disk.compareRoutes f.parts g.parts = .lt) ∧
      (∀ f, f ∈ files ↔ Project.selects p.config f ∧
        ∃ route bytes, f = root.below route ∧ d.get? (place ++ route) = some (.file bytes)) ∧
      (files ≠ [] → ∀ pool' jobs',
        (∀ f ∈ files, (check pool' d f.text jobs').ending = .exit 0 ∨
          (check pool' d f.text jobs').ending = .exit 1) ∧
        code = (if files.any fun f => (check pool' d f.text jobs').ending = .exit 1 then 1 else 0) ∧
        (check pool d path jobs).err =
          String.join (files.map fun f => (check pool' d f.text jobs').err)) := by
  obtain ⟨p, root, place, files, hcovers, hfiles, hchecked⟩ := check_folder_ends hfolder hexit
  obtain ⟨hordered, hlisted⟩ := Project.sources_listed hcovers.settled hfiles
  refine ⟨p, root, place, files, hcovers, hordered, hlisted, fun hne pool' jobs' => ?_⟩
  obtain ⟨_, out, done, hcheck⟩ := hchecked hne
  have hsingle : ∀ t ∈ files.map Path.text, ∃ pool done,
      check pool' d t jobs' = checkFiles pool d [t] 1 "" done := by
    intro t ht
    obtain ⟨f, hf, rfl⟩ := List.mem_map.mp ht
    obtain ⟨-, route, bytes, rfl, hfile⟩ := (hlisted f).mp hf
    exact ⟨pool', check_file hcovers.settled hfile pool' jobs'⟩
  rw [hcheck] at hexit ⊢
  obtain ⟨hexits, hcode, herr⟩ := checkFiles_each hsingle hexit
  refine ⟨fun f hf => hexits _ (List.mem_map_of_mem hf), ?_, ?_⟩
  · rw [hcode, List.any_map]
    rfl
  · rw [herr, List.map_map]
    rfl

section Library

def library : Disk :=
  let file (text : String) : Disk.Entry := .file (text.toList.map (·.toNat.toUInt8))
  (((Disk.empty ["home"]).put ["home", "p", "src", "b", "wrong.whiley"] (file "type")).put
    ["home", "p", "src", "a.whiley.txt"] (file "type")).put
      ["home", "p", "src", "a.whiley"] (file "import a\n")

def backwards : Pool :=
  ⟨fun calls => (List.range calls).reverse, fun _ => List.reverse_perm _⟩

def shelves : Disk.Place := ["home", "p", "src"]

theorem filesBelow_library :
    library.filesBelow shelves = [["a.whiley"], ["a.whiley.txt"], ["b", "wrong.whiley"]] := by
  have hfound : library.entries.filterMap (Disk.routeTo shelves) =
      [["a.whiley"], ["a.whiley.txt"], ["b", "wrong.whiley"]] := by decide +kernel
  rw [Disk.filesBelow_eq, hfound]
  exact List.mergeSort_of_pairwise (by decide +kernel)

theorem find?_library : Project.find? library (.ofString "p") = .ok none := by
  have hnone : Project.findPlace? library (.ofString "p") = none := by decide +kernel
  rw [Project.find?, hnone]

theorem sourceRoot_library :
    (Project.plain (.ofString "p")).sourceRoot library = .ok ⟨.here, ["p", "src"]⟩ := by
  decide +kernel

theorem locate_library : library.locate ⟨.here, ["p", "src"]⟩ = some shelves := by
  decide +kernel

theorem sources_library : (Project.plain (.ofString "p")).sources library =
    .ok [⟨.here, ["p", "src", "a.whiley"]⟩, ⟨.here, ["p", "src", "b", "wrong.whiley"]⟩] := by
  have hselected : ([["a.whiley"], ["a.whiley.txt"], ["b", "wrong.whiley"]].map
      (Path.below ⟨.here, ["p", "src"]⟩)).filter
        (Project.selects (Project.plain (.ofString "p")).config) =
      [⟨.here, ["p", "src", "a.whiley"]⟩, ⟨.here, ["p", "src", "b", "wrong.whiley"]⟩] := by
    decide +kernel
  rw [← hselected, ← filesBelow_library, Project.sources, sourceRoot_library]
  show Except.ok _ = _
  rw [locate_library]
  rfl

theorem check_library : (check backwards library "p" (some 4)).ending = .exit 1 := by
  have hfolder : library.atText? "p" = some .folder := by decide +kernel
  have hcheck : check backwards library "p" (some 4) =
      checkProject backwards library (.plain (.ofString "p")) (some 4) := by
    unfold check
    rw [hfolder]
    dsimp only
    rw [find?_library]
  rw [hcheck, checkProject, sources_library]
  decide +kernel

theorem check_project_library : ∃ files : List Path,
    ⟨.here, ["p", "src", "a.whiley"]⟩ ∈ files ∧ ⟨.here, ["p", "src", "a.whiley.txt"]⟩ ∉ files ∧
      ⟨.here, ["p", "src", "b", "wrong.whiley"]⟩ ∈ files ∧
      ∀ pool' jobs', (∃ f ∈ files, (check pool' library f.text jobs').ending = .exit 1) ∧
        (check backwards library "p" (some 4)).err =
          String.join (files.map fun f => (check pool' library f.text jobs').err) := by
  obtain ⟨p, root, place, files, ⟨hproject, hroot, hsettled⟩, -, hlisted, hchecks⟩ :=
    @check_project backwards library "p" (some 4) 1 (by decide +kernel) check_library
  obtain rfl : p = .plain (.ofString "p") := by
    rcases hproject with hfound | ⟨-, rfl⟩
    · exact nomatch find?_library.symm.trans hfound
    · rfl
  obtain rfl := Except.ok.inj (sourceRoot_library.symm.trans hroot)
  obtain rfl := Option.some.inj (locate_library.symm.trans hsettled.located)
  let root : Path := ⟨.here, ["p", "src"]⟩
  have hthere : ∀ route ∈ library.filesBelow shelves,
      Project.selects (Project.plain (.ofString "p")).config (root.below route) →
        root.below route ∈ files := by
    intro route hroute hselected
    obtain ⟨-, bytes, hmem⟩ := Disk.mem_filesBelow.mp hroute
    exact (hlisted _).mpr ⟨hselected, route, bytes, rfl, Disk.get?_of_mem hmem⟩
  rw [filesBelow_library] at hthere
  have hright := hthere ["a.whiley"] (by decide) (by decide +kernel)
  have hwrong := hthere ["b", "wrong.whiley"] (by decide) (by decide +kernel)
  refine ⟨files, hright, ?_, hwrong, fun pool' jobs' => ?_⟩
  · exact fun hmem => absurd ((hlisted _).mp hmem).1 (by decide +kernel)
  · obtain ⟨-, hcode, herr⟩ := hchecks (List.ne_nil_of_mem hright) pool' jobs'
    split at hcode
    · rename_i hany
      obtain ⟨f, hf, hending⟩ := List.any_eq_true.mp hany
      exact ⟨⟨f, hf, of_decide_eq_true hending⟩, herr⟩
    · cases hcode

end Library

end Command

end Whiley
