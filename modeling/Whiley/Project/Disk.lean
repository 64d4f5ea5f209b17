import Whiley.Project.Path
import Whiley.Text.Utf8

namespace Whiley

/-- Where something lies: the names from the root down. -/
abbrev Disk.Place := List String

inductive Disk.Entry
  | file (bytes : List UInt8)
  | folder
  deriving DecidableEq, Repr

def Disk.Entry.isFile : Entry → Bool
  | .file _ => true
  | .folder => false

def Disk.isName (s : String) : Bool :=
  s ≠ "" && s ≠ "." && s ≠ ".." && !s.toList.contains '/'

structure Disk where
  here : Disk.Place
  entries : List (Disk.Place × Disk.Entry)
  named : ∀ x ∈ entries, ∀ s ∈ x.1, Disk.isName s
  distinct : (entries.map (·.1)).Nodup
  /-- Nothing lies below a file. -/
  closed : ∀ x ∈ entries, ∀ y ∈ entries, x.2.isFile → x.1 <+: y.1 → y.1 = x.1

namespace Disk

def empty (here : Place) : Disk :=
  ⟨here, [], by simp, List.nodup_nil, by simp⟩

/-- Whether an entry can be put at a place: names lead there, and no file lies on the way. -/
def admits (d : Disk) (place : Place) : Bool :=
  place.all isName && d.entries.all fun x => !(x.2.isFile && x.1.isPrefixOf place) || x.1 = place

def outlives (place : Place) (e : Entry) (x : Place × Entry) : Bool :=
  x.1 ≠ place && !(e.isFile && place.isPrefixOf x.1)

def put (d : Disk) (place : Place) (e : Entry) : Disk :=
  if h : d.admits place then
    { here := d.here
      entries := (place, e) :: d.entries.filter (outlives place e)
      named := by
        intro x hx s hs
        simp only [admits, Bool.and_eq_true, List.all_eq_true] at h
        rcases List.mem_cons.mp hx with rfl | hx
        · exact h.1 s hs
        · exact d.named x (List.mem_filter.mp hx).1 s hs
      distinct := by
        rw [List.map_cons, List.nodup_cons]
        refine ⟨?_, d.distinct.sublist (List.filter_sublist.map _)⟩
        simp [outlives]
      closed := by
        intro x hx y hy hf hxy
        simp only [admits, Bool.and_eq_true, List.all_eq_true] at h
        rcases List.mem_cons.mp hx with rfl | hx <;> rcases List.mem_cons.mp hy with rfl | hy
        · rfl
        · have hp := List.isPrefixOf_iff_prefix.mpr hxy
          have := (List.mem_filter.mp hy).2
          simp_all [outlives]
        · have hp := List.isPrefixOf_iff_prefix.mpr hxy
          have := h.2 x (List.mem_filter.mp hx).1
          rw [hf, hp] at this
          exact (of_decide_eq_true this).symm
        · exact d.closed x (List.mem_filter.mp hx).1 y (List.mem_filter.mp hy).1 hf hxy }
  else d

def get? (d : Disk) (place : Place) : Option Entry :=
  match d.entries.find? (·.1 = place) with
  | some (_, e) => some e
  | none =>
    if place = [] ∨ d.entries.any (fun (p, _) => place.isPrefixOf p) then some .folder else none

/-- The place one step further; only a folder can be left. -/
def step (d : Disk) (place : Place) (part : String) : Option Place :=
  if d.get? place ≠ some .folder then none
  else if part = "" ∨ part = "." then some place
  else if part = ".." then some place.dropLast
  else
    let next := place ++ [part]
    if (d.get? next).isSome then some next else none

def origin (d : Disk) : Path.Start → Place
  | .here => d.here
  | .root => []
  | .doubleRoot => []

def walk (d : Disk) (start : Path.Start) (steps : List String) : Option Place :=
  steps.foldlM d.step (d.origin start)

def locate (d : Disk) (p : Path) : Option Place :=
  d.walk p.start p.parts

def at? (d : Disk) (p : Path) : Option Entry :=
  (d.locate p).bind d.get?

/-- What a text leads to by all the steps it spells out. -/
def atText? (d : Disk) (text : String) : Option Entry :=
  if text = "" then none
  else (d.walk (Path.startOf text) (Path.steps text)).bind d.get?

/-- Two dots lead up whatever they follow, and other steps lead down. -/
def stepBlindly (place : Place) (part : String) : Place :=
  if part = ".." then place.dropLast else place ++ [part]

def resolve (d : Disk) (p : Path) : Place :=
  p.parts.foldl stepBlindly (d.origin p.start)

/-- The first difference decides; what is at its end comes first. -/
def lexicographic {α : Type} (order : α → α → Ordering) : List α → List α → Ordering
  | [], [] => .eq
  | [], _ :: _ => .lt
  | _ :: _, [] => .gt
  | a :: as, b :: bs =>
    match order a b with
    | .eq => lexicographic order as bs
    | o => o

/-- By code points. -/
def compareNames (a b : String) : Ordering :=
  lexicographic (fun c d => compare c.toNat d.toNat) a.toList b.toList

def compareRoutes : List String → List String → Ordering :=
  lexicographic compareNames

def filesBelow (d : Disk) (place : Place) : List (List String) :=
  let found := d.entries.filterMap fun (p, e) =>
    match e with
    | .file _ => if place.isPrefixOf p && place ≠ p then some (p.drop place.length) else none
    | .folder => none
  found.mergeSort fun a b => compareRoutes a b ≠ .gt

def upwards (place : Place) : List Place :=
  (List.range (place.length + 1)).map fun n => place.take (place.length - n)

end Disk

end Whiley
