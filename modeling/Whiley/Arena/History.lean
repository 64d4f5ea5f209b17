import Whiley.Arena

namespace Whiley.Arena

structure Handle where
  identity : Nat
  label : String
  kind : String
  contents : List String
  deriving DecidableEq, Repr

namespace Handle

def same (a b : Handle) : Bool :=
  a.kind = b.kind && a.contents = b.contents

end Handle

/-- An arena with a table of where each identity was stored; its newest entry counts. -/
structure Registry extends Arena Handle where
  places : List (Nat × Nat)

/-- A node that was never stored is known by its kind only. -/
structure Absent where
  kind : String
  deriving DecidableEq, Repr

def Absent.message (e : Absent) : String :=
  e.kind ++ " node is not in this arena"

namespace Registry

def empty : Registry := ⟨.empty, []⟩

def allocate (r : Registry) (x : Handle) : Registry :=
  ⟨r.toArena.allocate x, (x.identity, r.size) :: r.places⟩

def index (r : Registry) (x : Handle) : Except Absent Nat :=
  match r.places.lookup x.identity with
  | some i => .ok i
  | none => .error ⟨x.kind⟩

def contains (r : Registry) (x : Handle) : Bool :=
  (r.places.lookup x.identity).isSome

end Registry

inductive Step
  | make (label kind : String) (contents : List String)
  | allocate (label : String)
  | index (label : String)
  | contains (label : String)
  | get (place : Int)
  | size
  | list
  | same (label other : String)

inductive Answer
  | done
  | unknown (label : String)
  | absent (kind : String)
  | outOfRange
  | truth (b : Bool)
  | number (n : Nat)
  | label (l : String)
  | labels (ls : List String)

structure History where
  registry : Registry
  handles : List Handle

namespace History

def empty : History := ⟨.empty, []⟩

def handle? (h : History) (label : String) : Option Handle :=
  h.handles.find? (·.label = label)

def ask (h : History) (label : String) (f : Handle → Answer) : History × Answer :=
  match h.handle? label with
  | none => (h, .unknown label)
  | some x => (h, f x)

def step (h : History) : Step → History × Answer
  | .make label kind contents =>
    ({ h with handles := ⟨h.handles.length, label, kind, contents⟩ :: h.handles }, .done)
  | .allocate label =>
    match h.handle? label with
    | none => (h, .unknown label)
    | some x => ({ h with registry := h.registry.allocate x }, .truth true)
  | .index label =>
    h.ask label fun x =>
      match h.registry.index x with
      | .ok i => .number i
      | .error e => .absent e.kind
  | .contains label => h.ask label fun x => .truth (h.registry.contains x)
  | .get place =>
    match h.registry.get? place with
    | some x => (h, .label x.label)
    | none => (h, .outOfRange)
  | .size => (h, .number h.registry.size)
  | .list => (h, .labels (h.registry.toList.map (·.label)))
  | .same label other =>
    match h.handle? other with
    | none => h.ask label fun _ => .unknown other
    | some y => h.ask label fun x => .truth (x.same y)

def run (h : History) : List Step → History × List Answer
  | [] => (h, [])
  | step :: steps =>
    let (h, answer) := h.step step
    let (h, answers) := h.run steps
    (h, answer :: answers)

end History

end Whiley.Arena
