import Whiley.Text.Lines
import Whiley.Toml.Scalar

/-!
TOML documents: keys, values, tables and arrays of tables. Marks on keys remember which tables were
opened by name and which values are closed, since neither can be written to again.
-/

namespace Whiley.Toml

abbrev Key := List String

/-! ### Marks -/

inductive Mark
  /-- The value under the key and all below it is closed. -/
  | frozen
  /-- The table under the key was named and cannot be named again. -/
  | named
  deriving DecidableEq, Repr

abbrev Marks := List (Key × Mark)

namespace Marks

def isFrozen (ms : Marks) (key : Key) : Bool :=
  ms.any fun (k, m) => m = .frozen && !k.isEmpty && k.isPrefixOf key

def isNamed (ms : Marks) (key : Key) : Bool :=
  !key.isEmpty && ms.any fun (k, m) => m = .named && k = key

def forget (ms : Marks) (key : Key) : Marks :=
  ms.filter fun (k, _) => !key.isPrefixOf k

end Marks

/-! ### Nested tables -/

def replaceLast (v : Value) : List Value → List Value
  | [] => []
  | [_] => [v]
  | w :: ws => w :: replaceLast v ws

/-- Changes the table under a key, which is made if it is missing; a list stands for its last item. -/
def update (lists : Bool) (f : Table → Except Fault Table) : Key → Table → Except Fault Table
  | [], t => f t
  | k :: ks, t =>
    match t.get? k with
    | none => (update lists f ks []).map fun inner => t.put k (.table inner)
    | some (.table inner) => (update lists f ks inner).map fun inner => t.put k (.table inner)
    | some (.array items) =>
      match lists, items.getLast? with
      | true, some (.table inner) =>
        (update lists f ks inner).map fun inner =>
          t.put k (.array (replaceLast (.table inner) items))
      | _, _ => .error .malformed
    | some _ => .error .malformed

def insertNew (key : String) (v : Value) (t : Table) : Except Fault Table :=
  match t.get? key with
  | some _ => .error .malformed
  | none => .ok (t.put key v)

def appendTable (key : String) (t : Table) : Except Fault Table :=
  match t.get? key with
  | none => .ok (t.put key (.array [.table []]))
  | some (.array items) => .ok (t.put key (.array (items ++ [.table []])))
  | some _ => .error .malformed

/-! ### Keys and values -/

def isBare (c : Char) : Bool :=
  c.isAlphanum || c = '-' || c = '_'

def keyPart : Reader String
  | [] => .error .malformed
  | c :: cs =>
    if isBare c then
      .ok (String.ofList ((c :: cs).takeWhile isBare), (c :: cs).dropWhile isBare)
    else if c = '\'' then (shortLiteral cs).map fun (s, rest) => (String.ofList s, rest)
    else if c = '"' then (shortBasic cs).map fun (s, rest) => (String.ofList s, rest)
    else .error .malformed

def keyFrom : Nat → Reader Key
  | 0, _ => .error .malformed
  | fuel + 1, cs =>
    match keyPart cs with
    | .error f => .error f
    | .ok (part, rest) =>
      match skipBlanks rest with
      | '.' :: rest => (keyFrom fuel (skipBlanks rest)).map fun (ks, rest) => (part :: ks, rest)
      | rest => .ok ([part], rest)

def key : Reader Key := fun cs => keyFrom (cs.length + 1) cs

def skipComment (cs : List Char) : Except Fault (List Char) :=
  match cs with
  | '#' :: rest =>
    if (rest.takeWhile (· ≠ '\n')).any isControl then .error .malformed
    else .ok (rest.dropWhile (· ≠ '\n'))
  | _ => .ok cs

def skipSpace : Nat → List Char → Except Fault (List Char)
  | 0, cs => .ok cs
  | fuel + 1, cs =>
    match skipComment (cs.dropWhile isBlankOrNewline) with
    | .error f => .error f
    | .ok rest => if rest.length = cs.length then .ok rest else skipSpace fuel rest

def space (cs : List Char) : Except Fault (List Char) :=
  skipSpace (cs.length + 1) cs

def scalar (cs : List Char) : Except Fault (Value × List Char) :=
  match string? cs with
  | some r => r.map fun (s, rest) => (.string (String.ofList s), rest)
  | none =>
    match after? "true" cs, after? "false" cs with
    | some rest, _ => .ok (.boolean true, rest)
    | none, some rest => .ok (.boolean false, rest)
    | none, none =>
      match date? cs with
      | some r => r
      | none =>
        match time? cs with
        | some (t, rest) => .ok (.moment (.clock t), rest)
        | none =>
          match number? cs with
          | some r => r
          | none =>
            match wordFloat? cs with
            | some (x, rest) => .ok (.float x, rest)
            | none => .error .malformed

def Value.isClosed : Value → Bool
  | .array _ => true
  | .table _ => true
  | _ => false

mutual

def value : Nat → Reader Value
  | 0, _ => .error .malformed
  | _, [] => .error .malformed
  | fuel + 1, c :: cs =>
    if c = '[' then arrayItems fuel [] cs
    else if c = '\x7b' then
      match skipBlanks cs with
      | '\x7d' :: rest => .ok (.table [], rest)
      | rest => tableItems fuel [] [] rest
    else scalar (c :: cs)

def arrayItems : Nat → List Value → Reader Value
  | 0, _, _ => .error .malformed
  | fuel + 1, done, cs => do
    match ← space cs with
    | ']' :: rest => return (.array done.reverse, rest)
    | start =>
      let (v, rest) ← value fuel start
      match ← space rest with
      | ']' :: rest => return (.array (v :: done).reverse, rest)
      | ',' :: rest => arrayItems fuel (v :: done) rest
      | _ => .error .malformed

def tableItems : Nat → Marks → Table → Reader Value
  | 0, _, _, _ => .error .malformed
  | fuel + 1, ms, t, cs => do
    let ((ks, v), rest) ← pair fuel cs
    let parent := ks.dropLast
    let stem := ks.getLast?.getD ""
    if ms.isFrozen ks then .error .malformed
    let t ← update false (insertNew stem v) parent t
    match skipBlanks rest with
    | '\x7d' :: rest => return (.table t, rest)
    | ',' :: rest =>
      let ms := if v.isClosed then (ks, .frozen) :: ms else ms
      tableItems fuel ms t (skipBlanks rest)
    | _ => .error .malformed

def pair : Nat → Reader (Key × Value)
  | 0, _ => .error .malformed
  | fuel + 1, cs => do
    let (ks, rest) ← key cs
    match rest with
    | '=' :: rest =>
      let (v, rest) ← value fuel (skipBlanks rest)
      return ((ks, v), rest)
    | _ => .error .malformed

end

/-! ### Statements -/

structure State where
  root : Table
  marks : Marks
  /-- Marks that come into force at the next heading. -/
  pending : Marks
  header : Key

def throughKeys (header ks : Key) : List Key :=
  (List.range (ks.length - 1)).map fun i => header ++ ks.take (i + 1)

def addPair (s : State) (ks : Key) (v : Value) : Except Fault State := do
  let through := throughKeys s.header ks
  if through.any s.marks.isNamed then .error .malformed
  let parent := s.header ++ ks.dropLast
  if s.marks.isFrozen parent then .error .malformed
  let root ← update true (insertNew (ks.getLast?.getD "") v) parent s.root
  return { s with
    root := root
    marks := if v.isClosed then (s.header ++ ks, .frozen) :: s.marks else s.marks
    pending := through.map (·, .named) ++ s.pending }

def openTable (s : State) (ks : Key) : Except Fault State := do
  if s.marks.isNamed ks || s.marks.isFrozen ks then .error .malformed
  let root ← update true .ok ks s.root
  return { s with root := root, marks := (ks, .named) :: s.marks, header := ks }

def openItem (s : State) (ks : Key) : Except Fault State := do
  if s.marks.isFrozen ks then .error .malformed
  let root ← update true (appendTable (ks.getLast?.getD "")) ks.dropLast s.root
  return { s with root := root, marks := (ks, .named) :: s.marks.forget ks, header := ks }

def settle (s : State) : State :=
  { s with marks := s.pending ++ s.marks, pending := [] }

def heading (closing : String) (start : State → Key → Except Fault State) (s : State)
    (cs : List Char) : Except Fault (State × List Char) := do
  let (ks, rest) ← key (skipBlanks cs)
  let s ← start s ks
  match after? closing rest with
  | some rest => return (s, rest)
  | none => .error .malformed

def statement (s : State) (cs : List Char) : Except Fault (State × List Char) :=
  match cs with
  | '[' :: '[' :: rest => heading "]]" openItem (settle s) rest
  | '[' :: rest => heading "]" openTable (settle s) rest
  | c :: _ =>
    if isBare c || c = '"' || c = '\'' then do
      let ((ks, v), rest) ← pair (2 * cs.length + 2) cs
      return (← addPair s ks v, rest)
    else if c = '#' then .ok (s, cs)
    else .error .malformed
  | [] => .ok (s, [])

def statements : Nat → State → List Char → Except Fault Table
  | 0, s, _ => .ok s.root
  | fuel + 1, s, cs => do
    match skipBlanks cs with
    | [] => return s.root
    | '\n' :: rest => statements fuel s rest
    | start =>
      let (s, rest) ← statement s start
      match ← skipComment (skipBlanks rest) with
      | [] => return s.root
      | '\n' :: rest => statements fuel s rest
      | _ => .error .malformed

/-- A carriage return goes where a newline follows it. -/
def joinLineEnds : List Char → List Char
  | [] => []
  | '\r' :: '\n' :: cs => '\n' :: joinLineEnds cs
  | c :: cs => c :: joinLineEnds cs

def parse (text : List Char) : Except Fault Table :=
  let cs := joinLineEnds text
  statements (cs.length + 1) ⟨[], [], [], []⟩ cs

end Whiley.Toml
