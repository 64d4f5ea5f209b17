namespace Whiley

def slashPieces : List Char → List (List Char)
  | [] => [[]]
  | c :: cs =>
    if c = '/' then [] :: slashPieces cs
    else
      match slashPieces cs with
      | [] => [[c]]
      | piece :: pieces => (c :: piece) :: pieces

/-- Where a path starts. Two slashes are a start of their own, and more are as good as one. -/
inductive Path.Start
  | here
  | root
  | doubleRoot
  deriving DecidableEq, Repr

/-- A path by its parts, none of which is empty or a dot; two dots stay as they are. -/
structure Path where
  start : Path.Start
  parts : List String
  deriving DecidableEq, Repr

namespace Path

def Start.slashes : Start → List Char
  | .here => []
  | .root => ['/']
  | .doubleRoot => ['/', '/']

def steps (text : String) : List String :=
  (slashPieces text.toList).map String.ofList

def startOf (text : String) : Start :=
  match (text.toList.takeWhile (· = '/')).length with
  | 0 => .here
  | 2 => .doubleRoot
  | _ => .root

def ofString (text : String) : Path :=
  ⟨startOf text, (steps text).filter fun part => part ≠ "" && part ≠ "."⟩

def text (p : Path) : String :=
  if p = ⟨.here, []⟩ then "." else String.ofList p.start.slashes ++ "/".intercalate p.parts

def append (p q : Path) : Path :=
  match q.start with
  | .here => ⟨p.start, p.parts ++ q.parts⟩
  | _ => q

instance : Append Path :=
  ⟨append⟩

def below (p : Path) (parts : List String) : Path :=
  ⟨p.start, p.parts ++ parts⟩

def name (p : Path) : String :=
  p.parts.getLast?.getD ""

/-- What a name ends in, from its last dot; a dot at either end of the name begins no suffix. -/
def suffixOf (name : String) : String :=
  let cs := name.toList.reverse
  let letters := cs.takeWhile (· ≠ '.')
  let stem := (cs.dropWhile (· ≠ '.')).drop 1
  if letters.isEmpty || stem.isEmpty then "" else String.ofList ('.' :: letters.reverse)

def suffix (p : Path) : String :=
  suffixOf p.name

end Path

end Whiley
