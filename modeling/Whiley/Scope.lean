import Whiley.Dictionary
import Whiley.Fault
import Whiley.Indent
import Whiley.Tree.TypeExpr

namespace Whiley

structure Scope where
  indent : Indent
  inLoop : Bool
  /-- The latest declaration comes first. -/
  locals : Dictionary Variable
  aliases : List String
  lifetimes : List String
  deriving Inhabited

namespace Scope

def root : Scope := ⟨.root, false, [], [], []⟩

/-- Lifetimes that always exist and can never be declared. -/
def reserved : List String := ["this", "*"]

def lookup (s : Scope) (name : String) : Option Variable :=
  s.locals.get? name

def isVariable (s : Scope) (name : String) : Bool :=
  (s.lookup name).isSome

def isAlias (s : Scope) (name : String) : Bool :=
  name ∈ s.aliases

def isLifetime (s : Scope) (name : String) : Bool :=
  name = "*" || name ∈ s.lifetimes

def isAvailable (s : Scope) (name : String) : Bool :=
  !s.isVariable name && !(name ∈ s.lifetimes) && !(name ∈ reserved)

def checkAvailable (s : Scope) (i : Identifier) : Except SyntaxError Unit :=
  if s.isAvailable i.text then .ok () else .error ⟨.nameTaken, i.mark.span⟩

def checkLifetime (s : Scope) (i : Identifier) : Except SyntaxError Unit :=
  if s.isLifetime i.text then .ok () else .error ⟨.undeclaredLifetime, i.mark.span⟩

def declareVariable (s : Scope) (v : Variable) : Except SyntaxError Scope := do
  s.checkAvailable v.name
  return { s with locals := (v.name.text, v) :: s.locals }

def declareLifetime (s : Scope) (i : Identifier) : Except SyntaxError Scope := do
  s.checkAvailable i
  return { s with lifetimes := i.text :: s.lifetimes }

def declareAlias (s : Scope) (i : Identifier) : Scope :=
  { s with aliases := i.text :: s.aliases }

def declareThis (s : Scope) : Scope :=
  { s with lifetimes := "this" :: s.lifetimes }

def deeper (s : Scope) (indent : Indent) : Scope :=
  { s with indent := indent }

def looping (s : Scope) (inLoop : Bool) : Scope :=
  { s with inLoop := inLoop }

/-- Inside a lambda only the captured lifetimes are visible, and no loop is. -/
def capturing (s : Scope) (captures : List Identifier) : Scope :=
  { s with inLoop := false, lifetimes := captures.map (·.text) }

end Scope

end Whiley
