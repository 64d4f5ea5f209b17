import Whiley.Token

namespace Whiley

/-- Where a node was read from, and its place in the arena. -/
structure Mark where
  span : Span
  index : Nat
  deriving DecidableEq, Repr, Inhabited

structure Identifier where
  mark : Mark
  text : String
  deriving DecidableEq, Repr, Inhabited

structure Name where
  mark : Mark
  components : List Identifier
  deriving DecidableEq, Repr, Inhabited

end Whiley
