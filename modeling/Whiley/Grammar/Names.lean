import Whiley.Grammar.Parser
import Whiley.Scope

namespace Whiley.Grammar

open Whiley.Parser

def identifierOf (t : Token) : Parser Identifier :=
  allocate t.span (⟨·, t.text⟩)

def identifier : Parser Identifier := do
  identifierOf (← expect .identifier)

def optionalIdentifier : Parser (Option Identifier) := do
  match ← accept false [.identifier] with
  | some t => return some (← identifierOf t)
  | none => return none

def nameOf (i : Identifier) : Parser Name :=
  allocate i.mark.span (⟨·, [i]⟩)

/-- Components follow on the same line. -/
def qualifiedName : Parser Name := do
  let start ← settle
  let first ← identifier
  let rest ← afterEach false .colonColon identifier
  make start (⟨·, first :: rest⟩)

def optionalLifetime (lines : Bool) : Parser (Option Identifier) := do
  match ← accept lines [.identifier, .kwThis, .star] with
  | some t => return some (← identifierOf t)
  | none => return none

def lifetime : Parser Identifier := do
  match ← optionalLifetime true with
  | some l => return l
  | none => reject .expectingLifetime (← current).span

def lifetimeParameter (scope : Scope) : Parser (Identifier × Scope) := do
  let l ← identifier
  return (l, ← ofExcept (scope.declareLifetime l))

def lifetimeParameters (scope : Scope) : Parser (List Identifier × Scope) := do
  let (first, scope) ← lifetimeParameter scope
  let (found, scope) ← foldWhile (fun (found, scope) => do
    match ← accept true [.comma] with
    | some _ =>
      let (l, scope) ← lifetimeParameter scope
      return some (l :: found, scope)
    | none => return none) ([first], scope)
  let _ ← expect .greater
  return (found.reverse, scope)

/-- A list of lifetimes in angle brackets; absent and empty lists declare none. -/
def optionalLifetimeParameters (scope : Scope) : Parser (List Identifier × Scope) := do
  match ← accept true [.less] with
  | some _ =>
    match ← accept true [.greater] with
    | some _ => return ([], scope)
    | none => lifetimeParameters scope
  | none => return ([], scope)

/--
A list of lifetimes in angle brackets and the bracket of the call it belongs to. The token after `<`
decides: unless it is a lifetime, `<` is a comparison and nothing is read.
-/
def optionalLifetimeArguments (scope : Scope) (lines : Bool) :
    Parser (Option (List Identifier)) := do
  let start ← position
  let _ ← expect .less
  let inside ← position
  let first ← accept lines [.identifier, .kwThis, .star]
  if first.any fun t => t.kind ≠ .identifier || scope.isLifetime t.text then
    moveTo inside
    let lifetimes ← listUntil .greater lifetime
    let _ ← expect .lparen
    return some lifetimes
  else
    moveTo start
    return none

def optionalCaptures : Parser (List Identifier) := do
  match ← accept true [.lbracket] with
  | some _ =>
    match ← accept true [.rbracket] with
    | some _ => return []
    | none =>
      let first ← lifetime
      let rest ← afterEach true .comma lifetime
      let _ ← expect .rbracket
      return first :: rest
  | none => return []

end Whiley.Grammar
