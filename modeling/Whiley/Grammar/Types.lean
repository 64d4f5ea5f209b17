import Whiley.Grammar.Names

namespace Whiley.Grammar

open Whiley.Parser

/-- The two levels at which the grammar of types comes back to itself. -/
structure TypeParsers where
  type : Scope → Parser TypeExpr
  array : Scope → Parser TypeExpr

namespace TypeParsers

def separated (level : Scope → Parser TypeExpr) (separator : Kind)
    (build : Mark → List TypeExpr → TypeExpr) (scope : Scope) : Parser TypeExpr := do
  let start ← settle
  let first ← level scope
  match ← afterEach true separator (level scope) with
  | [] => return first
  | rest => make start (build · (first :: rest))

def parameterTypes (g : TypeParsers) (scope : Scope) : Parser (List TypeExpr) := do
  let _ ← expect .lparen
  listUntil .rparen (g.type scope)

def returnTypes (g : TypeParsers) (scope : Scope) : Parser (List TypeExpr) := do
  if ← ahead true [.lparen] then g.parameterTypes scope else return [← g.type scope]

def optionalReturnTypes (g : TypeParsers) (scope : Scope) : Parser (List TypeExpr) := do
  match ← accept true [.arrow] with
  | some _ => g.returnTypes scope
  | none => return []

def typeThenName (g : TypeParsers) (scope : Scope) : Parser (TypeExpr × Identifier) := do
  let t ← g.type scope
  return (t, ← identifier)

/-- As `typeThenName`, or the form in which the name of a function stands inside its type. -/
def named (g : TypeParsers) (scope : Scope) : Parser (TypeExpr × Identifier) := do
  let start ← position
  match ← accept true [.kwFunction, .kwMethod] with
  | none => g.typeThenName scope
  | some keyword =>
    if keyword.kind = .kwFunction then
      match ← optionalIdentifier with
      | none =>
        moveTo start
        g.typeThenName scope
      | some name =>
        let parameters ← g.parameterTypes scope
        let _ ← expect .arrow
        let returns ← g.returnTypes scope
        return (← make start (.function · parameters returns), name)
    else
      let (lifetimes, inner) ←
        match ← accept true [.less] with
        | some _ => lifetimeParameters scope
        | none => pure ([], scope)
      match ← optionalIdentifier with
      | none =>
        moveTo start
        g.typeThenName scope
      | some name =>
        let parameters ← g.parameterTypes inner
        let returns ← g.optionalReturnTypes inner
        return (← make start (.method · parameters returns [] lifetimes), name)

def field (g : TypeParsers) (scope : Scope) : Parser Field := do
  let start ← settle
  let (type, name) ← g.named scope
  make start (.mk · type name)

def record (g : TypeParsers) (scope : Scope) : Parser TypeExpr := do
  let start ← position
  let _ ← expect .lbrace
  let first ← g.field scope
  let (isOpen, found) ← repeating (fun found => do
    match ← acceptNext .rbrace with
    | some _ => return .inr (false, found)
    | none =>
      let _ ← expect .comma
      match ← accept true [.dotDotDot] with
      | some _ =>
        let _ ← expect .rbrace
        return .inr (true, found)
      | none =>
        let next ← g.field scope
        if next.name.text ∈ found.map (·.name.text) then
          reject .duplicateKey next.name.mark.span
        else return .inl (next :: found)) [first]
  make start (.record · isOpen found.reverse)

def plainReference (g : TypeParsers) (scope : Scope) (start inside : Nat) : Parser TypeExpr := do
  moveTo inside
  let element ← g.array scope
  make start (.reference · element none)

/-- A colon that ends a line gives no lifetime: it belongs to the header of a declaration. -/
def reference (g : TypeParsers) (scope : Scope) : Parser TypeExpr := do
  let start ← position
  let _ ← expect .ampersand
  let inside ← position
  match ← optionalLifetime false with
  | none => g.plainReference scope start inside
  | some l =>
    match ← accept true [.colon] with
    | none => g.plainReference scope start inside
    | some _ =>
      if ← atLineEnd then g.plainReference scope start inside
      else
        ofExcept (scope.checkLifetime l)
        let element ← g.array scope
        make start (.reference · element (some l))

def function (g : TypeParsers) (scope : Scope) : Parser TypeExpr := do
  let start ← position
  let _ ← advance
  let parameters ← g.parameterTypes scope
  let _ ← expect .arrow
  let returns ← g.returnTypes scope
  make start (.function · parameters returns)

def method (g : TypeParsers) (scope : Scope) : Parser TypeExpr := do
  let start ← position
  let _ ← advance
  let captures ← optionalCaptures
  let (lifetimes, inner) ← optionalLifetimeParameters scope
  let parameters ← g.parameterTypes inner
  let returns ← g.optionalReturnTypes inner
  make start (.method · parameters returns captures lifetimes)

def base (g : TypeParsers) (scope : Scope) : Parser TypeExpr := do
  let t ← current
  let start ← position
  match t.kind with
  | .kwVoid | .kwAny | .kwNull | .kwBool | .kwByte | .kwInt =>
    let _ ← advance
    make start (.primitive · t.text)
  | .lparen =>
    let _ ← advance
    let inner ← g.type scope
    let _ ← expect .rparen
    return inner
  | .lbracket =>
    let _ ← advance
    let element ← g.type scope
    let _ ← expect .rbracket
    make start (.list · element)
  | .lbrace => g.record scope
  | .bang =>
    let _ ← advance
    let element ← g.array scope
    make start (.negation · element)
  | .ampersand => g.reference scope
  | .identifier =>
    let name ← qualifiedName
    make start (.nominal · name)
  | .kwFunction => g.function scope
  | .kwMethod => g.method scope
  | _ => reject .unknownType t.span

def arrayOf (g : TypeParsers) (scope : Scope) : Parser TypeExpr := do
  let start ← settle
  let element ← g.base scope
  foldWhile (fun element => do
    match ← accept true [.lbracket] with
    | none => return none
    | some _ =>
      let _ ← expect .rbracket
      return some (← make start (.array · element))) element

def next (g : TypeParsers) : TypeParsers where
  type := separated (separated g.array .ampersand .intersection) .bar .union
  array := g.arrayOf

mutual

def typeAt : Nat → Scope → Parser TypeExpr
  | 0, _ => fail .exhausted
  | depth + 1, scope => (next ⟨typeAt depth, arrayAt depth⟩).type scope

def arrayAt : Nat → Scope → Parser TypeExpr
  | 0, _ => fail .exhausted
  | depth + 1, scope => (next ⟨typeAt depth, arrayAt depth⟩).array scope

end

def ofDepth (depth : Nat) : TypeParsers :=
  ⟨typeAt depth, arrayAt depth⟩

theorem ofDepth_succ (depth : Nat) : ofDepth (depth + 1) = (ofDepth depth).next := rfl

end TypeParsers

end Whiley.Grammar
