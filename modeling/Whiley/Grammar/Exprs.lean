import Whiley.Ambiguity
import Whiley.Grammar.Literals
import Whiley.Grammar.Types

/-!
The grammar of expressions, level by level. `lines` says whether an expression may go on over line
ends: inside brackets it may, elsewhere it ends with its line. As for types, each rule is given the
parsers that it goes back to.
-/

namespace Whiley.Grammar

open Whiley.Parser

inductive Level
  | logical | connective | bitOr | bitXor | bitAnd | condition | shift | additive | multiplicative
  | access | term
  deriving DecidableEq, Repr

def parameter (types : TypeParsers) (scope : Scope) : Parser (Variable × Scope) := do
  let start ← position
  let (type, name) ← types.named scope
  let v ← make start (⟨·, name, type⟩)
  return (v, ← ofExcept (scope.declareVariable v))

def parameters (types : TypeParsers) (close : Kind) (scope : Scope) :
    Parser (List Variable × Scope) := do
  let _ ← expect .lparen
  let (found, scope) ← untilClose close false (fun (found, scope) => do
    let (v, scope) ← parameter types scope
    return (v :: found, scope)) ([], scope)
  return (found.reverse, scope)

/-- A type that could not also be an expression. -/
def forcedType (types : TypeParsers) (scope : Scope) : Parser (Option TypeExpr) := do
  let start ← position
  match ← attempt (types.type scope) with
  | some t =>
    if t.isForced then return some t
    else
      moveTo start
      return none
  | none => return none

structure ExprParsers where
  types : TypeParsers
  level : Level → Scope → Bool → Parser Expr

namespace ExprParsers

def expression (g : ExprParsers) : Scope → Bool → Parser Expr :=
  g.level .logical

def rightGrouped (g : ExprParsers) (operand self : Level) (operators : List Kind) (scope : Scope)
    (lines : Bool) : Parser Expr := do
  let start ← settle
  let left ← g.level operand scope lines
  match ← accept lines operators with
  | none => return left
  | some op =>
    let right ← g.level self scope lines
    make start (.binary · left op.text right)

def leftGrouped (g : ExprParsers) (operand : Level) (operators : List Kind) (scope : Scope)
    (lines : Bool) : Parser Expr := do
  let start ← settle
  let first ← g.level operand scope lines
  foldWhile (fun left => do
    match ← accept lines operators with
    | none => return none
    | some op =>
      let right ← g.level operand scope lines
      return some (← make start (.binary · left op.text right))) first

def relations : List Kind :=
  [.lessEqual, .less, .greaterEqual, .greater, .equal, .notEqual, .kwIs, .subset, .subsetEqual,
    .superset, .supersetEqual]

def boundRange (start : Nat) (name : Identifier) (low high : Expr) : Parser (Range × Variable) := do
  let r ← make start (Range.mk · name low high)
  let type ← allocate name.mark.span (TypeExpr.primitive · "int")
  return (r, ← make start (⟨·, name, type⟩))

/-- One bound variable; it is in scope of the ranges that follow. -/
def range (g : ExprParsers) (scope : Scope) : Parser (Range × Scope) := do
  let start ← position
  let name ← identifier
  ofExcept (scope.checkAvailable name)
  let _ ← expect .kwIn
  let low ← g.level .additive scope true
  let _ ← expect .dotDot
  let high ← g.level .additive scope true
  let (r, v) ← boundRange start name low high
  return (r, ← ofExcept (scope.declareVariable v))

def quantifier (g : ExprParsers) (start : Nat) (keyword : Token) (scope : Scope) :
    Parser Expr := do
  let _ ← expect .lbrace
  let (found, scope) ← repeating (fun (found, scope) => do
    let (r, scope) ← g.range scope
    match ← acceptNext .bar with
    | some _ => return .inr (r :: found, scope)
    | none =>
      let _ ← expect .comma
      return .inl (r :: found, scope)) ([], scope)
  let condition ← g.expression scope true
  let _ ← expect .rbrace
  make start (.quantifier · keyword.text found.reverse condition)

/-- At most one relation: conditions do not group. -/
def condition (g : ExprParsers) (scope : Scope) (lines : Bool) : Parser Expr := do
  let start ← settle
  match ← accept lines [.kwSome, .kwAll] with
  | some keyword => g.quantifier start keyword scope
  | none =>
    let left ← g.level .shift scope lines
    match ← accept lines relations with
    | none => return left
    | some op =>
      if op.kind = .kwIs then
        let type ← g.types.type scope
        make start (.isType · left type)
      else
        let right ← g.level .shift scope lines
        make start (.binary · left op.text right)

def arguments (g : ExprParsers) (scope : Scope) : Parser (List Expr) :=
  listUntil .rparen (g.expression scope true)

def qualified (g : ExprParsers) (scope : Scope) (lines : Bool) : Parser Expr := do
  let start ← position
  let name ← qualifiedName
  match ← accept lines [.lparen] with
  | some _ =>
    let arguments ← g.arguments scope
    make start (.invoke · name none arguments)
  | none => make start (.staticAccess · name)

def fieldAccess (g : ExprParsers) (scope : Scope) (lines : Bool) (start : Nat) (source : Expr) :
    Parser Expr := do
  let name ← identifier
  let access ← make start (.recordAccess · source name)
  match ← accept lines [.lparen] with
  | some _ =>
    let arguments ← g.arguments scope
    make start (.indirectInvoke · access none arguments)
  | none =>
    if ← ahead lines [.less] then
      match ← optionalLifetimeArguments scope lines with
      | some lifetimes =>
        let arguments ← g.arguments scope
        make start (.indirectInvoke · access (some lifetimes) arguments)
      | none => return access
    else return access

/-- What an access goes on with after `source`: an index on the same line, a field, or `::`. -/
def accessStep (g : ExprParsers) (scope : Scope) (lines : Bool) (start : Nat) (source : Expr) :
    Parser (Option Expr) := do
  match ← accept false [.lbracket] with
  | some _ =>
    let index ← g.level .additive scope true
    let _ ← expect .rbracket
    return some (← make start (.arrayAccess · source index))
  | none =>
    match ← accept lines [.dot, .arrow, .colonColon] with
    | none => return none
    | some t =>
      if t.kind = .colonColon then
        moveTo start
        return some (← g.qualified scope lines)
      else if t.kind = .arrow then
        let target ← make start (.dereference · source)
        return some (← g.fieldAccess scope lines start target)
      else return some (← g.fieldAccess scope lines start source)

def access (g : ExprParsers) (scope : Scope) (lines : Bool) : Parser Expr := do
  let start ← settle
  let first ← g.level .term scope lines
  foldWhile (g.accessStep scope lines start) first

def call (g : ExprParsers) (scope : Scope) (start : Nat) (name : Identifier)
    (lifetimes : Option (List Identifier)) : Parser Expr := do
  let arguments ← g.arguments scope
  match scope.lookup name.text with
  | some v =>
    let source ← allocate name.mark.span (.variableAccess · name (some v.mark.index))
    make start (.indirectInvoke · source lifetimes arguments)
  | none =>
    let name ← nameOf name
    make start (.invoke · name lifetimes arguments)

/-- A name on its own: a variable, a field of the value whose invariant this is, or a constant. -/
def plainName (scope : Scope) (start : Nat) (name : Identifier) : Parser Expr := do
  match scope.lookup name.text with
  | some v => make start (.variableAccess · name (some v.mark.index))
  | none =>
    if scope.isAlias name.text then
      let dollar ← allocate name.mark.span (⟨·, "$"⟩)
      let declaration := (scope.lookup "$").map (·.mark.index)
      let source ← make start (.variableAccess · dollar declaration)
      make start (.recordAccess · source name)
    else
      let name ← nameOf name
      make start (.staticAccess · name)

def recordFields (g : ExprParsers) (start : Nat) (name : Option Identifier) (scope : Scope) :
    Parser Expr := do
  let _ ← expect .lbrace
  let found ← untilClose .rbrace false (fun found => do
    let key ← identifier
    if key.text ∈ found.map (·.name.text) then reject .duplicateKey key.mark.span
    let _ ← expect .colon
    return FieldValue.mk key (← g.expression scope true) :: found) []
  make start (.recordInitialiser · name found.reverse)

/-- An allocation; the lifetime `*` stands where none is given. -/
def allocation (g : ExprParsers) (scope : Scope) (lines : Bool) : Parser Expr := do
  let start ← position
  match ← optionalLifetime lines with
  | some l =>
    ofExcept (scope.checkLifetime l)
    let _ ← expect .colon
    let _ ← expect .kwNew
    let operand ← g.expression scope lines
    make start (.new · operand l)
  | none =>
    let keyword ← expect .kwNew
    let l ← allocate keyword.span (⟨·, "*"⟩)
    let operand ← g.expression scope lines
    make start (.new · operand l)

def name (g : ExprParsers) (scope : Scope) (lines : Bool) : Parser Expr := do
  let start ← position
  let name ← identifier
  match ← accept lines [.lparen] with
  | some _ => g.call scope start name none
  | none =>
    if ← ahead lines [.colon, .kwNew] then
      moveTo start
      g.allocation scope lines
    else if ← ahead lines [.less] then
      match ← optionalLifetimeArguments scope lines with
      | some lifetimes => g.call scope start name (some lifetimes)
      | none => plainName scope start name
    else if ← ahead lines [.lbrace] then g.recordFields start (some name) scope
    else plainName scope start name

def termFollows : Parser Bool := do
  let input ← tokens
  return (input.tokens[input.skip false (← position)]?).any (·.kind.startsTerm)

/--
An expression in brackets. When it could as well be a type and a term follows, it is read again, as
the type of a cast.
-/
def inBrackets (g : ExprParsers) (scope : Scope) (lines : Bool) (start : Nat) : Parser Expr := do
  moveTo start
  let _ ← expect .lparen
  let e ← g.expression scope true
  let _ ← expect .rparen
  if !e.isForced && (← termFollows) then
    moveTo start
    let type ← g.types.type scope
    let operand ← g.expression scope lines
    make start (.cast · type operand)
  else return e

def bracketed (g : ExprParsers) (scope : Scope) (lines : Bool) : Parser Expr := do
  let start ← position
  let _ ← expect .lparen
  match ← forcedType g.types scope with
  | none => g.inBrackets scope lines start
  | some type =>
    match ← accept true [.rparen] with
    | none => g.inBrackets scope lines start
    | some _ =>
      let operand ← g.expression scope lines
      make start (.cast · type operand)

/-- The first element is read twice: what follows it decides between the two forms. -/
def array (g : ExprParsers) (scope : Scope) : Parser Expr := do
  let start ← position
  let _ ← expect .lbracket
  match ← acceptNext .rbracket with
  | some _ => make start (.arrayInitialiser · [])
  | none =>
    let _ ← g.expression scope true
    let semicolon ← accept true [.semicolon]
    moveTo start
    let _ ← expect .lbracket
    let first ← g.expression scope true
    match semicolon with
    | some _ =>
      let _ ← expect .semicolon
      let length ← g.expression scope true
      let _ ← expect .rbracket
      make start (.arrayGenerator · first length)
    | none =>
      let found ← untilClose .rbracket true
        (fun found => do return (← g.expression scope true) :: found) [first]
      make start (.arrayInitialiser · found.reverse)

def lambda (g : ExprParsers) (scope : Scope) : Parser Expr := do
  let start ← position
  let _ ← expect .ampersand
  let captures ← optionalCaptures
  let (lifetimes, inner) ← optionalLifetimeParameters (scope.capturing captures)
  let (parameters, inner) ← parameters g.types .arrow inner
  let body ← g.expression inner true
  let _ ← expect .rparen
  make start (.lambda · parameters captures lifetimes body)

def lambdaConstant (g : ExprParsers) (scope : Scope) (lines : Bool) : Parser Expr := do
  let start ← position
  let _ ← expect .ampersand
  let name ← qualifiedName
  if ← ahead lines [.lparen] then
    let types ← g.types.parameterTypes scope
    make start (.lambdaConstant · name types)
  else make start (.lambdaConstant · name [])

def functionValue (g : ExprParsers) (scope : Scope) (lines : Bool) : Parser Expr := do
  let start ← position
  let _ ← expect .ampersand
  let opening ← accept lines [.lparen, .lbracket, .less]
  moveTo start
  match opening with
  | some _ => g.lambda scope
  | none => g.lambdaConstant scope lines

def term (g : ExprParsers) (scope : Scope) (lines : Bool) : Parser Expr := do
  let t ← current
  let start ← position
  match t.kind with
  | .lparen => g.bracketed scope lines
  | .kwNew | .kwThis => g.allocation scope lines
  | .identifier => g.name scope lines
  | .kwNull =>
    let _ ← advance
    make start (.nullLit ·)
  | .kwTrue =>
    let _ ← advance
    make start (.boolLit · true)
  | .kwFalse =>
    let _ ← advance
    make start (.boolLit · false)
  | .byteLit =>
    let _ ← advance
    let value ← ofReading t.byteValue
    make start (.byteLit · value)
  | .charLit =>
    let _ ← advance
    let value ← ofReading t.charValue
    make start (.charLit · value)
  | .intLit =>
    let _ ← advance
    let value ← ofReading t.integerValue
    make start (.intLit · value)
  | .stringLit =>
    let _ ← advance
    let value ← ofReading t.stringValue
    make start (.stringLit · value)
  | .minus =>
    let _ ← advance
    let operand ← g.level .access scope lines
    make start (.unary · .negate operand)
  | .bar =>
    let _ ← advance
    let operand ← g.level .shift scope true
    let _ ← expect .bar
    make start (.arrayLength · operand)
  | .lbracket => g.array scope
  | .lbrace => g.recordFields start none scope
  | .bang =>
    let _ ← advance
    let operand ← g.level .condition scope lines
    make start (.unary · .not operand)
  | .star =>
    if ← ahead lines [.star, .colon, .kwNew] then g.allocation scope lines
    else
      let _ ← advance
      let operand ← g.level .term scope lines
      make start (.dereference · operand)
  | .tilde =>
    let _ ← advance
    let operand ← g.expression scope lines
    make start (.unary · .complement operand)
  | .ampersand => g.functionValue scope lines
  | _ => reject .unrecognisedTerm t.span

def next (g : ExprParsers) : ExprParsers where
  types := g.types
  level
    | .logical => g.rightGrouped .connective .logical [.implies, .iff]
    | .connective => g.rightGrouped .bitOr .connective [.logicalAnd, .logicalOr]
    | .bitOr => g.rightGrouped .bitXor .bitOr [.bar]
    | .bitXor => g.rightGrouped .bitAnd .bitXor [.caret]
    | .bitAnd => g.rightGrouped .condition .bitAnd [.ampersand]
    | .condition => g.condition
    | .shift => g.leftGrouped .additive [.shiftLeft, .shiftRight]
    | .additive => g.leftGrouped .multiplicative [.plus, .minus]
    | .multiplicative => g.leftGrouped .access [.star, .slash, .percent]
    | .access => g.access
    | .term => g.term

def levelAt (types : TypeParsers) : Nat → Level → Scope → Bool → Parser Expr
  | 0, _, _, _ => fail .exhausted
  | depth + 1, level, scope, lines => (next ⟨types, levelAt types depth⟩).level level scope lines

def ofDepth (types : TypeParsers) (depth : Nat) : ExprParsers :=
  ⟨types, levelAt types depth⟩

theorem ofDepth_succ (types : TypeParsers) (depth : Nat) :
    ofDepth types (depth + 1) = (ofDepth types depth).next := rfl

end ExprParsers

end Whiley.Grammar
