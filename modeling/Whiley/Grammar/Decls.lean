import Whiley.Grammar.Stmts

namespace Whiley.Grammar

open Whiley.Parser

abbrev DeclParsers := StmtParsers

namespace DeclParsers

def starOf (t : Token) : Parser Identifier :=
  allocate t.span (⟨·, "*"⟩)

def component : Parser Identifier := do
  match ← accept true [.star] with
  | some t => starOf t
  | none => identifier

def imports : Parser Decl := do
  let start ← position
  let _ ← expect .kwImport
  let first ← identifier
  let rest ← afterEach true .colonColon component
  let d ← make start (.imports · (first :: rest))
  endLine
  return d

/-- At most one of the modifiers is `public` or `private`. -/
def modifiers : Parser (List String) := do
  let (_, found) ← foldWhile (fun (visible, found) => do
    match ← accept true [.kwPublic, .kwPrivate, .kwNative, .kwExport] with
    | none => return none
    | some t =>
      let visibility := t.kind = .kwPublic || t.kind = .kwPrivate
      if visible && visibility then reject .repeatedVisibility t.span
      else return some (visible || visibility, t.text :: found)) (false, [])
  return found.reverse

/-- A parameter in brackets, or a type alone, whose value is named `$`. -/
def result (types : TypeParsers) (scope : Scope) : Parser (Variable × Scope) := do
  let start ← position
  let (type, name) ←
    match ← accept true [.lparen] with
    | some _ => do
      let named ← types.named scope
      let _ ← expect .rparen
      pure named
    | none => do
      let type ← types.type scope
      pure (type, ← allocate type.mark.span (⟨·, "$"⟩))
  let v ← make start (⟨·, name, type⟩)
  return (v, ← ofExcept (scope.declareVariable v))

def results (types : TypeParsers) (scope : Scope) : Parser (List Variable × Scope) := do
  match ← accept true [.arrow] with
  | none => return ([], scope)
  | some _ =>
    if ← ahead true [.lparen] then parameters types .rparen scope
    else
      let (v, scope) ← result types scope
      return ([v], scope)

def typeDecl (g : DeclParsers) (start : Nat) (modifiers : List String) : Parser Decl := do
  let _ ← advance
  let name ← identifier
  let _ ← expect .kwIs
  let (v, scope) ← result g.exprs.types .root
  let scope := v.type.fieldNames.foldl Scope.declareAlias scope
  let invariant ← clauses g.exprs .kwWhere scope
  let d ← make start (.type · modifiers name v invariant)
  endLine
  return d

def constant (g : DeclParsers) (start : Nat) (modifiers : List String) : Parser Decl := do
  let _ ← advance
  let name ← identifier
  let _ ← expect .kwIs
  let value ← g.expression .root false
  let d ← make start (.constant · modifiers name value)
  endLine
  return d

def routine (g : DeclParsers) (modifiers : List String) (scope : Scope) : Parser Routine := do
  let name ← identifier
  let (parameters, scope) ← parameters g.exprs.types .rparen scope
  let (returns, scope) ← results g.exprs.types scope
  let requires ← clauses g.exprs .kwRequires scope
  let ensures ← clauses g.exprs .kwEnsures scope
  StmtParsers.headerEnd
  let body ← g.block scope.declareThis false
  return { modifiers, name, parameters, returns, requires, ensures, body }

def function (g : DeclParsers) (start : Nat) (modifiers : List String) : Parser Decl := do
  let _ ← advance
  let r ← routine g modifiers .root
  make start (.function · r)

def method (g : DeclParsers) (start : Nat) (modifiers : List String) : Parser Decl := do
  let _ ← advance
  let (lifetimes, scope) ← optionalLifetimeParameters .root
  let r ← routine g modifiers scope
  make start (.method · lifetimes r)

def property (g : DeclParsers) (start : Nat) (modifiers : List String) : Parser Decl := do
  let _ ← advance
  let name ← identifier
  let (parameters, scope) ← parameters g.exprs.types .rparen .root
  let invariant ← clauses g.exprs .kwWhere scope
  let d ← make start (.property · modifiers name parameters invariant)
  endLine
  return d

/-- `type` and `constant` are keywords here only. -/
def declaration (g : DeclParsers) : Parser Decl := do
  let start ← settle
  if (← current).kind = .kwImport then imports
  else
    let modifiers ← modifiers
    let t ← current
    if t.kind = .identifier ∧ t.text = "type" then typeDecl g start modifiers
    else if t.kind = .identifier ∧ t.text = "constant" then constant g start modifiers
    else if t.kind = .kwFunction then function g start modifiers
    else if t.kind = .kwMethod then method g start modifiers
    else if t.kind = .kwProperty then property g start modifiers
    else reject .unrecognisedDeclaration t.span

end DeclParsers

def packageComponent : Parser String := do
  return (← expect .identifier).text

def package : Parser (List String) := do
  match ← accept true [.kwPackage] with
  | none => return []
  | some _ =>
    let first ← packageComponent
    let rest ← afterEach true .dot packageComponent
    endLine
    return first :: rest

def moreTokens : Parser Bool := do
  let input ← tokens
  let pos := input.skip true (← position)
  moveTo pos
  return pos < input.tokens.size

def module (g : DeclParsers) : Parser Module := do
  let package ← package
  let declarations ← many do
    if ← moreTokens then return some (← DeclParsers.declaration g) else return none
  allocate ⟨0, (← tokens).lastSpan.stop⟩ (⟨·, package, declarations⟩)

/-- The grammar, for constructs nested no deeper than `depth`. -/
def ofDepth (depth : Nat) : DeclParsers :=
  let exprs := ExprParsers.ofDepth (TypeParsers.ofDepth depth) depth
  .ofDepth exprs (TargetParser.ofDepth exprs depth) depth

/-- A depth that no stream of so many tokens goes beyond. -/
def depthFor (tokens : Nat) : Nat := 16 * (tokens + 2)

end Whiley.Grammar

namespace Whiley

def parseInto (arena : Arena Node) (tokens : List Token) :
    Except Failure (Module × Arena Node) :=
  let grammar := Grammar.ofDepth (Grammar.depthFor tokens.length)
  match (Grammar.module grammar).run (.ofTokens tokens) ⟨0, arena⟩ with
  | .ok m s => .ok (m, s.arena)
  | .error f _ => .error f

def parse (tokens : List Token) : Except Failure (Module × Arena Node) :=
  parseInto .empty tokens

end Whiley
