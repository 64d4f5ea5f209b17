import Whiley.Grammar.Targets

namespace Whiley.Grammar

open Whiley.Parser

structure StmtParsers where
  exprs : ExprParsers
  target : TargetParser
  block : Scope → Bool → Parser Block
  ifElse : Scope → Parser Stmt

namespace StmtParsers

def expression (g : StmtParsers) (scope : Scope) (lines : Bool) : Parser Expr :=
  g.exprs.expression scope lines

def expressions (g : StmtParsers) (scope : Scope) : Parser (List Expr) := do
  let first ← g.expression scope false
  let rest ← afterEach false .comma (g.expression scope false)
  return first :: rest

end StmtParsers

def clauses (g : ExprParsers) (keyword : Kind) (scope : Scope) : Parser (List Expr) :=
  afterEach true keyword (g.expression scope false)

/-- The lines of one indent; a shallower line ends them, no other may stand between. -/
def aligned {σ : Type} (indent : Indent) (item : σ → Parser σ) : σ → Parser σ :=
  foldWhile fun s => do
    match ← lineStart with
    | none => return none
    | some (t, i) =>
      if i < indent then return none
      else if i = indent then return some (← item s)
      else reject .unexpectedBlockEnd t.span

def deeperIndent (scope : Scope) : Parser (Option Indent) := do
  match ← lineIndent with
  | some i => if scope.indent < i then return some i else return none
  | none => return none

/-- Nothing comes after the default. -/
def checkCases : List Case → Except SyntaxError Unit
  | c :: next :: rest =>
    if c.isDefault then
      .error ⟨if next.isDefault then .duplicateDefault else .unreachableCase, next.mark.span⟩
    else checkCases (next :: rest)
  | _ => .ok ()

namespace StmtParsers

def condition (g : StmtParsers) (keyword : Kind) (build : Mark → Expr → Stmt) (scope : Scope) :
    Parser Stmt := do
  let start ← position
  let _ ← expect keyword
  let e ← g.expression scope false
  let s ← make start (build · e)
  endLine
  return s

def simple (build : Mark → Stmt) : Parser Stmt := do
  let start ← position
  let _ ← advance
  let s ← make start build
  endLine
  return s

def loopOnly (build : Mark → Stmt) (fault : SyntaxFault) (scope : Scope) : Parser Stmt := do
  let t ← current
  let s ← simple build
  if scope.inLoop then return s else reject fault t.span

def returns (g : StmtParsers) (scope : Scope) : Parser Stmt := do
  let start ← position
  let _ ← expect .kwReturn
  let values ← if ← atLineEnd then pure [] else g.expressions scope
  let s ← make start (.return · values)
  endLine
  return s

def headerEnd : Parser Unit := do
  let _ ← expect .colon
  endLine

def doLoop (g : StmtParsers) (scope : Scope) : Parser Stmt := do
  let start ← position
  let _ ← expect .kwDo
  headerEnd
  let body ← g.block scope true
  let _ ← expect .kwWhile
  let condition ← g.expression scope false
  let invariants ← clauses g.exprs .kwWhere scope
  let s ← make start (.doWhile · condition invariants body)
  endLine
  return s

def whileLoop (g : StmtParsers) (scope : Scope) : Parser Stmt := do
  let start ← position
  let _ ← expect .kwWhile
  let condition ← g.expression scope true
  let invariants ← clauses g.exprs .kwWhere scope
  headerEnd
  let body ← g.block scope true
  make start (.while · condition invariants body)

/-- What follows `else`: a block, or a further test that is wrapped in one. -/
def elseBranch (g : StmtParsers) (scope : Scope) : Parser Block := do
  let start ← position
  if ← ahead true [.kwIf] then
    let chained ← g.ifElse scope
    make start (.mk · [chained])
  else
    headerEnd
    g.block scope scope.inLoop

def ifThen (g : StmtParsers) (scope : Scope) : Parser Stmt := do
  let start ← position
  let _ ← expect .kwIf
  let condition ← g.expression scope true
  headerEnd
  let trueBranch ← g.block scope scope.inLoop
  match ← acceptAtIndent scope.indent .kwElse with
  | some _ =>
    let falseBranch ← g.elseBranch scope
    make start (.ifElse · condition trueBranch (some falseBranch))
  | none => make start (.ifElse · condition trueBranch none)

def case (g : StmtParsers) (scope : Scope) : Parser Case := do
  let start ← position
  let conditions ←
    match ← accept true [.kwDefault] with
    | some _ => pure []
    | none => do
      let _ ← expect .kwCase
      let first ← g.expression scope true
      let rest ← afterEach true .comma (g.expression scope true)
      pure (first :: rest)
  headerEnd
  let body ← g.block scope scope.inLoop
  make start (.mk · conditions body)

def cases (g : StmtParsers) (scope : Scope) : Parser (List Case) := do
  match ← deeperIndent scope with
  | none => return []
  | some indent =>
    let inner := scope.deeper indent
    let found ← aligned indent (fun found => do return (← g.case inner) :: found) []
    ofExcept (checkCases found.reverse)
    return found.reverse

def switch (g : StmtParsers) (scope : Scope) : Parser Stmt := do
  let start ← position
  let _ ← expect .kwSwitch
  let condition ← g.expression scope true
  headerEnd
  let cases ← g.cases scope
  make start (.switch · condition cases)

def assign (g : StmtParsers) (scope : Scope) : Parser Stmt := do
  let start ← position
  let first ← g.target scope
  let rest ← afterEach true .comma (g.target scope)
  let _ ← expect .assign
  let values ← g.expressions scope
  let s ← make start (.assign · (first :: rest) values)
  endLine
  return s

/-- The variable is declared last, so that its initialiser cannot refer to it. -/
def declaration (g : StmtParsers) (scope : Scope) : Parser (Stmt × Scope) := do
  let start ← position
  let type ← g.exprs.types.type scope
  let name ← identifier
  ofExcept (scope.checkAvailable name)
  let initialiser ←
    match ← accept true [.assign] with
    | some _ => some <$> g.expression scope false
    | none => pure none
  let s ← make start fun m => Stmt.variable ⟨m, name, type⟩ initialiser
  endLine
  return (s, ← ofExcept (scope.declareVariable ⟨s.mark, name, type⟩))

def unlabelled (g : StmtParsers) (scope : Scope) : Parser (Stmt × Scope) := do
  let start ← position
  match ← forcedType g.exprs.types scope with
  | some _ =>
    moveTo start
    g.declaration scope
  | none =>
    let e ← g.expression scope false
    if e.isInvocation then
      endLine
      return (.invocation e, scope)
    else
      match ← accept true [.assign, .comma] with
      | some _ =>
        moveTo start
        return (← g.assign scope, scope)
      | none =>
        moveTo start
        g.declaration scope

/-- A name and a colon that ends the line begin a named block, whose name is a lifetime in it. -/
def headless (g : StmtParsers) (scope : Scope) : Parser (Stmt × Scope) := do
  let start ← position
  match ← optionalIdentifier with
  | none => g.unlabelled scope
  | some name =>
    if (← accept true [.colon]).isSome && (← atLineEnd) then
      endLine
      let inner ← ofExcept (scope.declareLifetime name)
      let body ← g.block inner scope.inLoop
      return (← make start (.namedBlock · name body), scope)
    else
      moveTo start
      g.unlabelled scope

def keeping (scope : Scope) (p : Parser Stmt) : Parser (Stmt × Scope) := do
  return (← p, scope)

def statement (g : StmtParsers) (scope : Scope) : Parser (Stmt × Scope) := do
  match (← current).kind with
  | .kwAssert => keeping scope (g.condition .kwAssert .assert scope)
  | .kwAssume => keeping scope (g.condition .kwAssume .assume scope)
  | .kwBreak => keeping scope (loopOnly .break .misplacedBreak scope)
  | .kwContinue => keeping scope (loopOnly .continue .misplacedContinue scope)
  | .kwDo => keeping scope (g.doLoop scope)
  | .kwDebug => keeping scope (g.condition .kwDebug .debug scope)
  | .kwFail => keeping scope (simple .fail)
  | .kwIf => keeping scope (g.ifThen scope)
  | .kwReturn => keeping scope (g.returns scope)
  | .kwWhile => keeping scope (g.whileLoop scope)
  | .kwSkip => keeping scope (simple .skip)
  | .kwSwitch => keeping scope (g.switch scope)
  | _ => g.headless scope

def statements (g : StmtParsers) (indent : Indent) (scope : Scope) : Parser (List Stmt) := do
  let (found, _) ← aligned indent (fun (found, scope) => do
    let (s, scope) ← g.statement scope
    return (s :: found, scope)) ([], scope)
  return found.reverse

def blockOf (g : StmtParsers) (scope : Scope) (inLoop : Bool) : Parser Block := do
  let start ← position
  match ← deeperIndent scope with
  | none => make start (.mk · [])
  | some indent =>
    let statements ← g.statements indent ((scope.deeper indent).looping inLoop)
    make start (.mk · statements)

def next (g : StmtParsers) : StmtParsers where
  exprs := g.exprs
  target := g.target
  block := g.blockOf
  ifElse := g.ifThen

mutual

def blockAt (exprs : ExprParsers) (target : TargetParser) : Nat → Scope → Bool → Parser Block
  | 0, _, _ => fail .exhausted
  | depth + 1, scope, inLoop =>
    (next ⟨exprs, target, blockAt exprs target depth, ifElseAt exprs target depth⟩).block scope inLoop

def ifElseAt (exprs : ExprParsers) (target : TargetParser) : Nat → Scope → Parser Stmt
  | 0, _ => fail .exhausted
  | depth + 1, scope =>
    (next ⟨exprs, target, blockAt exprs target depth, ifElseAt exprs target depth⟩).ifElse scope

end

def ofDepth (exprs : ExprParsers) (target : TargetParser) (depth : Nat) : StmtParsers :=
  ⟨exprs, target, blockAt exprs target depth, ifElseAt exprs target depth⟩

theorem ofDepth_succ (exprs : ExprParsers) (target : TargetParser) (depth : Nat) :
    ofDepth exprs target (depth + 1) = (ofDepth exprs target depth).next := rfl

end StmtParsers

end Whiley.Grammar
