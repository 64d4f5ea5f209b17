import Whiley.Arena
import Whiley.Fault
import Whiley.Indent
import Whiley.Tree.Node

/-!
Reading a stream of tokens. A parser moves a cursor over the tokens and stores every node it builds;
a node stays in the arena even when the attempt that built it is given up.
-/

namespace Whiley

structure Input where
  tokens : Array Token
  /-- How many rounds a repetition may take. -/
  allowance : Nat

def Input.ofTokens (tokens : List Token) : Input :=
  ⟨tokens.toArray, tokens.length + 1⟩

structure Reading where
  pos : Nat
  arena : Arena Node

inductive Parser.Result (α : Type)
  | ok (value : α) (reading : Reading)
  | error (failure : Failure) (reading : Reading)

namespace Parser.Result

def reading {α : Type} : Result α → Reading
  | .ok _ s => s
  | .error _ s => s

@[simp]
theorem reading_ok {α : Type} (a : α) (s : Reading) : (ok a s).reading = s := rfl

@[simp]
theorem reading_error {α : Type} (f : Failure) (s : Reading) :
    (error f s : Result α).reading = s := rfl

end Parser.Result

/-- No parser takes a node out of the arena or puts another in its place. -/
structure Parser (α : Type) where
  run : Input → Reading → Parser.Result α
  grows : ∀ input s, s.arena ≤ (run input s).reading.arena

namespace Input

/-- What is skipped in front of a token, line ends only when `lines` holds. -/
def skips (lines : Bool) (k : Kind) : Bool :=
  if lines then k.isSpace else k.isLineSpace

def skipFrom (input : Input) (lines : Bool) : Nat → Nat → Nat
  | 0, i => i
  | fuel + 1, i =>
    match input.tokens[i]? with
    | some t => if skips lines t.kind then input.skipFrom lines fuel (i + 1) else i
    | none => i

def skip (input : Input) (lines : Bool) (i : Nat) : Nat :=
  input.skipFrom lines (input.tokens.size - i) i

def trimEnd (input : Input) : Nat → Nat
  | 0 => 0
  | i + 1 =>
    match input.tokens[i]? with
    | some t => if t.kind.isSpace then input.trimEnd i else i + 1
    | none => input.trimEnd i

def startAt (input : Input) (i : Nat) : Nat :=
  (input.tokens[i]?.map (·.start)).getD 0

def stopBefore (input : Input) : Nat → Nat
  | 0 => 0
  | i + 1 => (input.tokens[i]?.map (·.stop)).getD 0

def span (input : Input) (start stop : Nat) : Span :=
  let first := input.skip true start
  let last := input.trimEnd stop
  if first < last then ⟨input.startAt first, input.stopBefore last⟩
  else ⟨input.stopBefore start, input.stopBefore start⟩

/-- Past blank lines and lines of comments, to where a line begins. -/
def skipLinesFrom (input : Input) : Nat → Nat → Nat
  | 0, i => i
  | fuel + 1, i =>
    let next := input.skip false i
    match input.tokens[next]? with
    | none => next
    | some t => if t.kind = .newline then input.skipLinesFrom fuel (next + 1) else i

def skipLines (input : Input) (i : Nat) : Nat :=
  input.skipLinesFrom (input.tokens.size + 1 - i) i

def lastSpan (input : Input) : Span :=
  (input.tokens.back?.map (·.span)).getD ⟨0, 0⟩

end Input

namespace Parser

def andThen {α β : Type} (p : Parser α) (next : α → Parser β) : Parser β where
  run input s :=
    match p.run input s with
    | .ok a s' => (next a).run input s'
    | .error f s' => .error f s'
  grows input s := by
    have hp := p.grows input s
    cases h : p.run input s with
    | ok a s' =>
      rw [h] at hp
      exact Arena.le_trans hp ((next a).grows input s')
    | error f s' =>
      rw [h] at hp
      exact hp

instance : Monad Parser where
  pure a := ⟨fun _ s => .ok a s, fun _ s => Arena.le_refl s.arena⟩
  bind := andThen

def tokens : Parser Input :=
  ⟨fun input s => .ok input s, fun _ s => Arena.le_refl s.arena⟩

def fail {α : Type} (f : Failure) : Parser α :=
  ⟨fun _ s => .error f s, fun _ s => Arena.le_refl s.arena⟩

def position : Parser Nat :=
  ⟨fun _ s => .ok s.pos s, fun _ s => Arena.le_refl s.arena⟩

def moveTo (pos : Nat) : Parser Unit :=
  ⟨fun _ s => .ok () { s with pos := pos }, fun _ s => Arena.le_refl s.arena⟩

def reject {α : Type} (fault : SyntaxFault) (span : Span) : Parser α :=
  fail (.error ⟨fault, span⟩)

def ofExcept {α : Type} : Except SyntaxError α → Parser α
  | .ok a => pure a
  | .error e => fail (.error e)

def ofReading {α : Type} : Except Failure α → Parser α
  | .ok a => pure a
  | .error f => fail f

def current : Parser Token := do
  let input ← tokens
  let pos := input.skip true (← position)
  moveTo pos
  match input.tokens[pos]? with
  | some t => return t
  | none => reject .unexpectedEnd input.lastSpan

def settle : Parser Nat := do
  let _ ← current
  position

def advance : Parser Token := do
  let t ← current
  moveTo ((← position) + 1)
  return t

def expect (k : Kind) : Parser Token := do
  let t ← advance
  if t.kind = k then return t else reject (.expecting k) t.span

def accept (lines : Bool) (ks : List Kind) : Parser (Option Token) := do
  let input ← tokens
  let pos := input.skip lines (← position)
  match input.tokens[pos]? with
  | some t =>
    if t.kind ∈ ks then
      moveTo (pos + 1)
      return some t
    else return none
  | none => return none

def acceptNext (k : Kind) : Parser (Option Token) := do
  let t ← current
  if t.kind = k then
    moveTo ((← position) + 1)
    return some t
  else return none

def comes (input : Input) (lines : Bool) : List Kind → Nat → Bool
  | [], _ => true
  | k :: ks, i =>
    let pos := input.skip lines i
    match input.tokens[pos]? with
    | some t => t.kind = k && comes input lines ks (pos + 1)
    | none => false

def ahead (lines : Bool) (ks : List Kind) : Parser Bool := do
  return comes (← tokens) lines ks (← position)

def atLineEnd : Parser Bool := do
  let input ← tokens
  match input.tokens[input.skip false (← position)]? with
  | some t => return t.kind = .newline
  | none => return true

def endLine : Parser Unit := do
  let input ← tokens
  let pos := input.skip false (← position)
  moveTo pos
  match input.tokens[pos]? with
  | some t => if t.kind = .newline then moveTo (pos + 1) else reject .expectingLineEnd t.span
  | none => return

/--
The token that indents the next line that is not empty, and the indent; the cursor moves to where
that line begins.
-/
def lineStart : Parser (Option (Token × Indent)) := do
  let input ← tokens
  let pos := input.skipLines (← position)
  moveTo pos
  match input.tokens[pos]? with
  | some t =>
    if t.kind = .indent then
      match Indent.ofText t.text with
      | .ok i => return some (t, i)
      | .error c => fail (.notBlank c)
    else return none
  | none => return none

def lineIndent : Parser (Option Indent) := do
  return (← lineStart).map (·.2)

def acceptAtIndent (indent : Indent) (k : Kind) : Parser (Option Token) := do
  let start ← position
  if (← lineIndent) = some indent then
    match ← accept true [k] with
    | some t => return some t
    | none =>
      moveTo start
      return none
  else
    moveTo start
    return none

def allocate {α : Type} [ToNode α] (span : Span) (build : Mark → α) : Parser α where
  run _ s :=
    let node := build ⟨span, s.arena.size⟩
    .ok node { s with arena := s.arena.allocate (ToNode.toNode node) }
  grows _ s := s.arena.le_allocate _

def make {α : Type} [ToNode α] (start : Nat) (build : Mark → α) : Parser α := do
  allocate ((← tokens).span start (← position)) build

/-- Runs a parser; when the program does not fit it, goes back and gives nothing. -/
def attempt {α : Type} (p : Parser α) : Parser (Option α) where
  run input s :=
    match p.run input s with
    | .ok a s' => .ok (some a) s'
    | .error (.error _) s' => .ok none { s' with pos := s.pos }
    | .error f s' => .error f s'
  grows input s := by
    have hp := p.grows input s
    cases h : p.run input s with
    | ok a s' =>
      rw [h] at hp
      exact hp
    | error f s' =>
      rw [h] at hp
      cases f <;> exact hp

def iterate {σ α : Type} (step : σ → Parser (σ ⊕ α)) : Nat → σ → Parser α
  | 0, _ => fail .exhausted
  | n + 1, s => do
    match ← step s with
    | .inl s' => iterate step n s'
    | .inr a => return a

def repeating {σ α : Type} (step : σ → Parser (σ ⊕ α)) (s : σ) : Parser α := do
  iterate step (← tokens).allowance s

def foldWhile {σ : Type} (step : σ → Parser (Option σ)) : σ → Parser σ :=
  repeating fun s => do
    match ← step s with
    | some s' => return .inl s'
    | none => return .inr s

def many {α : Type} (next : Parser (Option α)) : Parser (List α) := do
  let found ← foldWhile (fun found => do return (← next).map (· :: found)) []
  return found.reverse

def afterEach {α : Type} (lines : Bool) (separator : Kind) (item : Parser α) :
    Parser (List α) :=
  many do
    match ← accept lines [separator] with
    | some _ => return some (← item)
    | none => return none

/-- Items with commas between them up to the closing token; `started` when one was read before. -/
def untilClose {σ : Type} (close : Kind) (started : Bool) (item : σ → Parser σ) (s : σ) :
    Parser σ := do
  let (_, s) ← foldWhile (fun (started, s) => do
    match ← acceptNext close with
    | some _ => return none
    | none =>
      if started then let _ ← expect .comma
      return some (true, ← item s)) (started, s)
  return s

def listUntil {α : Type} (close : Kind) (item : Parser α) : Parser (List α) := do
  let found ← untilClose close false (fun found => do return (← item) :: found) []
  return found.reverse

end Parser

end Whiley
