import Whiley.Fault
import Whiley.SourceText
import Whiley.Token.Lexer

namespace Whiley

inductive Severity
  | error | warning | note
  deriving DecidableEq, Repr

def Severity.text : Severity → String
  | .error => "error"
  | .warning => "warning"
  | .note => "note"

structure Label where
  file : String
  start : Int
  stop : Int
  message : String
  deriving DecidableEq, Repr

structure Diagnostic where
  severity : Severity
  code : String
  message : String
  labels : List Label
  notes : List String
  deriving DecidableEq, Repr

namespace Diagnostic

def lexicalCode : String := "E100"

def syntaxCode : String := "E200"

def errorAt (code message file : String) (span : Span) : Diagnostic :=
  ⟨.error, code, message, [⟨file, span.start, span.stop, ""⟩], []⟩

def ofLexicalError (file : String) (e : LexicalError) : Diagnostic :=
  errorAt lexicalCode e.fault.message file e.span

def ofSyntaxError (file : String) (e : SyntaxError) : Diagnostic :=
  errorAt syntaxCode e.fault.message file e.span

def summary (ds : List Diagnostic) : String :=
  toString ds.length ++ " error(s): " ++ "; ".intercalate (ds.map (·.message))

end Diagnostic

structure Rendering where
  color : Bool
  source? : String → Option SourceText

namespace Rendering

def escape (r : Rendering) (code : String) : String :=
  if r.color then "\x1b[" ++ code ++ "m" else ""

def reset (r : Rendering) : String := r.escape "0"

def bold (r : Rendering) : String := r.escape "1"

def blue (r : Rendering) : String := r.escape "1;34"

def severity (r : Rendering) : Severity → String
  | .error => r.escape "1;31"
  | .warning => r.escape "1;33"
  | .note => r.escape "1;36"

def spaces (n : Nat) : String :=
  String.ofList (List.replicate n ' ')

def gutter (n : Nat) : String :=
  spaces (4 - (toString n).length) ++ toString n

def arrow (r : Rendering) (place : String) : String :=
  "  " ++ r.blue ++ "-->" ++ r.reset ++ " " ++ place

def bar (r : Rendering) (gutter : String) : String :=
  "  " ++ r.blue ++ gutter ++ " |" ++ r.reset

/-- Carets are drawn only under what lies on one line. -/
def carets (r : Rendering) (s : Severity) (start stop : Position) : List String :=
  if start.line = stop.line then
    [r.bar "  " ++ " " ++ spaces (start.column - 1) ++ r.severity s ++
      String.ofList (List.replicate (max 1 (stop.column + 1 - start.column)) '^') ++ r.reset]
  else []

def labelMessage (r : Rendering) (s : Severity) (message : String) : List String :=
  if message.isEmpty then []
  else [r.bar "  " ++ "   " ++ r.severity s ++ message ++ r.reset]

def labelLines (r : Rendering) (s : Severity) (l : Label) : List String :=
  match r.source? l.file with
  | none => [r.arrow (l.file ++ ":" ++ toString l.start ++ "-" ++ toString l.stop)]
  | some source =>
    let start := source.position l.start
    let stop := source.position (max l.start (l.stop - 1))
    [r.arrow (l.file ++ ":" ++ toString start.line ++ ":" ++ toString start.column), r.bar "  ",
      r.bar (gutter start.line) ++ " " ++ source.lineAt start.line] ++
      r.carets s start stop ++ r.labelMessage s l.message

def heading (r : Rendering) (d : Diagnostic) : String :=
  r.severity d.severity ++ d.severity.text ++ "[" ++ d.code ++ "]" ++ r.reset ++ r.bold ++ ": " ++
    d.message ++ r.reset

def note (r : Rendering) (text : String) : String :=
  "  " ++ r.blue ++ "=" ++ r.reset ++ " note: " ++ text

def render (r : Rendering) (d : Diagnostic) : String :=
  "\n".intercalate
    (r.heading d :: d.labels.flatMap (r.labelLines d.severity) ++ d.notes.map r.note)

end Rendering

end Whiley
