import Whiley.Diagnostic
import Whiley.Dictionary
import Whiley.Grammar.Decls
import Whiley.Layout.Module

namespace Whiley

structure Place where
  line : Nat
  character : Nat
  deriving DecidableEq, Repr

structure Extent where
  start : Place
  stop : Place
  deriving DecidableEq, Repr

def Position.place (p : Position) : Place :=
  ⟨p.line - 1, p.column - 1⟩

namespace Extent

def origin : Extent := ⟨⟨0, 0⟩, ⟨0, 0⟩⟩

def between (source : SourceText) (start stop : Int) : Extent :=
  ⟨(source.position start).place, (source.position stop).place⟩

def ofSpan (source : SourceText) (s : Span) : Extent :=
  between source s.start s.stop

end Extent

structure Notice where
  extent : Extent
  severity : Severity
  code : Option String
  message : String

def Severity.rank : Severity → Nat
  | .error => 1
  | .warning => 2
  | .note => 3

namespace Notice

def origin : String := "wyparse"

def ofDiagnostic (source : SourceText) (d : Diagnostic) : Notice where
  extent :=
    match d.labels with
    | [] => .origin
    | l :: _ => .between source l.start l.stop
  severity := d.severity
  code := some d.code
  message := "[" ++ d.code ++ "] " ++ d.message

/-- What a parse that failed is told as; of one that does not end nothing is ever told. -/
def ofFailure? (source : SourceText) : Failure → Option Notice
  | .error e => some (ofDiagnostic source (.ofSyntaxError source.name e))
  | .exhausted => none
  | f => some ⟨.origin, .error, none, "[internal] parser error: " ++ f.message⟩

end Notice

structure Document where
  text : String
  tokens : List Token
  module? : Option Module
  notices : List Notice

namespace Document

/-- What a text is read as; nothing if the parse of it does not end. -/
def read? (uri text : String) : Option Document :=
  let source := SourceText.ofString text uri
  match lex text with
  | .error e => some ⟨text, [], none, [.ofDiagnostic source (.ofLexicalError uri e)]⟩
  | .ok tokens =>
    match parse tokens with
    | .ok (m, _) => some ⟨text, tokens, some m, []⟩
    | .error f => (Notice.ofFailure? source f).map fun n => ⟨text, tokens, none, [n]⟩

section Reading

variable {uri text : String} {tokens : List Token}

theorem read?_of_lex_error {e : LexicalError} (h : lex text = .error e) : read? uri text =
    some ⟨text, [], none, [.ofDiagnostic (.ofString text uri) (.ofLexicalError uri e)]⟩ := by
  simp [read?, h]

theorem read?_of_parse {m : Module} {arena : Arena Node} (hlex : lex text = .ok tokens)
    (hparse : parse tokens = .ok (m, arena)) :
    read? uri text = some ⟨text, tokens, some m, []⟩ := by
  simp [read?, hlex, hparse]

theorem read?_of_failure {f : Failure} (hlex : lex text = .ok tokens)
    (hparse : parse tokens = .error f) : read? uri text =
      (Notice.ofFailure? (.ofString text uri) f).map fun n => ⟨text, tokens, none, [n]⟩ := by
  simp [read?, hlex, hparse]

end Reading

end Document

inductive SymbolKind
  | type | method | function | constant | property
  deriving DecidableEq, Repr

def SymbolKind.rank : SymbolKind → Nat
  | .type => 5
  | .method => 6
  | .function => 12
  | .constant => 14
  | .property => 17

structure Symbol where
  name : String
  kind : SymbolKind
  detail : String
  extent : Extent
  selection : Extent

def parameterNames (vs : List Variable) : String :=
  "(" ++ ", ".intercalate (vs.map (·.name.text)) ++ ")"

def Decl.heading? : Decl → Option (Identifier × SymbolKind × String)
  | .imports .. => none
  | .type _ _ name _ _ => some (name, .type, "type")
  | .constant _ _ name _ => some (name, .constant, "constant")
  | .function _ r => some (r.name, .function, parameterNames r.parameters)
  | .method _ _ r => some (r.name, .method, parameterNames r.parameters)
  | .property _ _ name _ _ => some (name, .property, "property")

def Decl.symbol? (source : SourceText) (d : Decl) : Option Symbol :=
  d.heading?.map fun (name, kind, detail) =>
    ⟨name.text, kind, detail, .ofSpan source d.mark.span, .ofSpan source name.mark.span⟩

structure Edit where
  extent : Extent
  text : String

namespace Document

def symbols (uri : String) (d : Document) : List Symbol :=
  match d.module? with
  | none => []
  | some m => m.declarations.filterMap (Decl.symbol? (.ofString d.text uri))

/-- Formatting drops comments, so a document that has any is left alone. -/
def edit? (uri : String) (d : Document) : Option Edit :=
  match d.module? with
  | none => none
  | some m =>
    if d.tokens.any (·.kind.isComment) then none
    else
      match m.format with
      | .error _ => none
      | .ok text =>
        if text = d.text then none
        else some ⟨.between (.ofString d.text uri) 0 d.text.length, text⟩

end Document

abbrev Session := Dictionary Document

namespace Session

inductive Step
  | open (uri text : String)
  /-- The last of the texts counts; no text at all is the empty one. -/
  | change (uri : String) (texts : List String)
  | close (uri : String)
  | symbols (uri : String)
  | format (uri : String)

inductive Answer
  | published (uri : String) (d : Document)
  | closed
  | symbols (found : List Symbol)
  | edit (e : Option Edit)

def keep? (s : Session) (uri text : String) : Option (Session × Answer) :=
  (Document.read? uri text).map fun d => (s.put uri d, .published uri d)

def step? (s : Session) : Step → Option (Session × Answer)
  | .open uri text => s.keep? uri text
  | .change uri texts => s.keep? uri (texts.getLast?.getD "")
  | .close uri => some (s.erase uri, .closed)
  | .symbols uri => some (s, .symbols ((s.get? uri).elim [] (Document.symbols uri)))
  | .format uri => some (s, .edit ((s.get? uri).bind (Document.edit? uri)))

/-- The answers to some steps, up to the first step that is never answered. -/
def run (s : Session) : List Step → List Answer
  | [] => []
  | x :: steps =>
    match s.step? x with
    | some (s', answer) => answer :: s'.run steps
    | none => []

end Session

end Whiley
