import Whiley.Command.Pool
import Whiley.Command.Request
import Whiley.Diagnostic
import Whiley.Dictionary
import Whiley.Grammar.Decls
import Whiley.Layout.Module
import Whiley.Project
import Whiley.Text.Colour
import Whiley.Tree.Dump

namespace Whiley

inductive Breakdown
  | config (fault : ConfigFault)
  | failure (fault : Failure)
  | print (fault : PrintFault)
  | longName
  | tooManyJobs
  | unknownFile (name : String)
  deriving DecidableEq, Repr

def Breakdown.message : Breakdown → String
  | .config fault => fault.message
  | .failure fault => fault.message
  | .print (.unknownOperator op) => "unknown operator " ++ op
  | .print (.unreadable e) => e.fault.message
  | .longName =>
    "Exceeds the limit (4300 digits) for integer string conversion; " ++
      "use sys.set_int_max_str_digits() to increase the limit"
  | .tooManyJobs => "too many jobs"
  | .unknownFile name => Text.quoted name

inductive Ending
  | exit (code : Nat)
  | breakdown (cause : Breakdown)
  | never
  deriving DecidableEq, Repr

def Ending.ofCause : Breakdown → Ending
  | .failure .exhausted => .never
  | cause => .breakdown cause

structure Outcome where
  ending : Ending
  out : String
  err : String
  deriving DecidableEq, Repr

def Outcome.broken (cause : Breakdown) (out : String) : Outcome :=
  ⟨.ofCause cause, out, ""⟩

theorem Outcome.broken_ne_exit {cause : Breakdown} {out : String} {code : Nat} :
    (broken cause out).ending ≠ .exit code := by
  unfold broken Ending.ofCause
  split <;> exact nofun

namespace Command

def version : String := "wyparse, version 0.1.0"

/-- A line as it is shown: without colour codes. -/
def shown (line : String) : String :=
  Text.withoutCodes line ++ "\n"

def success (out : String) : Outcome :=
  ⟨.exit 0, out, ""⟩

def misuse : Outcome :=
  ⟨.exit 2, "", "usage: wyparse [-v] [--version] check|format|tokens|view ...\n"⟩

/-! ### Files -/

def isFile (d : Disk) (text : String) : Bool :=
  match d.atText? text with
  | some (.file _) => true
  | _ => false

def contents? (d : Disk) (file : String) : Option (Except Text.Utf8Fault (List Char)) :=
  match d.at? (Path.ofString file) with
  | some (.file bytes) => some ((Text.decodeUtf8 bytes).map Text.unifyNewlines)
  | _ => none

def undecodable (file : String) (fault : Text.Utf8Fault) : Diagnostic :=
  .errorAt Diagnostic.lexicalCode ("invalid UTF-8 in source file (" ++ fault.reason.message ++ ")")
    file ⟨fault.start, fault.stop⟩

inductive Obstacle
  | diagnostic (d : Diagnostic)
  | failure (f : Failure)

def readSource (d : Disk) (file : String) : Except Obstacle String :=
  match contents? d file with
  | some (.ok cs) => .ok (String.ofList cs)
  | some (.error fault) => .error (.diagnostic (undecodable file fault))
  | none => .ok ""

def readTokens (file source : String) : Except Obstacle (List Token) :=
  (lex source).mapError fun e => .diagnostic (.ofLexicalError file e)

def readModule (file source : String) : Except Obstacle Module := do
  match parse (← readTokens file source) with
  | .ok (m, _) => return m
  | .error (.error e) => .error (.diagnostic (.ofSyntaxError file e))
  | .error f => .error (.failure f)

def rendering (d : Disk) : Rendering where
  color := true
  source? := fun file =>
    match contents? d file with
    | some (.ok cs) => some (SourceText.ofString (String.ofList cs) file)
    | _ => none

def report (d : Disk) (x : Diagnostic) : String :=
  shown ((rendering d).render x)

def orEnd {α : Type} (d : Disk) (r : Except Obstacle α) (go : α → Outcome) : Outcome :=
  match r with
  | .ok a => go a
  | .error (.diagnostic x) => ⟨.exit 1, "", report d x⟩
  | .error (.failure f) => .broken (.failure f) ""

/-! ### Checking -/

/-- The complaint about a file; a file that parses has none. -/
def complaint (d : Disk) (file : String) : Except Failure (Option Diagnostic) :=
  match readSource d file >>= readModule file with
  | .ok _ => .ok none
  | .error (.diagnostic x) => .ok (some x)
  | .error (.failure f) => .error f

abbrev Findings := Dictionary (Option Diagnostic)

def Findings.enter (found : Findings) (file : String)
    (result : Except Failure (Option Diagnostic)) : Except Breakdown Findings :=
  match result with
  | .ok c => .ok (found.put file c)
  | .error f => .error (.failure f)

def checkInTurn (d : Disk) (files : List String) : Except Breakdown Findings :=
  files.foldlM (fun found file => found.enter file (complaint d file)) []

/-- Lets a pool check the files. It is left only after all its calls have come to an end. -/
def checkInPool (pool : Pool) (d : Disk) (files : List String) : Except Breakdown Findings :=
  let results := pool.results (complaint d) files
  if results.any fun (_, r) => r matches .error .exhausted then .error (.failure .exhausted)
  else
    files.zipIdx.foldlM (fun found (file, i) =>
      match Pool.resultOf? results i with
      | some r => found.enter file r
      | none => .error (.failure .exhausted)) []

def jobLimit : Int := 2147483646

def findings (pool : Pool) (d : Disk) (files : List String) (jobs : Int) :
    Except Breakdown Findings :=
  if 1 < jobs ∧ 1 < files.length then
    if jobLimit < jobs then .error .tooManyJobs else checkInPool pool d files
  else checkInTurn d files

def Findings.complaint (found : Findings) (file : String) :
    Except Breakdown (Option Diagnostic) :=
  match found.get? file with
  | some c => .ok c
  | none => .error (.unknownFile file)

/-- Checks files, after `out` was written; `done` is written if none is wrong. -/
def checkFiles (pool : Pool) (d : Disk) (files : List String) (jobs : Int) (out done : String) :
    Outcome :=
  match findings pool d files jobs >>= fun found => files.mapM found.complaint with
  | .error cause => .broken cause out
  | .ok found =>
    let complaints := found.filterMap id
    let err := String.join (complaints.map (report d))
    if complaints.isEmpty then ⟨.exit 0, out ++ done, err⟩ else ⟨.exit 1, out, err⟩

def checkProject (pool : Pool) (d : Disk) (p : Project) (jobs : Option Int) : Outcome :=
  match p.sources d with
  | .error f => .broken (.config f) ""
  | .ok [] => ⟨.exit 0, "", "warning: no source files found\n"⟩
  | .ok files =>
    match p.config.name.display? with
    | none => .broken .longName ""
    | some name =>
      let count := toString files.length
      let out := shown ("checking " ++ name ++ " (" ++ count ++ " files)...")
      checkFiles pool d (files.map Path.text) (jobs.getD p.config.jobs) out
        (shown ("checked " ++ name ++ ": no errors"))

def check (pool : Pool) (d : Disk) (path : String) (jobs : Option Int) : Outcome :=
  let target := Path.ofString path
  match d.atText? path with
  | none => misuse
  | some (.file _) =>
    checkFiles pool d [target.text] 1 "" (shown ("checked " ++ target.text ++ ": no errors"))
  | some .folder =>
    match Project.find? d target with
    | .error f => .broken (.config f) ""
    | .ok none => checkProject pool d (.plain target) jobs
    | .ok (some p) => checkProject pool d p jobs

/-! ### Single files -/

def withModule (d : Disk) (file : String) (go : String → Module → Outcome) : Outcome :=
  orEnd d (readSource d file) fun source => orEnd d (readModule file source) (go source)

def format (d : Disk) (file : String) (only : Bool) : Outcome :=
  withModule d file fun source m =>
    match m.format with
    | .error f => .broken (.print f) ""
    | .ok t =>
      if !only then success t
      else if t = source then success ""
      else ⟨.exit 1, shown ("would reformat " ++ file), ""⟩

def tokenLine (source : SourceText) (t : Token) : String :=
  let p := source.position t.start
  toString p.line ++ ":" ++ toString p.column ++ "\t" ++ t.kind.label ++ "\t" ++
    Text.quoted t.text ++ "\n"

def tokens (d : Disk) (file : String) : Outcome :=
  orEnd d (readSource d file) fun source =>
    orEnd d (readTokens file source) fun ts =>
      success (String.join (ts.map (tokenLine (SourceText.ofString source file))))

def view (d : Disk) (file : String) : Outcome :=
  withModule d file fun _ m => success m.dump

def answer (pool : Pool) (d : Disk) : Request → Outcome
  | .version => success (version ++ "\n")
  | .check path jobs => check pool d path jobs
  | .format file only => if isFile d file then format d file only else misuse
  | .tokens file => if isFile d file then tokens d file else misuse
  | .view file => if isFile d file then view d file else misuse

def run (pool : Pool) (d : Disk) (words : List String) : Outcome :=
  match Request.ofWords words with
  | some r => answer pool d r
  | none => misuse

end Command

end Whiley
