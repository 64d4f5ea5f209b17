import Whiley.Text.Integer

namespace Whiley

inductive Request
  | version
  | check (path : String) (jobs : Option Int)
  | format (file : String) (only : Bool)
  | tokens (file : String)
  | view (file : String)
  deriving DecidableEq, Repr

namespace Request

inductive Switch
  | verbose | version | jobs | check
  deriving DecidableEq, Repr

def Switch.takesValue : Switch → Bool
  | .jobs => true
  | _ => false

structure Options where
  long : List (String × Switch)
  short : List (Char × Switch)
  mixed : Bool

def Options.long? (o : Options) (word : String) : Option Switch :=
  (o.long.find? (·.1 = word)).map (·.2)

def Options.short? (o : Options) (c : Char) : Option Switch :=
  (o.short.find? (·.1 = c)).map (·.2)

structure Words where
  given : List (Switch × String)
  plain : List String

def Words.withOption (s : Switch) (value : String) (ws : Words) : Words :=
  { ws with given := (s, value) :: ws.given }

def Words.withPlain (word : String) (ws : Words) : Words :=
  { ws with plain := word :: ws.plain }

inductive OptionWord
  | done (given : List (Switch × String))
  | waiting (given : List (Switch × String)) (last : Switch)

/-- Options of one letter each; the first that takes a value takes the letters after it. -/
def letters? (o : Options) : List Char → Option OptionWord
  | [] => some (.done [])
  | c :: cs =>
    match o.short? c with
    | none => none
    | some s =>
      if s.takesValue then
        some (if cs.isEmpty then .waiting [] s else .done [(s, String.ofList cs)])
      else
        (letters? o cs).map fun
          | .done given => .done ((s, "") :: given)
          | .waiting given last => .waiting ((s, "") :: given) last

def optionWord? (o : Options) (word : String) : Option OptionWord :=
  let cs := word.toList
  let label := String.ofList (cs.takeWhile (· ≠ '='))
  match o.long? label, cs.dropWhile (· ≠ '=') with
  | some s, [] => some (if s.takesValue then .waiting [] s else .done [(s, "")])
  | some s, _ :: value =>
    if s.takesValue then some (.done [(s, String.ofList value)]) else none
  | none, _ => if ['-', '-'].isPrefixOf cs then none else letters? o (cs.drop 1)

def isOptionWord (word : String) : Bool :=
  word.toList.head? = some '-' && word ≠ "-"

def words? (o : Options) : List String → Option Words
  | [] => some ⟨[], []⟩
  | word :: rest =>
    if word = "--" then some ⟨[], rest⟩
    else if isOptionWord word then
      match optionWord? o word, rest with
      | none, _ => none
      | some (.done given), rest => do
        let ws ← words? o rest
        return given.foldr (fun (s, v) => Words.withOption s v) ws
      | some (.waiting _ _), [] => none
      | some (.waiting given last), value :: rest => do
        let ws ← words? o rest
        return given.foldr (fun (s, v) => Words.withOption s v) (ws.withOption last value)
    else if o.mixed then (words? o rest).map (Words.withPlain word)
    else some ⟨[], word :: rest⟩

def Words.has (ws : Words) (s : Switch) : Bool :=
  ws.given.any (·.1 = s)

def Words.last? (ws : Words) (s : Switch) : Option String :=
  (ws.given.reverse.find? (·.1 = s)).map (·.2)

def programOptions : Options :=
  ⟨[("--verbose", .verbose), ("--version", .version)], [('v', .verbose)], false⟩

def checkOptions : Options :=
  ⟨[("--jobs", .jobs)], [('j', .jobs)], true⟩

def formatOptions : Options :=
  ⟨[("--check", .check)], [], true⟩

def noOptions : Options :=
  ⟨[], [], true⟩

def ofCheckWords (ws : Words) : Option Request := do
  let jobs ←
    match ws.last? .jobs with
    | none => some none
    | some s => (Text.readInteger s.toList).toOption.map some
  match ws.plain with
  | [] => some (.check "." jobs)
  | [path] => some (.check path jobs)
  | _ => none

def onlyWord? (ws : Words) : Option String :=
  match ws.plain with
  | [word] => some word
  | _ => none

def ofCommand (command : String) (rest : List String) : Option Request :=
  match command with
  | "check" => (words? checkOptions rest).bind ofCheckWords
  | "format" => do
    let ws ← words? formatOptions rest
    return .format (← onlyWord? ws) (ws.has .check)
  | "tokens" => (words? noOptions rest).bind fun ws => (onlyWord? ws).map .tokens
  | "view" => (words? noOptions rest).bind fun ws => (onlyWord? ws).map .view
  | _ => none

def ofWords (words : List String) : Option Request := do
  let ws ← words? programOptions words
  if ws.has .version then return .version
  match ws.plain with
  | [] => none
  | command :: rest => ofCommand command rest

end Request

end Whiley
