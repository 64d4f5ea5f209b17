import Whiley.Text.Utf8
import Whiley.Toml.Document

namespace Whiley

inductive ConfigFault
  | folder
  | undecodable (fault : Text.Utf8Fault)
  | malformed
  | integer (text : String) (fault : Text.IntegerFault)
  | infinite
  | notANumber
  | notTable
  | notList
  | notNumber
  | notPath
  deriving DecidableEq, Repr

def ConfigFault.message : ConfigFault → String
  | .folder => "the configuration file is a folder"
  | .undecodable f => "invalid UTF-8 in configuration file (" ++ f.reason.message ++ ")"
  | .malformed => "malformed configuration file"
  | .integer text fault => fault.message text
  | .infinite => "cannot convert float infinity to integer"
  | .notANumber => "cannot convert float NaN to integer"
  | .notTable => "a section of the configuration file is not a table"
  | .notList => "the extensions are not a list"
  | .notNumber => "the number of jobs is not a number"
  | .notPath => "the source directory is not a path"

structure Config where
  name : Toml.Value := .string "untitled"
  version : Toml.Value := .string "0.0.0"
  sourceFolder : Toml.Value := .string "src"
  suffixes : List Toml.Value := [.string ".whiley"]
  jobs : Int := 1

namespace Config

def fileName : String := "wyparse.toml"

/-- The items of an array, the characters of a text, or the keys of a table. -/
def listOf : Toml.Value → Except ConfigFault (List Toml.Value)
  | .array items => .ok items
  | .string s => .ok (s.toList.map fun c => .string (String.singleton c))
  | .table entries => .ok (entries.map fun (key, _) => .string key)
  | _ => .error .notList

/-- Integers, truth values, floats without their fraction, and texts of integers. -/
def integerOf : Toml.Value → Except ConfigFault Int
  | .integer n => .ok n
  | .boolean b => .ok (if b then 1 else 0)
  | .float x =>
    match Number.ofFloat x with
    | .finite d => .ok d.truncate
    | .infinite _ => .error .infinite
    | .notANumber => .error .notANumber
  | .string s => (Text.readInteger s.toList).mapError (.integer s)
  | _ => .error .notNumber

def textOf : Toml.Value → Except ConfigFault String
  | .string s => .ok s
  | _ => .error .notPath

def withSection (t : Toml.Table) (key : String) (c : Config)
    (change : Toml.Table → Except ConfigFault Config) : Except ConfigFault Config :=
  match t.get? key with
  | none => .ok c
  | some (.table inner) => change inner
  | some _ => .error .notTable

def ofTable (t : Toml.Table) : Except ConfigFault Config := do
  let c ← withSection t "package" {} fun s =>
    .ok { name := (s.get? "name").getD (.string "untitled")
          version := (s.get? "version").getD (.string "0.0.0") }
  let c ← withSection t "build" c fun s => do
    let suffixes ← listOf ((s.get? "extensions").getD (.array c.suffixes))
    return { c with sourceFolder := (s.get? "source_dir").getD c.sourceFolder, suffixes }
  withSection t "parse" c fun s => do
    return { c with jobs := ← integerOf ((s.get? "jobs").getD (.integer 1)) }

def ofFault : Toml.Fault → ConfigFault
  | .malformed => .malformed
  | .integer fault => .integer "" fault

def ofBytes (bytes : List UInt8) : Except ConfigFault Config := do
  let cs ← (Text.decodeUtf8 bytes).mapError .undecodable
  let t ← (Toml.parse cs).mapError ofFault
  ofTable t

end Config

end Whiley
