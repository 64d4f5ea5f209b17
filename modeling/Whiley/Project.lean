import Whiley.Project.Config
import Whiley.Project.Disk

namespace Whiley

structure Project where
  folder : Path
  config : Config

namespace Project

def plain (folder : Path) : Project :=
  ⟨folder, {}⟩

def hasConfig (d : Disk) (place : Disk.Place) : Bool :=
  (d.get? (place ++ [Config.fileName])).isSome

def findPlace? (d : Disk) (start : Path) : Option Disk.Place :=
  let place := d.resolve start
  let place :=
    match d.get? place with
    | some (.file _) => place.dropLast
    | _ => place
  (Disk.upwards place).find? (hasConfig d)

def missing : String := "No " ++ Config.fileName ++ " found in any parent directory"

def loadConfig (d : Disk) (place : Disk.Place) : Except ConfigFault Config :=
  match d.get? (place ++ [Config.fileName]) with
  | some (.file bytes) => Config.ofBytes bytes
  | _ => .error .folder

def find? (d : Disk) (start : Path) : Except ConfigFault (Option Project) :=
  match findPlace? d start with
  | none => .ok none
  | some place => (loadConfig d place).map fun c => some ⟨⟨.root, place⟩, c⟩

/-- The source folder, or the folder of the project if that is missing. -/
def sourceRoot (d : Disk) (p : Project) : Except ConfigFault Path := do
  let folder := p.folder ++ Path.ofString (← Config.textOf p.config.sourceFolder)
  return if d.at? folder = some .folder then folder else p.folder

def selects (c : Config) (p : Path) : Bool :=
  c.suffixes.any fun
    | .string s => s = p.suffix
    | _ => false

def sources (d : Disk) (p : Project) : Except ConfigFault (List Path) := do
  let root ← p.sourceRoot d
  let found := ((d.locate root).map d.filesBelow).getD []
  return (found.map root.below).filter (selects p.config)

end Project

end Whiley
