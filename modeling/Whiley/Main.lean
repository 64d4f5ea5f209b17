import Whiley.Command

namespace Whiley.Program

def placeOf (text : String) : Disk.Place :=
  (Path.ofString text).parts

partial def load (d : Disk) (text : String) : IO Disk := do
  match ← (IO.FS.realPath text).toBaseIO with
  | .error _ => return d
  | .ok path =>
    let place := placeOf path.toString
    if ← path.isDir then
      let mut d := d.put place .folder
      for e in ← path.readDir do
        d ← load d e.path.toString
      return d
    else return d.put place (.file (← IO.FS.readBinFile path).toList)

def loadConfigs (d : Disk) (place : Disk.Place) : IO Disk :=
  (Disk.upwards place).foldlM
    (fun d p => load d (Path.below ⟨.root, p⟩ [Config.fileName]).text) d

def diskFor (here : Disk.Place) (words : List String) : IO Disk :=
  ("." :: words).foldlM (fun d word => do
    let d ← load d word
    let d ← loadConfigs d (d.resolve (Path.ofString word))
    match Project.findPlace? d (Path.ofString word) with
    | some place => load d (Path.text ⟨.root, place⟩)
    | none => return d) (Disk.empty here)

partial def wait : IO UInt32 := do
  IO.sleep 1000
  wait

end Whiley.Program

open Whiley in
def main (words : List String) : IO UInt32 := do
  let here := Program.placeOf (← IO.currentDir).toString
  let o := Command.run .inOrder (← Program.diskFor here words) words
  (← IO.getStdout).putStr o.out
  (← IO.getStderr).putStr o.err
  match o.ending with
  | .exit code => return code.toUInt32
  | .breakdown cause =>
    (← IO.getStderr).putStrLn cause.message
    return 1
  | .never => Program.wait
