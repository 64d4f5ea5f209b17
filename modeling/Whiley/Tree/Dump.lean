import Whiley.Text.Quoted
import Whiley.Tree.Outline

namespace Whiley

def dumpLine (depth : Nat) (text : String) : String :=
  String.ofList (List.replicate (2 * depth) ' ') ++ text

def dumpList (depth : Nat) (name : String) (items : List String) : List String :=
  if items.isEmpty then [dumpLine depth (name ++ ": []")] else dumpLine depth (name ++ ":") :: items

mutual

def Outline.dump (depth : Nat) : Outline → List String
  | .node label _ entries => dumpLine depth label :: Outline.dumpEntries (depth + 1) entries

def Outline.dumpEntries (depth : Nat) : List Entry → List String
  | [] => []
  | e :: es => e.dump depth ++ Outline.dumpEntries depth es

def Outline.dumpNodes (depth : Nat) : List Outline → List String
  | [] => []
  | o :: os => o.dump depth ++ Outline.dumpNodes depth os

def Entry.dump (depth : Nat) : Entry → List String
  | .mk name content => content.dump depth name

def Content.dump (depth : Nat) (name : String) : Content → List String
  | .absent => []
  | .link _ => []
  | .text s => [dumpLine depth (name ++ ": " ++ Text.quoted s)]
  | .flag b => [dumpLine depth (name ++ ": " ++ if b then "True" else "False")]
  | .number n => [dumpLine depth (name ++ ": " ++ toString n)]
  | .bytes bs => [dumpLine depth (name ++ ": " ++ Text.quotedBytes bs)]
  | .words ws =>
    dumpList depth name (ws.map fun w => dumpLine (depth + 1) ("str: " ++ Text.quoted w))
  | .child o => dumpLine depth (name ++ ":") :: o.dump (depth + 1)
  | .children os => dumpList depth name (Outline.dumpNodes (depth + 1) os)
  | .pairs os => dumpList depth name (Outline.dumpNodes (depth + 1) os)

end

def Module.dump (m : Module) : String :=
  String.join ((m.outline.dump 0).map (· ++ "\n"))

end Whiley
