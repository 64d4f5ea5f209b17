import Whiley.Command
import Whiley.Proofs.Grammar.ReadsDecls
import Whiley.Proofs.Tree.Core
import Whiley.Proofs.Tree.Dump

namespace Whiley

namespace Command

/-- A file whose source parses. -/
structure Holds (d : Disk) (file : String) (m : Module) : Prop where
  isFile : isFile d file
  parses : ∃ source tokens arena, readSource d file = .ok source ∧ lex source = .ok tokens ∧
    parse tokens = .ok (m, arena)

variable (pool : Pool) {d d' : Disk} {file file' : String} {m m' : Module}

theorem Holds.view (h : Holds d file m) : answer pool d (.view file) = success m.dump := by
  obtain ⟨source, tokens, arena, hread, hlex, hparse⟩ := h.parses
  have hmodule : readModule file source = .ok m := by
    simp only [readModule, readTokens, hlex, Except.mapError, Bind.bind, Except.bind, hparse]
    rfl
  simp [answer, h.isFile, Command.view, withModule, orEnd, hread, hmodule]

/-- Files that parse are shown, and shown alike exactly when their trees are equal. -/
theorem view_faithful (h : Holds d file m) (h' : Holds d' file' m') :
    (answer pool d (.view file)).ending = .exit 0 ∧ (answer pool d' (.view file')).ending = .exit 0 ∧
      ((answer pool d (.view file)).out = (answer pool d' (.view file')).out ↔ m.same m') ∧
      (m.same m' ↔
        m.package = m'.package ∧ m.declarations.map (·.core) = m'.declarations.map (·.core)) := by
  have hequal : m.core = m'.core ↔
      m.package = m'.package ∧ m.declarations.map (·.core) = m'.declarations.map (·.core) := by
    simp [Module.core]
  rw [h.view pool, h'.view pool]
  exact ⟨rfl, rfl, m.dump_eq_iff_same m', (m.same_iff_core m').trans hequal⟩

section Shelf

def tight : String :=
  "type nat is (int n)\nfunction f(nat x) -> nat:\n    return x+1\n"

def loose : String :=
  "type nat is ( int n ) // counts\n\nfunction f(nat x)\n-> nat:\n  return x + 1"

/-- Not `tight` in another layout. -/
def changed : String :=
  "type nat is (int n)\nfunction f(nat x) -> nat:\n    return x+2\n"

def shelf : Disk :=
  let bytes (source : String) : List UInt8 := source.toList.map (·.toNat.toUInt8)
  (((Disk.empty []).put ["tight"] (.file (bytes tight))).put ["loose"] (.file (bytes loose))).put
    ["changed"] (.file (bytes changed))

theorem holds_of_contents {source : String} {tokens : List Token} {arena : Arena Node}
    (hfile : isFile d file) (hcontents : contents? d file = some (.ok source.toList))
    (hlex : lex source = .ok tokens) (hparse : parse tokens = .ok (m, arena)) : Holds d file m := by
  refine ⟨hfile, source, tokens, arena, ?_, hlex, hparse⟩
  rw [readSource, hcontents]
  exact congrArg _ String.ofList_toList

def same? (source : String) (m : Module) : Option Bool :=
  (lex source).toOption.bind fun tokens => (parse tokens).toOption.map fun x => m.same x.1

theorem same?_eq {source : String} {tokens : List Token} {arena : Arena Node}
    (hlex : lex source = .ok tokens) (hparse : parse tokens = .ok (m', arena)) :
    same? source m = some (m.same m') := by
  simp [same?, hlex, hparse, Except.toOption]

theorem view_faithful_shelf : ∃ m m' m'' : Module,
    Holds shelf "tight" m ∧ Holds shelf "loose" m' ∧ Holds shelf "changed" m'' ∧
      (answer .inOrder shelf (.view "tight")).out = (answer .inOrder shelf (.view "loose")).out ∧
      m.declarations.map (·.core) = m'.declarations.map (·.core) ∧
      (answer .inOrder shelf (.view "tight")).out ≠
        (answer .inOrder shelf (.view "changed")).out := by
  obtain ⟨_, m, _, hlex, hparse, hsame⟩ := exists_module_of_eq tight
    (fun m => (same? loose m, same? changed m)) (some true, some false) (by decide +kernel)
  obtain ⟨_, m', _, hlex', hparse', -⟩ :=
    exists_module_of_eq loose (fun _ => ()) () (by decide +kernel)
  obtain ⟨_, m'', _, hlex'', hparse'', -⟩ :=
    exists_module_of_eq changed (fun _ => ()) () (by decide +kernel)
  rw [same?_eq hlex' hparse', same?_eq hlex'' hparse''] at hsame
  obtain ⟨hloose, hother⟩ := Prod.mk.inj hsame
  have htight : Holds shelf "tight" m :=
    holds_of_contents (by decide +kernel) (by decide +kernel) hlex hparse
  have hlooseHeld : Holds shelf "loose" m' :=
    holds_of_contents (by decide +kernel) (by decide +kernel) hlex' hparse'
  have hotherHeld : Holds shelf "changed" m'' :=
    holds_of_contents (by decide +kernel) (by decide +kernel) hlex'' hparse''
  obtain ⟨-, -, hout, hequal⟩ := view_faithful .inOrder htight hlooseHeld
  obtain ⟨-, -, hout', -⟩ := view_faithful .inOrder htight hotherHeld
  have halike := Option.some.inj hloose
  refine ⟨m, m', m'', htight, hlooseHeld, hotherHeld, hout.mpr halike, (hequal.mp halike).2, ?_⟩
  exact fun h => Bool.false_ne_true ((Option.some.inj hother).symm.trans (hout'.mp h))

end Shelf

end Command

end Whiley
