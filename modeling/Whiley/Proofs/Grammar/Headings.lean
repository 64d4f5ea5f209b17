import Whiley.Proofs.Grammar.FormedDecls
import Whiley.Session

namespace Whiley

def Identifier.Drawn (input : Input) (i : Identifier) : Prop :=
  ∃ t ∈ input.tokens, t.text = i.text ∧ t.span = i.mark.span

def Decl.Headed (input : Input) (d : Decl) : Prop :=
  ∀ name kind detail, d.heading? = some (name, kind, detail) → name.Drawn input

theorem Decl.headed_of_name {input : Input} {d : Decl} {name : Identifier} {kind : SymbolKind}
    {detail : String} (hd : d.heading? = some (name, kind, detail)) (hname : name.Drawn input) :
    d.Headed input := by
  intro name' kind' detail' h
  rw [hd] at h
  cases h
  exact hname

namespace Grammar

open Whiley.Parser

variable {r : Run}

theorem identifier_drawn : Ensures r identifier (·.Drawn r.input) :=
  Ensures.expect.bind fun t ht => .allocate fun _ _ => ⟨t, ht.1, rfl, rfl⟩

namespace DeclParsers

variable {g : DeclParsers} (hg : StmtParsers.Sound r g) {start : Nat} {modifiers : List String}

section Made

variable {build : Mark → Decl} (h : ∀ m, (build m).Headed r.input)

include h

theorem make_headed : Ensures r (make start build) (·.Headed r.input) :=
  .make fun m _ => h m

theorem makeLine_headed : Ensures r (do
    let d ← make start build
    endLine
    return d) (·.Headed r.input) :=
  (make_headed h).bind fun _ hd => Ensures.endLine.bind fun _ _ => .pure hd

end Made

theorem imports_headed : Ensures r imports (·.Headed r.input) := by
  refine Ensures.position.bind fun start _ => Ensures.expect.bind fun _ _ => ?_
  refine identifier_ensures.bind fun first _ => ?_
  refine (Ensures.afterEach component_ensures).bind fun rest _ => ?_
  exact makeLine_headed fun _ _ _ _ h => nomatch h

include hg

theorem typeDecl_headed : Ensures r (g.typeDecl start modifiers) (·.Headed r.input) := by
  refine Ensures.advance.bind fun _ _ => identifier_drawn.bind fun name hname => ?_
  refine Ensures.expect.bind fun _ _ => (result_ensures hg.exprs.types).bind fun x _ => ?_
  refine (clauses_ensures hg.exprs).bind fun invariant _ => ?_
  exact makeLine_headed fun _ => Decl.headed_of_name rfl hname

theorem constant_headed : Ensures r (g.constant start modifiers) (·.Headed r.input) := by
  refine Ensures.advance.bind fun _ _ => identifier_drawn.bind fun name hname => ?_
  refine Ensures.expect.bind fun _ _ => (StmtParsers.expression_ensures hg).bind fun value _ => ?_
  exact makeLine_headed fun _ => Decl.headed_of_name rfl hname

theorem routine_drawn {s : Scope} : Ensures r (g.routine modifiers s) (·.name.Drawn r.input) := by
  refine identifier_drawn.bind fun name hname => ?_
  refine (parameters_ensures hg.exprs.types).bind fun x _ => ?_
  refine (results_ensures hg.exprs.types).bind fun y _ => ?_
  refine (clauses_ensures hg.exprs).bind fun requires _ => ?_
  refine (clauses_ensures hg.exprs).bind fun ensures _ => ?_
  refine StmtParsers.headerEnd_ensures.bind fun _ _ => ?_
  exact (hg.block _ false).bind fun body _ => .pure hname

theorem function_headed : Ensures r (g.function start modifiers) (·.Headed r.input) := by
  refine Ensures.advance.bind fun _ _ => (routine_drawn hg).bind fun routine hname => ?_
  exact make_headed fun _ => Decl.headed_of_name rfl hname

theorem method_headed : Ensures r (g.method start modifiers) (·.Headed r.input) := by
  refine Ensures.advance.bind fun _ _ => optionalLifetimeParameters_ensures.bind fun x _ => ?_
  refine (routine_drawn hg).bind fun routine hname => ?_
  exact make_headed fun _ => Decl.headed_of_name rfl hname

theorem property_headed : Ensures r (g.property start modifiers) (·.Headed r.input) := by
  refine Ensures.advance.bind fun _ _ => identifier_drawn.bind fun name hname => ?_
  refine (parameters_ensures hg.exprs.types).bind fun x _ => ?_
  refine (clauses_ensures hg.exprs).bind fun invariant _ => ?_
  exact makeLine_headed fun _ => Decl.headed_of_name rfl hname

theorem declaration_headed : Ensures r (declaration g) (·.Headed r.input) := by
  refine Ensures.settle.bind fun start _ => Ensures.current.bind fun first _ => ?_
  split
  · exact imports_headed
  · refine modifiers_ensures.bind fun modifiers _ => Ensures.current.bind fun t _ => ?_
    split
    · exact typeDecl_headed hg
    · split
      · exact constant_headed hg
      · split
        · exact function_headed hg
        · split
          · exact method_headed hg
          · split
            · exact property_headed hg
            · exact .reject

end DeclParsers

theorem module_headed {g : DeclParsers} (hg : StmtParsers.Sound r g) :
    Ensures r (module g) fun m => ∀ d ∈ m.declarations, d.Headed r.input := by
  refine package_ensures.bind fun package _ => ?_
  refine (Ensures.many (P := fun d => d.Headed r.input) ?_).bind fun declarations hdeclarations =>
    Ensures.tokens.bind fun _ _ => .allocate fun _ _ => hdeclarations
  refine moreTokens_ensures.bind fun more _ => ?_
  split
  · exact (DeclParsers.declaration_headed hg).found
  · exact .pure nofun

end Grammar

theorem parse_headed {source : String} {tokens : List Token} {m : Module} {arena : Arena Node}
    (hlex : lex source = .ok tokens) (hparse : parse tokens = .ok (m, arena)) :
    ∀ d ∈ m.declarations, d.Headed (.ofTokens tokens) := by
  obtain ⟨s, rfl, hrun⟩ := parseInto_ok hparse
  have hmodule := Grammar.module_headed (r := .ofLexed hlex s.arena)
    (Grammar.ofDepth_sound (Grammar.depthFor tokens.length)) ⟨0, .empty⟩
  rw [Run.ofLexed, hrun] at hmodule
  exact hmodule (Arena.le_refl s.arena)

end Whiley
