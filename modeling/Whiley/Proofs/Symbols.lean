import Whiley.Proofs.Grammar.Headings
import Whiley.Proofs.Grammar.WellNested
import Whiley.Proofs.Session
import Whiley.Proofs.Token.Lossless

namespace Whiley

/-- What an extent covers of a text, if lines end at newlines only and a place counts the characters
before it in its line. -/
def Extent.covered (e : Extent) (text : String) : String :=
  let cs := text.toList
  let lines := cs.splitOn '\n'
  String.ofList (Lexer.slice cs (e.start.offset lines) (e.stop.offset lines))

section Extents

variable {text name : String} {s t : Span}

theorem Extent.covered_ofSpan (hle : s.start ≤ s.stop) (hstop : s.stop ≤ text.length) :
    (ofSpan (.ofString text name) s).covered text =
      String.ofList (Lexer.slice text.toList s.start s.stop) := by
  have hlength : s.stop ≤ text.toList.length := by rwa [String.length_toList]
  rw [covered, ofSpan, between, SourceText.place_position hstop,
    SourceText.place_position (Nat.le_trans hle hstop), Place.offset_after hlength,
    Place.offset_after (Nat.le_trans hle hlength)]

theorem SourceText.place_le {m n : Nat} (h : m ≤ n) :
    ((ofString text name).position m).place ≤ ((ofString text name).position n).place :=
  Position.place_le (position_proper m) (position_mono (Int.ofNat_le.mpr h))

theorem Extent.start_le (h : s.Within t) :
    (ofSpan (.ofString text name) t).start ≤ (ofSpan (.ofString text name) s).start :=
  SourceText.place_le h.1

theorem Extent.stop_le (h : s.Within t) :
    (ofSpan (.ofString text name) s).stop ≤ (ofSpan (.ofString text name) t).stop :=
  SourceText.place_le h.2

end Extents

theorem Decl.heading?_isSome (d : Decl) : d.heading?.isSome = !d.isImport := by
  cases d <;> rfl

theorem Decl.name_mem_children {d : Decl} {name : Identifier} {kind : SymbolKind} {detail : String}
    (h : d.heading? = some (name, kind, detail)) : name.outline ∈ d.outline.children := by
  cases d with
  | imports => cases h
  | _ =>
    cases h
    simp [Decl.outline, Routine.entries, Outline.children, Outline.entries, Entry.nodes,
      Content.nodes]

theorem Decl.label_ne_block (d : Decl) : d.outline.label ≠ "Block" := by
  cases d <;> simp [Decl.outline, Outline.label]

theorem Outline.not_isEmptyBlock {o : Outline} (h : o.label ≠ "Block") : ¬ o.IsEmptyBlock := by
  rintro ⟨m, rfl⟩
  exact h rfl

/-- What a symbol says of a declaration in a text. -/
structure Symbol.Shows (text : String) (d : Decl) (s : Symbol) : Prop where
  heading : ∃ name, d.heading? = some (name, s.kind, s.detail) ∧ s.name = name.text
  covered : s.extent.covered text =
    String.ofList (Lexer.slice text.toList d.mark.span.start d.mark.span.stop)
  start : s.extent.start ≤ s.selection.start
  proper : s.selection.start < s.selection.stop
  stop : s.selection.stop ≤ s.extent.stop
  selected : s.selection.covered text = s.name

namespace Document

section Declarations

variable {text uri : String} {source : SourceText} {ds : List Decl}

theorem forall₂_symbols {R : Decl → Symbol → Prop}
    (h : ∀ d ∈ ds, ∀ s, d.symbol? source = some s → R d s) :
    List.Forall₂ R (ds.filter (!·.isImport)) (ds.filterMap (Decl.symbol? source)) := by
  induction ds with
  | nil => exact .nil
  | cons d ds ih =>
    obtain ⟨hd, hds⟩ := List.forall_mem_cons.mp h
    have hsome : (d.symbol? source).isSome = !d.isImport :=
      Option.isSome_map.trans d.heading?_isSome
    cases hs : d.symbol? source with
    | none =>
      rw [hs] at hsome
      rw [List.filterMap_cons_none hs, List.filter_cons_of_neg (by simp [← hsome])]
      exact ih hds
    | some s =>
      rw [hs] at hsome
      rw [List.filterMap_cons_some hs, List.filter_cons_of_pos (by simp [← hsome])]
      exact .cons (hd s hs) (ih hds)

theorem pairwise_symbols (h : ds.Pairwise fun d e => d.mark.span.stop ≤ e.mark.span.start) :
    (ds.filterMap (Decl.symbol? (.ofString text uri))).Pairwise
      fun s t => s.extent.stop ≤ t.extent.start := by
  refine h.filterMap _ fun d e hde s hs t ht => ?_
  obtain ⟨x, -, rfl⟩ := Option.map_eq_some_iff.mp hs
  obtain ⟨y, -, rfl⟩ := Option.map_eq_some_iff.mp ht
  exact SourceText.place_le hde

end Declarations

theorem symbols_after_open {uri text : String} {d : Document} (h : read? uri text = some d)
    (s : Session) : s.run [.open uri text, .symbols uri] =
      [.published uri d, .symbols (d.symbols uri)] := by
  have hopen : s.step? (.open uri text) = some (s.put uri d, .published uri d) :=
    Session.keep?_eq s h
  rw [Session.run, hopen]
  simp [Session.run, Session.step?, Dictionary.get?_put]

section Parsed

variable {text uri : String} {tokens : List Token} {m : Module} {arena : Arena Node}
  (hlex : lex text = .ok tokens) (hparse : parse tokens = .ok (m, arena))

include hlex hparse

theorem declaration_spans {d : Decl} (hd : d ∈ m.declarations) :
    (d.mark.span.start < d.mark.span.stop ∧ d.mark.span.stop ≤ text.length) ∧
      ∀ name kind detail, d.heading? = some (name, kind, detail) →
        name.mark.span.Within d.mark.span := by
  have horder := lex_inOrder hlex
  obtain ⟨hspan, i, j, -, -, htiles⟩ := parse_tiles (lex_lexed hlex) hparse
  have hchild : d.outline ∈ m.outline.children := by
    rw [m.children_outline]
    exact List.mem_map_of_mem hd
  have hdecl := htiles.spans horder hspan .refl d.outline hchild
    (Outline.not_isEmptyBlock d.label_ne_block)
  rw [d.mark_outline] at hdecl
  obtain ⟨⟨hpos, -, t, ht, -, hstop⟩, -⟩ := hdecl
  refine ⟨⟨hpos, hstop ▸ (horder.mem t ht).2.2⟩, fun name kind detail h => ?_⟩
  rw [← d.mark_outline]
  exact (htiles.spans horder hspan (.single hchild) _ (Decl.name_mem_children h)
    (Outline.not_isEmptyBlock name.label_ne_block)).2

theorem symbol_shows {d : Decl} {s : Symbol} (hd : d ∈ m.declarations)
    (hs : d.symbol? (.ofString text uri) = some s) : s.Shows text d := by
  obtain ⟨⟨name, kind, detail⟩, hheading, rfl⟩ := Option.map_eq_some_iff.mp hs
  obtain ⟨⟨hpos, hstop⟩, hnames⟩ := declaration_spans hlex hparse hd
  have hwithin := hnames name kind detail hheading
  -- the name is a token, and its text that of the name
  obtain ⟨t, ht, htext, hspan⟩ := parse_headed hlex hparse d hd name kind detail hheading
  have ht : t ∈ tokens := by simpa [Input.ofTokens] using ht
  obtain ⟨-, hpos', hstop'⟩ := (lex_inOrder hlex).mem t ht
  have hslice := (lex_laid hlex).text t ht
  rw [Token.start, Token.stop, hspan] at hpos' hslice
  rw [Token.stop, hspan] at hstop'
  exact {
    heading := ⟨name, hheading, rfl⟩
    covered := Extent.covered_ofSpan (Nat.le_of_lt hpos) hstop
    start := Extent.start_le hwithin
    proper := (Extent.ofSpan_proper hpos' hstop').1
    stop := Extent.stop_le hwithin
    selected := by
      rw [Extent.covered_ofSpan (Nat.le_of_lt hpos') hstop', ← hslice, String.ofList_toList,
        htext] }

end Parsed

/-- What a session tells of a text that parses, whatever other documents it holds. -/
theorem symbols_of_parse {uri text : String} {tokens : List Token} {m : Module}
    {arena : Arena Node} (hlex : lex text = .ok tokens) (hparse : parse tokens = .ok (m, arena)) :
    ∃ d found, (∀ s : Session,
        s.run [.open uri text, .symbols uri] = [.published uri d, .symbols found]) ∧
      List.Forall₂ (fun d s => s.Shows text d) (m.declarations.filter (!·.isImport)) found ∧
      found.Pairwise fun s t => s.extent.stop ≤ t.extent.start := by
  obtain ⟨-, i, j, -, -, htiles⟩ := parse_tiles (lex_lexed hlex) hparse
  refine ⟨_, _, symbols_after_open (read?_of_parse hlex hparse), ?_, ?_⟩
  · exact forall₂_symbols fun d hd s hs => symbol_shows hlex hparse hd hs
  · exact pairwise_symbols (htiles.pairwise (lex_inOrder hlex))

/-- Declarations with modifiers, over several lines, behind a comment, and before one. -/
def declared : String :=
  "import a::b\n\n/* π */ public type nat is (int n)\n    where n >= 0\n\n" ++
    "export method m(nat x):\n    skip // x\nconstant ten is 10\n"

theorem symbols_of_parse_declared :
    ∃ tokens m arena, lex declared = .ok tokens ∧ parse tokens = .ok (m, arena) ∧
      ∃ d found, (∀ s : Session,
          s.run [.open "d" declared, .symbols "d"] = [.published "d" d, .symbols found]) ∧
        List.Forall₂ (fun d s => s.Shows declared d) (m.declarations.filter (!·.isImport)) found ∧
        found.Pairwise (fun s t => s.extent.stop ≤ t.extent.start) ∧
        found.map (fun s => (s.name, s.extent.start, s.selection.start)) =
          [("nat", ⟨2, 8⟩, ⟨2, 20⟩), ("m", ⟨5, 0⟩, ⟨5, 14⟩), ("ten", ⟨7, 0⟩, ⟨7, 9⟩)] := by
  obtain ⟨tokens, m, arena, hlex, hparse, hplaces⟩ := exists_module_of_eq declared
    (fun m => (m.declarations.filterMap (Decl.symbol? (.ofString declared "d"))).map fun s =>
      (s.name, s.extent.start, s.selection.start))
    [("nat", ⟨2, 8⟩, ⟨2, 20⟩), ("m", ⟨5, 0⟩, ⟨5, 14⟩), ("ten", ⟨7, 0⟩, ⟨7, 9⟩)]
    (by decide +kernel)
  obtain ⟨d, found, hfound, hshows, happart⟩ :=
    @symbols_of_parse "d" declared tokens m arena hlex hparse
  refine ⟨tokens, m, arena, hlex, hparse, d, found, hfound, hshows, happart, ?_⟩
  have hanswers := hfound []
  rw [symbols_after_open (read?_of_parse hlex hparse)] at hanswers
  obtain ⟨-, hanswers⟩ := List.cons.inj hanswers
  rw [← Session.Answer.symbols.inj (List.cons.inj hanswers).1]
  exact hplaces

end Document

end Whiley
