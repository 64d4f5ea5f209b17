import Whiley.Command
import Whiley.Proofs.Grammar.ReadsDecls
import Whiley.Proofs.Text.Position
import Whiley.Proofs.Token.Order

namespace Whiley

structure Span.Bounded (tokens : List Token) (s : Span) : Prop where
  start : ∃ t ∈ tokens, t.start = s.start
  stop : ∃ t ∈ tokens, t.stop = s.stop

theorem Input.Marks.bounded {tokens : List Token} {n : Nat} {s : Span}
    (horder : Lexer.InOrder 0 n tokens) (h : (ofTokens tokens).Marks s) :
    s.start < s.stop ∧ s.stop ≤ n ∧ s.Bounded tokens := by
  obtain ⟨i, j, t, u, hij, ht, hu, rfl⟩ := h
  replace ht : tokens[i]? = some t := (Input.getElem?_ofTokens tokens i).symm.trans ht
  replace hu : tokens[j]? = some u := (Input.getElem?_ofTokens tokens j).symm.trans hu
  have hmem := List.mem_of_getElem? hu
  exact ⟨horder.start_lt_stop hij ht hu, (horder.mem u hmem).2.2,
    ⟨t, List.mem_of_getElem? ht, rfl⟩, ⟨u, hmem, rfl⟩⟩

theorem parse_error_bounded {source : String} {tokens : List Token} {e : SyntaxError}
    (hlex : lex source = .ok tokens) (hparse : parse tokens = .error (.error e)) :
    e.span.start < e.span.stop ∧ e.span.stop ≤ source.length ∧ e.span.Bounded tokens := by
  -- without tokens there is no complaint, so there is always a token to mark
  have hne : (Input.ofTokens tokens).tokens ≠ #[] := by
    intro hnil
    obtain rfl : tokens = [] := by simpa [Input.ofTokens] using hnil
    cases hparse
  exact (parse_error_located (lex_lexed hlex) hparse hne).bounded (lex_inOrder hlex)

theorem Diagnostic.syntaxCode_ne : syntaxCode ≠ lexicalCode := by decide

section Reading

variable {file uri source : String} {tokens : List Token}

theorem readModule_of_lex_error {e : LexicalError} (h : lex source = .error e) :
    Command.readModule file source = .error (.diagnostic (.ofLexicalError file e)) := by
  simp [Command.readModule, Command.readTokens, h, Except.mapError, bind, Except.bind]

theorem readModule_of_parse_error {e : SyntaxError} (hlex : lex source = .ok tokens)
    (hparse : parse tokens = .error (.error e)) :
    Command.readModule file source = .error (.diagnostic (.ofSyntaxError file e)) := by
  simp [Command.readModule, Command.readTokens, hlex, hparse, Except.mapError, bind, Except.bind]

end Reading

theorem complaint_marks {file uri source : String}
    (h : (∃ e, lex source = .error e) ∨
      ∃ tokens e, lex source = .ok tokens ∧ parse tokens = .error (.error e)) :
    ∃ d l, Command.readModule file source = .error (.diagnostic d) ∧ d.labels = [l] ∧
      0 ≤ l.start ∧ l.start < l.stop ∧ l.stop ≤ source.length ∧
      (d.code = "E100" ∨ d.code = "E200") ∧ (d.code = "E100" ↔ ∃ e, lex source = .error e) ∧
      (d.code = "E200" → ∃ tokens, lex source = .ok tokens ∧
        (∃ t ∈ tokens, (t.start : Int) = l.start) ∧ ∃ t ∈ tokens, (t.stop : Int) = l.stop) ∧
      ∃ n, (Document.read? uri source).map (·.notices) = some [n] ∧ n.code = some d.code ∧
        n.extent.start < n.extent.stop ∧ n.extent.start.LiesIn source.toList ∧
          n.extent.stop.LiesIn source.toList := by
  rcases h with ⟨e, hlex⟩ | ⟨tokens, e, hlex, hparse⟩
  · have hpos := e.start_lt_stop
    have hstop := lex_error_in_text hlex
    refine ⟨_, _, readModule_of_lex_error hlex, rfl, Int.natCast_nonneg _, Int.ofNat_lt.mpr hpos,
      Int.ofNat_le.mpr hstop, .inl rfl, ⟨fun _ => ⟨e, hlex⟩, fun _ => rfl⟩, fun hcode => ?_,
      _, congrArg _ (Document.read?_of_lex_error hlex), rfl, Extent.ofSpan_proper hpos hstop⟩
    exact absurd hcode.symm Diagnostic.syntaxCode_ne
  · obtain ⟨hpos, hstop, ⟨t, ht, hstart⟩, ⟨u, hu, hend⟩⟩ := parse_error_bounded hlex hparse
    refine ⟨_, _, readModule_of_parse_error hlex hparse, rfl, Int.natCast_nonneg _,
      Int.ofNat_lt.mpr hpos, Int.ofNat_le.mpr hstop, .inr rfl,
      ⟨fun hcode => absurd hcode Diagnostic.syntaxCode_ne, fun hlexical => ?_⟩,
      fun _ => ⟨tokens, hlex, ⟨t, ht, congrArg _ hstart⟩, ⟨u, hu, congrArg _ hend⟩⟩,
      _, congrArg _ (Document.read?_of_failure hlex hparse), rfl, Extent.ofSpan_proper hpos hstop⟩
    obtain ⟨e', he'⟩ := hlexical
    rw [hlex] at he'
    cases he'

def doubled : String :=
  "method m():\n    skip skip\n"

theorem complaint_marks_doubled :
    ∃ d l, Command.readModule "m.whiley" doubled = .error (.diagnostic d) ∧ d.labels = [l] ∧
      l.start < l.stop ∧ (d.code = "E100" ↔ ∃ e, lex doubled = .error e) ∧
      ∃ n, (Document.read? "m" doubled).map (·.notices) = some [n] ∧ n.extent.start < n.extent.stop := by
  obtain ⟨d, l, hread, hl, -, hpos, -, -, hcode, -, n, hn, -, hextent, -⟩ :=
    @complaint_marks "m.whiley" "m" doubled
      (.inr ⟨_, ⟨.expectingLineEnd, ⟨21, 25⟩⟩, rfl, rfl⟩)
  exact ⟨d, l, hread, hl, hpos, hcode, n, hn, hextent⟩

end Whiley
