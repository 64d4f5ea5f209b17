import Whiley.Proofs.Grammar.WellNested

namespace Whiley

theorem parse_offside {source : String} {tokens : List Token} {m : Module} {arena : Arena Node}
    (hlex : lex source = .ok tokens) (hparse : parse tokens = .ok (m, arena)) :
    m.Offside (.ofTokens tokens) := by
  obtain ⟨-, i, j, -, -, htiles⟩ := parse_tiles (lex_lexed hlex) hparse
  intro d hd
  obtain ⟨k, l, -, hdeclares⟩ := htiles.mem d hd
  exact hdeclares.offside

/-- A call in brackets, a chain of tests, cases, and lines of tabs and of spaces. -/
def staircase : String :=
  "method m(int x):\n" ++
  "    if x > 0:\n" ++
  "     skip\n" ++
  "    else if x < 0:\n" ++
  "        switch x:\n" ++
  "        \tcase 1:\n" ++
  "         \tskip\n" ++
  "    else:\n" ++
  "        (m(1))\n"

theorem parse_offside_staircase :
    ∃ ts m arena, lex staircase = .ok ts ∧ parse ts = .ok (m, arena) ∧
      m.declarations.length = 1 ∧ m.Offside (.ofTokens ts) := by
  obtain ⟨ts, m, arena, hlex, hparse, hlength⟩ := exists_module_of_eq staircase
    (·.declarations.length) 1 (by decide +kernel)
  exact ⟨ts, m, arena, hlex, hparse, hlength, parse_offside hlex hparse⟩

end Whiley
