import Whiley.Proofs.Grammar.Literals
import Whiley.Proofs.Grammar.Simulation

namespace Whiley.Token

variable {σ : Simulation} {t t' : Token}

theorem failure_alike (hspan : σ.lhs.span t.span = σ.rhs.span t'.span) (fault : SyntaxFault) :
    (t.failure fault).relabel σ.lhs = (t'.failure fault).relabel σ.rhs := by
  simp [failure, Failure.relabel, SyntaxError.relabel, hspan]

theorem quotedBody_alike (htext : t.text = t'.text) : t.quotedBody = t'.quotedBody := by
  rw [quotedBody, quotedBody, htext]

theorem byteValue_alike (htext : t.text = t'.text)
    (hspan : σ.lhs.span t.span = σ.rhs.span t'.span) :
    σ.AlikeReading t.byteValue t'.byteValue := by
  rw [Simulation.AlikeReading, byteValue, byteValue, htext]
  split
  · exact congrArg Except.error (failure_alike hspan _)
  · split
    · rfl
    · exact congrArg Except.error (failure_alike hspan _)

theorem charValue_alike (htext : t.text = t'.text)
    (hspan : σ.lhs.span t.span = σ.rhs.span t'.span) :
    σ.AlikeReading t.charValue t'.charValue := by
  rw [Simulation.AlikeReading, charValue, charValue, quotedBody_alike htext]
  split
  · split
    · split
      · rfl
      · exact congrArg Except.error (failure_alike hspan _)
    · exact congrArg Except.error (failure_alike hspan _)
  · rfl
  · rfl

theorem integerValue_alike (htext : t.text = t'.text) :
    σ.AlikeReading t.integerValue t'.integerValue := by
  rw [Simulation.AlikeReading, integerValue, integerValue, htext]
  split <;> rfl

theorem mapError_map {α β : Type} {x y : Except Failure α} (h : σ.AlikeReading x y) (g : α → β) :
    σ.AlikeReading (x.map g) (y.map g) := by
  cases x with
  | ok a =>
    cases y with
    | ok b => exact congrArg Except.ok (congrArg g (Except.ok.inj h))
    | error e => exact absurd h nofun
  | error e =>
    cases y with
    | ok b => exact absurd h nofun
    | error e' => exact congrArg Except.error (Except.error.inj h)

theorem codePoints_alike (hspan : σ.lhs.span t.span = σ.rhs.span t'.span) (body : List Char) :
    σ.AlikeReading (t.codePoints body) (t'.codePoints body) := by
  fun_induction codePoints t body with
  | case1 => rfl
  | case2 => rfl
  | case3 a b c d cs n hn ih =>
    rw [codePoints, hn]
    exact mapError_map ih _
  | case4 a b c d cs hn =>
    rw [codePoints, hn]
    exact congrArg Except.error (failure_alike hspan _)
  | case5 cs hnot =>
    rw [codePoints, if_pos rfl]
    · exact congrArg Except.error (failure_alike hspan _)
    · exact hnot
  | case6 code cs hnot hu e he ih =>
    rw [codePoints, if_neg hu, he]
    · exact mapError_map ih _
    · exact hnot
  | case7 code cs hnot hu he =>
    rw [codePoints, if_neg hu, he]
    · exact congrArg Except.error (failure_alike hspan _)
    · exact hnot
  | case8 c cs hend hlong hpair ih =>
    rw [codePoints]
    · exact mapError_map ih _
    · exact hend
    · exact hlong
    · exact hpair

theorem stringValue_alike (htext : t.text = t'.text)
    (hspan : σ.lhs.span t.span = σ.rhs.span t'.span) :
    σ.AlikeReading t.stringValue t'.stringValue := by
  have hpoints := codePoints_alike hspan t.quotedBody
  rw [stringValue, stringValue, ← quotedBody_alike htext]
  cases hx : t.codePoints t.quotedBody with
  | error e =>
    cases hy : t'.codePoints t.quotedBody with
    | error e' =>
      rw [hx, hy] at hpoints
      exact congrArg Except.error (Except.error.inj hpoints)
    | ok ns' =>
      rw [hx, hy] at hpoints
      exact absurd hpoints nofun
  | ok ns =>
    cases hy : t'.codePoints t.quotedBody with
    | error e' =>
      rw [hx, hy] at hpoints
      exact absurd hpoints nofun
    | ok ns' =>
      rw [hx, hy] at hpoints
      obtain rfl : ns = ns' := Except.ok.inj hpoints
      dsimp only [bind, Except.bind]
      split
      · rfl
      · exact congrArg Except.error (failure_alike hspan _)

end Whiley.Token
