import Whiley.Proofs.Grammar.Delivers
import Whiley.Proofs.Layout.Spaced
import Whiley.Proofs.Tree.Same

namespace Whiley

open Whiley.Parser Whiley.Grammar Piece

theorem Kind.ofText_marks :
    Kind.ofText "(" = .lparen ∧ Kind.ofText ")" = .rparen ∧ Kind.ofText "[" = .lbracket ∧
      Kind.ofText "]" = .rbracket ∧ Kind.ofText "\x7b" = .lbrace ∧ Kind.ofText "\x7d" = .rbrace ∧
      Kind.ofText "<" = .less ∧ Kind.ofText ">" = .greater ∧ Kind.ofText "," = .comma ∧
      Kind.ofText ":" = .colon ∧ Kind.ofText "::" = .colonColon ∧ Kind.ofText "..." = .dotDotDot ∧
      Kind.ofText "!" = .bang ∧ Kind.ofText "&" = .ampersand ∧ Kind.ofText "|" = .bar ∧
      Kind.ofText "->" = .arrow ∧ Kind.ofText "function" = .kwFunction ∧
      Kind.ofText "method" = .kwMethod ∧ Kind.ofText "." = .dot ∧
      Kind.ofText "return" = .kwReturn := by
  decide +kernel

namespace Piece

variable {sep ps : Pieces} {f : Face} {parts : List Pieces} {ks : List Kind}

theorem faces_separated (hsep : faces sep = [f]) :
    faces (separated sep parts) = Input.listing f false (parts.map faces) := by
  have hrest : ∀ parts : List Pieces,
      faces (parts.flatMap (sep ++ ·)) = Input.listing f true (parts.map faces) := by
    intro parts
    induction parts with
    | nil => rfl
    | cons ps parts ih => simp [hsep, ih, Input.listing]
  cases parts with
  | nil => rfl
  | cons ps parts => rw [separated_cons, faces_append, hrest, List.map_cons, Input.listing]

theorem faces_commas :
    faces (commas parts) = Input.listing (.word .comma ",") false (parts.map faces) :=
  faces_separated (by simp only [faces, Kind.ofText_marks])

theorem Begins.faces (h : Begins ks ps) : ∃ k text fs, faces ps = .word k text :: fs ∧ k ∈ ks := by
  obtain ⟨text, rest, rfl, hk⟩ := h
  exact ⟨_, text, Piece.faces rest, rfl, hk⟩

theorem Begins.at_front {input : Input} {i j : Nat} (h : Begins ks ps)
    (hi : input.Shows i (Piece.faces ps) j) : ∃ k ∈ ks, ∃ text, input.At i (.word k text) := by
  obtain ⟨k, text, fs, hfaces, hk⟩ := h.faces
  rw [hfaces] at hi
  exact ⟨k, hk, text, hi.1⟩

theorem brackets_front {input : Input} {i j : Nat} (hi : input.Shows i (faces (brackets ps)) j) :
    input.Meets i .lparen := by
  rw [brackets, List.cons_append, faces] at hi
  simp only [Kind.ofText_marks] at hi
  exact hi.1.meets

end Piece

def Identifier.face (i : Identifier) : Face :=
  .word (Kind.ofText i.text) i.text

theorem Identifier.IsWord.face_eq {i : Identifier} (h : i.IsWord) :
    i.face = .word .identifier i.text := by
  rw [Identifier.face, Kind.ofText_identifier h]

section Names

variable {input : Input} {i j : Nat} {k : Kind} {s : Scope} {l : Identifier} {ls : List Identifier}
  {text : String}

theorem Identifier.enclosed_front {opening closing : String}
    (hi : input.Shows i (faces (Identifier.enclosed opening closing ls)) j) (hj : input.Meets j k) :
    input.Meets i (Kind.ofText opening) ∨ input.Meets i k := by
  cases ls with
  | nil =>
    obtain rfl : i = j := hi
    exact .inr hj
  | cons l ls =>
    rw [Identifier.enclosed, if_neg (by simp), List.cons_append, faces] at hi
    exact .inl hi.1.meets

namespace Grammar

theorem identifierOf_delivers {t : Token} :
    Delivers input i (identifierOf t) i (fun x => x.text = t.text) :=
  .allocate fun _ => rfl

theorem identifier_delivers (hi : input.At i (.word .identifier text)) :
    Delivers input i identifier (i + 1) (fun x => text = x.text) :=
  .expecting hi rfl fun _ _ ht => identifierOf_delivers.imp fun _ hx => (hx.trans ht).symm

theorem optionalIdentifier_declines (hi : input.Meets i k) (hk : k.isSpace = false)
    (hne : k ≠ .identifier) : Delivers input i optionalIdentifier i (· = none) :=
  .declining hi (Input.skips_of_solid hk) (by simpa using hne) (.pure rfl)

theorem optionalLifetime_delivers {lines : Bool} (hl : l.IsLifetime) (hi : input.At i l.face) :
    Delivers input i (optionalLifetime lines) (i + 1) fun o => ∃ x, o = some x ∧ l.Same x := by
  have hspace : ∀ k ∈ [Kind.identifier, .kwThis, .star], k.isSpace = false := by decide
  refine .accepting hi hl.kind (hspace _ hl.kind) fun _ _ ht => ?_
  exact identifierOf_delivers.bind fun x hx => .pure ⟨x, rfl, (hx.trans ht).symm⟩

theorem lifetime_delivers (hl : l.IsLifetime) (hi : input.At i l.face) :
    Delivers input i lifetime (i + 1) l.Same := by
  refine (optionalLifetime_delivers hl hi).bind fun o ho => ?_
  obtain ⟨x, rfl, hx⟩ := ho
  exact .pure hx

theorem lifetimeParameter_delivers (hl : s.isAvailable l.text)
    (hi : input.At i (.word .identifier l.text)) :
    Delivers input i (lifetimeParameter s) (i + 1) fun r => l.Same r.1 ∧ r.2 = s.addLifetime l := by
  refine (identifier_delivers hi).bind fun x hx => ?_
  have hdeclare : s.declareLifetime x = .ok (s.addLifetime l) := by
    rw [Scope.declareLifetime, Scope.checkAvailable, Scope.addLifetime, ← hx, if_pos hl]
    rfl
  exact .checked hdeclare (.pure ⟨hx, rfl⟩)

variable (hroom : input.tokens.size < input.allowance)

include hroom

theorem qualifiedName_single (hi : input.At i (.word .identifier text)) (hnext : input.Meets (i + 1) k)
    (hk : k.isSpace = false) (hne : k ≠ .colonColon) :
    Delivers input i qualifiedName (i + 1) fun n => ∃ x, n.components = [x] ∧ x.text = text := by
  refine .settled hi.meets rfl ((identifier_delivers hi).bind fun x hx => ?_)
  refine (Delivers.afterNone hroom (hnext.awaits (Input.skips_of_solid hk)) hne).bind fun xs hxs => ?_
  exact .make fun _ => ⟨x, by rw [hxs], hx.symm⟩

theorem qualifiedName_delivers {n : Name} (hn : n.Formed) (hi : input.Shows i (faces n.pieces) j)
    (hj : input.Meets j k) (hk : k.isSpace = false) (hne : k ≠ .colonColon) :
    Delivers input i qualifiedName j n.Same := by
  obtain ⟨m, components⟩ := n
  obtain ⟨hne', hwords⟩ := hn
  obtain ⟨first, rest, rfl⟩ := List.exists_cons_of_ne_nil hne'
  have hfaces : faces (Name.mk m (first :: rest)).pieces = first.face ::
      Input.listing (.word .colonColon "::") true (rest.map fun c => [c.face]) := by
    rw [Name.pieces, faces_separated (f := .word .colonColon "::")
      (by simp only [faces, Kind.ofText_marks]), List.map_map]
    rfl
  rw [hfaces, (hwords first List.mem_cons_self).face_eq] at hi
  obtain ⟨hfirst, hrest⟩ := hi
  refine .settled hfirst.meets rfl ((identifier_delivers hfirst).bind fun x hx => ?_)
  refine Delivers.bind (.afterEach hroom (R := Identifier.Same) rfl (Input.skips_of_solid hk) hne
    hrest hj fun y hy a b l _ hshows _ _ => ?_) fun xs hxs => .make fun _ => .cons hx hxs
  rw [(hwords y (List.mem_cons_of_mem first hy)).face_eq] at hshows
  obtain ⟨ha, rfl⟩ := hshows
  exact identifier_delivers ha

theorem lifetimeParameters_delivers (hls : ls ≠ []) (hdeclares : s.Declares ls)
    (hi : input.Shows i (faces (Identifier.list ls ++ [.word ">"])) j) :
    Delivers input i (lifetimeParameters s) j fun r =>
      List.Forall₂ Identifier.Same ls r.1 ∧ r.2 = s.addLifetimes ls := by
  obtain ⟨first, rest, rfl⟩ := List.exists_cons_of_ne_nil hls
  obtain ⟨hword, havailable, hdeclares⟩ := hdeclares
  have hfaces : faces (Identifier.list (first :: rest) ++ [.word ">"]) = first.face ::
      Input.listing (.word .comma ",") true (rest.map fun c => [c.face]) ++
        [.word .greater ">"] := by
    rw [faces_append, Identifier.list, faces_commas, List.map_map]
    simp only [faces, Kind.ofText_marks]
    rfl
  rw [hfaces, hword.face_eq] at hi
  obtain ⟨hfirst, hi⟩ := hi
  obtain ⟨m, hrest, hgreater, rfl⟩ := Input.shows_append.mp hi
  let I (later : List Identifier) (a : Nat) (r : List Identifier × Scope) : Prop :=
    (∃ done, first :: rest = done ++ later ∧ List.Forall₂ Identifier.Same done r.1.reverse ∧
      r.2 = s.addLifetimes done) ∧ r.2.Declares later ∧
        input.Shows a (Input.listing (.word .comma ",") true (later.map fun c => [c.face])) m
  refine (lifetimeParameter_delivers havailable hfirst).bind fun r hr => ?_
  obtain ⟨x, scope⟩ := r
  obtain ⟨hx, rfl⟩ := hr
  refine Delivers.bind (m := m) (P := fun r => List.Forall₂ Identifier.Same (first :: rest)
    r.1.reverse ∧ r.2 = s.addLifetimes (first :: rest)) (.foldWhile hroom (I := I)
    ⟨⟨[first], rfl, .cons hx .nil, rfl⟩, hdeclares, hrest⟩ (fun y later a r h => ?_) fun a r h => ?_)
    fun r hr => .expecting hgreater rfl fun _ _ _ => .pure hr
  · obtain ⟨⟨done, hall, hdone, hscope⟩, ⟨hy, hfree, hlater⟩, hcomma, hshows⟩ := h
    obtain ⟨hya, hshows⟩ := hshows
    rw [hy.face_eq] at hya
    have hsize := hya.lt_size
    refine ⟨a + 1 + 1, by omega, by omega, .accepting hcomma (by simp) rfl fun _ _ _ => ?_⟩
    refine (lifetimeParameter_delivers hfree hya).bind fun r' hr' => .pure ⟨_, rfl, ?_⟩
    obtain ⟨hsame, hadd⟩ := hr'
    refine ⟨⟨done ++ [y], by simp [hall], ?_, ?_⟩, hadd ▸ hlater, hshows⟩
    · rw [List.reverse_cons]
      exact List.rel_append hdone (.cons hsame .nil)
    · rw [hadd, hscope, Scope.addLifetimes, Scope.addLifetimes, List.foldl_append]
      rfl
  · obtain ⟨⟨done, hall, hdone, hscope⟩, -, rfl⟩ := h
    rw [List.append_nil] at hall
    exact ⟨.declining hgreater.meets rfl (by decide) (.pure rfl), hall ▸ hdone, hall ▸ hscope⟩

theorem optionalLifetimeParameters_delivers (hdeclares : s.Declares ls)
    (hi : input.Shows i (faces (Identifier.enclosed "<" ">" ls)) j) (hj : input.Meets j .lparen) :
    Delivers input i (optionalLifetimeParameters s) j fun r =>
      List.Forall₂ Identifier.Same ls r.1 ∧ r.2 = s.addLifetimes ls := by
  cases ls with
  | nil =>
    obtain rfl : i = j := hi
    exact .declining hj rfl (by decide) (.pure ⟨.nil, rfl⟩)
  | cons l ls =>
    have hfirst : input.Meets (i + 1) .identifier := by
      have hword : l.face = .word .identifier l.text := Identifier.IsWord.face_eq hdeclares.1
      rw [Identifier.enclosed, if_neg (by simp), List.cons_append, faces, faces_append,
        Identifier.list, faces_commas] at hi
      exact (hword ▸ hi.2.1 : input.At (i + 1) (.word .identifier l.text)).meets
    rw [Identifier.enclosed, if_neg (by simp), List.cons_append, faces] at hi
    obtain ⟨hless, hi⟩ := hi
    rw [show Kind.ofText "<" = .less by decide +kernel] at hless
    refine .accepting hless (by simp) rfl fun _ _ _ => .declining hfirst rfl (by decide) ?_
    exact lifetimeParameters_delivers hroom (by simp) hdeclares hi

theorem optionalCaptures_delivers (hls : ∀ l ∈ ls, l.IsLifetime)
    (hi : input.Shows i (faces (Identifier.enclosed "[" "]" ls)) j) (hj : input.Meets j k)
    (hk : k.isSpace = false) (hne : k ≠ .lbracket) :
    Delivers input i optionalCaptures j (List.Forall₂ Identifier.Same ls) := by
  cases ls with
  | nil =>
    obtain rfl : i = j := hi
    exact .declining hj (Input.skips_of_solid hk) (by simpa using hne) (.pure .nil)
  | cons first rest =>
    have hfaces : faces (Identifier.enclosed "[" "]" (first :: rest)) = .word .lbracket "[" ::
        first.face :: (Input.listing (.word .comma ",") true (rest.map fun c => [c.face]) ++
          [.word .rbracket "]"]) := by
      rw [Identifier.enclosed, if_neg (by simp), List.cons_append, faces, faces_append,
        Identifier.list, faces_commas, List.map_map]
      simp only [faces, Kind.ofText_marks]
      rfl
    rw [hfaces] at hi
    obtain ⟨hopen, hfirst, hi⟩ := hi
    obtain ⟨m, hrest, hclose, rfl⟩ := Input.shows_append.mp hi
    have hne : ∀ k ∈ [Kind.identifier, .kwThis, .star],
        Input.skips true k = false ∧ k ∉ [Kind.rbracket] := by decide
    have hkind := hne _ (hls first List.mem_cons_self).kind
    refine .accepting hopen (by simp) rfl fun _ _ _ => .declining hfirst.meets hkind.1 hkind.2 ?_
    refine (lifetime_delivers (hls first List.mem_cons_self) hfirst).bind fun x hx => ?_
    refine Delivers.bind (.afterEach hroom (R := Identifier.Same) rfl rfl (by decide) hrest
      hclose.meets fun y hy a b l _ hshows _ _ => ?_) fun xs hxs =>
        .expecting hclose rfl fun _ _ _ => .pure (.cons hx hxs)
    obtain ⟨ha, rfl⟩ := hshows
    exact lifetime_delivers (hls y (List.mem_cons_of_mem first hy)) ha

end Grammar

end Names

end Whiley
