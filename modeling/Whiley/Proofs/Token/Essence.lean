import Mathlib.Data.List.Chain
import Mathlib.Data.List.Flatten
import Mathlib.Data.List.Forall2
import Whiley.Grammar.Parser
import Whiley.Proofs.Token.Spelling

/-!
What of a stream of tokens bears on its meaning: the tokens that are no comments, on the lines that
are not blank. An indent counts by its blanks, and a line end by its being there.
-/

namespace Whiley

inductive Face
  | lineEnd
  | indent (depth : Except Char Indent)
  | word (kind : Kind) (text : String)
  deriving DecidableEq

/-- What of a token counts. -/
def Token.face (t : Token) : Face :=
  if t.kind = .newline then .lineEnd
  else if t.kind = .indent then .indent (Indent.ofText t.text)
  else .word t.kind t.text

/-- The tokens that are no comments. -/
def code (ts : List Token) : List Token :=
  ts.filter fun t => !t.kind.isComment

/-- The lines of a stream, each with the token that ends it. -/
def tokenLines : List Token → List (List Token)
  | [] => []
  | t :: ts =>
    if t.kind = .newline then [t] :: tokenLines ts
    else
      match tokenLines ts with
      | [] => [[t]]
      | l :: ls => (t :: l) :: ls

/-- A line that holds nothing but its end, and perhaps an indent before it. -/
def isBlankLine (l : List Token) : Bool :=
  l.map (·.kind) = [.newline] || l.map (·.kind) = [.indent, .newline]

def withoutBlankLines (ls : List (List Token)) : List Token :=
  (ls.filter fun l => !isBlankLine l).flatten

/-- The lines that are not blank, once the comments are taken out. -/
def essence (ts : List Token) : List Token :=
  withoutBlankLines (tokenLines (code ts))

/-- The essence of a stream that begins inside of a line, which is not blank then. -/
def essenceWithin (ts : List Token) : List Token :=
  match tokenLines (code ts) with
  | [] => []
  | l :: ls => l ++ withoutBlankLines ls

namespace Token

theorem face_solid {t : Token} {k : Kind} (ht : t.kind = k) (hk : k.isSpace = false) :
    t.face = .word k t.text := by
  subst ht
  have hplain : t.kind ≠ .newline ∧ t.kind ≠ .indent := by
    constructor <;> (intro h; rw [h] at hk; cases hk)
  rw [face, if_neg hplain.1, if_neg hplain.2]

variable {t t' : Token} (h : t.face = t'.face)

include h

theorem kind_of_face : t.kind = t'.kind := by
  unfold face at h
  split_ifs at h with h1 h2 h3 h4 h5 h6
  · rw [h1, h2]
  · rw [h4, h6]
  · exact (Face.word.inj h).1

theorem text_of_face (hnewline : t.kind ≠ .newline) (hindent : t.kind ≠ .indent) :
    t.text = t'.text := by
  have hkind := kind_of_face h
  rw [face, face, ← hkind, if_neg hnewline, if_neg hindent, if_neg hnewline, if_neg hindent] at h
  exact (Face.word.inj h).2

theorem indent_of_face (hindent : t.kind = .indent) :
    Indent.ofText t.text = Indent.ofText t'.text := by
  have hkind := kind_of_face h
  have hnewline : t.kind ≠ .newline := by rw [hindent]; decide
  rw [face, face, ← hkind, if_neg hnewline, if_pos hindent, if_neg hnewline, if_pos hindent] at h
  exact Face.indent.inj h

end Token

theorem code_comment {t : Token} {ts : List Token} (h : t.kind.isComment) :
    code (t :: ts) = code ts :=
  List.filter_cons_of_neg (by simp [h])

theorem code_cons {t : Token} {ts : List Token} (h : t.kind.isComment = false) :
    code (t :: ts) = t :: code ts :=
  List.filter_cons_of_pos (by simp [h])

theorem isComment_newline {t : Token} (h : t.kind = .newline) : t.kind.isComment = false := by
  rw [h]
  rfl

theorem isComment_indent {t : Token} (h : t.kind = .indent) : t.kind.isComment = false := by
  rw [h]
  rfl

theorem withoutBlankLines_blank {l : List Token} {ls : List (List Token)} (h : isBlankLine l) :
    withoutBlankLines (l :: ls) = withoutBlankLines ls := by
  rw [withoutBlankLines, List.filter_cons_of_neg (by simp [h]), withoutBlankLines]

theorem withoutBlankLines_cons {l : List Token} {ls : List (List Token)} (h : isBlankLine l = false) :
    withoutBlankLines (l :: ls) = l ++ withoutBlankLines ls := by
  rw [withoutBlankLines, List.filter_cons_of_pos (by simp [h]), List.flatten_cons, withoutBlankLines]

section Essence

variable {t : Token} {ts : List Token}

theorem essence_comment (h : t.kind.isComment) : essence (t :: ts) = essence ts := by
  rw [essence, code_comment h, essence]

theorem essenceWithin_comment (h : t.kind.isComment) :
    essenceWithin (t :: ts) = essenceWithin ts := by
  rw [essenceWithin, code_comment h, essenceWithin]

theorem essence_newline (h : t.kind = .newline) : essence (t :: ts) = essence ts := by
  have hblank : isBlankLine [t] := by simp [isBlankLine, h]
  rw [essence, code_cons (isComment_newline h), tokenLines, if_pos h, withoutBlankLines_blank hblank,
    essence]

theorem essenceWithin_newline (h : t.kind = .newline) :
    essenceWithin (t :: ts) = t :: essence ts := by
  rw [essenceWithin, code_cons (isComment_newline h), tokenLines, if_pos h]
  rfl

theorem essenceWithin_cons (hcomment : t.kind.isComment = false) (hnewline : t.kind ≠ .newline) :
    essenceWithin (t :: ts) = t :: essenceWithin ts := by
  rw [essenceWithin, essenceWithin, code_cons hcomment, tokenLines, if_neg hnewline]
  cases tokenLines (code ts) with
  | nil => rfl
  | cons l ls => rfl

theorem essence_cons (hcomment : t.kind.isComment = false) (hnewline : t.kind ≠ .newline)
    (hindent : t.kind ≠ .indent) : essence (t :: ts) = t :: essenceWithin ts := by
  rw [essence, essenceWithin, code_cons hcomment, tokenLines, if_neg hnewline]
  cases tokenLines (code ts) with
  | nil =>
    rw [withoutBlankLines_cons (by simp [isBlankLine, hnewline])]
    rfl
  | cons l ls =>
    rw [withoutBlankLines_cons (by simp [isBlankLine, hnewline, hindent])]
    rfl

theorem essence_indent (ts : List Token) (hindent : t.kind = .indent) :
    (∃ n, n.kind = .newline ∧ essenceWithin ts = n :: essence (t :: ts)) ∨
      (essence (t :: ts) = t :: essenceWithin ts ∧
        ∀ u, (essenceWithin ts).head? = some u → u.kind ≠ .newline) := by
  have hnewline : t.kind ≠ .newline := by rw [hindent]; decide
  rw [essence, essenceWithin, code_cons (isComment_indent hindent), tokenLines, if_neg hnewline]
  cases code ts with
  | nil =>
    right
    rw [tokenLines]
    dsimp only
    rw [withoutBlankLines_cons (by simp [isBlankLine, hnewline])]
    exact ⟨rfl, nofun⟩
  | cons u us =>
    rw [tokenLines]
    by_cases hu : u.kind = .newline
    · left
      rw [if_pos hu]
      dsimp only
      rw [withoutBlankLines_blank (by simp [isBlankLine, hindent, hu])]
      exact ⟨u, hu, rfl⟩
    · right
      rw [if_neg hu]
      cases tokenLines us with
      | nil =>
        dsimp only
        rw [withoutBlankLines_cons (by simp [isBlankLine, hnewline, hu])]
        refine ⟨rfl, ?_⟩
        rintro _ ⟨⟩
        exact hu
      | cons l ls =>
        dsimp only
        rw [withoutBlankLines_cons (by simp [isBlankLine, hnewline, hu])]
        refine ⟨rfl, ?_⟩
        rintro _ ⟨⟩
        exact hu

end Essence

theorem flatten_tokenLines (ts : List Token) : (tokenLines ts).flatten = ts := by
  induction ts with
  | nil => rfl
  | cons t ts ih =>
    rw [tokenLines]
    split
    · rw [List.flatten_cons, ih]
      rfl
    · cases h : tokenLines ts with
      | nil =>
        rw [h] at ih
        simpa using ih
      | cons l ls =>
        rw [h] at ih
        simpa using ih

theorem essence_sublist (ts : List Token) : (essence ts).Sublist ts := by
  have hlines : (withoutBlankLines (tokenLines (code ts))).Sublist (tokenLines (code ts)).flatten :=
    List.Sublist.flatten List.filter_sublist
  rw [flatten_tokenLines] at hlines
  exact hlines.trans List.filter_sublist

/-- What is left past the space at the beginning. -/
def pastSpace (lines : Bool) (ts : List Token) : List Token :=
  ts.dropWhile fun t => Input.skips lines t.kind

section Spaces

variable {lines : Bool} {t : Token} {ts : List Token}

theorem pastSpace_skip (h : Input.skips lines t.kind) :
    pastSpace lines (t :: ts) = pastSpace lines ts :=
  List.dropWhile_cons_of_pos h

theorem pastSpace_stop (h : Input.skips lines t.kind = false) : pastSpace lines (t :: ts) = t :: ts :=
  List.dropWhile_cons_of_neg (by simp [h])

theorem stop_of_pastSpace {rest : List Token} (h : pastSpace lines ts = t :: rest) :
    Input.skips lines t.kind = false := by
  have hhead := List.head?_dropWhile_not (fun t : Token => Input.skips lines t.kind) ts
  rw [pastSpace] at h
  rw [h] at hhead
  exact hhead

theorem not_newline_of_skips {k : Kind} (h : Input.skips false k) : k ≠ .newline := by
  revert h
  cases k <;> decide

theorem skips_cases {k : Kind} (h : Input.skips false k) : k = .indent ∨ k.isComment := by
  revert h
  cases k <;> decide

theorem stops_cases {k : Kind} (h : Input.skips lines k = false) :
    k.isComment = false ∧ k ≠ .indent := by
  revert h
  cases lines <;> cases k <;> decide

theorem stops_line {k : Kind} (h : Input.skips true k = false) :
    Input.skips false k = false ∧ k ≠ .newline := by
  revert h
  cases k <;> decide

theorem skips_line_cases {k : Kind} (h : Input.skips true k) :
    k = .newline ∨ Input.skips false k := by
  revert h
  cases k <;> decide

theorem essenceWithin_word (ts : List Token) (h : Input.skips lines t.kind = false) :
    ∃ rest, essenceWithin (t :: ts) = t :: rest := by
  by_cases hnewline : t.kind = .newline
  · exact ⟨_, essenceWithin_newline hnewline⟩
  · exact ⟨_, essenceWithin_cons (stops_cases h).1 hnewline⟩

theorem essenceWithin_pastLineSpace (ts : List Token) :
    essenceWithin (pastSpace false ts) = pastSpace false (essenceWithin ts) := by
  induction ts with
  | nil => rfl
  | cons t ts ih =>
    cases h : Input.skips false t.kind with
    | true =>
      rw [pastSpace_skip h, ih]
      rcases skips_cases h with hindent | hcomment
      · rw [essenceWithin_cons (isComment_indent hindent) (not_newline_of_skips h), pastSpace_skip h]
      · rw [essenceWithin_comment hcomment]
    | false =>
      obtain ⟨rest, hrest⟩ := essenceWithin_word ts h
      rw [pastSpace_stop h, hrest, pastSpace_stop h]

theorem essence_pastSpace (ts : List Token) :
    essenceWithin (pastSpace true ts) = pastSpace true (essenceWithin ts) ∧
      pastSpace true (essence ts) = pastSpace true (essenceWithin ts) := by
  induction ts with
  | nil => exact ⟨rfl, rfl⟩
  | cons t ts ih =>
    cases h : Input.skips true t.kind with
    | true =>
      rw [pastSpace_skip h]
      rcases skips_line_cases h with hnewline | hline
      · rw [essenceWithin_newline hnewline, essence_newline hnewline, pastSpace_skip h, ih.1, ih.2]
        exact ⟨rfl, rfl⟩
      rcases skips_cases hline with hindent | hcomment
      · rw [essenceWithin_cons (isComment_indent hindent) (not_newline_of_skips hline),
          pastSpace_skip h]
        refine ⟨ih.1, ?_⟩
        rcases essence_indent ts hindent with ⟨n, hn, hwithin⟩ | ⟨hessence, -⟩
        · have hskips : Input.skips true n.kind := by rw [hn]; rfl
          rw [hwithin, pastSpace_skip hskips]
        · rw [hessence, pastSpace_skip h]
      · rw [essenceWithin_comment hcomment, essence_comment hcomment]
        exact ih
    | false =>
      obtain ⟨hcomment, hindent⟩ := stops_cases h
      obtain ⟨-, hnewline⟩ := stops_line h
      rw [pastSpace_stop h, essenceWithin_cons hcomment hnewline,
        essence_cons hcomment hnewline hindent, pastSpace_stop h]
      exact ⟨rfl, rfl⟩

end Spaces

def Indented (ts : List Token) : Prop :=
  ts.IsChain fun t u => u.kind = .indent → t.kind = .newline

section Indented

variable {t : Token} {ts : List Token}

theorem Indented.tail (h : Indented (t :: ts)) : Indented ts :=
  List.IsChain.tail h

theorem Indented.head_ne {u : Token} (h : Indented (t :: u :: ts)) (ht : t.kind ≠ .newline) :
    u.kind ≠ .indent :=
  fun hu => ht (List.IsChain.rel h hu)

theorem Indented.pastLineSpace (h : Indented (t :: ts)) (ht : t.kind ≠ .newline) :
    essenceWithin (pastSpace false ts) = essenceWithin ts ∧
      essence (pastSpace false ts) = essence ts := by
  induction ts generalizing t with
  | nil => exact ⟨rfl, rfl⟩
  | cons u us ih =>
    cases hskips : Input.skips false u.kind with
    | true =>
      rcases skips_cases hskips with hindent | hcomment
      · exact absurd hindent (h.head_ne ht)
      · rw [pastSpace_skip hskips, essenceWithin_comment hcomment, essence_comment hcomment]
        exact ih h.tail (not_newline_of_skips hskips)
    | false =>
      rw [pastSpace_stop hskips]
      exact ⟨rfl, rfl⟩

theorem Indented.essence_blank {n : Token} {rest : List Token} (h : Indented ts)
    (hpast : pastSpace false ts = n :: rest) (hn : n.kind = .newline) :
    essence ts = essence rest := by
  induction ts with
  | nil => cases hpast
  | cons t ts ih =>
    cases hskips : Input.skips false t.kind with
    | true =>
      rw [pastSpace_skip hskips] at hpast
      rcases skips_cases hskips with hindent | hcomment
      · obtain ⟨hwithin, -⟩ := h.pastLineSpace (not_newline_of_skips hskips)
        rw [hpast, essenceWithin_newline hn] at hwithin
        rcases essence_indent ts hindent with ⟨n', -, hwithin'⟩ | ⟨-, hhead⟩
        · rw [← hwithin] at hwithin'
          exact (List.cons.inj hwithin').2.symm
        · rw [← hwithin] at hhead
          exact absurd hn (hhead n rfl)
      · rw [essence_comment hcomment]
        exact ih h.tail hpast
    | false =>
      rw [pastSpace_stop hskips] at hpast
      obtain ⟨rfl, rfl⟩ := List.cons.inj hpast
      exact essence_newline hn

theorem Indented.essence_word {u : Token} {rest : List Token} (h : Indented ts)
    (hpast : pastSpace false ts = u :: rest) (hu : u.kind ≠ .newline) :
    (∃ t more, ts.head? = some t ∧ t.kind = .indent ∧ essence ts = t :: u :: more) ∨
      ((∀ t, ts.head? = some t → t.kind ≠ .indent) ∧ ∃ more, essence ts = u :: more) := by
  obtain ⟨hword, hindent⟩ := stops_cases (stop_of_pastSpace hpast)
  cases ts with
  | nil => cases hpast
  | cons t ts =>
    cases hskips : Input.skips false t.kind with
    | true =>
      rw [pastSpace_skip hskips] at hpast
      obtain ⟨hwithin, hessence⟩ := h.pastLineSpace (not_newline_of_skips hskips)
      rw [hpast, essenceWithin_cons hword hu] at hwithin
      rw [hpast, essence_cons hword hu hindent] at hessence
      rcases skips_cases hskips with htindent | hcomment
      · left
        refine ⟨t, essenceWithin rest, rfl, htindent, ?_⟩
        rcases essence_indent ts htindent with ⟨n, hn, hwithin'⟩ | ⟨hkept, -⟩
        · rw [← hwithin] at hwithin'
          exact absurd hn ((List.cons.inj hwithin').1 ▸ hu)
        · rw [hkept, hwithin]
      · right
        refine ⟨?_, essenceWithin rest, ?_⟩
        · rintro _ ⟨⟩ htindent
          rw [htindent] at hcomment
          exact absurd hcomment (by decide)
        · rw [essence_comment hcomment, hessence]
    | false =>
      rw [pastSpace_stop hskips] at hpast
      obtain ⟨rfl, rfl⟩ := List.cons.inj hpast
      right
      refine ⟨?_, essenceWithin ts, essence_cons hword hu hindent⟩
      rintro _ ⟨⟩
      exact hindent

end Indented

theorem Lexer.tokensFrom_indented {fuel offset : Nat} {lineStart : Bool} {cs : List Char}
    {ts : List Token} (h : tokensFrom fuel offset lineStart cs = .ok ts) :
    Indented ts ∧ ∀ t, ts.head? = some t → t.kind = .indent → lineStart = true := by
  induction fuel generalizing offset lineStart cs ts with
  | zero =>
    obtain rfl : [] = ts := by simpa [tokensFrom] using h
    exact ⟨.nil, by simp⟩
  | succ fuel ih =>
    cases cs with
    | nil =>
      obtain rfl : [] = ts := by simpa [tokensFrom] using h
      exact ⟨.nil, by simp⟩
    | cons c cs =>
      rcases tokensFrom_cases h with ⟨n, -, hrest⟩ | ⟨kind, n, rest, hl, hrest, rfl⟩
      · obtain ⟨hindented, hhead⟩ := ih hrest
        exact ⟨hindented, fun t ht hk => absurd (hhead t ht hk) (by simp)⟩
      · obtain ⟨hindented, hhead⟩ := ih hrest
        refine ⟨List.IsChain.cons hindented fun t ht hk => ?_, ?_⟩
        · simpa using hhead t ht hk
        · rintro _ ⟨⟩ hk
          exact (lexeme_token hl).2.2.2 hk

theorem lex_indented {source : String} {tokens : List Token} (h : lex source = .ok tokens) :
    Indented tokens :=
  (Lexer.tokensFrom_indented h).1

/-- What is left past blank lines and lines of comments, at the beginning of a line. -/
inductive PastBlankLines : List Token → List Token → Prop
  | done {ts} (h : pastSpace false ts = []) : PastBlankLines ts []
  | stay {ts u rest} (h : pastSpace false ts = u :: rest) (hu : u.kind ≠ .newline) :
    PastBlankLines ts ts
  | blank {ts n rest left} (h : pastSpace false ts = n :: rest) (hn : n.kind = .newline)
    (hrest : PastBlankLines rest left) : PastBlankLines ts left

def isLineSpaceOnly (ts : List Token) : Bool :=
  ts.all fun t => Input.skips false t.kind

theorem isLineSpaceOnly_of_pastSpace {ts : List Token} (h : pastSpace false ts = []) :
    isLineSpaceOnly ts := by
  induction ts with
  | nil => rfl
  | cons t ts ih =>
    cases hskips : Input.skips false t.kind with
    | true =>
      rw [pastSpace_skip hskips] at h
      rw [isLineSpaceOnly, List.all_cons, hskips, Bool.true_and]
      exact ih h
    | false =>
      rw [pastSpace_stop hskips] at h
      cases h

theorem Indented.pastSpace {lines : Bool} {ts : List Token} (h : Indented ts) :
    Indented (pastSpace lines ts) := by
  induction ts with
  | nil => exact h
  | cons t ts ih =>
    cases hskips : Input.skips lines t.kind with
    | true =>
      rw [pastSpace_skip hskips]
      exact ih h.tail
    | false =>
      rw [pastSpace_stop hskips]
      exact h

namespace PastBlankLines

theorem essence_eq {ts left : List Token} (h : PastBlankLines ts left) (hts : Indented ts) :
    essence left = if isLineSpaceOnly (essence ts) then [] else essence ts := by
  induction h with
  | done h =>
    have hall := isLineSpaceOnly_of_pastSpace h
    have hessence : isLineSpaceOnly (essence _) :=
      List.all_eq_true.mpr fun t ht =>
        List.all_eq_true.mp hall t ((essence_sublist _).subset ht)
    rw [if_pos hessence]
    rfl
  | @stay ts u rest h hu =>
    have hmem : u ∈ essence ts := by
      rcases hts.essence_word h hu with ⟨t, more, -, -, hessence⟩ | ⟨-, more, hessence⟩
      · simp [hessence]
      · simp [hessence]
    have hword : ¬ isLineSpaceOnly (essence ts) := by
      intro hall
      have hskips := List.all_eq_true.mp hall u hmem
      rw [stop_of_pastSpace h] at hskips
      cases hskips
    rw [if_neg hword]
  | blank h hn _ ih =>
    have hrest : Indented _ := h ▸ hts.pastSpace
    rw [ih hrest.tail, hts.essence_blank h hn]

theorem indent_eq {ts left : List Token} (h : PastBlankLines ts left) (hts : Indented ts) :
    left.head?.filter (fun t => t.kind = .indent) =
      (essence left).head?.filter fun t => t.kind = .indent := by
  induction h with
  | done _ => rfl
  | @stay ts u rest h hu =>
    rcases hts.essence_word h hu with ⟨t, more, hhead, -, hessence⟩ | ⟨hnone, more, hessence⟩
    · rw [hhead, hessence]
      rfl
    · have hindent := (stops_cases (stop_of_pastSpace h)).2
      have hleft : ∀ t ∈ ts.head?, ¬ decide (t.kind = Kind.indent) = true := fun t ht => by
        simpa using hnone t ht
      rw [Option.filter_eq_none_iff.mpr hleft, hessence, List.head?_cons,
        Option.filter_some_neg (by simpa using hindent)]
  | blank h hn _ ih =>
    have hrest : Indented _ := h ▸ hts.pastSpace
    exact ih hrest.tail

end PastBlankLines

abbrev SameFaces (ts us : List Token) : Prop :=
  List.Forall₂ (fun t u => t.face = u.face) ts us

namespace SameFaces

variable {ts us : List Token}

theorem iff_map : SameFaces ts us ↔ ts.map Token.face = us.map Token.face := by
  have heq := congrFun (congrFun (List.forall₂_eq_eq_eq (α := Face)) (ts.map Token.face))
    (us.map Token.face)
  rw [← heq, List.forall₂_map_left_iff, List.forall₂_map_right_iff]

theorem pastSpace {lines : Bool} (h : SameFaces ts us) :
    SameFaces (pastSpace lines ts) (pastSpace lines us) := by
  induction h with
  | nil => exact .nil
  | @cons t u ts us htu hrest ih =>
    have hkind := Token.kind_of_face htu
    cases hskips : Input.skips lines t.kind with
    | true =>
      rw [pastSpace_skip hskips, pastSpace_skip (hkind ▸ hskips)]
      exact ih
    | false =>
      rw [pastSpace_stop hskips, pastSpace_stop (hkind ▸ hskips)]
      exact .cons htu hrest

theorem isLineSpaceOnly_eq (h : SameFaces ts us) : isLineSpaceOnly ts = isLineSpaceOnly us := by
  induction h with
  | nil => rfl
  | cons htu _ ih =>
    rw [isLineSpaceOnly, List.all_cons, Token.kind_of_face htu, isLineSpaceOnly, List.all_cons]
    exact congrArg _ ih

theorem head (h : SameFaces ts us) :
    Option.Rel (fun t u => t.face = u.face) ts.head? us.head? := by
  cases h with
  | nil => exact .none
  | cons htu _ => exact .some htu

end SameFaces

theorem PastBlankLines.sameFaces {a b a' b' : List Token} (ha : PastBlankLines a a')
    (hb : PastBlankLines b b') (hia : Indented a) (hib : Indented b)
    (h : SameFaces (essence a) (essence b)) :
    SameFaces (essence a') (essence b') ∧
      Option.Rel (fun t u => Indent.ofText t.text = Indent.ofText u.text)
        (a'.head?.filter fun t => t.kind = .indent) (b'.head?.filter fun t => t.kind = .indent) := by
  have hsame : SameFaces (essence a') (essence b') := by
    rw [ha.essence_eq hia, hb.essence_eq hib, h.isLineSpaceOnly_eq]
    split
    · exact .nil
    · exact h
  refine ⟨hsame, ?_⟩
  rw [ha.indent_eq hia, hb.indent_eq hib]
  generalize essence a' = e at hsame
  generalize essence b' = e' at hsame
  cases hsame with
  | nil => exact .none
  | @cons t u _ _ htu _ =>
    have hkind := Token.kind_of_face htu
    rw [List.head?_cons, List.head?_cons]
    by_cases hindent : t.kind = .indent
    · rw [Option.filter_some_pos (by simpa using hindent),
        Option.filter_some_pos (by simpa [← hkind] using hindent)]
      exact .some (Token.indent_of_face htu hindent)
    · rw [Option.filter_some_neg (by simpa using hindent),
        Option.filter_some_neg (by simpa [← hkind] using hindent)]
      exact .none

end Whiley
