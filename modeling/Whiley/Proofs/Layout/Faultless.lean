import Whiley.Proofs.Grammar.FormedDecls
import Whiley.Proofs.Layout.ReadableExprs

namespace Whiley

open Piece

theorem Variable.list_faultless {vs : List Variable} (h : ∀ v ∈ vs, ∃ s : Scope, v.type.Formed s) :
    Faultless (Variable.list vs) := by
  refine faultless_separated (by simp) fun ps hps => ?_
  obtain ⟨v, hv, rfl⟩ := List.mem_map.mp hps
  obtain ⟨s, htype⟩ := h v hv
  have := htype.pieces_readable.faultless
  simpa [Variable.pieces] using this

theorem clausePieces_faultless (keyword : String) {es : List Expr} (h : ∀ e ∈ es, e.Readable) :
    Faultless (clausePieces keyword es) := by
  intro p hp
  obtain ⟨e, he, hp⟩ := List.mem_flatMap.mp hp
  have hpieces : Faultless (.blank :: .word keyword :: .blank :: e.pieces) := by
    simpa using (h e he).pieces.faultless
  exact hpieces p hp

theorem Expr.Formed.faultless {a : Arena Node} {s : Scope} {e : Expr} (h : e.Formed a s) :
    Faultless e.pieces :=
  (Expr.Formed.readable e h).pieces.faultless

theorem TypeExpr.Formed.faultless {s : Scope} {t : TypeExpr} (h : t.Formed s) :
    Faultless t.pieces :=
  h.pieces_readable.faultless

def Line.Faultless (l : Line) : Prop :=
  Piece.Faultless l.pieces

variable {a : Arena Node}

theorem Expr.list_faultless {s : Scope} {es : List Expr} (h : ∀ e ∈ es, e.Formed a s) :
    Faultless (Expr.list es) :=
  (Expr.list_readable fun e he => Expr.Formed.readable e (h e he)).faultless

theorem clauses_faultless {s : Scope} (keyword : String) {es : List Expr}
    (h : ∀ e ∈ es, e.Formed a s) : Faultless (clausePieces keyword es) :=
  clausePieces_faultless keyword fun e he => Expr.Formed.readable e (h e he)

mutual

theorem Stmt.Formed.faultless {s : Scope} {lead : Pieces} {depth : Nat} (hlead : Faultless lead) :
    (st : Stmt) → st.Formed a s → ∀ l ∈ st.lines lead depth, l.Faultless
  | .assert _ _, h => by
    simpa [Stmt.lines, Line.Faultless] using Expr.Formed.faultless h
  | .assume _ _, h => by
    simpa [Stmt.lines, Line.Faultless] using Expr.Formed.faultless h
  | .assign _ _ _, ⟨_, _, htargets, hvalues⟩ => by
    have hlefts := Expr.list_readable fun t ht => Expr.FormedTarget.readable t (htargets t ht)
    simpa [Stmt.lines, Line.Faultless] using
      And.intro hlefts.faultless (Expr.list_faultless hvalues)
  | .break _, _ => by simp [Stmt.lines, Line.Faultless]
  | .continue _, _ => by simp [Stmt.lines, Line.Faultless]
  | .debug _ _, h => by
    simpa [Stmt.lines, Line.Faultless] using Expr.Formed.faultless h
  | .doWhile _ _ _ body, ⟨hcondition, hinvariants, hbody⟩ => by
    have hlast := And.intro hcondition.faultless (clauses_faultless "where" hinvariants)
    refine List.forall_mem_append.mpr ⟨List.forall_mem_cons.mpr ⟨?_, ?_⟩, ?_⟩
    · simp [Line.Faultless]
    · exact Block.Formed.faultless body hbody
    · simpa [Line.Faultless] using hlast
  | .fail _, _ => by simp [Stmt.lines, Line.Faultless]
  | .ifElse _ _ trueBranch falseBranch, ⟨hcondition, htrue, hfalse⟩ => by
    refine List.forall_mem_append.mpr ⟨List.forall_mem_cons.mpr ⟨?_, ?_⟩, ?_⟩
    · simpa [Line.Faultless] using And.intro hlead hcondition.faultless
    · exact Block.Formed.faultless trueBranch htrue
    · exact Block.OptionFormed.faultless falseBranch hfalse
  | .namedBlock _ _ body, ⟨_, _, hbody⟩ => by
    refine List.forall_mem_cons.mpr ⟨?_, Block.Formed.faultless body hbody⟩
    simp [Line.Faultless]
  | .return _ values, h => by
    have hvalues := Expr.list_faultless h
    cases values <;> simp_all [Stmt.lines, Line.Faultless]
  | .skip _, _ => by simp [Stmt.lines, Line.Faultless]
  | .switch _ _ cases, ⟨hcondition, _, i, hcases⟩ => by
    refine List.forall_mem_cons.mpr ⟨?_, Case.AllFormed.faultless (s := s.deeper i) cases hcases⟩
    simpa [Line.Faultless] using hcondition.faultless
  | .while _ _ _ body, ⟨hcondition, hinvariants, hbody⟩ => by
    refine List.forall_mem_cons.mpr ⟨?_, Block.Formed.faultless body hbody⟩
    simpa [Line.Faultless] using
      And.intro hcondition.faultless (clauses_faultless "where" hinvariants)
  | .variable _ none, ⟨_, htype, _⟩ => by
    simpa [Stmt.lines, Line.Faultless, Variable.pieces] using htype.faultless
  | .variable _ (some e), ⟨_, htype, _, _, hinitialiser⟩ => by
    simpa [Stmt.lines, Line.Faultless, Variable.pieces] using
      And.intro htype.faultless (hinitialiser e rfl).faultless
  | .invocation _, ⟨_, h⟩ => by simpa [Stmt.lines, Line.Faultless] using h.faultless

theorem Stmt.SequenceFormed.faultless {s : Scope} {depth : Nat} :
    (sts : List Stmt) → Stmt.SequenceFormed a s sts → ∀ l ∈ Stmt.linesOf depth sts, l.Faultless
  | [], _ => by simp [Stmt.linesOf]
  | st :: sts, ⟨hst, hsts⟩ =>
    List.forall_mem_append.mpr ⟨Stmt.Formed.faultless faultless_nil st hst,
      Stmt.SequenceFormed.faultless sts hsts⟩

theorem Block.Formed.faultless {s : Scope} {inLoop : Bool} {depth : Nat} :
    (b : Block) → b.Formed a s inLoop → ∀ l ∈ b.lines depth, l.Faultless
  | .mk _ statements, ⟨i, h⟩ =>
    Stmt.SequenceFormed.faultless (s := (s.deeper i).looping inLoop) statements h

theorem Block.OptionFormed.faultless {s : Scope} {inLoop : Bool} {depth : Nat} :
    (b : Option Block) → Block.OptionFormed a s inLoop b →
      ∀ l ∈ Block.elseLines depth b, l.Faultless
  | none, _ => by simp [Block.elseLines]
  | some (.mk _ [st]), ⟨i, hst, _⟩ => by
    rw [Block.elseLines]
    split
    · exact Stmt.Formed.faultless (s := (s.deeper i).looping inLoop) (by simp) st hst
    · refine List.forall_mem_cons.mpr ⟨by simp [Line.Faultless], ?_⟩
      exact Stmt.Formed.faultless (s := (s.deeper i).looping inLoop) faultless_nil st hst
  | some (.mk _ []), _ => by simp [Block.elseLines, Block.lines, Stmt.linesOf, Line.Faultless]
  | some (.mk _ (st :: next :: rest)), ⟨i, hst, hrest⟩ => by
    refine List.forall_mem_cons.mpr ⟨by simp [Line.Faultless], ?_⟩
    exact List.forall_mem_append.mpr
      ⟨Stmt.Formed.faultless (s := (s.deeper i).looping inLoop) faultless_nil st hst,
        Stmt.SequenceFormed.faultless (next :: rest) hrest⟩

theorem Case.AllFormed.faultless {s : Scope} {depth : Nat} :
    (cs : List Case) → Case.AllFormed a s cs → ∀ l ∈ Case.linesOf depth cs, l.Faultless
  | [], _ => by simp [Case.linesOf]
  | .mk _ conditions body :: cs, ⟨hconditions, hbody, hcs⟩ => by
    refine List.forall_mem_append.mpr ⟨List.forall_mem_cons.mpr ⟨?_, ?_⟩, ?_⟩
    · have hlist := Expr.list_faultless hconditions
      cases conditions <;> simp_all [Line.Faultless]
    · exact Block.Formed.faultless body hbody
    · exact Case.AllFormed.faultless cs hcs

end

theorem resultPieces_faultless {vs : List Variable} (h : ∀ v ∈ vs, ∃ s : Scope, v.type.Formed s) :
    Faultless (resultPieces vs) := by
  unfold resultPieces
  split
  · rename_i v
    obtain ⟨s, htype⟩ := h v List.mem_cons_self
    split
    · exact htype.faultless
    · simpa [Variable.pieces] using htype.faultless
  · simpa using Variable.list_faultless h

theorem modifierPieces_faultless (modifiers : List String) : Faultless (modifierPieces modifiers) := by
  induction modifiers with
  | nil => simp [modifierPieces]
  | cons m ms ih => simpa [modifierPieces] using ih

theorem closeHeader_faultless {ls : List Line} (h : ∀ l ∈ ls, l.Faultless) :
    ∀ l ∈ closeHeader ls, l.Faultless := by
  fun_induction closeHeader ls with
  | case1 => simp
  | case2 l =>
    have hl : Faultless l.pieces := h l List.mem_cons_self
    simpa [Line.Faultless] using hl
  | case3 l ls _ ih =>
    obtain ⟨hl, hls⟩ := List.forall_mem_cons.mp h
    exact List.forall_mem_cons.mpr ⟨hl, ih hls⟩

theorem clauseLines_faultless {s : Scope} {keyword : String} {es : List Expr}
    (h : ∀ e ∈ es, e.Formed a s) : ∀ l ∈ clauseLines keyword es, l.Faultless := by
  intro l hl
  obtain ⟨e, he, rfl⟩ := List.mem_map.mp hl
  simpa [Line.Faultless] using Expr.Formed.faultless (h e he)

theorem Routine.Formed.faultless {s : Scope} {keyword : Pieces} {r : Routine} (h : r.Formed a s)
    (hkeyword : Faultless keyword) : ∀ l ∈ r.lines keyword, l.Faultless := by
  obtain ⟨-, -, hparameters, hreturns, hrequires, hensures, hbody⟩ := h
  have hreturned : Faultless (returnPieces r.returns) := by
    unfold returnPieces
    split
    · exact faultless_nil
    · simpa using resultPieces_faultless hreturns.2.types
  refine List.forall_mem_append.mpr ⟨closeHeader_faultless ?_, Block.Formed.faultless r.body hbody⟩
  refine List.forall_mem_append.mpr ⟨List.forall_mem_cons.mpr ⟨?_, ?_⟩, ?_⟩
  · simpa [Line.Faultless] using And.intro (modifierPieces_faultless r.modifiers)
      (And.intro hkeyword (And.intro hparameters.readable.faultless hreturned))
  · exact clauseLines_faultless hrequires
  · exact clauseLines_faultless hensures

theorem Decl.Formed.faultless {d : Decl} (h : d.Formed a) : ∀ l ∈ d.lines, l.Faultless := by
  cases d with
  | imports m path =>
    have hpath : Faultless (separated [.word "::"] (path.map fun c => [c.piece])) :=
      faultless_separated (by simp) (by simp)
    simpa [Decl.lines, Line.Faultless] using hpath
  | type m modifiers name declared invariant =>
    obtain ⟨-, -, hdeclared, hinvariant⟩ := h
    simpa [Decl.lines, Line.Faultless] using And.intro (modifierPieces_faultless modifiers)
      (And.intro (resultPieces_faultless hdeclared.2.types)
        (clauses_faultless "where" hinvariant))
  | constant m modifiers name value =>
    simpa [Decl.lines, Line.Faultless] using
      And.intro (modifierPieces_faultless modifiers) h.2.2.faultless
  | function m routine => exact Routine.Formed.faultless h (by simp)
  | method m lifetimes routine =>
    have hlifetimes : Faultless (Identifier.enclosed "<" ">" lifetimes) :=
      (Identifier.enclosed_readable (by decide) (by decide)
        fun i hi => (h.1.isWord i hi).legible).faultless
    exact Routine.Formed.faultless h.2 (by simpa using hlifetimes)
  | property m modifiers name parameters invariant =>
    obtain ⟨-, -, hparameters, hinvariant⟩ := h
    simpa [Decl.lines, Line.Faultless] using And.intro (modifierPieces_faultless modifiers)
      (And.intro hparameters.readable.faultless
        (clauses_faultless "where" hinvariant))

theorem Decl.linesOf_faultless {before : Option Decl} {ds : List Decl} (h : ∀ d ∈ ds, d.Formed a) :
    ∀ l ∈ Decl.linesOf before ds, l.Faultless := by
  induction ds generalizing before with
  | nil => simp [Decl.linesOf]
  | cons d ds ih =>
    obtain ⟨hd, hds⟩ := List.forall_mem_cons.mp h
    refine List.forall_mem_append.mpr ⟨?_, ih hds⟩
    unfold Decl.linesAfter
    split
    · exact hd.faultless
    · exact List.forall_mem_cons.mpr ⟨by simp [Line.Faultless], hd.faultless⟩

theorem Module.Formed.faultless {m : Module} (h : m.Formed a) : ∀ l ∈ m.lines, l.Faultless := by
  obtain ⟨-, hdeclarations⟩ := h
  unfold Module.lines
  split
  · simp
  · rename_i d ds _ hds
    rw [hds] at hdeclarations
    obtain ⟨hd, hds⟩ := List.forall_mem_cons.mp hdeclarations
    exact List.forall_mem_append.mpr ⟨hd.faultless, Decl.linesOf_faultless hds⟩
  · refine List.forall_mem_cons.mpr ⟨?_, Decl.linesOf_faultless hdeclarations⟩
    have hpackage : Faultless (separated [.word "."] (m.package.map fun c => [.word c])) :=
      faultless_separated (by simp) (by simp)
    simpa [Line.Faultless] using hpackage

theorem Module.Formed.format_ok {m : Module} (h : m.Formed a) : m.format = .ok m.text := by
  have hnone : m.fault? = none := by
    refine List.findSome?_eq_none_iff.mpr fun l hl => List.findSome?_eq_none_iff.mpr ?_
    exact fun p hp => h.faultless l hl p hp
  rw [format, hnone]

def IsSyntaxError (source : String) : Prop :=
  (∃ e, lex source = .error e) ∨
    ∃ tokens e, lex source = .ok tokens ∧ parse tokens = .error (.error e)

def IsLongInteger (source : String) : Prop :=
  ∃ tokens, lex source = .ok tokens ∧ ∃ t ∈ tokens, t.kind = .intLit ∧
    Text.digitLimit < t.text.length ∧
      parse tokens = .error (.integer t.text (.tooLong t.text.length))

/-- The text is read as a module, and the module is printed. -/
def IsModule (source : String) : Prop :=
  ∃ tokens m arena, lex source = .ok tokens ∧ parse tokens = .ok (m, arena) ∧ m.Formed arena ∧
    ∃ text, m.format = .ok text

theorem IsModule.not_syntaxError {source : String} (h : IsModule source) : ¬ IsSyntaxError source := by
  obtain ⟨tokens, m, arena, hlex, hparse, -⟩ := h
  rintro (⟨e, he⟩ | ⟨tokens', e, hlex', he⟩)
  · cases hlex.symm.trans he
  · obtain rfl := Except.ok.inj (hlex.symm.trans hlex')
    cases hparse.symm.trans he

theorem IsLongInteger.not_syntaxError {source : String} (h : IsLongInteger source) :
    ¬ IsSyntaxError source := by
  obtain ⟨tokens, hlex, t, -, -, -, hparse⟩ := h
  rintro (⟨e, he⟩ | ⟨tokens', e, hlex', he⟩)
  · cases hlex.symm.trans he
  · obtain rfl := Except.ok.inj (hlex.symm.trans hlex')
    cases hparse.symm.trans he

theorem IsModule.not_longInteger {source : String} (h : IsModule source) :
    ¬ IsLongInteger source := by
  obtain ⟨tokens, m, arena, hlex, hparse, -⟩ := h
  rintro ⟨tokens', hlex', t, -, -, -, he⟩
  obtain rfl := Except.ok.inj (hlex.symm.trans hlex')
  cases hparse.symm.trans he

theorem reading_outcome (source : String)
    (hends : ∀ tokens, lex source = .ok tokens → parse tokens ≠ .error .exhausted) :
    (IsModule source ∧ ¬ IsSyntaxError source ∧ ¬ IsLongInteger source) ∨
      (¬ IsModule source ∧ IsSyntaxError source ∧ ¬ IsLongInteger source) ∨
        (¬ IsModule source ∧ ¬ IsSyntaxError source ∧ IsLongInteger source) := by
  have hfault (h : IsSyntaxError source) :
      ¬ IsModule source ∧ IsSyntaxError source ∧ ¬ IsLongInteger source :=
    ⟨fun hm => hm.not_syntaxError h, h, fun hi => hi.not_syntaxError h⟩
  cases hlex : lex source with
  | error e => exact Or.inr (Or.inl (hfault (Or.inl ⟨e, hlex⟩)))
  | ok tokens =>
    cases hparse : parse tokens with
    | ok result =>
      have hformed := parse_formed hlex hparse
      have hmodule : IsModule source :=
        ⟨tokens, result.1, result.2, hlex, hparse, hformed, _, hformed.format_ok⟩
      exact Or.inl ⟨hmodule, hmodule.not_syntaxError, hmodule.not_longInteger⟩
    | error f =>
      have hproper := parse_proper hlex hparse
      cases f with
      | error e => exact Or.inr (Or.inl (hfault (Or.inr ⟨tokens, e, hlex, hparse⟩)))
      | integer text fault =>
        obtain ⟨t, ht, hk, rfl, hlong, rfl⟩ := hproper
        have hinteger : IsLongInteger source :=
          ⟨tokens, hlex, t, by simpa [Input.ofTokens] using ht, hk, hlong, hparse⟩
        exact Or.inr (Or.inr ⟨fun hm => hm.not_longInteger hinteger, hinteger.not_syntaxError,
          hinteger⟩)
      | exhausted => exact absurd hparse (hends tokens hlex)
      | notBlank c => exact hproper.elim
      | openEscape => exact hproper.elim
      | notOneCharacter => exact hproper.elim

def castSource : String := "constant A is (T) (-\"x\\ny\" / '\\'')\n"

theorem reading_outcome_cast :
    (∀ tokens, lex castSource = .ok tokens → parse tokens ≠ .error .exhausted) ∧
      ((IsModule castSource ∧ ¬ IsSyntaxError castSource ∧ ¬ IsLongInteger castSource) ∨
        (¬ IsModule castSource ∧ IsSyntaxError castSource ∧ ¬ IsLongInteger castSource) ∨
          (¬ IsModule castSource ∧ ¬ IsSyntaxError castSource ∧ IsLongInteger castSource)) := by
  have hends : ∀ tokens, lex castSource = .ok tokens → parse tokens ≠ .error .exhausted := by
    intro tokens hlex hparse
    obtain ⟨m, hm⟩ : ∃ m, (lex castSource).map parse = .ok (.ok m) := ⟨_, rfl⟩
    rw [hlex] at hm
    cases hparse.symm.trans (Except.ok.inj hm)
  exact ⟨hends, reading_outcome castSource hends⟩

end Whiley
