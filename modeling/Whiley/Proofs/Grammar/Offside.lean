import Whiley.Proofs.Grammar.LineStarts

/-!
The offside rule, as a property of a tree and the tokens it was read from: the statements of a block
begin lines of one indent, which is deeper than that of the lines around the block, and an `else`
begins a line of the indent of the `if` that it belongs to.
-/

namespace Whiley

namespace Input

/-- The next token from `i` on that is no space. -/
def NextIs (input : Input) (i : Nat) (k : Kind) : Prop :=
  ∃ t, input.tokens[input.skip true i]? = some t ∧ t.kind = k

/-- The `else` at `i` begins a line of the indent and stands between the two branches. -/
structure Divides (input : Input) (indent : Indent) (m : Mark) (condition : Expr)
    (trueBranch : Block) (i : Nat) (falseBranch : Block) : Prop where
  heads : input.Heads indent i
  token : ∃ t, input.tokens[i]? = some t ∧ t.kind = .kwElse
  inside : ∃ first last, input.Covers first last m.span ∧ first ≤ i ∧ i ≤ last
  condition : input.Nests 0 i condition.outline
  before : input.Nests 0 i trueBranch.outline
  after : input.Nests (i + 1) input.tokens.size falseBranch.outline

end Input

/-- The statement begins a line of the indent. A call may stand in brackets there. -/
def Stmt.Leads (input : Input) (indent : Indent) (st : Stmt) : Prop :=
  ∃ i, input.Heads indent i ∧ (st.mark.span.start = input.startAt i ∨
    ∃ e j, st = .invocation e ∧ input.Enclosed i j e.mark.span)

def Case.Leads (input : Input) (indent : Indent) (c : Case) : Prop :=
  ∃ i, input.Heads indent i ∧ c.mark.span.start = input.startAt i

/-- Nothing but a test, which is the next thing from `i` on. -/
def Block.Chains (input : Input) (i : Nat) (b : Block) : Prop :=
  ∃ m condition trueBranch falseBranch,
    b.statements = [.ifElse m condition trueBranch falseBranch] ∧
      m.span.start = input.startAt (input.skip true i)

mutual

/-- The blocks below a statement that begins a line of the indent. -/
def Stmt.Offside (input : Input) : Indent → Stmt → Prop
  | indent, .doWhile _ _ _ body => body.Offside input indent
  | indent, .ifElse m condition trueBranch falseBranch =>
    trueBranch.Offside input indent ∧
      Block.ElseOffside input indent (input.Divides indent m condition trueBranch) falseBranch
  | indent, .namedBlock _ _ body => body.Offside input indent
  | indent, .switch _ _ cases =>
    ∃ inner, (cases ≠ [] → indent < inner) ∧ (∀ c ∈ cases, c.Leads input inner) ∧
      Case.AllOffside input inner cases
  | indent, .while _ _ _ body => body.Offside input indent
  | _, _ => True

def Stmt.AllOffside (input : Input) : Indent → List Stmt → Prop
  | _, [] => True
  | indent, st :: sts => st.Offside input indent ∧ Stmt.AllOffside input indent sts

/-- A block that stands below a line of the indent, on lines of its own. -/
def Block.Offside (input : Input) : Indent → Block → Prop
  | indent, .mk _ statements =>
    ∃ inner, (statements ≠ [] → indent < inner) ∧ (∀ st ∈ statements, st.Leads input inner) ∧
      Stmt.AllOffside input inner statements

def Block.ElseOffside (input : Input) : Indent → (Nat → Block → Prop) → Option Block → Prop
  | _, _, none => True
  | indent, divides, some b =>
    ∃ i, divides i b ∧
      ((input.NextIs (i + 1) .kwIf ∧ b.Chains input (i + 1) ∧ b.InnerOffside input indent) ∨
        (input.NextIs (i + 1) .colon ∧ b.Offside input indent))

def Block.InnerOffside (input : Input) : Indent → Block → Prop
  | indent, .mk _ statements => Stmt.AllOffside input indent statements

def Case.AllOffside (input : Input) : Indent → List Case → Prop
  | _, [] => True
  | indent, .mk _ _ body :: cs => body.Offside input indent ∧ Case.AllOffside input indent cs

end

theorem Stmt.allOffside_iff {input : Input} {indent : Indent} {sts : List Stmt} :
    Stmt.AllOffside input indent sts ↔ ∀ st ∈ sts, st.Offside input indent := by
  induction sts with
  | nil => simp [Stmt.AllOffside]
  | cons st sts ih => simp [Stmt.AllOffside, ih]

theorem Case.allOffside_iff {input : Input} {indent : Indent} {cs : List Case} :
    Case.AllOffside input indent cs ↔ ∀ c ∈ cs, c.body.Offside input indent := by
  induction cs with
  | nil => simp [Case.AllOffside]
  | cons c cs ih =>
    obtain ⟨m, conditions, body⟩ := c
    simp [Case.AllOffside, Case.body, ih]

def Decl.Offside (input : Input) : Decl → Prop
  | .function _ routine => routine.body.Offside input .root
  | .method _ _ routine => routine.body.Offside input .root
  | _ => True

def Module.Offside (input : Input) (m : Module) : Prop :=
  ∀ d ∈ m.declarations, d.Offside input

end Whiley
