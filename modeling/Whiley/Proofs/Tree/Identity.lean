import Whiley.Proofs.Tree.Relabel

namespace Whiley

theorem id_fixed (ws : List String) : ∀ w ∈ ws, id w = w :=
  fun _ _ => rfl

def Relabelling.identity : Relabelling where
  span := id
  index := id
  text := id
  injective := Function.injective_id
  fixed := id_fixed _

open Relabelling

@[simp]
theorem Relabelling.identity_index : identity.index = id := rfl

@[simp]
theorem Relabelling.identity_text : identity.text = id := rfl

@[simp]
theorem Mark.relabel_identity (m : Mark) : m.relabel identity = m := rfl

@[simp]
theorem Identifier.relabel_identity (i : Identifier) : i.relabel identity = i := rfl

@[simp]
theorem Name.relabel_identity (n : Name) : n.relabel identity = n := by
  obtain ⟨m, components⟩ := n
  simp [Name.relabel]

mutual

@[simp]
theorem TypeExpr.relabel_identity : ∀ t : TypeExpr, t.relabel identity = t
  | .primitive .. => rfl
  | .array _ element | .list _ element | .negation _ element | .reference _ element _ => by
    simp [TypeExpr.relabel_identity element]
  | .record _ _ fields => congrArg (TypeExpr.record _ _) (Field.relabelAll_identity fields)
  | .nominal .. => by simp
  | .union _ operands => congrArg (TypeExpr.union _) (TypeExpr.relabelAll_identity operands)
  | .intersection _ operands =>
    congrArg (TypeExpr.intersection _) (TypeExpr.relabelAll_identity operands)
  | .function _ parameters returns =>
    congrArg₂ (TypeExpr.function _) (TypeExpr.relabelAll_identity parameters)
      (TypeExpr.relabelAll_identity returns)
  | .method _ parameters returns _ _ => by
    have hparameters := TypeExpr.relabelAll_identity parameters
    have hreturns := TypeExpr.relabelAll_identity returns
    rw [TypeExpr.relabel, hparameters, hreturns]
    simp

theorem TypeExpr.relabelAll_identity :
    ∀ ts : List TypeExpr, TypeExpr.relabelAll identity ts = ts
  | [] => rfl
  | t :: ts => congrArg₂ List.cons t.relabel_identity (TypeExpr.relabelAll_identity ts)

theorem Field.relabelAll_identity : ∀ fs : List Field, Field.relabelAll identity fs = fs
  | [] => rfl
  | .mk m type name :: fs => by
    rw [Field.relabelAll, type.relabel_identity, Field.relabelAll_identity fs]
    rfl

end

@[simp]
theorem Variable.relabel_identity (v : Variable) : v.relabel identity = v := by
  obtain ⟨m, name, type⟩ := v
  simp [Variable.relabel]

mutual

@[simp]
theorem Expr.relabel_identity : ∀ e : Expr, e.relabel identity = e
  | .nullLit _ | .boolLit .. | .byteLit .. | .charLit .. | .intLit .. | .stringLit .. => rfl
  | .variableAccess .. | .staticAccess .. | .lambdaConstant .. => by simp
  | .recordAccess _ e _ | .dereference _ e | .arrayLength _ e | .unary _ _ e | .isType _ e _
  | .cast _ _ e | .new _ e _ | .lambda _ _ _ _ e => by simp [e.relabel_identity]
  | .arrayAccess _ e e' | .arrayGenerator _ e e' | .binary _ e _ e' => by
    simp [e.relabel_identity, e'.relabel_identity]
  | .arrayInitialiser _ es => congrArg (Expr.arrayInitialiser _) (Expr.relabelAll_identity es)
  | .recordInitialiser _ _ fields => by
    rw [Expr.relabel, FieldValue.relabelAll_identity fields]
    simp
  | .invoke _ _ _ es => by
    rw [Expr.relabel, Expr.relabelAll_identity es]
    simp
  | .indirectInvoke _ e _ es => by
    rw [Expr.relabel, e.relabel_identity, Expr.relabelAll_identity es]
    simp
  | .quantifier _ _ ranges e => by
    rw [Expr.relabel, Range.relabelAll_identity ranges, e.relabel_identity, Mark.relabel_identity]

theorem Expr.relabelAll_identity : ∀ es : List Expr, Expr.relabelAll identity es = es
  | [] => rfl
  | e :: es => congrArg₂ List.cons e.relabel_identity (Expr.relabelAll_identity es)

theorem FieldValue.relabelAll_identity :
    ∀ fs : List FieldValue, FieldValue.relabelAll identity fs = fs
  | [] => rfl
  | .mk name value :: fs => by
    rw [FieldValue.relabelAll, value.relabel_identity, FieldValue.relabelAll_identity fs]
    rfl

theorem Range.relabelAll_identity : ∀ rs : List Range, Range.relabelAll identity rs = rs
  | [] => rfl
  | .mk m name start stop :: rs => by
    rw [Range.relabelAll, start.relabel_identity, stop.relabel_identity,
      Range.relabelAll_identity rs]
    rfl

end

mutual

@[simp]
theorem Stmt.relabel_identity : ∀ s : Stmt, s.relabel identity = s
  | .assert .. | .assume .. | .assign .. | .break _ | .continue _ | .debug .. | .fail _
  | .return .. | .skip _ | .variable .. | .invocation _ => by simp
  | .doWhile _ _ _ body | .namedBlock _ _ body | .while _ _ _ body => by
    simp [body.relabel_identity]
  | .ifElse _ _ trueBranch falseBranch => by
    rw [Stmt.relabel, trueBranch.relabel_identity, Block.relabelOption_identity falseBranch]
    simp
  | .switch _ _ cases => by
    rw [Stmt.relabel, Case.relabelAll_identity cases]
    simp

theorem Stmt.relabelAll_identity : ∀ ss : List Stmt, Stmt.relabelAll identity ss = ss
  | [] => rfl
  | s :: ss => congrArg₂ List.cons s.relabel_identity (Stmt.relabelAll_identity ss)

@[simp]
theorem Block.relabel_identity : ∀ b : Block, b.relabel identity = b
  | .mk _ statements => congrArg (Block.mk _) (Stmt.relabelAll_identity statements)

theorem Block.relabelOption_identity :
    ∀ o : Option Block, Block.relabelOption identity o = o
  | none => rfl
  | some b => congrArg some b.relabel_identity

theorem Case.relabelAll_identity : ∀ cs : List Case, Case.relabelAll identity cs = cs
  | [] => rfl
  | .mk m conditions body :: cs => by
    rw [Case.relabelAll, body.relabel_identity, Case.relabelAll_identity cs]
    simp

end

@[simp]
theorem Routine.relabel_identity (r : Routine) : r.relabel identity = r := by
  simp [Routine.relabel]

@[simp]
theorem Decl.relabel_identity (d : Decl) : d.relabel identity = d := by
  cases d <;> simp

@[simp]
theorem Module.relabel_identity (m : Module) : m.relabel identity = m := by
  obtain ⟨mark, package, declarations⟩ := m
  rw [Module.relabel, List.map_id'' Decl.relabel_identity]
  simp

theorem Failure.relabel_eq {f : Relabelling} (hspan : f.span = id) (x : Failure) :
    x.relabel f = x := by
  cases x with
  | error e => simp [Failure.relabel, SyntaxError.relabel, hspan]
  | _ => rfl

@[simp]
theorem Failure.relabel_identity (x : Failure) : x.relabel identity = x :=
  x.relabel_eq rfl

end Whiley
