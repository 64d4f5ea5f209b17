import Whiley.Tree.Expr

namespace Whiley

mutual

def TypeExpr.isForced : TypeExpr → Bool
  | .primitive .. => true
  | .record .. => true
  | .function .. => true
  | .method .. => true
  | .array .. => true
  | .union _ operands => TypeExpr.anyForced operands
  | .intersection _ operands => TypeExpr.anyForced operands
  | .negation _ element => element.isForced
  | .list _ element => element.isForced
  | .reference _ element lifetime =>
    (lifetime.any fun l => l.text = "this" || l.text = "*") || element.isForced
  | .nominal .. => false

def TypeExpr.anyForced : List TypeExpr → Bool
  | [] => false
  | t :: ts => t.isForced || TypeExpr.anyForced ts

end

def Expr.isForced : Expr → Bool
  | .staticAccess .. => false
  | .lambdaConstant .. => false
  | .recordAccess _ source _ => source.isForced
  | .unary _ .not operand => operand.isForced
  | .unary _ .negate _ => false
  | .unary _ .complement _ => true
  | .binary _ left op right => (op = "|" || op = "&") && (left.isForced || right.isForced)
  | _ => true

end Whiley
