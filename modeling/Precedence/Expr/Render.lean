import Precedence.Expr

/-!
Two written forms of an expression: the s-expression, which shows the tree, and
the infix form, which is source text again with every operator in parentheses.
-/

namespace Precedence.Expr

mutual

/-- The s-expression: `a+b*c` is written `(+ a (* b c))`. -/
def sexp : Expr → String
  | .leaf token => token.value
  | .node tag children _ _ => "(" ++ tag ++ sexpOperands children ++ ")"

def sexpOperands : List Expr → String
  | [] => ""
  | expr :: rest => " " ++ expr.sexp ++ sexpOperands rest

end

def infixBody (tag : String) (operands : List String) : String :=
  match tag, operands with
  | "call", callee :: arguments => callee ++ "(" ++ ", ".intercalate arguments ++ ")"
  | "get", [target, index] => target ++ "[" ++ index ++ "]"
  | "?", [condition, positive, negative] =>
      condition ++ " ? " ++ positive ++ " : " ++ negative
  | tag, [operand] =>
      match tag.toList with
      | 'p' :: 'o' :: 's' :: 't' :: symbol => operand ++ " " ++ String.ofList symbol
      | _ => tag ++ " " ++ operand
  | tag, operands => (" " ++ tag ++ " ").intercalate operands

mutual

/-- The infix form, fully parenthesized. -/
def toInfix : Expr → String
  | .leaf token => token.value
  | .node tag children _ _ => "(" ++ infixBody tag (infixOperands children) ++ ")"

def infixOperands : List Expr → List String
  | [] => []
  | expr :: rest => expr.toInfix :: infixOperands rest

end

theorem infixOperands_eq_map (exprs : List Expr) :
    infixOperands exprs = exprs.map toInfix := by
  induction exprs with
  | nil => rfl
  | cons expr rest ih => rw [infixOperands, ih, List.map_cons]

end Precedence.Expr
