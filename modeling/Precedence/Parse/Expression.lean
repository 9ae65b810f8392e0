import Precedence.Parse.Rules

/-!
The loop that compares binding powers. An expression is an operand extended, from
left to right, by the operators that hold it tighter than the bound.
-/

namespace Precedence.Parse

/-- Extends `left` while the current token binds tighter than `bound` and may
follow the operator taken last, which allows powers below `next`. At most
`rounds` operators are taken. -/
def extend (table : OperatorTable) (steps : Nat) (operand : Operand)
    (open? : Option Delimiter) (bound : Int) :
    (rounds : Nat) → (next : Int) → (left : Expr) → Parse Expr
  | 0, _, left => return left
  | rounds + 1, next, left => do
      let binding := table.left (← current)
      if bound < binding.leftPower ∧ binding.leftPower < next then
        let token ← advance
        record (.left token binding)
        let left ← applyLeft table steps operand open? binding token left
        extend table steps operand open? bound rounds binding.nextPower left
      else return left

/-- Reads an expression inside the bracket `open?` up to an operator that binds
no tighter than `bound`. Expressions nest at most `budget` deep from here, out of
`limit` in the whole parse, and loops make at most `steps` rounds. -/
def expression (table : OperatorTable) (limit steps : Nat) : (budget : Nat) → Operand
  | 0, _, _ => failHere (.tooDeep limit)
  | budget + 1, open?, bound => do
      let first ← current
      if first.isEnd then failHere (.unexpectedToken first.value)
      else
        let token ← advance
        let binding := table.null token
        record (.null token binding)
        let left ← applyNull table (expression table limit steps budget) open? binding token
        extend table steps (expression table limit steps budget) open? bound steps
          binding.nextPower left

end Precedence.Parse
