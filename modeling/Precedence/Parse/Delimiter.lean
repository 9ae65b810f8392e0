import Precedence.Diagnostic
import Precedence.Operator.Table

/-!
Brackets around operands, and what it means to meet a token that does not fit
behind a complete operand.
-/

namespace Precedence

inductive Delimiter where
  | group
  | arguments
  | index
  deriving DecidableEq

namespace Delimiter

def closing : Delimiter → String
  | .group => ")"
  | .arguments => ")"
  | .index => "]"

/-- The bound of the operands inside the innermost bracket: arguments stop at
the comma, anything else may hold one. -/
def elementBound (table : OperatorTable) : Option Delimiter → Int
  | some .arguments => (table.leftOfSymbol ",").leftPower
  | _ => minPower

/-- The diagnostic for a token in place of the bracket that closes the innermost
open one, or for a closing bracket where none is open. -/
def unmatched (open? : Option Delimiter) (token : Token) : Diagnostic :=
  ⟨.unmatchedDelimiter (open?.map closing) token.value, token.span.start⟩

/-- The diagnostic for a closing bracket where an operand should begin: either
the bracket is right and the operand is missing, or the bracket is wrong. -/
def missingOperand (open? : Option Delimiter) (token : Token) : Diagnostic :=
  if open?.map closing = some token.value then
    ⟨.unexpectedToken token.value, token.span.start⟩
  else unmatched open? token

theorem position_missingOperand {open? : Option Delimiter} {token : Token} :
    (missingOperand open? token).position = token.span.start := by
  unfold missingOperand
  split <;> rfl

end Delimiter

def Token.isClosing (token : Token) : Bool := token.is ")" || token.is "]"

namespace OperatorTable

/-- The diagnostic for an operator that can only begin an operand, met behind
one. Closing brackets are left to whoever opened one. -/
def misplaced? (table : OperatorTable) (token : Token) : Option Diagnostic :=
  if token.kind = .operator ∧ ¬token.isClosing ∧ (table.left token).rule = .error then
    some ⟨.notFollowing token.value, token.span.start⟩
  else none

/-- The diagnostic for a token behind a complete expression, if the input does
not end there. -/
def leftover? (table : OperatorTable) (token : Token) : Option Diagnostic :=
  if token.isEnd then none
  else if token.isClosing then some (Delimiter.unmatched none token)
  else
    some ((table.misplaced? token).getD ⟨.trailingInput token.value, token.span.start⟩)

theorem position_misplaced {table : OperatorTable} {token : Token} {cause : Cause} :
    ((table.misplaced? token).getD ⟨cause, token.span.start⟩).position = token.span.start := by
  unfold misplaced?
  split <;> rfl

theorem position_leftover {table : OperatorTable} {token : Token} {diagnostic : Diagnostic}
    (h : table.leftover? token = some diagnostic) : diagnostic.position = token.span.start := by
  unfold leftover? at h
  split at h
  · cases h
  · split at h
    · cases h
      rfl
    · cases h
      exact position_misplaced

end OperatorTable

end Precedence
