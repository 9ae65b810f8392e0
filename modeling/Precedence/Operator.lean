import Precedence.Token

/-!
How tokens act in an expression. Each token has two bindings: the null
binding where an operand is expected, and the left binding behind a
complete operand.
-/

namespace Precedence

/-- What a token does where an operand is expected. -/
inductive NullRule where
  /-- The token was never given a role. -/
  | unregistered
  /-- The token only follows operands. -/
  | error
  | closing
  /-- The token is an operand by itself. -/
  | literal
  /-- An opening parenthesis around an operand. -/
  | grouping
  | prefixed
  /-- An operator that changes the operand behind it. -/
  | prefixUpdate
  deriving DecidableEq

/-- What a token does behind a complete operand. -/
inductive LeftRule where
  /-- The token was never given a role. -/
  | unregistered
  /-- The token only begins operands. -/
  | error
  | binary
  /-- An operator that changes its left operand. -/
  | assignment
  /-- The question mark of a conditional. -/
  | ternary
  /-- The separator of a sequence. -/
  | comma
  /-- The opening parenthesis of an argument list. -/
  | call
  /-- The opening bracket of an index. -/
  | index
  | suffixed
  deriving DecidableEq

def NullRule.name : NullRule → String
  | .unregistered => "Unregistered"
  | .error => "Error"
  | .closing => "Closing"
  | .literal => "Literal"
  | .grouping => "Grouping"
  | .prefixed => "Prefix"
  | .prefixUpdate => "PrefixIncDec"

def LeftRule.name : LeftRule → String
  | .unregistered => "Unregistered"
  | .error => "Error"
  | .binary => "Binary"
  | .assignment => "Assignment"
  | .ternary => "Ternary"
  | .comma => "Comma"
  | .call => "Call"
  | .index => "Index"
  | .suffixed => "Postfix"

/-- A rule with its binding powers: how tightly it holds what stands before it,
what the operand behind it must exceed, and what the operator that follows its
result must stay below. -/
structure Binding (ρ : Type) where
  leftPower : Int
  rightPower : Int
  nextPower : Int
  rule : ρ
  deriving DecidableEq

def minPower : Int := 0

/-- The power that bounds what may follow an operand. -/
def maxPower : Int := 10000

def Binding.inert {ρ : Type} (rule : ρ) : Binding ρ :=
  ⟨minPower, minPower, minPower, rule⟩

/-- What a token is looked up by: its kind, or its symbol if it is an operator. -/
inductive TokenKey where
  | identifier
  | number
  | endOfInput
  | symbol (text : String)
  deriving DecidableEq

def Token.key (token : Token) : TokenKey :=
  match token.kind with
  | .identifier => .identifier
  | .number => .number
  | .endOfInput => .endOfInput
  | .operator => .symbol token.value

end Precedence
