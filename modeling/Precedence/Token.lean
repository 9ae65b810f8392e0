import Precedence.Span

/-!
Tokens: the words of an expression with the bytes they were read from.
-/

namespace Precedence

/-- What a token is. Brackets, the comma and the dot count as operators. -/
inductive TokenKind where
  | endOfInput
  | number
  | identifier
  | operator
  deriving DecidableEq

def TokenKind.name : TokenKind → String
  | .endOfInput => "EOF"
  | .number => "Number"
  | .identifier => "Identifier"
  | .operator => "Operator"

structure Token where
  kind : TokenKind
  value : String
  span : Span
  deriving DecidableEq

namespace Token

/-- The token that stands behind the last byte of a source. -/
def endAt (position : Nat) : Token := ⟨.endOfInput, "EOF", .ofLength position 0⟩

def isEnd (token : Token) : Bool := token.kind = .endOfInput

def is (token : Token) (symbol : String) : Bool :=
  token.kind = .operator && token.value = symbol

end Token

end Precedence
