import Precedence.Operator
import Precedence.Token

/-!
What a parse does, step by step, and the log line of each step.
-/

namespace Precedence

inductive Event where
  /-- A token came into view. -/
  | lexed (token : Token)
  /-- A token was taken where an operand was expected. -/
  | null (token : Token) (binding : Binding NullRule)
  /-- A token was taken behind an operand. -/
  | left (token : Token) (binding : Binding LeftRule)
  deriving DecidableEq

def Event.message : Event → String
  | .lexed token =>
      "lexed " ++ token.kind.name ++ " `" ++ token.value ++ "` at " ++ token.span.start.repr
  | .null token binding =>
      "nud " ++ binding.rule.name ++ " for `" ++ token.value ++ "` (rbp " ++
        binding.rightPower.repr ++ ")"
  | .left token binding =>
      "led " ++ binding.rule.name ++ " for `" ++ token.value ++ "` (rbp " ++
        binding.rightPower.repr ++ ")"

end Precedence
