import Precedence.Text.Quoted

/-!
What can be wrong with a source, and how it is said: the name of the cause, the
message, and a tip where there is one.
-/

namespace Precedence

/-- Why a source is refused. -/
inductive Cause where
  /-- A character that begins no token. -/
  | foreignCharacter (character : Char)
  /-- A token that cannot begin an operand, or the end of the input before one. -/
  | unexpectedToken (token : String)
  /-- An operator that needs an operand on its left. -/
  | notLeading (token : String)
  /-- An operator that cannot follow an operand. -/
  | notFollowing (token : String)
  /-- A bracket left open, or one that closes nothing. -/
  | unmatchedDelimiter (expected : Option String) (found : String)
  /-- An assignment or update of something that holds no value. -/
  | invalidTarget (target : String)
  /-- A conditional without its colon. -/
  | malformedTernary (found : String)
  /-- Input behind a complete expression. -/
  | trailingInput (token : String)
  /-- More nested operands than allowed. -/
  | tooDeep (limit : Nat)
  deriving DecidableEq

namespace Cause

def name : Cause → String
  | .foreignCharacter _ => "LexicalError"
  | .unexpectedToken _ => "UnexpectedToken"
  | .notLeading _ => "NotAPrefixOperator"
  | .notFollowing _ => "NotAnInfixOrPostfixOperator"
  | .unmatchedDelimiter _ _ => "UnmatchedDelimiter"
  | .invalidTarget _ => "InvalidAssignTarget"
  | .malformedTernary _ => "MalformedTernary"
  | .trailingInput _ => "TrailingInput"
  | .tooDeep _ => "ExpressionTooDeep"

def message : Cause → String
  | .foreignCharacter c => Text.quoteChar c ++ " unexpected"
  | .unexpectedToken token => "unexpected token " ++ Text.quote token
  | .notLeading token => token ++ " can't be used in prefix position"
  | .notFollowing token => token ++ " can't be used in infix position"
  | .unmatchedDelimiter (some expected) found => "expected " ++ expected ++ ", got " ++ found
  | .unmatchedDelimiter none found => "unmatched " ++ found
  | .invalidTarget target => "can't assign to " ++ target
  | .malformedTernary found => "expected : in conditional expression, got " ++ found
  | .trailingInput token => "there are unparsed tokens: " ++ Text.quote token
  | .tooDeep limit => "expression nested deeper than " ++ limit.repr ++ " levels"

def tip? : Cause → Option String
  | .foreignCharacter _ => none
  | .unexpectedToken token => some ("Unexpected token: `" ++ token ++ "`, expected an operand")
  | .notLeading token => some ("`" ++ token ++ "` needs an operand on its left")
  | .notFollowing token =>
      some ("`" ++ token ++ "` can only start an operand, did you miss an operator?")
  | .unmatchedDelimiter (some expected) found =>
      some ("Expected `" ++ expected ++ "`, found `" ++ found ++ "`")
  | .unmatchedDelimiter none found => some ("`" ++ found ++ "` closes nothing")
  | .invalidTarget target => some ("`" ++ target ++ "` is not a variable or an indexed element")
  | .malformedTernary found => some ("Expected `:` of the conditional, found `" ++ found ++ "`")
  | .trailingInput token => some ("Unparsed input starting at `" ++ token ++ "`")
  | .tooDeep limit => some ("Nesting is limited to " ++ limit.repr ++ " levels")

end Cause

/-- A cause and the byte offset it is reported at. -/
structure Diagnostic where
  cause : Cause
  position : Nat
  deriving DecidableEq

end Precedence
