import Precedence.Expr.Render
import Precedence.Parse.Cursor
import Precedence.Parse.Delimiter

/-!
The rules that build expressions. A rule runs when its operator has just been
taken, and reads the operands it needs through a parser for operands that is
given to it: `operand open? bound` reads one inside the bracket `open?` that
stops at operators binding no tighter than `bound`. Loops make at most `steps`
rounds, which is no limit as long as no more than that many tokens are left.
-/

namespace Precedence.Parse

abbrev Operand := Option Delimiter → Int → Parse Expr

def expectClosing (table : OperatorTable) (delimiter : Delimiter) : Parse Token := do
  let token ← current
  if token.is delimiter.closing then advance
  else throw ((table.misplaced? token).getD (Delimiter.unmatched (some delimiter) token))

def ensureAssignable (target : Expr) : Parse Unit :=
  if target.isAssignable then pure ()
  else throw ⟨.invalidTarget target.sexp, target.span.start⟩

/-- A closing bracket begins no operand. -/
def closing (open? : Option Delimiter) (token : Token) : Parse Expr :=
  throw (Delimiter.missingOperand open? token)

def grouping (table : OperatorTable) (operand : Operand) (bound : Int) : Parse Expr := do
  let inner ← operand (some .group) bound
  let _ ← expectClosing table .group
  return inner.group

def prefixed (operand : Operand) (open? : Option Delimiter) (operator : Token) (bound : Int) :
    Parse Expr := do
  let inner ← operand open? bound
  return .node operator.value [inner] false (operator.span.join inner.span)

/-- An operator that changes the operand behind it. -/
def prefixUpdate (operand : Operand) (open? : Option Delimiter) (operator : Token)
    (bound : Int) : Parse Expr := do
  let inner ← operand open? bound
  ensureAssignable inner
  return .node operator.value [inner] false (operator.span.join inner.span)

def suffixed (operator : Token) (left : Expr) : Expr :=
  .node ("post" ++ operator.value) [left] false (left.span.join operator.span)

def binary (operand : Operand) (open? : Option Delimiter) (operator : Token) (left : Expr)
    (bound : Int) : Parse Expr := do
  let right ← operand open? bound
  return .ofOperands operator.value [left, right]

def assignment (operand : Operand) (open? : Option Delimiter) (operator : Token) (left : Expr)
    (bound : Int) : Parse Expr := do
  ensureAssignable left
  binary operand open? operator left bound

/-- A conditional. Any operator may stand between the question mark and the
colon. -/
def ternary (table : OperatorTable) (operand : Operand) (open? : Option Delimiter)
    (condition : Expr) (bound : Int) : Parse Expr := do
  let positive ← operand open? minPower
  let token ← current
  if token.is ":" then
    let _ ← advance
    let negative ← operand open? bound
    return .ofOperands "?" [condition, positive, negative]
  else
    throw ((table.misplaced? token).getD ⟨.malformedTernary token.value, token.span.start⟩)

/-- The sequence of `left` and `right`. It goes on with a sequence on the left
unless that one is in parentheses. -/
def sequence (left right : Expr) : Expr :=
  match left with
  | .node "," elements false span => .node "," (elements ++ [right]) false (span.join right.span)
  | _ => .ofOperands "," [left, right]

def comma (operand : Operand) (open? : Option Delimiter) (left : Expr) (bound : Int) :
    Parse Expr := do
  let right ← operand open? bound
  return sequence left right

/-- The arguments of a call up to its closing parenthesis. A comma may follow
the last one. At most `steps` arguments are read. -/
def arguments (operand : Operand) (bound : Int) : (steps : Nat) → Parse (List Expr)
  | 0 => return []
  | steps + 1 => do
      let token ← current
      if token.is ")" then return []
      else if token.isEnd then throw (Delimiter.unmatched (some .arguments) token)
      else
        let first ← operand (some .arguments) bound
        let separator ← current
        if separator.is "," then
          let _ ← advance
          let rest ← arguments operand bound steps
          return first :: rest
        else return [first]

def call (table : OperatorTable) (steps : Nat) (operand : Operand) (callee : Expr) :
    Parse Expr := do
  let values ← arguments operand (Delimiter.elementBound table (some .arguments)) steps
  let closing ← expectClosing table .arguments
  return .node "call" (callee :: values) false (callee.span.join closing.span)

def index (table : OperatorTable) (operand : Operand) (target : Expr) : Parse Expr := do
  let place ← operand (some .index) (Delimiter.elementBound table (some .index))
  let closing ← expectClosing table .index
  return .node "get" [target, place] false (target.span.join closing.span)

/-- The expression that a token begins. -/
def applyNull (table : OperatorTable) (operand : Operand) (open? : Option Delimiter)
    (binding : Binding NullRule) (token : Token) : Parse Expr :=
  match binding.rule with
  | .unregistered => throw ⟨.unexpectedToken token.value, token.span.start⟩
  | .error => throw ⟨.notLeading token.value, token.span.start⟩
  | .closing => closing open? token
  | .literal => return .leaf token
  | .grouping => grouping table operand binding.rightPower
  | .prefixed => prefixed operand open? token binding.rightPower
  | .prefixUpdate => prefixUpdate operand open? token binding.rightPower

/-- The expression that a token makes of the operand before it. -/
def applyLeft (table : OperatorTable) (steps : Nat) (operand : Operand)
    (open? : Option Delimiter) (binding : Binding LeftRule) (token : Token) (left : Expr) :
    Parse Expr :=
  match binding.rule with
  | .unregistered => throw ⟨.notFollowing token.value, token.span.start⟩
  | .error => throw ⟨.notFollowing token.value, token.span.start⟩
  | .binary => binary operand open? token left binding.rightPower
  | .assignment => assignment operand open? token left binding.rightPower
  | .ternary => ternary table operand open? left binding.rightPower
  | .comma => comma operand open? left binding.rightPower
  | .call => call table steps operand left
  | .index => index table operand left
  | .suffixed => return suffixed token left

end Precedence.Parse
