import Precedence.Parse.Rules

/-!
A parse that keeps its own books. How many operands are open and which brackets stand
open around the cursor is a state here: every operand counts itself in and out, every
rule with brackets pushes and pops them, and a diagnostic passes through all of them on
its way out. Operands are read and loops go round until they are done; a computation
that does not come to an end within the rounds and operands it is given has no outcome.
-/

namespace Precedence

/-- The state of a parse: the number of open operands out of `limit`, and the open
brackets with the innermost first. -/
structure Context where
  table : OperatorTable
  limit : Nat
  depth : Nat
  brackets : List Delimiter
  cursor : Cursor

/-- What breaks a computation off: a diagnostic, or an operand that is left while none
is open. -/
inductive Fault where
  | refused (diagnostic : Diagnostic)
  | underflow

abbrev Contextual := ExceptT Fault (StateT Context Option)

namespace Contextual

/-- A computation that moves the cursor and nothing else. -/
def lift {α : Type} (m : Parse α) : Contextual α := do
  let context ← get
  match m.run context.cursor with
  | .ok a cursor =>
      set { context with cursor := cursor }
      return a
  | .error diagnostic cursor =>
      set { context with cursor := cursor }
      throw (.refused diagnostic)

/-- A computation that does not come to an end. -/
def endless {α : Type} : Contextual α := fun _ => none

/-- Counts one more open operand, up to the limit. -/
def descend : Contextual Unit := do
  let context ← get
  if context.limit ≤ context.depth then
    throw (.refused ⟨.tooDeep context.limit, context.cursor.current.span.start⟩)
  else set { context with depth := context.depth + 1 }

def ascend : Contextual Unit := do
  let context ← get
  if context.depth = 0 then throw .underflow
  else set { context with depth := context.depth - 1 }

def push (delimiter : Delimiter) : Contextual Unit :=
  modify fun context => { context with brackets := delimiter :: context.brackets }

def pop : Contextual Unit :=
  modify fun context => { context with brackets := context.brackets.tail }

def outcome {α : Type} (m : Contextual α) : Contextual (Except Diagnostic α) :=
  tryCatch (do return .ok (← m)) fun
    | .refused diagnostic => return .error diagnostic
    | .underflow => throw .underflow

/-- Runs `m` and then `after`, also if `m` ends with a diagnostic. -/
def followedBy {α : Type} (m : Contextual α) (after : Contextual Unit) : Contextual α := do
  let result ← outcome m
  after
  match result with
  | .ok a => return a
  | .error diagnostic => throw (.refused diagnostic)

def inside {α : Type} (delimiter : Delimiter) (m : Contextual α) : Contextual α := do
  push delimiter
  m.followedBy pop

def nested {α : Type} (m : Contextual α) : Contextual α := do
  descend
  m.followedBy ascend

def innermost : Contextual (Option Delimiter) := return (← get).brackets.head?

def elementBound : Contextual Int :=
  return Delimiter.elementBound (← get).table (← innermost)

def expectClosing (delimiter : Delimiter) : Contextual Token := do
  lift (Parse.expectClosing (← get).table delimiter)

def closing (token : Token) : Contextual Expr := do
  lift (Parse.closing (← innermost) token)

section Rules

variable (operand : Int → Contextual Expr)

def grouping (bound : Int) : Contextual Expr := do
  let inner ← inside .group do
    let inner ← operand bound
    let _ ← expectClosing .group
    return inner
  return inner.group

def prefixed (operator : Token) (bound : Int) : Contextual Expr := do
  let inner ← operand bound
  return .node operator.value [inner] false (operator.span.join inner.span)

def prefixUpdate (operator : Token) (bound : Int) : Contextual Expr := do
  let inner ← operand bound
  lift (Parse.ensureAssignable inner)
  return .node operator.value [inner] false (operator.span.join inner.span)

def binary (operator : Token) (left : Expr) (bound : Int) : Contextual Expr := do
  let right ← operand bound
  return .ofOperands operator.value [left, right]

def assignment (operator : Token) (left : Expr) (bound : Int) : Contextual Expr := do
  lift (Parse.ensureAssignable left)
  binary operand operator left bound

def ternary (condition : Expr) (bound : Int) : Contextual Expr := do
  let positive ← operand minPower
  let token ← lift Parse.current
  if token.is ":" then
    let _ ← lift Parse.advance
    let negative ← operand bound
    return .ofOperands "?" [condition, positive, negative]
  else
    let misplaced := (← get).table.misplaced? token
    throw (.refused (misplaced.getD ⟨.malformedTernary token.value, token.span.start⟩))

def comma (left : Expr) (bound : Int) : Contextual Expr := do
  let right ← operand bound
  return Parse.sequence left right

def arguments (bound : Int) : (rounds : Nat) → Contextual (List Expr)
  | 0 => endless
  | rounds + 1 => do
      let token ← lift Parse.current
      if token.is ")" then return []
      else if token.isEnd then throw (.refused (Delimiter.unmatched (some .arguments) token))
      else
        let first ← operand bound
        let separator ← lift Parse.current
        if separator.is "," then
          let _ ← lift Parse.advance
          let rest ← arguments bound rounds
          return first :: rest
        else return [first]

def call (rounds : Nat) (callee : Expr) : Contextual Expr := do
  let (values, close) ← inside .arguments do
    let values ← arguments operand (← elementBound) rounds
    let close ← expectClosing .arguments
    return (values, close)
  return .node "call" (callee :: values) false (callee.span.join close.span)

def index (target : Expr) : Contextual Expr := do
  let (place, close) ← inside .index do
    let place ← operand (← elementBound)
    let close ← expectClosing .index
    return (place, close)
  return .node "get" [target, place] false (target.span.join close.span)

def applyNull (binding : Binding NullRule) (token : Token) : Contextual Expr :=
  match binding.rule with
  | .unregistered => throw (.refused ⟨.unexpectedToken token.value, token.span.start⟩)
  | .error => throw (.refused ⟨.notLeading token.value, token.span.start⟩)
  | .closing => closing token
  | .literal => return .leaf token
  | .grouping => grouping operand binding.rightPower
  | .prefixed => prefixed operand token binding.rightPower
  | .prefixUpdate => prefixUpdate operand token binding.rightPower

def applyLeft (rounds : Nat) (binding : Binding LeftRule) (token : Token) (left : Expr) :
    Contextual Expr :=
  match binding.rule with
  | .unregistered | .error => throw (.refused ⟨.notFollowing token.value, token.span.start⟩)
  | .binary => binary operand token left binding.rightPower
  | .assignment => assignment operand token left binding.rightPower
  | .ternary => ternary operand left binding.rightPower
  | .comma => comma operand left binding.rightPower
  | .call => call operand rounds left
  | .index => index operand left
  | .suffixed => return Parse.suffixed token left

/-- Extends `left` while the current token binds tighter than `bound` and may follow the
operator taken last. -/
def extend (rounds : Nat) (bound : Int) :
    (more : Nat) → (next : Int) → (left : Expr) → Contextual Expr
  | 0, _, _ => endless
  | more + 1, next, left => do
      let binding := (← get).table.left (← lift Parse.current)
      if bound < binding.leftPower ∧ binding.leftPower < next then
        let token ← lift Parse.advance
        lift (Parse.record (.left token binding))
        let left ← applyLeft operand rounds binding token left
        extend rounds bound more binding.nextPower left
      else return left

/-- Reads an expression up to an operator that binds no tighter than `bound`. -/
def bounded (rounds : Nat) (bound : Int) : Contextual Expr := do
  let first ← lift Parse.current
  if first.isEnd then lift (Parse.failHere (.unexpectedToken first.value))
  else
    let token ← lift Parse.advance
    let binding := (← get).table.null token
    lift (Parse.record (.null token binding))
    let left ← applyNull operand binding token
    extend operand rounds bound rounds binding.nextPower left

end Rules

/-- Reads an expression inside the innermost bracket, as one more open operand. There are
fewer than `operands` operands inside one another, and fewer than `rounds` rounds in each
loop. -/
def expression (rounds : Nat) : (operands : Nat) → (bound : Int) → Contextual Expr
  | 0, _ => endless
  | operands + 1, bound => nested (bounded (expression rounds operands) rounds bound)

end Contextual

/-- A rule with all it is applied to. -/
inductive Handler where
  | expression (bound : Int)
  | closing (token : Token)
  | grouping (bound : Int)
  | prefixed (operator : Token) (bound : Int)
  | prefixUpdate (operator : Token) (bound : Int)
  | suffixed (operator : Token) (left : Expr)
  | binary (operator : Token) (left : Expr) (bound : Int)
  | assignment (operator : Token) (left : Expr) (bound : Int)
  | ternary (left : Expr) (bound : Int)
  | comma (left : Expr) (bound : Int)
  | call (left : Expr)
  | index (left : Expr)

def Handler.run (rounds operands : Nat) : Handler → Contextual Expr
  | .expression bound => Contextual.expression rounds operands bound
  | .closing token => Contextual.closing token
  | .grouping bound => Contextual.grouping (Contextual.expression rounds operands) bound
  | .prefixed operator bound =>
      Contextual.prefixed (Contextual.expression rounds operands) operator bound
  | .prefixUpdate operator bound =>
      Contextual.prefixUpdate (Contextual.expression rounds operands) operator bound
  | .suffixed operator left => return Parse.suffixed operator left
  | .binary operator left bound =>
      Contextual.binary (Contextual.expression rounds operands) operator left bound
  | .assignment operator left bound =>
      Contextual.assignment (Contextual.expression rounds operands) operator left bound
  | .ternary left bound => Contextual.ternary (Contextual.expression rounds operands) left bound
  | .comma left bound => Contextual.comma (Contextual.expression rounds operands) left bound
  | .call left => Contextual.call (Contextual.expression rounds operands) rounds left
  | .index left => Contextual.index (Contextual.expression rounds operands) left

end Precedence
