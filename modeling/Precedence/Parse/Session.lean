import Precedence.Parse.Contextual

/-!
A parse under manual control. A session is a parse that is stopped between two
steps: it shows the state the parser works on, takes single steps, and applies
the rules one at a time. A step that fails leaves the session usable.
-/

namespace Precedence

/-- A stopped parse: the context it stands in, and the expression that was built
last. -/
structure Session extends Context where
  last : Option Expr

namespace Session

def start (table : OperatorTable) (limit : Nat) (source : String) :
    Except Diagnostic Session :=
  (Cursor.start source).map fun cursor => ⟨⟨table, limit, 0, [], cursor⟩, none⟩

def current (session : Session) : Token := session.cursor.current

/-- A rule to build an expression with. All but `expression` take the current
token as their operator. -/
inductive Rule where
  | expression (bound : Int)
  | closing
  | grouping (bound : Int)
  | prefixed (bound : Int)
  | prefixUpdate (bound : Int)
  | suffixed
  | binary (bound : Int)
  | assignment (bound : Int)
  | ternary (bound : Int)
  | comma (bound : Int)
  | call
  | index
  deriving DecidableEq

/-- Applies a handler. Its loops take no more rounds than there are tokens, and its
operands are within the limit. -/
def handle (session : Session) (handler : Handler) : Contextual Expr :=
  handler.run session.cursor.steps (session.limit - session.depth + 1)

/-- The computation of a rule. Rules for operators behind an operand apply to
the expression built last, and have none to apply to before there is one. -/
def build? (session : Session) : Rule → Option (Contextual Expr)
  | .expression bound => some (session.handle (.expression bound))
  | .closing => some do session.handle (.closing (← Contextual.lift Parse.advance))
  | .grouping bound => some do
      let _ ← Contextual.lift Parse.advance
      session.handle (.grouping bound)
  | .prefixed bound => some do
      session.handle (.prefixed (← Contextual.lift Parse.advance) bound)
  | .prefixUpdate bound => some do
      session.handle (.prefixUpdate (← Contextual.lift Parse.advance) bound)
  | .suffixed => session.last.map fun left => do
      session.handle (.suffixed (← Contextual.lift Parse.advance) left)
  | .binary bound => session.last.map fun left => do
      session.handle (.binary (← Contextual.lift Parse.advance) left bound)
  | .assignment bound => session.last.map fun left => do
      session.handle (.assignment (← Contextual.lift Parse.advance) left bound)
  | .ternary bound => session.last.map fun left => do
      let _ ← Contextual.lift Parse.advance
      session.handle (.ternary left bound)
  | .comma bound => session.last.map fun left => do
      let _ ← Contextual.lift Parse.advance
      session.handle (.comma left bound)
  | .call => session.last.map fun left => do
      let _ ← Contextual.lift Parse.advance
      session.handle (.call left)
  | .index => session.last.map fun left => do
      let _ ← Contextual.lift Parse.advance
      session.handle (.index left)

/-- A step that is not made of others. -/
inductive Action where
  | current
  | advance
  | isAt (symbol : String)
  | atEnd
  | position
  | innermost
  | elementBound
  | lookupNull
  | lookupLeft
  | descend
  | ascend
  | finish
  | misplaced
  | unmatched (delimiter : Option Delimiter)
  | expectClosing (delimiter : Delimiter)
  | build (rule : Rule)
  deriving DecidableEq

/-- A step of a session. Nested steps run inside a bracket. -/
inductive Step where
  | action (action : Action)
  | inside (delimiter : Delimiter) (steps : List Step)

/-- What a step tells when it succeeds. The answer of nested steps lists theirs,
each with the token that was current afterwards, and whether all succeeded. -/
inductive Answer where
  | done
  | token (token : Token)
  | flag (value : Bool)
  | offset (position : Nat)
  | bracket (delimiter : Option Delimiter)
  | power (power : Int)
  | null (binding : Binding NullRule)
  | left (binding : Binding LeftRule)
  | diagnostic (diagnostic : Option Diagnostic)
  | built (expr : Expr)
  | nested (entries : List (Except Diagnostic Answer × Token)) (completed : Bool)

/-- The result of a step with the token that is current afterwards. -/
abbrev Entry := Except Diagnostic Answer × Token

/-- Runs a computation in the context of a session. Leaving an operand when none is
open cannot be done, and what does not come to an end has no result. -/
def runIn {α : Type} (session : Session) (computation : Contextual α)
    (answer : α → Answer) (keep : α → Session → Session) :
    Option (Except Diagnostic Answer × Session) :=
  match computation.run session.toContext with
  | some (.ok value, context) =>
      some (.ok (answer value), keep value { session with toContext := context })
  | some (.error (.refused diagnostic), context) =>
      some (.error diagnostic, { session with toContext := context })
  | some (.error .underflow, _) => none
  | none => none

/-- Performs an action. Building on an expression before there is one cannot be
done. -/
def perform? (session : Session) : Action → Option (Except Diagnostic Answer × Session)
  | .current => some (.ok (.token session.current), session)
  | .advance => session.runIn (Contextual.lift Parse.advance) .token fun _ => id
  | .isAt symbol => some (.ok (.flag (session.current.is symbol)), session)
  | .atEnd => some (.ok (.flag session.current.isEnd), session)
  | .position => some (.ok (.offset session.current.span.start), session)
  | .innermost => session.runIn Contextual.innermost .bracket fun _ => id
  | .elementBound => session.runIn Contextual.elementBound .power fun _ => id
  | .lookupNull => some (.ok (.null (session.table.null session.current)), session)
  | .lookupLeft => some (.ok (.left (session.table.left session.current)), session)
  | .descend => session.runIn Contextual.descend (fun _ => .done) fun _ => id
  | .ascend => session.runIn Contextual.ascend (fun _ => .done) fun _ => id
  | .finish =>
      match session.table.leftover? session.current with
      | some diagnostic => some (.error diagnostic, session)
      | none => some (.ok .done, session)
  | .misplaced =>
      some (.ok (.diagnostic (session.table.misplaced? session.current)), session)
  | .unmatched delimiter =>
      some (.ok (.diagnostic (some (Delimiter.unmatched delimiter session.current))), session)
  | .expectClosing delimiter =>
      session.runIn (Contextual.expectClosing delimiter) .token fun _ => id
  | .build rule => do
      session.runIn (← session.build? rule) .built fun expr session =>
        { session with last := some expr }

mutual

/-- Takes a step. Nested steps run inside their bracket, which is closed again
whether they succeed or not. -/
def step? (session : Session) : Step → Option (Except Diagnostic Answer × Session)
  | .action action => session.perform? action
  | .inside delimiter steps => do
      let entered := { session with brackets := delimiter :: session.brackets }
      let (entries, completed, left) ← entered.steps? steps
      return (.ok (.nested entries completed), { left with brackets := left.brackets.tail })

/-- Takes steps up to the first that fails, and tells whether none did. -/
def steps? (session : Session) : List Step → Option (List Entry × Bool × Session)
  | [] => some ([], true, session)
  | step :: rest => do
      let (result, session) ← session.step? step
      match result with
      | .error _ => return ([(result, session.current)], false, session)
      | .ok _ =>
          let (entries, completed, session') ← session.steps? rest
          return ((result, session.current) :: entries, completed, session')

end

/-- Takes steps whether they fail or not, up to the first that cannot be taken. -/
def run (session : Session) : List Step → List (Option Entry)
  | [] => []
  | step :: rest =>
      match session.step? step with
      | none => [none]
      | some (result, session) => some (result, session.current) :: session.run rest

end Session

end Precedence
