import Precedence.Operator.CGrammar
import Precedence.Parse.Expression

/-!
Parsers: an operator table with a limit on nesting. A parse reads a whole source
as one expression.
-/

namespace Precedence

structure Parser where
  table : OperatorTable
  limit : Nat

namespace Parser

def defaultLimit : Nat := 256

def ofC (limit : Nat) : Parser := ⟨cTable, limit⟩

/-- Reads an expression that goes on to the end of the input. -/
def complete (parser : Parser) : Parse Expr := do
  let steps := (← get).steps
  let expr ← Parse.expression parser.table parser.limit steps parser.limit none minPower
  match parser.table.leftover? (← Parse.current) with
  | some diagnostic => throw diagnostic
  | none => return expr

/-- The outcome of a parse, with the events that led to it in order. -/
structure Run where
  result : Except Diagnostic Expr
  events : List Event

def run (parser : Parser) (source : String) : Run :=
  match Cursor.start source with
  | .error diagnostic => ⟨.error diagnostic, []⟩
  | .ok cursor =>
      match parser.complete.run cursor with
      | .ok expr cursor => ⟨.ok expr, cursor.log.reverse⟩
      | .error diagnostic cursor => ⟨.error diagnostic, cursor.log.reverse⟩

def parse (parser : Parser) (source : String) : Except Diagnostic Expr :=
  (parser.run source).result

def log (parser : Parser) (source : String) : List String :=
  let run := parser.run source
  let opening := "DEBUG parsing " ++ Text.quote source
  let closing :=
    match run.result with
    | .ok expr => ["DEBUG parsed " ++ Text.quote source ++ " -> " ++ expr.sexp]
    | .error _ => []
  opening :: run.events.map (fun event => "TRACE " ++ event.message) ++ closing

end Parser

end Precedence
