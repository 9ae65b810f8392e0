import Precedence.Diagnostic.Caret
import Precedence.SelfCheck

/-!
The command line: parses each expression it is given and prints its
s-expression, or checks itself when it is given none.
-/

namespace Precedence.Command

structure Options where
  expressions : List String := []
  limit : Option Nat := none
  diagnostics : Bool := false
  verbose : Bool := false
  deriving DecidableEq

/-- Reads an unsigned 64-bit number: decimal digits, with a plus sign allowed
before them. -/
def readLimit? (text : String) : Option Nat :=
  let digits :=
    match text.toList with
    | '+' :: rest => rest
    | rest => rest
  if digits.isEmpty || !digits.all Char.isDigit then none
  else
    let value := digits.foldl (fun value c => 10 * value + (c.toNat - '0'.toNat)) 0
    if value < 0x10000000000000000 then some value else none

namespace Options

def addExpression (options : Options) (text : String) : Options :=
  { options with expressions := options.expressions ++ [text] }

def setLimit? (options : Options) (text : String) : Option Options :=
  match options.limit with
  | some _ => none
  | none => (readLimit? text).map fun limit => { options with limit := some limit }

def setDiagnostics? (options : Options) : Option Options :=
  if options.diagnostics then none else some { options with diagnostics := true }

def setVerbose? (options : Options) : Option Options :=
  if options.verbose then none else some { options with verbose := true }

def setLetters? (options : Options) : List Char → Option Options
  | [] => some options
  | 'd' :: rest => do (← options.setDiagnostics?).setLetters? rest
  | 'v' :: rest => do (← options.setVerbose?).setLetters? rest
  | _ :: _ => none

/-- Sets a flag by its name, or the limit in `max-depth=` followed by a number. -/
def setName? (options : Options) (name : List Char) : Option Options :=
  if name = "diagnostics".toList then options.setDiagnostics?
  else if name = "verbose".toList then options.setVerbose?
  else
    let key := "max-depth=".toList
    if key.isPrefixOf name then options.setLimit? (String.ofList (name.drop key.length))
    else none

/-- Reads arguments in any order. Everything behind `--` is an expression, and
so is a lone hyphen; any other argument with a hyphen in front is an option. -/
def read? (options : Options) : List String → Option Options
  | [] => some options
  | argument :: rest =>
      match argument.toList with
      | ['-', '-'] => some (rest.foldl addExpression options)
      | '-' :: '-' :: name =>
          if name = "max-depth".toList then
            match rest with
            | [] => none
            | value :: rest =>
                match value.toList with
                | '-' :: _ :: _ => none
                | _ => do (← options.setLimit? value).read? rest
          else do (← options.setName? name).read? rest
      | '-' :: letter :: letters => do
          (← options.setLetters? (letter :: letters)).read? rest
      | _ => (options.addExpression argument).read? rest

end Options

def options? (arguments : List String) : Option Options := Options.read? {} arguments

/-- What a run of the command leaves behind. The log is for the error stream. -/
structure Result where
  output : String
  status : Nat
  log : List String
  deriving DecidableEq

/-- How the work on an expression ends. It is cut off when a report is asked for
that cannot be drawn. -/
inductive Ending where
  | parsed
  | failed
  | cutOff
  deriving DecidableEq

def reportExpression (parser : Parser) (diagnostics : Bool) (text : String) : String × Ending :=
  match parser.parse text with
  | .ok expr => (text ++ " -> " ++ expr.sexp ++ "\n", .parsed)
  | .error diagnostic =>
      let failure := "Unable to parse input: " ++ diagnostic.cause.message ++ "\n"
      if diagnostics then
        match diagnostic.report? text with
        | some report => (failure ++ report, .failed)
        | none => (failure, .cutOff)
      else (failure, .failed)

/-- The outputs for several expressions, none behind one that is cut off. -/
def reportExpressions (parser : Parser) (diagnostics : Bool) :
    List String → List (String × Ending)
  | [] => []
  | text :: rest =>
      let report := reportExpression parser diagnostics text
      if report.2 = .cutOff then [report]
      else report :: reportExpressions parser diagnostics rest

def describeMismatch (mismatch : Mismatch) : String :=
  mismatch.input ++ ": expected " ++ mismatch.expected ++ ", got " ++ mismatch.actual ++ "\n"

def selfCheck (parser : Parser) (verbose : Bool) : Result :=
  let mismatches := parser.mismatches
  let total := selfCheckCases.length
  { output := String.join (mismatches.map describeMismatch) ++
      (total - mismatches.length).repr ++ " of " ++ total.repr ++ " cases passed\n"
    status := if mismatches.isEmpty then 0 else 1
    log :=
      if verbose then
        selfCheckCases.flatMap (fun (input, _) => parser.log input) ++ [parser.selfCheckSummary]
      else [] }

def parseAll (parser : Parser) (options : Options) : Result :=
  let reports := reportExpressions parser options.diagnostics options.expressions
  let endings := reports.map Prod.snd
  { output := String.join (reports.map Prod.fst)
    status := if .cutOff ∈ endings then 101 else if .failed ∈ endings then 1 else 0
    log := if options.verbose then options.expressions.flatMap parser.log else [] }

/-- Runs the command. Wrong usage has status 2, a failed parse or check 1, and
work that is cut off 101. -/
def run (arguments : List String) : Result :=
  match options? arguments with
  | none => ⟨"", 2, ["usage: [--max-depth N] [-d] [-v] [EXPRESSION]..."]⟩
  | some options =>
      let parser := Parser.ofC (options.limit.getD Parser.defaultLimit)
      if options.expressions.isEmpty then selfCheck parser options.verbose
      else parseAll parser options

end Precedence.Command
