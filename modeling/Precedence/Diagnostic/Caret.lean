import Precedence.Diagnostic
import Precedence.Text.Blank
import Precedence.Text.Line

/-!
The report of a diagnostic against its source: the cause and tip, the line the
diagnostic points into, and an arrow below it that ends at the position. An arrow
of more than 65535 characters is not drawn, and there is no report then.
-/

namespace Precedence.Diagnostic

def headline (diagnostic : Diagnostic) : String :=
  match diagnostic.cause.tip? with
  | none => "Error: " ++ diagnostic.cause.name
  | some tip => "Error: " ++ diagnostic.cause.name ++ " (" ++ tip ++ ")"

/-- A bar behind the blanks that align it with the bar of a numbered line. -/
def margin (number : String) : String := "".pushn ' ' (number.length + 1) ++ "|"

/-- The part of a source line that is shown: all but its leading spaces and its
trailing blanks. -/
def shownText (line : Text.Line) : List Char :=
  Text.trimEnd (line.text.dropWhile (· = ' '))

/-- The number of bytes between the first shown one and the position. -/
def shaftLength (line : Text.Line) : Nat :=
  line.column - (line.text.takeWhile (· = ' ')).length

def line (diagnostic : Diagnostic) (source : String) : Text.Line :=
  Text.lineAt source.toList diagnostic.position

def reportLines (diagnostic : Diagnostic) (source : String) : List String :=
  let line := diagnostic.line source
  let number := line.number.repr
  [diagnostic.headline,
    "-> <input>",
    margin number,
    number ++ " | " ++ String.ofList (shownText line),
    margin number ++ " " ++ "".pushn '-' (shaftLength line) ++ "^"]

/-- The report, each line ended by a line feed, if its arrow can be drawn. -/
def report? (diagnostic : Diagnostic) (source : String) : Option String :=
  if shaftLength (diagnostic.line source) < 65535 then
    some (String.join ((diagnostic.reportLines source).map (· ++ "\n")))
  else none

end Precedence.Diagnostic
