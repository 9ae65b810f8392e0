import Precedence.Text.Bytes

/-!
The line of a source text that holds a given byte. Lines end with a line feed,
which belongs to the line it ends.
-/

namespace Precedence.Text

/-- A line of a source: its number from 1, its text with the line feed that
ends it, and the byte column of the position that was looked up. -/
structure Line where
  number : Nat
  text : List Char
  column : Nat
  deriving DecidableEq

def lines : List Char → List (List Char)
  | [] => []
  | c :: cs =>
      if c = '\n' then [c] :: lines cs
      else
        match lines cs with
        | [] => [[c]]
        | first :: rest => (c :: first) :: rest

/-- Cutting a text into lines loses nothing. -/
theorem flatten_lines (text : List Char) : (lines text).flatten = text := by
  induction text with
  | nil => rfl
  | cons c cs ih =>
      rw [lines]
      split
      · simp [ih]
      · cases hlines : lines cs with
        | nil =>
            rw [hlines] at ih
            simp [← ih]
        | cons first rest =>
            rw [hlines] at ih
            simp [← ih]

/-- Looks up byte `column`, counted from the first of the lines, which has the
given number. Past the last byte it is the end of an unfinished last line, or
the empty line behind a finished one. -/
def locate (number : Nat) : List (List Char) → (column : Nat) → Line
  | [], _ => ⟨number, [], 0⟩
  | line :: rest, column =>
      if column < byteLength line then ⟨number, line, column⟩
      else if rest.isEmpty && line.getLast? != some '\n' then
        ⟨number, line, byteLength line⟩
      else locate (number + 1) rest (column - byteLength line)

/-- The line that holds byte `position` of the source; a position past the end
counts as the end. -/
def lineAt (source : List Char) (position : Nat) : Line :=
  locate 1 (lines source) (min position (byteLength source))

end Precedence.Text
