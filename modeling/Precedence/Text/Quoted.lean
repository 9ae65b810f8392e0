import Precedence.Text.Printable

/-!
Quoted text as diagnostics show it: surrounded by a quotation mark, with the
mark, the backslash and every character that cannot be shown written as an
escape sequence.
-/

namespace Precedence.Text

/-- The escape sequence of a character by its number, in lower-case hexadecimal. -/
def escapeCode (c : Char) : String :=
  "\\u\x7b" ++ String.ofList (Nat.toDigits 16 c.toNat) ++ "\x7d"

def escape (mark c : Char) : String :=
  if c = '\x00' then "\\0"
  else if c = '\t' then "\\t"
  else if c = '\r' then "\\r"
  else if c = '\n' then "\\n"
  else if c = '\\' || c = mark then String.ofList ['\\', c]
  else if isPrintable c then String.singleton c
  else escapeCode c

def quoteWith (mark : Char) (text : List Char) : String :=
  String.singleton mark ++ String.join (text.map (escape mark)) ++ String.singleton mark

def quote (text : String) : String := quoteWith '\x22' text.toList

def quoteChar (c : Char) : String := quoteWith '\x27' [c]

end Precedence.Text
