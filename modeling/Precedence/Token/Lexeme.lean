import Precedence.Token

/-!
The lexical classes: numbers, identifiers, punctuation and operator symbols.
`lexeme?` reads the one that a text begins with.
-/

namespace Precedence

/-- Operator symbols, longest first, so that the first one a text begins with is
the longest one. -/
def operatorSymbols : List String := [
  "<<=", ">>=",
  "**", "++", "--", "->", "<<", ">>", "<=", ">=", "==", "!=", "&&", "||",
  "+=", "-=", "*=", "/=", "%=", "&=", "^=", "|=",
  "+", "-", "*", "/", "%", "=", "<", ">", "?", "!", ":", "~", "&", "^", "|", "@"]

/-- Symbols for grouping, indexing, sequencing and member access. No operator
symbol contains one of them. -/
def punctuation : List String := ["(", ")", "[", "]", ",", "."]

def isSeparator (c : Char) : Bool := c = ' ' || c = '\t' || c = '\r' || c = '\n'

def isWordStart (c : Char) : Bool := c.isAlpha || c = '_'

def isWordPart (c : Char) : Bool := isWordStart c || c.isDigit

/-- The digits a text begins with and, behind them, a dot with its digits. -/
def numberText (text : List Char) : List Char :=
  let whole := text.takeWhile Char.isDigit
  match text.dropWhile Char.isDigit with
  | '.' :: rest => whole ++ '.' :: rest.takeWhile Char.isDigit
  | _ => whole

def leadingSymbol? (symbols : List String) (text : List Char) : Option (List Char) :=
  (symbols.map String.toList).find? (·.isPrefixOf text)

/-- The lexeme that a text begins with, and its class. A blank or a foreign
character begins none. -/
def lexeme? : List Char → Option (TokenKind × List Char)
  | [] => none
  | c :: rest =>
      if c.isDigit then some (.number, numberText (c :: rest))
      else if isWordStart c then some (.identifier, c :: rest.takeWhile isWordPart)
      else
        (leadingSymbol? (punctuation ++ operatorSymbols) (c :: rest)).map (.operator, ·)

end Precedence
