import Precedence.Token.Stream

/-!
A reader takes the tokens of a source one at a time. It can be moved to any byte
and asked what stands there, so it may come to lie where no character begins;
operations that look at the source have no answer then.
-/

namespace Precedence

/-- A byte position in a source. A finished reader yields nothing more. -/
structure Reader where
  source : List Char
  position : Nat
  finished : Bool
  deriving DecidableEq

namespace Reader

def ofSource (source : String) : Reader := ⟨source.toList, 0, false⟩

def atEnd (reader : Reader) : Bool := Text.byteLength reader.source ≤ reader.position

def remainder? (reader : Reader) : Option (List Char) :=
  Text.dropBytes? reader.position reader.source

/-- The character at the position, NUL at the end of the source. -/
def peek? (reader : Reader) : Option Char :=
  reader.remainder?.map (·.headD '\x00')

/-- What is left to turn into tokens: nothing from the end of the source on. -/
def pending? (reader : Reader) : Option (List Char) :=
  if reader.atEnd then some [] else reader.remainder?

/-- Moves by `bytes`. Positions are 64-bit numbers. -/
def advance? (reader : Reader) (bytes : Nat) : Option Reader :=
  if reader.position + bytes < 0x10000000000000000 then
    some { reader with position := reader.position + bytes }
  else none

/-- Takes the next item of the source: a token, the diagnostic that ends the
source early, or nothing once the reader is finished. -/
def next? (reader : Reader) : Option (Option (Except Diagnostic Token) × Reader) := do
  if reader.finished then return (none, reader)
  else
    let pending ← reader.pending?
    let separators := pending.takeWhile isSeparator
    let start := reader.position + Text.byteLength separators
    match pending.dropWhile isSeparator with
    | [] =>
        return (some (.ok (.endAt start)), { reader with position := start, finished := true })
    | c :: rest =>
        match lexeme? (c :: rest) with
        | none =>
            return (some (.error ⟨.foreignCharacter c, offset start⟩),
              { reader with position := start, finished := true })
        | some (kind, text) =>
            let length := Text.byteLength text
            return (some (.ok ⟨kind, String.ofList text, .ofLength start length⟩),
              { reader with position := start + length })

def stream? (reader : Reader) : Option TokenStream :=
  if reader.finished then some []
  else reader.pending?.map (TokenStream.scan 0 reader.position)

inductive Step where
  | next
  | peek
  | remainder
  | atEnd
  | advance (bytes : Nat)
  | save
  | restore
  | collect
  deriving DecidableEq

inductive Answer where
  | item (item : Option (Except Diagnostic Token))
  | character (c : Char)
  | text (text : List Char)
  | flag (value : Bool)
  | done
  | tokens (tokens : Except Diagnostic (List Token))

/-- A reader together with the copy of it that was saved last. -/
structure Bookmarked where
  reader : Reader
  saved : Option Reader
  deriving DecidableEq

/-- Performs an operation. There is no answer when it looks at the source where
no character begins, or moves out of the range of positions. -/
def Bookmarked.perform? (book : Bookmarked) : Step → Option (Answer × Bookmarked)
  | .next => do
      let (item, reader) ← book.reader.next?
      return (.item item, { book with reader := reader })
  | .peek => do return (.character (← book.reader.peek?), book)
  | .remainder => do return (.text (← book.reader.remainder?), book)
  | .atEnd => some (.flag book.reader.atEnd, book)
  | .advance bytes => do
      return (.done, { book with reader := (← book.reader.advance? bytes) })
  | .save => some (.done, { book with saved := some book.reader })
  | .restore => some (.done, { book with reader := book.saved.getD book.reader })
  | .collect => do return (.tokens (← book.reader.stream?).collect, book)

/-- Performs operations in turn, up to the first that has no answer. -/
def Bookmarked.run (book : Bookmarked) : List Step → List (Option Answer)
  | [] => []
  | step :: rest =>
      match book.perform? step with
      | none => [none]
      | some (answer, book) => some answer :: book.run rest

def run (source : String) (steps : List Step) : List (Option Answer) :=
  Bookmarked.run ⟨.ofSource source, none⟩ steps

end Reader

end Precedence
