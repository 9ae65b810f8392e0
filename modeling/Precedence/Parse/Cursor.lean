import Precedence.Parse.Event
import Precedence.Token.Stream

/-!
The state of a parse: the current token, the stream behind it, and the log. A
parse step may fail with a diagnostic; what it consumed until then stays consumed.
-/

namespace Precedence

/-- A place between the items of a token stream. The log lists the latest event
first. -/
structure Cursor where
  current : Token
  ahead : TokenStream
  log : List Event

namespace Cursor

/-- The event of a token coming into view; the end of the input is not logged. -/
def sighting (token : Token) : List Event := if token.isEnd then [] else [.lexed token]

def start (source : String) : Except Diagnostic Cursor :=
  match TokenStream.ofSource source with
  | .ok token :: ahead => .ok ⟨token, ahead, sighting token⟩
  | .error diagnostic :: _ => .error diagnostic
  | [] => .ok ⟨.endAt (Text.byteLength source.toList), [], []⟩

/-- More rounds than a loop can make from here if each takes a token: the tokens
ahead, the current one, and one more. -/
def steps (cursor : Cursor) : Nat := cursor.ahead.length + 2

end Cursor

abbrev Parse := EStateM Diagnostic Cursor

namespace Parse

def current : Parse Token := return (← get).current

def position : Parse Nat := return (← current).span.start

def failHere {α : Type} (cause : Cause) : Parse α := do
  throw ⟨cause, ← position⟩

def record (event : Event) : Parse Unit :=
  modify fun cursor => { cursor with log := event :: cursor.log }

/-- Moves to the next token and returns the one that was current. Behind the end
of the stream the current token stays; a diagnostic in the stream is met once. -/
def advance : Parse Token := do
  let cursor ← get
  match cursor.ahead with
  | [] => return cursor.current
  | .error diagnostic :: ahead =>
      set { cursor with ahead := ahead }
      throw diagnostic
  | .ok token :: ahead =>
      set (⟨token, ahead, Cursor.sighting token ++ cursor.log⟩ : Cursor)
      return cursor.current

@[simp] theorem run_current (cursor : Cursor) : current.run cursor = .ok cursor.current cursor :=
  rfl

@[simp] theorem run_advance_nil (token : Token) (log : List Event) :
    advance.run ⟨token, [], log⟩ = .ok token ⟨token, [], log⟩ := rfl

@[simp] theorem run_advance_ok (token next : Token) (ahead : TokenStream) (log : List Event) :
    advance.run ⟨token, .ok next :: ahead, log⟩ =
      .ok token ⟨next, ahead, Cursor.sighting next ++ log⟩ := rfl

@[simp] theorem run_advance_error (token : Token) (diagnostic : Diagnostic)
    (ahead : TokenStream) (log : List Event) :
    advance.run ⟨token, .error diagnostic :: ahead, log⟩ =
      .error diagnostic ⟨token, ahead, log⟩ := rfl

end Parse

end Precedence
