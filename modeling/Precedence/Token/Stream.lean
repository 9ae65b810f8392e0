import Precedence.Diagnostic
import Precedence.Text.Bytes
import Precedence.Token.Lexeme

/-!
The tokens of a source in order. A stream ends with the end-of-input token or,
at the first character that begins no token, with a diagnostic.
-/

namespace Precedence

abbrev TokenStream := List (Except Diagnostic Token)

namespace TokenStream

/-- Reads the items of a text whose first character stands at byte `position`.
`inside` counts the leading characters that belong to the lexeme read last. -/
def scan : (inside position : Nat) → List Char → TokenStream
  | _, position, [] => [.ok (.endAt position)]
  | inside + 1, position, c :: rest => scan inside (position + c.utf8Size) rest
  | 0, position, c :: rest =>
      if isSeparator c then scan 0 (position + c.utf8Size) rest
      else
        match lexeme? (c :: rest) with
        | none => [.error ⟨.foreignCharacter c, offset position⟩]
        | some (kind, text) =>
            .ok ⟨kind, String.ofList text, .ofLength position (Text.byteLength text)⟩ ::
              scan (text.length - 1) (position + c.utf8Size) rest

/-- Characters inside a lexeme only move the position. -/
theorem scan_inside (inside position : Nat) (text : List Char) :
    scan inside position text =
      scan 0 (position + Text.byteLength (text.take inside)) (text.drop inside) := by
  induction text generalizing inside position with
  | nil => cases inside <;> simp [scan]
  | cons c rest ih =>
      cases inside with
      | zero => simp
      | succ inside =>
          rw [scan, ih]
          simp [Nat.add_assoc]

def ofSource (source : String) : TokenStream := scan 0 0 source.toList

def collect : TokenStream → Except Diagnostic (List Token)
  | [] => .ok []
  | .error diagnostic :: _ => .error diagnostic
  | .ok token :: rest => (collect rest).map (token :: ·)

end TokenStream

/-- The tokens of a source, the end-of-input token last. -/
def tokenize (source : String) : Except Diagnostic (List Token) :=
  (TokenStream.ofSource source).collect

end Precedence
