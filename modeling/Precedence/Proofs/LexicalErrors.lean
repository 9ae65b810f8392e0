import Precedence.Proofs.Correspondence
import Precedence.Proofs.Scanning

/-!
The stream of a source is read while it is parsed, but the outcome does not depend on
that: a source that breaks off at a foreign character is refused for this character,
unless it is refused for something that stands before it.
-/

namespace Precedence

/-- Whether the cause is a character that begins no token. -/
def Cause.isLexical : Cause → Bool
  | .foreignCharacter _ => true
  | _ => false

theorem Cause.Names.not_isLexical {limit : Nat} {token : Token} {cause : Cause}
    (h : cause.Names limit token) : ¬cause.isLexical := by
  cases cause with
  | foreignCharacter => exact h.elim
  | _ => simp [isLexical]

namespace Parser

variable {parser : Parser} {source : String}

/-- What a source is refused for is the character it breaks off at, or is reported at
one of its tokens. -/
theorem parse_eq_error {diagnostic : Diagnostic} (h : parser.parse source = .error diagnostic) :
    .error diagnostic ∈ TokenStream.ofSource source ∨
      ¬diagnostic.cause.isLexical ∧
        ∃ token, .ok token ∈ TokenStream.ofSource source ∧
          diagnostic.position = token.span.start := by
  obtain ⟨_, _, hdiagnostics⟩ := (((TokenStream.ofSource source).itself parser.table).runs
    parser.limit (TokenStream.itself_items parser.table _)).of_error h
  cases hdiagnostics with
  | broken hbroken => exact .inl hbroken.2
  | @named _ t _ htoken hcause => exact .inr ⟨hcause.not_isLexical, t, htoken.2, rfl⟩
  | target hexpr => exact .inr ⟨by simp [Cause.isLexical], hexpr.span⟩

/-- An accepted source has been read up to its end. -/
theorem tokenize_of_parse {expr : Expr} (h : parser.parse source = .ok expr) :
    ∃ tokens, tokenize source = .ok tokens := by
  obtain ⟨cursor, cursor', hstart, hrun, hend⟩ := parse_eq_ok_iff_run.mp h
  have hsealed := TokenStream.ofSource_sealed source
  rcases Correspondence.start_cases (TokenStream.itself_items parser.table
      (TokenStream.ofSource source)) with ⟨first, first', hfirst, hfirst', hcursors⟩ |
    ⟨_, _, hbroken, _⟩
  · obtain rfl : cursor = first := Except.ok.inj (hstart.symm.trans hfirst)
    obtain rfl : cursor = first' := Except.ok.inj (hstart.symm.trans hfirst')
    have houtcomes := Correspondence.operandsAgree _ parser.limit cursor.steps parser.limit none
      minPower hcursors
    rw [hrun] at houtcomes
    cases houtcomes with
    | done _ hcursors' =>
        exact ⟨_, hsealed.collect_eq (hsealed.mem_tokens hcursors'.current.2) hend⟩
  · cases hstart.symm.trans hbroken

/-- A source that is refused for a foreign character breaks off there. -/
theorem tokenize_of_lexical {diagnostic : Diagnostic}
    (h : parser.parse source = .error diagnostic) (hlexical : diagnostic.cause.isLexical) :
    tokenize source = .error diagnostic := by
  rcases parse_eq_error h with hbroken | ⟨hnot, _⟩
  · exact (TokenStream.ofSource_sealed source).collect_eq_error hbroken
  · exact absurd hlexical hnot

end Parser

/-- Parsing a source and reading all its tokens agree on what cannot be read. If the
source breaks off at a foreign character, then parsing fails with the same
diagnostic, or with one for a place before that character; parsing fails for a
foreign character only if the source breaks off there, and succeeds only if it does
not break off at all. -/
theorem Parser.parse_reads_tokens (parser : Parser) {source : String}
    (hlength : source.utf8ByteSize < 0x100000000) :
    (∀ broken, tokenize source = .error broken → ∃ diagnostic,
      parser.parse source = .error diagnostic ∧
        (diagnostic = broken ∨ diagnostic.position < broken.position)) ∧
    (∀ diagnostic, parser.parse source = .error diagnostic → diagnostic.cause.isLexical →
      tokenize source = .error diagnostic) ∧
    ∀ expr, parser.parse source = .ok expr → ∃ tokens, tokenize source = .ok tokens := by
  refine ⟨?_, fun diagnostic => tokenize_of_lexical, fun expr => tokenize_of_parse⟩
  intro broken hbroken
  cases hparse : parser.parse source with
  | ok expr =>
      obtain ⟨tokens, htokens⟩ := tokenize_of_parse hparse
      cases hbroken.symm.trans htokens
  | error diagnostic =>
      refine ⟨diagnostic, rfl, ?_⟩
      obtain ⟨front, position, c, hstream, hle, hstarts, rfl⟩ := exists_front_of_broken hbroken
      rw [offset_of_lt (by omega)] at hstream ⊢
      rcases parse_eq_error hparse with hmem | ⟨_, token, hmem, hposition⟩
      · rw [hstream] at hmem
        exact .inl (by simpa using hmem)
      · rw [hstream] at hmem
        obtain ⟨start, hlt, hstart⟩ := hstarts token (by simpa using hmem)
        rw [hposition, hstart, offset_of_lt (by omega)]
        exact .inr hlt

theorem Parser.parse_reads_tokens_trailing :
    "a b + $".utf8ByteSize < 0x100000000 ∧
      tokenize "a b + $" = .error ⟨.foreignCharacter '$', 6⟩ ∧
      ∃ diagnostic, (Parser.ofC 8).parse "a b + $" = .error diagnostic ∧
        (diagnostic = ⟨.foreignCharacter '$', 6⟩ ∨ diagnostic.position < 6) := by
  have hlength : "a b + $".utf8ByteSize < 0x100000000 := by decide +kernel
  have hbroken : tokenize "a b + $" = .error ⟨.foreignCharacter '$', 6⟩ := by decide +kernel
  exact ⟨hlength, hbroken, (parse_reads_tokens (.ofC 8) hlength).1 _ hbroken⟩

end Precedence
