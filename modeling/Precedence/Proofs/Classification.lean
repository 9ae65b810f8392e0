import Precedence.Proofs.Position
import Precedence.Proofs.Refusal

/-!
What the diagnostics of the C grammar tell. An unmatched bracket is told by the innermost
open one, and a closing bracket before which an operand is missing is the one that is due.
Each cause is reported for tokens of its own kind only: an operator that can follow an
operand is never taken for something left over.
-/

namespace Precedence

namespace TokenStream

/-! Tokens by the place where they begin. -/

def before (stream : TokenStream) (place : Nat) : List Token :=
  stream.tokens.filter (·.span.start < place)

def at? (stream : TokenStream) (place : Nat) : Option Token :=
  stream.tokens.find? (·.span.start = place)

theorem tokens_append (front : List Token) (rest : TokenStream) :
    tokens (front.map .ok ++ rest) = front ++ rest.tokens := by
  induction front with
  | nil => rfl
  | cons token front ih => simp [tokens, ih]

/-- The tokens of a source begin one behind the other. -/
theorem starts_ordered {source : String} (hlength : source.utf8ByteSize < 0x100000000) :
    (ofSource source).tokens.Pairwise (·.span.start < ·.span.start) := by
  obtain ⟨front, position, rest, last, hscans, hstream, hlast⟩ := exists_front source
  obtain ⟨_, _, _, hsize⟩ := hscans.split_source
  obtain ⟨hpairwise, hinside⟩ := hscans.ordered (by omega)
  have hfront : front.Pairwise (·.span.start < ·.span.start) :=
    hpairwise.imp_of_mem fun {a b} ha hb hle => by
      have := hinside a ha
      omega
  rw [hstream, tokens_append]
  rcases hlast with ⟨_, rfl⟩ | ⟨c, behind, _, rfl⟩
  · refine List.pairwise_append.mpr ⟨hfront, List.pairwise_singleton _ _, ?_⟩
    intro token htoken last hlast
    obtain rfl : last = .endAt position := by simpa [tokens] using hlast
    have := hinside token htoken
    rw [Token.endAt_of_lt (by omega)]
    dsimp only
    omega
  · simpa [tokens] using hfront

section Split

variable {stream rest : TokenStream} {front : List Token} {token : Token}
  (hordered : stream.tokens.Pairwise (·.span.start < ·.span.start))
  (hstream : stream = front.map .ok ++ .ok token :: rest)

include hordered hstream

theorem before_start : stream.before token.span.start = front := by
  rw [hstream, tokens_append, tokens, List.pairwise_append, List.pairwise_cons] at hordered
  obtain ⟨_, ⟨hbehind, _⟩, hfront⟩ := hordered
  rw [before, hstream, tokens_append, tokens, List.filter_append, List.filter_cons_of_neg (by simp)]
  have hkept : front.filter (·.span.start < token.span.start) = front :=
    List.filter_eq_self.mpr fun other hother => by simpa using hfront other hother token (by simp)
  have hdropped : rest.tokens.filter (·.span.start < token.span.start) = [] :=
    List.filter_eq_nil_iff.mpr fun other hother => by
      have := hbehind other hother
      simp only [decide_eq_true_eq]
      omega
  rw [hkept, hdropped, List.append_nil]

theorem at?_start : stream.at? token.span.start = some token := by
  rw [hstream, tokens_append, tokens, List.pairwise_append] at hordered
  obtain ⟨_, _, hfront⟩ := hordered
  rw [at?, hstream, tokens_append, tokens]
  refine List.find?_eq_some_iff_append.mpr ⟨by simp, front, rest.tokens, rfl, ?_⟩
  intro other hother
  have := hfront other hother token (by simp)
  simp only [Bool.not_eq_true', decide_eq_false_iff_not]
  omega

end Split

end TokenStream

/-! Tokens by what they are. -/

/-- The keys of the tokens that a source can have. -/
def lexicalKeys : List TokenKey :=
  [.identifier, .number, .endOfInput] ++ (punctuation ++ operatorSymbols).map .symbol

/-- The end of the input is called by its name, and operators are symbols. -/
theorem TokenStream.key_of_ok {source : String} {token : Token}
    (h : .ok token ∈ TokenStream.ofSource source) :
    token.key ∈ lexicalKeys ∧ (token.isEnd → token.value = "EOF") := by
  obtain ⟨front, position, rest, hscans, htokens, _⟩ := TokenStream.exists_items source
  rcases htokens token h with hmem | ⟨_, rfl⟩
  · obtain ⟨_, kind, value, _, _, hlexeme, rfl⟩ := hscans.place hmem
    refine ⟨?_, fun hend => ?_⟩
    · cases isLexeme_of_lexeme? hlexeme with
      | whole => simp [Token.key, lexicalKeys]
      | fraction => simp [Token.key, lexicalKeys]
      | identifier => simp [Token.key, lexicalKeys]
      | operator hsymbol =>
          simp only [Token.key, String.ofList_toList, lexicalKeys, List.mem_append, List.mem_map]
          exact .inr ⟨_, hsymbol.symm, rfl⟩
    · exact absurd (by simpa [Token.isEnd] using hend) (lexeme?_kind_ne_end hlexeme)
  · exact ⟨by simp [Token.key, Token.endAt, lexicalKeys], fun _ => rfl⟩

/-- A source breaks off only at a character that begins no token. -/
theorem TokenStream.foreign_of_error {source : String} {diagnostic : Diagnostic}
    (h : .error diagnostic ∈ TokenStream.ofSource source) :
    ∃ c place, diagnostic = ⟨.foreignCharacter c, place⟩ := by
  obtain ⟨_, position, _, _, _, hbroken⟩ := TokenStream.exists_items source
  obtain ⟨c, _, _, hdiagnostic⟩ := hbroken diagnostic h
  exact ⟨c, offset position, hdiagnostic⟩

theorem Token.isEnd_iff_key {token : Token} : token.isEnd ↔ token.key = .endOfInput := by
  obtain ⟨kind, value, span⟩ := token
  cases kind <;> simp [isEnd, key]

theorem Token.isClosing_iff_key {token : Token} :
    token.isClosing ↔ token.key ∈ [.symbol ")", .symbol "]"] := by
  obtain ⟨kind, value, span⟩ := token
  cases kind <;> simp [isClosing, Token.is, key]

theorem Token.value_of_key {token : Token} {symbol : String} (h : token.key = .symbol symbol) :
    token.value = symbol := by
  obtain ⟨kind, value, span⟩ := token
  cases kind <;> simp_all [key]

def Cause.token? : Cause → Option String
  | .unexpectedToken value | .notLeading value | .notFollowing value
  | .unmatchedDelimiter _ value | .malformedTernary value | .trailingInput value => some value
  | .foreignCharacter _ | .invalidTarget _ | .tooDeep _ => none

/-- Whether the cause is something other than was expected behind an operand. -/
def Cause.isLeftover : Cause → Bool
  | .unmatchedDelimiter _ _ | .malformedTernary _ | .trailingInput _ => true
  | _ => false

/-- The symbols that can begin an operand or close a bracket, and the one that has no
role. -/
def leadingSymbols : List String := ["+", "-", "!", "~", "++", "--", "(", ")", "]", "@"]

/-- The tokens that a cause is reported for in the C grammar. -/
def Cause.offenders : Cause → List TokenKey
  | .trailingInput _ => [.identifier, .number, .symbol "@"]
  | .notFollowing _ => [.symbol "~", .symbol ":"]
  | .notLeading _ => ((punctuation ++ operatorSymbols).filter (· ∉ leadingSymbols)).map .symbol
  | .unexpectedToken _ => [.endOfInput, .symbol "@", .symbol ")", .symbol "]"]
  | .malformedTernary _ | .unmatchedDelimiter (some _) _ =>
      [.identifier, .number, .symbol "@", .symbol ")", .symbol "]", .endOfInput]
  | .unmatchedDelimiter none _ => [.symbol ")", .symbol "]"]
  | .foreignCharacter _ | .invalidTarget _ | .tooDeep _ => []

namespace CTable

section Keys

variable {token : Token} (hkey : token.key ∈ lexicalKeys)

include hkey

/-- A statement about both bindings holds for the tokens of a source if it holds for
their keys. -/
theorem forall_lexical (statement : TokenKey → Binding NullRule → Binding LeftRule → Prop)
    (h : ∀ key ∈ lexicalKeys, statement key
      (((cTable.find? key).map TableEntry.null).getD (.inert .unregistered))
      (cTable.leftOfKey key)) :
    statement token.key (cTable.null token) (cTable.left token) :=
  h token.key hkey

theorem key_of_unregistered (h : (cTable.null token).rule = .unregistered) :
    token.key ∈ [.endOfInput, .symbol "@"] :=
  forall_lexical hkey
    (fun key null _ => null.rule = .unregistered → key ∈ [.endOfInput, .symbol "@"])
    (by decide +kernel) h

theorem key_of_notLeading (h : (cTable.null token).rule = .error) (value : String) :
    token.key ∈ (Cause.notLeading value).offenders := by
  refine forall_lexical hkey
    (fun key null _ => null.rule = .error → key ∈ (Cause.notLeading value).offenders) ?_ h
  simp only [Cause.offenders]
  decide +kernel

theorem key_of_closing (h : (cTable.null token).rule = .closing) :
    token.key ∈ [.symbol ")", .symbol "]"] :=
  forall_lexical hkey (fun key null _ => null.rule = .closing → key ∈ [.symbol ")", .symbol "]"])
    (by decide +kernel) h

/-- The tokens that hold nothing of the operand before them. -/
theorem key_of_inert (h : token.Inert) :
    token.key ∈ [.symbol ")", .symbol "]"] ∨ token.key ∈ [.symbol "~", .symbol ":"] ∨
      token.key = .endOfInput ∨ token.key ∈ [.identifier, .number, .symbol "@"] :=
  forall_lexical hkey (fun key _ left => left.leftPower = minPower →
    key ∈ [.symbol ")", .symbol "]"] ∨ key ∈ [.symbol "~", .symbol ":"] ∨
      key = .endOfInput ∨ key ∈ [.identifier, .number, .symbol "@"]) (by decide +kernel) h

/-- Apart from closing brackets there are two operators that only begin an operand. -/
theorem misplaced?_eq : cTable.misplaced? token =
    if token.key ∈ [.symbol "~", .symbol ":"] then
      some ⟨.notFollowing token.value, token.span.start⟩
    else none := by
  have hrule := forall_lexical hkey (fun key _ left =>
    key ∉ [.identifier, .number, .endOfInput] ∧ key ∉ [.symbol ")", .symbol "]"] ∧
      left.rule = .error ↔ key ∈ [.symbol "~", .symbol ":"]) (by decide +kernel)
  unfold OperatorTable.misplaced?
  refine if_congr (Iff.trans ?_ hrule) rfl rfl
  obtain ⟨kind, value, span⟩ := token
  cases kind <;> simp [Token.key, Token.isClosing, Token.is]

end Keys

end CTable

/-- What is left over behind an operand has no rule there. -/
theorem CTable.rule_of_leftover {cause : Cause} {token : Token}
    (hoffender : token.key ∈ cause.offenders) (hleftover : cause.isLeftover) :
    (cTable.left token).rule = .unregistered ∨ (cTable.left token).rule = .error := by
  have hall : ∀ key ∈ [.identifier, .number, .symbol "@", .symbol ")", .symbol "]", .endOfInput],
      (cTable.leftOfKey key).rule = .unregistered ∨ (cTable.leftOfKey key).rule = .error := by
    decide +kernel
  refine hall token.key ?_
  cases cause with
  | unmatchedDelimiter expected _ => cases expected <;> grind [Cause.offenders]
  | malformedTernary => exact hoffender
  | trailingInput => grind [Cause.offenders]
  | _ => cases hleftover

namespace Misfit

variable {expected : Option String} {token : Token} {diagnostic : Diagnostic}

/-- A token that does not fit is named where it stands, under a cause that is for it. -/
theorem classified (h : Misfit expected token diagnostic) (hkey : token.key ∈ lexicalKeys) :
    diagnostic.cause.token? = some token.value ∧ diagnostic.position = token.span.start ∧
      token.key ∈ diagnostic.cause.offenders := by
  have hmisplaced := CTable.misplaced?_eq hkey
  cases h with
  | unregistered hrule =>
      have hunregistered := CTable.key_of_unregistered hkey hrule
      exact ⟨rfl, rfl, by grind [Cause.offenders]⟩
  | notLeading hrule => exact ⟨rfl, rfl, CTable.key_of_notLeading hkey hrule _⟩
  | missing hrule =>
      have hclosing := CTable.key_of_closing hkey hrule
      exact ⟨rfl, rfl, by grind [Cause.offenders]⟩
  | unopened hrule =>
      have hclosing := CTable.key_of_closing hkey hrule
      exact ⟨rfl, rfl, by cases expected <;> grind [Cause.offenders]⟩
  | notFollowing => exact ⟨rfl, rfl, by grind [Cause.offenders]⟩
  | unclosed hexpected _ hinert =>
      have hloose := CTable.key_of_inert hkey hinert
      subst hexpected
      exact ⟨rfl, rfl, by grind [Cause.offenders]⟩
  | colonless hinert =>
      have hloose := CTable.key_of_inert hkey hinert
      exact ⟨rfl, rfl, by grind [Cause.offenders]⟩
  | surplus hexpected hclosing =>
      subst hexpected
      exact ⟨rfl, rfl, Token.isClosing_iff_key.mp hclosing⟩
  | trailing hend hclosing hinert =>
      have hloose := CTable.key_of_inert hkey hinert
      rw [Token.isEnd_iff_key] at hend
      rw [Token.isClosing_iff_key] at hclosing
      exact ⟨rfl, rfl, by grind [Cause.offenders]⟩

/-- A token is unmatched against the bracket that is due next, and is not this one. -/
theorem of_unmatched {expected' : Option String} {found : String}
    (h : Misfit expected token diagnostic)
    (hcause : diagnostic.cause = .unmatchedDelimiter expected' found) :
    expected' = expected ∧ ∀ closer, expected = some closer → ¬token.is closer := by
  cases h with
  | unopened _ hexpected =>
      cases hcause
      refine ⟨rfl, ?_⟩
      rintro closer rfl hcloser
      simp only [Token.is, Bool.and_eq_true, decide_eq_true_eq] at hcloser
      exact hexpected (congrArg some hcloser.2.symm)
  | unclosed hexpected hcloser =>
      cases hcause
      refine ⟨rfl, ?_⟩
      rintro _ rfl
      cases hexpected
      exact hcloser
  | surplus hexpected =>
      cases hcause
      exact ⟨rfl, by simp [hexpected]⟩
  | _ => cases hcause

/-- A token in place of an operand has no role, or is the bracket that is due next. -/
theorem of_unexpected {text : String} (h : Misfit expected token diagnostic)
    (hcause : diagnostic.cause = .unexpectedToken text) :
    (cTable.null token).rule = .unregistered ∨ expected = some token.value := by
  cases h with
  | unregistered hrule => exact .inl hrule
  | missing _ hexpected => exact .inr hexpected
  | _ => cases hcause

end Misfit

namespace Parser

variable {source : String} {diagnostic : Diagnostic}

/-- A diagnostic that names a token is for one that does not fit behind those before it. -/
theorem misfit_of_refusal {limit : Nat} {value : String}
    (h : (ofC limit).parse source = .error diagnostic)
    (htells : diagnostic.cause.token? = some value) :
    ∃ front token rest due, TokenStream.ofSource source = front.map .ok ++ .ok token :: rest ∧
      closersDue? front = some due ∧ Misfit due.head? token diagnostic ∧
      value = token.value ∧ diagnostic.position = token.span.start := by
  cases (accounted_run limit source).1 diagnostic h with
  | broken hmem =>
      obtain ⟨c, place, rfl⟩ := TokenStream.foreign_of_error hmem
      cases htells
  | tooDeep => cases htells
  | target => cases htells
  | @misfit front token rest due _ hstream hdue hmisfit =>
      have hmem : .ok token ∈ TokenStream.ofSource source := by simp [hstream]
      obtain ⟨hnames, hposition, _⟩ := hmisfit.classified (TokenStream.key_of_ok hmem).1
      have hvalue : value = token.value := Option.some.inj (htells.symm.trans hnames)
      exact ⟨front, token, rest, due, hstream, hdue, hmisfit, hvalue, hposition⟩

/-- Unmatched brackets are told by the innermost open one. The brackets before the place
of such a diagnostic match; the diagnostic expects the one that closes the innermost of
those left open, or none if none is, and does not find it. And a closing bracket that is
reported because an operand is missing before it is the one that is due. -/
theorem unmatched_innermost (limit : Nat) {source : String} {diagnostic : Diagnostic}
    (hlength : source.utf8ByteSize < 0x100000000)
    (h : (ofC limit).parse source = .error diagnostic) :
    (∀ expected found, diagnostic.cause = .unmatchedDelimiter expected found →
      ∃ due token,
        closersDue? ((TokenStream.ofSource source).before diagnostic.position) = some due ∧
        expected = due.head? ∧
        (TokenStream.ofSource source).at? diagnostic.position = some token ∧
        found = token.value ∧ ∀ closer, expected = some closer → ¬token.is closer) ∧
    ∀ closer ∈ [")", "]"], diagnostic.cause = .unexpectedToken closer →
      ∃ outer, closersDue? ((TokenStream.ofSource source).before diagnostic.position) =
        some (closer :: outer) := by
  have hordered := TokenStream.starts_ordered hlength
  constructor
  · intro expected found hcause
    have htells : diagnostic.cause.token? = some found := by
      rw [hcause]
      rfl
    obtain ⟨front, token, rest, due, hstream, hdue, hmisfit, hvalue, hposition⟩ :=
      misfit_of_refusal h htells
    obtain ⟨rfl, hcloser⟩ := hmisfit.of_unmatched hcause
    rw [hposition, TokenStream.before_start hordered hstream,
      TokenStream.at?_start hordered hstream]
    exact ⟨due, token, hdue, rfl, rfl, hvalue, hcloser⟩
  · intro closer hcloser hcause
    have htells : diagnostic.cause.token? = some closer := by
      rw [hcause]
      rfl
    obtain ⟨front, token, rest, due, hstream, hdue, hmisfit, rfl, hposition⟩ :=
      misfit_of_refusal h htells
    rw [hposition, TokenStream.before_start hordered hstream]
    rcases hmisfit.of_unexpected hcause with hrule | hexpected
    · -- The end of the input and the symbol without a role are no brackets.
      have hmem : .ok token ∈ TokenStream.ofSource source := by simp [hstream]
      obtain ⟨hkey, hend⟩ := TokenStream.key_of_ok hmem
      have hvalue : token.value ∈ ["EOF", "@"] := by
        rcases List.mem_cons.mp (CTable.key_of_unregistered hkey hrule) with hlast | hother
        · simp [hend (Token.isEnd_iff_key.mpr hlast)]
        · simp [Token.value_of_key (List.mem_singleton.mp hother)]
      have hnone : ∀ text ∈ ["EOF", "@"], text ∉ [")", "]"] := by decide
      exact absurd hcloser (hnone _ hvalue)
    · obtain ⟨outer, rfl⟩ := List.head?_eq_some_iff.mp hexpected
      exact ⟨outer, hdue⟩

/-- The parenthesis is closed while the bracket inside it is still open. -/
theorem unmatched_innermost_index :
    "f(a[b)".utf8ByteSize < 0x100000000 ∧
      (ofC 8).parse "f(a[b)" = .error ⟨.unmatchedDelimiter (some "]") ")", 5⟩ ∧
      ∃ due token, closersDue? ((TokenStream.ofSource "f(a[b)").before 5) = some due ∧
        some "]" = due.head? ∧ (TokenStream.ofSource "f(a[b)").at? 5 = some token ∧
        ")" = token.value ∧ ∀ closer, some "]" = some closer → ¬token.is closer := by
  have hlength : "f(a[b)".utf8ByteSize < 0x100000000 := by decide +kernel
  have h : (ofC 8).parse "f(a[b)" = .error ⟨.unmatchedDelimiter (some "]") ")", 5⟩ := by
    decide +kernel
  exact ⟨hlength, h, (unmatched_innermost 8 hlength h).1 _ _ rfl⟩

/-- Each cause is reported for tokens of its own kind. What is called left over, unmatched
or in place of a colon has no rule behind an operand, and what has none is never taken
there. -/
theorem refusal_classified (limit : Nat) (source : String) :
    (∀ diagnostic value, (ofC limit).parse source = .error diagnostic →
      diagnostic.cause.token? = some value →
      ∃ token, .ok token ∈ TokenStream.ofSource source ∧
        diagnostic.position = token.span.start ∧ value = token.value ∧
        (token.isEnd → value = "EOF") ∧ token.key ∈ diagnostic.cause.offenders ∧
        (diagnostic.cause.isLeftover →
          (cTable.left token).rule = .unregistered ∨ (cTable.left token).rule = .error)) ∧
    ∀ token binding, .left token binding ∈ ((ofC limit).run source).events →
      binding.rule ≠ .unregistered ∧ binding.rule ≠ .error := by
  obtain ⟨_, hevents⟩ := accounted_run limit source
  refine ⟨?_, fun token binding hevent => hevents _ hevent⟩
  intro diagnostic value h htells
  obtain ⟨front, token, rest, due, hstream, _, hmisfit, rfl, hposition⟩ :=
    misfit_of_refusal h htells
  have hmem : .ok token ∈ TokenStream.ofSource source := by simp [hstream]
  obtain ⟨hkey, hend⟩ := TokenStream.key_of_ok hmem
  obtain ⟨_, _, hoffender⟩ := hmisfit.classified hkey
  exact ⟨token, hmem, hposition, rfl, hend, hoffender, CTable.rule_of_leftover hoffender⟩

/-- An operand where the colon of a conditional is missing. -/
theorem refusal_classified_colon :
    (ofC 8).parse "a ? b c" = .error ⟨.malformedTernary "c", 6⟩ ∧
      ∃ token, .ok token ∈ TokenStream.ofSource "a ? b c" ∧ 6 = token.span.start ∧
        "c" = token.value ∧ (token.isEnd → "c" = "EOF") ∧
        token.key ∈ (Cause.malformedTernary "c").offenders ∧
        ((Cause.malformedTernary "c").isLeftover →
          (cTable.left token).rule = .unregistered ∨ (cTable.left token).rule = .error) := by
  have h : (ofC 8).parse "a ? b c" = .error ⟨.malformedTernary "c", 6⟩ := by decide +kernel
  exact ⟨h, (refusal_classified 8 "a ? b c").1 _ _ h rfl⟩

end Parser

end Precedence
