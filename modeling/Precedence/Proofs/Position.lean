import Precedence.Proofs.LexicalErrors
import Precedence.Proofs.Segmentation

/-!
Every diagnostic points at what it names. The tokens of a source stand where they were
read, the end of the input stands behind the last byte, and what is built from tokens
begins where one of them does. A parse looks at nothing else, so it reports nothing
anywhere else.
-/

namespace Precedence

open Text

/-- The end of a leading part of a source is a place between its characters. -/
theorem isValid_of_split {source : String} {before behind : List Char}
    (h : source.toList = before ++ behind) :
    String.Pos.Raw.IsValid source ⟨byteLength before⟩ := by
  apply String.Pos.Raw.isValid_iff_exists_append.mpr
  refine ⟨String.ofList before, String.ofList behind, ?_, ?_⟩
  · rw [← String.ofList_append, ← h, String.ofList_toList]
  · rw [String.rawEndPos, ← byteLength_toList, String.toList_ofList]

namespace TokenStream

/-- A token other than the end of the input begins at the place. -/
def StartsWord (stream : TokenStream) (place : Nat) : Prop :=
  ∃ token, .ok token ∈ stream ∧ ¬token.isEnd ∧ place = token.span.start

/-- The stream of a source ends with the end of the input or with the character that
begins no token. -/
theorem exists_front (source : String) :
    ∃ front position rest last, Scans 0 source.toList front position rest ∧
      ofSource source = front.map .ok ++ [last] ∧
      (rest = [] ∧ last = .ok (.endAt position) ∨
        ∃ c behind, rest = c :: behind ∧
          last = .error ⟨.foreignCharacter c, offset position⟩) := by
  obtain ⟨front, position, hscans | ⟨c, behind, hscans, hseparator, hlexeme⟩⟩ :=
    exists_scans 0 source.toList
  · exact ⟨front, position, [], _, hscans, by simp [hscans.ofSource_eq], .inl ⟨rfl, rfl⟩⟩
  · refine ⟨front, position, c :: behind, _, hscans, ?_, .inr ⟨c, behind, rfl, rfl⟩⟩
    rw [ofSource, hscans.scan_eq, scan_stuck hseparator hlexeme]

/-- An item of a source is one of the tokens that were read, or it is what the stream ends
with. -/
theorem exists_items (source : String) :
    ∃ front position rest, Scans 0 source.toList front position rest ∧
      (∀ token, .ok token ∈ ofSource source →
        token ∈ front ∨ rest = [] ∧ token = .endAt position) ∧
      ∀ diagnostic, .error diagnostic ∈ ofSource source →
        ∃ c behind, rest = c :: behind ∧ diagnostic = ⟨.foreignCharacter c, offset position⟩ := by
  obtain ⟨front, position, rest, last, hscans, hstream, hlast⟩ := exists_front source
  refine ⟨front, position, rest, hscans, ?_, ?_⟩
  · intro token htoken
    rw [hstream, List.mem_append, List.mem_singleton] at htoken
    rcases htoken with htoken | rfl
    · exact .inl (by simpa using htoken)
    · rcases hlast with ⟨hrest, hlast⟩ | ⟨c, behind, _, hlast⟩
      · exact .inr ⟨hrest, Except.ok.inj hlast⟩
      · cases hlast
  · intro diagnostic hdiagnostic
    rw [hstream, List.mem_append, List.mem_singleton] at hdiagnostic
    rcases hdiagnostic with hdiagnostic | rfl
    · simp at hdiagnostic
    · rcases hlast with ⟨_, hlast⟩ | ⟨c, behind, hrest, hlast⟩
      · cases hlast
      · exact ⟨c, behind, hrest, Except.error.inj hlast⟩

section Items

variable {source : String} (hlength : source.utf8ByteSize < 0x100000000)

include hlength

/-- The tokens of a source stand where they were read, and the end of the input behind
all of it. -/
theorem place_of_ok {token : Token} (h : .ok token ∈ ofSource source) :
    token = ⟨.endOfInput, "EOF", source.utf8ByteSize, source.utf8ByteSize⟩ ∨
      ¬token.isEnd ∧ token.span.start < source.utf8ByteSize ∧
        String.Pos.Raw.IsValid source ⟨token.span.start⟩ := by
  obtain ⟨front, position, rest, hscans, htokens, _⟩ := exists_items source
  rcases htokens token h with hmem | ⟨rfl, rfl⟩
  · obtain ⟨before, kind, value, behind, hsource, hlexeme, rfl⟩ :=
      hscans.place_of_source hlength hmem
    have hpos := lexeme?_pos hlexeme
    have hsize := byteLength_toList source
    rw [hsource, byteLength_append, byteLength_append] at hsize
    refine .inr ⟨by simpa [Token.isEnd] using lexeme?_kind_ne_end hlexeme, ?_,
      isValid_of_split hsource⟩
    dsimp only
    omega
  · rw [hscans.position_eq]
    exact .inl (Token.endAt_of_lt hlength)

/-- A source breaks off at the character that it is reported to break off at. -/
theorem place_of_error {diagnostic : Diagnostic} (h : .error diagnostic ∈ ofSource source) :
    ∃ before c behind, source.toList = before ++ c :: behind ∧
      diagnostic = ⟨.foreignCharacter c, byteLength before⟩ := by
  obtain ⟨front, position, rest, hscans, _, hbroken⟩ := exists_items source
  obtain ⟨c, behind, rfl, rfl⟩ := hbroken diagnostic h
  obtain ⟨before, hsource, hposition, hsize⟩ := hscans.split_source
  refine ⟨before, c, behind, hsource, ?_⟩
  rw [hposition, offset_of_lt (by omega)]

theorem StartsWord.place {place : Nat} (h : (ofSource source).StartsWord place) :
    place < source.utf8ByteSize ∧ String.Pos.Raw.IsValid source ⟨place⟩ := by
  obtain ⟨token, hmem, hend, rfl⟩ := h
  rcases place_of_ok hlength hmem with rfl | ⟨_, hplace⟩
  · exact absurd rfl hend
  · exact hplace

end Items

/-- A stream corresponds to itself, with spans that begin where a token does, if the end
of the input stands behind all others. -/
def wordStarts (table : OperatorTable) (stream : TokenStream)
    (h : ∀ {place t}, stream.StartsWord place → .ok t ∈ stream → t.isEnd → place ≤ t.span.start) :
    Correspondence table table :=
  stream.diagonal table (fun s => stream.StartsWord s.start) (fun ht hend => ⟨_, ht, hend, rfl⟩)
    (min_rec' stream.StartsWord) fun {s t} hs ht => by
      by_cases hend : t.isEnd
      · have hle := h hs ht hend
        rwa [Span.join, Nat.min_eq_left hle]
      · exact min_rec' stream.StartsWord hs ⟨t, ht, hend, rfl⟩

theorem wordStarts_items (table : OperatorTable) (stream : TokenStream)
    (h : ∀ {place t}, stream.StartsWord place → .ok t ∈ stream → t.isEnd → place ≤ t.span.start) :
    List.Forall₂ (stream.wordStarts table h).Items stream stream :=
  Correspondence.items_refl (fun h => ⟨rfl, h⟩) (fun h => ⟨rfl, h⟩)

end TokenStream

/-- What the diagnostic tells of the source is found at its place. -/
def Diagnostic.Points (source : String) (limit : Nat) (diagnostic : Diagnostic) : Prop :=
  match diagnostic.cause with
  | .foreignCharacter c =>
      ∃ behind, dropBytes? diagnostic.position source.toList = some (c :: behind)
  | .unexpectedToken value | .notLeading value | .notFollowing value
  | .unmatchedDelimiter _ value | .malformedTernary value | .trailingInput value =>
      (∃ token, .ok token ∈ TokenStream.ofSource source ∧ ¬token.isEnd ∧
          diagnostic.position = token.span.start ∧ value = token.value) ∨
        diagnostic.position = source.utf8ByteSize ∧ value = "EOF"
  | .invalidTarget _ => (TokenStream.ofSource source).StartsWord diagnostic.position
  | .tooDeep depth =>
      depth = limit ∧ ((TokenStream.ofSource source).StartsWord diagnostic.position ∨
        diagnostic.position = source.utf8ByteSize)

/-- A diagnostic that names a token of the source points at it. -/
theorem Diagnostic.Points.of_names {source : String} {limit : Nat} {token : Token}
    {diagnostic : Diagnostic} (hlength : source.utf8ByteSize < 0x100000000)
    (hmem : .ok token ∈ TokenStream.ofSource source)
    (hposition : diagnostic.position = token.span.start)
    (hnames : diagnostic.cause.Names limit token) : diagnostic.Points source limit := by
  have hend : ¬token.isEnd ∨ token.span.start = source.utf8ByteSize ∧ token.value = "EOF" := by
    rcases TokenStream.place_of_ok hlength hmem with rfl | ⟨hnot, _⟩
    · exact .inr ⟨rfl, rfl⟩
    · exact .inl hnot
  obtain ⟨cause, position⟩ := diagnostic
  cases hposition
  cases cause with
  | foreignCharacter => exact hnames.elim
  | invalidTarget => exact hnames.elim
  | tooDeep =>
      exact ⟨hnames, hend.imp (fun hnot => ⟨token, hmem, hnot, rfl⟩) And.left⟩
  | _ =>
      refine hend.imp (fun hnot => ⟨token, hmem, hnot, rfl, hnames⟩) ?_
      rintro ⟨hstart, hvalue⟩
      exact ⟨hstart, hnames.trans hvalue⟩

namespace Parser

variable {parser : Parser} {source : String} {diagnostic : Diagnostic}

/-- What a source is refused for is in its stream, is named at one of its tokens, or is an
expression that begins with one of them. -/
theorem place_of_refusal (hlength : source.utf8ByteSize < 0x100000000)
    (h : parser.parse source = .error diagnostic) :
    .error diagnostic ∈ TokenStream.ofSource source ∨
      (∃ token, .ok token ∈ TokenStream.ofSource source ∧
        diagnostic.position = token.span.start ∧ diagnostic.cause.Names parser.limit token) ∨
      (∃ text, diagnostic.cause = .invalidTarget text) ∧
        (TokenStream.ofSource source).StartsWord diagnostic.position := by
  have hlast : ∀ {place t}, (TokenStream.ofSource source).StartsWord place →
      .ok t ∈ TokenStream.ofSource source → t.isEnd → place ≤ t.span.start := by
    intro place token hword hmem hend
    rcases TokenStream.place_of_ok hlength hmem with rfl | ⟨hnot, _⟩
    · exact Nat.le_of_lt (hword.place hlength).1
    · exact absurd hend hnot
  obtain ⟨_, _, hdiagnostics⟩ := (((TokenStream.ofSource source).wordStarts parser.table hlast).runs
    parser.limit (TokenStream.wordStarts_items parser.table _ hlast)).of_error h
  cases hdiagnostics with
  | broken hbroken => exact .inl hbroken.2
  | @named _ token _ htoken hcause => exact .inr (.inl ⟨token, htoken.2, rfl, hcause⟩)
  | target hexpr => exact .inr (.inr ⟨⟨_, rfl⟩, hexpr.span⟩)

/-- Every diagnostic points at what it names, whatever the table and the limit. Its place
is in the source or at its end, and never inside a character. -/
theorem refusal_points (parser : Parser) {source : String} {diagnostic : Diagnostic}
    (hlength : source.utf8ByteSize < 0x100000000)
    (h : parser.parse source = .error diagnostic) :
    diagnostic.position ≤ source.utf8ByteSize ∧
      String.Pos.Raw.IsValid source ⟨diagnostic.position⟩ ∧
      diagnostic.Points source parser.limit := by
  rcases place_of_refusal hlength h with hbroken | ⟨token, hmem, hposition, hnames⟩ |
    ⟨⟨text, hcause⟩, hword⟩
  · obtain ⟨before, c, behind, hsource, rfl⟩ := TokenStream.place_of_error hlength hbroken
    have hsize := byteLength_toList source
    rw [hsource, byteLength_append] at hsize
    refine ⟨?_, isValid_of_split hsource, behind, ?_⟩
    · dsimp only
      omega
    · rw [hsource]
      exact dropBytes?_byteLength_append before (c :: behind)
  · have hplace : token.span.start ≤ source.utf8ByteSize ∧
        String.Pos.Raw.IsValid source ⟨token.span.start⟩ := by
      rcases TokenStream.place_of_ok hlength hmem with rfl | ⟨_, hlt, hvalid⟩
      · have hvalid := isValid_of_split (List.append_nil source.toList).symm
        rw [byteLength_toList] at hvalid
        exact ⟨Nat.le_refl _, hvalid⟩
      · exact ⟨Nat.le_of_lt hlt, hvalid⟩
    rw [← hposition] at hplace
    exact ⟨hplace.1, hplace.2, .of_names hlength hmem hposition hnames⟩
  · obtain ⟨hlt, hvalid⟩ := hword.place hlength
    refine ⟨Nat.le_of_lt hlt, hvalid, ?_⟩
    rw [Diagnostic.Points, hcause]
    exact hword

/-- What cannot be assigned to begins behind its parenthesis, not at the operator. -/
theorem refusal_points_target :
    "x ? ++(a+1) : é".utf8ByteSize < 0x100000000 ∧
      (ofC 8).parse "x ? ++(a+1) : é" = .error ⟨.invalidTarget "(+ a 1)", 7⟩ ∧
      7 ≤ "x ? ++(a+1) : é".utf8ByteSize ∧
      String.Pos.Raw.IsValid "x ? ++(a+1) : é" ⟨7⟩ ∧
      (TokenStream.ofSource "x ? ++(a+1) : é").StartsWord 7 := by
  have hlength : "x ? ++(a+1) : é".utf8ByteSize < 0x100000000 := by decide +kernel
  have h : (ofC 8).parse "x ? ++(a+1) : é" = .error ⟨.invalidTarget "(+ a 1)", 7⟩ := by
    decide +kernel
  exact ⟨hlength, h, refusal_points (.ofC 8) hlength h⟩

end Parser

end Precedence
