import Precedence.Proofs.Scanning

/-!
The tokens of a source cut it into its longest lexemes. The lexical classes are described
by themselves here, without the order in which they are tried; the order of the symbols
makes the first one that is found the longest. Between the tokens there are separators
only, so nothing of the source is lost.
-/

namespace Precedence

inductive IsLexeme : TokenKind → List Char → Prop
  | whole {digits : List Char} (hne : digits ≠ []) (hdigits : ∀ c ∈ digits, c.isDigit) :
      IsLexeme .number digits
  | fraction {digits behind : List Char} (hne : digits ≠ []) (hdigits : ∀ c ∈ digits, c.isDigit)
      (hbehind : ∀ c ∈ behind, c.isDigit) : IsLexeme .number (digits ++ '.' :: behind)
  | identifier {c : Char} {others : List Char} (hstart : isWordStart c)
      (hothers : ∀ c ∈ others, isWordPart c) : IsLexeme .identifier (c :: others)
  | operator {symbol : String} (hsymbol : symbol ∈ operatorSymbols ∨ symbol ∈ punctuation) :
      IsLexeme .operator symbol.toList

/-- What is read at the front of a text is of the class it is read as. -/
theorem isLexeme_of_lexeme? {kind : TokenKind} {text value : List Char}
    (h : lexeme? text = some (kind, value)) : IsLexeme kind value := by
  cases text with
  | nil => cases h
  | cons c others =>
      simp only [lexeme?] at h
      split at h
      · rename_i hdigit
        cases h
        obtain ⟨behind, hcons⟩ := numberText_cons hdigit others
        obtain ⟨digits, hdigits, hshape | ⟨fraction, hfraction, hshape⟩⟩ :=
          numberText_shape (c :: others)
        · rw [hshape] at hcons ⊢
          exact .whole (by simp [hcons]) hdigits
        · rw [hshape] at hcons ⊢
          refine .fraction ?_ hdigits hfraction
          rintro rfl
          obtain rfl : '.' = c := (List.cons.inj hcons).1
          exact absurd hdigit (by decide)
      · split at h
        · rename_i hstart
          cases h
          exact .identifier hstart fun c hc => List.mem_takeWhile_imp hc
        · obtain ⟨symbol, hfound, hvalue⟩ := Option.map_eq_some_iff.mp h
          cases hvalue
          obtain ⟨symbol, hsymbol, rfl⟩ := List.mem_map.mp (leadingSymbol?_cons hfound).1
          exact .operator (List.mem_append.mp hsymbol).symm

theorem IsLexeme.number_cons {text : List Char} (h : IsLexeme .number text) :
    ∃ c others, text = c :: others ∧ c.isDigit := by
  cases h with
  | whole hne hdigits =>
      obtain ⟨c, others, rfl⟩ := List.exists_cons_of_ne_nil hne
      exact ⟨c, others, rfl, hdigits c (by simp)⟩
  | fraction hne hdigits _ =>
      obtain ⟨c, others, rfl⟩ := List.exists_cons_of_ne_nil hne
      exact ⟨c, _, rfl, hdigits c (by simp)⟩

/-- A number is all of the number that it begins with. -/
theorem numberText_of_isLexeme {text : List Char} (h : IsLexeme .number text) :
    numberText text = text := by
  cases h with
  | whole hne hdigits => simp [numberText, List.takeWhile_eq_self_iff.mpr hdigits,
      List.dropWhile_eq_nil_iff.mpr hdigits]
  | @fraction digits behind hne hdigits hbehind =>
      have hdot : ¬('.' : Char).isDigit := by decide
      simp [numberText, List.takeWhile_append_of_pos hdigits,
        List.dropWhile_append_of_pos hdigits, hdot, List.takeWhile_eq_self_iff.mpr hbehind]

/-- No symbol stands in the list before a longer one that it begins. -/
theorem symbols_longest_first :
    ((punctuation ++ operatorSymbols).map String.toList).Pairwise fun symbol later =>
      ¬symbol <+: later := by
  decide +kernel

/-- The first symbol that is found is the longest. -/
theorem prefix_of_leadingSymbol? {symbol other text : List Char}
    (h : leadingSymbol? (punctuation ++ operatorSymbols) text = some symbol)
    (hother : other ∈ (punctuation ++ operatorSymbols).map String.toList)
    (hbegins : other <+: text) : other <+: symbol := by
  obtain ⟨hleads, before, behind, hall, hbefore⟩ := List.find?_eq_some_iff_append.mp h
  have hsymbol : symbol <+: text := List.isPrefixOf_iff_prefix.mp hleads
  have hordered := symbols_longest_first
  rw [hall] at hother hordered
  rcases Nat.le_total other.length symbol.length with hle | hle
  · exact List.prefix_of_prefix_length_le hbegins hsymbol hle
  · have hshort := List.prefix_of_prefix_length_le hsymbol hbegins hle
    rcases List.mem_append.mp hother with hmem | hmem
    · have hnot := hbefore other hmem
      rw [List.isPrefixOf_iff_prefix.mpr hbegins] at hnot
      cases hnot
    · rcases List.mem_cons.mp hmem with rfl | hmem
      · exact List.prefix_rfl
      · have hlater := (List.pairwise_append.mp hordered).2.1
        exact absurd hshort ((List.pairwise_cons.mp hlater).1 other hmem)

/-- Symbols begin with no digit, letter or underscore. -/
theorem symbol_cons {symbol : List Char}
    (h : symbol ∈ (punctuation ++ operatorSymbols).map String.toList) :
    ∃ c others, symbol = c :: others ∧ ¬c.isDigit ∧ ¬isWordStart c := by
  have hall : ((punctuation ++ operatorSymbols).map String.toList).all fun symbol =>
      symbol.head?.any fun c => !c.isDigit && !isWordStart c := by
    decide +kernel
  have hsymbol := List.all_eq_true.mp hall symbol h
  cases symbol with
  | nil => cases hsymbol
  | cons c others => exact ⟨c, others, rfl, by simpa using hsymbol⟩

/-- The digits stand before the letters and the underscore. -/
theorem not_isWordStart_of_isDigit {c : Char} (h : c.isDigit) : ¬isWordStart c := by
  have hdigit : c.val ≤ '9'.val := of_decide_eq_true (Bool.and_eq_true_iff.mp h).2
  intro hstart
  rcases Bool.or_eq_true_iff.mp hstart with halpha | hunderscore
  · rcases Bool.or_eq_true_iff.mp halpha with hupper | hlower
    · exact absurd (UInt32.le_trans (of_decide_eq_true hupper).1 hdigit) (by decide)
    · have hlow := of_decide_eq_true (Bool.and_eq_true_iff.mp hlower).1
      exact absurd (UInt32.le_trans hlow hdigit) (by decide)
  · rw [of_decide_eq_true hunderscore] at h
    exact absurd h (by decide)

/-- Whatever lexeme a text begins with, of any class, begins the one that is read. -/
theorem lexeme?_longest {kind kind' : TokenKind} {text value other : List Char}
    (h : lexeme? text = some (kind, value)) (hother : IsLexeme kind' other)
    (hbegins : other <+: text) : other <+: value := by
  cases kind' with
  | endOfInput => cases hother
  | number =>
      obtain ⟨c, digits, rfl, hdigit⟩ := hother.number_cons
      have hmono := numberText_prefix_mono hbegins
      obtain ⟨behind, rfl⟩ := hbegins
      rw [List.cons_append] at h hmono
      rw [lexeme?, if_pos hdigit] at h
      cases h
      rwa [numberText_of_isLexeme hother] at hmono
  | identifier =>
      cases hother with
      | @identifier c inside hstart hinside =>
          have hdigit : ¬c.isDigit := fun hdigit => not_isWordStart_of_isDigit hdigit hstart
          obtain ⟨behind, rfl⟩ := hbegins
          rw [List.cons_append, lexeme?, if_neg hdigit, if_pos hstart] at h
          cases h
          have hmono := @takeWhile_prefix_mono isWordPart _ _ (List.prefix_append inside behind)
          rw [List.takeWhile_eq_self_iff.mpr hinside] at hmono
          exact List.cons_prefix_cons.mpr ⟨rfl, hmono⟩
  | operator =>
      cases hother with
      | @operator symbol hsymbol =>
          have hmem : symbol.toList ∈ (punctuation ++ operatorSymbols).map String.toList :=
            List.mem_map_of_mem (List.mem_append.mpr hsymbol.symm)
          obtain ⟨c, others, hcons, hdigit, hstart⟩ := symbol_cons hmem
          obtain ⟨behind, rfl⟩ := hbegins
          rw [hcons, List.cons_append, lexeme?, if_neg hdigit, if_neg hstart, ← List.cons_append,
            ← hcons] at h
          obtain ⟨found, hfound, hvalue⟩ := Option.map_eq_some_iff.mp h
          cases hvalue
          exact prefix_of_leadingSymbol? hfound hmem (List.prefix_append _ _)

/-! Places in a text, in bytes of its UTF-8 form. -/

namespace Text

/-- Every byte of a text is one of some character. -/
theorem exists_character {text : List Char} {i : Nat} (h : i < byteLength text) :
    ∃ before c behind, text = before ++ c :: behind ∧ byteLength before ≤ i ∧
      i < byteLength before + c.utf8Size := by
  induction text generalizing i with
  | nil => cases h
  | cons c text ih =>
      by_cases hfirst : i < c.utf8Size
      · exact ⟨[], c, text, rfl, Nat.zero_le i, by simpa using hfirst⟩
      · rw [byteLength_cons] at h
        obtain ⟨before, c', behind, rfl, hle, hlt⟩ := @ih (i - c.utf8Size) (by omega)
        refine ⟨c :: before, c', behind, rfl, ?_, ?_⟩
        · rw [byteLength_cons]
          omega
        · rw [byteLength_cons]
          omega

end Text

def Span.Covers (span : Span) (source text : String) : Prop :=
  span.stop ≤ source.utf8ByteSize ∧
    source.toByteArray.extract span.start span.stop = text.toByteArray

namespace Scans

variable {position position' : Nat} {text rest : List Char} {tokens : List Token}

/-- Every token that a scan has read is a lexeme that was read at its place. -/
theorem place (h : Scans position text tokens position' rest) {token : Token}
    (htoken : token ∈ tokens) :
    ∃ before kind value behind, text = before ++ (value ++ behind) ∧
      lexeme? (value ++ behind) = some (kind, value) ∧
      token = ⟨kind, String.ofList value,
        .ofLength (position + Text.byteLength before) (Text.byteLength value)⟩ := by
  induction h with
  | here => cases htoken
  | @separator position _ c text _ _ _ _ ih =>
      obtain ⟨before, kind, value, behind, rfl, hlexeme, rfl⟩ := ih htoken
      exact ⟨c :: before, kind, value, behind, rfl, hlexeme, by simp [Nat.add_assoc]⟩
  | @token position _ kind value text _ _ hlexeme _ ih =>
      rcases List.mem_cons.mp htoken with rfl | htoken
      · exact ⟨[], kind, value, text, rfl, hlexeme, by simp⟩
      · obtain ⟨before, kind', value', behind, rfl, hlexeme', rfl⟩ := ih htoken
        exact ⟨value ++ before, kind', value', behind, by simp, hlexeme', by simp [Nat.add_assoc]⟩

/-- The tokens that a scan has read stand between its ends, one behind the other. -/
theorem ordered (h : Scans position text tokens position' rest)
    (hbound : position' < 0x100000000) :
    tokens.Pairwise (·.span.stop ≤ ·.span.start) ∧ ∀ token ∈ tokens,
      position ≤ token.span.start ∧ token.span.start < token.span.stop ∧
        token.span.stop ≤ position' := by
  induction h with
  | here => simp
  | separator _ _ ih =>
      obtain ⟨hpairwise, hinside⟩ := ih hbound
      refine ⟨hpairwise, fun token htoken => ?_⟩
      have := hinside token htoken
      omega
  | @token position position' kind value text _ _ hlexeme hbehind ih =>
      obtain ⟨hpairwise, hinside⟩ := ih hbound
      obtain ⟨before, _, hposition⟩ := hbehind.split
      have hpos := lexeme?_pos hlexeme
      have hstart := @offset_of_lt position (by omega)
      have hstop := @offset_of_lt (position + Text.byteLength value) (by omega)
      simp only [List.pairwise_cons, List.forall_mem_cons, Span.ofLength, hstart, hstop]
      refine ⟨⟨fun token htoken => (hinside token htoken).1, hpairwise⟩, by omega, ?_⟩
      intro token htoken
      have := hinside token htoken
      omega

/-- A character of a text in two parts stands in the second or in the first. -/
theorem append_cons_cases {first second before behind : List Char} {c : Char}
    (h : first ++ second = before ++ c :: behind) :
    (∃ others, before = first ++ others ∧ second = others ++ c :: behind) ∨
      ∃ others, first = before ++ c :: others := by
  rcases List.append_eq_append_iff.mp h with ⟨others, hbefore, hsecond⟩ | ⟨others, hfirst, hsecond⟩
  · exact .inl ⟨others, hbefore, hsecond⟩
  · cases others with
    | nil => exact .inl ⟨[], by simp [hfirst], hsecond.symm⟩
    | cons c' others =>
        obtain rfl := (List.cons.inj hsecond).1
        exact .inr ⟨others, hfirst⟩

/-- A character that a scan has moved over belongs to a token or is a separator. -/
theorem inside_or_separator (h : Scans position text tokens position' [])
    (hbound : position' < 0x100000000) {before behind : List Char} {c : Char}
    (htext : text = before ++ c :: behind) :
    isSeparator c ∨ ∃ token ∈ tokens, token.span.start ≤ position + Text.byteLength before ∧
      position + Text.byteLength before + c.utf8Size ≤ token.span.stop := by
  generalize hrest : ([] : List Char) = rest at h
  induction h generalizing before with
  | here => simp [← hrest] at htext
  | @separator position _ first text _ _ hseparator _ ih =>
      cases before with
      | nil =>
          obtain rfl := (List.cons.inj htext).1
          exact .inl hseparator
      | cons _ before =>
          obtain ⟨rfl, hothers⟩ := List.cons.inj htext
          simpa [Nat.add_assoc] using ih hbound hothers hrest
  | @token position position' kind value text _ _ hlexeme hbehind ih =>
      rcases append_cons_cases htext with ⟨others, rfl, hothers⟩ | ⟨others, rfl⟩
      · have hinside := ih hbound hothers hrest
        rw [Nat.add_assoc position, ← Text.byteLength_append] at hinside
        exact hinside.imp_right fun ⟨other, hother, hplace⟩ => ⟨other, .tail _ hother, hplace⟩
      · refine .inr ⟨_, .head _, ?_⟩
        obtain ⟨moved, _, hposition⟩ := hbehind.split
        rw [Text.byteLength_append, Text.byteLength_cons] at hposition ⊢
        simp only [Span.ofLength]
        rw [offset_of_lt (by omega), offset_of_lt (by omega)]
        omega

end Scans

def separatorBytes : List UInt8 := [0x20, 0x09, 0x0D, 0x0A]

theorem utf8Encode_separator {c : Char} (h : isSeparator c) :
    ∃ byte ∈ separatorBytes, [c].utf8Encode = ⟨#[byte]⟩ := by
  simp only [isSeparator, Bool.or_eq_true, decide_eq_true_eq] at h
  rcases h with ((rfl | rfl) | rfl) | rfl
  · exact ⟨0x20, by decide, rfl⟩
  · exact ⟨0x09, by decide, rfl⟩
  · exact ⟨0x0D, by decide, rfl⟩
  · exact ⟨0x0A, by decide, rfl⟩

/-- A separator in a source is one byte, and the byte of a separator. -/
theorem separator_byte {source : String} {before behind : List Char} {c : Char}
    (hsource : source.toList = before ++ c :: behind) (hseparator : isSeparator c) {i : Nat}
    (hi : i < source.toByteArray.size) (hle : Text.byteLength before ≤ i)
    (hlt : i < Text.byteLength before + c.utf8Size) : source.toByteArray[i] ∈ separatorBytes := by
  obtain ⟨byte, hbyte, hencode⟩ := utf8Encode_separator hseparator
  have hbytes : source.toByteArray = before.utf8Encode ++ (⟨#[byte]⟩ ++ behind.utf8Encode) := by
    rw [← String.utf8Encode_toList, hsource, List.utf8Encode_append, List.utf8Encode_cons, hencode]
  have hone : c.utf8Size = 1 := by
    have hsize := Text.byteLength_eq_size [c]
    rwa [hencode, Text.byteLength_cons, Text.byteLength_nil] at hsize
  obtain rfl : i = before.utf8Encode.size := by
    rw [← Text.byteLength_eq_size]
    omega
  have hget : source.toByteArray[before.utf8Encode.size] = byte := by
    simp only [hbytes]
    rw [ByteArray.getElem_append_right (Nat.le_refl _)]
    simp only [Nat.sub_self]
    rfl
  rwa [hget]

namespace Span

/-- A part of the source is covered by the bytes that it takes. -/
theorem covers_part {source : String} {before text behind : List Char}
    (hsource : source.toList = before ++ (text ++ behind)) :
    Covers ⟨Text.byteLength before, Text.byteLength before + Text.byteLength text⟩ source
      (String.ofList text) := by
  constructor
  · have hsize := Text.byteLength_toList source
    rw [hsource, Text.byteLength_append, Text.byteLength_append] at hsize
    dsimp only
    omega
  · have hskip := @ByteArray.extract_append_size_add before.utf8Encode
      (text ++ behind).utf8Encode 0 text.utf8Encode.size
    rw [← String.utf8Encode_toList, hsource, List.utf8Encode_append, String.toByteArray_ofList,
      Text.byteLength_eq_size, Text.byteLength_eq_size]
    rw [Nat.add_zero] at hskip
    rw [hskip, List.utf8Encode_append, ByteArray.extract_append_eq_left rfl]

/-- What is covered from the beginning of a part of the source begins that part. -/
theorem Covers.prefix_of_start {source text : String} {before behind : List Char} {stop : Nat}
    (h : Covers ⟨Text.byteLength before, stop⟩ source text)
    (hsource : source.toList = before ++ behind) :
    text.toList <+: behind ∧ stop ≤ Text.byteLength before + Text.byteLength text.toList := by
  obtain ⟨hstop, hbytes⟩ := h
  have hsize := Text.byteLength_toList source
  rw [hsource, Text.byteLength_append, Text.byteLength_eq_size behind] at hsize
  dsimp only at hstop hbytes
  generalize hlength : Text.byteLength before = length at hstop hbytes hsize
  -- The bytes that are covered are the first ones of the part.
  have htext : behind.utf8Encode.extract 0 (stop - length) = text.toList.utf8Encode := by
    have hbefore : before.utf8Encode.extract length stop = ByteArray.empty := by
      rw [ByteArray.extract_eq_empty_iff, ← hlength, Text.byteLength_eq_size]
      exact Nat.min_le_right _ _
    rw [← String.utf8Encode_toList, hsource, List.utf8Encode_append, ByteArray.extract_append,
      hbefore, ByteArray.empty_append, ← Text.byteLength_eq_size, hlength, Nat.sub_self,
      ← String.utf8Encode_toList] at hbytes
    exact hbytes
  constructor
  · have hsplit := @ByteArray.extract_eq_extract_append_extract behind.utf8Encode 0
      behind.utf8Encode.size (stop - length) (Nat.zero_le _) (by omega)
    rw [ByteArray.extract_zero_size, htext] at hsplit
    exact List.isPrefix_of_utf8Encode_append_eq_utf8Encode _ hsplit.symm
  · rw [Text.byteLength_eq_size, ← htext, ByteArray.size_extract]
    omega

end Span

/-- Tokens on pieces of the source, one behind the other. -/
structure Token.Pieces (source : String) (tokens : List Token) : Prop where
  inside : ∀ token ∈ tokens, token.span.stop ≤ source.utf8ByteSize
  covers : ∀ token ∈ tokens, ¬token.isEnd → token.span.Covers source token.value
  ordered : tokens.Pairwise fun token later =>
    token.span.start < token.span.stop ∧ token.span.stop ≤ later.span.start

/-- The tokens cut the source into its longest lexemes. -/
structure Segmentation (source : String) (tokens : List Token) : Prop where
  /-- The end of the input stands behind the last byte, and nowhere else. -/
  ends : ∃ front,
    tokens = front ++ [⟨.endOfInput, "EOF", source.utf8ByteSize, source.utf8ByteSize⟩] ∧
    ∀ token ∈ front, ¬token.isEnd
  /-- Every other token is a piece of the source. -/
  covers : ∀ token ∈ tokens, ¬token.isEnd →
    token.span.start < token.span.stop ∧ token.span.Covers source token.value
  /-- The tokens stand one behind the other. -/
  ordered : tokens.Pairwise (·.span.stop ≤ ·.span.start)
  /-- The bytes between them separate them. -/
  gaps : ∀ (i : Nat) (h : i < source.toByteArray.size),
    (∀ token ∈ tokens, ¬(token.span.start ≤ i ∧ i < token.span.stop)) →
    source.toByteArray[i] ∈ separatorBytes
  /-- Tokens are of the class of their text. -/
  lexemes : ∀ token ∈ tokens, ¬token.isEnd → IsLexeme token.kind token.value.toList
  /-- No lexeme of any class begins where a token does and goes on behind it. -/
  longest : ∀ token ∈ tokens, ¬token.isEnd → ∀ (kind : TokenKind) (text : String) (stop : Nat),
    IsLexeme kind text.toList → Span.Covers ⟨token.span.start, stop⟩ source text →
    stop ≤ token.span.stop

/-- The end of the input takes no bytes. -/
theorem Token.endAt_of_lt {position : Nat} (h : position < 0x100000000) :
    Token.endAt position = ⟨.endOfInput, "EOF", position, position⟩ := by
  rw [Token.endAt, Span.ofLength, Nat.add_zero, offset_of_lt h]

namespace Scans

variable {source : String} {front : List Token} {position : Nat}

/-- The tokens of a source that is shorter than offsets can count have its bytes. -/
theorem place_of_source {rest : List Char} (h : Scans 0 source.toList front position rest)
    (hlength : source.utf8ByteSize < 0x100000000) {token : Token} (htoken : token ∈ front) :
    ∃ before kind value behind, source.toList = before ++ (value ++ behind) ∧
      lexeme? (value ++ behind) = some (kind, value) ∧
      token = ⟨kind, String.ofList value, Text.byteLength before,
        Text.byteLength before + Text.byteLength value⟩ := by
  obtain ⟨before, kind, value, behind, hsource, hlexeme, rfl⟩ := h.place htoken
  refine ⟨before, kind, value, behind, hsource, hlexeme, ?_⟩
  have hsize := Text.byteLength_toList source
  rw [hsource, Text.byteLength_append, Text.byteLength_append] at hsize
  rw [Nat.zero_add, Span.ofLength, offset_of_lt (by omega), offset_of_lt (by omega)]

section Bounded

variable (h : Scans 0 source.toList front position [])
  (hlength : source.utf8ByteSize < 0x100000000)

include h hlength

/-- The tokens and the end of the input behind them are pieces of the source. -/
theorem pieces : Token.Pieces source (front ++ [.endAt source.utf8ByteSize]) := by
  have hposition := h.position_eq
  obtain ⟨hordered, hinside⟩ := h.ordered (by omega)
  rw [Token.endAt_of_lt hlength]
  refine ⟨?_, ?_, List.pairwise_append.mpr ⟨?_, List.pairwise_singleton _ _, ?_⟩⟩
  · intro token htoken
    rcases List.mem_append.mp htoken with htoken | htoken
    · exact (hinside token htoken).2.2.trans_eq hposition
    · rw [List.mem_singleton.mp htoken]
  · intro token htoken hend
    rcases List.mem_append.mp htoken with htoken | htoken
    · obtain ⟨before, kind, value, behind, hsource, _, rfl⟩ := h.place_of_source hlength htoken
      exact Span.covers_part hsource
    · rw [List.mem_singleton.mp htoken] at hend
      exact absurd rfl hend
  · exact hordered.imp_of_mem fun hfirst _ hle => ⟨(hinside _ hfirst).2.1, hle⟩
  · intro token htoken last hlast
    rw [List.mem_singleton.mp hlast]
    have := hinside token htoken
    dsimp only
    omega

theorem gap {i : Nat} (hi : i < source.toByteArray.size)
    (hout : ∀ token ∈ front, ¬(token.span.start ≤ i ∧ i < token.span.stop)) :
    source.toByteArray[i] ∈ separatorBytes := by
  have hposition := h.position_eq
  rw [String.size_toByteArray, ← Text.byteLength_toList] at hi
  obtain ⟨before, c, behind, hsource, hle, hlt⟩ := Text.exists_character hi
  rcases h.inside_or_separator (by omega) hsource with hseparator | ⟨token, htoken, hstart, hstop⟩
  · exact separator_byte hsource hseparator _ hle hlt
  · exact absurd ⟨by omega, by omega⟩ (hout token htoken)

end Bounded

end Scans

/-- A source that is tokenized is cut into its longest lexemes without loss. -/
theorem tokenize_segments {source : String} {tokens : List Token}
    (hlength : source.utf8ByteSize < 0x100000000) (h : tokenize source = .ok tokens) :
    Segmentation source tokens := by
  obtain ⟨front, position, rfl, hscans⟩ := Scans.of_tokenize h
  obtain rfl := hscans.position_eq
  obtain ⟨front', last, hsame, _, _, hfront⟩ :=
    (TokenStream.ofSource_sealed source).split_of_collect h
  obtain ⟨rfl, _⟩ := List.append_inj' hsame rfl
  have hmem : ∀ token ∈ front ++ [Token.endAt source.utf8ByteSize], ¬token.isEnd →
      token ∈ front := by
    intro token htoken hend
    rcases List.mem_append.mp htoken with htoken | htoken
    · exact htoken
    · rw [List.mem_singleton.mp htoken] at hend
      exact absurd rfl hend
  obtain ⟨_, hinside⟩ := hscans.ordered hlength
  have hpieces := hscans.pieces hlength
  refine ⟨⟨front, by rw [Token.endAt_of_lt hlength], hfront⟩, ?_, ?_, ?_, ?_, ?_⟩
  · intro token htoken hend
    exact ⟨(hinside token (hmem token htoken hend)).2.1, hpieces.covers token htoken hend⟩
  · exact hpieces.ordered.imp And.right
  · intro i hi hout
    exact hscans.gap hlength hi fun token htoken => hout token (List.mem_append_left _ htoken)
  · intro token htoken hend
    obtain ⟨before, kind, value, behind, _, hlexeme, rfl⟩ :=
      hscans.place_of_source hlength (hmem token htoken hend)
    simpa using isLexeme_of_lexeme? hlexeme
  · intro token htoken hend kind text stop hlexeme hcovers
    obtain ⟨before, kind, value, behind, hsource, hvalue, rfl⟩ :=
      hscans.place_of_source hlength (hmem token htoken hend)
    obtain ⟨hbegins, hstop⟩ := hcovers.prefix_of_start hsource
    obtain ⟨rest, hrest⟩ := lexeme?_longest hvalue hlexeme hbegins
    rw [← hrest, Text.byteLength_append]
    dsimp only
    omega

theorem tokenize_segments_shift :
    "a1<<=7.  --->_b".utf8ByteSize < 0x100000000 ∧ ∃ tokens,
      tokenize "a1<<=7.  --->_b" = .ok tokens ∧
      tokens.map (fun token => (token.value, token.span.start)) =
        [("a1", 0), ("<<=", 2), ("7.", 5), ("--", 9), ("->", 11), ("_b", 13), ("EOF", 15)] ∧
      Segmentation "a1<<=7.  --->_b" tokens := by
  have hlength : "a1<<=7.  --->_b".utf8ByteSize < 0x100000000 := by decide +kernel
  have htokens : ∃ tokens, tokenize "a1<<=7.  --->_b" = .ok tokens ∧
      tokens.map (fun token => (token.value, token.span.start)) =
        [("a1", 0), ("<<=", 2), ("7.", 5), ("--", 9), ("->", 11), ("_b", 13), ("EOF", 15)] := by
    exact ⟨_, rfl, by decide +kernel⟩
  obtain ⟨tokens, htokenize, hwords⟩ := htokens
  exact ⟨hlength, tokens, htokenize, hwords, tokenize_segments hlength htokenize⟩

end Precedence
