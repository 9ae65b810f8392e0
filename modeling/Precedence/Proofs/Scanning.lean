import Precedence.Proofs.Lexing

/-!
How a scan goes through a text: it has read some tokens and stands before the rest.
What it has read stays the same when the rest is cut off, and when a separator, a bracket
or a comma is put behind the text. A scan that cannot go on has come to the end of
the text or to the first character that begins no token.
-/

namespace Precedence

/-! Cutting a text behind its first lexeme. -/

theorem takeWhile_prefix_mono {belongs : Char → Bool} {text text' : List Char}
    (h : text <+: text') : text.takeWhile belongs <+: text'.takeWhile belongs := by
  obtain ⟨rest, rfl⟩ := h
  rw [List.takeWhile_append]
  split
  · rename_i hall
    rw [(List.takeWhile_prefix belongs).eq_of_length hall]
    exact List.prefix_append _ _
  · exact List.prefix_rfl

theorem takeWhile_prefix_numberText (text : List Char) :
    text.takeWhile Char.isDigit <+: numberText text := by
  unfold numberText
  dsimp only
  split
  · exact List.prefix_append _ _
  · exact List.prefix_rfl

theorem numberText_prefix_mono {text text' : List Char} (h : text <+: text') :
    numberText text <+: numberText text' := by
  have hwhole := @takeWhile_prefix_mono Char.isDigit _ _ h
  obtain ⟨rest, rfl⟩ := h
  cases hbehind : text.dropWhile Char.isDigit with
  | nil =>
      have hnumber : numberText text = text.takeWhile Char.isDigit := by
        simp [numberText, hbehind]
      rw [hnumber]
      exact hwhole.trans (takeWhile_prefix_numberText _)
  | cons c behind =>
      -- The digits end inside the shorter text, so both texts agree on them.
      have hbehind' : (text ++ rest).dropWhile Char.isDigit = c :: (behind ++ rest) := by
        simp [List.dropWhile_append, hbehind]
      have hsame : (text ++ rest).takeWhile Char.isDigit = text.takeWhile Char.isDigit := by
        rw [List.takeWhile_append, if_neg]
        intro hall
        have hdrop := @List.takeWhile_append_dropWhile _ Char.isDigit text
        rw [(List.takeWhile_prefix Char.isDigit).eq_of_length hall, hbehind] at hdrop
        simp at hdrop
      unfold numberText
      rw [hbehind, hbehind', hsame]
      by_cases hdot : c = '.'
      · have hfraction := @takeWhile_prefix_mono Char.isDigit _ _ (List.prefix_append behind rest)
        simpa [hdot] using hfraction
      · simp [hdot]

/-- A text begins with the same symbol when it is cut somewhere behind that. -/
theorem leadingSymbol?_cut {symbols : List String} {symbol text text' : List Char}
    (h : leadingSymbol? symbols text' = some symbol) (hsymbol : symbol <+: text)
    (htext : text <+: text') : leadingSymbol? symbols text = some symbol := by
  unfold leadingSymbol? at h ⊢
  obtain ⟨_, before, behind, hall, hbefore⟩ := List.find?_eq_some_iff_append.mp h
  refine List.find?_eq_some_iff_append.mpr
    ⟨List.isPrefixOf_iff_prefix.mpr hsymbol, before, behind, hall, ?_⟩
  intro other hother
  have hnot := hbefore other hother
  simp only [Bool.not_eq_true', Bool.eq_false_iff, ne_eq, List.isPrefixOf_iff_prefix] at hnot ⊢
  exact fun hleads => hnot (hleads.trans htext)

/-- A text begins with the same lexeme when it is cut somewhere behind that. -/
theorem lexeme?_cut {kind : TokenKind} {value between rest : List Char}
    (h : lexeme? (value ++ (between ++ rest)) = some (kind, value)) :
    lexeme? (value ++ between) = some (kind, value) := by
  have hself := @lexeme?_append _ _ _ [] h (by simp [Clear])
  rw [List.append_nil] at hself
  cases value with
  | nil => cases hself
  | cons c others =>
      have hlong : others ++ between <+: others ++ (between ++ rest) := by
        rw [List.prefix_append_right_inj]
        exact List.prefix_append _ _
      have hshort : others <+: others ++ between := List.prefix_append _ _
      simp only [List.cons_append, lexeme?] at h hself ⊢
      split at h
      · -- Between the lexeme and the long text, the number can neither grow nor shrink.
        rename_i hdigit
        simp only [hdigit, if_true, Option.some.injEq, Prod.mk.injEq] at h hself ⊢
        have hle := numberText_prefix_mono (List.cons_prefix_cons.mpr ⟨@rfl _ c, hlong⟩)
        have hge := numberText_prefix_mono (List.cons_prefix_cons.mpr ⟨@rfl _ c, hshort⟩)
        rw [h.2] at hle
        rw [hself.2] at hge
        exact ⟨h.1, hle.eq_of_length_le hge.length_le⟩
      · rename_i hdigit
        split at h
        · rename_i hstart
          simp only [hdigit, hstart, Bool.false_eq_true, if_true, if_false, Option.some.injEq,
            Prod.mk.injEq, List.cons.injEq, true_and] at h hself ⊢
          have hle := @takeWhile_prefix_mono isWordPart _ _ hlong
          have hge := @takeWhile_prefix_mono isWordPart _ _ hshort
          rw [h.2] at hle
          rw [hself.2] at hge
          exact ⟨h.1, hle.eq_of_length_le hge.length_le⟩
        · rename_i hstart
          obtain ⟨symbol, hfound, hvalue⟩ := Option.map_eq_some_iff.mp h
          cases hvalue
          rw [if_neg hdigit, if_neg hstart]
          rw [leadingSymbol?_cut hfound (List.cons_prefix_cons.mpr ⟨rfl, hshort⟩)
            (List.cons_prefix_cons.mpr ⟨rfl, hlong⟩)]
          rfl

theorem lexeme?_pos {kind : TokenKind} {text value : List Char}
    (h : lexeme? text = some (kind, value)) : 0 < Text.byteLength value := by
  cases text with
  | nil => cases h
  | cons c others =>
      obtain ⟨behind, rfl⟩ := lexeme?_cons h
      exact Nat.lt_of_lt_of_le c.utf8Size_pos (Nat.le_add_right _ _)

/-- From `text`, which begins at byte `position`, the tokens are read, and the scan
then stands at byte `position'` before `rest`. -/
inductive Scans : (position : Nat) → (text : List Char) → (tokens : List Token) →
    (position' : Nat) → (rest : List Char) → Prop
  | here {position : Nat} {rest : List Char} : Scans position rest [] position rest
  | separator {position position' : Nat} {c : Char} {text rest : List Char}
      {tokens : List Token} (hseparator : isSeparator c)
      (hbehind : Scans (position + c.utf8Size) text tokens position' rest) :
      Scans position (c :: text) tokens position' rest
  | token {position position' : Nat} {kind : TokenKind} {value text rest : List Char}
      {tokens : List Token} (hlexeme : lexeme? (value ++ text) = some (kind, value))
      (hbehind : Scans (position + Text.byteLength value) text tokens position' rest) :
      Scans position (value ++ text)
        (⟨kind, String.ofList value, .ofLength position (Text.byteLength value)⟩ :: tokens)
        position' rest

namespace Scans

variable {position position' : Nat} {text rest more : List Char} {tokens : List Token}

/-- The tokens are those of the stream, which goes on with the rest. -/
theorem scan_eq (h : Scans position text tokens position' rest) :
    TokenStream.scan 0 position text =
      tokens.map .ok ++ TokenStream.scan 0 position' rest := by
  induction h with
  | here => rfl
  | separator hseparator _ ih => rw [TokenStream.scan, if_pos hseparator, ih]
  | token hlexeme _ ih => rw [TokenStream.scan_lexeme hlexeme, ih, List.map_cons, List.cons_append]

/-- The scan has moved over the characters before the rest. -/
theorem split (h : Scans position text tokens position' rest) :
    ∃ before, text = before ++ rest ∧ position' = position + Text.byteLength before := by
  induction h with
  | here => exact ⟨[], rfl, rfl⟩
  | @separator _ _ c _ _ _ _ _ ih =>
      obtain ⟨before, rfl, rfl⟩ := ih
      exact ⟨c :: before, rfl, by simp [Nat.add_assoc]⟩
  | @token _ _ _ value _ _ _ _ _ ih =>
      obtain ⟨before, rfl, rfl⟩ := ih
      exact ⟨value ++ before, by simp, by simp [Nat.add_assoc]⟩

/-- A scan of a source stands at a byte of it, behind those that it has moved over. -/
theorem split_source {source : String} (h : Scans 0 source.toList tokens position rest) :
    ∃ before, source.toList = before ++ rest ∧ position = Text.byteLength before ∧
      position + Text.byteLength rest = source.utf8ByteSize := by
  obtain ⟨before, hsource, hposition⟩ := h.split
  rw [Nat.zero_add] at hposition
  refine ⟨before, hsource, hposition, ?_⟩
  rw [← Text.byteLength_toList, hsource, Text.byteLength_append, hposition]

theorem position_eq {source : String} (h : Scans 0 source.toList tokens position []) :
    position = source.utf8ByteSize := by
  obtain ⟨_, _, _, hsize⟩ := h.split_source
  exact hsize

/-- A lexeme at the front of the text is read as one token. -/
theorem word {kind : TokenKind} {value : String}
    (h : lexeme? (value.toList ++ rest) = some (kind, value.toList)) :
    Scans position (value.toList ++ rest)
      [⟨kind, value, .ofLength position (Text.byteLength value.toList)⟩]
      (position + Text.byteLength value.toList) rest := by
  simpa using Scans.token h .here

theorem trans {position'' : Nat} {tokens' : List Token}
    (h : Scans position text tokens position' rest)
    (h' : Scans position' rest tokens' position'' more) :
    Scans position text (tokens ++ tokens') position'' more := by
  induction h with
  | here => exact h'
  | separator hseparator _ ih => exact .separator hseparator (ih h')
  | token hlexeme _ ih => exact .token hlexeme (ih h')

/-- A clear text behind the whole changes nothing. -/
theorem extend (h : Scans position text tokens position' rest) (hmore : Clear more) :
    Scans position (text ++ more) tokens position' (rest ++ more) := by
  induction h with
  | here => exact .here
  | separator hseparator _ ih => exact .separator hseparator ih
  | @token _ _ _ value text _ _ hlexeme _ ih =>
      rw [List.append_assoc]
      refine .token ?_ ih
      have htext : value ++ text ≠ [] := by
        intro hnil
        rw [hnil] at hlexeme
        cases hlexeme
      rw [← List.append_assoc, lexeme?_before_clear htext hmore, hlexeme]

/-- What stands behind the rest can be cut off, and the rest as well. -/
theorem cut {before : List Char} (h : Scans position (before ++ rest) tokens position' rest) :
    Scans position before tokens position' [] := by
  generalize htext : before ++ rest = text at h
  induction h generalizing before with
  | here =>
      obtain rfl : before = [] := by simpa using htext
      exact .here
  | @separator _ _ c _ _ _ hseparator hbehind ih =>
      obtain ⟨inside, rfl, _⟩ := hbehind.split
      rw [← List.cons_append] at htext
      obtain rfl := List.append_cancel_right htext
      exact .separator hseparator (ih rfl)
  | @token _ _ _ value _ _ _ hlexeme hbehind ih =>
      obtain ⟨inside, rfl, _⟩ := hbehind.split
      rw [← List.append_assoc] at htext
      obtain rfl := List.append_cancel_right htext
      exact .token (lexeme?_cut hlexeme) (ih rfl)

/-- Before any clear text the same is read as before the rest. -/
theorem before_clear {before : List Char}
    (h : Scans position (before ++ rest) tokens position' rest) (hmore : Clear more) :
    Scans position (before ++ more) tokens position' more := by
  simpa using h.cut.extend hmore

/-- The place of the text shows in the spans only. -/
theorem shift (h : Scans position text tokens position' rest) (start : Nat) :
    ∃ (read : List Token) (stop : Nat), read.map Token.lexeme = tokens.map Token.lexeme ∧
      Scans start text read stop rest := by
  induction h generalizing start with
  | here => exact ⟨[], start, rfl, .here⟩
  | @separator _ _ c _ _ _ hseparator _ ih =>
      obtain ⟨read, stop, hread, hscans⟩ := ih (start + c.utf8Size)
      exact ⟨read, stop, hread, .separator hseparator hscans⟩
  | @token _ _ kind value _ _ _ hlexeme _ ih =>
      obtain ⟨read, stop, hread, hscans⟩ := ih (start + Text.byteLength value)
      refine ⟨⟨kind, String.ofList value, .ofLength start (Text.byteLength value)⟩ :: read, stop,
        ?_, .token hlexeme hscans⟩
      rw [List.map_cons, List.map_cons, hread, Token.lexeme, Token.lexeme]

/-- What is read in one place is read as the same words in any other. -/
theorem lexes {before : List Char}
    (h : Scans position (before ++ rest) tokens position' rest) :
    Lexes before (tokens.map Token.lexeme) rest := by
  intro start
  obtain ⟨read, stop, hread, hscans⟩ := h.shift start
  exact ⟨read, stop, hread, hscans.scan_eq⟩

/-- The tokens that a scan has read begin between its ends. -/
theorem start_bounds (h : Scans position text tokens position' rest) :
    ∀ token ∈ tokens, ∃ start, position ≤ start ∧ start < position' ∧
      token.span.start = offset start := by
  induction h with
  | here => simp
  | @separator position _ c _ _ _ _ hbehind ih =>
      intro token htoken
      obtain ⟨start, hle, hlt, hstart⟩ := ih token htoken
      exact ⟨start, by omega, hlt, hstart⟩
  | @token position position' kind value _ _ _ hlexeme hbehind ih =>
      have hpos := lexeme?_pos hlexeme
      obtain ⟨before, _, hstop⟩ := hbehind.split
      intro token htoken
      rcases List.mem_cons.mp htoken with rfl | htoken
      · exact ⟨position, Nat.le_refl _, by omega, rfl⟩
      · obtain ⟨start, hle, hlt, hstart⟩ := ih token htoken
        exact ⟨start, by omega, hlt, hstart⟩

end Scans

/-- Every scan comes to the end of the text or to a character that begins no token. -/
theorem exists_scans (position : Nat) (text : List Char) :
    ∃ tokens position', Scans position text tokens position' [] ∨
      ∃ c rest, Scans position text tokens position' (c :: rest) ∧ ¬isSeparator c ∧
        lexeme? (c :: rest) = none := by
  induction hlength : text.length using Nat.strongRecOn generalizing position text with
  | ind length ih =>
      cases text with
      | nil => exact ⟨[], position, .inl .here⟩
      | cons c others =>
          rw [List.length_cons] at hlength
          by_cases hseparator : isSeparator c
          · obtain ⟨tokens, position', hscans⟩ :=
              ih others.length (by omega) (position + c.utf8Size) others rfl
            refine ⟨tokens, position', hscans.imp (.separator hseparator) ?_⟩
            rintro ⟨first, rest, hscans, hstuck⟩
            exact ⟨first, rest, .separator hseparator hscans, hstuck⟩
          · cases hlexeme : lexeme? (c :: others) with
            | none => exact ⟨[], position, .inr ⟨c, others, .here, hseparator, hlexeme⟩⟩
            | some lexeme =>
                obtain ⟨kind, value⟩ := lexeme
                obtain ⟨behind, htext⟩ := prefix_of_lexeme? hlexeme
                obtain ⟨inside, rfl⟩ := lexeme?_cons hlexeme
                have hshort : behind.length < length := by
                  have hlengths := congrArg List.length htext
                  simp only [List.length_append, List.length_cons] at hlengths
                  omega
                rw [← htext] at hlexeme ⊢
                obtain ⟨tokens, position', hscans⟩ :=
                  ih behind.length hshort (position + Text.byteLength (c :: inside)) behind rfl
                refine ⟨_, position', hscans.imp (.token hlexeme) ?_⟩
                rintro ⟨first, rest, hscans, hstuck⟩
                exact ⟨first, rest, .token hlexeme hscans, hstuck⟩

def isSourceChar (c : Char) : Bool :=
  isSeparator c || isWordPart c || "()[],.+-*/%=<>?!:~&^|@".toList.contains c

/-- Apart from separators, every character that sources are written with begins a
token. -/
theorem lexeme?_isSome_of_isSourceChar {c : Char} (h : isSourceChar c) (hseparator : ¬isSeparator c)
    (rest : List Char) : (lexeme? (c :: rest)).isSome := by
  have hsymbols : "()[],.+-*/%=<>?!:~&^|@".toList.all fun c =>
      [c] ∈ (punctuation ++ operatorSymbols).map String.toList := by
    decide +kernel
  simp only [lexeme?]
  split
  · rfl
  · rename_i hdigit
    split
    · rfl
    · rename_i hstart
      have hmem : c ∈ "()[],.+-*/%=<>?!:~&^|@".toList := by
        simpa [isSourceChar, isWordPart, hdigit, hstart, hseparator] using h
      have hsymbol := of_decide_eq_true (List.all_eq_true.mp hsymbols c hmem)
      have hfound : (leadingSymbol? (punctuation ++ operatorSymbols) (c :: rest)).isSome :=
        List.find?_isSome.mpr ⟨[c], hsymbol, by simp⟩
      simpa using hfound

/-- A text of characters that sources are written with is scanned up to its end. -/
theorem exists_scans_of_isSourceChar (position : Nat) {text : List Char}
    (h : ∀ c ∈ text, isSourceChar c) :
    ∃ tokens position', Scans position text tokens position' [] := by
  obtain ⟨tokens, position', hscans | ⟨c, rest, hscans, hseparator, hlexeme⟩⟩ :=
    exists_scans position text
  · exact ⟨tokens, position', hscans⟩
  · obtain ⟨before, rfl, _⟩ := hscans.split
    have hsome := lexeme?_isSome_of_isSourceChar (h c (by simp)) hseparator rest
    rw [hlexeme] at hsome
    cases hsome

/-- At a character that begins no token the stream breaks off. -/
theorem TokenStream.scan_stuck {c : Char} {rest : List Char} (hseparator : ¬isSeparator c)
    (hlexeme : lexeme? (c :: rest) = none) (position : Nat) :
    scan 0 position (c :: rest) = [.error ⟨.foreignCharacter c, offset position⟩] := by
  rw [scan, if_neg hseparator, hlexeme]

theorem TokenStream.collect_map_ok_append (tokens : List Token) (rest : TokenStream) :
    collect (tokens.map .ok ++ rest) = (collect rest).map (tokens ++ ·) := by
  induction tokens with
  | nil => cases hrest : collect rest <;> simp [hrest, Except.map]
  | cons token tokens ih =>
      rw [List.map_cons, List.cons_append, collect, ih]
      cases collect rest <;> rfl

/-- The stream of a source that is scanned up to its end does not break off. -/
theorem Scans.ofSource_eq {source : String} {tokens : List Token} {position : Nat}
    (h : Scans 0 source.toList tokens position []) :
    TokenStream.ofSource source = (tokens ++ [Token.endAt position]).map .ok := by
  rw [TokenStream.ofSource, h.scan_eq, List.map_append]
  rfl

/-- A source is tokenized when it is scanned up to its end. -/
theorem Scans.tokenize {source : String} {tokens : List Token} {position : Nat}
    (h : Scans 0 source.toList tokens position []) :
    Precedence.tokenize source = .ok (tokens ++ [.endAt position]) := by
  rw [Precedence.tokenize, h.ofSource_eq, TokenStream.collect_map_ok]

/-- A source is refused at the first character that begins no token. -/
theorem Scans.tokenize_stuck {source : String} {tokens : List Token} {position : Nat} {c : Char}
    {rest : List Char} (h : Scans 0 source.toList tokens position (c :: rest))
    (hseparator : ¬isSeparator c) (hlexeme : lexeme? (c :: rest) = none) :
    Precedence.tokenize source = .error ⟨.foreignCharacter c, offset position⟩ := by
  rw [Precedence.tokenize, TokenStream.ofSource, h.scan_eq, TokenStream.collect_map_ok_append,
    TokenStream.scan_stuck hseparator hlexeme]
  rfl

/-- Wherever a scan of a source that is tokenized has come to, it goes on up to the
end. -/
theorem Scans.rest_of_tokenize {source : String} {tokens front : List Token} {position : Nat}
    {rest : List Char} (h : Scans 0 source.toList front position rest)
    (htokens : Precedence.tokenize source = .ok tokens) :
    ∃ back position', Scans position rest back position' [] ∧
      tokens = front ++ back ++ [.endAt position'] := by
  obtain ⟨back, position', hscans | ⟨c, others, hscans, hseparator, hlexeme⟩⟩ :=
    exists_scans position rest
  · rw [(h.trans hscans).tokenize] at htokens
    exact ⟨back, position', hscans, (Except.ok.inj htokens).symm⟩
  · rw [(h.trans hscans).tokenize_stuck hseparator hlexeme] at htokens
    cases htokens

/-- The stream of a source that breaks off has its tokens before the place where it
does. -/
theorem exists_front_of_broken {source : String} {broken : Diagnostic}
    (h : tokenize source = .error broken) :
    ∃ (front : List Token) (position : Nat) (c : Char),
      TokenStream.ofSource source =
        front.map .ok ++ [.error ⟨.foreignCharacter c, offset position⟩] ∧
      position < source.utf8ByteSize ∧
      (∀ token ∈ front, ∃ start, start < position ∧ token.span.start = offset start) ∧
      broken = ⟨.foreignCharacter c, offset position⟩ := by
  obtain ⟨front, position, hscans | ⟨c, rest, hscans, hseparator, hlexeme⟩⟩ :=
    exists_scans 0 source.toList
  · cases h.symm.trans hscans.tokenize
  · obtain ⟨_, _, _, hsize⟩ := hscans.split_source
    refine ⟨front, position, c, ?_, ?_, ?_, ?_⟩
    · rw [TokenStream.ofSource, hscans.scan_eq, TokenStream.scan_stuck hseparator hlexeme]
    · have hpos := c.utf8Size_pos
      rw [Text.byteLength_cons] at hsize
      omega
    · intro token htoken
      obtain ⟨start, _, hlt, hstart⟩ := hscans.start_bounds token htoken
      exact ⟨start, hlt, hstart⟩
    · exact Except.error.inj (h.symm.trans (hscans.tokenize_stuck hseparator hlexeme))

theorem Scans.of_tokenize {source : String} {tokens : List Token}
    (h : Precedence.tokenize source = .ok tokens) :
    ∃ front position, tokens = front ++ [.endAt position] ∧
      Scans 0 source.toList front position [] := by
  obtain ⟨front, position, hscans, htokens⟩ := Scans.here.rest_of_tokenize h
  exact ⟨front, position, htokens, hscans⟩

/-- A source that is read whole is read the same before any clear text. -/
theorem Lexes.of_tokenize {source : String} {tokens : List Token}
    (h : Precedence.tokenize source = .ok tokens) {rest : List Char} (hrest : Clear rest) :
    Lexes source.toList (lexemes tokens) rest := by
  obtain ⟨front, position, rfl, hscans⟩ := Scans.of_tokenize h
  rw [lexemes_tokenize h]
  exact (hscans.extend hrest).lexes

end Precedence
