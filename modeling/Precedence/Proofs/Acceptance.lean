import Precedence.Proofs.Segmentation

/-!
Which texts are tokenized. A text is if it has no characters but those that sources are
written with; otherwise the first other character is reported where it stands. So lexemes
may be taken apart and put together again: the tokens of a source are read once more
where any separators stand between them.
-/

namespace Precedence

/-- Symbols are made of characters that sources are written with. -/
theorem isSourceChar_of_symbol {symbol : List Char}
    (h : symbol ∈ (punctuation ++ operatorSymbols).map String.toList) :
    ∀ c ∈ symbol, isSourceChar c := by
  have hall : ((punctuation ++ operatorSymbols).map String.toList).all (·.all isSourceChar) := by
    decide +kernel
  exact List.all_eq_true.mp (List.all_eq_true.mp hall symbol h)

/-- What holds of the characters of words and of symbols holds of those of all lexemes. -/
theorem IsLexeme.forall_mem {kind : TokenKind} {text : List Char} (h : IsLexeme kind text)
    {holds : Char → Prop} (hword : ∀ c, isWordPart c → holds c)
    (hsymbol : ∀ symbol ∈ (punctuation ++ operatorSymbols).map String.toList,
      ∀ c ∈ symbol, holds c) : ∀ c ∈ text, holds c := by
  have hdigit : ∀ {c : Char}, c.isDigit → holds c := by
    intro c hc
    exact hword c (by simp [isWordPart, hc])
  cases h with
  | whole _ hdigits => exact fun c hc => hdigit (hdigits c hc)
  | fraction _ hdigits hbehind =>
      have hdot : holds '.' := hsymbol ['.'] (by decide) '.' List.mem_cons_self
      simp only [List.forall_mem_append, List.forall_mem_cons]
      exact ⟨fun c hc => hdigit (hdigits c hc), hdot, fun c hc => hdigit (hbehind c hc)⟩
  | identifier hstart hothers =>
      simp only [List.forall_mem_cons]
      exact ⟨hword _ (by simp [isWordPart, hstart]), fun c hc => hword c (hothers c hc)⟩
  | operator hlisted =>
      exact hsymbol _ (List.mem_map_of_mem (List.mem_append.mpr hlisted.symm))

/-- Lexemes of all classes are made of characters that sources are written with. -/
theorem IsLexeme.isSourceChar {kind : TokenKind} {text : List Char} (h : IsLexeme kind text) :
    ∀ c ∈ text, isSourceChar c := by
  refine h.forall_mem (fun c hc => ?_) fun _ => isSourceChar_of_symbol
  simp [Precedence.isSourceChar, hc]

/-- A scan moves over no other characters. -/
theorem Scans.isSourceChar {position position' : Nat} {before rest : List Char}
    {tokens : List Token} (h : Scans position (before ++ rest) tokens position' rest) :
    ∀ c ∈ before, isSourceChar c := by
  generalize htext : before ++ rest = text at h
  induction h generalizing before with
  | here =>
      obtain rfl : before = [] := by simpa using htext
      simp
  | @separator _ _ c _ _ _ hseparator hbehind ih =>
      obtain ⟨inside, rfl, _⟩ := hbehind.split
      rw [← List.cons_append] at htext
      obtain rfl := List.append_cancel_right htext
      exact List.forall_mem_cons.mpr ⟨by simp [Precedence.isSourceChar, hseparator], ih rfl⟩
  | @token _ _ _ value _ _ _ hlexeme hbehind ih =>
      obtain ⟨inside, rfl, _⟩ := hbehind.split
      rw [← List.append_assoc] at htext
      obtain rfl := List.append_cancel_right htext
      exact List.forall_mem_append.mpr ⟨(isLexeme_of_lexeme? hlexeme).isSourceChar, ih rfl⟩

/-- A source is tokenized if and only if it is written with source characters only.
Otherwise it is refused for the first other character, at the byte where that stands. -/
theorem tokenize_by_character {source : String} (hlength : source.utf8ByteSize < 0x100000000) :
    ((∃ tokens, tokenize source = .ok tokens) ↔ ∀ c ∈ source.toList, isSourceChar c) ∧
    ((¬∀ c ∈ source.toList, isSourceChar c) → ∃ before c behind,
      source.toList = before ++ c :: behind ∧ (∀ c ∈ before, isSourceChar c) ∧ ¬isSourceChar c ∧
        tokenize source = .error ⟨.foreignCharacter c, Text.byteLength before⟩) := by
  obtain ⟨tokens, position, hscans | ⟨c, rest, hscans, hseparator, hlexeme⟩⟩ :=
    exists_scans 0 source.toList
  · have hall : ∀ c ∈ source.toList, isSourceChar c := by
      rw [← List.append_nil source.toList] at hscans
      exact hscans.isSourceChar
    exact ⟨⟨fun _ => hall, fun _ => ⟨_, hscans.tokenize⟩⟩, fun hnot => absurd hall hnot⟩
  · have hstuck := hscans.tokenize_stuck hseparator hlexeme
    obtain ⟨before, hsource, hposition, hsize⟩ := hscans.split_source
    have hforeign : ¬isSourceChar c := by
      intro h
      have hsome := lexeme?_isSome_of_isSourceChar h hseparator rest
      rw [hlexeme] at hsome
      cases hsome
    constructor
    · constructor
      · rintro ⟨tokens, htokens⟩
        cases htokens.symm.trans hstuck
      · intro hall
        exact absurd (hall c (by simp [hsource])) hforeign
    · intro _
      refine ⟨before, c, rest, hsource, ?_, hforeign, ?_⟩
      · rw [hsource] at hscans
        exact hscans.isSourceChar
      · rw [hstuck, hposition, offset_of_lt (by omega)]

theorem tokenize_by_character_subscript :
    ("x₁ ≠ 7.".utf8ByteSize < 0x100000000 ∧ ¬∀ c ∈ "x₁ ≠ 7.".toList, isSourceChar c) ∧
      ∃ before c behind, "x₁ ≠ 7.".toList = before ++ c :: behind ∧
        (∀ c ∈ before, isSourceChar c) ∧ ¬isSourceChar c ∧
        tokenize "x₁ ≠ 7." = .error ⟨.foreignCharacter c, Text.byteLength before⟩ := by
  have hlength : "x₁ ≠ 7.".utf8ByteSize < 0x100000000 := by decide +kernel
  have hforeign : ¬∀ c ∈ "x₁ ≠ 7.".toList, isSourceChar c := by
    intro h
    exact absurd (h '₁' (by decide +kernel)) (by decide +kernel)
  exact ⟨⟨hlength, hforeign⟩, (tokenize_by_character hlength).2 hforeign⟩

/-! Tokens that are taken apart. -/

/-- The tokens of a source are its words and the end of the input behind them. -/
theorem map_lexeme_of_tokenize {source : String} {tokens : List Token}
    (h : tokenize source = .ok tokens) :
    tokens.map Token.lexeme = lexemes tokens ++ [⟨.endOfInput, "EOF"⟩] := by
  obtain ⟨front, position, rfl, _⟩ := Scans.of_tokenize h
  rw [lexemes_tokenize h, List.map_append]
  rfl

/-- The tokens of a source with separators of any kind between them, and perhaps around
them, are tokenized into what they were: the same kinds and values in the same order, with
the end of the input behind them. -/
theorem tokenize_interposed {source : String} {tokens : List Token}
    (h : tokenize source = .ok tokens) {lead tail : String} {gap : Nat → String}
    (hlead : ∀ c ∈ lead.toList, isSeparator c) (htail : ∀ c ∈ tail.toList, isSeparator c)
    (hgap : ∀ i, gap i ≠ "" ∧ ∀ c ∈ (gap i).toList, isSeparator c) :
    ∃ tokens',
      tokenize (lead ++ Text.interpose gap ((lexemes tokens).map Lexeme.value) ++ tail) =
        .ok tokens' ∧
      tokens'.map Token.lexeme = tokens.map Token.lexeme ∧
      tokens'.map Token.lexeme = lexemes tokens ++ [⟨.endOfInput, "EOF"⟩] := by
  have hclear : Clear (tail.toList ++ []) := by
    intro c hc
    exact isClear_of_isSeparator (htail c (by simpa using List.mem_of_mem_head? hc))
  have hlexes : Lexes (lead ++ Text.interpose gap ((lexemes tokens).map Lexeme.value) ++
      tail).toList (lexemes tokens) [] := by
    have hwords := Lexes.interposed (words_of_tokenize h) hgap hclear
    have hbehind : Lexes tail.toList [] [] := by
      simpa using Lexes.separators htail .nil
    simpa using Lexes.separators hlead (.append hwords hbehind)
  obtain ⟨tokens', htokens', hwords⟩ := hlexes.tokenize
  have hsame := map_lexeme_of_tokenize htokens'
  rw [hwords] at hsame
  exact ⟨tokens', htokens', hsame.trans (map_lexeme_of_tokenize h).symm, hsame⟩

theorem tokenize_interposed_lines :
    ∃ tokens, tokenize "a1<<=7.--->_b" = .ok tokens ∧
      (∀ c ∈ "\n".toList, isSeparator c) ∧ (∀ c ∈ "".toList, isSeparator c) ∧
      (∀ i, (if i = 0 then "\t" else "\r\n ") ≠ "" ∧
        ∀ c ∈ (if i = 0 then "\t" else "\r\n ").toList, isSeparator c) ∧
      ∃ tokens', tokenize "\na1\t<<=\r\n 7.\r\n --\r\n ->\r\n _b" = .ok tokens' ∧
        tokens'.map Token.lexeme = tokens.map Token.lexeme := by
  have htokens : ∃ tokens, tokenize "a1<<=7.--->_b" = .ok tokens ∧
      "\n" ++ Text.interpose (fun i => if i = 0 then "\t" else "\r\n ")
        ((lexemes tokens).map Lexeme.value) ++ "" = "\na1\t<<=\r\n 7.\r\n --\r\n ->\r\n _b" :=
    ⟨_, rfl, by decide +kernel⟩
  obtain ⟨tokens, htokens, htext⟩ := htokens
  have hlead : ∀ c ∈ "\n".toList, isSeparator c := by simp [isSeparator]
  have htail : ∀ c ∈ "".toList, isSeparator c := by simp
  have hgap : ∀ i, (if i = 0 then "\t" else "\r\n ") ≠ "" ∧
      ∀ c ∈ (if i = 0 then "\t" else "\r\n ").toList, isSeparator c := by
    intro i
    split <;> simp [isSeparator]
  obtain ⟨tokens', htokens', hsame, _⟩ := tokenize_interposed htokens hlead htail hgap
  rw [htext] at htokens'
  exact ⟨tokens, htokens, hlead, htail, hgap, tokens', htokens', hsame⟩

end Precedence
