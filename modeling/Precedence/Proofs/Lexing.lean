import Mathlib.Data.List.Find
import Mathlib.Data.List.TakeWhile
import Precedence.Proofs.Spelling
import Precedence.Proofs.Stream

/-!
Lexemes in a text. A lexeme that is cut out of one text is read again in another,
as long as what follows it there is a separator, a bracket or a comma: none of these
goes on with a number, an identifier or an operator symbol.
-/

namespace Precedence

/-- The characters that end every lexeme before them. -/
def isClear (c : Char) : Bool :=
  isSeparator c || c = '(' || c = ')' || c = '[' || c = ']' || c = ','

/-- Any lexeme may stand before the text. -/
def Clear (text : List Char) : Prop := ∀ c ∈ text.head?, isClear c

theorem Clear.cons {c : Char} (h : isClear c) {rest : List Char} : Clear (c :: rest) := by
  simpa [Clear] using h

theorem isClear_of_isSeparator {c : Char} (h : isSeparator c) : isClear c := by
  simp [isClear, h]

theorem not_isWordPart_of_isClear {c : Char} (h : isClear c) : isWordPart c = false := by
  simp only [isClear, isSeparator, Bool.or_eq_true, decide_eq_true_eq] at h
  rcases h with (((((((rfl | rfl) | rfl) | rfl) | rfl) | rfl) | rfl) | rfl) | rfl <;> decide

theorem not_isDigit_of_isClear {c : Char} (h : isClear c) : c.isDigit = false :=
  (Bool.or_eq_false_iff.mp (not_isWordPart_of_isClear h)).2

/-- A class of characters that ends before any clear text is cut there. -/
theorem takeWhile_append_clear {belongs : Char → Bool} (hends : ∀ c, isClear c → belongs c = false)
    {inside rest : List Char} (hinside : ∀ c ∈ inside, belongs c) (hrest : Clear rest) :
    (inside ++ rest).takeWhile belongs = inside ∧ (inside ++ rest).dropWhile belongs = rest := by
  rw [List.takeWhile_append_of_pos hinside, List.dropWhile_append_of_pos hinside]
  cases rest with
  | nil => simp
  | cons c rest => simp [hends c (hrest c rfl)]

/-- Numbers are digits, and may have a dot and more digits behind them. -/
theorem numberText_shape (text : List Char) :
    ∃ whole, (∀ c ∈ whole, c.isDigit) ∧ (numberText text = whole ∨
      ∃ fraction, (∀ c ∈ fraction, c.isDigit) ∧ numberText text = whole ++ '.' :: fraction) := by
  refine ⟨text.takeWhile Char.isDigit, fun c hc => List.mem_takeWhile_imp hc, ?_⟩
  unfold numberText
  dsimp only
  split
  · exact .inr ⟨_, fun c hc => List.mem_takeWhile_imp hc, rfl⟩
  · exact .inl rfl

theorem numberText_append {text rest : List Char} (hrest : Clear rest) :
    numberText (numberText text ++ rest) = numberText text := by
  obtain ⟨whole, hwhole, hshape | ⟨fraction, hfraction, hshape⟩⟩ := numberText_shape text
  · obtain ⟨htake, hdrop⟩ :=
      takeWhile_append_clear (fun c => not_isDigit_of_isClear) hwhole hrest
    rw [hshape]
    unfold numberText
    simp only [htake, hdrop]
    split
    · exact absurd (hrest '.' rfl) (by decide)
    · rfl
  · obtain ⟨htake, _⟩ := takeWhile_append_clear (fun c => not_isDigit_of_isClear) hfraction hrest
    have hdot : ¬('.' : Char).isDigit := by decide
    rw [hshape, List.append_assoc, List.cons_append]
    simp [numberText, List.takeWhile_append_of_pos hwhole, List.dropWhile_append_of_pos hwhole,
      hdot, htake]

theorem numberText_cons {c : Char} (h : c.isDigit) (rest : List Char) :
    ∃ others, numberText (c :: rest) = c :: others := by
  unfold numberText
  dsimp only
  rw [List.takeWhile_cons_of_pos h]
  split
  · exact ⟨_, rfl⟩
  · exact ⟨_, rfl⟩

/-- No symbol has a separator, a bracket or a comma behind its first character. -/
theorem tail_of_symbol {symbol : List Char}
    (h : symbol ∈ (punctuation ++ operatorSymbols).map String.toList) :
    ∀ c ∈ symbol.tail, ¬isClear c := by
  have hall : ((punctuation ++ operatorSymbols).map String.toList).all
      (fun symbol => symbol.tail.all (!isClear ·)) := by decide
  intro c hc
  simpa using List.all_eq_true.mp (List.all_eq_true.mp hall symbol h) c hc

/-- Every symbol is found first when it stands alone. -/
theorem leadingSymbol?_self {symbol : List Char}
    (h : symbol ∈ (punctuation ++ operatorSymbols).map String.toList) :
    leadingSymbol? (punctuation ++ operatorSymbols) symbol = some symbol := by
  revert h symbol
  decide +kernel

theorem isPrefixOf_append_clear {symbol text rest : List Char}
    (hsymbol : ∀ c ∈ symbol.tail, ¬isClear c) (htext : text ≠ []) (hrest : Clear rest) :
    symbol.isPrefixOf (text ++ rest) = symbol.isPrefixOf text := by
  rw [Bool.eq_iff_iff, List.isPrefixOf_iff_prefix, List.isPrefixOf_iff_prefix]
  refine ⟨?_, fun h => h.trans (List.prefix_append text rest)⟩
  intro h
  rcases Nat.lt_or_ge text.length symbol.length with hlength | hlength
  · obtain ⟨behind, rfl⟩ := List.prefix_of_prefix_length_le (List.prefix_append text rest) h
      (Nat.le_of_lt hlength)
    obtain ⟨first, text, rfl⟩ := List.exists_cons_of_ne_nil htext
    cases behind with
    | nil => simp
    | cons c behind =>
        obtain ⟨others, hothers⟩ := (List.prefix_append_right_inj _).mp h
        exact absurd (hrest c (by simp [← hothers])) (hsymbol c (by simp))
  · exact List.prefix_of_prefix_length_le h (List.prefix_append text rest) hlength

theorem leadingSymbol?_append {symbol rest : List Char}
    (h : symbol ∈ (punctuation ++ operatorSymbols).map String.toList) (hsymbol : symbol ≠ [])
    (hrest : Clear rest) :
    leadingSymbol? (punctuation ++ operatorSymbols) (symbol ++ rest) = some symbol := by
  rw [← leadingSymbol?_self h]
  unfold leadingSymbol?
  apply List.find?_congr
  intro other hother
  exact isPrefixOf_append_clear (tail_of_symbol hother) hsymbol hrest

theorem leadingSymbol?_cons {c : Char} {others symbol : List Char}
    (h : leadingSymbol? (punctuation ++ operatorSymbols) (c :: others) = some symbol) :
    symbol ∈ (punctuation ++ operatorSymbols).map String.toList ∧
      ∃ behind, symbol = c :: behind := by
  unfold leadingSymbol? at h
  have hmem := List.mem_of_find?_eq_some h
  have hleads := List.find?_some h
  obtain ⟨rest, hrest⟩ := List.isPrefixOf_iff_prefix.mp hleads
  cases symbol with
  | nil => exact absurd hmem (by decide)
  | cons first behind =>
      obtain rfl : first = c := (List.cons.inj hrest).1
      exact ⟨hmem, behind, rfl⟩

/-- A lexeme begins with the first character of its text. -/
theorem lexeme?_cons {kind : TokenKind} {c : Char} {others value : List Char}
    (h : lexeme? (c :: others) = some (kind, value)) : ∃ behind, value = c :: behind := by
  simp only [lexeme?] at h
  split at h
  · rename_i hdigit
    cases h
    exact numberText_cons hdigit others
  · split at h
    · cases h
      exact ⟨_, rfl⟩
    · obtain ⟨symbol, hfound, hvalue⟩ := Option.map_eq_some_iff.mp h
      cases hvalue
      exact (leadingSymbol?_cons hfound).2

/-- A lexeme is read again wherever a clear text follows it. -/
theorem lexeme?_append {kind : TokenKind} {text value rest : List Char}
    (h : lexeme? text = some (kind, value)) (hrest : Clear rest) :
    lexeme? (value ++ rest) = some (kind, value) := by
  cases text with
  | nil => cases h
  | cons c others =>
      simp only [lexeme?] at h
      split at h
      · rename_i hdigit
        cases h
        obtain ⟨digits, hdigits⟩ := numberText_cons hdigit others
        have hnumber := @numberText_append (c :: others) rest hrest
        rw [hdigits, List.cons_append] at hnumber ⊢
        rw [lexeme?, if_pos hdigit, hnumber]
      · rename_i hdigit
        split at h
        · rename_i hstart
          cases h
          have hinside : ∀ c ∈ others.takeWhile isWordPart, isWordPart c :=
            fun c hc => List.mem_takeWhile_imp hc
          obtain ⟨htake, _⟩ := takeWhile_append_clear (fun c => not_isWordPart_of_isClear) hinside
            hrest
          rw [List.cons_append, lexeme?, if_neg hdigit, if_pos hstart, htake]
        · rename_i hstart
          obtain ⟨symbol, hfound, hvalue⟩ := Option.map_eq_some_iff.mp h
          cases hvalue
          obtain ⟨hmem, behind, rfl⟩ := leadingSymbol?_cons hfound
          have happend := leadingSymbol?_append hmem (List.cons_ne_nil _ _) hrest
          rw [List.cons_append] at happend ⊢
          rw [lexeme?, if_neg hdigit, if_neg hstart, happend]
          rfl

/-- A separator begins no lexeme. -/
theorem lexeme?_separator {c : Char} (h : isSeparator c) (rest : List Char) :
    lexeme? (c :: rest) = none := by
  simp only [isSeparator, Bool.or_eq_true, decide_eq_true_eq] at h
  rcases h with ((rfl | rfl) | rfl) | rfl <;> rfl

/-- A lexeme that is read where it stands alone. -/
def Lexeme.IsWord (lexeme : Lexeme) : Prop :=
  lexeme? lexeme.value.toList = some (lexeme.kind, lexeme.value.toList)

instance (lexeme : Lexeme) : Decidable lexeme.IsWord :=
  inferInstanceAs (Decidable (_ = _))

/-- Every lexeme that is cut out of a text is one. -/
theorem Lexeme.isWord_of_lexeme? {kind : TokenKind} {text value : List Char}
    (h : lexeme? text = some (kind, value)) : Lexeme.IsWord ⟨kind, String.ofList value⟩ := by
  have hself := @lexeme?_append kind text value [] h (by simp [Clear])
  simpa [Lexeme.IsWord] using hself

/-- The tokens of a text apart from the end of the input, without their places. -/
def lexemes (tokens : List Token) : List Lexeme :=
  (tokens.filter fun token => !token.isEnd).map Token.lexeme

/-- The end of the input is the last token, and no other. -/
theorem lexemes_tokenize {source : String} {tokens : List Token} {last : Token}
    (h : tokenize source = .ok (tokens ++ [last])) :
    lexemes (tokens ++ [last]) = tokens.map Token.lexeme := by
  obtain ⟨front, final, hall, _, hend, hfront⟩ :=
    (TokenStream.ofSource_sealed source).split_of_collect h
  obtain ⟨rfl, hlast⟩ := List.append_inj' hall rfl
  obtain rfl : last = final := by simpa using hlast
  have hkept : tokens.filter (fun token => !token.isEnd) = tokens := by
    simpa using hfront
  simp [lexemes, hkept, hend]

namespace TokenStream

theorem words_of_scan (inside position : Nat) (text : List Char) :
    ∀ token ∈ (scan inside position text).tokens, ¬token.isEnd → token.lexeme.IsWord := by
  fun_induction scan inside position text with
  | case1 _ position => simp [tokens, Token.isEnd, Token.endAt]
  | case2 _ _ _ _ ih => exact ih
  | case3 _ _ _ _ ih => exact ih
  | case4 => simp [tokens]
  | case5 position c rest _ kind text hlexeme ih =>
      simp only [tokens, List.mem_cons, forall_eq_or_imp]
      exact ⟨fun _ => Lexeme.isWord_of_lexeme? hlexeme, ih⟩

end TokenStream

/-- The tokens of a source are words. -/
theorem words_of_tokenize {source : String} {tokens : List Token}
    (h : tokenize source = .ok tokens) : ∀ lexeme ∈ lexemes tokens, lexeme.IsWord := by
  obtain ⟨_, _, _, htokens, _⟩ := (TokenStream.ofSource_sealed source).split_of_collect h
  intro lexeme hlexeme
  simp only [lexemes, List.mem_map, List.mem_filter, Bool.not_eq_true'] at hlexeme
  obtain ⟨token, ⟨hmem, hend⟩, rfl⟩ := hlexeme
  rw [← htokens] at hmem
  exact TokenStream.words_of_scan 0 0 source.toList token hmem (by simp [hend])

/-- A lexeme is taken off the front of a text, and the scan goes on behind it. -/
theorem TokenStream.scan_lexeme {kind : TokenKind} {value rest : List Char}
    (h : lexeme? (value ++ rest) = some (kind, value)) (position : Nat) :
    scan 0 position (value ++ rest) =
      .ok ⟨kind, String.ofList value, .ofLength position (Text.byteLength value)⟩ ::
        scan 0 (position + Text.byteLength value) rest := by
  cases htext : value ++ rest with
  | nil =>
      rw [htext] at h
      cases h
  | cons c others =>
      have hseparator : ¬isSeparator c := by
        intro hseparator
        rw [htext, lexeme?_separator hseparator] at h
        cases h
      obtain ⟨behind, rfl⟩ := lexeme?_cons (htext ▸ h)
      obtain rfl : behind ++ rest = others := (List.cons.inj htext).2
      rw [scan, if_neg hseparator, ← List.cons_append, h]
      simp only [List.length_cons, Nat.add_sub_cancel]
      rw [scan_inside, List.take_left, List.drop_left, Text.byteLength_cons, Nat.add_assoc]

namespace Text

/-- The texts in turn, with `gap i` between text `i` and the one behind it. -/
def interpose (gap : Nat → String) : List String → String
  | [] => ""
  | [text] => text
  | text :: next :: rest => text ++ gap 0 ++ interpose (fun i => gap (i + 1)) (next :: rest)

theorem interpose_const (gap : String) (texts : List String) :
    interpose (fun _ => gap) texts = gap.intercalate texts := by
  induction texts with
  | nil => rfl
  | cons text rest ih =>
      cases rest with
      | nil => rfl
      | cons next rest => rw [interpose, ih, String.intercalate_cons_cons]

end Text

/-- Where the text stands before `rest`, the words are read from it. -/
def Lexes (text : List Char) (words : List Lexeme) (rest : List Char) : Prop :=
  ∀ position, ∃ (tokens : List Token) (position' : Nat), tokens.map Token.lexeme = words ∧
    TokenStream.scan 0 position (text ++ rest) =
      tokens.map .ok ++ TokenStream.scan 0 position' rest

namespace Lexes

theorem nil {rest : List Char} : Lexes [] [] rest :=
  fun position => ⟨[], position, rfl, rfl⟩

theorem append {text text' rest : List Char} {words words' : List Lexeme}
    (h : Lexes text words (text' ++ rest)) (h' : Lexes text' words' rest) :
    Lexes (text ++ text') (words ++ words') rest := by
  intro position
  obtain ⟨tokens, between, hwords, hscan⟩ := h position
  obtain ⟨tokens', behind, hwords', hscan'⟩ := h' between
  refine ⟨tokens ++ tokens', behind, ?_, ?_⟩
  · rw [List.map_append, hwords, hwords']
  · rw [List.append_assoc, hscan, hscan', List.map_append, List.append_assoc]

theorem separator {c : Char} (hc : isSeparator c) {text rest : List Char} {words : List Lexeme}
    (h : Lexes text words rest) : Lexes (c :: text) words rest := by
  intro position
  obtain ⟨tokens, behind, hwords, hscan⟩ := h (position + c.utf8Size)
  refine ⟨tokens, behind, hwords, ?_⟩
  rw [List.cons_append, TokenStream.scan, if_pos hc, hscan]

theorem blank {text rest : List Char} {words : List Lexeme} (h : Lexes text words rest) :
    Lexes (' ' :: text) words rest :=
  .separator rfl h

/-- A lexeme is taken as one word, and the scan goes on behind it. -/
theorem lexeme {kind : TokenKind} {value rest : List Char}
    (h : lexeme? (value ++ rest) = some (kind, value)) :
    Lexes value [⟨kind, String.ofList value⟩] rest :=
  fun position => ⟨[⟨kind, String.ofList value, .ofLength position (Text.byteLength value)⟩],
    position + Text.byteLength value, rfl, TokenStream.scan_lexeme h position⟩

theorem word {lexeme : Lexeme} (h : lexeme.IsWord) {rest : List Char} (hrest : Clear rest) :
    Lexes lexeme.value.toList [lexeme] rest := by
  have hword := Lexes.lexeme (lexeme?_append h hrest)
  simpa using hword

/-- A symbol with blanks around it is one word, whatever follows. -/
theorem between {symbol : String} (h : (Lexeme.mark symbol).IsWord) {rest : List Char} :
    Lexes (' ' :: (symbol.toList ++ [' '])) [.mark symbol] rest :=
  .blank (.append (.word h (.cons rfl)) (.blank .nil))

/-- Separators before a text are passed over. -/
theorem separators {gap : List Char} (hgap : ∀ c ∈ gap, isSeparator c) {text rest : List Char}
    {words : List Lexeme} (h : Lexes text words rest) : Lexes (gap ++ text) words rest := by
  induction gap with
  | nil => exact h
  | cons c gap ih =>
      obtain ⟨hc, hgap⟩ := List.forall_mem_cons.mp hgap
      exact .separator hc (ih hgap)

/-- Words with separators between them are read in turn. -/
theorem interposed {words : List Lexeme} (h : ∀ lexeme ∈ words, lexeme.IsWord)
    {gap : Nat → String} (hgap : ∀ i, gap i ≠ "" ∧ ∀ c ∈ (gap i).toList, isSeparator c)
    {rest : List Char} (hrest : Clear rest) :
    Lexes (Text.interpose gap (words.map Lexeme.value)).toList words rest := by
  induction words generalizing gap with
  | nil => exact .nil
  | cons lexeme words ih =>
      obtain ⟨hlexeme, hwords⟩ := List.forall_mem_cons.mp h
      cases words with
      | nil => exact .word hlexeme hrest
      | cons other words =>
          obtain ⟨hne, hseparators⟩ := hgap 0
          have hbehind := separators hseparators (ih hwords fun i => hgap (i + 1))
          obtain ⟨c, others, hcons⟩ := List.exists_cons_of_ne_nil (mt String.toList_eq_nil_iff.mp hne)
          have hclear : ∀ text, Clear ((gap 0).toList ++ text) := by
            intro text
            rw [hcons]
            exact .cons (isClear_of_isSeparator (hseparators c (by simp [hcons])))
          have hall := Lexes.append (.word hlexeme (by simpa using hclear _)) hbehind
          simpa [Text.interpose] using hall

/-- Words with blanks between them are read in turn. -/
theorem spaced {words : List Lexeme} (h : ∀ lexeme ∈ words, lexeme.IsWord) {rest : List Char}
    (hrest : Clear rest) :
    Lexes (" ".intercalate (words.map Lexeme.value)).toList words rest := by
  rw [← Text.interpose_const]
  exact .interposed h (fun _ => ⟨by decide, by simp [isSeparator]⟩) hrest

/-- A bracket or a comma is a lexeme whatever follows it. -/
theorem bracket {symbol : String} (h : symbol ∈ ["(", ")", "[", "]", ","]) {rest : List Char} :
    Lexes symbol.toList [.mark symbol] rest := by
  simp only [List.mem_cons, List.not_mem_nil, or_false] at h
  rcases h with rfl | rfl | rfl | rfl | rfl <;> exact Lexes.lexeme rfl

/-- A text whose words can be read up to its end consists of them. -/
theorem tokenize {source : String} {words : List Lexeme} (h : Lexes source.toList words []) :
    ∃ tokens, Precedence.tokenize source = .ok tokens ∧ lexemes tokens = words := by
  obtain ⟨tokens, position, rfl, hscan⟩ := h 0
  have htokens : Precedence.tokenize source = .ok (tokens ++ [.endAt position]) := by
    rw [← TokenStream.collect_map_ok, List.map_append]
    rw [List.append_nil] at hscan
    exact congrArg TokenStream.collect hscan
  exact ⟨_, htokens, lexemes_tokenize htokens⟩

end Lexes

/-! What follows a text that is read whole. -/

/-- A clear text changes no class of characters before it. -/
theorem takeWhile_before_clear {belongs : Char → Bool} (hends : ∀ c, isClear c → belongs c = false)
    (text : List Char) {rest : List Char} (hrest : Clear rest) :
    (text ++ rest).takeWhile belongs = text.takeWhile belongs ∧
      (text ++ rest).dropWhile belongs = text.dropWhile belongs ++ rest := by
  induction text with
  | nil =>
      cases rest with
      | nil => simp
      | cons c rest => simp [hends c (hrest c rfl)]
  | cons c text ih => by_cases hc : belongs c <;> simp [hc, ih]

theorem numberText_before_clear (text : List Char) {rest : List Char} (hrest : Clear rest) :
    numberText (text ++ rest) = numberText text := by
  have hdigits : ∀ c, isClear c → c.isDigit = false := fun c => not_isDigit_of_isClear
  obtain ⟨htake, hdrop⟩ := takeWhile_before_clear hdigits text hrest
  unfold numberText
  rw [htake, hdrop]
  cases text.dropWhile Char.isDigit with
  | nil =>
      cases rest with
      | nil => rfl
      | cons c rest =>
          have hdot : c ≠ '.' := by
            rintro rfl
            exact absurd (hrest '.' rfl) (by decide)
          simp [hdot]
  | cons c behind =>
      by_cases hdot : c = '.'
      · simp [hdot, takeWhile_before_clear hdigits behind hrest]
      · simp [hdot]

/-- A text begins with the same lexeme when a clear text follows it. -/
theorem lexeme?_before_clear {text : List Char} (htext : text ≠ []) {rest : List Char}
    (hrest : Clear rest) : lexeme? (text ++ rest) = lexeme? text := by
  obtain ⟨c, others, rfl⟩ := List.exists_cons_of_ne_nil htext
  have hnumber := numberText_before_clear (c :: others) hrest
  have hword := takeWhile_before_clear (fun c => not_isWordPart_of_isClear) others hrest
  have hsymbol : leadingSymbol? (punctuation ++ operatorSymbols) (c :: others ++ rest) =
      leadingSymbol? (punctuation ++ operatorSymbols) (c :: others) := by
    apply List.find?_congr
    intro symbol hmem
    exact isPrefixOf_append_clear (tail_of_symbol hmem) htext hrest
  rw [List.cons_append] at hnumber hsymbol ⊢
  simp only [lexeme?, hnumber, hword.1, hsymbol]

/-- A lexeme is cut from the front of the text. -/
theorem prefix_of_lexeme? {kind : TokenKind} {text value : List Char}
    (h : lexeme? text = some (kind, value)) : value <+: text := by
  cases text with
  | nil => cases h
  | cons c others =>
      simp only [lexeme?] at h
      split at h
      · cases h
        unfold numberText
        dsimp only
        split
        · rename_i rest hrest
          conv_rhs => rw [← @List.takeWhile_append_dropWhile _ Char.isDigit (c :: others), hrest]
          rw [List.prefix_append_right_inj, List.cons_prefix_cons]
          exact ⟨rfl, List.takeWhile_prefix _⟩
        · exact List.takeWhile_prefix _
      · split at h
        · cases h
          simp [List.takeWhile_prefix]
        · obtain ⟨symbol, hfound, hvalue⟩ := Option.map_eq_some_iff.mp h
          cases hvalue
          unfold leadingSymbol? at hfound
          have hleads := List.find?_some hfound
          exact List.isPrefixOf_iff_prefix.mp hleads

end Precedence
