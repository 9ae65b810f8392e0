import Precedence.Proofs.Readable

/-!
The C grammar reads every spelling of every expression that agrees with its
table, and no two such expressions share one.
-/

namespace Precedence

open Lexeme Parse

theorem Readable.regroup {depth pairs : Nat} {tag : String} {children : List Expr}
    {grouped : Bool} {span : Span} {body : List Lexeme}
    (h : Readable depth (.node tag children false span) body)
    (hwell : (Expr.node tag children false span).WellFormed cTable)
    (hgrouped : grouped = true ↔ 0 < pairs) :
    Readable (depth + pairs) (.node tag children grouped span) (enclose pairs body) := by
  have hall := h.inPairs hwell pairs
  split at hall
  · rename_i hpairs
    rwa [hgrouped.mpr hpairs]
  · rename_i hpairs
    rwa [Bool.eq_false_iff.mpr (mt hgrouped.mp hpairs)]

/-- Every spelling of an expression that agrees with the table can be read, at
one less than the depth that operands nest in it. -/
theorem readable_of_spelling {depth : Nat} {expr : Expr} {text : List Lexeme}
    (hwell : expr.WellFormed cTable) (hagrees : expr.Agrees cTable)
    (h : SpellingWithin (depth + 1) expr text) : Readable depth expr text := by
  induction expr generalizing depth text with
  | leaf token =>
      cases hwell with
      | leaf hkind =>
          cases h with
          | @leaf _ pairs _ hdepth =>
              have hread := (@readable_leaf (depth - pairs) token hkind).inPairs (.leaf hkind) pairs
              rw [Nat.sub_add_cancel (by omega)] at hread
              simpa [Expr.group] using hread
  | node tag children grouped span ih =>
      obtain ⟨hregistered, harity, hchildrenWell⟩ := hwell.of_node
      obtain ⟨hholds, hchildrenAgree⟩ := hagrees.of_node
      have hopen : (Expr.node tag children false span).WellFormed cTable :=
        .node hregistered harity hchildrenWell
      -- The operand an operator begins with is read by the same loop, the others by a loop of
      -- their own, one level deeper.
      have hreadable : ∀ {inner : Nat} {child : Expr} {text : List Lexeme}, child ∈ children →
          SpellingWithin (inner + 1) child text → Readable inner child text :=
        fun hchild => ih _ hchild (hchildrenWell _ hchild) (hchildrenAgree _ hchild)
      have hlegible : ∀ {inner : Nat} {child : Expr} {text : List Lexeme}, child ∈ children →
          SpellingWithin inner child text → Legible inner child text := by
        intro inner child text hchild hspelling
        have hinner : inner - 1 + 1 = inner := Nat.sub_add_cancel hspelling.pos
        rw [← hinner] at hspelling ⊢
        exact (hreadable hchild hspelling).legible
      cases h with
      | @leading _ inner pairs _ child _ _ operand body hconstruct hchild hbody hgrouped hdepth =>
          rw [← Nat.sub_add_cancel (by omega : pairs ≤ depth)]
          refine Readable.regroup ?_ hopen hgrouped
          refine readable_leading rfl hconstruct hregistered hholds ?_ hbody
          exact hlegible (by simp) (hchild.mono (by omega))
      | @following _ inner pairs _ first rest _ _ operand body operands hconstruct hfirst hlength
          hrest hbody hgrouped hdepth =>
          rw [← Nat.sub_add_cancel (by omega : pairs ≤ depth)]
          refine Readable.regroup ?_ hopen hgrouped
          refine readable_following rfl hconstruct hregistered hholds hchildrenWell ?_ ?_ hbody
          · exact hreadable (by simp) (hfirst.mono (by omega))
          · refine List.forall₂_iff_zip.mpr ⟨hlength, ?_⟩
            intro other text hmem
            exact hlegible (.tail _ (List.of_mem_zip hmem).1) ((hrest hmem).mono (by omega))

/-- Tokens that spell an expression that agrees with the table are read as that
expression up to the end of the input. -/
theorem reads_of_spelling {depth : Nat} {expr : Expr} {tokens : List Token} {last : Token}
    (hwell : expr.WellFormed cTable) (hagrees : expr.Agrees cTable)
    (h : SpellingWithin depth expr (tokens.map Token.lexeme)) (hend : last.isEnd) :
    ∃ read, read.eraseSpans = expr.eraseSpans ∧
      Reads cTable depth minPower (tokens ++ [last]) read [last] := by
  have hdepth : depth - 1 + 1 = depth := Nat.sub_add_cancel h.pos
  rw [← hdepth] at h ⊢
  apply (readable_of_spelling hwell hagrees h).legible.of_inert hwell rfl
  rw [CTable.left_end hend]
  rfl

/-- A source that spells an expression that agrees with the table is read as that
expression, if the parser has the depth that operands nest in it. -/
theorem Parser.parse_of_spelling {limit : Nat} {source : String} {tokens : List Token}
    {expr : Expr} (hwell : expr.WellFormed cTable) (hagrees : expr.Agrees cTable)
    (htokens : tokenize source = .ok tokens)
    (hspelling : SpellingWithin limit expr (lexemes tokens)) :
    ∃ read, (Parser.ofC limit).parse source = .ok read ∧ read.eraseSpans = expr.eraseSpans := by
  obtain ⟨front, last, rfl, _, hend, _⟩ :=
    (TokenStream.ofSource_sealed source).split_of_collect htokens
  rw [lexemes_tokenize htokens] at hspelling
  obtain ⟨read, herase, hread⟩ := reads_of_spelling hwell hagrees hspelling hend
  refine ⟨read, ?_, herase⟩
  exact (parse_eq_ok_iff CTable.endIsInert).mpr ⟨front, last, htokens, hend, hread⟩

/-- Two expressions that agree with the table share a spelling only if they are
the same tree. -/
theorem Spelling.unambiguous {expr other : Expr} {text : List Lexeme}
    (hwell : expr.WellFormed cTable) (hagrees : expr.Agrees cTable)
    (hwell' : other.WellFormed cTable) (hagrees' : other.Agrees cTable)
    (h : Spelling expr text) (h' : Spelling other text) : expr.eraseSpans = other.eraseSpans := by
  have htext := h.kind_ne_end hwell
  -- Any tokens with these lexemes do, and the parser reads only one expression from them.
  obtain ⟨tokens, rfl⟩ : ∃ tokens : List Token, tokens.map Token.lexeme = text := by
    refine ⟨text.map fun lexeme => ⟨lexeme.kind, lexeme.value, .origin⟩, ?_⟩
    simp [Token.lexeme, Function.comp_def]
  have hfront : ∀ token ∈ tokens, ¬token.isEnd := by
    intro token htoken
    have hkind : token.kind ≠ .endOfInput := htext _ (List.mem_map_of_mem htoken)
    simpa [Token.isEnd] using hkind
  have hend : (Token.endAt 0).isEnd := rfl
  obtain ⟨read, herase, hread⟩ := reads_of_spelling hwell hagrees h.within_length hend
  obtain ⟨read', herase', hread'⟩ := reads_of_spelling hwell' hagrees' h'.within_length hend
  rw [← herase, ← herase', Reads.unique CTable.endIsInert hfront hend hread hread']

/-- The C grammar is complete and unambiguous. A source whose tokens spell an
expression that agrees with the table is read as that expression, whenever the
parser has the depth that operands nest in the spelling; the number of tokens is
always enough. No other tree that agrees with the table has a spelling in common
with it. -/
theorem Parser.reads_every_spelling {expr : Expr} (hwell : expr.WellFormed cTable)
    (hagrees : expr.Agrees cTable) :
    (∀ {limit : Nat} {source : String} {tokens : List Token}, tokenize source = .ok tokens →
      SpellingWithin limit expr (lexemes tokens) →
      ∃ read, (Parser.ofC limit).parse source = .ok read ∧
        read.eraseSpans = expr.eraseSpans) ∧
    (∀ {limit : Nat} {source : String} {tokens : List Token}, tokenize source = .ok tokens →
      Spelling expr (lexemes tokens) → (lexemes tokens).length ≤ limit →
      ∃ read, (Parser.ofC limit).parse source = .ok read ∧
        read.eraseSpans = expr.eraseSpans) ∧
    (∀ {other : Expr} {text : List Lexeme}, other.WellFormed cTable → other.Agrees cTable →
      Spelling expr text → Spelling other text → other.eraseSpans = expr.eraseSpans) := by
  refine ⟨?_, ?_, ?_⟩
  · intro limit source tokens htokens hspelling
    exact parse_of_spelling hwell hagrees htokens hspelling
  · intro limit source tokens htokens hspelling hlimit
    exact parse_of_spelling hwell hagrees htokens (hspelling.within_length.mono hlimit)
  · intro other text hwell' hagrees' hspelling hspelling'
    exact hspelling'.unambiguous hwell' hagrees' hwell hagrees hspelling

theorem Parser.reads_every_spelling_product :
    let product : Expr := .node "*" [.leaf ⟨.identifier, "b", .origin⟩,
      .leaf ⟨.number, "2", .origin⟩] false .origin
    let expr : Expr := .node "-" [.leaf ⟨.identifier, "a", .origin⟩, product] false .origin
    expr.WellFormed cTable ∧ expr.Agrees cTable ∧
      ∃ read, (Parser.ofC 7).parse "a - (b) * 2" = .ok read ∧
        read.eraseSpans = expr.eraseSpans := by
  intro product expr
  have hproduct : product.WellFormed cTable ∧ product.Agrees cTable := by
    refine ⟨.node (.inl rfl) rfl ?_, .node ⟨?_, ?_, ?_, ?_, ?_⟩ ?_⟩
    · simp [Expr.WellFormed.leaf]
    · simp [Construct.of, Construct.trailing, Expr.leftSpine]
    · simp [Construct.of]
    · simp [Expr.rightSpine]
    · simp [Construct.of]
    · intro hupdates
      cases hupdates
    · simp [Expr.Agrees.leaf]
  have hwell : expr.WellFormed cTable := by
    refine .node (.inl rfl) rfl ?_
    simp [Expr.WellFormed.leaf, hproduct.1]
  have hagrees : expr.Agrees cTable := by
    refine .node ⟨?_, ?_, ?_, ?_, ?_⟩ ?_
    · intro operand hoperand inner hinner
      obtain rfl : operand = product := List.mem_singleton.mp hoperand
      obtain rfl : inner = .binary "*" := List.mem_singleton.mp hinner
      decide
    · simp [Construct.of]
    · simp [Expr.rightSpine]
    · simp [Construct.of]
    · intro hupdates
      cases hupdates
    · simp [Expr.Agrees.leaf, hproduct.2]
  have hfactors : Spelling product [mark "(", ⟨.identifier, "b"⟩, mark ")", mark "*",
      ⟨.number, "2"⟩] :=
    @Spelling.node _ _ _ _ 0 _ _ (.cons (.leaf _ 1) (.cons (.leaf _ 0) .nil)) .binary (by simp)
  have hspelling : Spelling expr [⟨.identifier, "a"⟩, mark "-", mark "(", ⟨.identifier, "b"⟩,
      mark ")", mark "*", ⟨.number, "2"⟩] :=
    @Spelling.node _ _ _ _ 0 _ _ (.cons (.leaf _ 0) (.cons hfactors .nil)) .binary (by simp)
  exact ⟨hwell, hagrees, (reads_every_spelling hwell hagrees).2.1 rfl hspelling (by decide)⟩

end Precedence
