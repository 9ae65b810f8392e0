import Precedence.Proofs.Adequacy
import Precedence.Proofs.CTable
import Precedence.Proofs.Lexing

/-!
A parse with the C grammar accounts for every token: the tokens it has taken are
a spelling of the expression it has built, nested no deeper than its budget. The
statement is carried through the rules one by one, from what each operand takes
to what the whole takes.
-/

namespace Precedence

open Lexeme Parse

theorem Token.lexeme_of_is {token : Token} {text : String} (h : token.is text) :
    token.lexeme = mark text := by
  simp only [Token.is, Bool.and_eq_true, decide_eq_true_eq] at h
  simp only [Token.lexeme, mark, h.1, h.2]

theorem Token.lexeme_of_operator {token : Token} (h : token.kind = .operator) :
    token.lexeme = mark token.value := by
  simp only [Token.lexeme, mark, h]

/-- The tokens taken, from `tokens` up to `rest`, spell the expression with
operands nested at most `depth` deep. -/
def Yields (depth : Nat) (expr : Expr) (tokens rest : List Token) : Prop :=
  expr.WellFormed cTable ∧
    ∃ used, tokens = used ++ rest ∧ SpellingWithin depth expr (used.map Token.lexeme)

def Parse.Reading.Yields (reading : Reading) (depth : Nat) : Prop :=
  ∀ {bound : Int} {tokens : List Token} {expr : Expr} {rest : List Token},
    reading bound tokens expr rest → Precedence.Yields depth expr tokens rest

/-- An operator over operands, where the first one was there before. -/
theorem SpellingWithin.extend {depth : Nat} {tag : String} {construct : Construct}
    {first : Expr} {rest : List Expr} {span : Span} {operand body : List Lexeme}
    {operands : List (List Lexeme)} (htag : Construct.of tag (rest.length + 1) = construct)
    (hconstruct : construct.followsOperand) (hfirst : SpellingWithin (depth + 1) first operand)
    (hrest : List.Forall₂ (SpellingWithin depth) rest operands)
    (hbody : construct.Layout (operand :: operands) body) :
    SpellingWithin (depth + 1) (.node tag (first :: rest) false span) body := by
  obtain ⟨hlength, hzip⟩ := List.forall₂_iff_zip.mp hrest
  subst htag
  exact @following (depth + 1) depth 0 tag first rest false span operand body operands
    hconstruct hfirst hlength hzip hbody (by simp) (by omega)

/-- An operator and the operand behind it. -/
theorem SpellingWithin.lead {depth : Nat} {symbol : String} {child : Expr} {span : Span}
    {operand : List Lexeme} (htag : Construct.of symbol 1 = .prefixed symbol)
    (hchild : SpellingWithin depth child operand) :
    SpellingWithin (depth + 1) (.node symbol [child] false span) (mark symbol :: operand) := by
  refine @leading (depth + 1) depth 0 symbol child false span operand _ ?_ hchild ?_ (by simp)
    (by omega)
  · simp [htag, Construct.followsOperand]
  · rw [htag]
    exact .prefixed

theorem Construct.Layout.append {operand text body : List Lexeme}
    {operands : List (List Lexeme)} (h : Construct.sequence.Layout (operand :: operands) body) :
    Construct.sequence.Layout (operand :: (operands ++ [text])) (body ++ mark "," :: text) := by
  cases h with
  | @sequence _ second others =>
      have hbody := separated_append (List.cons_ne_nil operand (second :: others))
        (List.cons_ne_nil text [])
      simp only [List.cons_append, separated, List.intercalate_singleton] at hbody ⊢
      rw [← hbody]
      exact .sequence

/-- Another element joins an open sequence. -/
theorem SpellingWithin.append {depth : Nat} {elements : List Expr} {right : Expr}
    {span span' : Span} {text operand : List Lexeme}
    (hleft : SpellingWithin (depth + 1) (.node "," elements false span) text)
    (hright : SpellingWithin depth right operand) :
    SpellingWithin (depth + 1) (.node "," (elements ++ [right]) false span')
      (text ++ mark "," :: operand) := by
  generalize hexpr : Expr.node "," elements false span = expr at hleft
  cases hleft with
  | leaf => cases hexpr
  | leading hconstruct =>
      cases hexpr
      exact absurd rfl hconstruct
  | @following _ inner pairs _ first rest _ _ text body texts _ hfirst hlength hrest hbody
      hgrouped hdepth =>
      cases hexpr
      obtain rfl : pairs = 0 := by simpa using hgrouped
      have hrest : List.Forall₂ (SpellingWithin depth) rest texts :=
        List.forall₂_iff_zip.mpr ⟨hlength, fun hmem => (hrest hmem).mono (by omega)⟩
      exact extend rfl rfl (hfirst.mono (by omega)) (List.rel_append hrest (.cons hright .nil))
        hbody.append

namespace Parse

section Rules

variable {reading : Reading} {depth : Nat} {token : Token} {tokens rest : List Token}
  {expr : Expr}

theorem yields_prefixed {inner : Expr} {span : Span}
    (hrule : (cTable.null token).rule = .prefixed ∨ (cTable.null token).rule = .prefixUpdate)
    (hinner : Yields depth inner tokens rest) :
    Yields (depth + 1) (.node token.value [inner] false span) (token :: tokens) rest := by
  obtain ⟨hkind, htag⟩ := CTable.symbol_of_prefixed hrule
  obtain ⟨hwell, used, rfl, hspelling⟩ := hinner
  refine ⟨.node ?_ ?_ (by simpa using hwell), token :: used, rfl, ?_⟩
  · rw [List.length_singleton, htag, Construct.Registered, ← OperatorTable.null_of_operator hkind]
    exact hrule
  · rw [List.length_singleton, htag, Construct.Arity]
  · rw [List.map_cons, Token.lexeme_of_operator hkind]
    exact hspelling.lead htag

theorem NullReads.yields (hreading : reading.Yields depth)
    (h : NullReads reading (cTable.null token) token tokens expr rest) :
    Yields (depth + 1) expr (token :: tokens) rest := by
  cases h with
  | literal hrule =>
      have hkind := CTable.kind_of_literal hrule
      exact ⟨.leaf hkind, [token], rfl, @SpellingWithin.leaf _ 0 token (by omega)⟩
  | @grouping _ inner close next hrule hinner hclose =>
      obtain ⟨hkind, hvalue⟩ := CTable.symbol_of_null hrule (by decide)
      have hopen : token.lexeme = mark "(" := by
        rw [Token.lexeme_of_operator hkind, of_decide_eq_true hvalue]
      obtain ⟨hwell, used, rfl, hspelling⟩ := hreading hinner
      refine ⟨hwell.group, token :: (used ++ [close]), ?_, ?_⟩
      · rw [List.cons_append, List.append_assoc, List.singleton_append]
      · simp only [List.map_cons, List.map_append, List.map_nil, hopen,
          Token.lexeme_of_is hclose]
        exact hspelling.group
  | prefixed hrule hinner => exact yields_prefixed (.inl hrule) (hreading hinner)
  | prefixUpdate hrule hinner _ => exact yields_prefixed (.inr hrule) (hreading hinner)

/-- The tokens of an argument list spell the arguments, with commas between them
and perhaps one more behind the last. -/
theorem ArgumentsRead.yields (hreading : reading.Yields depth) {bound : Int}
    {values : List Expr} (h : ArgumentsRead reading bound tokens values rest) :
    (∀ value ∈ values, value.WellFormed cTable) ∧
      ∃ used texts, tokens = used ++ rest ∧
        List.Forall₂ (SpellingWithin depth) values texts ∧
        (used.map Token.lexeme = separated texts ∨
          texts ≠ [] ∧ used.map Token.lexeme = separated texts ++ [mark ","]) := by
  induction h with
  | done => exact ⟨by simp, [], [], rfl, .nil, .inl rfl⟩
  | last _ _ hfirst _ =>
      obtain ⟨hwell, used, htokens, hspelling⟩ := hreading hfirst
      refine ⟨by simpa using hwell, used, [_], htokens, .cons hspelling .nil, .inl ?_⟩
      simp [separated]
  | @more token separator next tokens between rest first others _ _ hfirst hseparator hothers ih =>
      obtain ⟨hwell, used, htokens, hspelling⟩ := hreading hfirst
      obtain ⟨hwells, behind, texts, hbehind, hspellings, htext⟩ := ih
      refine ⟨by simpa [hwell] using hwells, used ++ separator :: behind,
        used.map Token.lexeme :: texts, ?_, .cons hspelling hspellings, ?_⟩
      · rw [htokens, hbehind, List.append_assoc, List.cons_append]
      · simp only [List.map_append, List.map_cons, Token.lexeme_of_is hseparator]
        cases texts with
        | nil =>
            have hempty : behind.map Token.lexeme = [] := by simpa [separated] using htext
            exact .inr ⟨by simp, by simp [hempty, separated]⟩
        | cons text texts =>
            simp only [separated, List.intercalate_cons_cons, List.append_assoc,
              List.singleton_append] at htext ⊢
            rcases htext with htext | ⟨_, htext⟩
            · exact .inl (by rw [htext])
            · exact .inr ⟨by simp, by rw [htext, List.cons_append]⟩

/-- An operator over the operand before it and others behind it. -/
theorem yields_following {tag : String} {construct : Construct} {left : Expr}
    {others : List Expr} {span : Span} {all front : List Token} (used : List Token)
    {texts : List (List Lexeme)} (hall : all = front ++ used ++ rest)
    (hwell : left.WellFormed cTable)
    (hspelling : SpellingWithin (depth + 1) left (front.map Token.lexeme))
    (htag : Construct.of tag (others.length + 1) = construct)
    (hconstruct : construct.followsOperand) (hregistered : construct.Registered cTable)
    (hwells : ∀ other ∈ others, other.WellFormed cTable)
    (hspellings : List.Forall₂ (SpellingWithin depth) others texts)
    (hbody : construct.Layout (front.map Token.lexeme :: texts)
      ((front ++ used).map Token.lexeme)) :
    Yields (depth + 1) (.node tag (left :: others) false span) all rest := by
  refine ⟨.node ?_ ?_ ?_, front ++ used, hall, ?_⟩
  · rwa [List.length_cons, htag]
  · rw [List.length_cons, htag, hspellings.length_eq]
    exact hbody.arity
  · simpa [hwell] using hwells
  · exact .extend htag hconstruct hspelling hspellings hbody

theorem yields_binary {left right : Expr} {span : Span} {front : List Token}
    (hrule : (cTable.left token).rule = .binary ∨ (cTable.left token).rule = .assignment)
    (hwell : left.WellFormed cTable)
    (hspelling : SpellingWithin (depth + 1) left (front.map Token.lexeme))
    (hright : Yields depth right tokens rest) :
    Yields (depth + 1) (.node token.value [left, right] false span) (front ++ token :: tokens)
      rest := by
  obtain ⟨hkind, htag⟩ := CTable.symbol_of_binary hrule
  obtain ⟨hwell', used, rfl, hspelling'⟩ := hright
  rw [OperatorTable.left_of_operator hkind] at hrule
  refine yields_following (token :: used) (by simp) hwell hspelling htag rfl hrule
    (by simpa using hwell') (.cons hspelling' .nil) ?_
  simp only [List.map_append, List.map_cons, Token.lexeme_of_operator hkind]
  exact .binary

theorem yields_sequence {left right : Expr} {front : List Token}
    (hrule : (cTable.left token).rule = .comma) (hwell : left.WellFormed cTable)
    (hspelling : SpellingWithin (depth + 1) left (front.map Token.lexeme))
    (hright : Yields depth right tokens rest) :
    Yields (depth + 1) (sequence left right) (front ++ token :: tokens) rest := by
  have hcomma := Token.lexeme_of_is (CTable.is_of_rule (congrArg LeftRule.symbol? hrule))
  obtain ⟨hwell', used, rfl, hspelling'⟩ := hright
  unfold sequence
  split
  · -- An open sequence takes the element in.
    refine ⟨hwell.append hwell', front ++ token :: used, by simp, ?_⟩
    simp only [List.map_append, List.map_cons, hcomma]
    exact hspelling.append hspelling'
  · have htag : Construct.of "," 2 = .sequence := rfl
    refine yields_following (token :: used) (by simp) hwell hspelling htag rfl trivial
      (by simpa using hwell') (.cons hspelling' .nil) ?_
    have hbody := @Construct.Layout.sequence (front.map Token.lexeme) (used.map Token.lexeme) []
    simpa [separated, hcomma] using hbody

/-- What an operator does with the operand before it keeps the account. -/
theorem LeftReads.yields (hreading : reading.Yields depth) {all : List Token} {left : Expr}
    (hleft : Yields (depth + 1) left all (token :: tokens))
    (h : LeftReads cTable reading (cTable.left token) token left tokens expr rest) :
    Yields (depth + 1) expr all rest := by
  obtain ⟨hwell, front, rfl, hspelling⟩ := hleft
  cases h with
  | binary hrule hright => exact yields_binary (.inl hrule) hwell hspelling (hreading hright)
  | assignment hrule _ hright =>
      exact yields_binary (.inr hrule) hwell hspelling (hreading hright)
  | @ternary _ _ positive negative colon next hrule hpositive hcolon hnegative =>
      have hquestion := Token.lexeme_of_is (CTable.is_of_rule (congrArg LeftRule.symbol? hrule))
      obtain ⟨hwell₁, first, rfl, hspelling₁⟩ := hreading hpositive
      obtain ⟨hwell₂, second, htokens, hspelling₂⟩ := hreading hnegative
      refine yields_following (token :: (first ++ colon :: second)) (by simp [htokens]) hwell
        hspelling rfl rfl trivial (by simp [hwell₁, hwell₂])
        (.cons hspelling₁ (.cons hspelling₂ .nil)) ?_
      simp only [List.map_append, List.map_cons, hquestion, Token.lexeme_of_is hcolon]
      exact .ternary
  | comma hrule hright => exact yields_sequence hrule hwell hspelling (hreading hright)
  | @call _ values close next hrule hvalues hclose =>
      have hopen := Token.lexeme_of_is (CTable.is_of_rule (congrArg LeftRule.symbol? hrule))
      obtain ⟨hwells, used, texts, rfl, hspellings, htext⟩ := hvalues.yields hreading
      refine yields_following (token :: (used ++ [close])) (by simp) hwell hspelling rfl rfl
        trivial hwells hspellings ?_
      simp only [List.map_append, List.map_cons, List.map_nil, hopen, Token.lexeme_of_is hclose]
      rcases htext with htext | ⟨hne, htext⟩
      · rw [htext]
        exact .call
      · rw [htext, List.append_assoc]
        exact .callTrailing hne
  | @index _ place close next hrule hplace hclose =>
      have hopen := Token.lexeme_of_is (CTable.is_of_rule (congrArg LeftRule.symbol? hrule))
      obtain ⟨hwell', used, rfl, hspelling'⟩ := hreading hplace
      refine yields_following (token :: (used ++ [close])) (by simp) hwell hspelling rfl rfl
        trivial (by simpa using hwell') (.cons hspelling' .nil) ?_
      simp only [List.map_append, List.map_cons, List.map_nil, hopen, Token.lexeme_of_is hclose]
      exact .index
  | suffixed hrule =>
      obtain ⟨hkind, hvalue⟩ := CTable.symbol_of_left hrule (by decide) (by decide)
      have htag := of_decide_eq_true hvalue
      refine yields_following [token] (by simp) hwell hspelling htag rfl ?_ (by simp) .nil ?_
      · rw [OperatorTable.left_of_operator hkind] at hrule
        exact hrule
      · simp only [List.map_append, List.map_cons, List.map_nil, Token.lexeme_of_operator hkind]
        exact .suffixed

end Rules

/-- Every state of the loop accounts for the tokens before it. -/
theorem Reaches.yields {reading : Reading} {depth : Nat} (hreading : reading.Yields depth)
    {bound power : Int} {tokens rest : List Token} {expr : Expr}
    (h : Reaches cTable reading bound tokens power expr rest) :
    Yields (depth + 1) expr tokens rest := by
  induction h with
  | start htokens _ hnull =>
      rw [htokens]
      exact hnull.yields hreading
  | step _ _ _ hstep ih => exact hstep.yields hreading ih

theorem Reads.yields (budget : Nat) : (Reads cTable budget).Yields budget := by
  intro bound tokens expr rest h
  induction h using Reads.run with
  | step ih hreached _ => exact hreached.yields ih

end Parse

theorem CTable.endIsInert : cTable.EndIsInert := by
  intro token hend
  rw [CTable.left_end hend]
  exact .inl rfl

/-- The tokens of an accepted source, apart from the end of the input, spell the
expression that is read, and do so within the limit on nesting. -/
theorem Parser.spelling_of_parse {limit : Nat} {source : String} {expr : Expr}
    (h : (Parser.ofC limit).parse source = .ok expr) :
    expr.WellFormed cTable ∧ ∃ tokens, tokenize source = .ok tokens ∧
      SpellingWithin limit expr (lexemes tokens) := by
  obtain ⟨tokens, last, htokenize, hend, hreads⟩ := (parse_eq_ok_iff CTable.endIsInert).mp h
  obtain ⟨hwell, used, htokens, hspelling⟩ := Reads.yields limit hreads
  refine ⟨hwell, tokens ++ [last], htokenize, ?_⟩
  obtain rfl := List.append_cancel_right htokens
  rwa [lexemes_tokenize htokenize]

/-- Nothing of a source is dropped, invented or reordered: its tokens apart from
the end of the input spell the expression that is read. -/
theorem Parser.tokens_spell_expression {limit : Nat} {source : String} {expr : Expr}
    (h : (Parser.ofC limit).parse source = .ok expr) :
    expr.WellFormed cTable ∧ ∃ tokens, tokenize source = .ok tokens ∧
      Spelling expr (lexemes tokens) := by
  obtain ⟨hwell, tokens, htokens, hspelling⟩ := spelling_of_parse h
  exact ⟨hwell, tokens, htokens, hspelling.spelling⟩

theorem Parser.exists_of_sexp {parser : Parser} {source text : String}
    (h : (parser.parse source).toOption.map Expr.sexp = some text) :
    ∃ expr, parser.parse source = .ok expr ∧ expr.sexp = text := by
  cases hparse : parser.parse source with
  | error diagnostic =>
      rw [hparse] at h
      cases h
  | ok expr =>
      rw [hparse] at h
      exact ⟨expr, rfl, Option.some.inj h⟩

theorem Parser.tokens_spell_conditional :
    ∃ expr, (Parser.ofC 8).parse "x[i] = f(7., (b, c),) ? --y : -z!" = .ok expr ∧
      expr.sexp = "(= (get x i) (? (call f 7. (, b c)) (-- y) (- (post! z))))" ∧
      expr.WellFormed cTable ∧
      ∃ tokens, tokenize "x[i] = f(7., (b, c),) ? --y : -z!" = .ok tokens ∧
        Spelling expr (lexemes tokens) := by
  obtain ⟨expr, hparse, hsexp⟩ := @exists_of_sexp (.ofC 8) "x[i] = f(7., (b, c),) ? --y : -z!"
    "(= (get x i) (? (call f 7. (, b c)) (-- y) (- (post! z))))" (by decide +kernel)
  exact ⟨expr, hparse, hsexp, tokens_spell_expression hparse⟩

end Precedence
