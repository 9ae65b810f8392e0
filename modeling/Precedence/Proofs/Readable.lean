import Precedence.Proofs.Agreement

/-!
How expressions are read from their spellings, operator by operator. The statement
that carries the induction says what may follow: an expression is read up to a
token that holds what stands before it no tighter than the operators open at the
end of the expression hold theirs. Under that condition the loop comes to the
expression whatever the bound is that its beginning allows.
-/

namespace Precedence

open Lexeme Parse

/-- The text is read as the expression, up to spans, by a loop at any bound that
the beginning of the expression allows, before any token that its end allows. -/
def Readable (depth : Nat) (expr : Expr) (text : List Lexeme) : Prop :=
  ∀ ⦃bound : Int⦄ ⦃tokens : List Token⦄ ⦃next : Token⦄ ⦃rest : List Token⦄,
    tokens.map Token.lexeme = text →
    (∀ construct ∈ expr.leftSpine, bound < construct.leftPower cTable) →
    (∀ construct ∈ expr.rightSpine, NextAtMost (construct.rightPower cTable) (next :: rest)) →
    ∃ read power, read.eraseSpans = expr.eraseSpans ∧
      Reaches cTable (Reads cTable depth) bound (tokens ++ next :: rest) power read
        (next :: rest) ∧
      (cTable.left next).leftPower < power

/-- The text is read as an operand, up to spans, if the next token does not go on
with it. -/
def Legible (depth : Nat) (expr : Expr) (text : List Lexeme) : Prop :=
  ∀ ⦃bound : Int⦄ ⦃tokens : List Token⦄ ⦃next : Token⦄ ⦃rest : List Token⦄,
    tokens.map Token.lexeme = text →
    (∀ construct ∈ expr.leftSpine, bound < construct.leftPower cTable) →
    (∀ construct ∈ expr.rightSpine, NextAtMost (construct.rightPower cTable) (next :: rest)) →
    NextAtMost bound (next :: rest) →
    ∃ read, read.eraseSpans = expr.eraseSpans ∧
      Reads cTable depth bound (tokens ++ next :: rest) read (next :: rest)

theorem nextAtMost_cons {power : Int} {next : Token} {rest : List Token} :
    NextAtMost power (next :: rest) ↔ (cTable.left next).leftPower ≤ power := by
  simp [NextAtMost]

theorem Readable.legible {depth : Nat} {expr : Expr} {text : List Lexeme}
    (h : Readable depth expr text) : Legible (depth + 1) expr text := by
  intro bound tokens next rest htokens hleft hright hnext
  obtain ⟨read, power, herase, hreached, _⟩ := h htokens hleft hright
  refine ⟨read, herase, power, hreached, ?_⟩
  intro token htoken
  have hle := hnext token htoken
  omega

/-- Before a token that binds nothing, an operand is read at the loosest bound. -/
theorem Legible.of_inert {depth : Nat} {expr : Expr} {text : List Lexeme}
    (h : Legible depth expr text) (hwell : expr.WellFormed cTable) {tokens : List Token}
    {next : Token} {rest : List Token} (htokens : tokens.map Token.lexeme = text)
    (hnext : (cTable.left next).leftPower = 0) :
    ∃ read, read.eraseSpans = expr.eraseSpans ∧
      Reads cTable depth minPower (tokens ++ next :: rest) read (next :: rest) := by
  refine h htokens hwell.leftSpine_pos ?_ ?_
  · intro construct hconstruct
    rw [nextAtMost_cons, hnext]
    exact Int.le_trans (by decide) (hwell.rightSpine_bound construct hconstruct)
  · rw [nextAtMost_cons, hnext]
    exact Int.le_refl 0

/-- A sequence goes on with an open one, whatever the spans are. -/
theorem Parse.eraseSpans_sequence (left right : Expr) :
    (Parse.sequence left right).eraseSpans =
      .node "," (((if left.isOpenSequence then left.children else [left]) ++ [right]).map
        Expr.eraseSpans) false .origin := by
  unfold Parse.sequence
  split
  · simp [Expr.eraseSpans, Expr.children, Expr.isOpenSequence]
  · rename_i hopen
    have hclosed : left.isOpenSequence = false := by
      unfold Expr.isOpenSequence
      split
      · exact absurd rfl (hopen _ _)
      · rfl
    simp [Expr.ofOperands, Expr.eraseSpans, hclosed]

theorem Parse.eraseSpans_sequence_congr {left left' right right' : Expr}
    (hleft : left.eraseSpans = left'.eraseSpans) (hright : right.eraseSpans = right'.eraseSpans) :
    (Parse.sequence left right).eraseSpans = (Parse.sequence left' right').eraseSpans := by
  have hopen : left.isOpenSequence = left'.isOpenSequence := by
    rw [← Expr.isOpenSequence_eraseSpans, hleft, Expr.isOpenSequence_eraseSpans]
  have hchildren : left.children.map Expr.eraseSpans = left'.children.map Expr.eraseSpans := by
    rw [← Expr.children_eraseSpans, hleft, Expr.children_eraseSpans]
  rw [eraseSpans_sequence, eraseSpans_sequence, hopen]
  split <;> simp [hleft, hright, hchildren]

namespace Token

theorem is_of_lexeme {token : Token} {text : String} (h : token.lexeme = mark text) :
    token.is text := by
  simp only [lexeme, mark, Lexeme.mk.injEq] at h
  simp [is, h]

theorem left_of_lexeme {token : Token} {text : String} (h : token.lexeme = mark text) :
    cTable.left token = cTable.leftOfSymbol text :=
  OperatorTable.left_of_is (is_of_lexeme h)

theorem rule_of_lexeme {token : Token} {text : String} {rule : LeftRule}
    (h : token.lexeme = mark text) (hrule : rule.symbol? = some text) :
    (cTable.left token).rule = rule := by
  rw [left_of_lexeme h]
  exact CTable.rule_of_symbol hrule

theorem null_of_lexeme {token : Token} {text : String} (h : token.lexeme = mark text) :
    cTable.null token = cTable.nullOfSymbol text :=
  OperatorTable.null_of_is (is_of_lexeme h)

end Token

theorem readable_leaf {depth : Nat} {token : Token}
    (hkind : token.kind = .identifier ∨ token.kind = .number) :
    Readable depth (.leaf token) [token.lexeme] := by
  intro bound tokens next rest htokens _ _
  obtain ⟨read, rfl, hread⟩ := List.map_eq_singleton_iff.mp htokens
  simp only [Token.lexeme, Lexeme.mk.injEq] at hread
  rw [← hread.1] at hkind
  have hrule := CTable.literal_of_kind hkind
  have hend : ¬read.isEnd := by
    rcases hkind with hkind | hkind <;> simp [Token.isEnd, hkind]
  refine ⟨.leaf read, (cTable.null read).nextPower, ?_, ?_, ?_⟩
  · simp [Expr.eraseSpans, hread]
  · exact .start rfl hend (.literal hrule)
  · exact @CTable.lt_nextPower_null read (next :: rest) (by simp [hrule]) (by simp [hrule]) next rfl

/-- A text in parentheses is read as the expression marked so. -/
theorem Readable.inParentheses {depth : Nat} {expr : Expr} {text : List Lexeme}
    (h : Readable depth expr text) (hwell : expr.WellFormed cTable) :
    Readable (depth + 1) expr.group (mark "(" :: (text ++ [mark ")"])) := by
  intro bound tokens next rest htokens _ _
  obtain ⟨opening, behind, rfl, hopening, hbehind⟩ := List.map_eq_cons_iff.mp htokens
  obtain ⟨inner, closing, rfl, hinner, hclosing⟩ := List.map_eq_append_iff.mp hbehind
  obtain ⟨close, rfl, hclose⟩ := List.map_eq_singleton_iff.mp hclosing
  have hnull : cTable.null opening = ⟨minPower, minPower, maxPower, .grouping⟩ := by
    rw [Token.null_of_lexeme hopening]
    decide
  obtain ⟨read, herase, hread⟩ := h.legible.of_inert hwell hinner
    (by rw [Token.left_of_lexeme hclose, CTable.leftPower_closing (by simp)])
  refine ⟨read.group, (cTable.null opening).nextPower, ?_, ?_, ?_⟩
  · rw [Expr.eraseSpans_group, Expr.eraseSpans_group, herase]
  · apply Reaches.of_null (by simp) (Token.not_isEnd_of_is (Token.is_of_lexeme hopening))
    refine .grouping (by rw [hnull]) ?_ (Token.is_of_lexeme hclose)
    rw [hnull]
    simpa using hread
  · exact @CTable.lt_nextPower_null opening (next :: rest) (by simp [hnull]) (by simp [hnull])
      next rfl

theorem Readable.inPairs {depth : Nat} {expr : Expr} {text : List Lexeme}
    (h : Readable depth expr text) (hwell : expr.WellFormed cTable) (pairs : Nat) :
    Readable (depth + pairs) (if 0 < pairs then expr.group else expr) (enclose pairs text) := by
  induction pairs with
  | zero => exact h
  | succ pairs ih =>
      rw [if_pos (by omega)]
      split at ih
      · have hgrouped := ih.inParentheses hwell.group
        rwa [Expr.group_group] at hgrouped
      · exact ih.inParentheses hwell

/-- An operator that begins with a symbol is read once its operand is. -/
theorem readable_leading {depth : Nat} {tag : String} {construct : Construct} {child : Expr}
    {span : Span} {operand body : List Lexeme} (htag : Construct.of tag 1 = construct)
    (hconstruct : ¬construct.followsOperand) (hregistered : construct.Registered cTable)
    (hholds : construct.Holds cTable [child]) (hchild : Legible depth child operand)
    (hbody : construct.Layout [operand] body) :
    Readable depth (.node tag [child] false span) body := by
  obtain ⟨symbol, rfl, _, rfl⟩ := hbody.prefixed_of_leading hconstruct
  obtain rfl : symbol = tag := Construct.tag_eq htag
  intro bound tokens next rest htokens _ hright
  obtain ⟨operator, behind, rfl, hoperator, hbehind⟩ := List.map_eq_cons_iff.mp htokens
  have hnull := Token.null_of_lexeme hoperator
  obtain rfl : operator.value = symbol := congrArg Lexeme.value hoperator
  simp only [Expr.rightSpine, List.length_singleton, htag, Construct.endsInOperand, if_true,
    Expr.rightSpineOfLast, List.mem_cons] at hright
  obtain ⟨read, herase, hread⟩ := hchild hbehind (hholds.trailing child (.head _))
    (fun construct hconstruct => hright construct (.inr hconstruct)) (hright _ (.inl rfl))
  have hrule : (cTable.null operator).rule = .prefixed ∨
      (cTable.null operator).rule = .prefixUpdate := by
    rw [hnull]
    exact hregistered
  refine ⟨.node operator.value [read] false (operator.span.join read.span),
    (cTable.null operator).nextPower, ?_, ?_, ?_⟩
  · simp [Expr.eraseSpans, herase]
  · apply Reaches.of_null (by simp) (Token.not_isEnd_of_is (Token.is_of_lexeme hoperator))
    have hpower : (cTable.null operator).rightPower =
        (Construct.prefixed operator.value).rightPower cTable := by rw [hnull, Construct.rightPower]
    rw [← hpower] at hread
    rcases hrule with hrule | hrule
    · exact .prefixed hrule hread
    · apply NullReads.prefixUpdate hrule hread
      rw [Expr.isAssignable_congr herase]
      refine hholds.target ?_ child rfl
      rwa [Construct.Updates, ← hnull]
  · refine @CTable.lt_nextPower_null operator (next :: rest) ?_ ?_ next rfl
    · rcases hrule with hrule | hrule <;> simp [hrule]
    · rcases hrule with hrule | hrule <;> simp [hrule]

/-- The text `behind` an operator that stands behind `left` is read as what makes
`expr` of it. -/
def Continues (depth : Nat) (construct : Construct) (left expr : Expr) (behind : List Lexeme) :
    Prop :=
  ∀ ⦃operator : Token⦄ ⦃before : Expr⦄ ⦃tokens : List Token⦄ ⦃next : Token⦄ ⦃rest : List Token⦄,
    operator.lexeme = mark construct.symbol →
    before.eraseSpans = left.eraseSpans →
    tokens.map Token.lexeme = behind →
    (∀ inner ∈ expr.rightSpine, NextAtMost (inner.rightPower cTable) (next :: rest)) →
    ∃ read, read.eraseSpans = expr.eraseSpans ∧
      LeftReads cTable (Reads cTable depth) (cTable.left operator) operator before
        (tokens ++ next :: rest) read (next :: rest)

/-- An operator that takes in the operand before it is read behind that operand:
the operand has come to an end there, and its bound lets the operator through. -/
theorem Readable.following {depth : Nat} {construct : Construct} {left expr : Expr}
    {text behind : List Lexeme} (hregistered : construct.Registered cTable)
    (hconstruct : construct.followsOperand) (hleft : Readable depth left text)
    (hleading : ∀ inner ∈ left.rightSpine,
      construct.leftPower cTable ≤ inner.rightPower cTable)
    (hbegin : construct ∈ expr.leftSpine ∧ ∀ inner ∈ left.leftSpine, inner ∈ expr.leftSpine)
    (hend : construct.endsInOperand → construct ∈ expr.rightSpine)
    (hbehind : Continues depth construct left expr behind) :
    Readable depth expr (text ++ mark construct.symbol :: behind) := by
  intro bound tokens next rest htokens hbound hright
  obtain ⟨used, others, rfl, hused, hothers⟩ := List.map_eq_append_iff.mp htokens
  obtain ⟨operator, inside, rfl, hoperator, hinside⟩ := List.map_eq_cons_iff.mp hothers
  have hbinding := Token.left_of_lexeme hoperator
  have hpower : (cTable.left operator).leftPower = construct.leftPower cTable := by
    rw [hbinding, Construct.leftPower]
  -- The operator is the token that the operand before it is read up to.
  obtain ⟨before, power, hbefore, hreached, hlt⟩ :=
    @hleft bound used operator (inside ++ next :: rest) hused
      (fun inner hinner => hbound inner (hbegin.2 inner hinner))
      (fun inner hinner => nextAtMost_cons.mpr (hpower ▸ hleading inner hinner))
  obtain ⟨read, herase, hread⟩ := hbehind hoperator hbefore hinside hright
  refine ⟨read, (cTable.left operator).nextPower, herase, ?_, ?_⟩
  · rw [List.append_assoc, List.cons_append]
    exact .of_left (by simp) hreached (hpower ▸ hbound construct hbegin.1) hlt hread
  · refine @CTable.lt_nextPower_left operator (next :: rest) ?_ next rfl
    obtain ⟨hoperand, hsymbol⟩ := CTable.rule_of_registered hregistered hconstruct
    rw [← hbinding] at hoperand hsymbol
    cases hends : construct.endsInOperand with
    | false => exact .inl (by rw [hsymbol, hends]; rfl)
    | true =>
        refine .inr ⟨hoperand.trans hends, ?_⟩
        have hnext := hright construct (hend hends)
        rwa [Construct.rightPower_of_followsOperand hconstruct, ← hbinding] at hnext

section Following

variable {depth : Nat} {left right : Expr} {span : Span} {text : List Lexeme}

theorem continues_suffixed {symbol : String}
    (hregistered : (Construct.suffixed symbol).Registered cTable) :
    Continues depth (.suffixed symbol) left (.node ("post" ++ symbol) [left] false span) [] := by
  intro operator before tokens next rest hoperator hbefore htokens _
  obtain rfl := List.map_eq_nil_iff.mp htokens
  have hbinding := Token.left_of_lexeme hoperator
  obtain rfl : operator.value = symbol := congrArg Lexeme.value hoperator
  refine ⟨suffixed operator before, ?_, .suffixed ?_⟩
  · simp [suffixed, Expr.eraseSpans, hbefore]
  · rw [hbinding]
    exact hregistered

theorem continues_binary {symbol : String}
    (hregistered : (Construct.binary symbol).Registered cTable)
    (htag : Construct.of symbol 2 = .binary symbol)
    (hholds : (Construct.binary symbol).Holds cTable [left, right])
    (hright : Legible depth right text) :
    Continues depth (.binary symbol) left (.node symbol [left, right] false span) text := by
  intro operator before tokens next rest hoperator hbefore htokens hspine
  have hbinding := Token.left_of_lexeme hoperator
  obtain rfl : operator.value = symbol := congrArg Lexeme.value hoperator
  simp only [Expr.rightSpine, List.length_cons, List.length_nil, htag, Construct.endsInOperand,
    if_true, Expr.rightSpineOfLast, List.mem_cons] at hspine
  obtain ⟨read, herase, hread⟩ := hright htokens (hholds.trailing right (.head _))
    (fun inner hinner => hspine inner (.inr hinner)) (hspine _ (.inl rfl))
  rw [Construct.rightPower_of_followsOperand rfl, ← hbinding] at hread
  refine ⟨.ofOperands operator.value [before, read], ?_, ?_⟩
  · simp [Expr.ofOperands, Expr.eraseSpans, hbefore, herase]
  · have hrule : (cTable.left operator).rule = .binary ∨
        (cTable.left operator).rule = .assignment := by
      rw [hbinding]
      exact hregistered
    rcases hrule with hrule | hrule
    · exact .binary hrule hread
    · refine .assignment hrule ?_ hread
      rw [Expr.isAssignable_congr hbefore]
      rw [hbinding] at hrule
      exact hholds.target hrule left rfl

theorem continues_ternary {middle : Expr} {inside : List Lexeme}
    (hholds : Construct.ternary.Holds cTable [left, middle, right])
    (hwell : middle.WellFormed cTable) (hmiddle : Legible depth middle inside)
    (hright : Legible depth right text) :
    Continues depth .ternary left (.node "?" [left, middle, right] false span)
      (inside ++ mark ":" :: text) := by
  intro operator before tokens next rest hoperator hbefore htokens hspine
  have hbinding := Token.left_of_lexeme hoperator
  obtain ⟨used, others, rfl, hused, hothers⟩ := List.map_eq_append_iff.mp htokens
  obtain ⟨colon, behind, rfl, hcolon, hbehind⟩ := List.map_eq_cons_iff.mp hothers
  simp only [Expr.rightSpine, List.length_cons, List.length_nil, Construct.of_question,
    Construct.endsInOperand, if_true, Expr.rightSpineOfLast, List.mem_cons] at hspine
  obtain ⟨positive, hpositive, hread⟩ := @Legible.of_inert _ _ _ hmiddle hwell used colon
    (behind ++ next :: rest) hused
    (by rw [Token.left_of_lexeme hcolon, CTable.leftPower_closing (by simp)])
  obtain ⟨negative, hnegative, hread'⟩ := hright hbehind (hholds.trailing right (.head _))
    (fun inner hinner => hspine inner (.inr hinner)) (hspine _ (.inl rfl))
  rw [Construct.rightPower_of_followsOperand rfl, ← hbinding] at hread'
  obtain ⟨first, others, hfirst⟩ := List.exists_cons_of_ne_nil
    (List.append_ne_nil_of_right_ne_nil behind (List.cons_ne_nil next rest))
  refine ⟨.ofOperands "?" [before, positive, negative], ?_, ?_⟩
  · simp [Expr.ofOperands, Expr.eraseSpans, hbefore, hpositive, hnegative]
  · rw [List.append_assoc, List.cons_append]
    rw [hfirst] at hread hread' ⊢
    exact .ternary (Token.rule_of_lexeme hoperator rfl) hread (Token.is_of_lexeme hcolon) hread'

theorem continues_index (hwell : right.WellFormed cTable) (hright : Legible depth right text) :
    Continues depth .index left (.node "get" [left, right] false span) (text ++ [mark "]"]) := by
  intro operator before tokens next rest hoperator hbefore htokens _
  obtain ⟨used, others, rfl, hused, hothers⟩ := List.map_eq_append_iff.mp htokens
  obtain ⟨close, rfl, hclose⟩ := List.map_eq_singleton_iff.mp hothers
  obtain ⟨place, hplace, hread⟩ := @Legible.of_inert _ _ _ hright hwell used close (next :: rest)
    hused (by rw [Token.left_of_lexeme hclose, CTable.leftPower_closing (by simp)])
  refine ⟨.node "get" [before, place] false (before.span.join close.span), ?_, ?_⟩
  · simp [Expr.eraseSpans, hbefore, hplace]
  · rw [List.append_assoc]
    exact .index (Token.rule_of_lexeme hoperator rfl) hread (Token.is_of_lexeme hclose)

/-- A sequence takes the elements of an open sequence before it. -/
theorem continues_sequence {expr : Expr}
    (hexpr : expr.eraseSpans = (Parse.sequence left right).eraseSpans)
    (hend : expr.rightSpine = .sequence :: right.rightSpine)
    (htrailing : ∀ inner ∈ right.leftSpine, Level.comma.power < inner.leftPower cTable)
    (hright : Legible depth right text) : Continues depth .sequence left expr text := by
  intro operator before tokens next rest hoperator hbefore htokens hspine
  have hbinding := Token.left_of_lexeme hoperator
  rw [hend] at hspine
  rw [← CTable.rightPower_sequence] at htrailing
  obtain ⟨read, herase, hread⟩ := hright htokens htrailing
    (fun inner hinner => hspine inner (.tail _ hinner)) (hspine _ (.head _))
  rw [Construct.rightPower_of_followsOperand rfl, ← hbinding] at hread
  refine ⟨Parse.sequence before read, ?_, .comma (Token.rule_of_lexeme hoperator rfl) hread⟩
  rw [hexpr]
  exact eraseSpans_sequence_congr hbefore herase

end Following

/-- An operand begins with a token that begins operands. -/
theorem Parse.Reads.starts {budget : Nat} {bound : Int} {tokens rest : List Token} {expr : Expr}
    (h : Reads cTable budget bound tokens expr rest) :
    ∃ token others, tokens = token :: others ∧ ¬token.is ")" ∧ ¬token.isEnd := by
  cases budget with
  | zero => exact h.elim
  | succ budget =>
      obtain ⟨power, hreached, hstops⟩ := h
      clear hstops
      induction hreached with
      | @start token next between rest expr htokens hend hnull =>
          refine ⟨token, next :: between, htokens, ?_, hend⟩
          intro hclose
          have hrule : (cTable.null token).rule = .closing := by
            rw [Token.null_of_lexeme (Token.lexeme_of_is hclose)]
            decide
          cases hnull <;> simp_all
      | step _ _ _ _ ih => exact ih

structure Element (depth : Nat) (value : Expr) (text : List Lexeme) : Prop where
  well : value.WellFormed cTable
  left : ∀ inner ∈ value.leftSpine, Level.comma.power < inner.leftPower cTable
  legible : Legible depth value text

/-- An argument is read up to the comma or the parenthesis behind it. -/
theorem Element.reads {depth : Nat} {value : Expr} {text : List Lexeme}
    (h : Element depth value text) {tokens : List Token} {next : Token} {rest : List Token}
    (htokens : tokens.map Token.lexeme = text)
    (hnext : (cTable.left next).leftPower ≤ Level.comma.power) :
    ∃ read token others, read.eraseSpans = value.eraseSpans ∧
      tokens ++ next :: rest = token :: others ∧ ¬token.is ")" ∧ ¬token.isEnd ∧
      Reads cTable depth (Delimiter.elementBound cTable (some .arguments)) (token :: others) read
        (next :: rest) := by
  have hbound : Delimiter.elementBound cTable (some .arguments) = Level.comma.power :=
    CTable.leftPower_comma
  rw [hbound]
  obtain ⟨read, herase, hread⟩ := @h.legible _ tokens next rest htokens h.left
    (fun inner hinner => nextAtMost_cons.mpr
      (Int.le_trans hnext (h.well.rightSpine_bound inner hinner)))
    (nextAtMost_cons.mpr hnext)
  obtain ⟨token, others, hstart, hopen, hend⟩ := hread.starts
  rw [hstart] at hread
  exact ⟨read, token, others, herase, hstart, hopen, hend, hread⟩

/-- All arguments are read, and the comma that may stand behind the last one. -/
theorem arguments_read {depth : Nat} {values : List Expr} {texts : List (List Lexeme)}
    (h : List.Forall₂ (Element depth) values texts) {tokens trailing : List Token}
    {close next : Token} {rest : List Token} (htokens : tokens.map Token.lexeme = separated texts)
    (htrailing : trailing = [] ∨
      values ≠ [] ∧ ∃ comma, trailing = [comma] ∧ comma.lexeme = mark ",")
    (hclose : close.lexeme = mark ")") :
    ∃ reads, reads.map Expr.eraseSpans = values.map Expr.eraseSpans ∧
      ArgumentsRead (Reads cTable depth) (Delimiter.elementBound cTable (some .arguments))
        (tokens ++ (trailing ++ close :: next :: rest)) reads (close :: next :: rest) := by
  have hcomma : ∀ {comma : Token}, comma.lexeme = mark "," →
      (cTable.left comma).leftPower ≤ Level.comma.power := by
    intro comma hcomma
    rw [Token.left_of_lexeme hcomma, CTable.leftPower_comma]
  induction h generalizing tokens with
  | nil =>
      obtain rfl : tokens = [] := List.map_eq_nil_iff.mp htokens
      obtain rfl : trailing = [] := by simpa using htrailing
      exact ⟨[], rfl, .done (Token.is_of_lexeme hclose)⟩
  | @cons value text values texts hvalue hvalues ih =>
      cases hvalues with
      | nil =>
          simp only [separated, List.intercalate_singleton] at htokens
          rcases htrailing with rfl | ⟨_, comma, rfl, htrailing⟩
          · have hpower : (cTable.left close).leftPower ≤ Level.comma.power := by
              rw [Token.left_of_lexeme hclose, CTable.leftPower_closing (by simp)]
              decide
            obtain ⟨read, token, others, herase, hstart, hopen, hend, hread⟩ :=
              @Element.reads _ _ _ hvalue tokens close (next :: rest) htokens hpower
            refine ⟨[read], by simp [herase], ?_⟩
            rw [List.nil_append, hstart]
            apply ArgumentsRead.last hopen hend hread
            simp only [Token.lexeme, mark, Lexeme.mk.injEq] at hclose
            simp [Token.is, hclose]
          · obtain ⟨read, token, others, herase, hstart, hopen, hend, hread⟩ :=
              @Element.reads _ _ _ hvalue tokens comma (close :: next :: rest) htokens
                (hcomma htrailing)
            refine ⟨[read], by simp [herase], ?_⟩
            rw [List.singleton_append, hstart]
            exact .more hopen hend hread (Token.is_of_lexeme htrailing)
              (.done (Token.is_of_lexeme hclose))
      | @cons second secondText others otherTexts hsecond hothers =>
          simp only [separated, List.intercalate_cons_cons] at htokens
          rw [List.append_assoc] at htokens
          obtain ⟨used, behind, rfl, hused, hbehind⟩ := List.map_eq_append_iff.mp htokens
          obtain ⟨comma, behind, rfl, hseparator, hbehind⟩ := List.map_eq_cons_iff.mp hbehind
          obtain ⟨reads, hreads, hrest⟩ := ih hbehind
            (htrailing.imp_right fun htrailing => ⟨by simp, htrailing.2⟩)
          obtain ⟨read, token, others, herase, hstart, hopen, hend, hread⟩ :=
            @Element.reads _ _ _ hvalue used comma
              (behind ++ (trailing ++ close :: next :: rest)) hused (hcomma hseparator)
          obtain ⟨first, between, hfirst⟩ := List.exists_cons_of_ne_nil
            (List.append_ne_nil_of_right_ne_nil behind
              (List.append_ne_nil_of_right_ne_nil trailing (List.cons_ne_nil close (next :: rest))))
          refine ⟨read :: reads, by simp [herase, hreads], ?_⟩
          rw [List.append_assoc, List.cons_append, hstart]
          rw [hfirst] at hread hrest
          exact .more hopen hend hread (Token.is_of_lexeme hseparator) hrest

theorem continues_call {depth : Nat} {left : Expr} {values : List Expr} {span : Span}
    {texts : List (List Lexeme)} {trailing : List Lexeme}
    (hvalues : List.Forall₂ (Element depth) values texts)
    (htrailing : trailing = [] ∨ texts ≠ [] ∧ trailing = [mark ","]) :
    Continues depth .call left (.node "call" (left :: values) false span)
      (separated texts ++ (trailing ++ [mark ")"])) := by
  intro operator before tokens next rest hoperator hbefore htokens _
  obtain ⟨used, others, rfl, hused, hothers⟩ := List.map_eq_append_iff.mp htokens
  obtain ⟨commas, others, rfl, hcommas, hothers⟩ := List.map_eq_append_iff.mp hothers
  obtain ⟨close, rfl, hclose⟩ := List.map_eq_singleton_iff.mp hothers
  obtain ⟨reads, hreads, hread⟩ := @arguments_read _ _ _ hvalues used commas close next rest hused
    (by
      rcases htrailing with rfl | ⟨htexts, rfl⟩
      · exact .inl (List.map_eq_nil_iff.mp hcommas)
      · obtain ⟨comma, rfl, hcomma⟩ := List.map_eq_singleton_iff.mp hcommas
        refine .inr ⟨?_, comma, rfl, hcomma⟩
        rintro rfl
        cases hvalues
        exact htexts rfl)
    hclose
  refine ⟨.node "call" (before :: reads) false (before.span.join close.span), ?_, ?_⟩
  · simp [Expr.eraseSpans, hbefore, hreads]
  · rw [List.append_assoc, List.append_assoc]
    exact .call (Token.rule_of_lexeme hoperator rfl) hread (Token.is_of_lexeme hclose)

/-- Elements join an open sequence one after the other. -/
theorem Readable.append {depth : Nat} {elements others : List Expr} {span : Span}
    {text : List Lexeme} {texts : List (List Lexeme)}
    (hleft : Readable depth (.node "," elements false span) text)
    (hwell : (Expr.node "," elements false span).WellFormed cTable)
    (hothers : List.Forall₂ (Element depth) others texts) :
    Readable depth (.node "," (elements ++ others) false span)
      (text ++ texts.flatMap (mark "," :: ·)) := by
  induction hothers generalizing elements text with
  | nil => simpa using hleft
  | @cons element elementText others texts helement _ ih =>
      have hjoined : Readable depth (.node "," (elements ++ [element]) false span)
          (text ++ mark "," :: elementText) := by
        refine @Readable.following _ .sequence _ _ _ _ trivial rfl hleft ?_ ?_ ?_ ?_
        · rw [CTable.leftPower_sequence]
          exact hwell.rightSpine_bound
        · cases hwell with
          | node _ harity _ =>
              obtain ⟨first, rest, rfl⟩ := List.exists_cons_of_length_pos
                (Nat.lt_of_lt_of_le Nat.zero_lt_two harity)
              simp [Expr.leftSpine, Construct.followsOperand]
        · intro _
          simp [Expr.rightSpine, Construct.endsInOperand]
        · refine continues_sequence ?_ ?_ helement.left helement.legible
          · simp [Parse.sequence, Expr.eraseSpans]
          · simp [Expr.rightSpine, Construct.endsInOperand]
      have hall := ih hjoined (hwell.append helement.well)
      simpa using hall

theorem elements_of_legible {depth : Nat} {values : List Expr} {texts : List (List Lexeme)}
    (h : List.Forall₂ (Legible depth) values texts)
    (hwell : ∀ value ∈ values, value.WellFormed cTable)
    (hleft : ∀ value ∈ values, ∀ inner ∈ value.leftSpine,
      Level.comma.power < inner.leftPower cTable) :
    List.Forall₂ (Element depth) values texts := by
  obtain ⟨hlength, hlegible⟩ := List.forall₂_iff_zip.mp h
  refine List.forall₂_iff_zip.mpr ⟨hlength, ?_⟩
  intro value text hmem
  have hvalue := (List.of_mem_zip hmem).1
  exact ⟨hwell value hvalue, hleft value hvalue, hlegible hmem⟩

/-- A sequence is read element by element. -/
theorem readable_sequence {depth : Nat} {first second : Expr} {others : List Expr} {span : Span}
    {operand : List Lexeme} {texts : List (List Lexeme)}
    (hholds : Construct.sequence.Holds cTable (first :: second :: others))
    (hwell : first.WellFormed cTable) (hfirst : Readable depth first operand)
    (hothers : List.Forall₂ (Element depth) (second :: others) texts) :
    Readable depth (.node "," (first :: second :: others) false span)
      (separated (operand :: texts)) := by
  cases hothers with
  | @cons _ text _ texts hsecond hothers =>
      have hpair : Readable depth (.node "," [first, second] false span)
          (operand ++ mark "," :: text) := by
        refine @Readable.following _ .sequence _ _ _ _ trivial rfl hfirst ?_ ?_ ?_ ?_
        · exact hholds.leading rfl first rfl
        · simp +contextual [Expr.leftSpine, Construct.followsOperand]
        · intro _
          simp [Expr.rightSpine, Construct.endsInOperand]
        · refine continues_sequence ?_ ?_ hsecond.left hsecond.legible
          · have hclosed := hholds.flat rfl first rfl
            simp [eraseSpans_sequence, hclosed, Expr.eraseSpans]
          · simp [Expr.rightSpine, Construct.endsInOperand, Expr.rightSpineOfLast]
      have hpairWell : (Expr.node "," [first, second] false span).WellFormed cTable :=
        .node trivial (Nat.le_refl 2) (by simp [hwell, hsecond.well])
      rw [separated_cons, List.flatMap_cons, ← List.append_assoc]
      exact hpair.append hpairWell hothers

/-- An operator that begins with an operand is read once its operands are. -/
theorem readable_following {depth : Nat} {tag : String} {construct : Construct} {first : Expr}
    {rest : List Expr} {span : Span} {operand body : List Lexeme}
    {operands : List (List Lexeme)} (htag : Construct.of tag (rest.length + 1) = construct)
    (hconstruct : construct.followsOperand) (hregistered : construct.Registered cTable)
    (hholds : construct.Holds cTable (first :: rest))
    (hwell : ∀ child ∈ first :: rest, child.WellFormed cTable)
    (hfirst : Readable depth first operand) (hrest : List.Forall₂ (Legible depth) rest operands)
    (hbody : construct.Layout (operand :: operands) body) :
    Readable depth (.node tag (first :: rest) false span) body := by
  have hleading := hholds.leading hconstruct first rfl
  have hfollow : ∀ {behind}, Continues depth construct first (.node tag (first :: rest) false span)
      behind → Readable depth (.node tag (first :: rest) false span)
        (operand ++ mark construct.symbol :: behind) := by
    intro behind hbehind
    refine hfirst.following hregistered hconstruct hleading ?_ ?_ hbehind
    · simp +contextual [Expr.leftSpine, htag, hconstruct]
    · intro hends
      simp [Expr.rightSpine, htag, hends]
  have hvalues : construct = .call → List.Forall₂ (Element depth) rest operands := by
    intro hcall
    have harguments := hholds.arguments hcall
    rw [CTable.leftPower_comma] at harguments
    exact elements_of_legible hrest (fun value hvalue => hwell value (.tail _ hvalue)) harguments
  obtain rfl := Construct.tag_eq htag
  cases hbody with
  | prefixed => cases hconstruct
  | suffixed =>
      cases hrest
      exact hfollow (continues_suffixed hregistered)
  | binary =>
      cases hrest with
      | cons hright hnil =>
          cases hnil
          exact hfollow (continues_binary hregistered htag hholds hright)
  | ternary =>
      cases hrest with
      | cons hmiddle hrest =>
          cases hrest with
          | cons hright hnil =>
              cases hnil
              exact hfollow (continues_ternary hholds (hwell _ (by simp)) hmiddle hright)
  | sequence =>
      cases hrest with
      | cons hsecond hothers =>
          have htrailing := hholds.trailing
          rw [CTable.rightPower_sequence] at htrailing
          apply readable_sequence hholds (hwell _ (by simp)) hfirst
          exact elements_of_legible (.cons hsecond hothers)
            (fun value hvalue => hwell value (.tail _ hvalue)) htrailing
  | index =>
      cases hrest with
      | cons hright hnil =>
          cases hnil
          exact hfollow (continues_index (hwell _ (by simp)) hright)
  | call => exact hfollow (continues_call (hvalues rfl) (.inl rfl))
  | callTrailing htexts => exact hfollow (continues_call (hvalues rfl) (.inr ⟨htexts, rfl⟩))

end Precedence
