import Precedence.Proofs.Completeness

/-!
The infix form of an expression is read back as the same tree with every operator
in parentheses. Its text breaks into lexemes as it was put together, because each
operand stands before a blank, a bracket or a comma; the lexemes spell the tree,
and the tree agrees with the table because parentheses close every operand.
-/

namespace Precedence

open Lexeme

/-- The text is read as the words before any text that is clear. -/
def Prints (text : List Char) (words : List Lexeme) : Prop :=
  ∀ ⦃rest : List Char⦄, Clear rest → Lexes text words rest

namespace Prints

/-- Texts with a separator between them are read in turn. -/
theorem intercalate {separator : List Char} {lexeme : Lexeme}
    (hseparator : ∀ rest, Lexes separator [lexeme] rest)
    (hclear : ∀ rest, Clear (separator ++ rest)) {texts : List (List Char)}
    {words : List (List Lexeme)} (h : List.Forall₂ Prints texts words) :
    Prints (separator.intercalate texts) ([lexeme].intercalate words) := by
  intro rest hrest
  induction h with
  | nil => exact .nil
  | @cons text word texts words htext htexts ih =>
      cases htexts with
      | nil => simpa using htext hrest
      | cons =>
          rw [List.intercalate_cons_cons, List.intercalate_cons_cons]
          refine .append (.append (htext ?_) (hseparator _)) ih
          exact hclear _

end Prints

namespace Expr

theorem infixBody_prefixed {tag symbol : String} (htag : Construct.of tag 1 = .prefixed symbol)
    (operand : String) : infixBody tag [operand] = symbol ++ " " ++ operand := by
  unfold Construct.of at htag
  unfold infixBody
  split at htag <;> simp_all
  split at htag <;> simp_all

theorem infixBody_suffixed {tag symbol : String} (htag : Construct.of tag 1 = .suffixed symbol)
    (operand : String) : infixBody tag [operand] = operand ++ " " ++ symbol := by
  unfold Construct.of at htag
  unfold infixBody
  split at htag <;> simp_all
  split at htag <;> simp_all

/-- Operators between operands are written with blanks around them. -/
theorem infixBody_infix {tag : String} {operands : List String}
    (htag : Construct.of tag operands.length = .sequence ∨
      Construct.of tag operands.length = .binary tag)
    (hlength : 2 ≤ operands.length) :
    infixBody tag operands = (" " ++ tag ++ " ").intercalate operands := by
  unfold infixBody
  split
  · simp at htag
  · simp at htag
  · simp at htag
  · simp at hlength
  · rfl

end Expr

section Bodies

variable {operand place : String} {words words' : List Lexeme}

theorem prints_prefixed {symbol : String} (hsymbol : (mark symbol).IsWord)
    (hoperand : Prints operand.toList words) :
    Prints (symbol ++ " " ++ operand).toList (mark symbol :: words) := by
  intro rest hrest
  have htext : (symbol ++ " " ++ operand).toList = symbol.toList ++ ' ' :: operand.toList := by
    simp
  rw [htext]
  exact .append (.word hsymbol (.cons rfl)) (.blank (hoperand hrest))

theorem prints_suffixed {symbol : String} (hsymbol : (mark symbol).IsWord)
    (hoperand : Prints operand.toList words) :
    Prints (operand ++ " " ++ symbol).toList (words ++ [mark symbol]) := by
  intro rest hrest
  have htext : (operand ++ " " ++ symbol).toList = operand.toList ++ ' ' :: symbol.toList := by
    simp
  rw [htext]
  exact .append (hoperand (.cons rfl)) (.blank (.word hsymbol hrest))

theorem prints_infix {symbol : String} (hsymbol : (mark symbol).IsWord) {operands : List String}
    {words : List (List Lexeme)} (h : List.Forall₂ Prints (operands.map String.toList) words) :
    Prints ((" " ++ symbol ++ " ").intercalate operands).toList
      ([mark symbol].intercalate words) := by
  have htext : (" " ++ symbol ++ " ").toList = ' ' :: (symbol.toList ++ [' ']) := by simp
  rw [String.toList_intercalate, htext]
  exact Prints.intercalate (fun _ => .between hsymbol) (fun _ => .cons rfl) h

theorem prints_ternary {condition positive negative : String} {before inside behind : List Lexeme}
    (hcondition : Prints condition.toList before) (hpositive : Prints positive.toList inside)
    (hnegative : Prints negative.toList behind) :
    Prints (Expr.infixBody "?" [condition, positive, negative]).toList
      (before ++ mark "?" :: (inside ++ mark ":" :: behind)) := by
  intro rest hrest
  have hquestion : (mark "?").IsWord := rfl
  have hcolon : (mark ":").IsWord := rfl
  have htext : (Expr.infixBody "?" [condition, positive, negative]).toList =
      condition.toList ++ ((' ' :: ("?".toList ++ [' '])) ++ (positive.toList ++
        ((' ' :: (":".toList ++ [' '])) ++ negative.toList))) := by
    simp [Expr.infixBody]
  rw [htext]
  exact .append (hcondition (.cons rfl)) (.append (.between hquestion)
    (.append (hpositive (.cons rfl)) (.append (.between hcolon) (hnegative hrest))))

theorem prints_index (hoperand : Prints operand.toList words)
    (hplace : Prints place.toList words') :
    Prints (Expr.infixBody "get" [operand, place]).toList
      (words ++ mark "[" :: (words' ++ [mark "]"])) := by
  intro rest _
  have htext : (Expr.infixBody "get" [operand, place]).toList =
      operand.toList ++ ("[".toList ++ (place.toList ++ "]".toList)) := by
    simp [Expr.infixBody]
  rw [htext]
  exact .append (hoperand (.cons rfl)) (.append (.bracket (by simp))
    (.append (hplace (.cons rfl)) (.bracket (by simp))))

theorem prints_call {values : List String} {texts : List (List Lexeme)}
    (hoperand : Prints operand.toList words)
    (hvalues : List.Forall₂ Prints (values.map String.toList) texts) :
    Prints (Expr.infixBody "call" (operand :: values)).toList
      (words ++ mark "(" :: (separated texts ++ [mark ")"])) := by
  intro rest _
  have hcomma : ∀ rest, Lexes [',', ' '] [mark ","] rest :=
    fun rest => @Lexes.append [','] [' '] rest [mark ","] [] (.bracket (by simp)) (.blank .nil)
  have harguments := Prints.intercalate hcomma (fun _ => .cons rfl) hvalues
  have htext : (Expr.infixBody "call" (operand :: values)).toList =
      operand.toList ++ ("(".toList ++
        ([',', ' '].intercalate (values.map String.toList) ++ ")".toList)) := by
    simp [Expr.infixBody]
  rw [htext]
  exact .append (hoperand (.cons rfl)) (.append (.bracket (by simp))
    (.append (harguments (.cons rfl)) (.bracket (by simp))))

end Bodies

/-- The infix form of an operator is read as a layout of its operands. -/
theorem prints_infixBody {tag : String} {construct : Construct} {operands : List String}
    {words : List (List Lexeme)} (htag : Construct.of tag operands.length = construct)
    (harity : construct.Arity operands.length) (hsymbol : (mark construct.symbol).IsWord)
    (h : List.Forall₂ Prints (operands.map String.toList) words) :
    ∃ body, construct.Layout words body ∧ Prints (Expr.infixBody tag operands).toList body := by
  obtain rfl := Construct.tag_eq htag
  cases construct with
  | prefixed symbol =>
      obtain ⟨operand, rfl⟩ := List.length_eq_one_iff.mp harity
      cases h with
      | cons hoperand hnil =>
          cases hnil
          refine ⟨_, .prefixed, ?_⟩
          rw [Expr.infixBody_prefixed htag]
          exact prints_prefixed hsymbol hoperand
  | suffixed symbol =>
      obtain ⟨operand, rfl⟩ := List.length_eq_one_iff.mp harity
      cases h with
      | cons hoperand hnil =>
          cases hnil
          refine ⟨_, .suffixed, ?_⟩
          rw [Expr.infixBody_suffixed htag]
          exact prints_suffixed hsymbol hoperand
  | binary symbol =>
      have hprints := prints_infix hsymbol h
      obtain ⟨left, right, rfl⟩ := List.length_eq_two.mp harity
      cases h with
      | cons hleft hright =>
          cases hright with
          | cons hright hnil =>
              cases hnil
              refine ⟨_, .binary, ?_⟩
              rw [Expr.infixBody_infix (.inr htag) (Nat.le_refl 2)]
              simpa [Construct.symbol, Construct.tag] using hprints
  | ternary =>
      obtain ⟨condition, positive, negative, rfl⟩ := List.length_eq_three.mp harity
      cases h with
      | cons hcondition hrest =>
          cases hrest with
          | cons hpositive hrest =>
              cases hrest with
              | cons hnegative hnil =>
                  cases hnil
                  exact ⟨_, .ternary, prints_ternary hcondition hpositive hnegative⟩
  | sequence =>
      have hprints := prints_infix hsymbol h
      rw [Expr.infixBody_infix (.inl htag) harity]
      obtain ⟨first, rest, rfl⟩ := List.exists_cons_of_length_pos (Nat.lt_of_lt_of_le
        Nat.zero_lt_two harity)
      obtain ⟨second, others, rfl⟩ := List.exists_cons_of_length_pos
        (Nat.lt_of_succ_le (Nat.le_of_succ_le_succ harity))
      cases h with
      | cons hfirst hrest =>
          cases hrest with
          | cons hsecond hothers => exact ⟨_, .sequence, hprints⟩
  | index =>
      obtain ⟨operand, place, rfl⟩ := List.length_eq_two.mp harity
      cases h with
      | cons hoperand hrest =>
          cases hrest with
          | cons hplace hnil =>
              cases hnil
              exact ⟨_, .index, prints_index hoperand hplace⟩
  | call =>
      obtain ⟨callee, values, rfl⟩ := List.exists_cons_of_length_pos harity
      cases h with
      | cons hcallee hvalues => exact ⟨_, .call, prints_call hcallee hvalues⟩

def TokenKey.isWord : TokenKey → Bool
  | .symbol text => (mark text).IsWord
  | _ => true

namespace CTable

theorem word_of_left {symbol : String} (h : (cTable.leftOfSymbol symbol).rule ≠ .unregistered) :
    (mark symbol).IsWord := by
  have hword := OperatorTable.forall_left
    (fun key binding => binding.rule ≠ .unregistered → key.isWord)
    (by decide +kernel) (fun _ hne => absurd rfl hne) ⟨.operator, symbol, .origin⟩ h
  exact of_decide_eq_true hword

theorem word_of_null {symbol : String} (h : (cTable.nullOfSymbol symbol).rule ≠ .unregistered) :
    (mark symbol).IsWord := by
  have hword := OperatorTable.forall_null
    (fun key binding => binding.rule ≠ .unregistered → key.isWord)
    (by decide +kernel) (fun _ hne => absurd rfl hne) ⟨.operator, symbol, .origin⟩ h
  exact of_decide_eq_true hword

/-- The symbols of the table can be read. -/
theorem word_of_registered {construct : Construct} (h : construct.Registered cTable) :
    (mark construct.symbol).IsWord := by
  cases construct with
  | prefixed symbol =>
      apply @word_of_null symbol
      rcases h with h | h <;> simp [h]
  | suffixed symbol =>
      apply @word_of_left symbol
      simp [show (cTable.leftOfSymbol symbol).rule = .suffixed from h]
  | binary symbol =>
      apply @word_of_left symbol
      rcases h with h | h <;> simp [h]
  | _ => rfl

end CTable

namespace Expr

inductive Written : Expr → Prop
  | leaf {token : Token} (hword : token.lexeme.IsWord) : Written (.leaf token)
  | node {tag : String} {children : List Expr} {grouped : Bool} {span : Span}
      (hchildren : ∀ child ∈ children, Written child) :
      Written (.node tag children grouped span)

theorem Written.of_node {tag : String} {children : List Expr} {grouped : Bool} {span : Span}
    (h : (Expr.node tag children grouped span).Written) : ∀ child ∈ children, child.Written := by
  cases h with
  | node hchildren => exact hchildren

theorem written_of_spelling {expr : Expr} {text : List Lexeme} (h : Spelling expr text)
    (htext : ∀ lexeme ∈ text, lexeme.IsWord) : expr.Written := by
  induction expr generalizing text with
  | leaf token =>
      cases h with
      | leaf _ pairs =>
          exact .leaf (htext _ (subset_enclose _ _ (List.mem_singleton_self _)))
  | node tag children grouped span ih =>
      cases h with
      | @node _ _ _ _ pairs operands body hoperands hbody _ =>
          apply Written.node
          intro child hchild
          obtain ⟨operand, hoperand, hspelling⟩ := exists_related hoperands.flip hchild
          apply ih child hchild hspelling
          intro lexeme hlexeme
          exact htext lexeme (subset_enclose _ _ ((hbody.sublist_body hoperand).subset hlexeme))

section GroupAll

variable (expr : Expr)

@[simp] theorem leftSpine_groupAll : expr.groupAll.leftSpine = [] := by
  cases expr with
  | leaf token => rfl
  | node tag children grouped span => cases children <;> rfl

@[simp] theorem rightSpine_groupAll : expr.groupAll.rightSpine = [] := by
  cases expr with
  | leaf token => rfl
  | node tag children grouped span => rfl

@[simp] theorem isOpenSequence_groupAll : expr.groupAll.isOpenSequence = false := by
  cases expr with
  | leaf token => rfl
  | node tag children grouped span => simp [groupAll, isOpenSequence_node]

end GroupAll

theorem WellFormed.groupAll {table : OperatorTable} {expr : Expr} (h : expr.WellFormed table) :
    expr.groupAll.WellFormed table := by
  induction h with
  | leaf hkind => exact .leaf hkind
  | node hregistered harity _ ih =>
      rw [Expr.groupAll, groupAllOf_eq_map]
      apply WellFormed.node
      · rwa [List.length_map]
      · rwa [List.length_map]
      · simpa using ih

/-- Parentheses around every operator leave nothing for the table to decide. -/
theorem Agrees.groupAll {table : OperatorTable} {expr : Expr} (h : expr.Agrees table) :
    expr.groupAll.Agrees table := by
  induction h with
  | leaf => exact .leaf
  | @node tag children grouped span hholds _ ih =>
      rw [Expr.groupAll, groupAllOf_eq_map]
      refine .node ?_ (by simpa using ih)
      rw [List.length_map]
      -- Only the demand on targets is left; it does not depend on parentheses.
      have hclosed : ∀ operand ∈ children.map Expr.groupAll,
          operand.leftSpine = [] ∧ operand.rightSpine = [] ∧ operand.isOpenSequence = false := by
        simp
      constructor
      · intro operand hoperand
        simp [(hclosed operand (Construct.mem_of_mem_trailing hoperand)).1]
      · intro _ argument hargument
        simp [(hclosed argument (List.mem_of_mem_tail hargument)).1]
      · intro _ first hfirst
        simp [(hclosed first (List.mem_of_mem_head? hfirst)).2.1]
      · intro _ first hfirst
        simp [(hclosed first (List.mem_of_mem_head? hfirst)).2.2]
      · intro hupdates first hfirst
        rw [List.head?_map] at hfirst
        obtain ⟨child, hchild, rfl⟩ := Option.map_eq_some_iff.mp hfirst
        rw [isAssignable_groupAll]
        exact hholds.target hupdates child hchild

end Expr

/-- The infix form of an expression is read as a spelling of the expression with
every operator in parentheses, nested as deep as two for each operator allow. -/
theorem prints_toInfix {expr : Expr} (hwell : expr.WellFormed cTable) (hwritten : expr.Written) :
    ∃ words, SpellingWithin (2 * expr.height + 1) expr.groupAll words ∧
      Prints expr.toInfix.toList words := by
  induction expr with
  | leaf token =>
      cases hwritten with
      | leaf hword =>
          exact ⟨[token.lexeme], @SpellingWithin.leaf 1 0 token (by omega),
            fun rest hrest => Lexes.word hword hrest⟩
  | node tag children grouped span ih =>
      obtain ⟨hregistered, harity, hchildrenWell⟩ := hwell.of_node
      obtain ⟨operands, hoperands⟩ : ∃ operands, List.Forall₂ (fun child words =>
          SpellingWithin (2 * Expr.maxHeight children + 1) child.groupAll words ∧
            Prints child.toInfix.toList words) children operands := by
        apply exists_all_related
        intro child hchild
        obtain ⟨words, hspelling, hprints⟩ :=
          ih child hchild (hchildrenWell child hchild) (hwritten.of_node child hchild)
        have hheight := Expr.height_le_maxHeight hchild
        exact ⟨words, hspelling.mono (by omega), hprints⟩
      have hprints : List.Forall₂ Prints ((children.map Expr.toInfix).map String.toList)
          operands := by
        rw [List.map_map, List.forall₂_map_left_iff]
        exact hoperands.imp fun child words h => h.2
      have hspelling : List.Forall₂ (SpellingWithin (2 * Expr.maxHeight children + 1))
          (children.map Expr.groupAll) operands := by
        rw [List.forall₂_map_left_iff]
        exact hoperands.imp fun child words h => h.1
      obtain ⟨body, hbody, htext⟩ := @prints_infixBody tag _ _ _ (by rw [List.length_map])
        (by rwa [List.length_map]) (CTable.word_of_registered hregistered) hprints
      refine ⟨enclose 1 body, ?_, ?_⟩
      · rw [Expr.groupAll, Expr.groupAllOf_eq_map, Expr.height]
        exact .of_operands hspelling (by rwa [List.length_map]) (by simp) (by omega)
      · intro rest _
        have hparentheses : (Expr.node tag children grouped span).toInfix.toList =
            "(".toList ++
              ((Expr.infixBody tag (children.map Expr.toInfix)).toList ++ ")".toList) := by
          simp [Expr.toInfix, Expr.infixOperands_eq_map]
        rw [hparentheses]
        exact .append (.bracket (by simp)) (.append (htext (.cons rfl)) (.bracket (by simp)))

/-- The infix form of an expression that was read is read again, with every
operator marked as written in parentheses, by any parser that allows operands to
nest twice for each operator above another. So both written forms stay as they
were. -/
theorem Parser.parse_toInfix {limit limit' : Nat} {source : String} {expr : Expr}
    (h : (Parser.ofC limit).parse source = .ok expr) (hlimit : 2 * expr.height + 1 ≤ limit') :
    ∃ read, (Parser.ofC limit').parse expr.toInfix = .ok read ∧
      read.eraseSpans = expr.groupAll.eraseSpans ∧ read.sexp = expr.sexp ∧
      read.toInfix = expr.toInfix := by
  obtain ⟨hwell, tokens, htokens, hspelling⟩ := spelling_of_parse h
  have hwritten := Expr.written_of_spelling hspelling.spelling (words_of_tokenize htokens)
  obtain ⟨words, hwords, hprints⟩ := prints_toInfix hwell hwritten
  obtain ⟨tokens', htokens', rfl⟩ := (hprints (by simp [Clear])).tokenize
  obtain ⟨read, hread, herase⟩ := parse_of_spelling hwell.groupAll (agrees_of_parse h).groupAll
    htokens' (hwords.mono hlimit)
  refine ⟨read, hread, herase, ?_, ?_⟩
  · rw [← Expr.sexp_eraseSpans, herase, Expr.sexp_eraseSpans, Expr.sexp_groupAll]
  · rw [← Expr.toInfix_eraseSpans, herase, Expr.toInfix_eraseSpans, Expr.toInfix_groupAll]

theorem Parser.parse_toInfix_nested :
    ∃ expr, (Parser.ofC 8).parse "x[i] += f(7., (b, c),) ? --y : -z!" = .ok expr ∧
      expr.sexp = "(+= (get x i) (? (call f 7. (, b c)) (-- y) (- (post! z))))" ∧
      ∃ read, (Parser.ofC (2 * expr.height + 1)).parse expr.toInfix = .ok read ∧
        read.eraseSpans = expr.groupAll.eraseSpans ∧ read.sexp = expr.sexp ∧
        read.toInfix = expr.toInfix := by
  obtain ⟨expr, hparse, hsexp⟩ := @exists_of_sexp (.ofC 8) "x[i] += f(7., (b, c),) ? --y : -z!"
    "(+= (get x i) (? (call f 7. (, b c)) (-- y) (- (post! z))))" (by decide +kernel)
  exact ⟨expr, hparse, hsexp, parse_toInfix hparse (Nat.le_refl _)⟩

end Precedence
