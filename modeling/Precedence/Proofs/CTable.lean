import Precedence.Operator.CGrammar
import Precedence.Proofs.Construct

/-!
What the table of the C grammar says about every token. Each fact holds for the
inert binding of tokens that are not registered, and is checked on the entries of
the table for the others; nothing else in the theory looks into the table.
-/

namespace Precedence

namespace OperatorTable

theorem mem_of_find? {table : OperatorTable} {key : TokenKey} {entry : TableEntry}
    (h : table.find? key = some entry) : (key, entry) ∈ table.entries := by
  obtain ⟨before, behind, hentries, _⟩ := List.lookup_eq_some_iff.mp h
  rw [hentries]
  simp

/-- A statement about left bindings holds for all tokens if it holds for every
entry and for tokens without one. -/
theorem forall_left {table : OperatorTable} (statement : TokenKey → Binding LeftRule → Prop)
    (hentries : ∀ entry ∈ table.entries, statement entry.1 entry.2.left)
    (hinert : ∀ key, statement key (.inert .unregistered)) (token : Token) :
    statement token.key (table.left token) := by
  unfold left leftOfKey
  cases hfind : table.find? token.key with
  | none => exact hinert _
  | some entry => exact hentries _ (mem_of_find? hfind)

/-- A statement about null bindings holds for all tokens if it holds for every
entry and for tokens without one. -/
theorem forall_null {table : OperatorTable} (statement : TokenKey → Binding NullRule → Prop)
    (hentries : ∀ entry ∈ table.entries, statement entry.1 entry.2.null)
    (hinert : ∀ key, statement key (.inert .unregistered)) (token : Token) :
    statement token.key (table.null token) := by
  unfold null
  cases hfind : table.find? token.key with
  | none => exact hinert _
  | some entry => exact hentries _ (mem_of_find? hfind)

theorem left_of_operator {table : OperatorTable} {token : Token} (h : token.kind = .operator) :
    table.left token = table.leftOfSymbol token.value := by
  simp only [left, leftOfSymbol, Token.key, h]

theorem null_of_operator {table : OperatorTable} {token : Token} (h : token.kind = .operator) :
    table.null token = table.nullOfSymbol token.value := by
  simp only [null, nullOfSymbol, Token.key, h]

theorem left_of_is {table : OperatorTable} {token : Token} {symbol : String}
    (h : token.is symbol) : table.left token = table.leftOfSymbol symbol := by
  simp only [Token.is, Bool.and_eq_true, decide_eq_true_eq] at h
  rw [left_of_operator h.1, h.2]

theorem null_of_is {table : OperatorTable} {token : Token} {symbol : String}
    (h : token.is symbol) : table.null token = table.nullOfSymbol symbol := by
  simp only [Token.is, Bool.and_eq_true, decide_eq_true_eq] at h
  rw [null_of_operator h.1, h.2]

end OperatorTable

/-- The symbols that a rule behind an operand builds its own construct with. -/
def LeftRule.suits : LeftRule → TokenKey → Bool
  | .unregistered, _ => true
  | .error, _ => true
  | .binary, .symbol text => Construct.of text 2 = .binary text
  | .assignment, .symbol text => Construct.of text 2 = .binary text
  | .ternary, .symbol text => text = "?"
  | .comma, .symbol text => text = ","
  | .call, .symbol text => text = "("
  | .index, .symbol text => text = "["
  | .suffixed, .symbol text => Construct.of ("post" ++ text) 1 = .suffixed text
  | _, _ => false

def NullRule.suits : NullRule → TokenKey → Bool
  | .unregistered, _ => true
  | .error, _ => true
  | .closing, _ => true
  | .literal, .identifier => true
  | .literal, .number => true
  | .grouping, .symbol text => text = "("
  | .prefixed, .symbol text => Construct.of text 1 = .prefixed text
  | .prefixUpdate, .symbol text => Construct.of text 1 = .prefixed text
  | _, _ => false

/-- The symbol of a rule behind an operand that has only one. -/
def LeftRule.symbol? : LeftRule → Option String
  | .ternary => some "?"
  | .comma => some ","
  | .call => some "("
  | .index => some "["
  | _ => none

def LeftRule.endsInOperand : LeftRule → Bool
  | .binary | .assignment | .ternary | .comma => true
  | _ => false

def LeftRule.endsInSymbol : LeftRule → Bool
  | .call | .index | .suffixed => true
  | _ => false

namespace CTable

/-- The end of the input is not registered. -/
theorem left_end {token : Token} (h : token.isEnd) :
    cTable.left token = .inert .unregistered := by
  have hkind : token.kind = .endOfInput := by simpa [Token.isEnd] using h
  simp only [OperatorTable.left, Token.key, hkind]
  decide

/-- What the table keeps to behind an operand. -/
structure LeftRegular (key : TokenKey) (binding : Binding LeftRule) : Prop where
  suits : binding.rule.suits key
  /-- Nothing holds the operand before it tighter than the suffixes do. -/
  leftPower_le : binding.leftPower ≤ Level.suffix.power
  leftPower_pos : binding.rule.endsInOperand ∨ binding.rule.endsInSymbol → 0 < binding.leftPower
  /-- An operator that ends with an operand lets another follow exactly if that
  would not have gone to the operand, and the comma always could. -/
  rightPower_bounds : binding.rule.endsInOperand →
    Level.comma.power ≤ binding.rightPower ∧ binding.rightPower < binding.nextPower
  /-- Behind an operator that ends with a symbol any other may follow. -/
  nextPower : binding.rule.endsInSymbol → Level.suffix.power < binding.nextPower

structure NullRegular (key : TokenKey) (binding : Binding NullRule) : Prop where
  suits : binding.rule.suits key
  /-- Behind the beginning of an operand any operator may follow. -/
  nextPower : binding.rule ≠ .unregistered → binding.rule ≠ .error →
    Level.suffix.power < binding.nextPower
  rightPower : binding.rule = .prefixed ∨ binding.rule = .prefixUpdate →
    Level.comma.power ≤ binding.rightPower

theorem left_regular (token : Token) : LeftRegular token.key (cTable.left token) := by
  have hentries : ∀ entry ∈ cTable.entries,
      entry.2.left.rule.suits entry.1 ∧ entry.2.left.leftPower ≤ Level.suffix.power ∧
      (entry.2.left.rule.endsInOperand ∨ entry.2.left.rule.endsInSymbol →
        0 < entry.2.left.leftPower) ∧
      (entry.2.left.rule.endsInOperand → Level.comma.power ≤ entry.2.left.rightPower ∧
        entry.2.left.rightPower < entry.2.left.nextPower) ∧
      (entry.2.left.rule.endsInSymbol → Level.suffix.power < entry.2.left.nextPower) := by
    decide
  refine OperatorTable.forall_left LeftRegular ?_ ?_ token
  · intro entry hentry
    obtain ⟨hsuits, hle, hpos, hbounds, hnext⟩ := hentries entry hentry
    exact ⟨hsuits, hle, hpos, hbounds, hnext⟩
  · intro key
    exact ⟨rfl, by decide, by decide, by decide, by decide⟩

theorem null_regular (token : Token) : NullRegular token.key (cTable.null token) := by
  have hentries : ∀ entry ∈ cTable.entries,
      entry.2.null.rule.suits entry.1 ∧
      (entry.2.null.rule ≠ .unregistered → entry.2.null.rule ≠ .error →
        Level.suffix.power < entry.2.null.nextPower) ∧
      (entry.2.null.rule = .prefixed ∨ entry.2.null.rule = .prefixUpdate →
        Level.comma.power ≤ entry.2.null.rightPower) := by
    decide
  refine OperatorTable.forall_null NullRegular ?_ ?_ token
  · intro entry hentry
    obtain ⟨hsuits, hnext, hright⟩ := hentries entry hentry
    exact ⟨hsuits, hnext, hright⟩
  · intro key
    exact ⟨rfl, by decide, by decide⟩

/-- The rules behind an operand that build something belong to their symbols. -/
theorem symbol_of_left {token : Token} {rule : LeftRule} (h : (cTable.left token).rule = rule)
    (hrule : rule ≠ .unregistered) (hrule' : rule ≠ .error) :
    token.kind = .operator ∧ rule.suits (.symbol token.value) := by
  have hsuits := (left_regular token).suits
  rw [h] at hsuits
  obtain ⟨kind, value, span⟩ := token
  cases rule <;> cases kind <;> simp_all [Token.key, LeftRule.suits]

/-- The rules at the beginning of an operand that read another one belong to
their symbols. -/
theorem symbol_of_null {token : Token} {rule : NullRule} (h : (cTable.null token).rule = rule)
    (hrule : rule = .grouping ∨ rule = .prefixed ∨ rule = .prefixUpdate) :
    token.kind = .operator ∧ rule.suits (.symbol token.value) := by
  have hsuits := (null_regular token).suits
  rw [h] at hsuits
  obtain ⟨kind, value, span⟩ := token
  cases rule <;> cases kind <;> simp_all [Token.key, NullRule.suits]

/-- A rule with a single symbol is found at that symbol. -/
theorem is_of_rule {token : Token} {symbol : String}
    (h : (cTable.left token).rule.symbol? = some symbol) : token.is symbol := by
  have hsuits := (left_regular token).suits
  obtain ⟨kind, value, span⟩ := token
  generalize (cTable.left ⟨kind, value, span⟩).rule = rule at h hsuits
  cases rule <;> cases kind <;> simp_all [Token.key, LeftRule.suits, LeftRule.symbol?, Token.is]

theorem left_of_rule {token : Token} {symbol : String}
    (h : (cTable.left token).rule.symbol? = some symbol) :
    cTable.left token = cTable.leftOfSymbol symbol :=
  OperatorTable.left_of_is (is_of_rule h)

theorem symbol_of_prefixed {token : Token}
    (h : (cTable.null token).rule = .prefixed ∨ (cTable.null token).rule = .prefixUpdate) :
    token.kind = .operator ∧ Construct.of token.value 1 = .prefixed token.value := by
  rcases h with h | h
  · simpa [NullRule.suits] using symbol_of_null h (by decide)
  · simpa [NullRule.suits] using symbol_of_null h (by decide)

theorem symbol_of_binary {token : Token}
    (h : (cTable.left token).rule = .binary ∨ (cTable.left token).rule = .assignment) :
    token.kind = .operator ∧ Construct.of token.value 2 = .binary token.value := by
  rcases h with h | h
  · simpa [LeftRule.suits] using symbol_of_left h (by decide) (by decide)
  · simpa [LeftRule.suits] using symbol_of_left h (by decide) (by decide)

/-- The operators that change the operand behind them. -/
theorem symbol_of_prefixUpdate {token : Token} (h : (cTable.null token).rule = .prefixUpdate) :
    token.is "++" ∨ token.is "--" := by
  have hkey : token.key = .symbol "++" ∨ token.key = .symbol "--" :=
    OperatorTable.forall_null
      (fun key binding => binding.rule = .prefixUpdate → key = .symbol "++" ∨ key = .symbol "--")
      (by decide) (by simp [Binding.inert]) token h
  obtain ⟨kind, value, span⟩ := token
  cases kind <;> simp_all [Token.key, Token.is]

/-- Parentheses take any operand. -/
theorem rightPower_grouping {token : Token} (h : (cTable.null token).rule = .grouping) :
    (cTable.null token).rightPower = minPower := by
  obtain ⟨hkind, hvalue⟩ := symbol_of_null h (by decide)
  rw [OperatorTable.null_of_operator hkind, of_decide_eq_true hvalue]
  decide

theorem kind_of_literal {token : Token} (h : (cTable.null token).rule = .literal) :
    token.kind = .identifier ∨ token.kind = .number := by
  have hsuits := (null_regular token).suits
  rw [h] at hsuits
  obtain ⟨kind, value, span⟩ := token
  cases kind <;> simp_all [Token.key, NullRule.suits]

theorem literal_of_kind {token : Token}
    (h : token.kind = .identifier ∨ token.kind = .number) :
    (cTable.null token).rule = .literal := by
  rcases h with h | h <;> simp only [OperatorTable.null, Token.key, h] <;> decide

theorem rule_of_symbol {rule : LeftRule} {symbol : String} (h : rule.symbol? = some symbol) :
    (cTable.leftOfSymbol symbol).rule = rule := by
  cases rule with
  | ternary | comma | call | index =>
      cases h
      decide
  | _ => cases h

/-- Closing brackets and the colon bind nothing. -/
theorem leftPower_closing {symbol : String} (h : symbol ∈ [")", "]", ":"]) :
    (cTable.leftOfSymbol symbol).leftPower = 0 := by
  revert h symbol
  decide

theorem leftPower_comma : (cTable.leftOfSymbol ",").leftPower = Level.comma.power := by
  decide

theorem rightPower_comma : (cTable.leftOfSymbol ",").rightPower = Level.comma.power := by
  decide

/-! The constructs that the table has. -/

/-- A construct of the table that follows an operand has a rule that ends as the
construct does. -/
theorem rule_of_registered {construct : Construct} (h : construct.Registered cTable)
    (hconstruct : construct.followsOperand) :
    (cTable.leftOfSymbol construct.symbol).rule.endsInOperand = construct.endsInOperand ∧
      (cTable.leftOfSymbol construct.symbol).rule.endsInSymbol = !construct.endsInOperand := by
  cases construct with
  | prefixed => cases hconstruct
  | suffixed symbol =>
      have hrule : (cTable.leftOfSymbol symbol).rule = .suffixed := h
      simp only [Construct.symbol, hrule]
      exact ⟨rfl, rfl⟩
  | binary symbol =>
      have hrule : (cTable.leftOfSymbol symbol).rule = .binary ∨
          (cTable.leftOfSymbol symbol).rule = .assignment := h
      rcases hrule with hrule | hrule <;> simp only [Construct.symbol, hrule] <;>
        exact ⟨rfl, rfl⟩
  | _ => decide

theorem leftPower_registered {construct : Construct} (h : construct.Registered cTable)
    (hconstruct : construct.followsOperand) : 0 < construct.leftPower cTable := by
  obtain ⟨hoperand, hsymbol⟩ := rule_of_registered h hconstruct
  refine (left_regular ⟨.operator, construct.symbol, .origin⟩).leftPower_pos ?_
  cases hends : construct.endsInOperand with
  | true => exact .inl (hoperand.trans hends)
  | false => exact .inr (hsymbol.trans (by rw [hends]; rfl))

theorem leftPower_sequence : Construct.sequence.leftPower cTable = Level.comma.power :=
  leftPower_comma

theorem rightPower_sequence : Construct.sequence.rightPower cTable = Level.comma.power :=
  rightPower_comma

theorem rightPower_registered {construct : Construct} (h : construct.Registered cTable)
    (hconstruct : construct.endsInOperand) :
    Level.comma.power ≤ construct.rightPower cTable := by
  cases construct with
  | prefixed symbol => exact (null_regular ⟨.operator, symbol, .origin⟩).rightPower h
  | binary symbol =>
      exact ((left_regular ⟨.operator, symbol, .origin⟩).rightPower_bounds
        ((rule_of_registered h rfl).1.trans hconstruct)).1
  | ternary => decide
  | sequence => exact Int.le_of_eq rightPower_sequence.symm
  | _ => cases hconstruct

end CTable

namespace Expr.WellFormed

theorem leftSpine_pos {expr : Expr} (h : expr.WellFormed cTable) :
    ∀ construct ∈ expr.leftSpine, 0 < construct.leftPower cTable := by
  induction h with
  | leaf => simp [leftSpine]
  | @node tag children grouped span hregistered _ _ ih =>
      intro construct hconstruct
      obtain ⟨first, rest, rfl, hfollows, rfl | hfirst⟩ := mem_leftSpine hconstruct
      · exact CTable.leftPower_registered hregistered hfollows
      · exact ih first (by simp) construct hfirst

theorem rightSpineOfLast_bound {exprs : List Expr}
    (h : ∀ expr ∈ exprs, ∀ construct ∈ expr.rightSpine,
      Level.comma.power ≤ construct.rightPower cTable) :
    ∀ construct ∈ rightSpineOfLast exprs, Level.comma.power ≤ construct.rightPower cTable := by
  rcases List.eq_nil_or_concat exprs with rfl | ⟨front, last, rfl⟩
  · simp [rightSpineOfLast]
  · rw [List.concat_eq_append, rightSpineOfLast_append]
    exact h last (by simp)

/-- A comma, or a token that binds nothing, goes on with no operand at the end of
an expression. -/
theorem rightSpine_bound {expr : Expr} (h : expr.WellFormed cTable) :
    ∀ construct ∈ expr.rightSpine, Level.comma.power ≤ construct.rightPower cTable := by
  induction h with
  | leaf => simp [rightSpine]
  | @node tag children grouped span hregistered _ _ ih =>
      intro construct hconstruct
      obtain ⟨hends, rfl | hlast⟩ := mem_rightSpine hconstruct
      · exact CTable.rightPower_registered hregistered hends
      · exact rightSpineOfLast_bound ih construct hlast

end Expr.WellFormed

end Precedence
