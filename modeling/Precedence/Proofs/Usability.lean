import Precedence.Proofs.Lexing
import Precedence.Proofs.Registration

/-!
Operators that a table was built with can be used: between two operands, behind one or
before one they are read in the role they were given last. This holds of operators behind
an operand that bind less tightly than the greatest power, and of operators before one
with a power that is not negative; registration asks for neither, and an operator outside
these bounds is read nowhere.
-/

namespace Precedence

structure Lexeme.IsOperand (lexeme : Lexeme) : Prop where
  isWord : lexeme.IsWord
  kind : lexeme.kind = .identifier ∨ lexeme.kind = .number

/-- The operand that a word stands for, wherever it is written. -/
def Lexeme.leaf (lexeme : Lexeme) : Expr := .leaf ⟨lexeme.kind, lexeme.value, .origin⟩

namespace Registration

/-- Identifiers and numbers are registered as operands after any other role they are
given where an operand is expected. -/
def LiteralsLast (registrations : List Registration) : Prop :=
  ∃ before after, registrations = before ++ literal :: after ∧
    ∀ registration ∈ after, ∀ key ∈ [TokenKey.identifier, .number], registration.null? key = none

theorem LiteralsLast.lastNull?_eq {registrations : List Registration}
    (h : LiteralsLast registrations) {key : TokenKey}
    (hkey : key ∈ [TokenKey.identifier, .number]) :
    lastNull? registrations key = some .operand := by
  obtain ⟨before, after, rfl, hafter⟩ := h
  have hnone : after.reverse.findSome? (null? key) = none :=
    List.findSome?_eq_none_iff.mpr fun registration hmem =>
      hafter registration (List.mem_reverse.mp hmem) key hkey
  have hliteral : literal.null? key = some .operand := by
    rw [literal, null?, if_pos hkey, Binding.operand]
  simp only [lastNull?, List.reverse_append, List.reverse_cons, List.append_assoc,
    List.findSome?_append, hnone, Option.none_or, List.singleton_append, List.findSome?_cons, hliteral]

/-- An operator that a table was built with binds the operand before it. -/
theorem power_pos_of_last {registrations : List Registration} {table : OperatorTable}
    (hbuild : OperatorTable.build registrations = .ok table) {key : TokenKey} {fixity : Fixity}
    {power : Int} {rule : LeftRule}
    (hlast : lastLeft? registrations key = some (fixity.binding power rule)) : 0 < power := by
  obtain ⟨registration, hmem, hbinding⟩ := List.exists_of_findSome?_eq_some hlast
  have hfault := (OperatorTable.build_eq_ok hbuild).1 registration (List.mem_reverse.mp hmem)
  cases registration with
  | nilfix => cases hbinding
  | leading => cases hbinding
  | following fixity' power' rule' symbols =>
      simp only [left?] at hbinding
      split at hbinding
      · obtain rfl : power' = power := by
          have hpower := congrArg Binding.leftPower (Option.some.inj hbinding)
          simpa using hpower
        by_contra hlow
        have hle : power' ≤ minPower := Int.not_lt.mp hlow
        simp [fault?, hle] at hfault
      · cases hbinding

end Registration

namespace Parse

section Tokens

variable {registrations : List Registration} {table : OperatorTable}
  (hbuild : OperatorTable.build registrations = .ok table) {first second operator last : Token}
  {depth : Nat} (hend : last.isEnd) (hfirst : table.null first = .operand ∧ ¬first.isEnd)

include hbuild hend

/-- A bound that is not negative stops at the end of the input. -/
theorem stops_end {bound power : Int} (hbound : 0 ≤ bound) : Stops table bound power [last] := by
  intro token htoken
  cases htoken
  have hinert : (table.left last).leftPower = 0 := by
    rcases OperatorTable.left_end_build hbuild hend with hleft | hleft <;> rw [hleft] <;> rfl
  omega

include hfirst

theorem reads_operand {bound : Int} (hbound : 0 ≤ bound) :
    Reads table (depth + 1) bound [first, last] (.leaf first) [last] :=
  ⟨maxPower, reaches_operand hfirst.1 hfirst.2, stops_end hbuild hend hbound⟩

theorem reads_between {fixity : Fixity} {power : Int} (hfixity : fixity ≠ .suffix)
    (hpos : 0 < power) (hpower : power < maxPower)
    (hoperator : table.left operator = fixity.binding power .binary)
    (hsecond : table.null second = .operand ∧ ¬second.isEnd) :
    Reads table (depth + 2) minPower [first, operator, second, last]
      (.ofOperands operator.value [.leaf first, .leaf second]) [last] := by
  have hbounds := @Shape.binding_bounds ⟨fixity, power⟩ hfixity
  have hright : Reads table (depth + 1) (table.left operator).rightPower [second, last]
      (.leaf second) [last] := by
    apply reads_operand hbuild hend hsecond
    rw [hoperator]
    exact Int.le_trans (by dsimp only; omega) hbounds.1
  refine ⟨(table.left operator).nextPower, ?_, stops_end hbuild hend (Int.le_refl 0)⟩
  refine .step (reaches_operand hfirst.1 hfirst.2) ?_ ?_ (.binary ?_ hright)
  · simpa [hoperator, minPower] using hpos
  · simpa [hoperator] using hpower
  · simp [hoperator]

theorem reads_behind {power : Int} (hpos : 0 < power) (hpower : power < maxPower)
    (hoperator : table.left operator = Fixity.suffix.binding power .suffixed) :
    Reads table (depth + 1) minPower [first, operator, last] (suffixed operator (.leaf first))
      [last] := by
  refine ⟨(table.left operator).nextPower, ?_, stops_end hbuild hend (Int.le_refl 0)⟩
  refine .step (reaches_operand hfirst.1 hfirst.2) ?_ ?_ (.suffixed ?_)
  · simpa [hoperator, minPower] using hpos
  · simpa [hoperator] using hpower
  · simp [hoperator]

theorem reads_before {power : Int} (hpower : minPower ≤ power) (hkind : operator.kind = .operator)
    (hoperator : table.null operator = ⟨minPower, power, maxPower, .prefixed⟩) :
    Reads table (depth + 2) minPower [operator, first, last]
      (.node operator.value [.leaf first] false (operator.span.join first.span)) [last] := by
  have hinner : Reads table (depth + 1) (table.null operator).rightPower [first, last]
      (.leaf first) [last] := by
    apply reads_operand hbuild hend hfirst
    rw [hoperator]
    exact hpower
  refine ⟨(table.null operator).nextPower, ?_, stops_end hbuild hend (Int.le_refl 0)⟩
  exact .of_null (by simp) (by simp [Token.isEnd, hkind]) (.prefixed (by rw [hoperator]) hinner)

end Tokens

end Parse

/-- The words of a text that is read up to its end are its tokens. -/
theorem Lexes.tokens {source : String} {words : List Lexeme} (h : Lexes source.toList words []) :
    ∃ tokens last, Precedence.tokenize source = .ok (tokens ++ [last]) ∧ last.isEnd ∧
      tokens.map Token.lexeme = words := by
  obtain ⟨all, hall, hwords⟩ := h.tokenize
  obtain ⟨tokens, last, rfl, _, hend, _⟩ :=
    (TokenStream.ofSource_sealed source).split_of_collect hall
  rw [lexemes_tokenize hall] at hwords
  exact ⟨tokens, last, hall, hend, hwords⟩

namespace Parser

open Registration

/-- What is read from a text with the given words is what the text is parsed to. -/
theorem parse_of_words {table : OperatorTable} (hinert : table.EndIsInert) {limit : Nat}
    {source : String} {words : List Lexeme} {tree : Expr} (hsource : Lexes source.toList words [])
    (hreads : ∀ tokens last, tokens.map Token.lexeme = words → last.isEnd →
      ∃ expr, Parse.Reads table limit minPower (tokens ++ [last]) expr [last] ∧
        expr.eraseSpans = tree) :
    ∃ expr, Parser.parse ⟨table, limit⟩ source = .ok expr ∧ expr.eraseSpans = tree := by
  obtain ⟨tokens, last, htokens, hend, hwords⟩ := hsource.tokens
  obtain ⟨expr, hexpr, herase⟩ := hreads tokens last hwords hend
  exact ⟨expr, (parse_eq_ok_iff hinert).mpr ⟨tokens, last, htokens, hend, hexpr⟩, herase⟩

theorem isWord_mark {symbol : String} (h : symbol ∈ punctuation ++ operatorSymbols) :
    (Lexeme.mark symbol).IsWord := by
  revert h symbol
  decide +kernel

/-- A token that spells an operand is one, for a table that makes literals operands. -/
theorem operand_of_lexeme {registrations : List Registration} {table : OperatorTable}
    (hbuild : OperatorTable.build registrations = .ok table) (hliterals : LiteralsLast registrations)
    {token : Token} {lexeme : Lexeme} (htoken : token.lexeme = lexeme) (h : lexeme.IsOperand) :
    table.null token = .operand ∧ ¬token.isEnd := by
  have hkind : token.kind = .identifier ∨ token.kind = .number := by
    have hoperand := h.kind
    rwa [← htoken] at hoperand
  refine ⟨OperatorTable.null_of_last hbuild (hliterals.lastNull?_eq ?_), Token.not_isEnd_of_kind hkind⟩
  rcases hkind with hkind | hkind <;> simp [Token.key, hkind]

theorem key_of_mark {token : Token} {symbol : String} (h : token.lexeme = .mark symbol) :
    token.key = .symbol symbol := by
  obtain ⟨hkind, hvalue⟩ := Lexeme.mk.inj h
  rw [Token.key, hkind, hvalue]

section Usable

variable {registrations : List Registration} {table : OperatorTable}
  (hbuild : OperatorTable.build registrations = .ok table) (hliterals : LiteralsLast registrations)
  {depth : Nat} {symbol : String} (hsymbol : symbol ∈ punctuation ++ operatorSymbols)
  {a b : Lexeme} (ha : a.IsOperand) {power : Int}

include hbuild hliterals hsymbol ha

theorem parse_between (hb : b.IsOperand) {fixity : Fixity} (hfixity : fixity ≠ .suffix)
    (hpower : power < maxPower)
    (hlast : lastLeft? registrations (.symbol symbol) = some (fixity.binding power .binary)) :
    ∃ expr, Parser.parse ⟨table, depth + 2⟩ (a.value ++ " " ++ symbol ++ " " ++ b.value) =
        .ok expr ∧
      expr.eraseSpans = .node symbol [a.leaf, b.leaf] false .origin := by
  apply @parse_of_words table (OperatorTable.endIsInert_build hbuild) _ _ [a, .mark symbol, b]
  · have hlexes := Lexes.append (.word ha.isWord (.cons rfl))
      (.append (.between (isWord_mark hsymbol)) (.word hb.isWord (by simp [Clear] : Clear [])))
    simpa using hlexes
  · intro tokens last htokens hend
    obtain ⟨first, _, rfl, hfirst, htokens⟩ := List.map_eq_cons_iff.mp htokens
    obtain ⟨operator, _, rfl, hoperator, htokens⟩ := List.map_eq_cons_iff.mp htokens
    obtain ⟨second, rfl, hsecond⟩ := List.map_eq_singleton_iff.mp htokens
    obtain rfl : operator.value = symbol := congrArg Lexeme.value hoperator
    refine ⟨_, Parse.reads_between hbuild hend (operand_of_lexeme hbuild hliterals hfirst ha)
      hfixity (power_pos_of_last hbuild hlast) hpower
      (OperatorTable.left_of_last hbuild (key_of_mark hoperator ▸ hlast))
      (operand_of_lexeme hbuild hliterals hsecond hb), ?_⟩
    simp [Expr.ofOperands, Expr.eraseSpans, ← hfirst, ← hsecond, Lexeme.leaf, Token.lexeme]

theorem parse_behind (hpower : power < maxPower)
    (hlast : lastLeft? registrations (.symbol symbol) =
      some (Fixity.suffix.binding power .suffixed)) :
    ∃ expr, Parser.parse ⟨table, depth + 2⟩ (a.value ++ " " ++ symbol) = .ok expr ∧
      expr.eraseSpans = .node ("post" ++ symbol) [a.leaf] false .origin := by
  apply @parse_of_words table (OperatorTable.endIsInert_build hbuild) _ _ [a, .mark symbol]
  · have hlexes := Lexes.append (.word ha.isWord (.cons rfl))
      (.blank (.word (isWord_mark hsymbol) (by simp [Clear] : Clear [])))
    simpa [Lexeme.mark] using hlexes
  · intro tokens last htokens hend
    obtain ⟨first, _, rfl, hfirst, htokens⟩ := List.map_eq_cons_iff.mp htokens
    obtain ⟨operator, rfl, hoperator⟩ := List.map_eq_singleton_iff.mp htokens
    obtain rfl : operator.value = symbol := congrArg Lexeme.value hoperator
    refine ⟨_, Parse.reads_behind hbuild hend (operand_of_lexeme hbuild hliterals hfirst ha)
      (power_pos_of_last hbuild hlast) hpower
      (OperatorTable.left_of_last hbuild (key_of_mark hoperator ▸ hlast)), ?_⟩
    simp [Parse.suffixed, Expr.eraseSpans, ← hfirst, Lexeme.leaf, Token.lexeme]

theorem parse_before (hpower : minPower ≤ power)
    (hlast : lastNull? registrations (.symbol symbol) =
      some ⟨minPower, power, maxPower, .prefixed⟩) :
    ∃ expr, Parser.parse ⟨table, depth + 2⟩ (symbol ++ " " ++ a.value) = .ok expr ∧
      expr.eraseSpans = .node symbol [a.leaf] false .origin := by
  apply @parse_of_words table (OperatorTable.endIsInert_build hbuild) _ _ [.mark symbol, a]
  · have hlexes := Lexes.append (.word (isWord_mark hsymbol) (.cons rfl))
      (.blank (.word ha.isWord (by simp [Clear] : Clear [])))
    simpa [Lexeme.mark] using hlexes
  · intro tokens last htokens hend
    obtain ⟨operator, _, rfl, hoperator, htokens⟩ := List.map_eq_cons_iff.mp htokens
    obtain ⟨first, rfl, hfirst⟩ := List.map_eq_singleton_iff.mp htokens
    obtain rfl : operator.value = symbol := congrArg Lexeme.value hoperator
    refine ⟨_, Parse.reads_before hbuild hend (operand_of_lexeme hbuild hliterals hfirst ha) hpower
      (congrArg Lexeme.kind hoperator)
      (OperatorTable.null_of_last hbuild (key_of_mark hoperator ▸ hlast)), ?_⟩
    simp [Expr.eraseSpans, ← hfirst, Lexeme.leaf, Token.lexeme]

end Usable

/-- Every operator that a table was built with can be used with operands, in the role it
was given last, if identifiers and numbers are operands and the operator binds within the
bounds: behind an operand less tightly than the greatest power, before an operand with a
power that is not negative. -/
theorem operator_usable {registrations : List Registration} {table : OperatorTable}
    (hbuild : OperatorTable.build registrations = .ok table) (hliterals : LiteralsLast registrations)
    {limit : Nat} (hlimit : 2 ≤ limit) {symbol : String}
    (hsymbol : symbol ∈ punctuation ++ operatorSymbols) {a b : Lexeme} (ha : a.IsOperand)
    (hb : b.IsOperand) :
    (∀ (fixity : Fixity) (power : Int), fixity ≠ .suffix → power < maxPower →
      lastLeft? registrations (.symbol symbol) = some (fixity.binding power .binary) →
      ∃ expr, Parser.parse ⟨table, limit⟩ (a.value ++ " " ++ symbol ++ " " ++ b.value) = .ok expr ∧
        expr.eraseSpans = .node symbol [a.leaf, b.leaf] false .origin) ∧
    (∀ power, power < maxPower →
      lastLeft? registrations (.symbol symbol) = some (Fixity.suffix.binding power .suffixed) →
      ∃ expr, Parser.parse ⟨table, limit⟩ (a.value ++ " " ++ symbol) = .ok expr ∧
        expr.eraseSpans = .node ("post" ++ symbol) [a.leaf] false .origin) ∧
    ∀ power, minPower ≤ power →
      lastNull? registrations (.symbol symbol) = some ⟨minPower, power, maxPower, .prefixed⟩ →
      ∃ expr, Parser.parse ⟨table, limit⟩ (symbol ++ " " ++ a.value) = .ok expr ∧
        expr.eraseSpans = .node symbol [a.leaf] false .origin := by
  obtain ⟨depth, rfl⟩ : ∃ depth, limit = depth + 2 := ⟨limit - 2, by omega⟩
  refine ⟨?_, ?_, ?_⟩
  · intro fixity power hfixity hpower hlast
    exact parse_between hbuild hliterals hsymbol ha hb hfixity hpower hlast
  · intro power hpower hlast
    exact parse_behind hbuild hliterals hsymbol ha hpower hlast
  · intro power hpower hlast
    exact parse_before hbuild hliterals hsymbol ha hpower hlast

/-- Operators at the edges of the powers with which they can be used. -/
def edges : List Registration :=
  [.literal, .following .rightAssoc 9999 .binary ["<<="], .following .suffix 1 .suffixed ["["],
    .leading 0x7fffffff .prefixed ["<<="]]

theorem operator_usable_edges :
    ∃ table, OperatorTable.build edges = .ok table ∧ LiteralsLast edges ∧ 2 ≤ 2 ∧
      ("<<=" ∈ punctuation ++ operatorSymbols ∧ "[" ∈ punctuation ++ operatorSymbols) ∧
      (Lexeme.IsOperand ⟨.identifier, "a"⟩ ∧ Lexeme.IsOperand ⟨.number, "7."⟩) ∧
      (lastLeft? edges (.symbol "<<=") = some (Fixity.rightAssoc.binding 9999 .binary) ∧
        ∃ expr, Parser.parse ⟨table, 2⟩ "a <<= 7." = .ok expr ∧ expr.sexp = "(<<= a 7.)") ∧
      (lastLeft? edges (.symbol "[") = some (Fixity.suffix.binding 1 .suffixed) ∧
        ∃ expr, Parser.parse ⟨table, 2⟩ "a [" = .ok expr ∧ expr.sexp = "(post[ a)") ∧
      lastNull? edges (.symbol "<<=") = some ⟨minPower, 0x7fffffff, maxPower, .prefixed⟩ ∧
        ∃ expr, Parser.parse ⟨table, 2⟩ "<<= a" = .ok expr ∧ expr.sexp = "(<<= a)" := by
  have hliterals : LiteralsLast edges := ⟨[], edges.tail, rfl, by decide⟩
  have hassign : "<<=" ∈ punctuation ++ operatorSymbols := by decide
  have hbracket : "[" ∈ punctuation ++ operatorSymbols := by decide
  have ha : Lexeme.IsOperand ⟨.identifier, "a"⟩ := ⟨by decide +kernel, .inl rfl⟩
  have hb : Lexeme.IsOperand ⟨.number, "7."⟩ := ⟨by decide +kernel, .inr rfl⟩
  have hbetween : lastLeft? edges (.symbol "<<=") = some (Fixity.rightAssoc.binding 9999 .binary) := by
    decide
  have hbehind : lastLeft? edges (.symbol "[") = some (Fixity.suffix.binding 1 .suffixed) := by decide
  have hbefore : lastNull? edges (.symbol "<<=") =
      some ⟨minPower, 0x7fffffff, maxPower, .prefixed⟩ := by decide
  obtain ⟨expr, hexpr, herase⟩ := (operator_usable rfl hliterals (Nat.le_refl 2) hassign ha hb).1
    _ _ (by decide) (by decide) hbetween
  obtain ⟨expr', hexpr', herase'⟩ := (operator_usable rfl hliterals (Nat.le_refl 2) hbracket ha
    hb).2.1 _ (by decide) hbehind
  obtain ⟨expr'', hexpr'', herase''⟩ := (operator_usable rfl hliterals (Nat.le_refl 2) hassign ha
    hb).2.2 _ (by decide) hbefore
  refine ⟨_, rfl, hliterals, Nat.le_refl 2, ⟨hassign, hbracket⟩, ⟨ha, hb⟩,
    ⟨hbetween, expr, hexpr, ?_⟩, ⟨hbehind, expr', hexpr', ?_⟩, hbefore, expr'', hexpr'', ?_⟩
  · rw [← expr.sexp_eraseSpans, herase]
    decide +kernel
  · rw [← expr'.sexp_eraseSpans, herase']
    decide +kernel
  · rw [← expr''.sexp_eraseSpans, herase'']
    decide +kernel

/-- Registration does not see to it that an operator can be used: one that binds as tightly
as the greatest power never follows an operand, and one with a negative power before its
operand takes the end of the input for an operator. -/
theorem registered_unusable :
    let registrations : List Registration :=
      [.literal, .following .leftAssoc 10000 .binary ["+"], .following .suffix 10000 .suffixed ["!"],
        .leading (-1) .prefixed ["-"]]
    ∃ table, OperatorTable.build registrations = .ok table ∧ LiteralsLast registrations ∧
      (lastLeft? registrations (.symbol "+") = some (Fixity.leftAssoc.binding 10000 .binary) ∧
        Parser.parse ⟨table, 8⟩ "a + b" = .error ⟨.trailingInput "+", 2⟩) ∧
      (lastLeft? registrations (.symbol "!") = some (Fixity.suffix.binding 10000 .suffixed) ∧
        Parser.parse ⟨table, 8⟩ "a !" = .error ⟨.trailingInput "!", 2⟩) ∧
      lastNull? registrations (.symbol "-") = some ⟨minPower, -1, maxPower, .prefixed⟩ ∧
        Parser.parse ⟨table, 8⟩ "- a" = .error ⟨.notFollowing "EOF", 3⟩ := by
  refine ⟨_, rfl, ⟨[], _, rfl, by decide⟩, ⟨by decide, by decide +kernel⟩,
    ⟨by decide, by decide +kernel⟩, by decide, by decide +kernel⟩

end Parser

end Precedence
