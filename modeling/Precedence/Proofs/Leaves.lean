import Precedence.Proofs.Yield

/-!
The leaves of an expression, from left to right, are tokens of its source in their
order; with the C grammar they are all tokens that are operands by themselves. The
operators and brackets between them are left behind.
-/

namespace Precedence

open Lexeme Parse

def TokenKind.isOperand : TokenKind → Bool
  | .identifier | .number => true
  | _ => false

theorem TokenKind.isOperand_iff {kind : TokenKind} :
    kind.isOperand ↔ kind = .identifier ∨ kind = .number := by
  cases kind <;> decide

def Token.operands (tokens : List Token) : List Token :=
  tokens.filter fun token => token.kind.isOperand

def Lexeme.operands (text : List Lexeme) : List Lexeme :=
  text.filter fun lexeme => lexeme.kind.isOperand

namespace Lexeme

@[simp] theorem operands_nil : operands [] = [] := rfl

@[simp] theorem operands_append (text text' : List Lexeme) :
    operands (text ++ text') = operands text ++ operands text' :=
  List.filter_append ..

@[simp] theorem operands_mark_cons (symbol : String) (text : List Lexeme) :
    operands (mark symbol :: text) = operands text := rfl

theorem operands_lexeme_cons {token : Token} (h : token.kind.isOperand) (text : List Lexeme) :
    operands (token.lexeme :: text) = token.lexeme :: operands text :=
  List.filter_cons_of_pos h

theorem operands_map (tokens : List Token) :
    operands (tokens.map Token.lexeme) = (Token.operands tokens).map Token.lexeme :=
  List.filter_map ..

@[simp] theorem operands_enclose (pairs : Nat) (text : List Lexeme) :
    operands (enclose pairs text) = operands text := by
  induction pairs with
  | zero => rfl
  | succ pairs ih => simp [enclose, ih]

@[simp] theorem operands_separated (texts : List (List Lexeme)) :
    operands (separated texts) = texts.flatMap operands := by
  cases texts with
  | nil => rfl
  | cons text texts =>
      have hothers : operands (texts.flatMap (mark "," :: ·)) = texts.flatMap operands := by
        induction texts with
        | nil => rfl
        | cons text texts ih => simp [ih]
      simp [separated_cons, hothers]

end Lexeme

/-- A construct adds no operands to those of its parts. -/
theorem Construct.Layout.operands_body {construct : Construct} {texts : List (List Lexeme)}
    {body : List Lexeme} (h : construct.Layout texts body) :
    operands body = texts.flatMap operands := by
  cases h <;> simp

mutual

def Expr.leaves : Expr → List Token
  | .leaf token => [token]
  | .node _ children _ _ => leavesOfAll children

def Expr.leavesOfAll : List Expr → List Token
  | [] => []
  | expr :: rest => expr.leaves ++ leavesOfAll rest

end

namespace Expr

@[simp] theorem leavesOfAll_append (exprs others : List Expr) :
    leavesOfAll (exprs ++ others) = leavesOfAll exprs ++ leavesOfAll others := by
  induction exprs with
  | nil => rfl
  | cons expr rest ih => rw [List.cons_append, leavesOfAll, leavesOfAll, ih, List.append_assoc]

@[simp] theorem leaves_group (expr : Expr) : expr.group.leaves = expr.leaves := by
  cases expr <;> rfl

theorem leaves_sequence (left right : Expr) :
    (Parse.sequence left right).leaves = left.leaves ++ right.leaves := by
  unfold Parse.sequence
  split <;> simp [leaves, leavesOfAll, ofOperands]

end Expr

/-- The operands of several spellings are the leaves of the expressions. -/
theorem operands_flatMap {exprs : List Expr} {texts : List (List Lexeme)}
    (h : List.Forall₂ Spelling exprs texts)
    (hleaves : ∀ expr ∈ exprs, ∀ text, Spelling expr text →
      operands text = expr.leaves.map Token.lexeme) :
    texts.flatMap operands = (Expr.leavesOfAll exprs).map Token.lexeme := by
  induction h with
  | nil => rfl
  | cons hfirst _ ih =>
      rw [List.flatMap_cons, Expr.leavesOfAll, List.map_append, hleaves _ (by simp) _ hfirst,
        ih fun expr hexpr => hleaves expr (by simp [hexpr])]

/-- The operands of a spelling are the leaves of the expression. -/
theorem Spelling.operands_eq {table : OperatorTable} {expr : Expr} {text : List Lexeme}
    (hwell : expr.WellFormed table) (h : Spelling expr text) :
    operands text = expr.leaves.map Token.lexeme := by
  induction expr generalizing text with
  | leaf token =>
      cases hwell with
      | leaf hkind =>
          cases h with
          | leaf _ pairs =>
              simp [operands_lexeme_cons (TokenKind.isOperand_iff.mpr hkind), Expr.leaves]
  | node tag children grouped span ih =>
      cases h with
      | @node _ _ _ _ pairs texts body htexts hbody _ =>
          have hchildren := operands_flatMap htexts fun child hchild text htext =>
            ih child hchild (hwell.of_node.2.2 child hchild) htext
          simp [hbody.operands_body, hchildren, Expr.leaves]

namespace Parse

def Reading.KeepsLeaves (reading : Reading) : Prop :=
  ∀ {bound : Int} {tokens : List Token} {expr : Expr} {rest : List Token},
    reading bound tokens expr rest → (expr.leaves ++ rest).Sublist tokens

section Rules

variable {table : OperatorTable} {reading : Reading} {tokens rest : List Token} {expr : Expr}

theorem sublist_skip {before after : List Token} {token : Token}
    (h : (before ++ token :: after).Sublist tokens) : (before ++ after).Sublist tokens :=
  ((List.sublist_cons_self token after).append_left before).trans h

theorem NullReads.leaves_sublist (hreading : reading.KeepsLeaves) {binding : Binding NullRule}
    {token : Token} (h : NullReads reading binding token tokens expr rest) :
    (expr.leaves ++ rest).Sublist (token :: tokens) := by
  cases h with
  | literal => exact List.Sublist.refl _
  | grouping _ hinner _ =>
      rw [Expr.leaves_group]
      exact (sublist_skip (hreading hinner)).cons token
  | prefixed _ hinner => simpa [Expr.leaves, Expr.leavesOfAll] using (hreading hinner).cons token
  | prefixUpdate _ hinner _ =>
      simpa [Expr.leaves, Expr.leavesOfAll] using (hreading hinner).cons token

theorem ArgumentsRead.leaves_sublist (hreading : reading.KeepsLeaves) {bound : Int}
    {values : List Expr} (h : ArgumentsRead reading bound tokens values rest) :
    (Expr.leavesOfAll values ++ rest).Sublist tokens := by
  induction h with
  | done => exact List.Sublist.refl _
  | last _ _ hfirst _ => simpa [Expr.leavesOfAll] using hreading hfirst
  | more _ _ hfirst _ _ ih =>
      rw [Expr.leavesOfAll, List.append_assoc]
      exact ((ih.cons _).append_left _).trans (hreading hfirst)

/-- An operator over the operand before it and others behind it. -/
theorem LeftReads.leaves_sublist (hreading : reading.KeepsLeaves) {binding : Binding LeftRule}
    {token : Token} {left : Expr} (h : LeftReads table reading binding token left tokens expr rest) :
    (expr.leaves ++ rest).Sublist (left.leaves ++ token :: tokens) := by
  have hbehind : ∀ {others : List Token}, (others ++ rest).Sublist tokens →
      (left.leaves ++ others ++ rest).Sublist (left.leaves ++ token :: tokens) := by
    intro others hothers
    rw [List.append_assoc]
    exact (hothers.cons token).append_left left.leaves
  cases h with
  | binary _ hright =>
      simpa [Expr.ofOperands, Expr.leaves, Expr.leavesOfAll] using hbehind (hreading hright)
  | assignment _ _ hright =>
      simpa [Expr.ofOperands, Expr.leaves, Expr.leavesOfAll] using hbehind (hreading hright)
  | @ternary _ _ positive negative _ _ _ hpositive _ hnegative =>
      have hboth : (positive.leaves ++ negative.leaves ++ rest).Sublist tokens := by
        rw [List.append_assoc]
        exact ((hreading hnegative).append_left _).trans (sublist_skip (hreading hpositive))
      simpa [Expr.ofOperands, Expr.leaves, Expr.leavesOfAll] using hbehind hboth
  | comma _ hright =>
      rw [Expr.leaves_sequence]
      exact hbehind (hreading hright)
  | call _ hvalues _ => exact hbehind (sublist_skip (hvalues.leaves_sublist hreading))
  | index _ hplace _ =>
      simpa [Expr.leaves, Expr.leavesOfAll] using hbehind (sublist_skip (hreading hplace))
  | suffixed =>
      simp [Parse.suffixed, Expr.leaves, Expr.leavesOfAll]

theorem Reaches.leaves_sublist (hreading : reading.KeepsLeaves) {bound power : Int}
    (h : Reaches table reading bound tokens power expr rest) :
    (expr.leaves ++ rest).Sublist tokens := by
  induction h with
  | start htokens _ hnull =>
      rw [htokens]
      exact hnull.leaves_sublist hreading
  | step _ _ _ hstep ih => exact (hstep.leaves_sublist hreading).trans ih

end Rules

theorem Reads.leaves_sublist (table : OperatorTable) (budget : Nat) :
    (Reads table budget).KeepsLeaves := by
  intro bound tokens expr rest h
  induction h using Reads.run with
  | step ih hreached _ => exact hreached.leaves_sublist ih

end Parse

/-- The leaves of what the C grammar reads are the operands of the source. -/
theorem Parser.leaves_of_parse {limit : Nat} {source : String} {expr : Expr}
    {tokens : List Token} (h : (Parser.ofC limit).parse source = .ok expr)
    (htokens : tokenize source = .ok tokens) : expr.leaves = Token.operands tokens := by
  obtain ⟨front, last, hfront, hend, hreads⟩ := (parse_eq_ok_iff CTable.endIsInert).mp h
  obtain rfl : tokens = front ++ [last] := Except.ok.inj (htokens.symm.trans hfront)
  obtain ⟨hwell, used, hused, hspelling⟩ := Reads.yields limit hreads
  obtain rfl := List.append_cancel_right hused
  have hlast : Token.operands (front ++ [last]) = Token.operands front := by
    have hkind : last.kind = .endOfInput := by simpa [Token.isEnd] using hend
    simp [Token.operands, hkind, TokenKind.isOperand]
  have hoperands := hspelling.spelling.operands_eq hwell
  rw [operands_map] at hoperands
  -- As many leaves as operands, and all of them operands, in the same order.
  have hleaves : expr.leaves.Sublist front := by
    simpa using Reads.leaves_sublist cTable limit hreads
  have hall : ∀ token ∈ expr.leaves, token.kind.isOperand := by
    intro token htoken
    have hmem : token.lexeme ∈ (Token.operands front).map Token.lexeme := by
      rw [hoperands]
      exact List.mem_map_of_mem htoken
    obtain ⟨operand, hoperand, hsame⟩ := List.mem_map.mp hmem
    have hkind : operand.kind = token.kind := congrArg Lexeme.kind hsame
    rw [← hkind]
    exact (List.mem_filter.mp hoperand).2
  have hsublist : expr.leaves.Sublist (Token.operands front) := by
    have hfilter := hleaves.filter fun token => token.kind.isOperand
    rwa [List.filter_eq_self.mpr hall] at hfilter
  rw [hlast]
  exact hsublist.eq_of_length (by simpa using (congrArg List.length hoperands).symm)

end Precedence
