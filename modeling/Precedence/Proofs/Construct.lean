import Precedence.Operator.Table
import Precedence.Proofs.Tree

/-!
The constructs that operator tags stand for, and how tightly they hold their
operands in an operator table. An expression agrees with the table when at every
operator the operands hold together more tightly than the operator holds them, so
that no parentheses are missing.
-/

namespace Precedence

/-- A way to write an operator with its operands. -/
inductive Construct where
  | prefixed (symbol : String)
  | suffixed (symbol : String)
  | binary (symbol : String)
  | ternary
  | sequence
  | index
  | call
  deriving DecidableEq

def OperatorTable.nullOfSymbol (table : OperatorTable) (symbol : String) : Binding NullRule :=
  table.null ⟨.operator, symbol, .origin⟩

namespace Construct

def of (tag : String) (arity : Nat) : Construct :=
  match tag with
  | "call" => .call
  | "get" => .index
  | "?" => .ternary
  | "," => .sequence
  | tag =>
      if arity = 1 then
        match tag.toList with
        | 'p' :: 'o' :: 's' :: 't' :: symbol => .suffixed (String.ofList symbol)
        | _ => .prefixed tag
      else .binary tag

@[simp] theorem of_call (arity : Nat) : of "call" arity = .call := rfl

@[simp] theorem of_get (arity : Nat) : of "get" arity = .index := rfl

@[simp] theorem of_question (arity : Nat) : of "?" arity = .ternary := rfl

@[simp] theorem of_comma (arity : Nat) : of "," arity = .sequence := rfl

def tag : Construct → String
  | .prefixed symbol => symbol
  | .suffixed symbol => "post" ++ symbol
  | .binary symbol => symbol
  | .ternary => "?"
  | .sequence => ","
  | .index => "get"
  | .call => "call"

theorem tag_of (tag : String) (arity : Nat) : (of tag arity).tag = tag := by
  unfold of
  split
  · rfl
  · rfl
  · rfl
  · rfl
  · split
    · split
      · rename_i symbol hsymbol
        apply String.toList_injective
        simp [Construct.tag, hsymbol]
      · rfl
    · rfl

theorem tag_eq {tag : String} {arity : Nat} {construct : Construct} (h : of tag arity = construct) :
    construct.tag = tag := by
  rw [← h, tag_of]

def Arity : Construct → Nat → Prop
  | .prefixed _, arity => arity = 1
  | .suffixed _, arity => arity = 1
  | .binary _, arity => arity = 2
  | .ternary, arity => arity = 3
  | .sequence, arity => 2 ≤ arity
  | .index, arity => arity = 2
  | .call, arity => 1 ≤ arity

/-- The symbol that the construct has its binding powers from. -/
def symbol : Construct → String
  | .prefixed symbol => symbol
  | .suffixed symbol => symbol
  | .binary symbol => symbol
  | .ternary => "?"
  | .sequence => ","
  | .index => "["
  | .call => "("

def followsOperand : Construct → Bool
  | .prefixed _ => false
  | _ => true

def endsInOperand : Construct → Bool
  | .suffixed _ | .index | .call => false
  | _ => true

def Registered (table : OperatorTable) : Construct → Prop
  | .prefixed symbol =>
      (table.nullOfSymbol symbol).rule = .prefixed ∨
        (table.nullOfSymbol symbol).rule = .prefixUpdate
  | .suffixed symbol => (table.leftOfSymbol symbol).rule = .suffixed
  | .binary symbol =>
      (table.leftOfSymbol symbol).rule = .binary ∨
        (table.leftOfSymbol symbol).rule = .assignment
  | _ => True

/-- Whether the construct changes its first operand. -/
def Updates (table : OperatorTable) : Construct → Prop
  | .prefixed symbol => (table.nullOfSymbol symbol).rule = .prefixUpdate
  | .binary symbol => (table.leftOfSymbol symbol).rule = .assignment
  | _ => False

def leftPower (table : OperatorTable) (construct : Construct) : Int :=
  (table.leftOfSymbol construct.symbol).leftPower

def rightPower (table : OperatorTable) : Construct → Int
  | .prefixed symbol => (table.nullOfSymbol symbol).rightPower
  | construct => (table.leftOfSymbol construct.symbol).rightPower

theorem rightPower_of_followsOperand {table : OperatorTable} {construct : Construct}
    (h : construct.followsOperand) :
    construct.rightPower table = (table.leftOfSymbol construct.symbol).rightPower := by
  cases construct with
  | prefixed => cases h
  | _ => rfl

/-- The operands with no symbol behind them but that of the next operand. -/
def trailing : Construct → List Expr → List Expr
  | .prefixed _, operands => operands
  | .binary _, operands => operands.tail
  | .sequence, operands => operands.tail
  | .ternary, operands => operands.drop 2
  | _, _ => []

theorem mem_of_mem_trailing {construct : Construct} {operands : List Expr} {operand : Expr}
    (h : operand ∈ construct.trailing operands) : operand ∈ operands := by
  cases construct with
  | prefixed => exact h
  | binary => exact List.mem_of_mem_tail h
  | sequence => exact List.mem_of_mem_tail h
  | ternary => exact List.mem_of_mem_drop h
  | _ => cases h

end Construct

namespace Expr

/-- The operators that stand open at the beginning of an expression, outermost
first. Parentheses and operators before an operand close it. -/
def leftSpine : Expr → List Construct
  | .node tag (first :: rest) false _ =>
      if (Construct.of tag (rest.length + 1)).followsOperand then
        Construct.of tag (rest.length + 1) :: first.leftSpine
      else []
  | _ => []

mutual

/-- The operators that stand open at the end of an expression, outermost first.
Parentheses, brackets and operators behind an operand close it. -/
def rightSpine : Expr → List Construct
  | .node tag children false _ =>
      if (Construct.of tag children.length).endsInOperand then
        Construct.of tag children.length :: rightSpineOfLast children
      else []
  | _ => []

def rightSpineOfLast : List Expr → List Construct
  | [] => []
  | [last] => last.rightSpine
  | _ :: next :: rest => rightSpineOfLast (next :: rest)

end

/-- An operator open at the beginning of a construct is the construct itself or
open at the beginning of its first operand. -/
theorem mem_leftSpine {tag : String} {children : List Expr} {grouped : Bool} {span : Span}
    {construct : Construct} (h : construct ∈ (Expr.node tag children grouped span).leftSpine) :
    ∃ first rest, children = first :: rest ∧ (Construct.of tag children.length).followsOperand ∧
      (construct = Construct.of tag children.length ∨ construct ∈ first.leftSpine) := by
  cases children with
  | nil => cases grouped <;> cases h
  | cons first rest =>
      refine ⟨first, rest, rfl, ?_⟩
      cases grouped with
      | true => cases h
      | false =>
          simp only [leftSpine] at h
          split at h
          · rename_i hfollows
            exact ⟨hfollows, List.mem_cons.mp h⟩
          · cases h

/-- An operator open at the end of a construct is the construct itself or open at
the end of its last operand. -/
theorem mem_rightSpine {tag : String} {children : List Expr} {grouped : Bool} {span : Span}
    {construct : Construct} (h : construct ∈ (Expr.node tag children grouped span).rightSpine) :
    (Construct.of tag children.length).endsInOperand ∧
      (construct = Construct.of tag children.length ∨ construct ∈ rightSpineOfLast children) := by
  cases grouped with
  | true => cases h
  | false =>
      simp only [rightSpine] at h
      split at h
      · rename_i hends
        exact ⟨hends, List.mem_cons.mp h⟩
      · cases h

@[simp] theorem rightSpineOfLast_append (exprs : List Expr) (last : Expr) :
    rightSpineOfLast (exprs ++ [last]) = last.rightSpine := by
  induction exprs with
  | nil => rfl
  | cons first rest ih =>
      cases rest with
      | nil => rfl
      | cons next rest => exact ih

end Expr

/-- What a table demands of an operator and its operands. -/
structure Construct.Holds (table : OperatorTable) (construct : Construct)
    (operands : List Expr) : Prop where
  /-- Operands at the end hold together more tightly than the operator does. -/
  trailing : ∀ operand ∈ construct.trailing operands, ∀ inner ∈ operand.leftSpine,
    construct.rightPower table < inner.leftPower table
  /-- Arguments hold together more tightly than the comma does. -/
  arguments : construct = .call → ∀ argument ∈ operands.tail, ∀ inner ∈ argument.leftSpine,
    (table.leftOfSymbol ",").leftPower < inner.leftPower table
  /-- The operand at the beginning holds together at least as tightly as the
  operator does. -/
  leading : construct.followsOperand → ∀ first ∈ operands.head?, ∀ inner ∈ first.rightSpine,
    construct.leftPower table ≤ inner.rightPower table
  /-- A sequence does not begin with a sequence. -/
  flat : construct = .sequence → ∀ first ∈ operands.head?, ¬first.isOpenSequence
  /-- What is changed can be assigned to. -/
  target : construct.Updates table → ∀ first ∈ operands.head?, first.isAssignable

namespace Expr

/-- The expression is made of operands and of constructs that the table has. -/
inductive WellFormed (table : OperatorTable) : Expr → Prop
  | leaf {token : Token} (hkind : token.kind = .identifier ∨ token.kind = .number) :
      WellFormed table (.leaf token)
  | node {tag : String} {children : List Expr} {grouped : Bool} {span : Span}
      (hregistered : (Construct.of tag children.length).Registered table)
      (harity : (Construct.of tag children.length).Arity children.length)
      (hchildren : ∀ child ∈ children, WellFormed table child) :
      WellFormed table (.node tag children grouped span)

/-- Every operator of the expression meets the demands of the table. -/
inductive Agrees (table : OperatorTable) : Expr → Prop
  | leaf {token : Token} : Agrees table (.leaf token)
  | node {tag : String} {children : List Expr} {grouped : Bool} {span : Span}
      (hholds : (Construct.of tag children.length).Holds table children)
      (hchildren : ∀ child ∈ children, Agrees table child) :
      Agrees table (.node tag children grouped span)

section Node

variable {table : OperatorTable} {tag : String} {children : List Expr} {grouped : Bool}
  {span : Span}

theorem WellFormed.of_node (h : (Expr.node tag children grouped span).WellFormed table) :
    (Construct.of tag children.length).Registered table ∧
      (Construct.of tag children.length).Arity children.length ∧
      ∀ child ∈ children, child.WellFormed table := by
  cases h with
  | node hregistered harity hchildren => exact ⟨hregistered, harity, hchildren⟩

/-- Another element makes a sequence longer. -/
theorem WellFormed.append {right : Expr} {span' : Span}
    (h : (Expr.node "," children grouped span).WellFormed table) (hright : right.WellFormed table) :
    (Expr.node "," (children ++ [right]) grouped span').WellFormed table := by
  obtain ⟨_, harity, hchildren⟩ := h.of_node
  refine .node trivial ?_ ?_
  · rw [Construct.of_comma] at harity ⊢
    simp only [Construct.Arity, List.length_append] at harity ⊢
    omega
  · intro child hchild
    rcases List.mem_append.mp hchild with hchild | hchild
    · exact hchildren child hchild
    · rwa [List.mem_singleton.mp hchild]

theorem Agrees.of_node (h : (Expr.node tag children grouped span).Agrees table) :
    (Construct.of tag children.length).Holds table children ∧
      ∀ child ∈ children, child.Agrees table := by
  cases h with
  | node hholds hchildren => exact ⟨hholds, hchildren⟩

end Node

theorem WellFormed.group {table : OperatorTable} {expr : Expr} (h : expr.WellFormed table) :
    expr.group.WellFormed table := by
  cases h with
  | leaf hkind => exact .leaf hkind
  | node hregistered harity hchildren => exact .node hregistered harity hchildren

theorem Agrees.group {table : OperatorTable} {expr : Expr} (h : expr.Agrees table) :
    expr.group.Agrees table := by
  cases h with
  | leaf => exact .leaf
  | node hholds hchildren => exact .node hholds hchildren

@[simp] theorem leftSpine_group (expr : Expr) : expr.group.leftSpine = [] := by
  cases expr with
  | leaf token => rfl
  | node tag children grouped span => cases children <;> rfl

@[simp] theorem rightSpine_group (expr : Expr) : expr.group.rightSpine = [] := by
  cases expr with
  | leaf token => rfl
  | node tag children grouped span => rfl

end Expr

end Precedence
