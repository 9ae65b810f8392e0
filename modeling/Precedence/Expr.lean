import Precedence.Token

/-!
Expression trees. A leaf is an identifier or number; any other expression is an
operator tag over its operands in source order.
-/

namespace Precedence

/-- An expression. The tag is an operator symbol, or `call`, `get` or `post`
followed by a symbol; `grouped` records that the expression stood in parentheses
of its own. -/
inductive Expr where
  | leaf (token : Token)
  | node (tag : String) (children : List Expr) (grouped : Bool) (span : Span)

namespace Expr

mutual

def decEq : (a b : Expr) → Decidable (a = b)
  | .leaf s, .leaf t => if h : s = t then isTrue (by rw [h]) else isFalse (by simp [h])
  | .leaf _, .node _ _ _ _ => isFalse (by simp)
  | .node _ _ _ _, .leaf _ => isFalse (by simp)
  | .node tag children grouped span, .node tag' children' grouped' span' =>
      if h : tag = tag' ∧ grouped = grouped' ∧ span = span' then
        match decEqList children children' with
        | isTrue hchildren => isTrue (by rw [h.1, h.2.1, h.2.2, hchildren])
        | isFalse hchildren => isFalse (by simp [hchildren])
      else isFalse (by simp only [Expr.node.injEq]; exact fun e => h ⟨e.1, e.2.2.1, e.2.2.2⟩)

def decEqList : (a b : List Expr) → Decidable (a = b)
  | [], [] => isTrue rfl
  | [], _ :: _ => isFalse (by simp)
  | _ :: _, [] => isFalse (by simp)
  | a :: as, b :: bs =>
      match decEq a b, decEqList as bs with
      | isTrue ha, isTrue has => isTrue (by rw [ha, has])
      | isFalse ha, _ => isFalse (by simp [ha])
      | _, isFalse has => isFalse (by simp [has])

end

instance : DecidableEq Expr := decEq

def span : Expr → Span
  | .leaf token => token.span
  | .node _ _ _ span => span

def tag? : Expr → Option String
  | .leaf _ => none
  | .node tag _ _ _ => some tag

def children : Expr → List Expr
  | .leaf _ => []
  | .node _ children _ _ => children

/-- Whether the expression was written in parentheses. A leaf does not tell. -/
def isGrouped : Expr → Bool
  | .leaf _ => false
  | .node _ _ grouped _ => grouped

def group : Expr → Expr
  | .leaf token => .leaf token
  | .node tag children _ span => .node tag children true span

def isAssignable : Expr → Bool
  | .leaf token => token.kind = .identifier
  | .node tag _ _ _ => tag = "get"

def spanOf (exprs : List Expr) : Span :=
  match exprs.head?, exprs.getLast? with
  | some first, some last => first.span.join last.span
  | _, _ => .origin

/-- An operator over operands that span it, not written in parentheses. -/
def ofOperands (tag : String) (children : List Expr) : Expr :=
  .node tag children false (spanOf children)

end Expr

end Precedence
