import Precedence.Expr.Render

/-!
Expressions as trees, without regard to where they were read from. Two
expressions are the same tree when they agree after their spans are erased; the
written forms depend on the tree alone, and not on where parentheses stood.
-/

namespace Precedence.Expr

/-- Induction on an expression with the statement at hand for every operand. -/
@[elab_as_elim, induction_eliminator]
theorem induction {motive : Expr → Prop} (leaf : ∀ token, motive (.leaf token))
    (node : ∀ tag children grouped span, (∀ child ∈ children, motive child) →
      motive (.node tag children grouped span)) (expr : Expr) : motive expr := by
  refine @Expr.rec motive (fun exprs => ∀ child ∈ exprs, motive child) leaf ?_ ?_ ?_ expr
  · intro tag children grouped span ih
    exact node tag children grouped span ih
  · simp
  · intro first rest hfirst hrest child hchild
    rcases List.mem_cons.mp hchild with rfl | hmem
    · exact hfirst
    · exact hrest child hmem

mutual

def eraseSpans : Expr → Expr
  | .leaf token => .leaf { token with span := .origin }
  | .node tag children grouped _ => .node tag (eraseSpansOfAll children) grouped .origin

def eraseSpansOfAll : List Expr → List Expr
  | [] => []
  | expr :: rest => expr.eraseSpans :: eraseSpansOfAll rest

end

mutual

/-- The expression with every operator marked as written in parentheses. -/
def groupAll : Expr → Expr
  | .leaf token => .leaf token
  | .node tag children _ span => .node tag (groupAllOf children) true span

def groupAllOf : List Expr → List Expr
  | [] => []
  | expr :: rest => expr.groupAll :: groupAllOf rest

end

mutual

/-- How many operators stand above each other at most. -/
def height : Expr → Nat
  | .leaf _ => 0
  | .node _ children _ _ => 1 + maxHeight children

def maxHeight : List Expr → Nat
  | [] => 0
  | expr :: rest => max expr.height (maxHeight rest)

end

@[simp] theorem eraseSpansOfAll_eq_map (exprs : List Expr) :
    eraseSpansOfAll exprs = exprs.map eraseSpans := by
  induction exprs with
  | nil => rfl
  | cons expr rest ih => rw [eraseSpansOfAll, ih, List.map_cons]

@[simp] theorem groupAllOf_eq_map (exprs : List Expr) :
    groupAllOf exprs = exprs.map groupAll := by
  induction exprs with
  | nil => rfl
  | cons expr rest ih => rw [groupAllOf, ih, List.map_cons]

theorem height_le_maxHeight {exprs : List Expr} {expr : Expr} (h : expr ∈ exprs) :
    expr.height ≤ maxHeight exprs := by
  induction exprs with
  | nil => cases h
  | cons first rest ih =>
      rw [maxHeight]
      rcases List.mem_cons.mp h with rfl | hrest
      · omega
      · have := ih hrest
        omega

theorem sexpOperands_congr {exprs : List Expr} {change : Expr → Expr}
    (h : ∀ expr ∈ exprs, (change expr).sexp = expr.sexp) :
    sexpOperands (exprs.map change) = sexpOperands exprs := by
  induction exprs with
  | nil => rfl
  | cons expr rest ih =>
      rw [List.map_cons, sexpOperands, sexpOperands, h expr (by simp),
        ih fun other hother => h other (by simp [hother])]

theorem infixOperands_congr {exprs : List Expr} {change : Expr → Expr}
    (h : ∀ expr ∈ exprs, (change expr).toInfix = expr.toInfix) :
    infixOperands (exprs.map change) = infixOperands exprs := by
  simp only [infixOperands_eq_map, List.map_map]
  exact List.map_congr_left h

@[simp] theorem sexp_eraseSpans (expr : Expr) : expr.eraseSpans.sexp = expr.sexp := by
  induction expr with
  | leaf token => rfl
  | node tag children grouped span ih =>
      simp only [eraseSpans, sexp, eraseSpansOfAll_eq_map, sexpOperands_congr ih]

@[simp] theorem sexp_groupAll (expr : Expr) : expr.groupAll.sexp = expr.sexp := by
  induction expr with
  | leaf token => rfl
  | node tag children grouped span ih =>
      simp only [groupAll, sexp, groupAllOf_eq_map, sexpOperands_congr ih]

@[simp] theorem toInfix_eraseSpans (expr : Expr) : expr.eraseSpans.toInfix = expr.toInfix := by
  induction expr with
  | leaf token => rfl
  | node tag children grouped span ih =>
      simp only [eraseSpans, toInfix, eraseSpansOfAll_eq_map, infixOperands_congr ih]

@[simp] theorem toInfix_groupAll (expr : Expr) : expr.groupAll.toInfix = expr.toInfix := by
  induction expr with
  | leaf token => rfl
  | node tag children grouped span ih =>
      simp only [groupAll, toInfix, groupAllOf_eq_map, infixOperands_congr ih]

@[simp] theorem isAssignable_eraseSpans (expr : Expr) :
    expr.eraseSpans.isAssignable = expr.isAssignable := by
  cases expr <;> rfl

theorem isAssignable_congr {expr other : Expr} (h : expr.eraseSpans = other.eraseSpans) :
    expr.isAssignable = other.isAssignable := by
  rw [← isAssignable_eraseSpans, h, isAssignable_eraseSpans]

@[simp] theorem isAssignable_groupAll (expr : Expr) :
    expr.groupAll.isAssignable = expr.isAssignable := by
  cases expr <;> rfl

@[simp] theorem isAssignable_group (expr : Expr) :
    expr.group.isAssignable = expr.isAssignable := by
  cases expr <;> rfl

theorem eraseSpans_group (expr : Expr) : expr.group.eraseSpans = expr.eraseSpans.group := by
  cases expr <;> rfl

@[simp] theorem group_group (expr : Expr) : expr.group.group = expr.group := by
  cases expr <;> rfl

theorem children_eraseSpans (expr : Expr) :
    expr.eraseSpans.children = expr.children.map eraseSpans := by
  cases expr with
  | leaf token => rfl
  | node tag operands grouped span => simp [eraseSpans, children]

/-- Whether the expression is a sequence that a further element would join. -/
def isOpenSequence : Expr → Bool
  | .node "," _ false _ => true
  | _ => false

theorem isOpenSequence_node (tag : String) (children : List Expr) (grouped : Bool) (span : Span) :
    (node tag children grouped span).isOpenSequence = (tag = "," && !grouped) := by
  unfold isOpenSequence
  split
  · simp_all
  · cases grouped <;> simp_all

@[simp] theorem isOpenSequence_eraseSpans (expr : Expr) :
    expr.eraseSpans.isOpenSequence = expr.isOpenSequence := by
  cases expr with
  | leaf token => rfl
  | node tag children grouped span => simp only [eraseSpans, isOpenSequence_node]

end Precedence.Expr
