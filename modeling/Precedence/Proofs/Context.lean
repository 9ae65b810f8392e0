import Precedence.Proofs.Leaves

/-!
Places in an expression. A context is an expression with a hole in it; what is put
into the hole counts for the operators around it only by its edges: the operators
that stand open at its ends, and whether a further element would join it. So an
operand can be exchanged for anything with the same edges, and an operand in
parentheses has the edges of a leaf.
-/

namespace Precedence

namespace Expr

/-- An expression with a hole in place of one operand. -/
inductive Context where
  | hole
  | node (tag : String) (before : List Expr) (inner : Context) (after : List Expr)
      (grouped : Bool) (span : Span)

namespace Context

def plug : Context → Expr → Expr
  | .hole, expr => expr
  | .node tag before inner after grouped span, expr =>
      .node tag (before ++ inner.plug expr :: after) grouped span

def leavesBefore : Context → List Token
  | .hole => []
  | .node _ before inner _ _ _ => leavesOfAll before ++ inner.leavesBefore

/-- Whether the operator around the hole changes what is put there. -/
def IsTarget (table : OperatorTable) : Context → Prop
  | .hole => False
  | .node tag before inner after _ _ =>
      inner.IsTarget table ∨
        before = [] ∧ inner = .hole ∧ (Construct.of tag (after.length + 1)).Updates table

end Context

/-- A leaf among several expressions is a leaf of one of them. -/
theorem exists_of_leavesOfAll {exprs : List Expr} {token : Token} {before after : List Token}
    (h : leavesOfAll exprs = before ++ token :: after) :
    ∃ front expr back inside behind, exprs = front ++ expr :: back ∧
      expr.leaves = inside ++ token :: behind ∧ leavesOfAll front ++ inside = before := by
  induction exprs generalizing before with
  | nil => simp [leavesOfAll] at h
  | cons first rest ih =>
      rw [leavesOfAll] at h
      rcases List.append_eq_append_iff.mp h with ⟨others, rfl, hrest⟩ | ⟨others, hfirst, hsplit⟩
      · obtain ⟨front, expr, back, inside, behind, rfl, hleaves, rfl⟩ := ih hrest
        exact ⟨first :: front, expr, back, inside, behind, rfl, hleaves, by simp [leavesOfAll]⟩
      · cases others with
        | nil =>
            obtain ⟨front, expr, back, inside, behind, rfl, hleaves, hbefore⟩ :=
              @ih [] hsplit.symm
            refine ⟨first :: front, expr, back, inside, behind, rfl, hleaves, ?_⟩
            simp [leavesOfAll, hbefore, hfirst]
        | cons other others =>
            obtain rfl : token = other := (List.cons.inj hsplit).1
            exact ⟨[], first, rest, before, others, rfl, hfirst, by simp [leavesOfAll]⟩

/-- Every leaf stands in a context. -/
theorem exists_context {expr : Expr} {token : Token} {before after : List Token}
    (h : expr.leaves = before ++ token :: after) :
    ∃ context : Context, context.plug (.leaf token) = expr ∧ context.leavesBefore = before := by
  induction expr generalizing before after with
  | leaf other =>
      obtain ⟨rfl, hbehind⟩ | ⟨others, rfl, hnil⟩ := List.cons_eq_append_iff.mp h
      · cases hbehind
        exact ⟨.hole, rfl, rfl⟩
      · simp at hnil
  | node tag children grouped span ih =>
      obtain ⟨front, child, back, inside, behind, rfl, hleaves, rfl⟩ := exists_of_leavesOfAll h
      obtain ⟨context, rfl, rfl⟩ := ih child (by simp) hleaves
      exact ⟨.node tag front context back grouped span, rfl, rfl⟩

/-- The two expressions stand open to the same operators at either end, and join a
sequence alike. -/
structure SameEdges (expr other : Expr) : Prop where
  left : other.leftSpine = expr.leftSpine
  right : other.rightSpine = expr.rightSpine
  sequence : other.isOpenSequence = expr.isOpenSequence

namespace SameEdges

theorem refl (expr : Expr) : SameEdges expr expr := ⟨rfl, rfl, rfl⟩

/-- An operand in parentheses is as closed as a leaf. -/
theorem group (token : Token) (expr : Expr) : SameEdges (.leaf token) expr.group := by
  refine ⟨leftSpine_group expr, rightSpine_group expr, ?_⟩
  cases expr with
  | leaf => rfl
  | node tag children grouped span => simp [Expr.group, isOpenSequence]

theorem replace {expr other : Expr} (h : SameEdges expr other) (before after : List Expr) :
    List.Forall₂ SameEdges (before ++ expr :: after) (before ++ other :: after) := by
  have hrefl : ∀ exprs : List Expr, List.Forall₂ SameEdges exprs exprs :=
    fun exprs => List.forall₂_same.mpr fun expr _ => refl expr
  exact List.rel_append (hrefl before) (.cons h (hrefl after))

theorem rightSpineOfLast_congr {exprs others : List Expr} (h : List.Forall₂ SameEdges exprs others) :
    rightSpineOfLast others = rightSpineOfLast exprs := by
  induction h with
  | nil => rfl
  | cons hfirst hrest ih =>
      cases hrest with
      | nil => exact hfirst.right
      | cons => exact ih

/-- Operators over operands with the same edges have the same edges. -/
theorem node {exprs others : List Expr} (h : List.Forall₂ SameEdges exprs others) (tag : String)
    (grouped : Bool) (span : Span) :
    SameEdges (.node tag exprs grouped span) (.node tag others grouped span) := by
  refine ⟨?_, ?_, by simp only [isOpenSequence_node]⟩
  · cases h with
    | nil => rfl
    | cons hfirst hrest =>
        cases grouped with
        | true => rfl
        | false => simp only [leftSpine, hrest.length_eq, hfirst.left]
  · cases grouped with
    | true => rfl
    | false => simp only [rightSpine, h.length_eq, rightSpineOfLast_congr h]

theorem plug {expr other : Expr} (h : SameEdges expr other) (context : Context) :
    SameEdges (context.plug expr) (context.plug other) := by
  induction context with
  | hole => exact h
  | node tag before inner after grouped span ih => exact node (ih.replace before after) _ _ _

end SameEdges

end Expr

theorem Construct.forall₂_trailing {relation : Expr → Expr → Prop} {operands others : List Expr}
    (construct : Construct) (h : List.Forall₂ relation operands others) :
    List.Forall₂ relation (construct.trailing operands) (construct.trailing others) := by
  have hdrop : ∀ count, List.Forall₂ relation (operands.drop count) (others.drop count) :=
    fun count => List.forall₂_drop count h
  cases construct with
  | prefixed => exact h
  | binary => simpa [trailing] using hdrop 1
  | sequence => simpa [trailing] using hdrop 1
  | ternary => exact hdrop 2
  | _ => exact .nil

/-- The demands of a table on the operands of an operator, but for the one on what
is changed, are on their edges. -/
theorem Construct.Holds.congr {table : OperatorTable} {construct : Construct}
    {operands others : List Expr} (h : construct.Holds table operands)
    (hedges : List.Forall₂ Expr.SameEdges operands others)
    (htarget : construct.Updates table → ∀ first ∈ others.head?, first.isAssignable) :
    construct.Holds table others := by
  have hhead : ∀ other ∈ others.head?, ∃ operand ∈ operands.head?, Expr.SameEdges operand other := by
    cases hedges with
    | nil => simp
    | cons hfirst _ => simpa using hfirst
  refine ⟨?_, ?_, ?_, ?_, htarget⟩
  · intro other hother
    obtain ⟨operand, hoperand, hsame⟩ :=
      exists_related (construct.forall₂_trailing hedges) hother
    rw [hsame.left]
    exact h.trailing operand hoperand
  · intro hcall other hother
    have htail : List.Forall₂ Expr.SameEdges operands.tail others.tail := by
      simpa using List.forall₂_drop 1 hedges
    obtain ⟨operand, hoperand, hsame⟩ := exists_related htail hother
    rw [hsame.left]
    exact h.arguments hcall operand hoperand
  · intro hfollows other hother
    obtain ⟨operand, hoperand, hsame⟩ := hhead other hother
    rw [hsame.right]
    exact h.leading hfollows operand hoperand
  · intro hsequence other hother
    obtain ⟨operand, hoperand, hsame⟩ := hhead other hother
    rw [hsame.sequence]
    exact h.flat hsequence operand hoperand

namespace Expr

variable {table : OperatorTable} {expr other : Expr}

theorem WellFormed.plug {context : Context} (h : (context.plug expr).WellFormed table)
    (hother : other.WellFormed table) : (context.plug other).WellFormed table := by
  induction context with
  | hole => exact hother
  | node tag before inner after grouped span ih =>
      obtain ⟨hregistered, harity, hchildren⟩ := h.of_node
      simp only [List.length_append, List.length_cons] at hregistered harity
      refine .node (by simpa using hregistered) (by simpa using harity) ?_
      intro child hchild
      simp only [List.mem_append, List.mem_cons] at hchild hchildren
      rcases hchild with hchild | rfl | hchild
      · exact hchildren child (.inl hchild)
      · exact ih (hchildren _ (.inr (.inl rfl)))
      · exact hchildren child (.inr (.inr hchild))

/-- An expression still agrees with the table when an operand is exchanged for one
with the same edges, which has to be assignable where an operator changes it. -/
theorem Agrees.plug {context : Context} (h : (context.plug expr).Agrees table)
    (hother : other.Agrees table) (hedges : SameEdges expr other)
    (htarget : context.IsTarget table → other.isAssignable) : (context.plug other).Agrees table := by
  induction context with
  | hole => exact hother
  | node tag before inner after grouped span ih =>
      obtain ⟨hholds, hchildren⟩ := h.of_node
      have hlength : (before ++ inner.plug other :: after).length =
          (before ++ inner.plug expr :: after).length := by
        simp
      refine .node ?_ ?_
      · rw [hlength]
        refine hholds.congr ((hedges.plug inner).replace before after) ?_
        intro hupdates first hfirst
        cases before with
        | cons => exact hholds.target hupdates first hfirst
        | nil =>
            obtain rfl : inner.plug other = first := Option.some.inj hfirst
            cases inner with
            | hole => exact htarget (.inr ⟨rfl, rfl, hupdates⟩)
            | node =>
                have hassignable := hholds.target hupdates _ rfl
                exact hassignable
      · intro child hchild
        simp only [List.mem_append, List.mem_cons] at hchild hchildren
        rcases hchild with hchild | rfl | hchild
        · exact hchildren child (.inl hchild)
        · exact ih (hchildren _ (.inr (.inl rfl))) fun hinner => htarget (.inl hinner)
        · exact hchildren child (.inr (.inr hchild))

end Expr

end Precedence
