import Precedence.Proofs.Registration
import Precedence.Proofs.Yield

/-!
Operators that do not associate are not chained without parentheses. The bound on
the next operator lives in a single loop, so the argument follows what stands open
at both ends of an operand: an operator that is taken behind it must not meet one
of its own level there. An operator before an operand starts a loop of its own;
it keeps the bound only if it holds its operand at least as tightly.
-/

namespace Precedence

open Registration

namespace Expr

/-- The operators between two operands that stand open at the beginning of an
expression, outermost first. -/
def openAtStart : Expr → List String
  | .node tag [left, _] false _ => tag :: left.openAtStart
  | _ => []

/-- The operators between two operands that stand open at the end of an expression,
outermost first. Those behind an operator with a single operand stand open if it
`passes`. -/
def openAtEnd (passes : String → Bool) : Expr → List String
  | .node tag [_, right] false _ => tag :: right.openAtEnd passes
  | .node tag [inner] false _ => if passes tag then inner.openAtEnd passes else []
  | _ => []

/-- No operator that does not associate has an operator of its own level at the open
end of its left operand, or at the open beginning of its right one. Which operators
leave their operand open at the end depends on the level. -/
inductive Unchained (registrations : List Registration) (passes : Int → String → Bool) :
    Expr → Prop
  | leaf (token : Token) : Unchained registrations passes (.leaf token)
  | node {tag : String} {children : List Expr} {grouped : Bool} {span : Span}
      (hchildren : ∀ child ∈ children, Unchained registrations passes child)
      (hsides : ∀ level left right, finalShape? registrations tag = some ⟨.nonAssoc, level⟩ →
        children = [left, right] →
        ∀ symbol ∈ left.openAtEnd (passes level) ++ right.openAtStart,
          (finalShape? registrations symbol).map Shape.power ≠ some level) :
      Unchained registrations passes (.node tag children grouped span)

theorem openAtStart_group (expr : Expr) : expr.group.openAtStart = [] := by
  cases expr <;> simp [group, openAtStart]

theorem openAtEnd_group (passes : String → Bool) (expr : Expr) :
    expr.group.openAtEnd passes = [] := by
  cases expr <;> simp [group, openAtEnd]

theorem Unchained.group {registrations : List Registration} {passes : Int → String → Bool}
    {expr : Expr} (h : expr.Unchained registrations passes) :
    expr.group.Unchained registrations passes := by
  cases h with
  | leaf token => exact .leaf token
  | node hchildren hsides => exact .node hchildren hsides

end Expr

/-- Whether an operator before its operand holds it at least as tightly as operators
of this level. -/
def OperatorTable.holdsFrom (table : OperatorTable) (level : Int) (symbol : String) : Bool :=
  level ≤ (table.nullOfSymbol symbol).rightPower

def OperatorTable.levelOf (table : OperatorTable) (symbol : String) : Int :=
  (table.leftOfSymbol symbol).leftPower

namespace Parse

/-- What is open at both ends of an operand that was read at `bound`. -/
structure Separated (registrations : List Registration) (table : OperatorTable) (bound : Int)
    (expr : Expr) : Prop where
  unchained : expr.Unchained registrations table.holdsFrom
  /-- Whatever is open at the beginning binds tighter than the bound. -/
  lt_start : ∀ symbol ∈ expr.openAtStart, bound < table.levelOf symbol
  /-- Whatever is open at the end for a level within the bound binds tighter than it. -/
  lt_end : ∀ level ≤ bound, ∀ symbol ∈ expr.openAtEnd (table.holdsFrom level),
    level < table.levelOf symbol

def Reading.Separates (reading : Reading) (registrations : List Registration)
    (table : OperatorTable) : Prop :=
  ∀ {bound : Int} {tokens : List Token} {expr : Expr} {rest : List Token},
    reading bound tokens expr rest → Separated registrations table bound expr

/-- What is open at both ends of the operand so far, in a loop at `bound` where the
next operator stays below `power`. -/
structure SeparatedBelow (registrations : List Registration) (table : OperatorTable)
    (bound power : Int) (expr : Expr) : Prop extends
    Separated registrations table bound expr where
  /-- An operator that does not associate finds none of its level at the end. -/
  ne_end : ∀ symbol level, finalShape? registrations symbol = some ⟨.nonAssoc, level⟩ →
    level < power → ∀ symbol' ∈ expr.openAtEnd (table.holdsFrom level),
      table.levelOf symbol' ≠ level

section Plain

variable {registrations : List Registration} {table : OperatorTable}
  (hbuild : OperatorTable.build registrations = .ok table)
  (hplain : ∀ registration ∈ registrations, registration.Plain)

include hbuild hplain

/-- What a token makes of the operand before it. -/
theorem LeftReads.inversion {reading : Reading} {token : Token} {left expr : Expr}
    {tokens rest : List Token}
    (h : LeftReads table reading (table.left token) token left tokens expr rest) :
    ∃ shape right, finalShape? registrations token.value = some shape ∧
      table.left token = shape.binding ∧ reading shape.binding.rightPower tokens right rest ∧
      expr = .ofOperands token.value [left, right] := by
  rcases OperatorTable.left_of_plain hbuild hplain token with
    ⟨shape, _, hshape, hleft⟩ | hleft | hleft
  · have hrule : (table.left token).rule = .binary := by rw [hleft, Shape.binding_rule]
    cases h with
    | @binary _ right _ hright => exact ⟨shape, right, hshape, hleft, hleft ▸ hright, rfl⟩
    | assignment h | ternary h | comma h | call h | index h | suffixed h => cases hrule.symm.trans h
  all_goals
    have hrule := congrArg Binding.rule hleft
    cases h with
    | binary h | assignment h | ternary h | comma h | call h | index h | suffixed h =>
        cases hrule.symm.trans h

/-- What a token begins. -/
theorem NullReads.inversion {reading : Reading} {token : Token} {expr : Expr}
    {tokens rest : List Token} (h : NullReads reading (table.null token) token tokens expr rest) :
    expr = .leaf token ∨
    (∃ inner power rest', reading power tokens inner rest' ∧ expr = inner.group) ∨
    ∃ inner span, reading (table.nullOfSymbol token.value).rightPower tokens inner rest ∧
      expr = .node token.value [inner] false span := by
  cases h with
  | literal => exact .inl rfl
  | grouping _ hinner => exact .inr (.inl ⟨_, _, _, hinner, rfl⟩)
  | prefixed hrule hinner | prefixUpdate hrule hinner =>
      rcases OperatorTable.null_of_plain hbuild hplain token with hnot | ⟨hkind, _⟩
      · rw [hrule] at hnot
        simp at hnot
      · rw [OperatorTable.null_of_operator hkind] at hinner
        exact .inr (.inr ⟨_, _, hinner, rfl⟩)

theorem levelOf_shape {symbol : String} {shape : Shape}
    (hshape : finalShape? registrations symbol = some shape) :
    table.levelOf symbol = shape.power := by
  rw [OperatorTable.levelOf, OperatorTable.leftOfSymbol_of_shape hbuild hplain hshape,
    Shape.binding_leftPower]

variable {reading : Reading} (hreading : reading.Separates registrations table)

include hreading

/-- What begins an operand leaves nothing open that a loop could chain to. -/
theorem NullReads.separated {token : Token} {expr : Expr} {tokens rest : List Token}
    (h : NullReads reading (table.null token) token tokens expr rest) (bound power : Int) :
    SeparatedBelow registrations table bound power expr := by
  suffices hopen : expr.Unchained registrations table.holdsFrom ∧ expr.openAtStart = [] ∧
      ∀ level, ∀ symbol ∈ expr.openAtEnd (table.holdsFrom level), level < table.levelOf symbol by
    obtain ⟨hunchained, hstart, hend⟩ := hopen
    refine ⟨⟨hunchained, by simp [hstart], fun level _ => hend level⟩, ?_⟩
    intro symbol level _ _ symbol' hsymbol'
    exact Int.ne_of_gt (hend level symbol' hsymbol')
  rcases h.inversion hbuild hplain with
    rfl | ⟨inner, _, _, hinner, rfl⟩ | ⟨inner, span, hinner, rfl⟩
  · exact ⟨.leaf token, rfl, by simp [Expr.openAtEnd]⟩
  · refine ⟨(hreading hinner).unchained.group, inner.openAtStart_group, ?_⟩
    simp [Expr.openAtEnd_group]
  · refine ⟨.node (by simpa using (hreading hinner).unchained) (by simp), rfl, ?_⟩
    intro level symbol hsymbol
    simp only [Expr.openAtEnd] at hsymbol
    split at hsymbol
    · rename_i hholds
      exact (hreading hinner).lt_end level (of_decide_eq_true hholds) symbol hsymbol
    · cases hsymbol

/-- An operator that is taken behind an operand chains with none of its level. -/
theorem LeftReads.separated (huniform : Uniform registrations) {token : Token} {left expr : Expr}
    {tokens rest : List Token} {bound power : Int}
    (hleft : SeparatedBelow registrations table bound power left)
    (hbound : bound < (table.left token).leftPower)
    (hpower : (table.left token).leftPower < power)
    (h : LeftReads table reading (table.left token) token left tokens expr rest) :
    SeparatedBelow registrations table bound (table.left token).nextPower expr := by
  obtain ⟨shape, right, hshape, hbinding, hright, rfl⟩ := h.inversion hbuild hplain
  have hlevel := levelOf_shape hbuild hplain hshape
  have hbounds := Shape.binding_bounds (OperatorTable.shape_sound hbuild hplain hshape).1
  rw [hbinding, Shape.binding_leftPower] at hbound hpower
  rw [hbinding]
  replace hright := hreading hright
  -- Below the level of the operator both it and its right operand bind tighter.
  have hend : ∀ level < shape.power,
      ∀ symbol ∈ (Expr.ofOperands token.value [left, right]).openAtEnd (table.holdsFrom level),
        level < table.levelOf symbol := by
    intro level hlt symbol hsymbol
    rcases List.mem_cons.mp hsymbol with rfl | hmem
    · rwa [hlevel]
    · exact hright.lt_end level (by omega) symbol hmem
  refine ⟨⟨?_, ?_, fun level hle => hend level (by omega)⟩, ?_⟩
  · refine .node (by simp [hleft.unchained, hright.unchained]) ?_
    intro level left' right' hnon hchildren symbol hsymbol hsame
    cases hchildren
    cases hshape.symm.trans hnon
    obtain ⟨shape', hshape', rfl⟩ := Option.map_eq_some_iff.mp hsame
    have hlevel' := levelOf_shape hbuild hplain hshape'
    rcases List.mem_append.mp hsymbol with hmem | hmem
    · exact hleft.ne_end _ _ hnon hpower symbol hmem hlevel'
    · exact Int.ne_of_gt (hright.lt_start symbol hmem) hlevel'
  · intro symbol hsymbol
    rcases List.mem_cons.mp hsymbol with rfl | hmem
    · rwa [hlevel]
    · exact hleft.lt_start symbol hmem
  · intro symbol level hnon hlt
    have hbelow : level < shape.power := by
      by_contra hge
      obtain rfl : level = shape.power := by omega
      -- Operators of one level group alike, so this one does not associate either.
      rw [← huniform _ _ _ _ hnon hshape rfl] at hlt
      exact absurd hlt (Int.lt_irrefl _)
    intro symbol' hsymbol'
    exact Int.ne_of_gt (hend level hbelow symbol' hsymbol')

end Plain

section Runs

variable {registrations : List Registration} {table : OperatorTable}
  (hbuild : OperatorTable.build registrations = .ok table)
  (hplain : ∀ registration ∈ registrations, registration.Plain)
  (huniform : Uniform registrations)

include hbuild hplain huniform

theorem Reaches.separated {reading : Reading} (hreading : reading.Separates registrations table)
    {bound power : Int} {tokens rest : List Token} {expr : Expr}
    (h : Reaches table reading bound tokens power expr rest) :
    SeparatedBelow registrations table bound power expr := by
  induction h with
  | start _ _ hnull => exact hnull.separated hbuild hplain hreading bound _
  | step _ hbound hpower hstep ih =>
      exact hstep.separated hbuild hplain hreading huniform ih hbound hpower

theorem Reads.separates (budget : Nat) : (Reads table budget).Separates registrations table := by
  intro bound tokens expr rest h
  induction h using Reads.run with
  | step ih hreached _ => exact (hreached.separated hbuild hplain huniform ih).toSeparated

end Runs

end Parse

namespace Parser

/-- Operators that do not associate never chain without parentheses. An operator
before an operand that binds looser than they do counts as a parenthesis at the
operand's end: behind it they may be taken again. -/
theorem nonassociative_unchained {registrations : List Registration} {table : OperatorTable}
    (hbuild : OperatorTable.build registrations = .ok table)
    (hplain : ∀ registration ∈ registrations, registration.Plain)
    (huniform : Uniform registrations) {limit : Nat} {source : String} {expr : Expr}
    (hparse : Parser.parse ⟨table, limit⟩ source = .ok expr) :
    expr.Unchained registrations table.holdsFrom := by
  have hinert := OperatorTable.endIsInert_build hbuild
  obtain ⟨tokens, last, _, _, hreads⟩ := (parse_eq_ok_iff hinert).mp hparse
  exact (Parse.Reads.separates hbuild hplain huniform limit hreads).unchained

theorem nonassociative_unchained_sign :
    ∃ table expr, OperatorTable.build comparisons = .ok table ∧
      Parser.parse ⟨table, 8⟩ "- a ^ b + c < (d == - e)" = .ok expr ∧
      expr.sexp = "(< (+ (^ (- a) b) c) (== d (- e)))" ∧
      expr.Unchained comparisons table.holdsFrom := by
  have hbuild : OperatorTable.build comparisons = .ok (comparisons.foldl install .empty) := rfl
  obtain ⟨expr, hparse, hsexp⟩ := @exists_of_sexp ⟨comparisons.foldl install .empty, 8⟩
    "- a ^ b + c < (d == - e)" "(< (+ (^ (- a) b) c) (== d (- e)))" (by decide +kernel)
  exact ⟨_, expr, hbuild, hparse, hsexp,
    nonassociative_unchained hbuild plain_comparisons uniform_comparisons hparse⟩

/-- Behind an operator that binds looser than they do, two comparisons chain. -/
theorem chained_behind_negation :
    ∃ table expr, OperatorTable.build comparisons = .ok table ∧
      (∀ registration ∈ comparisons, registration.Plain) ∧ Uniform comparisons ∧
      Parser.parse ⟨table, 8⟩ "! a < b < c" = .ok expr ∧
      ¬expr.Unchained comparisons fun _ _ => true := by
  let leaf (name : String) (position : Nat) : Expr :=
    .leaf ⟨.identifier, name, .ofLength position 1⟩
  let negated : Expr :=
    .node "!" [.ofOperands "<" [leaf "a" 2, leaf "b" 6]] false ⟨0, 7⟩
  refine ⟨comparisons.foldl install .empty, .ofOperands "<" [negated, leaf "c" 10], rfl,
    plain_comparisons, uniform_comparisons, by decide +kernel, ?_⟩
  intro hunchained
  cases hunchained with
  | node _ hsides => exact hsides 10 negated (leaf "c" 10) rfl rfl "<" (by decide) rfl

end Parser

end Precedence
