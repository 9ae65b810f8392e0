import Precedence.Parse

/-!
What a parse reads when it succeeds, as a relation on token lists. A parser for
operands is described by `reading bound tokens expr rest`: from `tokens` it reads
`expr` at `bound` and leaves `rest`. The rules are described relative to such a
reading, so the relation follows the rules one by one and leaves out what only
diagnostics and the log depend on: the bracket around the cursor, and the events.
-/

namespace Precedence.Parse

abbrev Reading := Int → List Token → Expr → List Token → Prop

inductive NullReads (reading : Reading) (binding : Binding NullRule) (token : Token) :
    List Token → Expr → List Token → Prop
  | literal {tokens : List Token} (hrule : binding.rule = .literal) :
      NullReads reading binding token tokens (.leaf token) tokens
  | grouping {tokens rest : List Token} {inner : Expr} {close next : Token}
      (hrule : binding.rule = .grouping)
      (hinner : reading binding.rightPower tokens inner (close :: next :: rest))
      (hclose : close.is ")") :
      NullReads reading binding token tokens inner.group (next :: rest)
  | prefixed {tokens rest : List Token} {inner : Expr} (hrule : binding.rule = .prefixed)
      (hinner : reading binding.rightPower tokens inner rest) :
      NullReads reading binding token tokens
        (.node token.value [inner] false (token.span.join inner.span)) rest
  | prefixUpdate {tokens rest : List Token} {inner : Expr}
      (hrule : binding.rule = .prefixUpdate)
      (hinner : reading binding.rightPower tokens inner rest)
      (htarget : inner.isAssignable) :
      NullReads reading binding token tokens
        (.node token.value [inner] false (token.span.join inner.span)) rest

inductive ArgumentsRead (reading : Reading) (bound : Int) :
    List Token → List Expr → List Token → Prop
  | done {token : Token} {rest : List Token} (hclose : token.is ")") :
      ArgumentsRead reading bound (token :: rest) [] (token :: rest)
  | last {token after : Token} {tokens rest : List Token} {first : Expr}
      (hopen : ¬token.is ")") (hend : ¬token.isEnd)
      (hfirst : reading bound (token :: tokens) first (after :: rest))
      (hafter : ¬after.is ",") :
      ArgumentsRead reading bound (token :: tokens) [first] (after :: rest)
  | more {token separator next : Token} {tokens between rest : List Token}
      {first : Expr} {others : List Expr} (hopen : ¬token.is ")") (hend : ¬token.isEnd)
      (hfirst : reading bound (token :: tokens) first (separator :: next :: between))
      (hseparator : separator.is ",")
      (hothers : ArgumentsRead reading bound (next :: between) others rest) :
      ArgumentsRead reading bound (token :: tokens) (first :: others) rest

inductive LeftReads (table : OperatorTable) (reading : Reading) (binding : Binding LeftRule)
    (token : Token) (left : Expr) : List Token → Expr → List Token → Prop
  | binary {tokens rest : List Token} {right : Expr} (hrule : binding.rule = .binary)
      (hright : reading binding.rightPower tokens right rest) :
      LeftReads table reading binding token left tokens
        (.ofOperands token.value [left, right]) rest
  | assignment {tokens rest : List Token} {right : Expr} (hrule : binding.rule = .assignment)
      (htarget : left.isAssignable)
      (hright : reading binding.rightPower tokens right rest) :
      LeftReads table reading binding token left tokens
        (.ofOperands token.value [left, right]) rest
  | ternary {tokens between rest : List Token} {positive negative : Expr} {colon next : Token}
      (hrule : binding.rule = .ternary)
      (hpositive : reading minPower tokens positive (colon :: next :: between))
      (hcolon : colon.is ":")
      (hnegative : reading binding.rightPower (next :: between) negative rest) :
      LeftReads table reading binding token left tokens
        (.ofOperands "?" [left, positive, negative]) rest
  | comma {tokens rest : List Token} {right : Expr} (hrule : binding.rule = .comma)
      (hright : reading binding.rightPower tokens right rest) :
      LeftReads table reading binding token left tokens (sequence left right) rest
  | call {tokens rest : List Token} {values : List Expr} {close next : Token}
      (hrule : binding.rule = .call)
      (hvalues : ArgumentsRead reading (Delimiter.elementBound table (some .arguments)) tokens
        values (close :: next :: rest))
      (hclose : close.is ")") :
      LeftReads table reading binding token left tokens
        (.node "call" (left :: values) false (left.span.join close.span)) (next :: rest)
  | index {tokens rest : List Token} {place : Expr} {close next : Token}
      (hrule : binding.rule = .index)
      (hplace : reading minPower tokens place (close :: next :: rest))
      (hclose : close.is "]") :
      LeftReads table reading binding token left tokens
        (.node "get" [left, place] false (left.span.join close.span)) (next :: rest)
  | suffixed {tokens : List Token} (hrule : binding.rule = .suffixed) :
      LeftReads table reading binding token left tokens (suffixed token left) tokens

/-- The states of the loop that reads an operand from `tokens` at `bound`: the
power that the next operator must stay below, the operand so far, and the tokens
left. -/
inductive Reaches (table : OperatorTable) (reading : Reading) (bound : Int)
    (tokens : List Token) : Int → Expr → List Token → Prop
  | start {token next : Token} {between rest : List Token} {expr : Expr}
      (htokens : tokens = token :: next :: between) (hend : ¬token.isEnd)
      (hnull : NullReads reading (table.null token) token (next :: between) expr rest) :
      Reaches table reading bound tokens (table.null token).nextPower expr rest
  | step {power : Int} {left expr : Expr} {token next : Token} {between rest : List Token}
      (hleft : Reaches table reading bound tokens power left (token :: next :: between))
      (hbound : bound < (table.left token).leftPower)
      (hpower : (table.left token).leftPower < power)
      (hstep : LeftReads table reading (table.left token) token left (next :: between) expr rest) :
      Reaches table reading bound tokens (table.left token).nextPower expr rest

section Loop

variable {table : OperatorTable} {reading : Reading} {bound : Int} {token : Token}
  {behind rest : List Token} {expr : Expr}

/-- The loop starts at a token that is not the last one. -/
theorem Reaches.of_null (hbehind : behind ≠ []) (hend : ¬token.isEnd)
    (hnull : NullReads reading (table.null token) token behind expr rest) :
    Reaches table reading bound (token :: behind) (table.null token).nextPower expr rest := by
  obtain ⟨next, between, rfl⟩ := List.exists_cons_of_ne_nil hbehind
  exact .start rfl hend hnull

/-- The loop goes on at an operator that is not the last token. -/
theorem Reaches.of_left {tokens : List Token} {power : Int} {left : Expr} (hbehind : behind ≠ [])
    (hleft : Reaches table reading bound tokens power left (token :: behind))
    (hbound : bound < (table.left token).leftPower)
    (hpower : (table.left token).leftPower < power)
    (hstep : LeftReads table reading (table.left token) token left behind expr rest) :
    Reaches table reading bound tokens (table.left token).nextPower expr rest := by
  obtain ⟨next, between, rfl⟩ := List.exists_cons_of_ne_nil hbehind
  exact .step hleft hbound hpower hstep

end Loop

def Stops (table : OperatorTable) (bound power : Int) (rest : List Token) : Prop :=
  ∀ token ∈ rest.head?,
    ¬(bound < (table.left token).leftPower ∧ (table.left token).leftPower < power)

/-- What `expression` reads with operands nested at most `budget` deep. -/
def Reads (table : OperatorTable) : (budget : Nat) → Reading
  | 0 => fun _ _ _ _ => False
  | budget + 1 => fun bound tokens expr rest =>
      ∃ power, Reaches table (Reads table budget) bound tokens power expr rest ∧
        Stops table bound power rest

/-- What the loop keeps, for operands that keep it, holds of all that is read: the
induction is on how deep operands nest. -/
@[elab_as_elim]
theorem Reads.run {table : OperatorTable}
    {motive : ∀ (budget : Nat) (bound : Int) (tokens : List Token) (expr : Expr)
      (rest : List Token), Reads table budget bound tokens expr rest → Prop}
    (step : ∀ {budget : Nat} {bound power : Int} {tokens rest : List Token} {expr : Expr}
      (_ : ∀ {bound tokens expr rest} h, motive budget bound tokens expr rest h)
      (hreached : Reaches table (Reads table budget) bound tokens power expr rest)
      (hstops : Stops table bound power rest),
      motive (budget + 1) bound tokens expr rest ⟨power, hreached, hstops⟩)
    {budget : Nat} {bound : Int} {tokens : List Token} {expr : Expr} {rest : List Token}
    (h : Reads table budget bound tokens expr rest) :
    motive budget bound tokens expr rest h := by
  induction budget generalizing bound tokens expr rest with
  | zero => exact h.elim
  | succ budget ih =>
      obtain ⟨power, hreached, hstops⟩ := h
      exact step ih hreached hstops

def Reading.Consumes (reading : Reading) : Prop :=
  ∀ {bound : Int} {tokens : List Token} {expr : Expr} {rest : List Token},
    reading bound tokens expr rest → rest <:+ tokens

section Consumption

variable {reading : Reading} (hreading : reading.Consumes)

include hreading

theorem NullReads.suffix {binding : Binding NullRule} {token : Token} {tokens rest : List Token}
    {expr : Expr} (h : NullReads reading binding token tokens expr rest) : rest <:+ tokens := by
  cases h with
  | literal => exact List.suffix_rfl
  | grouping _ hinner _ => exact (List.suffix_cons _ _).trans (hreading hinner)
  | prefixed _ hinner => exact hreading hinner
  | prefixUpdate _ hinner _ => exact hreading hinner

theorem ArgumentsRead.suffix {bound : Int} {tokens rest : List Token} {values : List Expr}
    (h : ArgumentsRead reading bound tokens values rest) : rest <:+ tokens := by
  induction h with
  | done => exact List.suffix_rfl
  | last _ _ hfirst _ => exact hreading hfirst
  | more _ _ hfirst _ _ ih =>
      exact ih.trans ((List.suffix_cons _ _).trans (hreading hfirst))

theorem LeftReads.suffix {table : OperatorTable} {binding : Binding LeftRule} {token : Token}
    {left expr : Expr} {tokens rest : List Token}
    (h : LeftReads table reading binding token left tokens expr rest) : rest <:+ tokens := by
  cases h with
  | binary _ hright => exact hreading hright
  | assignment _ _ hright => exact hreading hright
  | ternary _ hpositive _ hnegative =>
      exact (hreading hnegative).trans ((List.suffix_cons _ _).trans (hreading hpositive))
  | comma _ hright => exact hreading hright
  | call _ hvalues _ => exact (List.suffix_cons _ _).trans (hvalues.suffix hreading)
  | index _ hplace _ => exact (List.suffix_cons _ _).trans (hreading hplace)
  | suffixed => exact List.suffix_rfl

theorem Reaches.suffix {table : OperatorTable} {bound power : Int} {tokens rest : List Token}
    {expr : Expr} (h : Reaches table reading bound tokens power expr rest) : rest <:+ tokens := by
  induction h with
  | start htokens _ hnull =>
      rw [htokens]
      exact (hnull.suffix hreading).trans (List.suffix_cons _ _)
  | step _ _ _ hstep ih =>
      exact (hstep.suffix hreading).trans ((List.suffix_cons _ _).trans ih)

end Consumption

theorem Reads.consumes (table : OperatorTable) (budget : Nat) :
    (Reads table budget).Consumes := by
  intro bound tokens expr rest h
  induction h using Reads.run with
  | step ih hreached _ => exact hreached.suffix ih

end Precedence.Parse
