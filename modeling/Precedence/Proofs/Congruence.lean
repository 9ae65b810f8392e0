import Precedence.Parse.Rules

/-!
Two parses that differ in how they read operands alone. A relation between computations
that the steps of a parse respect holds between the rules over two parsers for operands
if it holds between these.
-/

namespace Precedence

def Cause.isTooDeep : Cause → Bool
  | .tooDeep _ => true
  | _ => false

namespace Parse

theorem not_isTooDeep_misplaced {table : OperatorTable} {token : Token} {other : Diagnostic}
    (h : ¬other.cause.isTooDeep) : ¬((table.misplaced? token).getD other).cause.isTooDeep := by
  unfold OperatorTable.misplaced?
  split
  · simp [Cause.isTooDeep]
  · exact h

/-- A relation that every step of a rule respects. Rules never fail for the depth of
operands, so nothing is asked about that diagnostic. -/
structure Congruence (related : ∀ {α : Type}, Parse α → Parse α → Prop) : Prop where
  pure : ∀ {α : Type} (a : α), related (pure a) (pure a)
  throw : ∀ {α : Type} {diagnostic : Diagnostic}, ¬diagnostic.cause.isTooDeep →
    related (throw diagnostic : Parse α) (throw diagnostic)
  bind : ∀ {α β : Type} {m m' : Parse α} {next next' : α → Parse β}, related m m' →
    (∀ a, related (next a) (next' a)) → related (m >>= next) (m' >>= next')
  current : related current current
  advance : related advance advance

def OperandsRelated (related : ∀ {α : Type}, Parse α → Parse α → Prop)
    (operand operand' : Operand) : Prop :=
  ∀ open? bound, related (operand open? bound) (operand' open? bound)

namespace Congruence

variable {related : ∀ {α : Type}, Parse α → Parse α → Prop} (hsteps : Congruence related)
  {operand operand' : Operand}

include hsteps

theorem expectClosing (table : OperatorTable) (delimiter : Delimiter) :
    related (expectClosing table delimiter) (expectClosing table delimiter) := by
  apply hsteps.bind hsteps.current
  intro token
  split
  · exact hsteps.advance
  · exact hsteps.throw (not_isTooDeep_misplaced (by simp [Delimiter.unmatched, Cause.isTooDeep]))

theorem ensureAssignable (target : Expr) :
    related (ensureAssignable target) (ensureAssignable target) := by
  unfold Parse.ensureAssignable
  split
  · exact hsteps.pure ()
  · exact hsteps.throw (by simp [Cause.isTooDeep])

theorem applyNull (h : OperandsRelated related operand operand') (table : OperatorTable)
    (open? : Option Delimiter) (binding : Binding NullRule) (token : Token) :
    related (applyNull table operand open? binding token)
      (applyNull table operand' open? binding token) := by
  unfold Parse.applyNull
  split
  case h_1 => exact hsteps.throw (by simp [Cause.isTooDeep])
  case h_2 => exact hsteps.throw (by simp [Cause.isTooDeep])
  case h_3 =>
    apply hsteps.throw
    unfold Delimiter.missingOperand
    split <;> simp [Delimiter.unmatched, Cause.isTooDeep]
  case h_4 => exact hsteps.pure _
  case h_5 =>
    apply hsteps.bind (h _ _)
    intro inner
    exact hsteps.bind (hsteps.expectClosing table .group) fun _ => hsteps.pure _
  case h_6 => exact hsteps.bind (h _ _) fun inner => hsteps.pure _
  case h_7 =>
    apply hsteps.bind (h _ _)
    intro inner
    exact hsteps.bind (hsteps.ensureAssignable inner) fun _ => hsteps.pure _

theorem arguments (h : OperandsRelated related operand operand') (bound : Int) (rounds : Nat) :
    related (arguments operand bound rounds) (arguments operand' bound rounds) := by
  induction rounds with
  | zero => exact hsteps.pure []
  | succ rounds ih =>
      apply hsteps.bind hsteps.current
      intro token
      split
      · exact hsteps.pure []
      · split
        · exact hsteps.throw (by simp [Delimiter.unmatched, Cause.isTooDeep])
        · apply hsteps.bind (h _ _)
          intro first
          apply hsteps.bind hsteps.current
          intro separator
          split
          · apply hsteps.bind hsteps.advance
            intro _
            exact hsteps.bind ih fun rest => hsteps.pure _
          · exact hsteps.pure _

theorem ternary (h : OperandsRelated related operand operand') (table : OperatorTable)
    (open? : Option Delimiter) (condition : Expr) (bound : Int) :
    related (ternary table operand open? condition bound)
      (ternary table operand' open? condition bound) := by
  apply hsteps.bind (h _ _)
  intro positive
  apply hsteps.bind hsteps.current
  intro token
  split
  · apply hsteps.bind hsteps.advance
    intro _
    exact hsteps.bind (h _ _) fun negative => hsteps.pure _
  · exact hsteps.throw (not_isTooDeep_misplaced (by simp [Cause.isTooDeep]))

theorem applyLeft (h : OperandsRelated related operand operand') (table : OperatorTable)
    (steps : Nat) (open? : Option Delimiter) (binding : Binding LeftRule) (token : Token)
    (left : Expr) :
    related (applyLeft table steps operand open? binding token left)
      (applyLeft table steps operand' open? binding token left) := by
  have hbinary : related (binary operand open? token left binding.rightPower)
      (binary operand' open? token left binding.rightPower) :=
    hsteps.bind (h _ _) fun right => hsteps.pure _
  unfold Parse.applyLeft
  split
  case h_1 => exact hsteps.throw (by simp [Cause.isTooDeep])
  case h_2 => exact hsteps.throw (by simp [Cause.isTooDeep])
  case h_3 => exact hbinary
  case h_4 => exact hsteps.bind (hsteps.ensureAssignable left) fun _ => hbinary
  case h_5 => exact hsteps.ternary h table open? left _
  case h_6 => exact hsteps.bind (h _ _) fun right => hsteps.pure _
  case h_7 =>
    apply hsteps.bind (hsteps.arguments h _ steps)
    intro values
    exact hsteps.bind (hsteps.expectClosing table .arguments) fun _ => hsteps.pure _
  case h_8 =>
    apply hsteps.bind (h _ _)
    intro place
    exact hsteps.bind (hsteps.expectClosing table .index) fun _ => hsteps.pure _
  case h_9 => exact hsteps.pure _

end Congruence

end Parse

end Precedence
