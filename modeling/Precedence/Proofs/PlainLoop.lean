import Precedence.Proofs.Agreement
import Precedence.Proofs.Congruence

/-!
In the C grammar the power that an operator demands of the next one decides nothing. The
loop that compares with the bound alone takes the same steps: wherever the loop stands,
the next token holds what is before it less tightly than the operator taken last allows.
-/

namespace Precedence

namespace Parse

/-- Extends `left` while the current token binds tighter than `bound`, whatever operator
was taken last. At most `rounds` operators are taken. -/
def extendPlain (table : OperatorTable) (steps : Nat) (operand : Operand)
    (open? : Option Delimiter) (bound : Int) : (rounds : Nat) → (left : Expr) → Parse Expr
  | 0, left => return left
  | rounds + 1, left => do
      let binding := table.left (← current)
      if bound < binding.leftPower then
        let token ← advance
        record (.left token binding)
        let left ← applyLeft table steps operand open? binding token left
        extendPlain table steps operand open? bound rounds left
      else return left

def expressionPlain (table : OperatorTable) (limit steps : Nat) : (budget : Nat) → Operand
  | 0, _, _ => failHere (.tooDeep limit)
  | budget + 1, open?, bound => do
      let first ← current
      if first.isEnd then failHere (.unexpectedToken first.value)
      else
        let token ← advance
        let binding := table.null token
        record (.null token binding)
        let left ← applyNull table (expressionPlain table limit steps budget) open? binding token
        extendPlain table steps (expressionPlain table limit steps budget) open? bound steps left

inductive Matched {α : Type} (steps : Nat) :
    EStateM.Result Diagnostic Cursor α → EStateM.Result Diagnostic Cursor α → Prop
  | done {a : α} {cursor : Cursor} (hwithin : cursor.Within steps) :
      Matched steps (.ok a cursor) (.ok a cursor)
  | failed {diagnostic : Diagnostic} {cursor : Cursor} :
      Matched steps (.error diagnostic cursor) (.error diagnostic cursor)

def Matches {α : Type} (steps : Nat) (m m' : Parse α) : Prop :=
  ∀ ⦃cursor : Cursor⦄, cursor.Within steps → Matched steps (m.run cursor) (m'.run cursor)

theorem Matched.run_eq {α : Type} {steps : Nat} {result result' : EStateM.Result Diagnostic Cursor α}
    (h : Matched steps result result') : result = result' := by
  cases h <;> rfl

section Steps

variable {α β : Type} {steps : Nat}

theorem Matches.pure (a : α) : Matches steps (pure a) (pure a) :=
  fun _ hwithin => .done hwithin

theorem Matches.bind {m m' : Parse α} {next next' : α → Parse β} (h : Matches steps m m')
    (hnext : ∀ a, Matches steps (next a) (next' a)) : Matches steps (m >>= next) (m' >>= next') := by
  intro cursor hwithin
  have hmatched := h hwithin
  rw [EStateM.run_bind, EStateM.run_bind]
  generalize m.run cursor = result at hmatched
  generalize m'.run cursor = result' at hmatched
  cases hmatched with
  | done hwithin => exact hnext _ hwithin
  | failed => exact .failed

theorem Matches.advance : Matches steps advance advance := by
  intro cursor hwithin
  by_cases hend : cursor.current.isEnd
  · rw [Cursor.run_advance_of_end hwithin.isSealed hend]
    exact .done hwithin
  · cases hrun : Parse.advance.run cursor with
    | error => exact .failed
    | ok token between =>
        obtain ⟨_, _, hbetween⟩ := advance_sound hwithin hend hrun
        exact .done (hbetween.mono (Nat.sub_le steps 1))

theorem Matches.congruence : Congruence (Matches steps) where
  pure := .pure
  throw _ := fun _ _ => .failed
  bind := .bind
  current := fun _ hwithin => .done hwithin
  advance := .advance

end Steps

section Loop

variable {operand operand' : Operand} {steps budget : Nat}

/-- Wherever the loop stands, its two tests on the next token come to the same. -/
theorem Reaches.lt_power {bound power : Int} {tokens : List Token} {left : Expr} {cursor : Cursor}
    (h : Reaches cTable (Reads cTable budget) bound tokens power left cursor.tokens) :
    (cTable.left cursor.current).leftPower < power :=
  (h.fits (Reads.yields budget) (Reads.fits budget)).2 cursor.current rfl

theorem matched_extend (himp : Implements operand (Reads cTable budget) steps)
    (hoperand : OperandsRelated (Matches steps) operand operand') (open? : Option Delimiter)
    {bound power : Int} {tokens : List Token} {left : Expr} {rounds count : Nat} {cursor : Cursor}
    (hrounds : count ≤ rounds) (hsteps : count ≤ steps) (hwithin : cursor.Within count)
    (hreached : Reaches cTable (Reads cTable budget) bound tokens power left cursor.tokens) :
    Matched steps ((extend cTable steps operand open? bound rounds power left).run cursor)
      ((extendPlain cTable steps operand' open? bound rounds left).run cursor) := by
  induction rounds generalizing cursor count power left with
  | zero =>
      have hpos := hwithin.pos
      omega
  | succ rounds ih =>
      have hpower := hreached.lt_power
      simp only [extend, extendPlain, EStateM.run_bind, run_current]
      by_cases hbound : bound < (cTable.left cursor.current).leftPower
      · rw [if_pos ⟨hbound, hpower⟩, if_pos hbound, EStateM.run_bind, EStateM.run_bind]
        cases hadvance : advance.run cursor with
        | error => exact .failed
        | ok token between =>
            obtain rfl : token = cursor.current := advance_token hadvance
            by_cases hend : cursor.current.isEnd
            · -- The end of the input has no rule to go on with.
              rw [CTable.left_end hend]
              exact .failed
            · obtain ⟨_, htokens, hbetween⟩ := advance_sound hwithin hend hadvance
              have hrecord : (record (.left cursor.current (cTable.left cursor.current))).run
                  between = .ok () { between with log := _ :: between.log } := rfl
              obtain ⟨hbehindTokens, hbehind⟩ := record_keeps hbetween hrecord
              have hstep := Matches.congruence.applyLeft hoperand cTable steps open?
                (cTable.left cursor.current) cursor.current left (hbehind.mono (by omega))
              simp only [EStateM.run_bind, hrecord]
              generalize hnext : (applyLeft cTable steps operand _ _ _ _).run _ = result at hstep ⊢
              generalize (applyLeft cTable steps operand' _ _ _ _).run _ = result' at hstep ⊢
              cases hstep with
              | failed => exact .failed
              | done _ =>
                  obtain ⟨hleft, hafter⟩ := applyLeft_sound himp (by omega) hbehind hnext
                  rw [htokens, ← hbehindTokens] at hreached
                  exact ih (by omega) (by omega) hafter (.step hreached hbound hpower hleft)
      · rw [if_neg fun hbinds => hbound hbinds.1, if_neg hbound]
        exact .done (hwithin.mono hsteps)

/-- Reading an operand takes the same steps with either loop. -/
theorem expression_matches (limit steps budget : Nat) :
    OperandsRelated (Matches steps) (expression cTable limit steps budget)
      (expressionPlain cTable limit steps budget) := by
  induction budget with
  | zero =>
      intro open? bound cursor hwithin
      exact .failed
  | succ budget ih =>
      intro open? bound cursor hwithin
      have himp := expression_implements CTable.endIsInert limit steps budget
      simp only [expression, expressionPlain, EStateM.run_bind, run_current]
      by_cases hend : cursor.current.isEnd
      · rw [if_pos hend, if_pos hend]
        exact .failed
      · rw [if_neg hend, if_neg hend, EStateM.run_bind, EStateM.run_bind]
        cases hadvance : advance.run cursor with
        | error => exact .failed
        | ok token between =>
            obtain ⟨rfl, htokens, hbetween⟩ := advance_sound hwithin hend hadvance
            have hrecord : (record (.null cursor.current (cTable.null cursor.current))).run
                between = .ok () { between with log := _ :: between.log } := rfl
            obtain ⟨hbehindTokens, hbehind⟩ := record_keeps hbetween hrecord
            have hstart := Matches.congruence.applyNull ih cTable open?
              (cTable.null cursor.current) cursor.current (hbehind.mono (Nat.sub_le steps 1))
            simp only [EStateM.run_bind, hrecord]
            generalize hnull : (applyNull cTable (expression _ _ _ _) _ _ _).run _ = result
              at hstart ⊢
            generalize (applyNull cTable (expressionPlain _ _ _ _) _ _ _).run _ = result'
              at hstart ⊢
            cases hstart with
            | failed => exact .failed
            | done _ =>
                obtain ⟨hreads, hafter⟩ := applyNull_sound himp (Nat.sub_le steps 1) hbehind hnull
                rw [← hbehindTokens] at htokens
                exact matched_extend himp ih open? (Nat.sub_le steps 1) (Nat.sub_le steps 1)
                  hafter (.start htokens hend hreads)

end Loop

end Parse

namespace Parser

def completePlain (parser : Parser) : Parse Expr := do
  let steps := (← get).steps
  let expr ← Parse.expressionPlain parser.table parser.limit steps parser.limit none minPower
  match parser.table.leftover? (← Parse.current) with
  | some diagnostic => throw diagnostic
  | none => return expr

def runPlain (parser : Parser) (source : String) : Run :=
  match Cursor.start source with
  | .error diagnostic => ⟨.error diagnostic, []⟩
  | .ok cursor =>
      match parser.completePlain.run cursor with
      | .ok expr cursor => ⟨.ok expr, cursor.log.reverse⟩
      | .error diagnostic cursor => ⟨.error diagnostic, cursor.log.reverse⟩

theorem run_complete_eq {limit : Nat} {cursor : Cursor} (hwithin : cursor.Within cursor.steps) :
    (ofC limit).complete.run cursor = (ofC limit).completePlain.run cursor := by
  have hexpression := (Parse.expression_matches limit cursor.steps limit none minPower
    hwithin).run_eq
  have hlimit : (ofC limit).limit = limit := rfl
  have htable : (ofC limit).table = cTable := rfl
  simp only [complete, completePlain, EStateM.run_bind, EStateM.run_get, hlimit, htable]
  generalize (Parse.expression cTable limit cursor.steps limit none minPower).run cursor = result
    at hexpression
  subst hexpression
  cases (Parse.expressionPlain cTable limit cursor.steps limit none minPower).run cursor with
  | ok expr cursor => rfl
  | error diagnostic cursor => rfl

/-- For the C grammar the power that an operator demands of the next one is inert: every
source is parsed to the same outcome through the same events, in the same order, by the
loop that goes on whenever the next operator binds tighter than the bound. -/
theorem run_eq_runPlain (limit : Nat) (source : String) :
    (ofC limit).run source = (ofC limit).runPlain source := by
  unfold run runPlain
  cases hstart : Cursor.start source with
  | error diagnostic => rfl
  | ok cursor =>
      have hcomplete := @run_complete_eq limit _ (Cursor.start_within hstart)
      dsimp only
      generalize (ofC limit).complete.run cursor = result at hcomplete
      subst hcomplete
      cases (ofC limit).completePlain.run cursor with
      | ok expr cursor => rfl
      | error diagnostic cursor => rfl

/-- With an operator that does not associate, the power demanded of the next one does
decide. -/
example :
    let table := [Registration.literal, .following .nonAssoc 10 .binary ["<"]].foldl
      Registration.install .empty
    (run ⟨table, 8⟩ "a < b < c").result ≠ (runPlain ⟨table, 8⟩ "a < b < c").result := by
  decide +kernel

end Parser

end Precedence
