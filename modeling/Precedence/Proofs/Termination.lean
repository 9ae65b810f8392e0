import Precedence.Parse
import Precedence.Proofs.Adequacy
import Precedence.Proofs.Bookkeeping

/-!
A parse comes to an end. In its own context, where loops and operands go on for as long
as they have to, it does what it does when they are counted: no more rounds are made than
there are tokens left, because every round takes one, and a round that would begin at the
end of the input fails. How many rounds there could be makes no difference from there on.
-/

namespace Precedence

open Parse

namespace Contextual

/-- From the cursor the computation comes to what the parse comes to, and with a result
it stands in a sealed stream with fewer than `count` items left. -/
structure PerformsAt {α : Type} (context : Context) (count : Nat) (cursor : Cursor)
    (m : Contextual α) (p : Parse α) : Prop where
  run_eq : m.run { context with cursor := cursor } = returned context (p.run cursor)
  within : ∀ ⦃a : α⦄ ⦃cursor' : Cursor⦄, p.run cursor = .ok a cursor' → cursor'.Within count

def Performs {α : Type} (context : Context) (count : Nat) (m : Contextual α) (p : Parse α) : Prop :=
  ∀ ⦃cursor : Cursor⦄, cursor.Within count → PerformsAt context count cursor m p

section Steps

variable {α β : Type} {context : Context} {count : Nat} {cursor : Cursor}

theorem PerformsAt.mono {count' : Nat} {m : Contextual α} {p : Parse α}
    (h : PerformsAt context count cursor m p) (hle : count ≤ count') :
    PerformsAt context count' cursor m p :=
  ⟨h.run_eq, fun _ _ hrun => (h.within hrun).mono hle⟩

theorem PerformsAt.bind {m : Contextual α} {p : Parse α} {next : α → Contextual β}
    {next' : α → Parse β}
    (h : m.run { context with cursor := cursor } = returned context (p.run cursor))
    (hnext : ∀ a cursor', p.run cursor = .ok a cursor' →
      PerformsAt context count cursor' (next a) (next' a)) :
    PerformsAt context count cursor (m >>= next) (p >>= next') := by
  constructor
  · rw [run_bind, EStateM.run_bind, h]
    cases hp : p.run cursor with
    | ok a cursor' => exact (hnext a cursor' hp).run_eq
    | error diagnostic cursor' => rfl
  · intro b cursor' hbind
    obtain ⟨a, between, hp, hrest⟩ := run_bind_eq_ok.mp hbind
    exact (hnext a between hp).within hrest

/-- What is looked up in the context does not depend on the cursor. -/
theorem PerformsAt.get_bind {next : Context → Contextual β} {p : Parse β}
    (h : PerformsAt context count cursor (next { context with cursor := cursor }) p) :
    PerformsAt context count cursor (get >>= next) p :=
  ⟨h.run_eq, h.within⟩

theorem run_lift_at (p : Parse α) :
    (lift p).run { context with cursor := cursor } = returned context (p.run cursor) := by
  rw [run_lift]
  cases p.run cursor <;> rfl

namespace Performs

theorem pure (a : α) : Performs context count (pure a) (pure a) := by
  intro cursor hwithin
  refine ⟨rfl, ?_⟩
  rintro _ _ ⟨⟩
  exact hwithin

theorem throw (diagnostic : Diagnostic) :
    Performs context count (throw (.refused diagnostic) : Contextual α) (throw diagnostic) := by
  intro cursor _
  refine ⟨rfl, ?_⟩
  rintro _ _ ⟨⟩

theorem lift {p : Parse α}
    (h : ∀ ⦃cursor cursor' : Cursor⦄ ⦃a : α⦄, cursor.Within count → p.run cursor = .ok a cursor' →
      cursor'.Within count) :
    Performs context count (lift p) p :=
  fun _ hwithin => ⟨run_lift_at p, fun _ _ hrun => h hwithin hrun⟩

theorem bind {m : Contextual α} {p : Parse α} {next : α → Contextual β} {next' : α → Parse β}
    (h : Performs context count m p) (hnext : ∀ a, Performs context count (next a) (next' a)) :
    Performs context count (m >>= next) (p >>= next') :=
  fun _ hwithin => .bind (h hwithin).run_eq fun a _ hrun => hnext a ((h hwithin).within hrun)

theorem get_bind {next : Context → Contextual β} {p : Parse β}
    (h : ∀ cursor, Performs context count (next { context with cursor := cursor }) p) :
    Performs context count (get >>= next) p :=
  fun cursor hwithin => .get_bind (h cursor hwithin)

theorem inside {m : Contextual α} {p : Parse α} {delimiter : Delimiter}
    (h : Performs { context with brackets := delimiter :: context.brackets } count m p) :
    Performs context count (inside delimiter m) p := by
  intro cursor hwithin
  obtain ⟨hrun, hkeeps⟩ := h hwithin
  refine ⟨?_, hkeeps⟩
  rw [Contextual.inside, run_bind]
  change (m.followedBy pop).run _ = _
  rw [run_followedBy]
  dsimp only at hrun ⊢
  rw [hrun]
  cases p.run cursor <;> rfl

/-- An operand within the limit is counted in and out. -/
theorem nested {m : Contextual α} {p : Parse α} (hdepth : context.depth < context.limit)
    (h : Performs { context with depth := context.depth + 1 } count m p) :
    Performs context count (nested m) p := by
  intro cursor hwithin
  obtain ⟨hrun, hkeeps⟩ := h hwithin
  refine ⟨?_, hkeeps⟩
  rw [Contextual.nested, run_bind, run_descend, if_neg (Nat.not_le.mpr hdepth)]
  dsimp only at hrun ⊢
  rw [run_followedBy, hrun]
  cases p.run cursor <;> rfl

theorem current : Performs context count (Contextual.lift current) current :=
  .lift fun _ _ _ hwithin hrun => by
    cases hrun
    exact hwithin

theorem advance : Performs context count (Contextual.lift advance) advance := by
  apply lift
  intro cursor cursor' token hwithin hrun
  by_cases hend : cursor.current.isEnd
  · rw [Cursor.run_advance_of_end hwithin.isSealed hend] at hrun
    cases hrun
    exact hwithin
  · exact (advance_sound hwithin hend hrun).2.2.mono (Nat.sub_le count 1)

theorem record (event : Event) :
    Performs context count (Contextual.lift (record event)) (record event) :=
  .lift fun _ _ _ hwithin hrun => (record_keeps hwithin hrun).2

theorem ensureAssignable (target : Expr) :
    Performs context count (Contextual.lift (ensureAssignable target)) (ensureAssignable target) :=
  .lift fun _ _ _ hwithin hrun => (ensureAssignable_eq_ok.mp hrun).2 ▸ hwithin

theorem expectClosing (delimiter : Delimiter) :
    Performs context count (expectClosing delimiter)
      (Parse.expectClosing context.table delimiter) :=
  .get_bind fun _ => .lift fun _ _ _ hwithin hrun =>
    (expectClosing_sound hwithin hrun).2.2.mono (Nat.sub_le count 1)

/-- Operands are read by one parser as by the other, wherever they stand, as long as no
more than `steps` items are left. -/
def OfOperands (context : Context) (steps : Nat) (operand : Int → Contextual Expr)
    (operand' : Operand) : Prop :=
  ∀ ⦃count : Nat⦄, count ≤ steps → ∀ (brackets : List Delimiter) (bound : Int),
    Performs { context with brackets := brackets } count (operand bound)
      (operand' brackets.head? bound)

section Rules

variable {context : Context} {steps count rounds rounds' : Nat}
  {operand : Int → Contextual Expr} {operand' : Operand} {reading : Reading}
  (h : OfOperands context steps operand operand') (hsteps : count ≤ steps)

include h hsteps

theorem ternary (condition : Expr) (bound : Int) :
    Performs context count (ternary operand condition bound)
      (Parse.ternary context.table operand' context.brackets.head? condition bound) := by
  refine bind (h hsteps context.brackets minPower) fun positive => bind current fun token => ?_
  split
  · exact bind advance fun _ => bind (h hsteps context.brackets bound) fun negative => pure _
  · exact get_bind fun _ => throw _

theorem applyNull (binding : Binding NullRule) (token : Token) :
    Performs context count (applyNull operand binding token)
      (Parse.applyNull context.table operand' context.brackets.head? binding token) := by
  unfold Contextual.applyNull Parse.applyNull
  cases binding.rule with
  | unregistered => exact throw _
  | error => exact throw _
  | closing => exact get_bind fun _ => lift fun _ _ _ _ hrun => absurd hrun run_throw_ne_ok
  | literal => exact pure _
  | grouping =>
      have hgrouping : Parse.grouping context.table operand' binding.rightPower = (do
          let inner ← (do
            let inner ← operand' (some .group) binding.rightPower
            let _ ← Parse.expectClosing context.table .group
            return inner)
          return inner.group) := by
        simp [Parse.grouping]
      dsimp only
      rw [hgrouping]
      refine bind (inside ?_) fun inner => pure _
      exact bind (h hsteps _ _) fun inner => bind (expectClosing .group) fun _ => pure inner
  | prefixed => exact bind (h hsteps context.brackets _) fun inner => pure _
  | prefixUpdate =>
      exact bind (h hsteps context.brackets _) fun inner =>
        bind (ensureAssignable inner) fun _ => pure _

/-- The arguments come to an end because each of them takes a token. -/
theorem arguments (himp : Implements operand' reading steps) (hrounds : count ≤ rounds)
    (hrounds' : count ≤ rounds') (hopen : context.brackets.head? = some .arguments) (bound : Int) :
    Performs context count (arguments operand bound rounds)
      (Parse.arguments operand' bound rounds') := by
  intro cursor hwithin
  induction rounds generalizing cursor count rounds' with
  | zero =>
      have hpos := hwithin.pos
      omega
  | succ rounds ih =>
      have hpos := hwithin.pos
      obtain ⟨rounds', rfl⟩ : ∃ n, rounds' = n + 1 := ⟨rounds' - 1, by omega⟩
      refine .bind (run_lift_at _) fun token behind hcurrent => ?_
      cases hcurrent
      split
      · exact pure [] hwithin
      · split
        · exact throw _ hwithin
        · have hoperand := (h hsteps context.brackets bound hwithin).run_eq
          rw [hopen] at hoperand
          refine .bind hoperand fun first between hfirst => ?_
          obtain ⟨_, hbetween⟩ := himp.sound hsteps hwithin hfirst
          refine .bind (run_lift_at _) fun separator behind hcurrent => ?_
          cases hcurrent
          split
          · rename_i hseparator
            refine .bind (run_lift_at _) fun comma behind hadvance => ?_
            obtain ⟨_, _, hbehind⟩ :=
              advance_sound hbetween (Token.not_isEnd_of_is hseparator) hadvance
            -- An argument and its separator are two tokens less for the next round.
            have hrest := @ih (count - 1 - 1) rounds' (by omega) (by omega) (by omega) _ hbehind
            refine .bind hrest.run_eq fun rest last hlast => pure _ ?_
            exact (hrest.within hlast).mono (by omega)
          · exact pure [first] (hbetween.mono (Nat.sub_le count 1))

theorem applyLeft (himp : Implements operand' reading steps) (hrounds : count ≤ rounds)
    (hrounds' : count ≤ rounds') (binding : Binding LeftRule) (token : Token) (left : Expr) :
    Performs context count (applyLeft operand rounds binding token left)
      (Parse.applyLeft context.table rounds' operand' context.brackets.head? binding token
        left) := by
  have hbinary : Performs context count (binary operand token left binding.rightPower)
      (Parse.binary operand' context.brackets.head? token left binding.rightPower) :=
    bind (h hsteps context.brackets _) fun right => pure _
  unfold Contextual.applyLeft Parse.applyLeft
  cases binding.rule with
  | unregistered => exact throw _
  | error => exact throw _
  | binary => exact hbinary
  | assignment => exact bind (ensureAssignable left) fun _ => hbinary
  | ternary => exact Performs.ternary h hsteps left _
  | comma => exact bind (h hsteps context.brackets _) fun right => pure _
  | call =>
      have hcall : Parse.call context.table rounds' operand' left = (do
          let read ← (do
            let values ← Parse.arguments operand'
              (Delimiter.elementBound context.table (some .arguments)) rounds'
            let close ← Parse.expectClosing context.table .arguments
            return (values, close))
          return .node "call" (left :: read.1) false (left.span.join read.2.span)) := by
        simp [Parse.call]
      dsimp only
      rw [hcall]
      refine bind (inside (get_bind fun _ => ?_)) fun read => pure _
      exact bind (@arguments { context with brackets := .arguments :: context.brackets } _ _ _ _ _ _
        _ h hsteps himp hrounds hrounds' rfl _) fun values =>
          bind (expectClosing .arguments) fun close => pure _
  | index =>
      have hindex : Parse.index context.table operand' left = (do
          let read ← (do
            let place ← operand' (some .index)
              (Delimiter.elementBound context.table (some .index))
            let close ← Parse.expectClosing context.table .index
            return (place, close))
          return .node "get" [left, read.1] false (left.span.join read.2.span)) := by
        simp [Parse.index]
      dsimp only
      rw [hindex]
      refine bind (inside (get_bind fun _ => ?_)) fun read => pure _
      exact bind (h hsteps (.index :: context.brackets) _) fun place =>
        bind (expectClosing .index) fun close => pure _
  | suffixed => exact pure _

/-- The loop comes to an end because each round takes a token, and the one that would take
the end of the input fails. -/
theorem extend (himp : Implements operand' reading steps) (hinert : context.table.EndIsInert)
    {more more' : Nat} (hrounds : count ≤ rounds) (hrounds' : count ≤ rounds')
    (hmore : count ≤ more) (hmore' : count ≤ more') (bound next : Int) (left : Expr) :
    Performs context count (extend operand rounds bound more next left)
      (Parse.extend context.table rounds' operand' context.brackets.head? bound more' next
        left) := by
  intro cursor hwithin
  induction more generalizing cursor count more' next left with
  | zero =>
      have hpos := hwithin.pos
      omega
  | succ more ih =>
      have hpos := hwithin.pos
      obtain ⟨more', rfl⟩ : ∃ n, more' = n + 1 := ⟨more' - 1, by omega⟩
      refine .get_bind (.bind (run_lift_at _) fun token behind hcurrent => ?_)
      cases hcurrent
      dsimp only
      split
      · refine .bind (advance hwithin).run_eq fun token between hadvance => ?_
        obtain rfl : token = cursor.current := advance_token hadvance
        by_cases hend : cursor.current.isEnd
        · refine .bind (run_lift_at _) fun _ _ _ => ?_
          rcases hinert _ hend with hrule | hrule <;>
          · simp only [Contextual.applyLeft, Parse.applyLeft, hrule]
            exact .bind rfl fun _ _ hrun => absurd hrun run_throw_ne_ok
        · obtain ⟨_, _, hbetween⟩ := advance_sound hwithin hend hadvance
          have hrecorded : PerformsAt context (count - 1) between _ _ :=
            record (.left cursor.current (context.table.left cursor.current)) hbetween
          refine .bind hrecorded.run_eq fun _ behind hrecord => ?_
          have hstep := @applyLeft context steps (count - 1) rounds rounds' operand operand'
            reading h (by omega) himp (by omega) (by omega) (context.table.left cursor.current)
            cursor.current left behind (hrecorded.within hrecord)
          refine .bind hstep.run_eq fun expr after hafter => ?_
          exact (ih (by omega) (by omega) (by omega) (by omega) (by omega) _ expr
            (hstep.within hafter)).mono (Nat.sub_le count 1)
      · exact pure left hwithin

end Rules

/-- What an operand begins with is within the limit, so it comes to an end if the operands
inside of it do. -/
theorem bounded {context : Context} {steps rounds budget count : Nat}
    {operand : Int → Contextual Expr}
    (h : OfOperands context steps operand
      (Parse.expression context.table context.limit steps budget))
    (hinert : context.table.EndIsInert) (hrounds : steps ≤ rounds) (hsteps : count ≤ steps)
    (bound : Int) :
    Performs context count (bounded operand rounds bound)
      (Parse.expression context.table context.limit steps (budget + 1) context.brackets.head?
        bound) := by
  intro cursor hwithin
  have himp := expression_implements hinert context.limit steps budget
  refine .bind (run_lift_at _) fun token behind hcurrent => ?_
  cases hcurrent
  split
  · exact ⟨run_lift_at _, nofun⟩
  · rename_i hend
    refine .bind (advance hwithin).run_eq fun token between hadvance => .get_bind ?_
    obtain ⟨_, _, hbetween⟩ := advance_sound hwithin hend hadvance
    have hrecorded : PerformsAt context (count - 1) between _ _ :=
      record (.null token (context.table.null token)) hbetween
    refine .bind hrecorded.run_eq fun _ behind hrecord => ?_
    have hnull := applyNull h (by omega) (context.table.null token) token
      (hrecorded.within hrecord)
    refine .bind hnull.run_eq fun left after hafter => ?_
    have hextend := @extend context steps (count - 1) rounds steps operand _ _ h (by omega) himp
      hinert rounds steps (by omega) (by omega) (by omega) (by omega) bound
      (context.table.null token).nextPower left
    exact (hextend (hnull.within hafter)).mono (Nat.sub_le count 1)

/-- Reading an operand comes to an end. -/
theorem expression {steps rounds : Nat} (hrounds : steps ≤ rounds) {context : Context}
    (hinert : context.table.EndIsInert) {budget operands : Nat}
    (hbudget : context.limit - context.depth = budget) (hoperands : budget < operands) :
    OfOperands context steps (expression rounds operands)
      (Parse.expression context.table context.limit steps budget) := by
  induction budget generalizing context operands with
  | zero =>
      obtain ⟨operands, rfl⟩ : ∃ n, operands = n + 1 := ⟨operands - 1, by omega⟩
      intro count _ brackets bound cursor hwithin
      -- Both refuse before they look at a token, with the limit and the current place.
      constructor
      · rw [Contextual.expression, Contextual.nested, run_bind, run_descend,
          if_pos (by dsimp only; omega)]
        rfl
      · rintro _ _ ⟨⟩
  | succ budget ih =>
      obtain ⟨operands, rfl⟩ : ∃ n, operands = n + 1 := ⟨operands - 1, by omega⟩
      intro count hsteps brackets bound
      let inner : Context := ⟨context.table, context.limit, context.depth + 1, brackets,
        context.cursor⟩
      have hoperand := @ih inner hinert operands (by dsimp only [inner]; omega) (by omega)
      have hbody := bounded hoperand hinert hrounds hsteps bound
      exact nested (by dsimp only; omega) hbody

end Performs

end Steps

def complete (rounds operands : Nat) : Contextual Expr := do
  let expr ← expression rounds operands minPower
  let token ← lift current
  match (← get).table.leftover? token with
  | some diagnostic => throw (.refused diagnostic)
  | none => return expr

end Contextual

namespace Parser

/-- Parses a source in a context of its own, with fewer than `rounds` rounds in each loop
and fewer than `operands` operands inside one another. -/
def runWithin (parser : Parser) (rounds operands : Nat) (source : String) : Option Run :=
  match Cursor.start source with
  | .error diagnostic => some ⟨.error diagnostic, []⟩
  | .ok cursor =>
      let context : Context := ⟨parser.table, parser.limit, 0, [], cursor⟩
      match (Contextual.complete rounds operands).run context with
      | some (.ok expr, context) => some ⟨.ok expr, context.cursor.log.reverse⟩
      | some (.error (.refused diagnostic), context) =>
          some ⟨.error diagnostic, context.cursor.log.reverse⟩
      | _ => none

/-- In a context of its own a parse does what it does with its rounds counted. -/
theorem run_complete {parser : Parser} (hinert : parser.table.EndIsInert) {cursor : Cursor}
    (hwithin : cursor.Within cursor.steps) {rounds operands : Nat}
    (hrounds : cursor.steps ≤ rounds) (hoperands : parser.limit < operands) :
    (Contextual.complete rounds operands).run ⟨parser.table, parser.limit, 0, [], cursor⟩ =
      Contextual.returned ⟨parser.table, parser.limit, 0, [], cursor⟩
        (parser.complete.run cursor) := by
  have hexpression : Contextual.PerformsAt ⟨parser.table, parser.limit, 0, [], cursor⟩ cursor.steps
      cursor (Contextual.expression rounds operands minPower)
      (Parse.expression parser.table parser.limit cursor.steps parser.limit none minPower) :=
    @Contextual.Performs.expression cursor.steps rounds hrounds
      ⟨parser.table, parser.limit, 0, [], cursor⟩ hinert parser.limit operands (Nat.sub_zero _)
      hoperands cursor.steps (Nat.le_refl _) [] minPower cursor hwithin
  rw [complete, EStateM.run_bind, EStateM.run_get]
  refine (@Contextual.PerformsAt.bind _ _ _ cursor.steps _ _ _ _ _ hexpression.run_eq
    fun expr last hlast => ?_).run_eq
  refine .bind (Contextual.run_lift_at _) fun token behind hcurrent => .get_bind ?_
  cases hcurrent
  have hend := hexpression.within hlast
  cases parser.table.leftover? last.current with
  | some diagnostic => exact Contextual.Performs.throw diagnostic hend
  | none => exact Contextual.Performs.pure expr hend

/-- A parse comes to an end: with enough rounds and operands it has an outcome, which is
always the same. -/
theorem runWithin_eq {parser : Parser} (hinert : parser.table.EndIsInert) {source : String}
    {rounds operands : Nat} (hrounds : (TokenStream.ofSource source).length < rounds)
    (hoperands : parser.limit < operands) :
    parser.runWithin rounds operands source = some (parser.run source) := by
  unfold runWithin run
  cases hstart : Cursor.start source with
  | error diagnostic => rfl
  | ok cursor =>
      have hsteps : cursor.steps ≤ rounds := by
        have hlength := congrArg List.length (Cursor.start_stream hstart)
        simp only [Cursor.stream, List.length_cons] at hlength
        simp only [Cursor.steps]
        omega
      dsimp only
      rw [run_complete hinert (Cursor.start_within hstart) hsteps hoperands]
      cases parser.complete.run cursor <;> rfl

/-- If the end of the input stood for an operator, it would be taken over and over. -/
example :
    let table := (Registration.literal.install .empty).setLeft ⟨10, minPower, maxPower, .suffixed⟩
      .endOfInput
    (Parser.runWithin ⟨table, 4⟩ 40 5 "a").isNone := by
  decide +kernel

end Parser

end Precedence
