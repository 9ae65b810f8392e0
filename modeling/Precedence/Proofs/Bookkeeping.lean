import Precedence.Operator.CGrammar
import Precedence.Parse.Session

/-!
The books of a parse are kept. Whatever a rule comes to, as many operands are open and
the same brackets stand open afterwards as before, in every context: every way out of an
operand or a bracket passes the place where it is counted out or closed. So the books of
a session change with its own steps alone.
-/

namespace Precedence

namespace Contextual

section Runs

variable {α β : Type} {context : Context}

theorem run_bind (m : Contextual α) (next : α → Contextual β) :
    (m >>= next).run context =
      match m.run context with
      | some (.ok a, between) => (next a).run between
      | some (.error fault, between) => some (.error fault, between)
      | none => none := by
  change (StateT.bind m (ExceptT.bindCont next)) context = _
  rw [StateT.bind]
  change (Option.bind (m.run context) _) = _
  rcases m.run context with _ | ⟨_ | _, between⟩ <;> rfl

def returned (context : Context) :
    EStateM.Result Diagnostic Cursor α → Option (Except Fault α × Context)
  | .ok a cursor => some (.ok a, { context with cursor := cursor })
  | .error diagnostic cursor =>
      some (.error (.refused diagnostic), { context with cursor := cursor })

theorem run_lift (m : Parse α) :
    (lift m).run context = returned context (m.run context.cursor) := by
  rw [lift, run_bind]
  change StateT.run (match m.run context.cursor with | .ok _ _ => _ | .error _ _ => _) _ = _
  cases m.run context.cursor <;> rfl

theorem run_descend :
    descend.run context =
      if context.limit ≤ context.depth then
        some (.error (.refused ⟨.tooDeep context.limit, context.cursor.current.span.start⟩),
          context)
      else some (.ok (), { context with depth := context.depth + 1 }) := by
  rw [descend, run_bind]
  split <;> rename_i hrun <;> cases hrun
  split <;> rfl

theorem run_ascend :
    ascend.run context =
      if context.depth = 0 then some (.error .underflow, context)
      else some (.ok (), { context with depth := context.depth - 1 }) := by
  rw [ascend, run_bind]
  split <;> rename_i hrun <;> cases hrun
  split <;> rfl

theorem run_tryCatch (m : Contextual α) (handle : Fault → Contextual α) :
    (tryCatch m handle).run context =
      match m.run context with
      | some (.ok a, between) => some (.ok a, between)
      | some (.error fault, between) => (handle fault).run between
      | none => none := by
  simp only [tryCatch, tryCatchThe, MonadExceptOf.tryCatch, ExceptT.tryCatch, ExceptT.run,
    ExceptT.mk, bind, StateT.bind]
  rcases m context with _ | ⟨_ | _, between⟩ <;> rfl

/-- What comes behind a computation is done after a result and after a diagnostic. -/
theorem run_followedBy (m : Contextual α) (after : Contextual Unit) :
    (m.followedBy after).run context =
      match m.run context with
      | some (.ok a, between) => (after >>= fun _ => pure a).run between
      | some (.error (.refused diagnostic), between) =>
          (after >>= fun _ => throw (.refused diagnostic)).run between
      | some (.error .underflow, between) => some (.error .underflow, between)
      | none => none := by
  rw [followedBy, run_bind, outcome, run_tryCatch, run_bind]
  rcases m.run context with _ | ⟨(diagnostic | _) | _, between⟩ <;> rfl

end Runs

/-- Whatever the computation comes to, it has moved the cursor alone, and no operand was
left while none was open. -/
def Balanced {α : Type} (m : Contextual α) : Prop :=
  ∀ ⦃context context' : Context⦄ ⦃result : Except Fault α⦄,
    m.run context = some (result, context') →
    result ≠ .error .underflow ∧ ∃ cursor, context' = { context with cursor := cursor }

namespace Balanced

section Steps

variable {α β : Type}

theorem pure (a : α) : Balanced (pure a) := by
  intro context context' result hrun
  cases hrun
  exact ⟨nofun, _, rfl⟩

theorem refused (diagnostic : Diagnostic) :
    Balanced (throw (.refused diagnostic) : Contextual α) := by
  intro context context' result hrun
  cases hrun
  exact ⟨nofun, _, rfl⟩

theorem endless : Balanced (endless : Contextual α) := by
  intro context context' result hrun
  cases hrun

theorem get : Balanced get := by
  intro context context' result hrun
  cases hrun
  exact ⟨nofun, _, rfl⟩

theorem bind {m : Contextual α} {next : α → Contextual β} (h : Balanced m)
    (hnext : ∀ a, Balanced (next a)) : Balanced (m >>= next) := by
  intro context context' result hrun
  rw [run_bind] at hrun
  cases hm : m.run context with
  | none =>
      rw [hm] at hrun
      cases hrun
  | some outcome =>
      obtain ⟨result', between⟩ := outcome
      obtain ⟨hresult, cursor, rfl⟩ := h hm
      rw [hm] at hrun
      cases result' with
      | ok a =>
          obtain ⟨hresult', cursor', rfl⟩ := hnext a hrun
          exact ⟨hresult', cursor', rfl⟩
      | error fault =>
          cases hrun
          exact ⟨fun hfault => hresult (by cases hfault; rfl), cursor, rfl⟩

theorem lift (m : Parse α) : Balanced (lift m) := by
  intro context context' result hrun
  rw [run_lift] at hrun
  cases hm : m.run context.cursor <;>
  · rw [hm] at hrun
    cases hrun
    exact ⟨nofun, _, rfl⟩

/-- A computation that was entered with other books, behind which the old ones are
restored. -/
theorem run_followedBy {m : Contextual α} (h : Balanced m) {after : Contextual Unit}
    {context entered context' : Context} {result : Except Fault α}
    (hafter : ∀ cursor, after.run { entered with cursor := cursor } =
      some (.ok (), { context with cursor := cursor }))
    (hrun : (m.followedBy after).run entered = some (result, context')) :
    result ≠ .error .underflow ∧ ∃ cursor, context' = { context with cursor := cursor } := by
  rw [Contextual.run_followedBy] at hrun
  cases hm : m.run entered with
  | none =>
      rw [hm] at hrun
      cases hrun
  | some outcome =>
      obtain ⟨result', between⟩ := outcome
      obtain ⟨hresult, cursor, rfl⟩ := h hm
      rw [hm] at hrun
      rcases result' with (diagnostic | _) | a
      · dsimp only at hrun
        rw [run_bind, hafter] at hrun
        cases hrun
        exact ⟨nofun, cursor, rfl⟩
      · exact absurd rfl hresult
      · dsimp only at hrun
        rw [run_bind, hafter] at hrun
        cases hrun
        exact ⟨nofun, cursor, rfl⟩

theorem inside (delimiter : Delimiter) {m : Contextual α} (h : Balanced m) :
    Balanced (inside delimiter m) := by
  intro context context' result hrun
  rw [Contextual.inside, run_bind] at hrun
  exact h.run_followedBy (fun _ => rfl) hrun

theorem nested {m : Contextual α} (h : Balanced m) : Balanced (nested m) := by
  intro context context' result hrun
  rw [Contextual.nested, run_bind, run_descend] at hrun
  by_cases hdeep : context.limit ≤ context.depth
  · rw [if_pos hdeep] at hrun
    cases hrun
    exact ⟨nofun, _, rfl⟩
  · rw [if_neg hdeep] at hrun
    exact h.run_followedBy (fun _ => rfl) hrun

end Steps

section Rules

variable {operand : Int → Contextual Expr}

theorem innermost : Balanced innermost := bind get fun _ => pure _

theorem elementBound : Balanced elementBound := bind get fun _ => bind innermost fun _ => pure _

theorem expectClosing (delimiter : Delimiter) : Balanced (expectClosing delimiter) :=
  bind get fun _ => lift _

theorem closing (token : Token) : Balanced (closing token) := bind innermost fun _ => lift _

variable (h : ∀ bound, Balanced (operand bound))

include h

theorem grouping (bound : Int) : Balanced (grouping operand bound) := by
  refine bind (inside .group ?_) fun inner => pure _
  exact bind (h bound) fun inner => bind (expectClosing .group) fun _ => pure inner

theorem prefixed (operator : Token) (bound : Int) : Balanced (prefixed operand operator bound) :=
  bind (h bound) fun _ => pure _

theorem prefixUpdate (operator : Token) (bound : Int) :
    Balanced (prefixUpdate operand operator bound) :=
  bind (h bound) fun _ => bind (lift _) fun _ => pure _

theorem binary (operator : Token) (left : Expr) (bound : Int) :
    Balanced (binary operand operator left bound) :=
  bind (h bound) fun _ => pure _

theorem assignment (operator : Token) (left : Expr) (bound : Int) :
    Balanced (assignment operand operator left bound) :=
  bind (lift _) fun _ => binary h operator left bound

theorem ternary (condition : Expr) (bound : Int) : Balanced (ternary operand condition bound) := by
  refine bind (h minPower) fun positive => bind (lift _) fun token => ?_
  split
  · exact bind (lift _) fun _ => bind (h bound) fun negative => pure _
  · exact bind get fun _ => refused _

theorem comma (left : Expr) (bound : Int) : Balanced (comma operand left bound) :=
  bind (h bound) fun _ => pure _

theorem arguments (bound : Int) (rounds : Nat) : Balanced (arguments operand bound rounds) := by
  induction rounds with
  | zero => exact endless
  | succ rounds ih =>
      refine bind (lift _) fun token => ?_
      split
      · exact pure []
      · split
        · exact refused _
        · refine bind (h bound) fun first => bind (lift _) fun separator => ?_
          split
          · exact bind (lift _) fun _ => bind ih fun rest => pure _
          · exact pure [first]

theorem call (rounds : Nat) (callee : Expr) : Balanced (call operand rounds callee) := by
  refine bind (inside .arguments ?_) fun read => pure _
  exact bind elementBound fun bound => bind (arguments h bound rounds) fun values =>
    bind (expectClosing .arguments) fun close => pure _

theorem index (target : Expr) : Balanced (index operand target) := by
  refine bind (inside .index ?_) fun read => pure _
  exact bind elementBound fun bound => bind (h bound) fun place =>
    bind (expectClosing .index) fun close => pure _

theorem applyNull (binding : Binding NullRule) (token : Token) :
    Balanced (applyNull operand binding token) := by
  unfold Contextual.applyNull
  split
  case h_1 => exact refused _
  case h_2 => exact refused _
  case h_3 => exact closing token
  case h_4 => exact pure _
  case h_5 => exact grouping h _
  case h_6 => exact prefixed h token _
  case h_7 => exact prefixUpdate h token _

theorem applyLeft (rounds : Nat) (binding : Binding LeftRule) (token : Token) (left : Expr) :
    Balanced (applyLeft operand rounds binding token left) := by
  unfold Contextual.applyLeft
  split
  case h_1 => exact refused _
  case h_2 => exact refused _
  case h_3 => exact binary h token left _
  case h_4 => exact assignment h token left _
  case h_5 => exact ternary h left _
  case h_6 => exact comma h left _
  case h_7 => exact call h rounds left
  case h_8 => exact index h left
  case h_9 => exact pure _

theorem extend (rounds : Nat) (bound : Int) (more : Nat) (next : Int) (left : Expr) :
    Balanced (extend operand rounds bound more next left) := by
  induction more generalizing next left with
  | zero => exact endless
  | succ more ih =>
      refine bind get fun _ => bind (lift _) fun token => ?_
      dsimp only
      split
      · exact bind (lift _) fun token => bind (lift _) fun _ =>
          bind (applyLeft h rounds _ token left) fun expr => ih _ expr
      · exact pure left

theorem bounded (rounds : Nat) (bound : Int) : Balanced (bounded operand rounds bound) := by
  refine bind (lift _) fun first => ?_
  split
  · exact lift _
  · exact bind (lift _) fun token => bind get fun _ => bind (lift _) fun _ =>
      bind (applyNull h _ token) fun left => extend h rounds bound rounds _ left

end Rules

/-- An operand is counted out again, whatever it comes to. -/
theorem expression (rounds operands : Nat) (bound : Int) :
    Balanced (expression rounds operands bound) := by
  induction operands generalizing bound with
  | zero => exact endless
  | succ operands ih => exact nested (bounded ih rounds bound)

end Balanced

end Contextual

/-- Every rule leaves the books as it found them. -/
theorem Handler.balanced (handler : Handler) (rounds operands : Nat) :
    (handler.run rounds operands).Balanced := by
  have h := Contextual.Balanced.expression rounds operands
  cases handler with
  | expression bound => exact h bound
  | closing token => exact .closing token
  | grouping bound => exact .grouping h bound
  | prefixed operator bound => exact .prefixed h operator bound
  | prefixUpdate operator bound => exact .prefixUpdate h operator bound
  | suffixed operator left => exact .pure _
  | binary operator left bound => exact .binary h operator left bound
  | assignment operator left bound => exact .assignment h operator left bound
  | ternary left bound => exact .ternary h left bound
  | comma left bound => exact .comma h left bound
  | call left => exact .call h rounds left
  | index left => exact .index h left

namespace Session

mutual

def Step.successes (action : Action) : Step → Except Diagnostic Answer → Nat
  | .action other, .ok _ => if other = action then 1 else 0
  | .inside _ steps, .ok (.nested entries _) => successesOfAll action steps entries
  | _, _ => 0

def successesOfAll (action : Action) : List Step → List Entry → Nat
  | step :: steps, (result, _) :: entries =>
      step.successes action result + successesOfAll action steps entries
  | _, _ => 0

end

/-- Between the two sessions the brackets are the same, and as many operands were opened
and left as the two counts say, within the limit. -/
structure Balance (session session' : Session) (descents ascents : Nat) : Prop where
  limit_eq : session'.limit = session.limit
  brackets_eq : session'.brackets = session.brackets
  depth_eq : session'.depth + ascents = session.depth + descents
  depth_le : session'.depth ≤ max session.depth session.limit

section Steps

variable {session between session' : Session} {result : Except Diagnostic Answer}

theorem Balance.refl (session : Session) : Balance session session 0 0 :=
  ⟨rfl, rfl, rfl, Nat.le_max_left _ _⟩

theorem Balance.trans {descents ascents descents' ascents' : Nat}
    (h : Balance session between descents ascents)
    (h' : Balance between session' descents' ascents') :
    Balance session session' (descents + descents') (ascents + ascents') := by
  have hdepth := h.depth_eq
  have hdepth' := h'.depth_eq
  have hle := h.depth_le
  have hle' := h'.depth_le
  rw [h.limit_eq] at hle'
  exact ⟨h'.limit_eq.trans h.limit_eq, h'.brackets_eq.trans h.brackets_eq, by omega, by omega⟩

/-- A session keeps its books through a computation that keeps them. -/
theorem balance_runIn {α : Type} {m : Contextual α} (h : m.Balanced) {answer : α → Answer}
    {keep : α → Session → Session}
    (hkeep : ∀ a session, (keep a session).toContext = session.toContext)
    (hrun : session.runIn m answer keep = some (result, session')) :
    Balance session session' 0 0 := by
  unfold runIn at hrun
  split at hrun
  · rename_i a context hm
    obtain ⟨_, cursor, rfl⟩ := h hm
    obtain ⟨_, rfl⟩ := Prod.mk.inj (Option.some.inj hrun)
    have hcontext := hkeep a { session with cursor := cursor }
    have hlimit := congrArg Context.limit hcontext
    have hbrackets := congrArg Context.brackets hcontext
    have hdepth := congrArg Context.depth hcontext
    exact ⟨hlimit, hbrackets, hdepth, Nat.le_trans (Nat.le_of_eq hdepth) (Nat.le_max_left _ _)⟩
  · rename_i hm
    obtain ⟨_, cursor, rfl⟩ := h hm
    obtain ⟨_, rfl⟩ := Prod.mk.inj (Option.some.inj hrun)
    exact ⟨rfl, rfl, rfl, Nat.le_max_left _ _⟩
  · cases hrun
  · cases hrun

/-- The computation of a rule is one of a handler, perhaps behind a token. -/
theorem balanced_build {rule : Rule} {m : Contextual Expr} (h : session.build? rule = some m) :
    m.Balanced := by
  have hhandle : ∀ handler, (session.handle handler).Balanced :=
    fun handler => handler.balanced _ _
  have hbehind : ∀ handler : Token → Handler, Contextual.Balanced
      (Contextual.lift Parse.advance >>= fun token => session.handle (handler token)) :=
    fun handler => .bind (.lift _) fun token => hhandle (handler token)
  cases rule with
  | expression bound => exact Option.some.inj h ▸ hhandle _
  | closing => exact Option.some.inj h ▸ hbehind _
  | grouping bound => exact Option.some.inj h ▸ hbehind fun _ => _
  | prefixed bound => exact Option.some.inj h ▸ hbehind _
  | prefixUpdate bound => exact Option.some.inj h ▸ hbehind _
  | _ =>
      obtain ⟨left, _, rfl⟩ := Option.map_eq_some_iff.mp h
      exact hbehind _

/-- Actions other than the two that count leave the books alone. -/
theorem balance_perform {action : Action}
    (hrun : session.perform? action = some (result, session')) :
    Balance session session' (Step.successes .descend (.action action) result)
      (Step.successes .ascend (.action action) result) := by
  have hzero : action ≠ .descend → action ≠ .ascend → Balance session session' 0 0 →
      Balance session session' (Step.successes .descend (.action action) result)
        (Step.successes .ascend (.action action) result) := by
    intro hdescend hascend h
    cases result <;> simpa [Step.successes, hdescend, hascend] using h
  cases action with
  | descend =>
      simp only [perform?, runIn, Contextual.run_descend] at hrun
      by_cases hdeep : session.limit ≤ session.depth
      · rw [if_pos hdeep] at hrun
        cases hrun
        exact .refl session
      · rw [if_neg hdeep] at hrun
        cases hrun
        have hroom : session.depth + 1 ≤ max session.depth session.limit := by omega
        exact ⟨rfl, rfl, rfl, hroom⟩
  | ascend =>
      simp only [perform?, runIn, Contextual.run_ascend] at hrun
      by_cases hnone : session.depth = 0
      · rw [if_pos hnone] at hrun
        cases hrun
      · rw [if_neg hnone] at hrun
        cases hrun
        have hup : session.depth - 1 + 1 = session.depth := Nat.succ_pred hnone
        have hbelow : session.depth - 1 ≤ max session.depth session.limit := by omega
        exact ⟨rfl, rfl, hup, hbelow⟩
  | current | isAt | atEnd | position | lookupNull | lookupLeft | misplaced | unmatched =>
      cases hrun
      exact hzero nofun nofun (.refl session)
  | finish =>
      apply hzero nofun nofun
      simp only [perform?] at hrun
      split at hrun <;>
      · cases hrun
        exact .refl session
  | advance => exact hzero nofun nofun (balance_runIn (.lift _) (fun _ _ => rfl) hrun)
  | innermost => exact hzero nofun nofun (balance_runIn .innermost (fun _ _ => rfl) hrun)
  | elementBound => exact hzero nofun nofun (balance_runIn .elementBound (fun _ _ => rfl) hrun)
  | expectClosing delimiter =>
      exact hzero nofun nofun (balance_runIn (.expectClosing delimiter) (fun _ _ => rfl) hrun)
  | build rule =>
      obtain ⟨m, hm, hrun⟩ := Option.bind_eq_some_iff.mp hrun
      refine hzero nofun nofun (balance_runIn (balanced_build hm) ?_ hrun)
      exact fun _ _ => rfl

end Steps

mutual

/-- A step changes the books by what it tells of itself. -/
theorem balance_step {session session' : Session} {result : Except Diagnostic Answer} (step : Step)
    (hrun : session.step? step = some (result, session')) :
    Balance session session' (step.successes .descend result) (step.successes .ascend result) := by
  cases step with
  | action action => exact balance_perform hrun
  | inside delimiter steps =>
      obtain ⟨⟨entries, completed, left⟩, hsteps, hrun⟩ := Option.bind_eq_some_iff.mp hrun
      cases hrun
      obtain ⟨hlimit, hbrackets, hdepth, hle⟩ := balance_steps steps hsteps
      -- The steps leave the bracket they were put in, so closing it uncovers the old ones.
      exact ⟨hlimit, congrArg List.tail hbrackets, hdepth, hle⟩

/-- Steps up to the first that fails change the books by what they tell. -/
theorem balance_steps {session session' : Session} {entries : List Entry} {completed : Bool}
    (steps : List Step) (hrun : session.steps? steps = some (entries, completed, session')) :
    Balance session session' (successesOfAll .descend steps entries)
      (successesOfAll .ascend steps entries) := by
  cases steps with
  | nil =>
      cases hrun
      exact .refl session
  | cons step rest =>
      obtain ⟨⟨result, between⟩, hstep, hrun⟩ := Option.bind_eq_some_iff.mp hrun
      have hfirst := balance_step step hstep
      cases result with
      | error diagnostic =>
          cases hrun
          simpa [successesOfAll] using hfirst
      | ok answer =>
          obtain ⟨⟨others, completed', last⟩, hrest, hrun⟩ := Option.bind_eq_some_iff.mp hrun
          cases hrun
          exact hfirst.trans (balance_steps rest hrest)

end

/-- The session after all of the steps, whether they fail or not, and what they told. -/
def take? (session : Session) : List Step → Option (List Entry × Session)
  | [] => some ([], session)
  | step :: rest => do
      let (result, session) ← session.step? step
      let (entries, last) ← session.take? rest
      return ((result, session.current) :: entries, last)

/-- Steps that can all be taken are what a run takes. -/
theorem run_of_take {session session' : Session} {steps : List Step} {entries : List Entry}
    (h : session.take? steps = some (entries, session')) :
    session.run steps = entries.map some := by
  induction steps generalizing session entries with
  | nil =>
      cases h
      rfl
  | cons step rest ih =>
      obtain ⟨⟨result, between⟩, hstep, h⟩ := Option.bind_eq_some_iff.mp h
      obtain ⟨⟨others, last⟩, hrest, h⟩ := Option.bind_eq_some_iff.mp h
      cases h
      rw [run, hstep, List.map_cons, ← ih hrest]

theorem balance_take {session session' : Session} {steps : List Step} {entries : List Entry}
    (h : session.take? steps = some (entries, session')) :
    Balance session session' (successesOfAll .descend steps entries)
      (successesOfAll .ascend steps entries) := by
  induction steps generalizing session entries with
  | nil =>
      cases h
      exact .refl _
  | cons step rest ih =>
      obtain ⟨⟨result, between⟩, hstep, h⟩ := Option.bind_eq_some_iff.mp h
      obtain ⟨⟨others, last⟩, hrest, h⟩ := Option.bind_eq_some_iff.mp h
      cases h
      exact (balance_step step hstep).trans (ih hrest)

/-- The books are kept. A call of any rule that comes to an end, in whatever context and
with a result or a diagnostic, leaves as many operands and the same brackets open as
before, and leaves no operand that is not open. Over any steps of a session, outside and
inside of brackets, the open operands are those that the steps have opened and not left,
they stay within the limit unless they were over it, and no bracket stays open. -/
theorem books_balance :
    (∀ (handler : Handler) (rounds operands : Nat) (context context' : Context)
      (result : Except Fault Expr),
      (handler.run rounds operands).run context = some (result, context') →
      result ≠ .error .underflow ∧ context'.depth = context.depth ∧
        context'.brackets = context.brackets) ∧
    (∀ (session session' : Session) (steps : List Step) (entries : List Entry),
      session.take? steps = some (entries, session') →
      Balance session session' (successesOfAll .descend steps entries)
        (successesOfAll .ascend steps entries)) ∧
    (∀ (session session' : Session) (steps : List Step) (entries : List Entry) (completed : Bool),
      session.steps? steps = some (entries, completed, session') →
      Balance session session' (successesOfAll .descend steps entries)
        (successesOfAll .ascend steps entries)) ∧
    ∀ (table : OperatorTable) (limit : Nat) (source : String) (session session' : Session)
      (steps : List Step) (entries : List Entry),
      Session.start table limit source = .ok session →
      session.take? steps = some (entries, session') →
      session'.brackets = [] ∧ session'.depth ≤ limit ∧
        session'.depth + successesOfAll .ascend steps entries =
          successesOfAll .descend steps entries := by
  refine ⟨?_, ?_, ?_, ?_⟩
  · intro handler rounds operands context context' result hrun
    obtain ⟨hresult, cursor, rfl⟩ := handler.balanced rounds operands hrun
    exact ⟨hresult, rfl, rfl⟩
  · intro session session' steps entries htake
    exact balance_take htake
  · intro session session' steps entries completed hsteps
    exact balance_steps steps hsteps
  · intro table limit source session session' steps entries hstart htake
    obtain ⟨hlimit, hbrackets, hdepth, hle⟩ := balance_take htake
    unfold Session.start at hstart
    cases hcursor : Cursor.start source with
    | error diagnostic =>
        rw [hcursor] at hstart
        cases hstart
    | ok cursor =>
        rw [hcursor] at hstart
        cases hstart
        exact ⟨hbrackets, by simpa using hle, by simpa using hdepth⟩

theorem books_balance_unclosed :
    let source := "f(a, (b + c], d)"
    let steps : List Step := [.action .descend, .action (.build (.expression 0)),
      .inside .group [.action .advance, .action .descend, .action (.build (.expression 0)),
        .action (.expectClosing .group)],
      .action .ascend]
    ∃ session entries session', Session.start cTable 4 source = .ok session ∧
      session.take? steps = some (entries, session') ∧
      successesOfAll .descend steps entries = 2 ∧ successesOfAll .ascend steps entries = 1 ∧
      session'.brackets = [] ∧ session'.depth ≤ 4 ∧ session'.depth + 1 = 2 := by
  intro source steps
  have htaken : ((Session.start cTable 4 source).toOption.bind fun session =>
      (session.take? steps).map fun taken =>
        (successesOfAll .descend steps taken.1, successesOfAll .ascend steps taken.1)) =
      some (2, 1) := by
    decide +kernel
  obtain ⟨session, hsession, hmap⟩ := Option.bind_eq_some_iff.mp htaken
  obtain ⟨⟨entries, session'⟩, htake, hcounts⟩ := Option.map_eq_some_iff.mp hmap
  obtain ⟨hdescents, hascents⟩ := Prod.mk.inj hcounts
  have hstart : Session.start cTable 4 source = .ok session := by
    cases hstart : Session.start cTable 4 source with
    | error diagnostic =>
        rw [hstart] at hsession
        cases hsession
    | ok session =>
        rw [hstart] at hsession
        cases hsession
        rfl
  obtain ⟨hbrackets, hle, hdepth⟩ :=
    books_balance.2.2.2 cTable 4 source session session' steps entries hstart htake
  rw [hdescents, hascents] at hdepth
  exact ⟨session, entries, session', hstart, htake, hdescents, hascents, hbrackets, hle, hdepth⟩

end Session

end Precedence
