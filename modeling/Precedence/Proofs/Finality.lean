import Precedence.Proofs.LexicalErrors

/-!
A diagnostic is final. When more text is put behind a source, the tokens before its
end stay the same. A parse of the longer source goes along with the parse of the
shorter one as long as that has not come to its end token; once it has, it can only
succeed, or fail for that end or for a target of an assignment. So any other
diagnostic is found in the longer source as well.
-/

namespace Precedence

namespace Parse

/-- The two streams begin with the same `count` tokens; one of them ends behind these
with `last`, the other goes on. -/
def Shares (last : Token) (count : Nat) (cursor cursor' : Cursor) : Prop :=
  ∃ shared more : List Token, shared.length = count ∧ more ≠ [] ∧
    cursor.stream = shared.map .ok ++ [.ok last] ∧
    cursor'.stream = shared.map .ok ++ more.map .ok

/-- The end token of the shorter stream is met, or what should be changed is not a
target. -/
def Late (last : Token) (diagnostic : Diagnostic) : Prop :=
  diagnostic.position = last.span.start ∨ ∃ target, diagnostic.cause = .invalidTarget target

inductive Spent {α : Type} (last : Token) : EStateM.Result Diagnostic Cursor α → Prop
  | ok {a : α} {cursor : Cursor} (hstream : cursor.stream = [.ok last]) : Spent last (.ok a cursor)
  | error {diagnostic : Diagnostic} {cursor : Cursor} (hlate : Late last diagnostic) :
      Spent last (.error diagnostic cursor)

inductive Followed {α : Type} (last : Token) (count : Nat) :
    EStateM.Result Diagnostic Cursor α → EStateM.Result Diagnostic Cursor α → Prop
  | done {a : α} {cursor cursor' : Cursor} {left : Nat} (hle : left ≤ count)
      (hshares : Shares last left cursor cursor') : Followed last count (.ok a cursor) (.ok a cursor')
  | failed {diagnostic : Diagnostic} {cursor cursor' : Cursor} :
      Followed last count (.error diagnostic cursor) (.error diagnostic cursor')
  | spent {result other : EStateM.Result Diagnostic Cursor α} (hspent : Spent last result) :
      Followed last count result other

/-- With fewer than `reach` shared tokens left, the second computation does on the
longer stream what the first does on the shorter one, until that comes to its end
token. From there on, and from there alone if `ended` says that it is met, the first
is spent. -/
structure Follows {α : Type} (last : Token) (reach : Nat) (ended : Prop) (m m' : Parse α) :
    Prop where
  shared : ∀ ⦃count : Nat⦄ ⦃cursor cursor' : Cursor⦄, count < reach →
    Shares last count cursor cursor' → Followed last count (m.run cursor) (m'.run cursor')
  spent : ended → ∀ ⦃cursor : Cursor⦄, cursor.stream = [.ok last] → Spent last (m.run cursor)

section Steps

variable {α β : Type} {last : Token} {count reach : Nat} {ended : Prop} {cursor cursor' : Cursor}

/-- With no shared token left the shorter stream is at its end token. -/
theorem Shares.zero (h : Shares last 0 cursor cursor') : cursor.stream = [.ok last] := by
  obtain ⟨shared, more, hlength, _, hstream, _⟩ := h
  rw [List.eq_nil_of_length_eq_zero hlength] at hstream
  exact hstream

/-- With shared tokens left both stand at the first of them. -/
theorem Shares.succ (h : Shares last (count + 1) cursor cursor') :
    ∃ next ahead next' ahead', cursor.ahead = .ok next :: ahead ∧
      cursor'.ahead = .ok next' :: ahead' ∧ cursor'.current = cursor.current ∧
      ∀ log log', Shares last count ⟨next, ahead, log⟩ ⟨next', ahead', log'⟩ := by
  obtain ⟨shared, more, hlength, hmore, hstream, hstream'⟩ := h
  obtain ⟨token, shared, rfl⟩ := List.exists_cons_of_length_eq_add_one hlength
  obtain ⟨hcurrent, hahead⟩ := List.cons.inj hstream
  obtain ⟨hcurrent', hahead'⟩ := List.cons.inj hstream'
  -- Behind the token that both stand at, either stream has one more token.
  have hnext : ∀ tokens : List Token, tokens ≠ [] → ∃ next ahead,
      shared.map Except.ok ++ tokens.map Except.ok = (.ok next :: ahead : TokenStream) := by
    intro tokens htokens
    obtain ⟨next, others, hcons⟩ := List.exists_cons_of_ne_nil
      (List.append_ne_nil_of_right_ne_nil shared htokens)
    exact ⟨next, others.map .ok, by rw [← List.map_append, hcons, List.map_cons]⟩
  obtain ⟨next, ahead, hfirst⟩ := hnext [last] (List.cons_ne_nil _ _)
  obtain ⟨next', ahead', hsecond⟩ := hnext more hmore
  refine ⟨next, ahead, next', ahead', hahead.trans hfirst, hahead'.trans hsecond, ?_, ?_⟩
  · exact Except.ok.inj (hcurrent'.trans hcurrent.symm)
  · intro log log'
    exact ⟨shared, more, Nat.succ.inj hlength, hmore, hfirst.symm, hsecond.symm⟩

theorem Followed.mono {left : Nat} {result other : EStateM.Result Diagnostic Cursor α}
    (h : Followed last left result other) (hle : left ≤ count) :
    Followed last count result other := by
  cases h with
  | done hless hshares => exact .done (Nat.le_trans hless hle) hshares
  | failed => exact .failed
  | spent hspent => exact .spent hspent

theorem Follows.mono {m m' : Parse α} {reach' : Nat} {ended' : Prop}
    (h : Follows last reach ended m m') (hle : reach' ≤ reach) (hended : ended' → ended) :
    Follows last reach' ended' m m' :=
  ⟨fun _ _ _ hcount hshares => h.shared (Nat.lt_of_lt_of_le hcount hle) hshares,
    fun hended' => h.spent (hended hended')⟩

theorem Follows.whenever {m m' : Parse α} (h : Follows last reach True m m') :
    Follows last reach ended m m' :=
  h.mono (Nat.le_refl reach) fun _ => trivial

theorem Follows.pure (a : α) : Follows last reach ended (pure a) (pure a) :=
  ⟨fun _ _ _ _ hshares => .done (Nat.le_refl _) hshares, fun _ _ hstream => .ok hstream⟩

theorem Follows.throw {diagnostic : Diagnostic} (h : ended → Late last diagnostic) :
    Follows last reach ended (throw diagnostic : Parse α) (throw diagnostic) :=
  ⟨fun _ _ _ _ _ => .failed, fun hended _ _ => .error (h hended)⟩

theorem Spent.bind {m : Parse α} {next : α → Parse β} (h : Spent last (m.run cursor))
    (hnext : ∀ a ⦃cursor : Cursor⦄, cursor.stream = [.ok last] → Spent last ((next a).run cursor)) :
    Spent last ((m >>= next).run cursor) := by
  rw [EStateM.run_bind]
  generalize m.run cursor = result at h
  cases h with
  | ok hstream => exact hnext _ hstream
  | error hlate => exact .error hlate

theorem Follows.bind {m m' : Parse α} {next next' : α → Parse β}
    (h : Follows last reach ended m m')
    (hnext : ∀ a, Follows last reach True (next a) (next' a)) :
    Follows last reach ended (m >>= next) (m' >>= next') := by
  constructor
  · intro count cursor cursor' hcount hshares
    have hfollowed := h.shared hcount hshares
    rw [EStateM.run_bind, EStateM.run_bind]
    generalize m.run cursor = result at hfollowed
    generalize m'.run cursor' = result' at hfollowed
    cases hfollowed with
    | done hle hshares =>
        exact ((hnext _).shared (Nat.lt_of_le_of_lt hle hcount) hshares).mono hle
    | failed => exact .failed
    | spent hspent =>
        cases hspent with
        | ok hstream => exact .spent ((hnext _).spent trivial hstream)
        | error hlate => exact .spent (.error hlate)
  · intro hended cursor hstream
    exact (h.spent hended hstream).bind fun a => (hnext a).spent trivial

/-- What follows a look at the current token has to be spent only if that is the end
token. -/
theorem Follows.bind_current {next next' : Token → Parse β}
    (hnext : ∀ token, Follows last reach (token = last) (next token) (next' token)) :
    Follows last reach ended (current >>= next) (current >>= next') := by
  have hspent : ∀ ⦃cursor : Cursor⦄, cursor.stream = [.ok last] →
      Spent last ((current >>= next).run cursor) := by
    intro cursor hstream
    have hcurrent : cursor.current = last := by
      simpa [Cursor.stream] using (List.cons.inj hstream).1
    rw [EStateM.run_bind, run_current]
    exact (hnext _).spent hcurrent hstream
  refine ⟨?_, fun _ => hspent⟩
  intro count cursor cursor' hcount hshares
  cases count with
  | zero => exact .spent (hspent hshares.zero)
  | succ count =>
      obtain ⟨_, _, _, _, _, _, hcurrent, _⟩ := hshares.succ
      rw [EStateM.run_bind, EStateM.run_bind, run_current, run_current, hcurrent]
      exact (hnext _).shared hcount hshares

/-- What follows a token that is taken has one shared token less before it. -/
theorem Follows.bind_advance {next next' : Token → Parse β}
    (hnext : ∀ token, Follows last reach (token = last) (next token) (next' token)) :
    Follows last (reach + 1) ended (advance >>= next) (advance >>= next') := by
  have hspent : ∀ ⦃cursor : Cursor⦄, cursor.stream = [.ok last] →
      Spent last ((advance >>= next).run cursor) := by
    rintro ⟨token, ahead, log⟩ hstream
    obtain ⟨hcurrent, rfl⟩ := List.cons.inj hstream
    rw [EStateM.run_bind, run_advance_nil]
    exact (hnext _).spent (Except.ok.inj hcurrent) hstream
  refine ⟨?_, fun _ => hspent⟩
  rintro count ⟨token, ahead, log⟩ ⟨token', ahead', log'⟩ hcount hshares
  cases count with
  | zero => exact .spent (hspent hshares.zero)
  | succ count =>
      obtain ⟨_, _, _, _, rfl, rfl, rfl, hless⟩ := hshares.succ
      rw [EStateM.run_bind, EStateM.run_bind, run_advance_ok, run_advance_ok]
      exact ((hnext _).shared (by omega) (hless _ _)).mono (Nat.le_succ count)

theorem Follows.advance : Follows last reach ended advance advance := by
  rw [← bind_pure Parse.advance]
  exact (Follows.bind_advance fun token => .pure token).mono (Nat.le_succ reach) id

theorem Follows.bind_record (event : Event) {next next' : Parse β}
    (hnext : Follows last reach ended next next') :
    Follows last reach ended (record event >>= fun _ => next) (record event >>= fun _ => next') :=
  ⟨fun _ _ _ hcount hshares => hnext.shared hcount hshares,
    fun hended _ hstream => @Follows.spent _ _ _ _ _ _ hnext hended _ hstream⟩

end Steps

section Rules

variable {last : Token} {reach : Nat} {operand operand' : Operand}

theorem late_at {token : Token} {diagnostic : Diagnostic}
    (hposition : diagnostic.position = token.span.start) (h : token = last) :
    Late last diagnostic :=
  .inl (hposition.trans (congrArg (·.span.start) h))

theorem Follows.expectClosing (table : OperatorTable) (delimiter : Delimiter) {ended : Prop} :
    Follows last reach ended (expectClosing table delimiter) (expectClosing table delimiter) := by
  apply Follows.bind_current
  intro token
  split
  · exact .advance
  · exact .throw (late_at OperatorTable.position_misplaced)

theorem Follows.ensureAssignable (target : Expr) {ended : Prop} :
    Follows last reach ended (ensureAssignable target) (ensureAssignable target) := by
  unfold Parse.ensureAssignable
  split
  · exact .pure ()
  · exact .throw fun _ => .inr ⟨_, rfl⟩

theorem Follows.failHere {α : Type} (cause : Cause) {ended : Prop} :
    Follows last reach ended (failHere cause : Parse α) (failHere cause) := by
  have hfail : ∀ token : Token, Follows last reach (token = last)
      (MonadExcept.throw (⟨cause, token.span.start⟩ : Diagnostic) : Parse α)
      (MonadExcept.throw (⟨cause, token.span.start⟩ : Diagnostic)) :=
    fun token => .throw (late_at rfl)
  exact .bind_current hfail

def OperandFollows (last : Token) (reach : Nat) (operand operand' : Operand) : Prop :=
  ∀ open? bound, Follows last reach True (operand open? bound) (operand' open? bound)

theorem OperandFollows.mono {reach' : Nat} (h : OperandFollows last reach operand operand')
    (hle : reach' ≤ reach) : OperandFollows last reach' operand operand' :=
  fun open? bound => (h open? bound).mono hle id

theorem OperandFollows.applyNull (h : OperandFollows last reach operand operand')
    (table : OperatorTable) (open? : Option Delimiter) (binding : Binding NullRule)
    (token : Token) :
    Follows last reach (token = last) (applyNull table operand open? binding token)
      (applyNull table operand' open? binding token) := by
  unfold Parse.applyNull
  split
  case h_1 => exact .throw (late_at rfl)
  case h_2 => exact .throw (late_at rfl)
  case h_3 => exact .throw (late_at Delimiter.position_missingOperand)
  case h_4 => exact .pure _
  case h_5 =>
    exact .bind (h _ _).whenever fun inner => .bind (.expectClosing table .group) fun _ => .pure _
  case h_6 => exact .bind (h _ _).whenever fun inner => .pure _
  case h_7 =>
    exact .bind (h _ _).whenever fun inner => .bind (.ensureAssignable inner) fun _ => .pure _

/-- A loop that makes no round on the longer stream follows nothing, but is spent as
it would be for any number of rounds. -/
theorem Follows.of_spent {α : Type} {m m' m'' : Parse α} {ended : Prop}
    (h : Follows last 0 ended m m') : Follows last 0 ended m m'' :=
  ⟨fun _ _ _ hcount => absurd hcount (Nat.not_lt_zero _), h.spent⟩

theorem OperandFollows.arguments (h : OperandFollows last reach operand operand') (bound : Int)
    {rounds rounds' : Nat} (hrounds : reach ≤ rounds) (hrounds' : reach ≤ rounds') :
    Follows last reach True (arguments operand bound rounds) (arguments operand' bound rounds') := by
  induction rounds generalizing reach rounds' with
  | zero =>
      obtain rfl := Nat.le_zero.mp hrounds
      exact (Follows.pure []).of_spent
  | succ rounds ih =>
      have hsucc : ∀ rounds', reach - 1 ≤ rounds' →
          Follows last reach True (Parse.arguments operand bound (rounds + 1))
            (Parse.arguments operand' bound (rounds' + 1)) := by
        intro rounds' hrounds'
        apply Follows.bind_current
        intro token
        split
        · exact .pure []
        · split
          · exact .throw (late_at rfl)
          · refine .bind (h _ _).whenever fun first => ?_
            apply Follows.bind_current
            intro separator
            split
            · have hrest := ih (h.mono (Nat.sub_le reach 1)) (by omega) hrounds'
              -- The next round begins behind a comma, with one shared token less.
              refine Follows.mono (.bind_advance fun _ => ?_) (by omega : reach ≤ reach - 1 + 1) id
              exact .bind hrest.whenever fun rest => .pure _
            · exact .pure _
      cases rounds' with
      | zero =>
          obtain rfl := Nat.le_zero.mp hrounds'
          exact (hsucc 0 (Nat.zero_le _)).of_spent
      | succ rounds' => exact hsucc rounds' (by omega)

theorem OperandFollows.ternary (h : OperandFollows last reach operand operand')
    (table : OperatorTable) (open? : Option Delimiter) (condition : Expr) (bound : Int) :
    Follows last reach True (ternary table operand open? condition bound)
      (ternary table operand' open? condition bound) := by
  refine .bind (h _ _) fun positive => ?_
  apply Follows.bind_current
  intro token
  split
  · refine Follows.mono (Follows.bind_advance fun _ => ?_) (Nat.le_succ reach) id
    exact .bind (h _ _).whenever fun negative => .pure _
  · exact .throw (late_at OperatorTable.position_misplaced)

theorem OperandFollows.applyLeft (h : OperandFollows last reach operand operand')
    (table : OperatorTable) {steps steps' : Nat} (hsteps : reach ≤ steps) (hsteps' : reach ≤ steps')
    (open? : Option Delimiter) (binding : Binding LeftRule) (token : Token) (left : Expr) :
    Follows last reach (token = last) (applyLeft table steps operand open? binding token left)
      (applyLeft table steps' operand' open? binding token left) := by
  have hbinary : Follows last reach True (binary operand open? token left binding.rightPower)
      (binary operand' open? token left binding.rightPower) :=
    .bind (h _ _) fun right => .pure _
  unfold Parse.applyLeft
  split
  case h_1 => exact .throw (late_at rfl)
  case h_2 => exact .throw (late_at rfl)
  case h_3 => exact hbinary.whenever
  case h_4 => exact .bind (.ensureAssignable left) fun _ => hbinary
  case h_5 => exact (h.ternary table open? left _).whenever
  case h_6 => exact .bind (h _ _).whenever fun right => .pure _
  case h_7 =>
    exact .bind (h.arguments _ hsteps hsteps').whenever fun values =>
      .bind (.expectClosing table .arguments) fun _ => .pure _
  case h_8 =>
    exact .bind (h _ _).whenever fun place => .bind (.expectClosing table .index) fun _ => .pure _
  case h_9 => exact .pure _

theorem OperandFollows.extend (h : OperandFollows last reach operand operand')
    (table : OperatorTable) {steps steps' : Nat} (hsteps : reach ≤ steps) (hsteps' : reach ≤ steps')
    (open? : Option Delimiter) (bound : Int) {rounds rounds' : Nat} (hrounds : reach ≤ rounds)
    (hrounds' : reach ≤ rounds') (next : Int) (left : Expr) :
    Follows last reach True (extend table steps operand open? bound rounds next left)
      (extend table steps' operand' open? bound rounds' next left) := by
  induction rounds generalizing reach rounds' next left with
  | zero =>
      obtain rfl := Nat.le_zero.mp hrounds
      exact (Follows.pure left).of_spent
  | succ rounds ih =>
      have hsucc : ∀ rounds', reach - 1 ≤ rounds' →
          Follows last reach True
            (Parse.extend table steps operand open? bound (rounds + 1) next left)
            (Parse.extend table steps' operand' open? bound (rounds' + 1) next left) := by
        intro rounds' hrounds'
        have hless := h.mono (Nat.sub_le reach 1)
        apply Follows.bind_current
        intro token
        dsimp only
        split
        · refine Follows.mono (.bind_advance fun token => ?_) (by omega : reach ≤ reach - 1 + 1) id
          apply Follows.bind_record
          exact .bind (hless.applyLeft table (by omega) (by omega) open? _ token left) fun left =>
            ih hless (by omega) (by omega) (by omega) hrounds' _ left
        · exact .pure left
      cases rounds' with
      | zero =>
          obtain rfl := Nat.le_zero.mp hrounds'
          exact (hsucc 0 (Nat.zero_le _)).of_spent
      | succ rounds' => exact hsucc rounds' (by omega)

theorem operandFollows (last : Token) (table : OperatorTable) (limit : Nat) {steps steps' : Nat}
    (budget : Nat) (hsteps : reach ≤ steps) (hsteps' : reach ≤ steps') :
    OperandFollows last reach (expression table limit steps budget)
      (expression table limit steps' budget) := by
  induction budget with
  | zero =>
      intro open? bound
      exact .failHere _
  | succ budget ih =>
      intro open? bound
      apply Follows.bind_current
      intro first
      split
      · exact .failHere _
      · refine Follows.mono (.bind_advance fun token => ?_) (Nat.le_succ reach) id
        apply Follows.bind_record
        exact .bind (ih.applyNull table open? _ token) fun left =>
          ih.extend table hsteps hsteps' open? bound hsteps hsteps' _ left

end Rules

end Parse

/-- A parse of the longer stream goes along with one of the shorter stream. -/
theorem Parser.complete_followed (parser : Parser) {last : Token} {count : Nat}
    {cursor cursor' : Cursor} (h : Parse.Shares last count cursor cursor') :
    Parse.Followed last count (parser.complete.run cursor) (parser.complete.run cursor') := by
  -- Either stream is longer than what they share, so neither loop runs out of rounds there.
  have hsteps : count < cursor.steps ∧ count < cursor'.steps := by
    obtain ⟨shared, more, rfl, hmore, hstream, hstream'⟩ := h
    have hlength := congrArg List.length hstream
    have hlength' := congrArg List.length hstream'
    simp only [Cursor.stream, List.length_cons, List.length_append, List.length_map] at hlength hlength'
    unfold Cursor.steps
    omega
  have hoperand := Parse.operandFollows last parser.table parser.limit parser.limit
    (Nat.succ_le_of_lt hsteps.1) (Nat.succ_le_of_lt hsteps.2)
  unfold complete
  rw [EStateM.run_bind, EStateM.run_bind, EStateM.run_get, EStateM.run_get]
  dsimp only
  refine @Parse.Follows.shared _ _ (count + 1) True _ _ ?_ _ _ _ (Nat.lt_succ_self count) h
  refine .bind (hoperand none minPower) fun expr => ?_
  apply Parse.Follows.bind_current
  intro token
  cases hleftover : parser.table.leftover? token with
  | none => exact .pure expr
  | some diagnostic => exact .throw (Parse.late_at (OperatorTable.position_leftover hleftover))

namespace Parser

/-- A parse sees of a source only its stream. -/
theorem parse_congr (parser : Parser) {source source' : String}
    (h : TokenStream.ofSource source = TokenStream.ofSource source') :
    parser.parse source = parser.parse source' := by
  have hstart : Cursor.start source = Cursor.start source' := by
    have hsealed := TokenStream.ofSource_sealed source
    unfold Cursor.start
    rw [← h]
    split
    · rfl
    · rfl
    · rename_i hsource
      rw [hsource] at hsealed
      cases hsealed
  unfold parse run
  rw [hstart]

theorem toList_append_blank (source rest : String) :
    (source ++ " " ++ rest).toList = source.toList ++ ' ' :: rest.toList := by
  simp

/-- Nothing behind a source that breaks off is read. -/
theorem parse_append_of_broken (parser : Parser) {source : String} {broken : Diagnostic}
    (h : tokenize source = .error broken) (rest : String) :
    parser.parse (source ++ " " ++ rest) = parser.parse source := by
  obtain ⟨front, position, hscans | ⟨c, others, hscans, hseparator, hlexeme⟩⟩ :=
    exists_scans 0 source.toList
  · cases h.symm.trans hscans.tokenize
  · have hclear : Clear (' ' :: rest.toList) := .cons rfl
    have hlexeme' := (lexeme?_before_clear (List.cons_ne_nil c others) hclear).trans hlexeme
    apply parse_congr
    rw [TokenStream.ofSource, TokenStream.ofSource, toList_append_blank,
      (hscans.extend hclear).scan_eq, hscans.scan_eq, TokenStream.scan_stuck hseparator hlexeme]
    exact congrArg _ (TokenStream.scan_stuck hseparator hlexeme' position)

theorem exists_start {source : String} {tokens : List Token} (hne : tokens ≠ [])
    (h : TokenStream.ofSource source = tokens.map .ok) :
    ∃ cursor, Cursor.start source = .ok cursor ∧ cursor.stream = tokens.map .ok := by
  obtain ⟨token, others, rfl⟩ := List.exists_cons_of_ne_nil hne
  obtain ⟨cursor, hstart⟩ := Cursor.start_of_tokens (h ▸ TokenStream.tokens_map_ok (token :: others))
  exact ⟨cursor, hstart, (Cursor.start_stream hstart).trans h⟩

/-- What a source that is read to its end is refused for, unless for that end or a
target, it is refused for with more text behind it. -/
theorem parse_append_of_scans (parser : Parser) {source rest : String} {front : List Token}
    {stop : Nat} {diagnostic : Diagnostic} (hscans : Scans 0 source.toList front stop [])
    (hrest : ∀ c ∈ rest.toList, isSourceChar c)
    (h : parser.parse source = .error diagnostic)
    (hlate : ¬Parse.Late (.endAt stop) diagnostic) :
    parser.parse (source ++ " " ++ rest) = .error diagnostic := by
  have hblank : ∀ c ∈ ' ' :: rest.toList, isSourceChar c := by
    simpa using ⟨by decide, hrest⟩
  obtain ⟨behind, stop', hbehind⟩ := exists_scans_of_isSourceChar stop hblank
  have hwhole := (hscans.extend (.cons rfl)).trans hbehind
  rw [← toList_append_blank] at hwhole
  obtain ⟨cursor, hstart, hcursor⟩ := exists_start (by simp) hscans.ofSource_eq
  obtain ⟨cursor', hstart', hcursor'⟩ := exists_start (by simp) hwhole.ofSource_eq
  have hshares : Parse.Shares (.endAt stop) front.length cursor cursor' :=
    ⟨front, behind ++ [Token.endAt stop'], rfl, by simp, by simp [hcursor], by simp [hcursor']⟩
  have hfollowed := parser.complete_followed hshares
  unfold parse run at h ⊢
  rw [hstart] at h
  rw [hstart']
  dsimp only at h ⊢
  generalize parser.complete.run cursor = result at h hfollowed
  generalize parser.complete.run cursor' = result' at hfollowed
  cases hfollowed with
  | done => cases h
  | failed =>
      cases h
      rfl
  | spent hspent =>
      cases hspent with
      | ok => cases h
      | error hfound =>
          cases h
          exact absurd hfound hlate

end Parser

/-- A diagnostic is final: no text behind the source changes it, unless it is for the
end of the source or for the target of an assignment. One for a foreign character is
final in any case. -/
theorem Parser.parse_append (parser : Parser) {source : String} {diagnostic : Diagnostic}
    (hlength : source.utf8ByteSize < 0x100000000)
    (h : parser.parse source = .error diagnostic) :
    (diagnostic.position < source.utf8ByteSize →
      (∀ target, diagnostic.cause ≠ .invalidTarget target) →
      ∀ rest : String, (∀ c ∈ rest.toList, isSourceChar c) →
        parser.parse (source ++ " " ++ rest) = .error diagnostic) ∧
    (diagnostic.cause.isLexical →
      ∀ rest : String, parser.parse (source ++ " " ++ rest) = .error diagnostic) := by
  constructor
  · intro hposition htarget rest hrest
    cases htokens : tokenize source with
    | error broken => rw [parse_append_of_broken parser htokens, h]
    | ok tokens =>
        obtain ⟨front, stop, _, hscans⟩ := Scans.of_tokenize htokens
        apply parse_append_of_scans parser hscans hrest h
        have hstop := hscans.position_eq
        rintro (hend | ⟨target, hcause⟩)
        · have hstart : (Token.endAt stop).span.start = stop := offset_of_lt (by omega)
          omega
        · exact htarget target hcause
  · intro hlexical rest
    rw [parse_append_of_broken parser (tokenize_of_lexical h hlexical), h]

theorem Parser.parse_append_trailing :
    ("a b".utf8ByteSize < 0x100000000 ∧
      (Parser.ofC 8).parse "a b" = .error ⟨.trailingInput "b", 2⟩ ∧
      (2 < "a b".utf8ByteSize ∧ ∀ c ∈ "? c + ]".toList, isSourceChar c) ∧
      (Parser.ofC 8).parse ("a b" ++ " " ++ "? c + ]") = .error ⟨.trailingInput "b", 2⟩) ∧
    ("a + $".utf8ByteSize < 0x100000000 ∧
      (Parser.ofC 8).parse "a + $" = .error ⟨.foreignCharacter '$', 4⟩ ∧
      (Parser.ofC 8).parse ("a + $" ++ " " ++ "λ b") = .error ⟨.foreignCharacter '$', 4⟩) := by
  have hlength : "a b".utf8ByteSize < 0x100000000 := by decide +kernel
  have hparse : (Parser.ofC 8).parse "a b" = .error ⟨.trailingInput "b", 2⟩ := by decide +kernel
  have hposition : 2 < "a b".utf8ByteSize := by decide +kernel
  have hrest : ∀ c ∈ "? c + ]".toList, isSourceChar c :=
    List.all_eq_true.mp (by decide +kernel)
  have hforeign : (Parser.ofC 8).parse "a + $" = .error ⟨.foreignCharacter '$', 4⟩ := by
    decide +kernel
  constructor
  · exact ⟨hlength, hparse, ⟨hposition, hrest⟩,
      (parse_append (.ofC 8) hlength hparse).1 hposition (by simp) _ hrest⟩
  · exact ⟨by decide +kernel, hforeign,
      (parse_append (.ofC 8) (by decide +kernel) hforeign).2 rfl _⟩

end Precedence
