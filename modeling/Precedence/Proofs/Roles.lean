import Precedence.Proofs.CTable
import Precedence.Proofs.Dispatch
import Precedence.Proofs.Registration
import Precedence.Proofs.Termination
import Precedence.Proofs.Yield

/-!
What every token of an expression is there for. The source of an expression spells it
with operands, operators and opening brackets, which are taken one after the other and
leave an event each, and with the tokens between and behind operands that the rules
expect, which leave none: closing brackets, the colons of conditionals, and the commas
of argument lists.
-/

namespace Precedence

open Parse

inductive Role where
  /-- It begins an operand, or follows one. -/
  | taken
  | closing
  /-- It stands between the last two operands of a conditional. -/
  | colon
  /-- It stands behind an argument of a call. -/
  | separator
  deriving DecidableEq

def Role.Fits : Role → Token → Prop
  | .taken, token => ¬token.is ")" ∧ ¬token.is "]" ∧ ¬token.is ":"
  | .closing, token => token.is ")" ∨ token.is "]"
  | .colon, token => token.is ":"
  | .separator, token => token.is ","

abbrev RoleText := List (Token × Role)

def RoleText.taken (text : RoleText) : List Token :=
  (text.filter fun word => word.2 = .taken).map Prod.fst

mutual

/-- The texts that the rules of a table read as an expression, with what their tokens are
there for. -/
inductive Expr.Roles (table : OperatorTable) : Expr → RoleText → Prop
  | leaf (token : Token) (hrule : (table.null token).rule = .literal) :
      Expr.Roles table (.leaf token) [(token, .taken)]
  | group {expr : Expr} {text : RoleText} (opening closing : Token)
      (hrule : (table.null opening).rule = .grouping) (h : Expr.Roles table expr text) :
      Expr.Roles table expr.group ((opening, .taken) :: (text ++ [(closing, .closing)]))
  | leading {inner : Expr} {text : RoleText} (operator : Token) (span : Span)
      (hrule : (table.null operator).rule = .prefixed ∨ (table.null operator).rule = .prefixUpdate)
      (h : Expr.Roles table inner text) :
      Expr.Roles table (.node operator.value [inner] false span) ((operator, .taken) :: text)
  | trailing {left : Expr} {text : RoleText} (operator : Token) (span : Span)
      (hrule : (table.left operator).rule = .suffixed) (h : Expr.Roles table left text) :
      Expr.Roles table (.node ("post" ++ operator.value) [left] false span)
        (text ++ [(operator, .taken)])
  | between {left right : Expr} {text text' : RoleText} (operator : Token) (span : Span)
      (hrule : (table.left operator).rule = .binary ∨ (table.left operator).rule = .assignment)
      (h : Expr.Roles table left text) (h' : Expr.Roles table right text') :
      Expr.Roles table (.node operator.value [left, right] false span)
        (text ++ (operator, .taken) :: text')
  | conditional {condition positive negative : Expr} {text text' text'' : RoleText}
      (question colon : Token) (span : Span) (hrule : (table.left question).rule = .ternary)
      (h : Expr.Roles table condition text) (h' : Expr.Roles table positive text')
      (h'' : Expr.Roles table negative text'') :
      Expr.Roles table (.node "?" [condition, positive, negative] false span)
        (text ++ (question, .taken) :: (text' ++ (colon, .colon) :: text''))
  | sequence {left right : Expr} {text text' : RoleText} (comma : Token)
      (hrule : (table.left comma).rule = .comma) (h : Expr.Roles table left text)
      (h' : Expr.Roles table right text') :
      Expr.Roles table (Parse.sequence left right) (text ++ (comma, .taken) :: text')
  | call {callee : Expr} {values : List Expr} {text text' : RoleText} (opening closing : Token)
      (span : Span) (hrule : (table.left opening).rule = .call) (h : Expr.Roles table callee text)
      (h' : ArgumentRoles table values text') :
      Expr.Roles table (.node "call" (callee :: values) false span)
        (text ++ (opening, .taken) :: (text' ++ [(closing, .closing)]))
  | index {target place : Expr} {text text' : RoleText} (opening closing : Token) (span : Span)
      (hrule : (table.left opening).rule = .index) (h : Expr.Roles table target text)
      (h' : Expr.Roles table place text') :
      Expr.Roles table (.node "get" [target, place] false span)
        (text ++ (opening, .taken) :: (text' ++ [(closing, .closing)]))

inductive ArgumentRoles (table : OperatorTable) : List Expr → RoleText → Prop
  | none : ArgumentRoles table [] []
  | last {value : Expr} {text : RoleText} (h : Expr.Roles table value text) :
      ArgumentRoles table [value] text
  | more {value : Expr} {values : List Expr} {text text' : RoleText} (separator : Token)
      (h : Expr.Roles table value text) (h' : ArgumentRoles table values text') :
      ArgumentRoles table (value :: values) (text ++ (separator, .separator) :: text')

end

/-- Closing brackets and the colon neither begin an operand nor follow one. -/
def OperatorTable.Reserves (table : OperatorTable) : Prop :=
  ∀ symbol ∈ [")", "]", ":"],
    ((table.nullOfSymbol symbol).rule = .unregistered ∨ (table.nullOfSymbol symbol).rule = .error ∨
      (table.nullOfSymbol symbol).rule = .closing) ∧
    ((table.leftOfSymbol symbol).rule = .unregistered ∨ (table.leftOfSymbol symbol).rule = .error)

theorem CTable.reserves : cTable.Reserves := by
  unfold OperatorTable.Reserves
  decide +kernel

def Cursor.taken (cursor : Cursor) : List Token := cursor.log.reverse.filterMap Event.taken?

namespace Parse

/-- Between the two cursors the text was read, and the log has grown by the tokens of it
that are taken. -/
structure Told (cursor : Cursor) (text : RoleText) (cursor' : Cursor) : Prop where
  tokens_eq : cursor.tokens = text.map Prod.fst ++ cursor'.tokens
  taken_eq : cursor'.taken = cursor.taken ++ text.taken
  fits : ∀ word ∈ text, word.2.Fits word.1

section Steps

variable {cursor between cursor' : Cursor} {text text' : RoleText} {token : Token} {count : Nat}

theorem Told.nil (cursor : Cursor) : Told cursor [] cursor :=
  ⟨rfl, by simp [RoleText.taken], by simp⟩

theorem Told.append (h : Told cursor text between) (h' : Told between text' cursor') :
    Told cursor (text ++ text') cursor' := by
  refine ⟨?_, ?_, ?_⟩
  · rw [h.tokens_eq, h'.tokens_eq, List.map_append, List.append_assoc]
  · rw [h'.taken_eq, h.taken_eq, RoleText.taken, RoleText.taken, RoleText.taken,
      List.filter_append, List.map_append, List.append_assoc]
  · intro word hword
    rcases List.mem_append.mp hword with hword | hword
    · exact h.fits word hword
    · exact h'.fits word hword

/-- Moving on is no event that takes a token. -/
theorem taken_advance (hrun : advance.run cursor = .ok token between) :
    between.taken = cursor.taken := by
  obtain ⟨current, ahead, log⟩ := cursor
  cases ahead with
  | nil =>
      cases hrun
      rfl
  | cons item ahead =>
      cases item with
      | error diagnostic => cases hrun
      | ok next =>
          cases hrun
          unfold Cursor.taken Cursor.sighting
          split <;> simp [Event.taken?]

/-- A token that a rule expects is read without an event. -/
theorem told_expected (hwithin : cursor.Within count) (hend : ¬cursor.current.isEnd)
    (hrun : advance.run cursor = .ok token between) {role : Role} (hrole : role ≠ .taken)
    (hfits : role.Fits token) : Told cursor [(token, role)] between := by
  obtain ⟨_, htokens, _⟩ := advance_sound hwithin hend hrun
  refine ⟨htokens, ?_, by simpa using hfits⟩
  rw [taken_advance hrun]
  simp [RoleText.taken, hrole]

/-- A token that is taken is read with an event. -/
theorem told_taken (hwithin : cursor.Within count) (hend : ¬cursor.current.isEnd)
    (hrun : advance.run cursor = .ok token between) {event : Event} {done : Unit}
    (hrecord : (record event).run between = .ok done cursor') (htaken : event.taken? = some token)
    (hfits : Role.taken.Fits token) : Told cursor [(token, .taken)] cursor' := by
  obtain ⟨_, htokens, _⟩ := advance_sound hwithin hend hrun
  cases hrecord
  refine ⟨htokens, ?_, by simpa using hfits⟩
  have hlog := taken_advance hrun
  unfold Cursor.taken at hlog ⊢
  simp [RoleText.taken, htaken, hlog]

theorem told_expectClosing {table : OperatorTable} {delimiter : Delimiter}
    (hwithin : cursor.Within count)
    (hrun : (expectClosing table delimiter).run cursor = .ok token between) :
    Told cursor [(token, .closing)] between := by
  simp only [expectClosing, run_bind_eq_ok, run_current, EStateM.Result.ok.injEq] at hrun
  obtain ⟨_, _, ⟨rfl, rfl⟩, hrun⟩ := hrun
  split at hrun
  · rename_i hclose
    obtain rfl := advance_token hrun
    refine told_expected hwithin (Token.not_isEnd_of_is hclose) hrun (by decide) ?_
    cases delimiter with
    | group => exact .inl hclose
    | arguments => exact .inl hclose
    | index => exact .inr hclose
  · exact absurd hrun run_throw_ne_ok

end Steps

def Tells (table : OperatorTable) (operand : Operand) (steps : Nat) : Prop :=
  ∀ ⦃open? : Option Delimiter⦄ ⦃bound : Int⦄ ⦃cursor cursor' : Cursor⦄ ⦃expr : Expr⦄ ⦃count : Nat⦄,
    count ≤ steps → cursor.Within count → (operand open? bound).run cursor = .ok expr cursor' →
    ∃ text, expr.Roles table text ∧ Told cursor text cursor'

section Rules

variable {operand : Operand} {reading : Reading} {steps count : Nat} {open? : Option Delimiter}
  {cursor cursor' : Cursor} {table : OperatorTable} {token : Token} {expr : Expr}
  (himp : Implements operand reading steps) (htells : Tells table operand steps)
  (hsteps : count ≤ steps) (hwithin : cursor.Within count)

include himp htells hsteps hwithin

theorem told_null
    (hrun : (applyNull table operand open? (table.null token) token).run cursor =
      .ok expr cursor') :
    ∃ text, expr.Roles table ((token, .taken) :: text) ∧ Told cursor text cursor' := by
  unfold applyNull at hrun
  split at hrun
  case h_1 => exact absurd hrun run_throw_ne_ok
  case h_2 => exact absurd hrun run_throw_ne_ok
  case h_3 => exact absurd hrun run_throw_ne_ok
  case h_4 hrule =>
    obtain ⟨rfl, rfl⟩ := run_pure_eq_ok.mp hrun
    exact ⟨[], .leaf token hrule, .nil cursor⟩
  case h_5 hrule =>
    simp only [grouping, run_bind_eq_ok, run_pure_eq_ok] at hrun
    obtain ⟨inner, between, hinner, close, last, hclose, rfl, rfl⟩ := hrun
    obtain ⟨text, hroles, htold⟩ := htells hsteps hwithin hinner
    obtain ⟨_, hbetween⟩ := himp.sound hsteps hwithin hinner
    exact ⟨text ++ [(close, .closing)], .group token close hrule hroles,
      htold.append (told_expectClosing hbetween hclose)⟩
  case h_6 hrule =>
    simp only [prefixed, run_bind_eq_ok, run_pure_eq_ok] at hrun
    obtain ⟨inner, between, hinner, rfl, rfl⟩ := hrun
    obtain ⟨text, hroles, htold⟩ := htells hsteps hwithin hinner
    exact ⟨text, .leading token _ (.inl hrule) hroles, htold⟩
  case h_7 hrule =>
    simp only [prefixUpdate, run_bind_eq_ok, run_pure_eq_ok, ensureAssignable_eq_ok] at hrun
    obtain ⟨inner, between, hinner, _, _, ⟨_, rfl⟩, rfl, rfl⟩ := hrun
    obtain ⟨text, hroles, htold⟩ := htells hsteps hwithin hinner
    exact ⟨text, .leading token _ (.inr hrule) hroles, htold⟩

theorem told_arguments {bound : Int} {values : List Expr} {rounds : Nat} (hrounds : count ≤ rounds)
    (hrun : (arguments operand bound rounds).run cursor = .ok values cursor') :
    ∃ text, ArgumentRoles table values text ∧ Told cursor text cursor' := by
  induction rounds generalizing cursor count values with
  | zero =>
      have hpos := hwithin.pos
      omega
  | succ rounds ih =>
      simp only [arguments, run_bind_eq_ok, run_current, EStateM.Result.ok.injEq] at hrun
      obtain ⟨_, _, ⟨rfl, rfl⟩, hrun⟩ := hrun
      split at hrun
      · obtain ⟨rfl, rfl⟩ := run_pure_eq_ok.mp hrun
        exact ⟨[], .none, .nil cursor⟩
      · split at hrun
        · exact absurd hrun run_throw_ne_ok
        · simp only [run_bind_eq_ok, run_current, EStateM.Result.ok.injEq] at hrun
          obtain ⟨first, between, hfirst, _, _, ⟨rfl, rfl⟩, hrun⟩ := hrun
          obtain ⟨text, hroles, htold⟩ := htells hsteps hwithin hfirst
          obtain ⟨_, hbetween⟩ := himp.sound hsteps hwithin hfirst
          split at hrun
          · rename_i hseparator
            simp only [run_bind_eq_ok, run_pure_eq_ok] at hrun
            obtain ⟨comma, next, hnext, others, last, hothers, rfl, rfl⟩ := hrun
            have hend := Token.not_isEnd_of_is hseparator
            obtain ⟨rfl, _, hnextWithin⟩ := advance_sound hbetween hend hnext
            have hcomma : Told between [(between.current, .separator)] next :=
              told_expected hbetween hend hnext (by decide) hseparator
            obtain ⟨text', hroles', htold'⟩ := ih (by omega) hnextWithin (by omega) hothers
            exact ⟨text ++ (between.current, .separator) :: text', .more _ hroles hroles',
              htold.append (hcomma.append htold')⟩
          · obtain ⟨rfl, rfl⟩ := run_pure_eq_ok.mp hrun
            exact ⟨text, .last hroles, htold⟩

/-- What an operator makes of the operand before it. -/
theorem told_left {left : Expr} {before : RoleText} (hleft : left.Roles table before)
    (hrun : (applyLeft table steps operand open? (table.left token) token left).run cursor =
      .ok expr cursor') :
    ∃ text, expr.Roles table (before ++ (token, .taken) :: text) ∧ Told cursor text cursor' := by
  unfold applyLeft at hrun
  split at hrun
  case h_1 => exact absurd hrun run_throw_ne_ok
  case h_2 => exact absurd hrun run_throw_ne_ok
  case h_3 hrule =>
    simp only [binary, run_bind_eq_ok, run_pure_eq_ok] at hrun
    obtain ⟨right, between, hright, rfl, rfl⟩ := hrun
    obtain ⟨text, hroles, htold⟩ := htells hsteps hwithin hright
    exact ⟨text, .between token _ (.inl hrule) hleft hroles, htold⟩
  case h_4 hrule =>
    simp only [assignment, binary, run_bind_eq_ok, run_pure_eq_ok, ensureAssignable_eq_ok] at hrun
    obtain ⟨_, _, ⟨_, rfl⟩, right, between, hright, rfl, rfl⟩ := hrun
    obtain ⟨text, hroles, htold⟩ := htells hsteps hwithin hright
    exact ⟨text, .between token _ (.inr hrule) hleft hroles, htold⟩
  case h_5 hrule =>
    simp only [ternary, run_bind_eq_ok, run_current, EStateM.Result.ok.injEq] at hrun
    obtain ⟨positive, between, hpositive, _, _, ⟨rfl, rfl⟩, hrun⟩ := hrun
    obtain ⟨text, hroles, htold⟩ := htells hsteps hwithin hpositive
    obtain ⟨_, hbetween⟩ := himp.sound hsteps hwithin hpositive
    split at hrun
    · rename_i hcolon
      simp only [run_bind_eq_ok, run_pure_eq_ok] at hrun
      obtain ⟨colon, behind, hadvance, negative, last, hnegative, rfl, rfl⟩ := hrun
      have hend := Token.not_isEnd_of_is hcolon
      obtain ⟨rfl, _, hbehind⟩ := advance_sound hbetween hend hadvance
      have htoken : Told between [(between.current, .colon)] behind :=
        told_expected hbetween hend hadvance (by decide) hcolon
      obtain ⟨text', hroles', htold'⟩ := htells (by omega) hbehind hnegative
      exact ⟨text ++ (between.current, .colon) :: text',
        .conditional token between.current _ hrule hleft hroles hroles',
        htold.append (htoken.append htold')⟩
    · exact absurd hrun run_throw_ne_ok
  case h_6 hrule =>
    simp only [comma, run_bind_eq_ok, run_pure_eq_ok] at hrun
    obtain ⟨right, between, hright, rfl, rfl⟩ := hrun
    obtain ⟨text, hroles, htold⟩ := htells hsteps hwithin hright
    exact ⟨text, .sequence token hrule hleft hroles, htold⟩
  case h_7 hrule =>
    simp only [call, run_bind_eq_ok, run_pure_eq_ok] at hrun
    obtain ⟨values, between, hvalues, close, last, hclose, rfl, rfl⟩ := hrun
    obtain ⟨text, hroles, htold⟩ := told_arguments himp htells hsteps hwithin hsteps hvalues
    obtain ⟨_, hbetween⟩ := arguments_sound himp hsteps hsteps hwithin hvalues
    exact ⟨text ++ [(close, .closing)], .call token close _ hrule hleft hroles,
      htold.append (told_expectClosing hbetween hclose)⟩
  case h_8 hrule =>
    simp only [index, run_bind_eq_ok, run_pure_eq_ok] at hrun
    obtain ⟨place, between, hplace, close, last, hclose, rfl, rfl⟩ := hrun
    obtain ⟨text, hroles, htold⟩ := htells hsteps hwithin hplace
    obtain ⟨_, hbetween⟩ := himp.sound hsteps hwithin hplace
    exact ⟨text ++ [(close, .closing)], .index token close _ hrule hleft hroles,
      htold.append (told_expectClosing hbetween hclose)⟩
  case h_9 hrule =>
    obtain ⟨rfl, rfl⟩ := run_pure_eq_ok.mp hrun
    exact ⟨[], .trailing token _ hrule hleft, .nil cursor⟩

end Rules

section Loop

variable {operand : Operand} {reading : Reading} {steps count : Nat} {open? : Option Delimiter}
  {cursor cursor' : Cursor} {table : OperatorTable} {token : Token} {expr : Expr}

/-- A token that an operand begins with is none of those that are expected. -/
theorem fits_of_null (htable : table.Reserves)
    (hrun : (applyNull table operand open? (table.null token) token).run cursor =
      .ok expr cursor') : Role.taken.Fits token := by
  have hnot : ∀ symbol ∈ [")", "]", ":"], ¬token.is symbol := by
    intro symbol hsymbol his
    rw [OperatorTable.null_of_is his] at hrun
    unfold applyNull at hrun
    rcases (htable symbol hsymbol).1 with hrule | hrule | hrule <;>
    · rw [hrule] at hrun
      exact run_throw_ne_ok hrun
  exact ⟨hnot _ (by simp), hnot _ (by simp), hnot _ (by simp)⟩

/-- An operator behind an operand is none of those that are expected. -/
theorem fits_of_left (htable : table.Reserves) {left : Expr}
    (hrun : (applyLeft table steps operand open? (table.left token) token left).run cursor =
      .ok expr cursor') : Role.taken.Fits token := by
  have hnot : ∀ symbol ∈ [")", "]", ":"], ¬token.is symbol := by
    intro symbol hsymbol his
    rw [OperatorTable.left_of_is his] at hrun
    unfold applyLeft at hrun
    rcases (htable symbol hsymbol).2 with hrule | hrule <;>
    · rw [hrule] at hrun
      exact run_throw_ne_ok hrun
  exact ⟨hnot _ (by simp), hnot _ (by simp), hnot _ (by simp)⟩

theorem told_extend (htable : table.Reserves) (hinert : table.EndIsInert)
    (himp : Implements operand reading steps) (htells : Tells table operand steps) {rounds : Nat}
    (hrounds : count ≤ rounds) (hsteps : count ≤ steps) (hwithin : cursor.Within count)
    {bound next : Int} {left : Expr} {before : RoleText} (hleft : left.Roles table before)
    (hrun : (extend table steps operand open? bound rounds next left).run cursor =
      .ok expr cursor') :
    ∃ text, expr.Roles table (before ++ text) ∧ Told cursor text cursor' := by
  induction rounds generalizing cursor count next left before with
  | zero =>
      have hpos := hwithin.pos
      omega
  | succ rounds ih =>
      simp only [extend, run_bind_eq_ok, run_current, EStateM.Result.ok.injEq] at hrun
      obtain ⟨_, _, ⟨rfl, rfl⟩, hrun⟩ := hrun
      split at hrun
      · simp only [run_bind_eq_ok] at hrun
        obtain ⟨token, between, hadvance, _, behind, hrecord, step, after, hstep, hrun⟩ := hrun
        obtain rfl := advance_token hadvance
        have hend : ¬cursor.current.isEnd := by
          intro hend
          rcases hinert _ hend with hrule | hrule <;>
          · simp only [applyLeft, hrule] at hstep
            exact run_throw_ne_ok hstep
        obtain ⟨_, _, hbetween⟩ := advance_sound hwithin hend hadvance
        obtain ⟨_, hbehind⟩ := record_keeps hbetween hrecord
        have htaken := told_taken hwithin hend hadvance hrecord rfl (fits_of_left htable hstep)
        obtain ⟨text, hroles, htold⟩ :=
          told_left himp htells (by omega) hbehind hleft hstep
        obtain ⟨_, hafter⟩ := applyLeft_sound himp (by omega) hbehind hstep
        obtain ⟨text', hroles', htold'⟩ := ih (by omega) (by omega) hafter hroles hrun
        refine ⟨(cursor.current, .taken) :: text ++ text', by simpa using hroles', ?_⟩
        exact (htaken.append htold).append htold'
      · obtain ⟨rfl, rfl⟩ := run_pure_eq_ok.mp hrun
        exact ⟨[], by simpa using hleft, .nil cursor⟩

/-- Reading an expression tells what its text is. -/
theorem tells_expression (htable : table.Reserves) (hinert : table.EndIsInert)
    (limit steps budget : Nat) : Tells table (expression table limit steps budget) steps := by
  induction budget with
  | zero =>
      intro open? bound cursor cursor' expr count _ _ hrun
      cases hrun
  | succ budget ih =>
      intro open? bound cursor cursor' expr count hsteps hwithin hrun
      have himp := expression_implements hinert limit steps budget
      simp only [expression, run_bind_eq_ok, run_current, EStateM.Result.ok.injEq] at hrun
      obtain ⟨_, _, ⟨rfl, rfl⟩, hrun⟩ := hrun
      split at hrun
      · cases hrun
      · rename_i hend
        simp only [run_bind_eq_ok] at hrun
        obtain ⟨token, between, hadvance, _, behind, hrecord, left, after, hnull, hrun⟩ := hrun
        obtain rfl := advance_token hadvance
        obtain ⟨_, _, hbetween⟩ := advance_sound hwithin hend hadvance
        obtain ⟨_, hbehind⟩ := record_keeps hbetween hrecord
        have htaken := told_taken hwithin hend hadvance hrecord rfl (fits_of_null htable hnull)
        obtain ⟨text, hroles, htold⟩ := told_null himp ih (by omega) hbehind hnull
        obtain ⟨_, hafter⟩ := applyNull_sound himp (by omega) hbehind hnull
        obtain ⟨text', hroles', htold'⟩ :=
          told_extend htable hinert himp ih (by omega) (by omega) hafter hroles hrun
        exact ⟨_, hroles', (htaken.append htold).append htold'⟩

end Loop

end Parse

/-- Before the first token is taken the log takes none. -/
theorem Cursor.taken_start {source : String} {cursor : Cursor}
    (hstart : Cursor.start source = .ok cursor) : cursor.taken = [] := by
  unfold Cursor.start at hstart
  split at hstart
  · cases hstart
    unfold Cursor.taken Cursor.sighting
    split <;> rfl
  · cases hstart
  · cases hstart
    rfl

namespace Parser

/-- An accepted source has been read up to its end, and its events are the log there. -/
theorem run_eq_ok {parser : Parser} {source : String} {expr : Expr}
    (h : (parser.run source).result = .ok expr) :
    ∃ cursor cursor', Cursor.start source = .ok cursor ∧
      (Parse.expression parser.table parser.limit cursor.steps parser.limit none
        minPower).run cursor = .ok expr cursor' ∧
      cursor'.current.isEnd ∧ (parser.run source).events = cursor'.log.reverse := by
  obtain ⟨cursor, cursor', hstart, hexpression, hend⟩ := parse_eq_ok_iff_run.mp h
  refine ⟨cursor, cursor', hstart, hexpression, hend, ?_⟩
  have hleftover : parser.table.leftover? cursor'.current = none :=
    OperatorTable.leftover?_eq_none_iff.mpr hend
  have hcomplete : parser.complete.run cursor = .ok expr cursor' := by
    simp only [complete, EStateM.run_bind, EStateM.run_get, Parse.run_current, hexpression]
    rw [hleftover]
    rfl
  simp only [run, hstart, hcomplete]

/-- The tokens that an accepted source of the C grammar has no event for are those that
close a bracket, stand between the last operands of a conditional, or behind an
argument. -/
theorem roles_of_run {limit : Nat} {source : String} {expr : Expr}
    (h : ((Parser.ofC limit).run source).result = .ok expr) :
    ∃ text last, (TokenStream.ofSource source).tokens = text.map Prod.fst ++ [last] ∧
      last.isEnd ∧ expr.Roles cTable text ∧
      ((Parser.ofC limit).run source).events.filterMap Event.taken? = text.taken ∧
      ∀ word ∈ text, word.2.Fits word.1 := by
  have hinert := OperatorTable.endIsInert_build build_cRegistrations
  obtain ⟨cursor, cursor', hstart, hexpression, hend, hevents⟩ := run_eq_ok h
  have hwithin := Cursor.start_within hstart
  have himp := expression_implements hinert limit cursor.steps limit
  obtain ⟨_, hwithin'⟩ := himp.sound (Nat.le_refl _) hwithin hexpression
  obtain ⟨text, hroles, htokens, htaken, hfits⟩ := tells_expression CTable.reserves hinert limit
    cursor.steps limit (Nat.le_refl _) hwithin hexpression
  rw [Cursor.tokens_of_end hwithin'.isSealed hend, Cursor.tokens, Cursor.start_stream hstart]
    at htokens
  rw [Cursor.taken_start hstart, List.nil_append] at htaken
  exact ⟨text, _, htokens, hend, hroles, hevents ▸ htaken, hfits⟩

/-- A parse takes every token at most once, in the order of the source and with exactly one
token of lookahead, and so it comes to an end: however many rounds its loops may make
and operands may nest from some numbers on, its outcome is the same. In the C grammar it
takes all tokens but those that rules expect behind operands. -/
theorem takes_tokens_once {registrations : List Registration} {table : OperatorTable}
    (hbuild : OperatorTable.build registrations = .ok table) (limit : Nat) (source : String) :
    (∀ rounds operands, (TokenStream.ofSource source).length < rounds → limit < operands →
      Parser.runWithin ⟨table, limit⟩ rounds operands source =
        some (Parser.run ⟨table, limit⟩ source)) ∧
    (∃ places, Dispatched (TokenStream.ofSource source).tokens
      (Parser.run ⟨table, limit⟩ source).events places) ∧
    (dispatches 0 (Parser.run ⟨table, limit⟩ source).events).length ≤
      Token.countWords (TokenStream.ofSource source).tokens + 1 ∧
    (table = cTable → ∀ expr, (Parser.run ⟨table, limit⟩ source).result = .ok expr →
      ∃ text last, (TokenStream.ofSource source).tokens = text.map Prod.fst ++ [last] ∧
        last.isEnd ∧ expr.Roles cTable text ∧
        (dispatches 0 (Parser.run ⟨table, limit⟩ source).events).map Prod.fst = text.taken ∧
        ∀ word ∈ text, word.2.Fits word.1) := by
  have hinert := OperatorTable.endIsInert_build hbuild
  obtain ⟨places, hplaces⟩ := @exists_places ⟨table, limit⟩ hinert source
  refine ⟨fun rounds operands => @runWithin_eq ⟨table, limit⟩ hinert source rounds operands,
    ⟨places, hplaces⟩, ?_, ?_⟩
  · exact Nat.le_trans hplaces.length_le (TokenStream.ofSource_sealed source).length_tokens_le
  · rintro rfl expr hresult
    rw [dispatches_tokens]
    exact roles_of_run hresult

theorem takes_tokens_once_call :
    let source := "f(a, b ? (c) : d,)[0]"
    let run := Parser.run ⟨cTable, 8⟩ source
    OperatorTable.build cRegistrations = .ok cTable ∧
      (dispatches 0 run.events).map (fun dispatch => (dispatch.1.value, dispatch.2)) =
        [("f", 2), ("(", 3), ("a", 4), ("b", 6), ("?", 7), ("(", 8), ("c", 9), ("d", 12),
          ("[", 15), ("0", 16)] ∧
      Parser.runWithin ⟨cTable, 8⟩ 18 9 source = some run ∧
      ∃ expr, run.result = .ok expr ∧ expr.sexp = "(get (call f a (? b c d)) 0)" ∧
        ∃ text last, (TokenStream.ofSource source).tokens = text.map Prod.fst ++ [last] ∧
          expr.Roles cTable text ∧ (dispatches 0 run.events).map Prod.fst = text.taken := by
  intro source run
  obtain ⟨hreturns, _, _, hroles⟩ := takes_tokens_once build_cRegistrations 8 source
  have hdispatches : (dispatches 0 run.events).map
      (fun dispatch => (dispatch.1.value, dispatch.2)) =
      [("f", 2), ("(", 3), ("a", 4), ("b", 6), ("?", 7), ("(", 8), ("c", 9), ("d", 12),
        ("[", 15), ("0", 16)] := by
    decide +kernel
  have hlength : (TokenStream.ofSource source).length < 18 := by decide +kernel
  obtain ⟨expr, hparse, hsexp⟩ := @exists_of_sexp ⟨cTable, 8⟩ source
    "(get (call f a (? b c d)) 0)" (by decide +kernel)
  obtain ⟨text, last, htokens, _, htext, htaken, _⟩ := hroles rfl expr hparse
  exact ⟨build_cRegistrations, hdispatches, hreturns 18 9 hlength (by decide), expr, hparse, hsexp,
    text, last, htokens, htext, htaken⟩

end Parser

end Precedence
