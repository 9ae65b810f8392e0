import Precedence.Proofs.Reading
import Precedence.Proofs.Stream

/-!
The relation of successful readings describes the parser exactly: `expression`
succeeds if and only if there is such a reading, and then with the same result.
The loops are bounded by a count of rounds; as long as that count exceeds the
items left in the stream, the bound is never met.
-/

namespace Precedence

theorem Token.not_isEnd_of_is {token : Token} {symbol : String} (h : token.is symbol) :
    ¬token.isEnd := by
  simp only [Token.is, Bool.and_eq_true, decide_eq_true_eq] at h
  simp [Token.isEnd, h.1]

namespace Cursor

def stream (cursor : Cursor) : TokenStream := .ok cursor.current :: cursor.ahead

def tokens (cursor : Cursor) : List Token := cursor.stream.tokens

theorem tokens_eq (cursor : Cursor) :
    cursor.tokens = cursor.current :: cursor.ahead.tokens := rfl

theorem tokens_ne_nil (cursor : Cursor) : cursor.tokens ≠ [] := List.cons_ne_nil _ _

section AtEnd

variable {cursor : Cursor} (hsealed : cursor.stream.Sealed) (hend : cursor.current.isEnd)

include hsealed hend

/-- Behind the end of the input there is nothing to move to. -/
theorem ahead_of_end : cursor.ahead = [] := by
  obtain ⟨current, ahead, log⟩ := cursor
  cases hsealed with
  | finished => rfl
  | more hnot _ => exact absurd hend hnot

theorem tokens_of_end : cursor.tokens = [cursor.current] := by
  rw [tokens_eq, ahead_of_end hsealed hend]
  rfl

/-- At the end of the input the cursor stays. -/
theorem run_advance_of_end : Parse.advance.run cursor = .ok cursor.current cursor := by
  have hahead := ahead_of_end hsealed hend
  obtain ⟨current, ahead, log⟩ := cursor
  obtain rfl : ahead = [] := hahead
  rfl

end AtEnd

/-- The cursor stands in a sealed stream with fewer than `count` items left. -/
structure Within (cursor : Cursor) (count : Nat) : Prop where
  isSealed : cursor.stream.Sealed
  short : cursor.stream.length < count

theorem Within.mono {cursor : Cursor} {count count' : Nat} (h : cursor.Within count)
    (hle : count ≤ count') : cursor.Within count' :=
  ⟨h.isSealed, by have := h.short; omega⟩

theorem Within.pos {cursor : Cursor} {count : Nat} (h : cursor.Within count) : 1 < count := by
  have hshort := h.short
  simp only [stream, List.length_cons] at hshort
  omega

end Cursor

/-- Behind an operand the end of the input has no rule that builds anything. -/
def OperatorTable.EndIsInert (table : OperatorTable) : Prop :=
  ∀ token : Token, token.isEnd →
    (table.left token).rule = .unregistered ∨ (table.left token).rule = .error

namespace Parse

theorem run_bind_eq_ok {α β : Type} {first : Parse α} {next : α → Parse β}
    {cursor cursor' : Cursor} {b : β} :
    (first >>= next).run cursor = .ok b cursor' ↔
      ∃ a between, first.run cursor = .ok a between ∧ (next a).run between = .ok b cursor' := by
  rw [EStateM.run_bind]
  cases first.run cursor with
  | ok a between =>
      constructor
      · intro h
        exact ⟨a, between, rfl, h⟩
      · rintro ⟨_, _, hfirst, hnext⟩
        cases hfirst
        exact hnext
  | error diagnostic between => simp

theorem run_pure_eq_ok {α : Type} {a b : α} {cursor cursor' : Cursor} :
    (pure a : Parse α).run cursor = .ok b cursor' ↔ a = b ∧ cursor = cursor' := by
  simp

theorem run_throw_ne_ok {α : Type} {diagnostic : Diagnostic} {a : α}
    {cursor cursor' : Cursor} :
    (throw diagnostic : Parse α).run cursor ≠ .ok a cursor' := by
  intro h
  cases h

/-- A token that does not end the input is taken off the tokens left. -/
theorem advance_sound {cursor cursor' : Cursor} {token : Token} {count : Nat}
    (hwithin : cursor.Within count) (hend : ¬cursor.current.isEnd)
    (hrun : advance.run cursor = .ok token cursor') :
    token = cursor.current ∧ cursor.tokens = token :: cursor'.tokens ∧
      cursor'.Within (count - 1) := by
  obtain ⟨current, ahead, log⟩ := cursor
  obtain ⟨hsealed, hshort⟩ := hwithin
  cases hsealed with
  | finished hlast => exact absurd hlast hend
  | more _ hahead =>
      cases ahead with
      | nil => cases hahead
      | cons item ahead =>
          cases item with
          | error diagnostic => cases hrun
          | ok next =>
              cases hrun
              refine ⟨rfl, rfl, hahead, ?_⟩
              simp only [Cursor.stream, List.length_cons] at hshort ⊢
              omega

theorem advance_token {cursor cursor' : Cursor} {token : Token}
    (hrun : advance.run cursor = .ok token cursor') : token = cursor.current := by
  obtain ⟨current, ahead, log⟩ := cursor
  cases ahead with
  | nil =>
      cases hrun
      rfl
  | cons item ahead =>
      cases item with
      | error diagnostic => cases hrun
      | ok next =>
          cases hrun
          rfl

/-- The cursor can be moved as long as another token is known. -/
theorem advance_complete {cursor : Cursor} {token next : Token} {rest : List Token} {count : Nat}
    (hwithin : cursor.Within count) (htokens : cursor.tokens = token :: next :: rest) :
    ∃ cursor', advance.run cursor = .ok token cursor' ∧ cursor'.tokens = next :: rest ∧
      cursor'.Within (count - 1) := by
  obtain ⟨current, ahead, log⟩ := cursor
  obtain ⟨hsealed, hshort⟩ := hwithin
  simp only [Cursor.tokens_eq, List.cons.injEq] at htokens
  obtain ⟨rfl, hahead⟩ := htokens
  cases ahead with
  | nil => cases hahead
  | cons item ahead =>
      cases item with
      | error diagnostic => cases hahead
      | ok other =>
          refine ⟨_, rfl, hahead, ?_, ?_⟩
          · cases hsealed with
            | more _ hrest => exact hrest
          · simp only [Cursor.stream, List.length_cons] at hshort ⊢
            omega

/-- The log has no part in what is read. -/
theorem record_keeps {event : Event} {done : Unit} {cursor cursor' : Cursor} {count : Nat}
    (hwithin : cursor.Within count) (hrun : (record event).run cursor = .ok done cursor') :
    cursor'.tokens = cursor.tokens ∧ cursor'.Within count := by
  cases hrun
  exact ⟨rfl, hwithin.isSealed, hwithin.short⟩

/-- An operand parser reads exactly what `reading` says, on every cursor with at
most `steps` items left, and always takes at least one of them. -/
structure Implements (operand : Operand) (reading : Reading) (steps : Nat) : Prop where
  sound : ∀ {open? : Option Delimiter} {bound : Int} {cursor cursor' : Cursor} {expr : Expr}
    {count : Nat}, count ≤ steps → cursor.Within count →
    (operand open? bound).run cursor = .ok expr cursor' →
    reading bound cursor.tokens expr cursor'.tokens ∧ cursor'.Within (count - 1)
  complete : ∀ (open? : Option Delimiter) {bound : Int} {cursor : Cursor} {expr : Expr}
    {rest : List Token} {count : Nat}, count ≤ steps → cursor.Within count →
    reading bound cursor.tokens expr rest →
    ∃ cursor', (operand open? bound).run cursor = .ok expr cursor' ∧
      cursor'.tokens = rest ∧ cursor'.Within (count - 1)

theorem expectClosing_sound {table : OperatorTable} {delimiter : Delimiter}
    {cursor cursor' : Cursor} {token : Token} {count : Nat} (hwithin : cursor.Within count)
    (hrun : (expectClosing table delimiter).run cursor = .ok token cursor') :
    token.is delimiter.closing ∧ cursor.tokens = token :: cursor'.tokens ∧
      cursor'.Within (count - 1) := by
  simp only [expectClosing, run_bind_eq_ok, run_current, EStateM.Result.ok.injEq] at hrun
  obtain ⟨_, _, ⟨rfl, rfl⟩, hrun⟩ := hrun
  split at hrun
  · rename_i hclose
    obtain ⟨rfl, htokens, hwithin'⟩ := advance_sound hwithin (Token.not_isEnd_of_is hclose) hrun
    exact ⟨hclose, htokens, hwithin'⟩
  · exact absurd hrun run_throw_ne_ok

theorem expectClosing_complete (table : OperatorTable) (delimiter : Delimiter)
    {cursor : Cursor} {token next : Token} {rest : List Token} {count : Nat}
    (hwithin : cursor.Within count) (htokens : cursor.tokens = token :: next :: rest)
    (hclose : token.is delimiter.closing) :
    ∃ cursor', (expectClosing table delimiter).run cursor = .ok token cursor' ∧
      cursor'.tokens = next :: rest ∧ cursor'.Within (count - 1) := by
  obtain ⟨cursor', hrun, hcursor'⟩ := advance_complete hwithin htokens
  have hcurrent : cursor.current = token := by
    rw [Cursor.tokens_eq] at htokens
    exact (List.cons.inj htokens).1
  refine ⟨cursor', ?_, hcursor'⟩
  simp only [expectClosing, run_bind_eq_ok, run_current, EStateM.Result.ok.injEq]
  refine ⟨_, _, ⟨rfl, rfl⟩, ?_⟩
  rw [hcurrent, if_pos hclose]
  exact hrun

theorem ensureAssignable_eq_ok {target : Expr} {done : Unit} {cursor cursor' : Cursor} :
    (ensureAssignable target).run cursor = .ok done cursor' ↔
      target.isAssignable ∧ cursor = cursor' := by
  unfold ensureAssignable
  split
  · rename_i htarget
    simp [htarget]
  · rename_i htarget
    simp only [htarget, Bool.false_eq_true, false_and, iff_false]
    exact run_throw_ne_ok

section Rules

variable {operand : Operand} {reading : Reading} {steps count : Nat} {open? : Option Delimiter}
  {cursor cursor' : Cursor}

theorem applyNull_sound (himp : Implements operand reading steps) {table : OperatorTable}
    {binding : Binding NullRule} {token : Token} {expr : Expr}
    (hsteps : count ≤ steps) (hwithin : cursor.Within count)
    (hrun : (applyNull table operand open? binding token).run cursor = .ok expr cursor') :
    NullReads reading binding token cursor.tokens expr cursor'.tokens ∧
      cursor'.Within count := by
  unfold applyNull at hrun
  split at hrun
  case h_1 => exact absurd hrun run_throw_ne_ok
  case h_2 => exact absurd hrun run_throw_ne_ok
  case h_3 => exact absurd hrun run_throw_ne_ok
  case h_4 hrule =>
    obtain ⟨rfl, rfl⟩ := run_pure_eq_ok.mp hrun
    exact ⟨.literal hrule, hwithin⟩
  case h_5 hrule =>
    simp only [grouping, run_bind_eq_ok, run_pure_eq_ok] at hrun
    obtain ⟨inner, between, hinner, close, last, hclose, rfl, rfl⟩ := hrun
    obtain ⟨hreading, hbetween⟩ := himp.sound hsteps hwithin hinner
    obtain ⟨hsymbol, htokens, hlast⟩ := expectClosing_sound hbetween hclose
    rw [htokens] at hreading
    exact ⟨.grouping hrule hreading hsymbol, hlast.mono (by omega)⟩
  case h_6 hrule =>
    simp only [prefixed, run_bind_eq_ok, run_pure_eq_ok] at hrun
    obtain ⟨inner, between, hinner, rfl, rfl⟩ := hrun
    obtain ⟨hreading, hbetween⟩ := himp.sound hsteps hwithin hinner
    exact ⟨.prefixed hrule hreading, hbetween.mono (by omega)⟩
  case h_7 hrule =>
    simp only [prefixUpdate, run_bind_eq_ok, run_pure_eq_ok, ensureAssignable_eq_ok] at hrun
    obtain ⟨inner, between, hinner, _, _, ⟨htarget, rfl⟩, rfl, rfl⟩ := hrun
    obtain ⟨hreading, hbetween⟩ := himp.sound hsteps hwithin hinner
    exact ⟨.prefixUpdate hrule hreading htarget, hbetween.mono (by omega)⟩

theorem applyNull_complete (himp : Implements operand reading steps) (table : OperatorTable)
    (open? : Option Delimiter) {binding : Binding NullRule} {token : Token} {expr : Expr}
    {rest : List Token} (hsteps : count ≤ steps) (hwithin : cursor.Within count)
    (hreads : NullReads reading binding token cursor.tokens expr rest) :
    ∃ cursor', (applyNull table operand open? binding token).run cursor = .ok expr cursor' ∧
      cursor'.tokens = rest ∧ cursor'.Within count := by
  generalize htokens : cursor.tokens = tokens at hreads
  cases hreads with
  | literal hrule =>
      refine ⟨cursor, ?_, htokens, hwithin⟩
      simp [applyNull, hrule]
  | grouping hrule hinner hclose =>
      subst htokens
      obtain ⟨between, hinner, htokens, hbetween⟩ :=
        himp.complete (some .group) hsteps hwithin hinner
      obtain ⟨last, hclose, hrest, hlast⟩ :=
        expectClosing_complete table .group hbetween htokens hclose
      refine ⟨last, ?_, hrest, hlast.mono (by omega)⟩
      simp only [applyNull, hrule, grouping, run_bind_eq_ok, run_pure_eq_ok]
      exact ⟨_, between, hinner, _, last, hclose, rfl, rfl⟩
  | prefixed hrule hinner =>
      subst htokens
      obtain ⟨between, hinner, hrest, hbetween⟩ :=
        himp.complete open? hsteps hwithin hinner
      refine ⟨between, ?_, hrest, hbetween.mono (by omega)⟩
      simp only [applyNull, hrule, prefixed, run_bind_eq_ok, run_pure_eq_ok]
      exact ⟨_, between, hinner, rfl, rfl⟩
  | prefixUpdate hrule hinner htarget =>
      subst htokens
      obtain ⟨between, hinner, hrest, hbetween⟩ :=
        himp.complete open? hsteps hwithin hinner
      refine ⟨between, ?_, hrest, hbetween.mono (by omega)⟩
      simp only [applyNull, hrule, prefixUpdate, run_bind_eq_ok, run_pure_eq_ok,
        ensureAssignable_eq_ok]
      exact ⟨_, between, hinner, (), between, ⟨htarget, rfl⟩, rfl, rfl⟩

theorem arguments_sound (himp : Implements operand reading steps) {bound : Int}
    {values : List Expr} {rounds : Nat} (hrounds : count ≤ rounds) (hsteps : count ≤ steps)
    (hwithin : cursor.Within count)
    (hrun : (arguments operand bound rounds).run cursor = .ok values cursor') :
    ArgumentsRead reading bound cursor.tokens values cursor'.tokens ∧ cursor'.Within count := by
  induction rounds generalizing cursor count values with
  | zero =>
      have hpos := hwithin.pos
      omega
  | succ rounds ih =>
      simp only [arguments, run_bind_eq_ok, run_current, EStateM.Result.ok.injEq] at hrun
      obtain ⟨_, _, ⟨rfl, rfl⟩, hrun⟩ := hrun
      split at hrun
      · rename_i hclose
        obtain ⟨rfl, rfl⟩ := run_pure_eq_ok.mp hrun
        exact ⟨.done hclose, hwithin⟩
      · rename_i hopen
        split at hrun
        · exact absurd hrun run_throw_ne_ok
        · rename_i hend
          simp only [run_bind_eq_ok, run_current, EStateM.Result.ok.injEq] at hrun
          obtain ⟨first, between, hfirst, _, _, ⟨rfl, rfl⟩, hrun⟩ := hrun
          obtain ⟨hreading, hbetween⟩ := himp.sound hsteps hwithin hfirst
          split at hrun
          · rename_i hseparator
            simp only [run_bind_eq_ok, run_pure_eq_ok] at hrun
            obtain ⟨_, next, hnext, others, last, hothers, rfl, rfl⟩ := hrun
            obtain ⟨rfl, htokens, hnextWithin⟩ :=
              advance_sound hbetween (Token.not_isEnd_of_is hseparator) hnext
            obtain ⟨hrest, hlast⟩ := ih (by omega) (by omega) hnextWithin hothers
            rw [htokens] at hreading
            exact ⟨.more hopen hend hreading hseparator hrest, hlast.mono (by omega)⟩
          · rename_i hafter
            obtain ⟨rfl, rfl⟩ := run_pure_eq_ok.mp hrun
            exact ⟨.last hopen hend hreading hafter, hbetween.mono (by omega)⟩

theorem arguments_complete (himp : Implements operand reading steps) {bound : Int}
    {values : List Expr} {rest : List Token} {rounds : Nat} (hrounds : count ≤ rounds)
    (hsteps : count ≤ steps) (hwithin : cursor.Within count)
    (hreads : ArgumentsRead reading bound cursor.tokens values rest) :
    ∃ cursor', (arguments operand bound rounds).run cursor = .ok values cursor' ∧
      cursor'.tokens = rest ∧ cursor'.Within count := by
  generalize htokens : cursor.tokens = tokens at hreads
  induction hreads generalizing cursor count rounds with
  | @done token _ hclose =>
      have hpos := hwithin.pos
      obtain ⟨rounds, rfl⟩ : ∃ n, rounds = n + 1 := ⟨rounds - 1, by omega⟩
      have hcurrent : cursor.current = token := (List.cons.inj htokens).1
      refine ⟨cursor, ?_, htokens, hwithin⟩
      simp [arguments, hcurrent, hclose]
  | @last token after _ _ _ hopen hend hfirst hafter =>
      have hpos := hwithin.pos
      obtain ⟨rounds, rfl⟩ : ∃ n, rounds = n + 1 := ⟨rounds - 1, by omega⟩
      have hcurrent : cursor.current = token := (List.cons.inj htokens).1
      rw [← htokens] at hfirst
      obtain ⟨between, hfirst, hrest, hbetween⟩ :=
        himp.complete (some .arguments) hsteps hwithin hfirst
      have hbetweenCurrent : between.current = after := (List.cons.inj hrest).1
      refine ⟨between, ?_, hrest, hbetween.mono (by omega)⟩
      simp only [arguments, run_bind_eq_ok, run_current, EStateM.Result.ok.injEq]
      refine ⟨_, _, ⟨rfl, rfl⟩, ?_⟩
      rw [hcurrent, if_neg hopen, if_neg hend]
      simp only [run_bind_eq_ok, run_current, EStateM.Result.ok.injEq]
      refine ⟨_, between, hfirst, _, _, ⟨rfl, rfl⟩, ?_⟩
      rw [hbetweenCurrent, if_neg hafter]
      rfl
  | @more token separator next _ _ _ _ _ hopen hend hfirst hseparator _ ih =>
      have hpos := hwithin.pos
      obtain ⟨rounds, rfl⟩ : ∃ n, rounds = n + 1 := ⟨rounds - 1, by omega⟩
      have hcurrent : cursor.current = token := (List.cons.inj htokens).1
      rw [← htokens] at hfirst
      obtain ⟨between, hfirst, hrest, hbetween⟩ :=
        himp.complete (some .arguments) hsteps hwithin hfirst
      have hbetweenCurrent : between.current = separator := (List.cons.inj hrest).1
      obtain ⟨behind, hadvance, hbehindTokens, hbehind⟩ := advance_complete hbetween hrest
      obtain ⟨last, hothers, hlastTokens, hlast⟩ :=
        @ih _ _ rounds (by omega) (by omega) hbehind hbehindTokens
      refine ⟨last, ?_, hlastTokens, hlast.mono (by omega)⟩
      simp only [arguments, run_bind_eq_ok, run_current, EStateM.Result.ok.injEq]
      refine ⟨_, _, ⟨rfl, rfl⟩, ?_⟩
      rw [hcurrent, if_neg hopen, if_neg hend]
      simp only [run_bind_eq_ok, run_current, EStateM.Result.ok.injEq]
      refine ⟨_, between, hfirst, _, _, ⟨rfl, rfl⟩, ?_⟩
      rw [hbetweenCurrent, if_pos hseparator]
      simp only [run_bind_eq_ok, run_pure_eq_ok]
      exact ⟨_, behind, hadvance, _, last, hothers, rfl, rfl⟩

theorem applyLeft_sound (himp : Implements operand reading steps) {table : OperatorTable}
    {binding : Binding LeftRule} {token : Token} {left expr : Expr}
    (hsteps : count ≤ steps) (hwithin : cursor.Within count)
    (hrun : (applyLeft table steps operand open? binding token left).run cursor =
      .ok expr cursor') :
    LeftReads table reading binding token left cursor.tokens expr cursor'.tokens ∧
      cursor'.Within count := by
  unfold applyLeft at hrun
  split at hrun
  case h_1 => exact absurd hrun run_throw_ne_ok
  case h_2 => exact absurd hrun run_throw_ne_ok
  case h_3 hrule =>
    simp only [binary, run_bind_eq_ok, run_pure_eq_ok] at hrun
    obtain ⟨right, between, hright, rfl, rfl⟩ := hrun
    obtain ⟨hreading, hbetween⟩ := himp.sound hsteps hwithin hright
    exact ⟨.binary hrule hreading, hbetween.mono (by omega)⟩
  case h_4 hrule =>
    simp only [assignment, binary, run_bind_eq_ok, run_pure_eq_ok,
      ensureAssignable_eq_ok] at hrun
    obtain ⟨_, _, ⟨htarget, rfl⟩, right, between, hright, rfl, rfl⟩ := hrun
    obtain ⟨hreading, hbetween⟩ := himp.sound hsteps hwithin hright
    exact ⟨.assignment hrule htarget hreading, hbetween.mono (by omega)⟩
  case h_5 hrule =>
    simp only [ternary, run_bind_eq_ok, run_current, EStateM.Result.ok.injEq] at hrun
    obtain ⟨positive, between, hpositive, _, _, ⟨rfl, rfl⟩, hrun⟩ := hrun
    obtain ⟨hfirst, hbetween⟩ := himp.sound hsteps hwithin hpositive
    split at hrun
    · rename_i hcolon
      simp only [run_bind_eq_ok, run_pure_eq_ok] at hrun
      obtain ⟨_, behind, hadvance, negative, last, hnegative, rfl, rfl⟩ := hrun
      obtain ⟨rfl, htokens, hbehind⟩ :=
        advance_sound hbetween (Token.not_isEnd_of_is hcolon) hadvance
      obtain ⟨hsecond, hlast⟩ := himp.sound (by omega) hbehind hnegative
      rw [htokens] at hfirst
      exact ⟨.ternary hrule hfirst hcolon hsecond, hlast.mono (by omega)⟩
    · exact absurd hrun run_throw_ne_ok
  case h_6 hrule =>
    simp only [comma, run_bind_eq_ok, run_pure_eq_ok] at hrun
    obtain ⟨right, between, hright, rfl, rfl⟩ := hrun
    obtain ⟨hreading, hbetween⟩ := himp.sound hsteps hwithin hright
    exact ⟨.comma hrule hreading, hbetween.mono (by omega)⟩
  case h_7 hrule =>
    simp only [call, run_bind_eq_ok, run_pure_eq_ok] at hrun
    obtain ⟨values, between, hvalues, close, last, hclose, rfl, rfl⟩ := hrun
    obtain ⟨hreading, hbetween⟩ := arguments_sound himp hsteps hsteps hwithin hvalues
    obtain ⟨hsymbol, htokens, hlast⟩ := expectClosing_sound hbetween hclose
    rw [htokens] at hreading
    exact ⟨.call hrule hreading hsymbol, hlast.mono (by omega)⟩
  case h_8 hrule =>
    simp only [index, run_bind_eq_ok, run_pure_eq_ok] at hrun
    obtain ⟨place, between, hplace, close, last, hclose, rfl, rfl⟩ := hrun
    obtain ⟨hreading, hbetween⟩ := himp.sound hsteps hwithin hplace
    obtain ⟨hsymbol, htokens, hlast⟩ := expectClosing_sound hbetween hclose
    rw [htokens] at hreading
    exact ⟨.index hrule hreading hsymbol, hlast.mono (by omega)⟩
  case h_9 hrule =>
    obtain ⟨rfl, rfl⟩ := run_pure_eq_ok.mp hrun
    exact ⟨.suffixed hrule, hwithin⟩

theorem applyLeft_complete (himp : Implements operand reading steps) {table : OperatorTable}
    (open? : Option Delimiter) {binding : Binding LeftRule} {token : Token} {left expr : Expr}
    {rest : List Token} (hsteps : count ≤ steps) (hwithin : cursor.Within count)
    (hreads : LeftReads table reading binding token left cursor.tokens expr rest) :
    ∃ cursor', (applyLeft table steps operand open? binding token left).run cursor =
        .ok expr cursor' ∧
      cursor'.tokens = rest ∧ cursor'.Within count := by
  generalize htokens : cursor.tokens = tokens at hreads
  cases hreads with
  | binary hrule hright =>
      subst htokens
      obtain ⟨between, hright, hrest, hbetween⟩ := himp.complete open? hsteps hwithin hright
      refine ⟨between, ?_, hrest, hbetween.mono (by omega)⟩
      simp only [applyLeft, hrule, binary, run_bind_eq_ok, run_pure_eq_ok]
      exact ⟨_, between, hright, rfl, rfl⟩
  | assignment hrule htarget hright =>
      subst htokens
      obtain ⟨between, hright, hrest, hbetween⟩ := himp.complete open? hsteps hwithin hright
      refine ⟨between, ?_, hrest, hbetween.mono (by omega)⟩
      simp only [applyLeft, hrule, assignment, binary, run_bind_eq_ok, run_pure_eq_ok,
        ensureAssignable_eq_ok]
      exact ⟨(), cursor, ⟨htarget, rfl⟩, _, between, hright, rfl, rfl⟩
  | @ternary _ _ _ _ colon _ hrule hpositive hcolon hnegative =>
      subst htokens
      obtain ⟨between, hpositive, hbetweenTokens, hbetween⟩ :=
        himp.complete open? hsteps hwithin hpositive
      obtain ⟨behind, hadvance, hbehindTokens, hbehind⟩ :=
        advance_complete hbetween hbetweenTokens
      rw [← hbehindTokens] at hnegative
      obtain ⟨last, hnegative, hrest, hlast⟩ := himp.complete open? (by omega) hbehind hnegative
      have hcurrent : between.current = colon := (List.cons.inj hbetweenTokens).1
      refine ⟨last, ?_, hrest, hlast.mono (by omega)⟩
      simp only [applyLeft, hrule, ternary, run_bind_eq_ok, run_current,
        EStateM.Result.ok.injEq]
      refine ⟨_, between, hpositive, _, _, ⟨rfl, rfl⟩, ?_⟩
      rw [hcurrent, if_pos hcolon]
      simp only [run_bind_eq_ok, run_pure_eq_ok]
      exact ⟨_, behind, hadvance, _, last, hnegative, rfl, rfl⟩
  | comma hrule hright =>
      subst htokens
      obtain ⟨between, hright, hrest, hbetween⟩ := himp.complete open? hsteps hwithin hright
      refine ⟨between, ?_, hrest, hbetween.mono (by omega)⟩
      simp only [applyLeft, hrule, comma, run_bind_eq_ok, run_pure_eq_ok]
      exact ⟨_, between, hright, rfl, rfl⟩
  | call hrule hvalues hclose =>
      subst htokens
      obtain ⟨between, hvalues, htokens, hbetween⟩ :=
        arguments_complete himp hsteps hsteps hwithin hvalues
      obtain ⟨last, hclose, hrest, hlast⟩ :=
        expectClosing_complete table .arguments hbetween htokens hclose
      refine ⟨last, ?_, hrest, hlast.mono (by omega)⟩
      simp only [applyLeft, hrule, call, run_bind_eq_ok, run_pure_eq_ok]
      exact ⟨_, between, hvalues, _, last, hclose, rfl, rfl⟩
  | index hrule hplace hclose =>
      subst htokens
      obtain ⟨between, hplace, htokens, hbetween⟩ :=
        himp.complete (some .index) hsteps hwithin hplace
      obtain ⟨last, hclose, hrest, hlast⟩ :=
        expectClosing_complete table .index hbetween htokens hclose
      refine ⟨last, ?_, hrest, hlast.mono (by omega)⟩
      simp only [applyLeft, hrule, index, run_bind_eq_ok, run_pure_eq_ok]
      exact ⟨_, between, hplace, _, last, hclose, rfl, rfl⟩
  | suffixed hrule =>
      refine ⟨cursor, ?_, htokens, hwithin⟩
      simp [applyLeft, hrule]

/-- The loop goes on through states that are reached, up to one where it stops. -/
theorem extend_sound (himp : Implements operand reading steps) {table : OperatorTable}
    (htable : table.EndIsInert) {bound power : Int} {tokens : List Token} {left expr : Expr}
    {rounds : Nat} (hrounds : count ≤ rounds) (hsteps : count ≤ steps)
    (hwithin : cursor.Within count)
    (hleft : Reaches table reading bound tokens power left cursor.tokens)
    (hrun : (extend table steps operand open? bound rounds power left).run cursor =
      .ok expr cursor') :
    (∃ power', Reaches table reading bound tokens power' expr cursor'.tokens ∧
      Stops table bound power' cursor'.tokens) ∧ cursor'.Within count := by
  induction rounds generalizing cursor count power left with
  | zero =>
      have hpos := hwithin.pos
      omega
  | succ rounds ih =>
      simp only [extend, run_bind_eq_ok, run_current, EStateM.Result.ok.injEq] at hrun
      obtain ⟨_, _, ⟨rfl, rfl⟩, hrun⟩ := hrun
      split at hrun
      · rename_i hbinds
        simp only [run_bind_eq_ok] at hrun
        obtain ⟨token, between, hadvance, _, behind, hrecord, next, after, hnext, hrun⟩ := hrun
        by_cases hend : cursor.current.isEnd
        · -- At the end of the input the step has no rule to go on with.
          have htoken : token = cursor.current := advance_token hadvance
          subst htoken
          rcases htable _ hend with hrule | hrule
          · simp only [applyLeft, hrule] at hnext
            exact absurd hnext run_throw_ne_ok
          · simp only [applyLeft, hrule] at hnext
            exact absurd hnext run_throw_ne_ok
        · obtain ⟨rfl, htokens, hbetween⟩ := advance_sound hwithin hend hadvance
          obtain ⟨hbehindTokens, hbehind⟩ := record_keeps hbetween hrecord
          obtain ⟨hstep, hafter⟩ := applyLeft_sound himp (by omega) hbehind hnext
          rw [htokens, ← hbehindTokens] at hleft
          have hreached := Reaches.step hleft hbinds.1 hbinds.2 hstep
          obtain ⟨hlast, hwithin'⟩ := ih (by omega) (by omega) hafter hreached hrun
          exact ⟨hlast, hwithin'.mono (by omega)⟩
      · rename_i hbinds
        obtain ⟨rfl, rfl⟩ := run_pure_eq_ok.mp hrun
        refine ⟨⟨power, hleft, ?_⟩, hwithin⟩
        intro token htoken
        cases htoken
        exact hbinds

/-- A state that is reached is one the loop comes through, with enough rounds left
to go on. -/
theorem expression_of_reaches {table : OperatorTable} {limit budget : Nat} {bound power : Int}
    {expr : Expr} {rest : List Token}
    (himp : Implements (expression table limit steps budget) reading steps)
    (hsteps : count ≤ steps) (hwithin : cursor.Within count)
    (hreached : Reaches table reading bound cursor.tokens power expr rest) :
    ∃ rounds between, between.tokens = rest ∧ between.Within (min rounds (count - 1)) ∧
      (expression table limit steps (budget + 1) open? bound).run cursor =
        (extend table steps (expression table limit steps budget) open? bound rounds power
          expr).run between := by
  induction hreached with
  | @start token next tokens rest expr htokens hend hnull =>
      obtain ⟨between, hadvance, hbetweenTokens, hbetween⟩ := advance_complete hwithin htokens
      have hrecord : (record (.null token (table.null token))).run between =
        .ok () { between with log := .null token (table.null token) :: between.log } := rfl
      obtain ⟨hbehindTokens, hbehind⟩ := record_keeps hbetween hrecord
      rw [← hbetweenTokens, ← hbehindTokens] at hnull
      obtain ⟨last, hnull, hlastTokens, hlast⟩ :=
        applyNull_complete himp table open? (by omega) hbehind hnull
      have hcurrent : cursor.current = token := (List.cons.inj htokens).1
      refine ⟨steps, last, hlastTokens, hlast.mono (by omega), ?_⟩
      simp only [expression, EStateM.run_bind, run_current, hcurrent, if_neg hend, hadvance,
        hrecord, hnull]
  | @step power left expr token next tokens rest _ hbound hpower hstep ih =>
      obtain ⟨rounds, reached, hreachedTokens, hreached, hrun⟩ := ih
      obtain ⟨between, hadvance, hbetweenTokens, hbetween⟩ :=
        advance_complete hreached hreachedTokens
      have hrecord : (record (.left token (table.left token))).run between =
        .ok () { between with log := .left token (table.left token) :: between.log } := rfl
      obtain ⟨hbehindTokens, hbehind⟩ := record_keeps hbetween hrecord
      rw [← hbetweenTokens, ← hbehindTokens] at hstep
      obtain ⟨last, hstep, hlastTokens, hlast⟩ :=
        applyLeft_complete himp open? (by omega) hbehind hstep
      have hcurrent : reached.current = token := (List.cons.inj hreachedTokens).1
      have hpos := hreached.pos
      obtain ⟨rounds, rfl⟩ : ∃ n, rounds = n + 1 := ⟨rounds - 1, by omega⟩
      refine ⟨rounds, last, hlastTokens, hlast.mono (by omega), ?_⟩
      rw [hrun]
      simp only [extend, EStateM.run_bind, run_current, hcurrent, if_pos (And.intro hbound hpower),
        hadvance, hrecord, hstep]

theorem extend_of_stops {table : OperatorTable} {bound power : Int} {expr : Expr} {rounds : Nat}
    (hstops : Stops table bound power cursor.tokens) :
    (extend table steps operand open? bound rounds power expr).run cursor =
      .ok expr cursor := by
  cases rounds with
  | zero => rfl
  | succ rounds =>
      have hbinds := hstops cursor.current (by simp [Cursor.tokens_eq])
      simp only [extend, EStateM.run_bind, run_current, if_neg hbinds]
      rfl

end Rules

/-- Reading an expression is what the relation describes, for every budget. -/
theorem expression_implements {table : OperatorTable} (htable : table.EndIsInert)
    (limit steps budget : Nat) :
    Implements (expression table limit steps budget) (Reads table budget) steps := by
  induction budget with
  | zero =>
      constructor
      · intro open? bound cursor cursor' expr count _ _ hrun
        cases hrun
      · intro open? bound cursor expr rest count _ _ hreads
        exact hreads.elim
  | succ budget ih =>
      constructor
      · intro open? bound cursor cursor' expr count hsteps hwithin hrun
        simp only [expression, run_bind_eq_ok, run_current, EStateM.Result.ok.injEq] at hrun
        obtain ⟨_, _, ⟨rfl, rfl⟩, hrun⟩ := hrun
        split at hrun
        · cases hrun
        · rename_i hend
          simp only [run_bind_eq_ok] at hrun
          obtain ⟨token, between, hadvance, _, behind, hrecord, left, after, hnull, hrun⟩ := hrun
          obtain ⟨rfl, htokens, hbetween⟩ := advance_sound hwithin hend hadvance
          obtain ⟨hbehindTokens, hbehind⟩ := record_keeps hbetween hrecord
          obtain ⟨hreads, hafter⟩ := applyNull_sound ih (by omega) hbehind hnull
          rw [← hbehindTokens] at htokens
          exact extend_sound ih htable (by omega) (by omega) hafter
            (.start htokens hend hreads) hrun
      · intro open? bound cursor expr rest count hsteps hwithin hreads
        obtain ⟨power, hreached, hstops⟩ := hreads
        obtain ⟨rounds, last, hlastTokens, hlast, hrun⟩ :=
          expression_of_reaches ih hsteps hwithin hreached
        refine ⟨last, ?_, hlastTokens, hlast.mono (by omega)⟩
        rw [hrun]
        exact extend_of_stops (hlastTokens ▸ hstops)

end Parse

theorem Cursor.start_stream {source : String} {cursor : Cursor}
    (hstart : Cursor.start source = .ok cursor) : cursor.stream = TokenStream.ofSource source := by
  unfold Cursor.start at hstart
  split at hstart
  · rename_i hsource
    cases hstart
    exact hsource.symm
  · cases hstart
  · rename_i hsource
    have hsealed := TokenStream.ofSource_sealed source
    rw [hsource] at hsealed
    cases hsealed

theorem Cursor.start_of_tokens {source : String} {token : Token} {rest : List Token}
    (htokens : (TokenStream.ofSource source).tokens = token :: rest) :
    ∃ cursor, Cursor.start source = .ok cursor := by
  unfold Cursor.start
  split
  · exact ⟨_, rfl⟩
  · rename_i hsource
    rw [hsource] at htokens
    cases htokens
  · exact ⟨_, rfl⟩

theorem Cursor.start_within {source : String} {cursor : Cursor}
    (hstart : Cursor.start source = .ok cursor) : cursor.Within cursor.steps := by
  refine ⟨?_, by simp [stream, steps]⟩
  rw [start_stream hstart]
  exact TokenStream.ofSource_sealed source

theorem OperatorTable.leftover?_eq_none_iff {table : OperatorTable} {token : Token} :
    table.leftover? token = none ↔ token.isEnd := by
  unfold leftover?
  split
  · simp_all
  · split <;> simp_all

/-- At most one expression can be read from the tokens of a text. -/
theorem Parse.Reads.unique {table : OperatorTable} (htable : table.EndIsInert) {budget : Nat}
    {bound : Int} {front rest rest' : List Token} {last : Token} {expr expr' : Expr}
    (hfront : ∀ token ∈ front, ¬token.isEnd) (hend : last.isEnd)
    (h : Reads table budget bound (front ++ [last]) expr rest)
    (h' : Reads table budget bound (front ++ [last]) expr' rest') : expr = expr' := by
  have hsealed := TokenStream.sealed_of_tokens hfront hend
  have htokens := TokenStream.tokens_map_ok (front ++ [last])
  obtain ⟨token, others, hcons⟩ : ∃ token others, front ++ [last] = token :: others :=
    List.exists_cons_of_ne_nil (by simp)
  rw [hcons] at hsealed htokens h h'
  let cursor : Cursor := ⟨token, others.map .ok, []⟩
  have hwithin : cursor.Within cursor.steps := ⟨hsealed, by simp [Cursor.steps, Cursor.stream]⟩
  have himp := expression_implements htable budget cursor.steps budget
  rw [← htokens] at h h'
  obtain ⟨_, hrun, _⟩ := himp.complete none (Nat.le_refl _) hwithin h
  obtain ⟨_, hrun', _⟩ := himp.complete none (Nat.le_refl _) hwithin h'
  rw [hrun] at hrun'
  exact (EStateM.Result.ok.inj hrun').1

namespace Parser

/-- A source is accepted when an expression is read from it and the input ends
there. -/
theorem parse_eq_ok_iff_run {parser : Parser} {source : String} {expr : Expr} :
    parser.parse source = .ok expr ↔
      ∃ cursor cursor', Cursor.start source = .ok cursor ∧
        (Parse.expression parser.table parser.limit cursor.steps parser.limit none
          minPower).run cursor = .ok expr cursor' ∧
        cursor'.current.isEnd := by
  unfold parse run
  constructor
  · intro hparse
    split at hparse
    · cases hparse
    · rename_i cursor hstart
      split at hparse
      · rename_i result cursor' hrun
        cases hparse
        simp only [complete, Parse.run_bind_eq_ok, EStateM.run_get, Parse.run_current,
          EStateM.Result.ok.injEq] at hrun
        obtain ⟨_, _, ⟨rfl, rfl⟩, _, last, hexpression, _, _, ⟨rfl, rfl⟩, hrun⟩ := hrun
        split at hrun
        · exact absurd hrun Parse.run_throw_ne_ok
        · rename_i hleftover
          obtain ⟨rfl, rfl⟩ := Parse.run_pure_eq_ok.mp hrun
          exact ⟨cursor, last, hstart, hexpression,
            OperatorTable.leftover?_eq_none_iff.mp hleftover⟩
      · cases hparse
  · rintro ⟨cursor, cursor', hstart, hexpression, hend⟩
    have hleftover : parser.table.leftover? cursor'.current = none :=
      OperatorTable.leftover?_eq_none_iff.mpr hend
    have hrun : parser.complete.run cursor = .ok expr cursor' := by
      simp only [complete, EStateM.run_bind, EStateM.run_get, Parse.run_current, hexpression,
        hleftover]
      rfl
    rw [hstart]
    simp only [hrun]

/-- A source is accepted exactly when its tokens can all be read, up to the end
token. -/
theorem parse_eq_ok_iff {parser : Parser} (htable : parser.table.EndIsInert)
    {source : String} {expr : Expr} :
    parser.parse source = .ok expr ↔
      ∃ tokens last, tokenize source = .ok (tokens ++ [last]) ∧ last.isEnd ∧
        Parse.Reads parser.table parser.limit minPower (tokens ++ [last]) expr [last] := by
  have hsealed := TokenStream.ofSource_sealed source
  rw [parse_eq_ok_iff_run]
  constructor
  · rintro ⟨cursor, cursor', hstart, hrun, hend⟩
    have himp := Parse.expression_implements htable parser.limit cursor.steps parser.limit
    obtain ⟨hreads, hwithin'⟩ :=
      himp.sound (Nat.le_refl _) (Cursor.start_within hstart) hrun
    have hrest := Cursor.tokens_of_end hwithin'.isSealed hend
    have htokens : cursor.tokens = (TokenStream.ofSource source).tokens := by
      rw [← Cursor.start_stream hstart]
      rfl
    rw [hrest, htokens] at hreads
    obtain ⟨front, hfront⟩ := Parse.Reads.consumes _ _ hreads
    refine ⟨front, cursor'.current, ?_, hend, hfront ▸ hreads⟩
    rw [hfront]
    exact hsealed.collect_eq (hfront ▸ List.mem_append_right front (List.mem_singleton_self _)) hend
  · rintro ⟨tokens, last, htokenize, hend, hreads⟩
    obtain ⟨_, _, _, htokens, _⟩ := hsealed.split_of_collect htokenize
    obtain ⟨token, rest, hcons⟩ : ∃ token rest, tokens ++ [last] = token :: rest :=
      List.exists_cons_of_ne_nil (by simp)
    obtain ⟨cursor, hstart⟩ := Cursor.start_of_tokens (htokens.trans hcons)
    have himp := Parse.expression_implements htable parser.limit cursor.steps parser.limit
    rw [← htokens, ← Cursor.start_stream hstart] at hreads
    obtain ⟨cursor', hrun, hrest, _⟩ :=
      himp.complete none (Nat.le_refl _) (Cursor.start_within hstart) hreads
    have hcurrent : cursor'.current = last := (List.cons.inj hrest).1
    exact ⟨cursor, cursor', hstart, hrun, hcurrent ▸ hend⟩

/-- A source is refused at the token where the reading of an expression stops, if the
input goes on there. -/
theorem parse_of_leftover {parser : Parser} (htable : parser.table.EndIsInert) {source : String}
    {token next : Token} {tokens rest : List Token} {expr : Expr} {diagnostic : Diagnostic}
    (htokenize : tokenize source = .ok (token :: tokens))
    (hreads : Parse.Reads parser.table parser.limit minPower (token :: tokens) expr (next :: rest))
    (hleftover : parser.table.leftover? next = some diagnostic) :
    parser.parse source = .error diagnostic := by
  have hsealed := TokenStream.ofSource_sealed source
  obtain ⟨_, _, _, htokens, _⟩ := hsealed.split_of_collect htokenize
  obtain ⟨cursor, hstart⟩ := Cursor.start_of_tokens htokens
  have himp := Parse.expression_implements htable parser.limit cursor.steps parser.limit
  rw [← htokens, ← Cursor.start_stream hstart] at hreads
  obtain ⟨cursor', hexpression, hrest, _⟩ :=
    himp.complete none (Nat.le_refl _) (Cursor.start_within hstart) hreads
  have hcurrent : cursor'.current = next := (List.cons.inj hrest).1
  have hrun : parser.complete.run cursor = .error diagnostic cursor' := by
    simp only [complete, EStateM.run_bind, EStateM.run_get, Parse.run_current, hexpression,
      hcurrent, hleftover]
    rfl
  simp only [parse, run, hstart, hrun]

end Parser

end Precedence
