import Precedence.Proofs.Completable
import Precedence.Proofs.EndOfInput

/-!
A source that is refused at its end is incomplete. A run that fails there has rules open,
and each of them can be completed with what it was given: with the completion of the
operand it was reading, and with what it still waits for.
-/

namespace Precedence

open Lexeme Parse

structure Diagnostic.AtEnd (limit : Nat) (last : Token) (diagnostic : Diagnostic) : Prop where
  position : diagnostic.position = last.span.start
  names : diagnostic.cause.Names limit last
  shallow : ¬diagnostic.cause.isTooDeep

namespace Parse

/-- The run fails for the end token, or comes to it if `spent` allows that. -/
inductive Ends {α : Type} (spent : Prop) (limit : Nat) (last : Token) :
    EStateM.Result Diagnostic Cursor α → Prop
  | error {diagnostic : Diagnostic} {cursor : Cursor} (hend : diagnostic.AtEnd limit last) :
      Ends spent limit last (.error diagnostic cursor)
  | ok {a : α} {cursor : Cursor} (hspent : spent) (htokens : cursor.tokens = [last]) :
      Ends spent limit last (.ok a cursor)

abbrev Fails {α : Type} : Nat → Token → EStateM.Result Diagnostic Cursor α → Prop := Ends False

/-- Tokens that a run goes through up to the end of the input without a change of an
operand. Their places tell them from the end token. -/
inductive Awaits (last : Token) : List Token → Prop
  | last (hend : last.isEnd) : Awaits last [last]
  | more {token : Token} {tokens : List Token} (hend : ¬token.isEnd)
      (hplace : token.span.start ≠ last.span.start)
      (hupdate : token.lexeme ∉ [mark "++", mark "--"]) (hrest : Awaits last tokens) :
      Awaits last (token :: tokens)

section Steps

variable {α β : Type} {spent : Prop} {limit count : Nat} {last : Token} {cursor : Cursor}

theorem Ends.of_fails {result : EStateM.Result Diagnostic Cursor α} (h : Fails limit last result) :
    Ends spent limit last result := by
  cases h with
  | error hend => exact .error hend
  | ok hspent => exact hspent.elim

theorem Ends.fails_or {result : EStateM.Result Diagnostic Cursor α}
    (h : Ends spent limit last result) :
    Fails limit last result ∨ ∃ a cursor, result = .ok a cursor ∧ cursor.tokens = [last] := by
  cases h with
  | error hend => exact .inl (.error hend)
  | ok _ htokens => exact .inr ⟨_, _, rfl, htokens⟩

theorem Ends.bind {m : Parse α} {next : α → Parse β}
    (h : Ends spent limit last ((m >>= next).run cursor)) :
    Fails limit last (m.run cursor) ∨
      ∃ a between, m.run cursor = .ok a between ∧
        Ends spent limit last ((next a).run between) := by
  rw [EStateM.run_bind] at h
  cases hrun : m.run cursor with
  | ok a between => exact .inr ⟨a, between, rfl, by rwa [hrun] at h⟩
  | error diagnostic between =>
      rw [hrun] at h
      cases h with
      | error hend => exact .inl (.error hend)

theorem Ends.of_ok {a : α} (h : Ends spent limit last (.ok a cursor)) :
    spent ∧ cursor.tokens = [last] := by
  cases h with
  | ok hspent htokens => exact ⟨hspent, htokens⟩

theorem Ends.of_error {diagnostic : Diagnostic}
    (h : @Ends α spent limit last (.error diagnostic cursor)) :
    diagnostic.AtEnd limit last := by
  cases h with
  | error hend => exact hend

theorem Ends.of_map {m : Parse α} {f : α → β}
    (h : Ends spent limit last ((do return f (← m) : Parse β).run cursor)) :
    Ends spent limit last (m.run cursor) := by
  rcases h.bind with hfails | ⟨a, between, hrun, h⟩
  · exact .of_fails hfails
  · obtain ⟨hspent, htokens⟩ := h.of_ok
    exact hrun ▸ .ok hspent htokens

theorem Awaits.of_suffix {tokens : List Token} (h : Awaits last tokens)
    (hsuffix : cursor.tokens <:+ tokens) : Awaits last cursor.tokens := by
  induction h with
  | last hend =>
      rw [(List.suffix_cons_iff.mp hsuffix).resolve_right (by simp [cursor.tokens_ne_nil])]
      exact .last hend
  | more hend hplace hupdate hbehind ih =>
      rcases List.suffix_cons_iff.mp hsuffix with hall | hsuffix
      · exact hall ▸ .more hend hplace hupdate hbehind
      · exact ih hsuffix

theorem Awaits.isEnd {tokens : List Token} (h : Awaits last tokens) : last.isEnd := by
  induction h with
  | last hend => exact hend
  | more _ _ _ _ ih => exact ih

/-- Only the last token stands where the end of the input does. -/
theorem Awaits.eq_last (h : Awaits last cursor.tokens)
    (hplace : cursor.current.span.start = last.span.start) : cursor.tokens = [last] := by
  rw [Cursor.tokens_eq] at h ⊢
  generalize cursor.ahead.tokens = behind at h
  cases h with
  | last => rfl
  | more _ hapart => exact absurd hplace hapart

/-- A cursor that has not come to the end of the input can be moved. -/
theorem Awaits.advance (h : Awaits last cursor.tokens) (hwithin : cursor.Within count)
    (hend : ¬cursor.current.isEnd) :
    cursor.current.span.start ≠ last.span.start ∧
      cursor.current.lexeme ∉ [mark "++", mark "--"] ∧
      ∃ between, advance.run cursor = .ok cursor.current between ∧
        cursor.tokens = cursor.current :: between.tokens ∧ between.Within (count - 1) ∧
        Awaits last between.tokens := by
  have hcursor := cursor.tokens_eq
  rw [hcursor] at h
  generalize hbehind : cursor.ahead.tokens = behind at h hcursor
  cases h with
  | last hlast => exact absurd hlast hend
  | more _ hplace hupdate hrest =>
      obtain ⟨next, rest, rfl⟩ : ∃ next rest, behind = next :: rest := by
        cases hrest with
        | last => exact ⟨_, _, rfl⟩
        | more => exact ⟨_, _, rfl⟩
      obtain ⟨between, hrun, hbetween, hwithin'⟩ := advance_complete hwithin hcursor
      exact ⟨hplace, hupdate, between, hrun, hbetween ▸ hcursor, hwithin', hbetween ▸ hrest⟩

/-- What follows a token that is taken goes on behind it. -/
theorem Awaits.take {next : Token → Parse α} {event : Token → Event}
    (h : Awaits last cursor.tokens) (hwithin : cursor.Within count) (hend : ¬cursor.current.isEnd)
    (hends : Ends spent limit last
      ((do
        let token ← Parse.advance
        record (event token)
        next token : Parse α).run cursor)) :
    cursor.current.span.start ≠ last.span.start ∧
      cursor.current.lexeme ∉ [mark "++", mark "--"] ∧
      ∃ behind : Cursor, cursor.tokens = cursor.current :: behind.tokens ∧
        behind.Within (count - 1) ∧ Awaits last behind.tokens ∧
        Ends spent limit last ((next cursor.current).run behind) := by
  obtain ⟨hplace, hupdate, between, hadvance, htokens, hwithin', hawaits⟩ :=
    h.advance hwithin hend
  rw [EStateM.run_bind, hadvance] at hends
  rcases hends.bind with hrecord | ⟨_, behind, hrecord, hends⟩
  · exact hrecord.of_ok.1.elim
  · obtain ⟨hbehind, hwithin'⟩ := record_keeps hwithin' hrecord
    rw [← hbehind] at htokens hawaits
    exact ⟨hplace, hupdate, behind, htokens, hwithin', hawaits, hends⟩

/-- A closing bracket is missed for the end token only where the input ends. -/
theorem tokens_of_unclosed {delimiter : Delimiter} (hwithin : cursor.Within count)
    (hawaits : Awaits last cursor.tokens)
    (h : Fails limit last ((expectClosing cTable delimiter).run cursor)) :
    cursor.tokens = [last] := by
  simp only [expectClosing, EStateM.run_bind, run_current] at h
  split at h
  · rename_i hclose
    obtain ⟨_, _, between, hrun, _⟩ := hawaits.advance hwithin (Token.not_isEnd_of_is hclose)
    rw [hrun] at h
    cases h with
    | ok hspent => exact hspent.elim
  · exact hawaits.eq_last (OperatorTable.position_misplaced.symm.trans h.of_error.position)

theorem not_fails_ensureAssignable {target : Expr} :
    ¬Fails limit last ((ensureAssignable target).run cursor) := by
  intro h
  unfold ensureAssignable at h
  split at h
  · exact h.of_ok.1
  · exact h.of_error.names

/-- What stands in a bracket comes to the end of the input if the bracket is not closed
before. -/
theorem ends_of_unclosed {m : Parse α} {delimiter : Delimiter} {result : α → Token → β}
    (hm : ∀ {a : α} {between : Cursor}, m.run cursor = .ok a between →
      between.Within count ∧ Awaits last between.tokens)
    (h : Fails limit last
      ((do
        let a ← m
        let close ← expectClosing cTable delimiter
        return result a close : Parse β).run cursor)) :
    Ends True limit last (m.run cursor) := by
  rcases h.bind with hfails | ⟨a, between, hrun, h⟩
  · exact .of_fails hfails
  · obtain ⟨hwithin, hawaits⟩ := hm hrun
    rcases h.bind with hclose | ⟨_, _, _, h⟩
    · rw [hrun]
      exact .ok trivial (tokens_of_unclosed hwithin hawaits hclose)
    · exact h.of_ok.1.elim

end Steps

/-- A parser for operands that reads what the grammar has, and completes it wherever it
fails for the end of the input. -/
structure Completes (operand : Operand) (limit : Nat) (last : Token) (depth steps : Nat) :
    Prop where
  implements : Implements operand (Reads cTable depth) steps
  fails : ∀ {open? : Option Delimiter} {bound : Int} {cursor : Cursor} {count : Nat},
    minPower ≤ bound → count ≤ steps → cursor.Within count → Awaits last cursor.tokens →
    Fails limit last ((operand open? bound).run cursor) →
    Completable cursor.tokens (Grammatical depth bound)

section Rules

variable {operand : Operand} {limit depth steps count : Nat} {last : Token}
  {open? : Option Delimiter} {bound : Int} {cursor : Cursor} {spent : Prop}
  (h : Completes operand limit last depth steps) (hsteps : count ≤ steps)
  (hwithin : cursor.Within count) (hawaits : Awaits last cursor.tokens)

include h hsteps hwithin hawaits

theorem Completes.sound {expr : Expr} {between : Cursor}
    (hrun : (operand open? bound).run cursor = .ok expr between) :
    Grammatical depth bound cursor.tokens expr between.tokens ∧ between.Within (count - 1) ∧
      Awaits last between.tokens := by
  obtain ⟨hreads, hbetween⟩ := h.implements.sound hsteps hwithin hrun
  exact ⟨.of_reads hreads, hbetween, hawaits.of_suffix (Reads.consumes _ _ hreads)⟩

/-- An operand that comes to the end of the input is complete as it is. -/
theorem Completes.ends (hbound : minPower ≤ bound)
    (hends : Ends spent limit last ((operand open? bound).run cursor)) :
    Completable cursor.tokens (Grammatical depth bound) := by
  rcases hends.fails_or with hfails | ⟨expr, between, hrun, hlast⟩
  · exact h.fails hbound hsteps hwithin hawaits hfails
  · obtain ⟨hgrammatical, _⟩ := h.sound hsteps hwithin hawaits hrun
    obtain ⟨used, htokens, hinert⟩ := hgrammatical.before_inert hbound
    refine ⟨[], List.nil_subset _, fun {added rest next} hadded hnext => ⟨expr, ?_⟩⟩
    obtain rfl := List.map_eq_nil_iff.mp hadded
    rw [htokens, hlast, List.dropLast_concat]
    exact hinert hnext

theorem Completes.applyNull {token : Token} (hplace : token.span.start ≠ last.span.start)
    (hupdate : token.lexeme ∉ [mark "++", mark "--"])
    (hfails : Fails limit last
      ((applyNull cTable operand open? (cTable.null token) token).run cursor)) :
    Completable cursor.tokens (NullReads (Grammatical depth) (cTable.null token) token) := by
  have hother : ∀ {diagnostic : Diagnostic}, diagnostic.position = token.span.start →
      ¬diagnostic.AtEnd limit last :=
    fun hposition hend => hplace (hposition.symm.trans hend.position)
  unfold Parse.applyNull at hfails
  split at hfails
  case h_1 => exact absurd hfails.of_error (hother rfl)
  case h_2 => exact absurd hfails.of_error (hother rfl)
  case h_3 => exact absurd hfails.of_error (hother Delimiter.position_missingOperand)
  case h_4 => exact hfails.of_ok.1.elim
  case h_5 hrule =>
    have hends := ends_of_unclosed (fun hrun => (h.sound hsteps hwithin hawaits hrun).2) hfails
    refine (h.ends hsteps hwithin hawaits (CTable.rightPower_grouping hrule).ge hends).close
      [mark ")"] (by decide) ?_
    intro behind added rest next inner hadded _ hinner
    obtain ⟨close, rfl, hclose⟩ := List.map_eq_singleton_iff.mp hadded
    exact ⟨_, .grouping hrule hinner (Token.is_of_lexeme hclose)⟩
  case h_6 hrule =>
    have hbound := (CTable.null_regular token).rightPower (.inl hrule)
    refine (h.fails (Int.le_trans (by decide) hbound) hsteps hwithin hawaits hfails.of_map).map ?_
    exact fun hinner => ⟨_, .prefixed hrule hinner⟩
  case h_7 hrule =>
    -- Only `++` and `--` change the operand behind them.
    refine absurd ?_ hupdate
    rcases CTable.symbol_of_prefixUpdate hrule with hsymbol | hsymbol <;>
      simp [Token.lexeme_of_is hsymbol]

/-- Arguments that come to the end of the input are completed, and the call is closed. -/
theorem Completes.arguments {rounds : Nat} (hrounds : count ≤ rounds) (hbound : minPower ≤ bound)
    (hends : Ends spent limit last ((arguments operand bound rounds).run cursor)) :
    Completable cursor.tokens (ClosedArguments (Grammatical depth) bound) := by
  induction rounds generalizing cursor count spent with
  | zero =>
      have hpos := hwithin.pos
      omega
  | succ rounds ih =>
      simp only [Parse.arguments, EStateM.run_bind, run_current] at hends
      split at hends
      · -- Behind a closing parenthesis the input goes on.
        rename_i hclose
        have hlast := hends.of_ok.2
        rw [Cursor.tokens_eq, List.cons.injEq] at hlast
        exact absurd (hlast.1 ▸ hawaits.isEnd) (Token.not_isEnd_of_is hclose)
      · rename_i hopen
        split at hends
        · rw [hawaits.eq_last hends.of_error.position]
          exact .arguments_end last
        · rename_i hend
          obtain ⟨_, _, behind, _, htokens, _⟩ := hawaits.advance hwithin hend
          have hbehind := behind.tokens_ne_nil
          rcases hends.bind with hfails | ⟨first, between, hrun, hends⟩
          · have hfirst := h.fails hbound hsteps hwithin hawaits hfails
            rw [htokens] at hfirst ⊢
            exact .arguments_last hopen hend hbehind hfirst
          · obtain ⟨hfirst, hwithin', hawaits'⟩ := h.sound hsteps hwithin hawaits hrun
            simp only [EStateM.run_bind, run_current] at hends
            split at hends
            · rename_i hseparator
              obtain ⟨_, _, after, hadvance, hafter, hwithin', hawaits'⟩ :=
                hawaits'.advance hwithin' (Token.not_isEnd_of_is hseparator)
              rw [EStateM.run_bind, hadvance] at hends
              have hothers := ih (by omega) hwithin' hawaits' (by omega) hends.of_map
              rw [hafter, htokens] at hfirst
              rw [htokens]
              exact .arguments_more hopen hend hfirst hseparator (Cursor.tokens_ne_nil _) hothers
            · have hends : Ends True limit last ((operand (some .arguments) bound).run cursor) :=
                hrun ▸ .ok trivial hends.of_ok.2
              have hfirst := h.ends hsteps hwithin hawaits hbound hends
              rw [htokens] at hfirst ⊢
              exact .arguments_last hopen hend hbehind hfirst

theorem Completes.ternary {binding : Binding LeftRule} {token : Token} {left : Expr}
    (hrule : binding.rule = .ternary) (hbound : minPower ≤ binding.rightPower)
    (hfails : Fails limit last
      ((ternary cTable operand open? left binding.rightPower).run cursor)) :
    Completable cursor.tokens (LeftReads cTable (Grammatical depth) binding token left) := by
  have hmiddle : ∀ {spent : Prop}, Ends spent limit last ((operand open? minPower).run cursor) →
      Completable cursor.tokens (LeftReads cTable (Grammatical depth) binding token left) :=
    fun hends => .ternary_middle hrule hbound (h.ends hsteps hwithin hawaits (Int.le_refl _) hends)
  rcases hfails.bind with hfails | ⟨middle, between, hrun, hfails⟩
  · exact hmiddle hfails
  · obtain ⟨hread, hwithin', hawaits'⟩ := h.sound hsteps hwithin hawaits hrun
    simp only [EStateM.run_bind, run_current] at hfails
    split at hfails
    · rename_i hcolon
      obtain ⟨_, _, behind, hadvance, hbehind, hwithin', hawaits'⟩ :=
        hawaits'.advance hwithin' (Token.not_isEnd_of_is hcolon)
      rw [EStateM.run_bind, hadvance] at hfails
      have hlast := h.fails hbound (by omega) hwithin' hawaits' hfails.of_map
      rw [hbehind] at hread
      exact .ternary_last hrule hread hcolon (Cursor.tokens_ne_nil _) hlast
    · have hlast := hawaits'.eq_last (OperatorTable.position_misplaced.symm.trans hfails.of_error.position)
      exact @hmiddle True (hrun ▸ .ok trivial hlast)

theorem Completes.applyLeft {token : Token} {left : Expr}
    (hplace : token.span.start ≠ last.span.start)
    (hfails : Fails limit last
      ((applyLeft cTable steps operand open? (cTable.left token) token left).run cursor)) :
    Completable cursor.tokens
      (LeftReads cTable (Grammatical depth) (cTable.left token) token left) := by
  have hne : cursor.tokens ≠ [] := by simp [Cursor.tokens_eq]
  have hbound : (cTable.left token).rule.endsInOperand → minPower ≤ (cTable.left token).rightPower :=
    fun hrule => Int.le_trans (by decide) ((CTable.left_regular token).rightPower_bounds hrule).1
  unfold Parse.applyLeft at hfails
  split at hfails
  case h_1 => exact absurd hfails.of_error.position hplace
  case h_2 => exact absurd hfails.of_error.position hplace
  case h_3 hrule =>
    refine (h.fails (hbound (by rw [hrule]; rfl)) hsteps hwithin hawaits hfails.of_map).map ?_
    exact fun hright => ⟨_, .binary hrule hright⟩
  case h_4 hrule =>
    rcases hfails.bind with hfails | ⟨_, _, hassignable, hfails⟩
    · exact absurd hfails not_fails_ensureAssignable
    · obtain ⟨htarget, rfl⟩ := ensureAssignable_eq_ok.mp hassignable
      refine (h.fails (hbound (by rw [hrule]; rfl)) hsteps hwithin hawaits hfails.of_map).map ?_
      exact fun hright => ⟨_, .assignment hrule htarget hright⟩
  case h_5 hrule => exact h.ternary hsteps hwithin hawaits hrule (hbound (by rw [hrule]; rfl)) hfails
  case h_6 hrule =>
    refine (h.fails (hbound (by rw [hrule]; rfl)) hsteps hwithin hawaits hfails.of_map).map ?_
    exact fun hright => ⟨_, .comma hrule hright⟩
  case h_7 hrule =>
    have hsound : ∀ {values : List Expr} {between : Cursor},
        (Parse.arguments operand (Delimiter.elementBound cTable (some .arguments)) steps).run cursor =
          .ok values between → between.Within count ∧ Awaits last between.tokens := by
      intro values between hrun
      obtain ⟨hreads, hbetween⟩ := arguments_sound h.implements hsteps hsteps hwithin hrun
      exact ⟨hbetween, hawaits.of_suffix (hreads.suffix (Reads.consumes _ _))⟩
    have hends := ends_of_unclosed hsound hfails
    refine (h.arguments hsteps hwithin hawaits hsteps (by decide) hends).map ?_
    rintro tokens values next rest ⟨close, hclose, hvalues⟩
    exact ⟨_, .call hrule hvalues hclose⟩
  case h_8 hrule =>
    have hends := ends_of_unclosed (fun hrun => (h.sound hsteps hwithin hawaits hrun).2) hfails
    refine (h.ends hsteps hwithin hawaits (Int.le_refl _) hends).close [mark "]"] (by decide) ?_
    intro behind added rest next place hadded _ hplace
    obtain ⟨close, rfl, hclose⟩ := List.map_eq_singleton_iff.mp hadded
    exact ⟨_, .index hrule hplace (Token.is_of_lexeme hclose)⟩
  case h_9 => exact hfails.of_ok.1.elim

/-- The loop keeps what it has read; an operator that it cannot finish is completed. -/
theorem Completes.extend {rounds : Nat} {power : Int} {left : Expr} {all : List Token}
    (hbound : minPower ≤ bound) (hyields : Yields (depth + 1) left all cursor.tokens)
    (hfits : Fits bound left cursor.tokens)
    (hfails : Fails limit last
      ((extend cTable steps operand open? bound rounds power left).run cursor)) :
    Completable all (Grammatical (depth + 1) bound) := by
  induction rounds generalizing cursor count power left with
  | zero => exact hfails.of_ok.1.elim
  | succ rounds ih =>
      simp only [Parse.extend, EStateM.run_bind, run_current] at hfails
      split at hfails
      · rename_i hbinds
        have hend : ¬cursor.current.isEnd := by
          -- The end of the input binds nothing, so the loop does not take it.
          intro hend
          have hinert := Token.inert_of_isEnd hend
          rw [hinert] at hbinds
          exact absurd hbinds.1 (Int.not_lt.mpr hbound)
        obtain ⟨hplace, _, behind, htokens, hwithin', hawaits', hfails⟩ :=
          hawaits.take hwithin hend hfails
        rw [htokens] at hyields hfits
        rcases hfails.bind with hfails | ⟨next, after, hrun, hfails⟩
        · -- The operand before the operator stays, whatever completes what is behind it.
          obtain ⟨used, _, rfl, hretail⟩ := hyields.retail
          rw [← List.singleton_append, ← List.append_assoc]
          refine (h.applyLeft (by omega) hwithin' hawaits' hplace hfails).prepend
            behind.tokens_ne_nil ?_
          intro between rest next expr hnext hexpr
          rw [List.append_assoc, List.singleton_append]
          exact ⟨expr, .of_left hbound hnext (hretail _) (hfits.retail _) hbinds.1 hexpr⟩
        · obtain ⟨hreads, hwithin'⟩ := applyLeft_sound h.implements (by omega) hwithin' hrun
          have hawaits' := hawaits'.of_suffix (hreads.suffix (Reads.consumes _ _))
          exact ih (by omega) hwithin' hawaits' (hreads.yields (Reads.yields depth) hyields)
            (hreads.fits (Reads.fits depth) hyields.1 hfits hbinds.1).1 hfails
      · exact hfails.of_ok.1.elim

end Rules

/-- Reading an expression is completed wherever it fails for the end of the input, for
every budget. -/
theorem expression_completes (limit : Nat) (last : Token) (steps budget : Nat) :
    Completes (expression cTable limit steps budget) limit last budget steps := by
  refine ⟨expression_implements CTable.endIsInert limit steps budget, ?_⟩
  induction budget with
  | zero =>
      intro open? bound cursor count _ _ _ _ hfails
      exact absurd rfl hfails.of_error.shallow
  | succ budget ih =>
      intro open? bound cursor count hbound hsteps hwithin hawaits hfails
      have hoperand : Completes (expression cTable limit steps budget) limit last budget steps :=
        ⟨expression_implements CTable.endIsInert limit steps budget, ih⟩
      simp only [expression, EStateM.run_bind, run_current] at hfails
      split at hfails
      · rw [hawaits.eq_last hfails.of_error.position]
        exact .operand_end hbound last
      · rename_i hend
        obtain ⟨hplace, hupdate, behind, htokens, hwithin', hawaits', hfails⟩ :=
          hawaits.take hwithin hend hfails
        rcases hfails.bind with hfails | ⟨left, after, hrun, hfails⟩
        · rw [htokens, ← List.singleton_append]
          refine (hoperand.applyNull (by omega) hwithin' hawaits' hplace hupdate hfails).prepend
            behind.tokens_ne_nil ?_
          exact fun hnext hexpr => ⟨_, .of_null hbound hnext hexpr⟩
        · obtain ⟨hreads, hwithin'⟩ := applyNull_sound hoperand.implements (by omega) hwithin' hrun
          have hawaits' := hawaits'.of_suffix (hreads.suffix (Reads.consumes _ _))
          have hyields := hreads.yields (Reads.yields budget)
          rw [← htokens] at hyields
          exact hoperand.extend (by omega) hwithin' hawaits' hbound hyields
            (hreads.fits (Reads.fits budget)).1 hfails

theorem awaits_of_front {front : List Token} {last : Token} (hend : last.isEnd)
    (hfront : ∀ token ∈ front, ¬token.isEnd ∧ token.span.start < last.span.start)
    (hupdate : ∀ token ∈ front, token.lexeme ∉ [mark "++", mark "--"]) :
    Awaits last (front ++ [last]) := by
  induction front with
  | nil => exact .last hend
  | cons token front ih =>
      obtain ⟨⟨hnot, hlt⟩, hfront⟩ := List.forall_mem_cons.mp hfront
      obtain ⟨hkeep, hupdate⟩ := List.forall_mem_cons.mp hupdate
      exact .more hnot (Nat.ne_of_lt hlt) hkeep (ih hfront hupdate)

end Parse

namespace Parser

/-- Where a parse fails for the end token, its tokens can be completed. -/
theorem completable_of_complete {limit : Nat} {last : Token} {cursor : Cursor}
    (hwithin : cursor.Within cursor.steps) (hawaits : Awaits last cursor.tokens)
    (hfails : Fails limit last ((Parser.ofC limit).complete.run cursor)) :
    Completable cursor.tokens (Grammatical limit minPower) := by
  have hcompletes := expression_completes limit last cursor.steps limit
  rcases hfails.bind with hget | ⟨_, _, hget, hfails⟩
  · exact hget.of_ok.1.elim
  · simp only [EStateM.run_get, EStateM.Result.ok.injEq] at hget
    obtain ⟨rfl, rfl⟩ := hget
    rcases hfails.bind with hfails | ⟨expr, between, hrun, hfails⟩
    · exact hcompletes.fails (Int.le_refl _) (Nat.le_refl _) hwithin hawaits hfails
    · -- Behind a whole expression only a token that is left over is refused.
      obtain ⟨_, _, hawaits'⟩ := hcompletes.sound (Nat.le_refl _) hwithin hawaits hrun
      rw [EStateM.run_bind, run_current] at hfails
      dsimp only at hfails
      split at hfails
      · rename_i hleftover
        have hlast := hawaits'.eq_last
          ((OperatorTable.position_leftover hleftover).symm.trans hfails.of_error.position)
        rw [Cursor.tokens_eq, List.cons.injEq] at hlast
        rw [OperatorTable.leftover?_eq_none_iff.mpr (hlast.1 ▸ hawaits.isEnd)] at hleftover
        cases hleftover
      · exact hfails.of_ok.1.elim

/-- The tokens of a source that is refused for its end token can be completed. -/
theorem completable_of_parse {limit : Nat} {source : String} {diagnostic : Diagnostic}
    {tokens : List Token} {last : Token} (h : (Parser.ofC limit).parse source = .error diagnostic)
    (hend : diagnostic.AtEnd limit last) (htokens : tokenize source = .ok tokens)
    (hawaits : Awaits last tokens) : Completable tokens (Grammatical limit minPower) := by
  obtain ⟨_, _, hsplit, hstream, _⟩ :=
    (TokenStream.ofSource_sealed source).split_of_collect htokens
  obtain ⟨token, rest, hcons⟩ : ∃ token rest, tokens = token :: rest :=
    List.exists_cons_of_ne_nil (by simp [hsplit])
  obtain ⟨cursor, hstart⟩ := Cursor.start_of_tokens (hstream.trans hcons)
  have hcursor : cursor.tokens = tokens := by
    rw [← hstream, ← Cursor.start_stream hstart]
    rfl
  have hfails : Fails limit last ((Parser.ofC limit).complete.run cursor) := by
    simp only [parse, run, hstart] at h
    split at h
    · cases h
    · rename_i hrun
      cases h
      exact hrun ▸ .error hend
  rw [← hcursor] at hawaits ⊢
  exact completable_of_complete (Cursor.start_within hstart) hawaits hfails

/-- A source that can be completed is accepted with closing words behind it. -/
theorem parse_of_completable {limit : Nat} {source : String} {tokens : List Token}
    (htokens : tokenize source = .ok tokens)
    (h : Completable tokens (Grammatical limit minPower)) :
    ∃ words : List String, words ⊆ ["x", ")", "]", ":"] ∧ ∀ limit', limit ≤ limit' →
      ∃ expr, (Parser.ofC limit').parse (source ++ " " ++ " ".intercalate words) = .ok expr := by
  obtain ⟨front, last, rfl, _, hend, _⟩ :=
    (TokenStream.ofSource_sealed source).split_of_collect htokens
  obtain ⟨closing, hclosing, hreads⟩ := h
  -- Where the closing words stand is of no account.
  let added : List Token := closing.map fun lexeme => ⟨lexeme.kind, lexeme.value, .origin⟩
  have hadded : added.map Token.lexeme = closing := by
    simp [added, Token.lexeme, Function.comp_def]
  obtain ⟨expr, hexpr⟩ := @hreads added [] last hadded (Token.inert_of_isEnd hend)
  obtain ⟨hwell, used, hused, hspelling⟩ := hexpr.yields
  rw [List.dropLast_concat, ← List.append_assoc] at hused
  obtain rfl := List.append_cancel_right hused
  rw [List.map_append, hadded, ← lexemes_tokenize htokens] at hspelling
  have hwords : ∀ lexeme ∈ closers, lexeme.IsWord := by decide +kernel
  have hlexes : Lexes (source ++ " " ++ " ".intercalate (closing.map Lexeme.value)).toList
      (lexemes (front ++ [last]) ++ closing) [] := by
    have hspaced := @Lexes.spaced closing (fun lexeme hmem => hwords lexeme (hclosing hmem)) []
      (by simp [Clear])
    simpa using Lexes.append (.of_tokenize htokens (.cons rfl)) hspaced.blank
  obtain ⟨longer, hlonger, hlexemes⟩ := hlexes.tokenize
  rw [← hlexemes] at hspelling
  refine ⟨closing.map Lexeme.value, List.map_subset Lexeme.value hclosing, fun limit' hle => ?_⟩
  obtain ⟨read, hread, _⟩ :=
    parse_of_spelling hwell hexpr.fits.agrees hlonger (hspelling.mono hle)
  exact ⟨read, hread⟩

/-- Errors at the end of the input mean that the input is incomplete. If the C grammar
refuses a source at the place behind its last byte, then some words `x`, `)`, `]` and `:`
behind the source make it one that is accepted, at the same limit on nesting and at every
higher one. The limit has to be above the number of tokens, or what is missing might be
depth; and `++` and `--` are left out because they refuse operands that are complete. -/
theorem parse_completable {limit : Nat} {source : String} {diagnostic : Diagnostic}
    (hlength : source.utf8ByteSize < 0x100000000)
    (hupdate : ∀ symbol ∈ ["++", "--"],
      mark symbol ∉ lexemes (TokenStream.ofSource source).tokens)
    (hlimit : (lexemes (TokenStream.ofSource source).tokens).length < limit)
    (h : (Parser.ofC limit).parse source = .error diagnostic)
    (hposition : diagnostic.position = source.utf8ByteSize) :
    ∃ words : List String, words ⊆ ["x", ")", "]", ":"] ∧ ∀ limit', limit ≤ limit' →
      ∃ expr, (Parser.ofC limit').parse (source ++ " " ++ " ".intercalate words) = .ok expr := by
  obtain ⟨front, last, htokens, hend, hlate, hnames, hfront⟩ :=
    tokenize_of_late hlength h hposition
  obtain ⟨_, _, _, hstream, _⟩ := (TokenStream.ofSource_sealed source).split_of_collect htokens
  rw [hstream, lexemes_tokenize htokens] at hupdate
  have hawaits : Awaits last (front ++ [last]) := by
    refine awaits_of_front hend hfront fun token htoken hmem => ?_
    simp only [List.mem_cons, List.not_mem_nil, or_false] at hmem
    rcases hmem with hmem | hmem
    · exact hupdate "++" (by simp) (hmem ▸ List.mem_map_of_mem htoken)
    · exact hupdate "--" (by simp) (hmem ▸ List.mem_map_of_mem htoken)
  have hend := Diagnostic.AtEnd.mk hlate hnames (not_isTooDeep_of_length hlimit h)
  exact parse_of_completable htokens (completable_of_parse h hend htokens hawaits)

theorem parse_completable_nested :
    "f(a ? b[(c +".utf8ByteSize < 0x100000000 ∧
      (∀ symbol ∈ ["++", "--"],
        mark symbol ∉ lexemes (TokenStream.ofSource "f(a ? b[(c +").tokens) ∧
      (lexemes (TokenStream.ofSource "f(a ? b[(c +").tokens).length < 16 ∧
      (Parser.ofC 16).parse "f(a ? b[(c +" = .error ⟨.unexpectedToken "EOF", 12⟩ ∧
      12 = "f(a ? b[(c +".utf8ByteSize ∧
      ∃ words : List String, words ⊆ ["x", ")", "]", ":"] ∧ ∀ limit', 16 ≤ limit' →
        ∃ expr, (Parser.ofC limit').parse ("f(a ? b[(c +" ++ " " ++ " ".intercalate words) =
          .ok expr := by
  have hlength : "f(a ? b[(c +".utf8ByteSize < 0x100000000 := by decide +kernel
  have hupdate : ∀ symbol ∈ ["++", "--"],
      mark symbol ∉ lexemes (TokenStream.ofSource "f(a ? b[(c +").tokens := by decide +kernel
  have hlimit : (lexemes (TokenStream.ofSource "f(a ? b[(c +").tokens).length < 16 := by
    decide +kernel
  have hparse : (Parser.ofC 16).parse "f(a ? b[(c +" = .error ⟨.unexpectedToken "EOF", 12⟩ := by
    decide +kernel
  have hposition : 12 = "f(a ? b[(c +".utf8ByteSize := by decide +kernel
  exact ⟨hlength, hupdate, hlimit, hparse, hposition,
    parse_completable hlength hupdate hlimit hparse hposition⟩

end Parser

end Precedence
