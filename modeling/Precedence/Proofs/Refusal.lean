import Precedence.Proofs.Completable
import Precedence.Proofs.Limit
import Precedence.Proofs.PlainLoop

/-!
Where a source of the C grammar is refused. Every rule closes the brackets that it opens,
so the brackets that a parse has open are those that the tokens before the cursor leave
open. And no operand ends before a token that holds anything of it, except before the
comma that ends an argument. So wherever a parse fails it is known how the token at fault
stands to the innermost open bracket, and what it does behind an operand.
-/

namespace Precedence

/-! The brackets that tokens leave open. -/

/-- The closing brackets that are due behind a token, the innermost first. Nothing is due
any more behind a bracket that closes something else than the innermost open one. -/
def Token.due? (token : Token) (due : List String) : Option (List String) :=
  if token.is "(" then some (")" :: due)
  else if token.is "[" then some ("]" :: due)
  else if token.isClosing then
    match due with
    | closer :: outer => if token.is closer then some outer else none
    | [] => none
  else some due

/-- The closing brackets that are due behind some tokens, if each of those that close one
closes the innermost. -/
def closersDue? (tokens : List Token) : Option (List String) :=
  tokens.foldlM (fun due token => token.due? due) []

theorem closersDue?_concat {front : List Token} {token : Token} {due : List String}
    (h : closersDue? front = some due) : closersDue? (front ++ [token]) = token.due? due := by
  rw [closersDue?] at h ⊢
  simp [List.foldlM_append, h]

namespace Token

variable {token : Token} {due : List String}

theorem due?_parenthesis (h : token.is "(") : token.due? due = some (")" :: due) := by
  simp [due?, h]

theorem due?_bracket (h : token.is "[") : token.due? due = some ("]" :: due) := by
  simp [due?, h, not_is h]

theorem due?_closing {delimiter : Delimiter} (h : token.is delimiter.closing) :
    token.due? (delimiter.closing :: due) = some due := by
  obtain ⟨kind, value, span⟩ := token
  simp only [Token.is, Bool.and_eq_true, decide_eq_true_eq] at h
  obtain ⟨rfl, rfl⟩ := h
  cases delimiter <;> simp [due?, isClosing, Token.is, Delimiter.closing]

theorem key_of_is {symbol : String} (h : token.is symbol) : token.key = .symbol symbol := by
  simp only [Token.is, Bool.and_eq_true, decide_eq_true_eq] at h
  simp only [key, h.1, h.2]

/-- A token that is no bracket changes nothing. -/
theorem due?_other (h : token.key ∉ ["(", ")", "[", "]"].map TokenKey.symbol) :
    token.due? due = some due := by
  have hnot : ∀ symbol ∈ ["(", ")", "[", "]"], ¬token.is symbol := by
    intro symbol hsymbol his
    exact h (key_of_is his ▸ List.mem_map_of_mem hsymbol)
  simp only [List.forall_mem_cons] at hnot
  simp [due?, isClosing, hnot]

end Token

namespace CTable

/-- The rules at the beginning of an operand that no bracket has. -/
theorem due?_of_null (due : List String) {token : Token}
    (h : (cTable.null token).rule ∈ [.literal, .prefixed, .prefixUpdate]) :
    token.due? due = some due := by
  refine Token.due?_other (OperatorTable.forall_null (fun key binding =>
    binding.rule ∈ [.literal, .prefixed, .prefixUpdate] →
      key ∉ ["(", ")", "[", "]"].map TokenKey.symbol) ?_ ?_ token h)
  · decide +kernel
  · simp [Binding.inert]

/-- The rules behind an operand that no bracket has. -/
theorem due?_of_left (due : List String) {token : Token}
    (h : (cTable.left token).rule ∈ [.binary, .assignment, .ternary, .comma, .suffixed]) :
    token.due? due = some due := by
  refine Token.due?_other (OperatorTable.forall_left (fun key binding =>
    binding.rule ∈ [.binary, .assignment, .ternary, .comma, .suffixed] →
      key ∉ ["(", ")", "[", "]"].map TokenKey.symbol) ?_ ?_ token h)
  · decide +kernel
  · simp [Binding.inert]

/-- The comma is the only operator of its level, and there is none below. -/
theorem inert_of_le {token : Token} (h : (cTable.left token).leftPower ≤ Level.comma.power)
    (hcomma : ¬token.is ",") : token.Inert := by
  have hkey : token.key = .symbol "," ∨ token.Inert :=
    OperatorTable.forall_left (fun key binding =>
      binding.leftPower ≤ Level.comma.power → key = .symbol "," ∨ binding.leftPower = minPower)
      (by decide +kernel) (fun _ _ => .inr rfl) token h
  refine hkey.resolve_left fun hkey => hcomma ?_
  obtain ⟨kind, value, span⟩ := token
  cases kind <;> simp_all [Token.key, Token.is]

theorem inert_of_le_min {token : Token} (h : (cTable.left token).leftPower ≤ minPower) :
    token.Inert := by
  refine inert_of_le (Int.le_trans h (by decide)) fun hcomma => ?_
  rw [OperatorTable.left_of_is hcomma, leftPower_comma] at h
  exact absurd h (by decide)

theorem null_end {token : Token} (h : token.isEnd) : (cTable.null token).rule = .unregistered := by
  have hkind : token.kind = .endOfInput := by simpa [Token.isEnd] using h
  simp only [OperatorTable.null, Token.key, hkind]
  decide

end CTable

def Event.Builds : Event → Prop
  | .left _ binding => binding.rule ≠ .unregistered ∧ binding.rule ≠ .error
  | _ => True

/-- An operator that holds its left operand has a rule. -/
theorem CTable.builds_left {token : Token} (h : minPower < (cTable.left token).leftPower) :
    (Event.left token (cTable.left token)).Builds :=
  OperatorTable.forall_left (fun _ binding =>
    minPower < binding.leftPower → binding.rule ≠ .unregistered ∧ binding.rule ≠ .error)
    (by decide +kernel) (fun _ h => absurd h (Int.lt_irrefl _)) token h

/-- Why a token is refused where the closing bracket `expected` is due next, if any is. -/
inductive Misfit (expected : Option String) (token : Token) : Diagnostic → Prop
  | unregistered (hrule : (cTable.null token).rule = .unregistered) :
      Misfit expected token ⟨.unexpectedToken token.value, token.span.start⟩
  | notLeading (hrule : (cTable.null token).rule = .error) :
      Misfit expected token ⟨.notLeading token.value, token.span.start⟩
  | missing (hrule : (cTable.null token).rule = .closing)
      (hexpected : expected = some token.value) :
      Misfit expected token ⟨.unexpectedToken token.value, token.span.start⟩
  | unopened (hrule : (cTable.null token).rule = .closing)
      (hexpected : expected ≠ some token.value) :
      Misfit expected token ⟨.unmatchedDelimiter expected token.value, token.span.start⟩
  | notFollowing (hmisplaced : cTable.misplaced? token ≠ none) :
      Misfit expected token ⟨.notFollowing token.value, token.span.start⟩
  | unclosed {closer : String} (hexpected : expected = some closer) (hcloser : ¬token.is closer)
      (hinert : token.Inert) (hmisplaced : cTable.misplaced? token = none) :
      Misfit expected token ⟨.unmatchedDelimiter expected token.value, token.span.start⟩
  | colonless (hinert : token.Inert) (hmisplaced : cTable.misplaced? token = none) :
      Misfit expected token ⟨.malformedTernary token.value, token.span.start⟩
  | surplus (hexpected : expected = none) (hclosing : token.isClosing) :
      Misfit expected token ⟨.unmatchedDelimiter expected token.value, token.span.start⟩
  | trailing (hend : ¬token.isEnd) (hclosing : ¬token.isClosing) (hinert : token.Inert)
      (hmisplaced : cTable.misplaced? token = none) :
      Misfit expected token ⟨.trailingInput token.value, token.span.start⟩

namespace Misfit

variable {expected : Option String} {token : Token} {diagnostic : Diagnostic}

/-- A token behind an operand is first tried as an operator that cannot follow one. -/
theorem of_misplaced (h : cTable.misplaced? token = none → Misfit expected token diagnostic) :
    Misfit expected token ((cTable.misplaced? token).getD diagnostic) := by
  cases hmisplaced : cTable.misplaced? token with
  | none => exact h hmisplaced
  | some found =>
      have hne : cTable.misplaced? token ≠ none := by simp [hmisplaced]
      unfold OperatorTable.misplaced? at hmisplaced
      split at hmisplaced <;> cases hmisplaced
      exact .notFollowing hne

theorem of_leftover (hinert : token.Inert) (h : cTable.leftover? token = some diagnostic) :
    Misfit none token diagnostic := by
  unfold OperatorTable.leftover? at h
  split at h
  · cases h
  · rename_i hend
    split at h
    · rename_i hclosing
      cases h
      exact .surplus rfl hclosing
    · rename_i hclosing
      cases h
      exact of_misplaced (.trailing hend hclosing hinert)

end Misfit

/-- What a stream is refused for: its own diagnostic, the nesting or the target of an
assignment, or a token that does not fit behind those before it. -/
inductive Refused (stream : TokenStream) : Diagnostic → Prop
  | broken {diagnostic : Diagnostic} (hmem : .error diagnostic ∈ stream) :
      Refused stream diagnostic
  | tooDeep {limit place : Nat} : Refused stream ⟨.tooDeep limit, place⟩
  | target {text : String} {place : Nat} : Refused stream ⟨.invalidTarget text, place⟩
  | misfit {front : List Token} {token : Token} {rest : TokenStream} {due : List String}
      {diagnostic : Diagnostic} (hstream : stream = front.map .ok ++ .ok token :: rest)
      (hdue : closersDue? front = some due) (hmisfit : Misfit due.head? token diagnostic) :
      Refused stream diagnostic

def Cursor.LogBuilds (cursor : Cursor) : Prop := ∀ event ∈ cursor.log, event.Builds

/-- The cursor stands in the stream with fewer than `count` items left, behind tokens that
leave the brackets of `due` open. -/
structure Cursor.Inside (stream : TokenStream) (due : List String) (count : Nat) (cursor : Cursor) :
    Prop where
  within : cursor.Within count
  behind : ∃ front : List Token,
    stream = front.map .ok ++ cursor.stream ∧ closersDue? front = some due
  builds : cursor.LogBuilds

/-- The cursor has just moved from the token, before which the brackets of `due` were
open. -/
structure Cursor.Behind (stream : TokenStream) (due : List String) (token : Token) (count : Nat)
    (cursor : Cursor) : Prop where
  within : cursor.Within count
  behind : ∃ front : List Token,
    stream = front.map .ok ++ .ok token :: cursor.stream ∧ closersDue? front = some due
  builds : cursor.LogBuilds

section Places

variable {stream : TokenStream} {due due' : List String} {count count' : Nat} {token : Token}
  {cursor : Cursor} {diagnostic : Diagnostic}

theorem Cursor.Inside.mono (h : cursor.Inside stream due count) (hle : count ≤ count') :
    cursor.Inside stream due count' :=
  ⟨h.within.mono hle, h.behind, h.builds⟩

theorem Cursor.Inside.refused (h : cursor.Inside stream due count)
    (hmisfit : Misfit due.head? cursor.current diagnostic) : Refused stream diagnostic := by
  obtain ⟨front, hstream, hdue⟩ := h.behind
  exact .misfit hstream hdue hmisfit

theorem Cursor.Behind.refused (h : cursor.Behind stream due token count)
    (hmisfit : Misfit due.head? token diagnostic) : Refused stream diagnostic := by
  obtain ⟨front, hstream, hdue⟩ := h.behind
  exact .misfit hstream hdue hmisfit

theorem Cursor.Behind.inside (h : cursor.Behind stream due token count)
    (hdue' : token.due? due = some due') : cursor.Inside stream due' count := by
  obtain ⟨front, hstream, hdue⟩ := h.behind
  refine ⟨h.within, ⟨front ++ [token], ?_, ?_⟩, h.builds⟩
  · simpa using hstream
  · rw [closersDue?_concat hdue, hdue']

theorem Cursor.builds_sighting (token : Token) : ∀ event ∈ sighting token, event.Builds := by
  unfold sighting
  split <;> simp [Event.Builds]

theorem Cursor.inside_start {source : String} (hstart : Cursor.start source = .ok cursor) :
    cursor.Inside (TokenStream.ofSource source) [] cursor.steps := by
  refine ⟨start_within hstart, ⟨[], (start_stream hstart).symm, rfl⟩, ?_⟩
  unfold Cursor.start at hstart
  split at hstart
  · cases hstart
    exact builds_sighting _
  · cases hstart
  · cases hstart
    simp [LogBuilds]

end Places

namespace Parse

/-- How a run ends: with what `post` says, or refused for a reason that the stream
shows. -/
inductive Accounted {α : Type} (stream : TokenStream) (post : α → Cursor → Prop) :
    EStateM.Result Diagnostic Cursor α → Prop
  | done {a : α} {cursor : Cursor} (hpost : post a cursor) : Accounted stream post (.ok a cursor)
  | refused {diagnostic : Diagnostic} {cursor : Cursor} (hrefused : Refused stream diagnostic)
      (hbuilds : cursor.LogBuilds) : Accounted stream post (.error diagnostic cursor)

section Steps

variable {α β : Type} {stream : TokenStream} {due : List String} {count : Nat} {cursor : Cursor}
  {token : Token}

theorem Accounted.bind {m : Parse α} {next : α → Parse β} {post : α → Cursor → Prop}
    {post' : β → Cursor → Prop} (h : Accounted stream post (m.run cursor))
    (hnext : ∀ a cursor', post a cursor' → Accounted stream post' ((next a).run cursor')) :
    Accounted stream post' ((m >>= next).run cursor) := by
  rw [EStateM.run_bind]
  generalize m.run cursor = result at h
  cases h with
  | done hpost => exact hnext _ _ hpost
  | refused hrefused hbuilds => exact .refused hrefused hbuilds

theorem Accounted.mono {post post' : α → Cursor → Prop}
    {result : EStateM.Result Diagnostic Cursor α} (h : Accounted stream post result)
    (hpost : ∀ a cursor, post a cursor → post' a cursor) : Accounted stream post' result := by
  cases h with
  | done h => exact .done (hpost _ _ h)
  | refused hrefused hbuilds => exact .refused hrefused hbuilds

theorem run_current_bind (next : Token → Parse α) :
    (current >>= next).run cursor = (next cursor.current).run cursor := rfl

/-- The current token is taken. -/
theorem accounted_advance (h : cursor.Inside stream due count) (hend : ¬cursor.current.isEnd) :
    Accounted stream
      (fun token cursor' => token = cursor.current ∧ cursor'.Behind stream due token (count - 1))
      (advance.run cursor) := by
  obtain ⟨hwithin, ⟨front, hstream, hdue⟩, hbuilds⟩ := h
  obtain ⟨current, ahead, log⟩ := cursor
  obtain ⟨hsealed, hshort⟩ := hwithin
  cases hsealed with
  | finished hlast => exact absurd hlast hend
  | more _ hahead =>
      cases ahead with
      | nil => cases hahead
      | cons item ahead =>
          cases item with
          | error diagnostic =>
              refine .refused (.broken ?_) hbuilds
              simp [hstream, Cursor.stream]
          | ok next =>
              refine .done ⟨rfl, ⟨hahead, ?_⟩, ⟨front, hstream, hdue⟩, ?_⟩
              · simp only [Cursor.stream, List.length_cons] at hshort ⊢
                omega
              · intro event hevent
                rcases List.mem_append.mp hevent with hevent | hevent
                · exact Cursor.builds_sighting next event hevent
                · exact hbuilds event hevent

theorem accounted_record (event : Event) (h : cursor.Behind stream due token count)
    (hevent : event.Builds) :
    Accounted stream (fun _ cursor' => cursor'.Behind stream due token count)
      ((record event).run cursor) := by
  obtain ⟨⟨hsealed, hshort⟩, hbehind, hbuilds⟩ := h
  refine .done ⟨⟨hsealed, hshort⟩, hbehind, ?_⟩
  intro other hother
  rcases List.mem_cons.mp hother with rfl | hother
  · exact hevent
  · exact hbuilds other hother

theorem accounted_ensureAssignable (h : cursor.Inside stream due count) (target : Expr) :
    Accounted stream (fun _ cursor' => cursor'.Inside stream due count)
      ((ensureAssignable target).run cursor) := by
  unfold ensureAssignable
  split
  · exact .done h
  · exact .refused .target h.builds

/-- The innermost open bracket is closed. -/
theorem accounted_expectClosing (delimiter : Delimiter)
    (h : cursor.Inside stream (delimiter.closing :: due) count) (hinert : cursor.current.Inert) :
    Accounted stream (fun _ cursor' => cursor'.Inside stream due (count - 1))
      ((expectClosing cTable delimiter).run cursor) := by
  rw [expectClosing, run_current_bind]
  split
  · rename_i hclose
    refine (accounted_advance h (Token.not_isEnd_of_is hclose)).mono ?_
    rintro _ behind ⟨rfl, hbehind⟩
    exact hbehind.inside (Token.due?_closing hclose)
  · rename_i hclose
    exact .refused (h.refused (.of_misplaced (.unclosed rfl hclose hinert))) h.builds

end Steps

/-- Reading an operand leaves the brackets open that it found open, and stops at a token
that binds no tighter than the bound. -/
def Accounts (stream : TokenStream) (operand : Operand) (steps : Nat) : Prop :=
  ∀ {open? : Option Delimiter} {bound : Int} {due : List String} {count : Nat} {cursor : Cursor},
    open?.map Delimiter.closing = due.head? → minPower ≤ bound → count ≤ steps →
    cursor.Inside stream due count →
    Accounted stream (fun _ cursor' => cursor'.Inside stream due (count - 1) ∧
      (cTable.left cursor'.current).leftPower ≤ bound) ((operand open? bound).run cursor)

section Rules

variable {stream : TokenStream} {operand : Operand} {steps count : Nat} {open? : Option Delimiter}
  {due : List String} {cursor : Cursor} {token : Token}

/-- What is built with one more operand. -/
theorem accounted_operand (hoperand : Accounts stream operand steps)
    (hopen : open?.map Delimiter.closing = due.head?) {bound : Int} (hbound : minPower ≤ bound)
    (hsteps : count ≤ steps) (h : cursor.Inside stream due count) (build : Expr → Expr) :
    Accounted stream (fun _ cursor' => cursor'.Inside stream due count)
      ((operand open? bound >>= fun inner => pure (build inner)).run cursor) := by
  refine (hoperand hopen hbound hsteps h).bind ?_
  rintro inner between ⟨hbetween, -⟩
  exact .done (hbetween.mono (by omega))

theorem accounted_applyNull (hoperand : Accounts stream operand steps)
    (hopen : open?.map Delimiter.closing = due.head?) (hsteps : count ≤ steps)
    (h : cursor.Behind stream due token count) :
    Accounted stream (fun _ cursor' => cursor'.Inside stream due count)
      ((applyNull cTable operand open? (cTable.null token) token).run cursor) := by
  unfold applyNull
  split
  case h_1 hrule => exact .refused (h.refused (.unregistered hrule)) h.builds
  case h_2 hrule => exact .refused (h.refused (.notLeading hrule)) h.builds
  case h_3 hrule =>
    refine .refused ?_ h.builds
    unfold Delimiter.missingOperand Delimiter.unmatched
    rw [hopen]
    split
    · rename_i hexpected
      exact h.refused (.missing hrule hexpected)
    · rename_i hexpected
      exact h.refused (.unopened hrule hexpected)
  case h_4 hrule => exact .done (h.inside (CTable.due?_of_null due (by simp [hrule])))
  case h_5 hrule =>
    obtain ⟨hkind, hvalue⟩ := CTable.symbol_of_null hrule (by decide)
    have hsymbol : token.is "(" := by simpa [Token.is, hkind, NullRule.suits] using hvalue
    rw [CTable.rightPower_grouping hrule, grouping]
    refine (hoperand rfl (Int.le_refl _) hsteps (h.inside (Token.due?_parenthesis hsymbol))).bind ?_
    rintro inner between ⟨hbetween, hpower⟩
    have hclose := accounted_expectClosing .group hbetween
      (CTable.inert_of_le_min hpower)
    exact hclose.bind fun _ _ hlast => .done (hlast.mono (by omega))
  case h_6 hrule =>
    have hpower := (CTable.null_regular token).rightPower (.inl hrule)
    have hinside := h.inside (CTable.due?_of_null due (by simp [hrule]))
    exact accounted_operand hoperand hopen (Int.le_trans (by decide) hpower) hsteps hinside _
  case h_7 hrule =>
    have hpower := (CTable.null_regular token).rightPower (.inr hrule)
    have hinside := h.inside (CTable.due?_of_null due (by simp [hrule]))
    rw [prefixUpdate]
    refine (hoperand hopen (Int.le_trans (by decide) hpower) hsteps hinside).bind ?_
    rintro inner between ⟨hbetween, -⟩
    refine (accounted_ensureAssignable hbetween inner).bind fun _ _ hlast => ?_
    exact .done (hlast.mono (by omega))

/-- The arguments of a call end before a token that holds nothing. -/
theorem accounted_arguments (hoperand : Accounts stream operand steps) {rounds : Nat}
    (hrounds : count ≤ rounds) (hsteps : count ≤ steps)
    (h : cursor.Inside stream (")" :: due) count) :
    Accounted stream
      (fun _ cursor' => cursor'.Inside stream (")" :: due) count ∧ cursor'.current.Inert)
      ((arguments operand Level.comma.power rounds).run cursor) := by
  induction rounds generalizing cursor count with
  | zero =>
      have hpos := h.within.pos
      omega
  | succ rounds ih =>
      rw [arguments, run_current_bind]
      split
      · rename_i hclose
        refine .done ⟨h, ?_⟩
        rw [Token.Inert, OperatorTable.left_of_is hclose]
        exact CTable.leftPower_closing (by decide)
      · rename_i hopen
        split
        · rename_i hend
          have hmisplaced : cTable.misplaced? cursor.current = none := by
            simp_all [OperatorTable.misplaced?, Token.isEnd]
          have hinert := Token.inert_of_isEnd hend
          exact .refused (h.refused (.unclosed rfl hopen hinert hmisplaced)) h.builds
        · refine (hoperand rfl (by decide) hsteps h).bind ?_
          rintro first between ⟨hbetween, hpower⟩
          rw [run_current_bind]
          split
          · rename_i hcomma
            refine (accounted_advance hbetween (Token.not_isEnd_of_is hcomma)).bind ?_
            rintro _ behind ⟨rfl, hbehind⟩
            have hrule : (cTable.left between.current).rule = .comma := by
              rw [OperatorTable.left_of_is hcomma]
              decide
            have hinside := hbehind.inside (CTable.due?_of_left _ (by simp [hrule]))
            refine (ih (by omega) (by omega) hinside).bind ?_
            rintro rest last ⟨hlast, hinert⟩
            exact .done ⟨hlast.mono (by omega), hinert⟩
          · rename_i hcomma
            exact .done ⟨hbetween.mono (by omega), CTable.inert_of_le hpower hcomma⟩

theorem accounted_ternary (hoperand : Accounts stream operand steps)
    (hopen : open?.map Delimiter.closing = due.head?) (hsteps : count ≤ steps)
    (h : cursor.Inside stream due count) (condition : Expr) {bound : Int}
    (hbound : minPower ≤ bound) :
    Accounted stream (fun _ cursor' => cursor'.Inside stream due count)
      ((ternary cTable operand open? condition bound).run cursor) := by
  rw [ternary]
  refine (hoperand hopen (Int.le_refl _) hsteps h).bind ?_
  rintro positive between ⟨hbetween, hpower⟩
  rw [run_current_bind]
  split
  · rename_i hcolon
    refine (accounted_advance hbetween (Token.not_isEnd_of_is hcolon)).bind ?_
    rintro _ behind ⟨rfl, hbehind⟩
    have hneutral : between.current.due? due = some due := Token.due?_other (by
      rw [Token.key_of_is hcolon]
      decide)
    have hnegative := accounted_operand hoperand hopen hbound (by omega) (hbehind.inside hneutral)
      fun negative => .ofOperands "?" [condition, positive, negative]
    exact hnegative.mono fun _ _ hlast => hlast.mono (by omega)
  · have hinert := CTable.inert_of_le_min hpower
    exact .refused (hbetween.refused (.of_misplaced (.colonless hinert))) hbetween.builds

theorem accounted_applyLeft (hoperand : Accounts stream operand steps)
    (hopen : open?.map Delimiter.closing = due.head?) (hsteps : count ≤ steps)
    (h : cursor.Behind stream due token count)
    (hpower : minPower < (cTable.left token).leftPower) (left : Expr) :
    Accounted stream (fun _ cursor' => cursor'.Inside stream due count)
      ((applyLeft cTable steps operand open? (cTable.left token) token left).run cursor) := by
  have hbound (hends : (cTable.left token).rule.endsInOperand) :
      minPower ≤ (cTable.left token).rightPower :=
    Int.le_trans (by decide) ((CTable.left_regular token).rightPower_bounds hends).1
  have hinside (hrule : (cTable.left token).rule ∈
      [.binary, .assignment, .ternary, .comma, .suffixed]) : cursor.Inside stream due count :=
    h.inside (CTable.due?_of_left due hrule)
  unfold applyLeft
  split
  case h_1 hrule => exact absurd hrule (CTable.builds_left hpower).1
  case h_2 hrule => exact absurd hrule (CTable.builds_left hpower).2
  case h_3 hrule =>
    exact accounted_operand hoperand hopen (hbound (by rw [hrule]; rfl)) hsteps
      (hinside (by simp [hrule])) _
  case h_4 hrule =>
    rw [assignment]
    refine (accounted_ensureAssignable (hinside (by simp [hrule])) left).bind fun _ _ hbetween => ?_
    exact accounted_operand hoperand hopen (hbound (by rw [hrule]; rfl)) hsteps hbetween _
  case h_5 hrule =>
    exact accounted_ternary hoperand hopen hsteps (hinside (by simp [hrule])) left
      (hbound (by rw [hrule]; rfl))
  case h_6 hrule =>
    exact accounted_operand hoperand hopen (hbound (by rw [hrule]; rfl)) hsteps
      (hinside (by simp [hrule])) _
  case h_7 hrule =>
    have hsymbol : token.is "(" := CTable.is_of_rule (by rw [hrule]; rfl)
    rw [call, Delimiter.elementBound, CTable.leftPower_comma]
    refine (accounted_arguments hoperand hsteps hsteps
      (h.inside (Token.due?_parenthesis hsymbol))).bind ?_
    rintro values between ⟨hbetween, hinert⟩
    have hclose := accounted_expectClosing .arguments hbetween hinert
    exact hclose.bind fun _ _ hlast => .done (hlast.mono (by omega))
  case h_8 hrule =>
    have hsymbol : token.is "[" := CTable.is_of_rule (by rw [hrule]; rfl)
    rw [index]
    refine (hoperand rfl (Int.le_refl _) hsteps (h.inside (Token.due?_bracket hsymbol))).bind ?_
    rintro place between ⟨hbetween, hpower⟩
    have hclose := accounted_expectClosing .index hbetween
      (CTable.inert_of_le_min hpower)
    exact hclose.bind fun _ _ hlast => .done (hlast.mono (by omega))
  case h_9 hrule => exact .done (hinside (by simp [hrule]))

/-- The loop stops only at a token that binds no tighter than the bound, since it cannot
run out of rounds. -/
theorem accounted_extendPlain (hoperand : Accounts stream operand steps)
    (hopen : open?.map Delimiter.closing = due.head?) {bound : Int} (hbound : minPower ≤ bound)
    {rounds : Nat} (hrounds : count ≤ rounds) (hsteps : count ≤ steps)
    (h : cursor.Inside stream due count) (left : Expr) :
    Accounted stream (fun _ cursor' => cursor'.Inside stream due count ∧
        (cTable.left cursor'.current).leftPower ≤ bound)
      ((extendPlain cTable steps operand open? bound rounds left).run cursor) := by
  induction rounds generalizing cursor count left with
  | zero =>
      have hpos := h.within.pos
      omega
  | succ rounds ih =>
      rw [extendPlain, run_current_bind]
      dsimp only
      split
      · rename_i hpower
        have hend : ¬cursor.current.isEnd := by
          intro hend
          rw [Token.inert_of_isEnd hend] at hpower
          omega
        refine (accounted_advance h hend).bind ?_
        rintro _ between ⟨rfl, hbetween⟩
        have hpos := Int.lt_of_le_of_lt hbound hpower
        refine (accounted_record _ hbetween (CTable.builds_left hpos)).bind ?_
        intro _ behind hbehind
        refine (accounted_applyLeft hoperand hopen (by omega) hbehind hpos left).bind ?_
        intro next last hlast
        refine (ih (by omega) (by omega) hlast next).mono ?_
        rintro _ _ ⟨hinside, hpower⟩
        exact ⟨hinside.mono (by omega), hpower⟩
      · rename_i hpower
        exact .done ⟨h, Int.not_lt.mp hpower⟩

theorem accounts_expressionPlain (stream : TokenStream) (limit steps budget : Nat) :
    Accounts stream (expressionPlain cTable limit steps budget) steps := by
  induction budget with
  | zero =>
      intro open? bound due count cursor _ _ _ h
      exact .refused .tooDeep h.builds
  | succ budget ih =>
      intro open? bound due count cursor hopen hbound hsteps h
      rw [expressionPlain, run_current_bind]
      split
      · rename_i hend
        exact .refused (h.refused (.unregistered (CTable.null_end hend))) h.builds
      · rename_i hend
        refine (accounted_advance h hend).bind ?_
        rintro _ between ⟨rfl, hbetween⟩
        refine (accounted_record (.null _ _) hbetween trivial).bind fun _ behind hbehind => ?_
        refine (accounted_applyNull ih hopen (by omega) hbehind).bind fun left last hlast => ?_
        exact accounted_extendPlain ih hopen hbound (by omega) (by omega) hlast left

end Rules

end Parse

namespace Parser

theorem accounted_complete (limit : Nat) {stream : TokenStream} {cursor : Cursor}
    (h : cursor.Inside stream [] cursor.steps) :
    Parse.Accounted stream (fun _ cursor' => cursor'.LogBuilds)
      ((ofC limit).complete.run cursor) := by
  rw [run_complete_eq h.within, completePlain, EStateM.run_bind, EStateM.run_get]
  refine (Parse.accounts_expressionPlain stream limit cursor.steps limit rfl
    (Int.le_refl _) (Nat.le_refl _) h).bind ?_
  rintro expr last ⟨hlast, hpower⟩
  rw [Parse.run_current_bind]
  split
  · rename_i diagnostic hleftover
    have hinert := CTable.inert_of_le_min hpower
    exact .refused (hlast.refused (.of_leftover hinert hleftover)) hlast.builds
  · exact .done hlast.builds

theorem accounted_run (limit : Nat) (source : String) :
    (∀ diagnostic, (ofC limit).parse source = .error diagnostic →
      Refused (TokenStream.ofSource source) diagnostic) ∧
      ∀ event ∈ ((ofC limit).run source).events, event.Builds := by
  unfold parse run
  split
  · rename_i broken hstart
    refine ⟨?_, by simp⟩
    rintro _ ⟨⟩
    exact .broken (Cursor.mem_of_start_error hstart)
  · rename_i cursor hstart
    have haccounted := accounted_complete limit (Cursor.inside_start hstart)
    generalize (ofC limit).complete.run cursor = result at haccounted
    cases haccounted with
    | done hbuilds => exact ⟨nofun, by simpa [Cursor.LogBuilds] using hbuilds⟩
    | refused hrefused hbuilds =>
        refine ⟨?_, by simpa [Cursor.LogBuilds] using hbuilds⟩
        rintro _ ⟨⟩
        exact hrefused

end Parser

end Precedence
