import Mathlib.Data.List.Forall2
import Mathlib.Data.List.Perm.Subperm
import Precedence.Parse
import Precedence.Proofs.Adequacy
import Precedence.Proofs.Congruence

/-!
A parse goes through the tokens once, with one token of lookahead. Every token that is
taken stands behind the ones taken before, and when it is taken exactly the next token
has come into view.
-/

namespace Precedence

open Parse

def Event.isSighting : Event → Bool
  | .lexed _ => true
  | _ => false

def Event.taken? : Event → Option Token
  | .lexed _ => none
  | .null token _ => some token
  | .left token _ => some token

/-- The tokens that were taken, in order, each with the number of tokens that had come
into view by then. -/
def dispatches : (seen : Nat) → List Event → List (Token × Nat)
  | _, [] => []
  | seen, event :: events =>
      match event.taken? with
      | some token => (token, seen) :: dispatches seen events
      | none => dispatches (seen + 1) events

theorem dispatches_append (seen : Nat) (events more : List Event) :
    dispatches seen (events ++ more) =
      dispatches seen events ++ dispatches (seen + events.countP Event.isSighting) more := by
  induction events generalizing seen with
  | nil => rfl
  | cons event events ih =>
      cases event <;>
        simp [dispatches, Event.taken?, List.countP_cons, Event.isSighting, ih, Nat.add_assoc,
          Nat.add_comm 1]

theorem dispatches_tokens (seen : Nat) (events : List Event) :
    (dispatches seen events).map Prod.fst = events.filterMap Event.taken? := by
  induction events generalizing seen with
  | nil => rfl
  | cons event events ih => cases event <;> simp [dispatches, Event.taken?, List.filterMap_cons, ih]

/-- The number of tokens before the end of the input. -/
def Token.countWords (tokens : List Token) : Nat := tokens.countP fun token => !token.isEnd

/-- The tokens that were taken stand at the given places, one behind the other, and each of
them was taken when the token behind it had come into view and no other. -/
structure Dispatched (tokens : List Token) (events : List Event) (places : List Nat) : Prop where
  ordered : places.Pairwise (· < ·)
  taken : List.Forall₂ (fun dispatch place => tokens[place]? = some dispatch.1 ∧
    dispatch.2 = min (place + 2) (Token.countWords tokens)) (dispatches 0 events) places

/-- No more tokens are taken than there are. -/
theorem Dispatched.length_le {tokens : List Token} {events : List Event} {places : List Nat}
    (h : Dispatched tokens events places) : (dispatches 0 events).length ≤ tokens.length := by
  have hnodup : places.Nodup := h.ordered.imp Nat.ne_of_lt
  have hsubset : places ⊆ List.range tokens.length := by
    intro place hplace
    obtain ⟨dispatch, hdispatch⟩ : ∃ dispatch, tokens[place]? = some dispatch := by
      obtain ⟨i, hi, rfl⟩ := List.mem_iff_getElem.mp hplace
      have hi' : i < (dispatches 0 events).length := h.taken.length_eq ▸ hi
      exact ⟨_, (h.taken.get hi' hi).1⟩
    exact List.mem_range.mpr (List.getElem?_eq_some_iff.mp hdispatch).1
  have hlength := (List.Nodup.subperm hnodup hsubset).length_le
  rwa [List.length_range, ← h.taken.length_eq] at hlength

def LoggedBelow (tokens : List Token) (bound : Nat) (log : List Event) : Prop :=
  ∃ places, Dispatched tokens log.reverse places ∧ ∀ place ∈ places, place < bound

namespace LoggedBelow

variable {tokens : List Token} {bound : Nat} {log : List Event} {token : Token} {event : Event}

theorem mono (h : LoggedBelow tokens bound log) {bound' : Nat} (hle : bound ≤ bound') :
    LoggedBelow tokens bound' log :=
  h.imp fun _ hplaces =>
    ⟨hplaces.1, fun place hplace => Nat.lt_of_lt_of_le (hplaces.2 place hplace) hle⟩

theorem sighting (h : LoggedBelow tokens bound log) (token : Token) :
    LoggedBelow tokens bound (Cursor.sighting token ++ log) := by
  obtain ⟨places, ⟨hordered, htaken⟩, hbound⟩ := h
  refine ⟨places, ⟨hordered, ?_⟩, hbound⟩
  unfold Cursor.sighting
  split
  · exact htaken
  · simpa [dispatches_append, dispatches, Event.taken?] using htaken

/-- The next token is taken. -/
theorem take (h : LoggedBelow tokens bound log) (htoken : tokens[bound]? = some token)
    (htaken : event.taken? = some token)
    (hseen : log.countP Event.isSighting = min (bound + 2) (Token.countWords tokens)) :
    LoggedBelow tokens (bound + 1) (event :: log) := by
  obtain ⟨places, ⟨hordered, hdispatched⟩, hbound⟩ := h
  refine ⟨places ++ [bound], ⟨?_, ?_⟩, ?_⟩
  · exact List.pairwise_append.mpr ⟨hordered, List.pairwise_singleton _ _, by simpa using hbound⟩
  · rw [List.reverse_cons, dispatches_append]
    refine List.rel_append hdispatched ?_
    simp only [dispatches, htaken, Nat.zero_add, List.countP_reverse]
    exact .cons ⟨htoken, hseen⟩ .nil
  · intro place hplace
    rcases List.mem_append.mp hplace with hplace | hplace
    · exact Nat.lt_succ_of_lt (hbound place hplace)
    · rw [List.mem_singleton.mp hplace]
      exact Nat.lt_succ_self bound

end LoggedBelow

/-- Only the end of the input is not a word. -/
theorem TokenStream.Sealed.length_tokens_le {stream : TokenStream} (h : stream.Sealed) :
    stream.tokens.length ≤ Token.countWords stream.tokens + 1 := by
  induction h with
  | finished => simp [tokens]
  | broken => simp [tokens]
  | more hnot _ ih =>
      simp only [tokens, Token.countWords, List.countP_cons, hnot, List.length_cons] at ih ⊢
      simpa using ih

theorem TokenStream.Sealed.drop {stream : TokenStream} (h : stream.Sealed) {place : Nat}
    (hne : stream.drop place ≠ []) : Sealed (stream.drop place) := by
  induction h generalizing place with
  | finished hend =>
      cases place with
      | zero => exact .finished hend
      | succ place => simp at hne
  | broken =>
      cases place with
      | zero => exact .broken
      | succ place => simp at hne
  | more hend hrest ih =>
      cases place with
      | zero => exact .more hend hrest
      | succ place => exact ih hne

/-- Where a sealed stream has its tokens: the end of the input behind all others. -/
theorem TokenStream.Sealed.place {stream : TokenStream} (h : stream.Sealed) {place : Nat}
    {token : Token} {rest : TokenStream} (hdrop : stream.drop place = .ok token :: rest) :
    stream.tokens[place]? = some token ∧
      (token.isEnd → Token.countWords stream.tokens = place) ∧
      (¬token.isEnd → place < Token.countWords stream.tokens) := by
  induction h generalizing place with
  | @finished last hend =>
      cases place with
      | zero =>
          cases hdrop
          simp [tokens, Token.countWords, hend]
      | succ place => simp at hdrop
  | broken => cases place <;> simp at hdrop
  | @more first rest hnot hrest ih =>
      cases place with
      | zero =>
          cases hdrop
          simp [tokens, Token.countWords, hnot]
      | succ place =>
          obtain ⟨htoken, hend, hother⟩ := ih hdrop
          simp only [tokens, Token.countWords, List.getElem?_cons_succ, List.countP_cons, hnot] at *
          refine ⟨htoken, fun h => ?_, fun h => ?_⟩
          · simpa using hend h
          · simpa using hother h

/-- The cursor stands at the item `place` of the stream, with the next token in view and
the tokens before `bound` taken at most. -/
structure Cursor.At (cursor : Cursor) (stream : TokenStream) (place bound : Nat) : Prop where
  stream_eq : cursor.stream = stream.drop place
  seen : cursor.log.countP Event.isSighting = min (place + 1) (Token.countWords stream.tokens)
  logged : LoggedBelow stream.tokens bound cursor.log

section Places

variable {stream : TokenStream} {place bound : Nat} {cursor between : Cursor} {token : Token}
  {event : Event}

theorem Cursor.At.mono (h : cursor.At stream place bound) {bound' : Nat} (hle : bound ≤ bound') :
    cursor.At stream place bound' :=
  ⟨h.stream_eq, h.seen, h.logged.mono hle⟩

theorem Cursor.At.isSealed (hsealed : stream.Sealed) (h : cursor.At stream place bound) :
    cursor.stream.Sealed := by
  have hstream := h.stream_eq
  rw [hstream]
  exact hsealed.drop (hstream ▸ List.cons_ne_nil _ _)

/-- What the stream has at the cursor. -/
theorem Cursor.At.current (hsealed : stream.Sealed) (h : cursor.At stream place bound) :
    stream.tokens[place]? = some cursor.current ∧
      (cursor.current.isEnd → Token.countWords stream.tokens = place) ∧
      (¬cursor.current.isEnd → place < Token.countWords stream.tokens) :=
  hsealed.place h.stream_eq.symm

namespace Parse

/-- Behind a token the cursor stands at the next item, with one more token in view. -/
theorem at_advance (hsealed : stream.Sealed) (h : cursor.At stream place bound)
    (hend : ¬cursor.current.isEnd) (hrun : advance.run cursor = .ok token between) :
    between.At stream (place + 1) bound := by
  obtain ⟨current, ahead, log⟩ := cursor
  have hplace := (h.current hsealed).2.2 hend
  have hcursor := h.isSealed hsealed
  obtain ⟨hstream, hseen, hlogged⟩ := h
  have hahead : ahead = stream.drop (place + 1) := by
    rw [← List.tail_drop, ← hstream]
    rfl
  cases ahead with
  | nil =>
      cases hcursor with
      | finished hlast => exact absurd hlast hend
      | more _ hrest => cases hrest
  | cons item ahead =>
      cases item with
      | error diagnostic => cases hrun
      | ok next =>
          cases hrun
          refine ⟨hahead, ?_, hlogged.sighting next⟩
          obtain ⟨_, hlast, hother⟩ := hsealed.place hahead.symm
          dsimp only at hseen ⊢
          rw [List.countP_append, hseen]
          unfold Cursor.sighting
          split
          · rename_i hnext
            have := hlast hnext
            rw [List.countP_nil]
            omega
          · rename_i hnext
            have := hother hnext
            have hsighting : (Event.lexed next).isSighting = true := rfl
            rw [List.countP_singleton, if_pos hsighting]
            omega

theorem at_record (h : cursor.At stream (place + 1) place)
    (htoken : stream.tokens[place]? = some token) (htaken : event.taken? = some token) :
    ({ cursor with log := event :: cursor.log } : Cursor).At stream (place + 1) (place + 1) := by
  refine ⟨h.stream_eq, ?_, h.logged.take htoken htaken h.seen⟩
  cases event with
  | lexed => cases htaken
  | null => simpa [Event.isSighting] using h.seen
  | left => simpa [Event.isSighting] using h.seen

inductive Kept {α : Type} (stream : TokenStream) : EStateM.Result Diagnostic Cursor α → Prop
  | done {a : α} {cursor : Cursor} {place : Nat} (h : cursor.At stream place place) :
      Kept stream (.ok a cursor)
  | failed {diagnostic : Diagnostic} {cursor : Cursor} {bound : Nat}
      (h : LoggedBelow stream.tokens bound cursor.log) : Kept stream (.error diagnostic cursor)

def Keeps {α : Type} (stream : TokenStream) (m : Parse α) : Prop :=
  ∀ ⦃cursor : Cursor⦄ ⦃place : Nat⦄, cursor.At stream place place → Kept stream (m.run cursor)

theorem Keeps.bind {α β : Type} {m : Parse α} {next : α → Parse β} (h : Keeps stream m)
    (hnext : ∀ a, Keeps stream (next a)) : Keeps stream (m >>= next) := by
  intro cursor place hat
  have hkept := h hat
  rw [EStateM.run_bind]
  generalize m.run cursor = result at hkept
  cases hkept with
  | done hat => exact hnext _ hat
  | failed hlogged => exact .failed hlogged

/-- A diagnostic of the stream is not logged. -/
theorem log_of_advance_error {diagnostic : Diagnostic}
    (hrun : advance.run cursor = .error diagnostic between) : between.log = cursor.log := by
  obtain ⟨current, ahead, log⟩ := cursor
  cases ahead with
  | nil => cases hrun
  | cons item ahead =>
      cases item with
      | error diagnostic =>
          cases hrun
          rfl
      | ok next => cases hrun

theorem Keeps.advance (hsealed : stream.Sealed) : Keeps stream advance := by
  intro cursor place hat
  by_cases hend : cursor.current.isEnd
  · rw [Cursor.run_advance_of_end (hat.isSealed hsealed) hend]
    exact .done hat
  · cases hrun : Parse.advance.run cursor with
    | ok token between => exact .done ((at_advance hsealed hat hend hrun).mono (Nat.le_succ place))
    | error diagnostic between =>
        exact .failed ((log_of_advance_error hrun).symm ▸ hat.logged)

theorem Keeps.congruence (hsealed : stream.Sealed) :
    Congruence fun {α} (m _ : Parse α) => Keeps stream m where
  pure _ := fun _ _ hat => .done hat
  throw _ := fun _ _ hat => .failed hat.logged
  bind := .bind
  current := fun _ _ hat => .done hat
  advance := .advance hsealed

section Take

variable {α : Type} {take : Token → Event} {rest : Token → Parse α}

/-- A token that does not end the input is taken, and the computation goes on behind it. -/
theorem kept_take (hsealed : stream.Sealed) (hat : cursor.At stream place place)
    (hend : ¬cursor.current.isEnd) (htake : ∀ token, (take token).taken? = some token)
    (hrest : ∀ token, Keeps stream (rest token)) :
    Kept stream ((do let token ← advance; record (take token); rest token).run cursor) := by
  rw [EStateM.run_bind]
  cases hadvance : advance.run cursor with
  | error diagnostic between =>
      exact .failed ((log_of_advance_error hadvance).symm ▸ hat.logged)
  | ok token between =>
      obtain rfl := advance_token hadvance
      have hbetween := at_advance hsealed hat hend hadvance
      exact hrest _ (at_record hbetween (hat.current hsealed).1 (htake _))

/-- The end of the input is taken at most once, if the computation cannot go on behind
it. -/
theorem kept_take_end (hsealed : stream.Sealed) (hat : cursor.At stream place place)
    (hend : cursor.current.isEnd) (htake : ∀ token, (take token).taken? = some token)
    {diagnostic : Diagnostic} (hrest : rest cursor.current = throw diagnostic) :
    Kept stream ((do let token ← advance; record (take token); rest token).run cursor) := by
  obtain ⟨htoken, hlast, _⟩ := hat.current hsealed
  have hwords := hlast hend
  have hseen : cursor.log.countP Event.isSighting =
      min (place + 2) (Token.countWords stream.tokens) := by
    have hseen := hat.seen
    omega
  rw [EStateM.run_bind, Cursor.run_advance_of_end (hat.isSealed hsealed) hend]
  dsimp only
  rw [hrest]
  exact .failed (hat.logged.take htoken (htake _) hseen)

end Take

section Loop

variable {table : OperatorTable} {steps : Nat} {operand : Operand}

theorem Keeps.extend (hsealed : stream.Sealed) (hinert : table.EndIsInert)
    (h : ∀ open? bound, Keeps stream (operand open? bound)) (open? : Option Delimiter)
    (bound : Int) (rounds : Nat) (next : Int) (left : Expr) :
    Keeps stream (extend table steps operand open? bound rounds next left) := by
  induction rounds generalizing next left with
  | zero => exact fun _ _ hat => .done hat
  | succ rounds ih =>
      intro cursor place hat
      simp only [Parse.extend, EStateM.run_bind, run_current]
      split
      · by_cases hend : cursor.current.isEnd
        · -- Below a negative bound even the end of the input is taken; no rule goes on from it.
          obtain ⟨diagnostic, hrest⟩ : ∃ diagnostic, applyLeft table steps operand open?
              (table.left cursor.current) cursor.current left = throw diagnostic := by
            rcases hinert _ hend with hrule | hrule <;>
              exact ⟨_, by simp only [applyLeft, hrule]; rfl⟩
          refine kept_take_end hsealed hat hend (fun _ => rfl) (?_ : _ = throw diagnostic)
          rw [hrest]
          rfl
        · refine kept_take hsealed hat hend (fun _ => rfl) fun token => ?_
          have hstep := @Congruence.applyLeft _ (Keeps.congruence hsealed) operand operand h table
            steps open? (table.left cursor.current) token left
          exact .bind hstep fun expr => ih _ expr
      · exact .done hat

theorem Keeps.expression (hsealed : stream.Sealed) (hinert : table.EndIsInert)
    (limit steps budget : Nat) (open? : Option Delimiter) (bound : Int) :
    Keeps stream (expression table limit steps budget open? bound) := by
  induction budget generalizing open? bound with
  | zero => exact fun _ _ hat => .failed hat.logged
  | succ budget ih =>
      intro cursor place hat
      simp only [Parse.expression, EStateM.run_bind, run_current]
      split
      · exact .failed hat.logged
      · rename_i hend
        refine kept_take hsealed hat hend (fun _ => rfl) fun token => ?_
        have hstart := @Congruence.applyNull _ (Keeps.congruence hsealed)
          (Parse.expression table limit steps budget) (Parse.expression table limit steps budget)
          ih table open?
          (table.null token) token
        exact .bind hstart fun left => .extend hsealed hinert ih open? bound steps _ left

end Loop

end Parse

end Places

/-- The first token of a source is in view before any is taken. -/
theorem Cursor.at_start {source : String} {cursor : Cursor}
    (hstart : Cursor.start source = .ok cursor) : cursor.At (TokenStream.ofSource source) 0 0 := by
  have hstream := Cursor.start_stream hstart
  have hsealed := TokenStream.ofSource_sealed source
  have hlog : cursor.log = Cursor.sighting cursor.current := by
    unfold Cursor.start at hstart
    split at hstart
    · cases hstart
      rfl
    · cases hstart
    · rename_i hsource
      rw [hsource] at hsealed
      cases hsealed
  have hdrop : (TokenStream.ofSource source).drop 0 = .ok cursor.current :: cursor.ahead :=
    hstream.symm
  obtain ⟨_, hlast, hother⟩ := hsealed.place hdrop
  have hempty : LoggedBelow (TokenStream.ofSource source).tokens 0 [] :=
    ⟨[], ⟨.nil, .nil⟩, by simp⟩
  refine ⟨hstream, ?_, ?_⟩
  · rw [hlog, Cursor.sighting]
    split
    · rename_i hend
      rw [hlast hend]
      rfl
    · rename_i hend
      have := hother hend
      have hsighting : (Event.lexed cursor.current).isSighting = true := rfl
      rw [List.countP_singleton, if_pos hsighting]
      omega
  · rw [hlog]
    simpa using hempty.sighting cursor.current

namespace Parser

variable {parser : Parser}

/-- A parse takes the tokens of its source in their order, each at most once. -/
theorem exists_places (hinert : parser.table.EndIsInert) (source : String) :
    ∃ places,
      Dispatched (TokenStream.ofSource source).tokens (parser.run source).events places := by
  have hsealed := TokenStream.ofSource_sealed source
  unfold run
  split
  · exact ⟨[], .nil, .nil⟩
  · rename_i cursor hstart
    have hkept : Kept (TokenStream.ofSource source) (parser.complete.run cursor) := by
      have hexpression := Keeps.expression hsealed hinert parser.limit cursor.steps parser.limit
        none minPower
      rw [complete, EStateM.run_bind, EStateM.run_get]
      refine Keeps.bind hexpression (fun expr => ?_) (Cursor.at_start hstart)
      refine Keeps.bind (fun _ _ hat => .done hat) fun token => ?_
      split
      · exact fun _ _ hat => .failed hat.logged
      · exact fun _ _ hat => .done hat
    generalize parser.complete.run cursor = result at hkept
    cases hkept with
    | done hat => exact hat.logged.imp fun _ => And.left
    | failed hlogged => exact hlogged.imp fun _ => And.left

end Parser

end Precedence
