import Precedence.Proofs.Congruence
import Precedence.Proofs.Yield

/-!
The limit on nesting only cuts a parse off. Two runs that differ in their limits
alone are followed side by side: the one with the lower limit does what the other
does, up to the point where it refuses to go deeper. A limit above the number of
tokens refuses nothing, because every operand that is open has taken a token.
-/

namespace Precedence

namespace TokenStream

/-- Reading a source never fails for its depth. -/
theorem scan_lexical (inside position : Nat) (text : List Char) {diagnostic : Diagnostic}
    (h : .error diagnostic ∈ scan inside position text) : ¬diagnostic.cause.isTooDeep := by
  fun_induction scan inside position text with
  | case1 => simp at h
  | case2 _ _ _ _ ih => exact ih h
  | case3 _ _ _ _ ih => exact ih h
  | case4 position c rest =>
      obtain rfl : diagnostic = ⟨.foreignCharacter c, offset position⟩ := by simpa using h
      simp [Cause.isTooDeep]
  | case5 position c rest _ kind text hlexeme ih =>
      apply ih
      simpa using h

end TokenStream

/-- The cursor stands in the stream of a source with at most `count` tokens left
to take. -/
structure Cursor.Ready (cursor : Cursor) (count : Nat) : Prop where
  isSealed : cursor.stream.Sealed
  lexical : ∀ {diagnostic : Diagnostic}, .error diagnostic ∈ cursor.stream →
    ¬diagnostic.cause.isTooDeep
  few : (lexemes cursor.tokens).length ≤ count

theorem Cursor.Ready.mono {cursor : Cursor} {count count' : Nat} (h : cursor.Ready count)
    (hle : count ≤ count') : cursor.Ready count' :=
  ⟨h.isSealed, h.lexical, Nat.le_trans h.few hle⟩

theorem Cursor.Ready.pos {cursor : Cursor} {count : Nat} (h : cursor.Ready count)
    (hend : ¬cursor.current.isEnd) : 0 < count := by
  have hfew := h.few
  simp only [Cursor.tokens_eq, lexemes, List.length_map, List.filter_cons, hend, Bool.not_false,
    if_true, List.length_cons] at hfew
  omega

theorem Cursor.ready_start {source : String} {cursor : Cursor}
    (hstart : Cursor.start source = .ok cursor) :
    cursor.Ready (lexemes (TokenStream.ofSource source).tokens).length := by
  have hstream := Cursor.start_stream hstart
  refine ⟨?_, ?_, ?_⟩
  · rw [hstream]
    exact TokenStream.ofSource_sealed source
  · intro diagnostic hmem
    rw [hstream] at hmem
    exact TokenStream.scan_lexical 0 0 source.toList hmem
  · rw [Cursor.tokens, hstream]

theorem Cursor.mem_of_start_error {source : String} {diagnostic : Diagnostic}
    (hstart : Cursor.start source = .error diagnostic) :
    .error diagnostic ∈ TokenStream.ofSource source := by
  unfold Cursor.start at hstart
  split at hstart
  · cases hstart
  · rename_i hsource
    cases hstart
    simp [hsource]
  · cases hstart

namespace Parse

/-- How the end of a run under a low limit compares with the end of the same run
under a higher one, where `refusal` says which diagnostics the low limit may add. -/
inductive Tracked {α : Type} (count : Nat) (refusal : Diagnostic → Prop) :
    EStateM.Result Diagnostic Cursor α → EStateM.Result Diagnostic Cursor α → Prop
  | done {a : α} {cursor : Cursor} (hready : cursor.Ready count) :
      Tracked count refusal (.ok a cursor) (.ok a cursor)
  | failed {diagnostic : Diagnostic} {cursor : Cursor}
      (hcause : ¬diagnostic.cause.isTooDeep) :
      Tracked count refusal (.error diagnostic cursor) (.error diagnostic cursor)
  | refused {diagnostic : Diagnostic} {cursor : Cursor}
      {other : EStateM.Result Diagnostic Cursor α} (hrefusal : refusal diagnostic) :
      Tracked count refusal (.error diagnostic cursor) other

def Tracks {α : Type} (count : Nat) (refusal : Diagnostic → Prop) (tight loose : Parse α) : Prop :=
  ∀ ⦃cursor : Cursor⦄, cursor.Ready count →
    Tracked count refusal (tight.run cursor) (loose.run cursor)

section Steps

variable {α β : Type} {count : Nat} {refusal : Diagnostic → Prop}

theorem Tracked.mono {count' : Nat} {tight loose : EStateM.Result Diagnostic Cursor α}
    (h : Tracked count refusal tight loose) (hle : count ≤ count') :
    Tracked count' refusal tight loose := by
  cases h with
  | done hready => exact .done (hready.mono hle)
  | failed hcause => exact .failed hcause
  | refused hrefusal => exact .refused hrefusal

theorem Tracks.bind {tight loose : Parse α} {next next' : α → Parse β}
    (hfirst : Tracks count refusal tight loose)
    (hnext : ∀ a, Tracks count refusal (next a) (next' a)) :
    Tracks count refusal (tight >>= next) (loose >>= next') := by
  intro cursor hready
  have htracked := hfirst hready
  rw [EStateM.run_bind, EStateM.run_bind]
  generalize tight.run cursor = result at htracked
  generalize loose.run cursor = result' at htracked
  cases htracked with
  | done hready => exact hnext _ hready
  | failed hcause => exact .failed hcause
  | refused hrefusal => exact .refused hrefusal

theorem Tracks.pure (a : α) : Tracks count refusal (pure a) (pure a) :=
  fun _ hready => .done hready

theorem Tracks.throw {diagnostic : Diagnostic} (h : ¬diagnostic.cause.isTooDeep) :
    Tracks count refusal (throw diagnostic : Parse α) (throw diagnostic) :=
  fun _ _ => .failed h

theorem Tracks.current : Tracks count refusal current current :=
  fun _ hready => .done hready

theorem Tracks.record (event : Event) : Tracks count refusal (record event) (record event) :=
  fun _ hready => .done ⟨hready.isSealed, hready.lexical, hready.few⟩

/-- A token that does not end the input is taken, so one less is left. -/
theorem tracked_advance {cursor : Cursor} (hready : cursor.Ready count)
    (hend : ¬cursor.current.isEnd) :
    Tracked (count - 1) refusal (advance.run cursor) (advance.run cursor) := by
  obtain ⟨current, ahead, log⟩ := cursor
  obtain ⟨hsealed, hlexical, hfew⟩ := hready
  cases hsealed with
  | finished hlast => exact absurd hlast hend
  | more _ hahead =>
      cases ahead with
      | nil => cases hahead
      | cons item ahead =>
          cases item with
          | error diagnostic => exact .failed (hlexical (by simp [Cursor.stream]))
          | ok next =>
              refine .done ⟨hahead, fun hmem => hlexical (.tail _ hmem), ?_⟩
              simp only [Cursor.tokens_eq, TokenStream.tokens, lexemes, List.length_map,
                List.filter_cons, hend, Bool.not_false, if_true, List.length_cons] at hfew ⊢
              omega

theorem Tracks.advance : Tracks count refusal advance advance := by
  intro cursor hready
  by_cases hend : cursor.current.isEnd
  · rw [Cursor.run_advance_of_end hready.isSealed hend]
    exact .done hready
  · exact (tracked_advance hready hend).mono (Nat.sub_le count 1)

/-- What goes on behind a token that was taken has one token less to take. -/
theorem tracked_bind_advance {next next' : Token → Parse α} {cursor : Cursor}
    (hready : cursor.Ready count) (hend : ¬cursor.current.isEnd)
    (hnext : ∀ token, Tracks (count - 1) refusal (next token) (next' token)) :
    Tracked count refusal ((Parse.advance >>= next).run cursor)
      ((Parse.advance >>= next').run cursor) := by
  have htracked := @tracked_advance count refusal cursor hready hend
  rw [EStateM.run_bind, EStateM.run_bind]
  generalize Parse.advance.run cursor = result at htracked
  cases htracked with
  | done hready' => exact (hnext _ hready').mono (Nat.sub_le count 1)
  | failed hcause => exact .failed hcause
  | refused hrefusal => exact .refused hrefusal

end Steps

theorem not_isTooDeep_leftover {table : OperatorTable} {token : Token} {diagnostic : Diagnostic}
    (h : table.leftover? token = some diagnostic) : ¬diagnostic.cause.isTooDeep := by
  unfold OperatorTable.leftover? at h
  split at h
  · cases h
  · split at h
    · cases h
      simp [Delimiter.unmatched, Cause.isTooDeep]
    · cases h
      exact not_isTooDeep_misplaced (by simp [Cause.isTooDeep])

section Rules

variable {count : Nat} {refusal : Diagnostic → Prop} {operand operand' : Operand}

/-- The steps of a rule go alike whatever the limit is. -/
theorem Tracks.congruence : Congruence (Tracks count refusal) :=
  ⟨.pure, .throw, .bind, .current, .advance⟩

def OperandTracks (count : Nat) (refusal : Diagnostic → Prop) (operand operand' : Operand) : Prop :=
  ∀ open? bound, Tracks count refusal (operand open? bound) (operand' open? bound)

theorem OperandTracks.extend (h : OperandTracks count refusal operand operand')
    (table : OperatorTable) (steps : Nat) (open? : Option Delimiter) (bound : Int) (rounds : Nat)
    (next : Int) (left : Expr) :
    Tracks count refusal (extend table steps operand open? bound rounds next left)
      (extend table steps operand' open? bound rounds next left) := by
  induction rounds generalizing next left with
  | zero => exact .pure left
  | succ rounds ih =>
      refine .bind .current fun token => ?_
      dsimp only
      split
      · exact .bind .advance fun token => .bind (.record _) fun _ =>
          .bind (Tracks.congruence.applyLeft h table steps open? _ token left) fun left => ih _ left
      · exact .pure left

/-- Every operand takes a token before it opens another one. -/
theorem OperandTracks.expression {table : OperatorTable} {limit limit' steps budget budget' : Nat}
    (h : 0 < count → OperandTracks (count - 1) refusal (expression table limit steps budget)
      (expression table limit' steps budget')) :
    OperandTracks count refusal (expression table limit steps (budget + 1))
      (expression table limit' steps (budget' + 1)) := by
  intro open? bound cursor hready
  change Tracked count refusal ((if cursor.current.isEnd then _ else _ : Parse Expr).run cursor)
    ((if cursor.current.isEnd then _ else _ : Parse Expr).run cursor)
  split
  · exact .failed (by simp [Cause.isTooDeep])
  · rename_i hend
    have h := h (hready.pos hend)
    exact tracked_bind_advance hready hend fun token => .bind (.record _) fun _ =>
      .bind (Tracks.congruence.applyNull h table open? _ token) fun left =>
        h.extend table steps open? bound steps _ left

/-- The lower limit does what the higher one does, or refuses and says so. -/
theorem expression_tracks {table : OperatorTable} {limit limit' steps budget budget' : Nat}
    (hbudget : budget ≤ budget') :
    OperandTracks count (·.cause = .tooDeep limit) (expression table limit steps budget)
      (expression table limit' steps budget') := by
  induction budget generalizing budget' count with
  | zero =>
      intro open? bound cursor hready
      exact .refused rfl
  | succ budget ih =>
      obtain ⟨budget', rfl⟩ : ∃ n, budget' = n + 1 := ⟨budget' - 1, by omega⟩
      exact .expression fun _ => ih (by omega)

/-- A budget above the number of tokens left is never used up. -/
theorem expression_shallow {table : OperatorTable} {limit steps budget : Nat}
    (hcount : count < budget) :
    OperandTracks count (fun _ => False) (expression table limit steps budget)
      (expression table limit steps budget) := by
  induction budget generalizing count with
  | zero => omega
  | succ budget ih => exact .expression fun _ => ih (by omega)

end Rules

end Parse

namespace Parser

/-- Two parsers that read operands alike, unless the first refuses, end alike on
a whole source. -/
theorem tracks_complete {count : Nat} {refusal : Diagnostic → Prop} {table : OperatorTable}
    {limit limit' : Nat}
    (h : ∀ steps, Parse.OperandTracks count refusal
      (Parse.expression table limit steps limit) (Parse.expression table limit' steps limit')) :
    Parse.Tracks count refusal (Parser.complete ⟨table, limit⟩)
      (Parser.complete ⟨table, limit'⟩) := by
  refine .bind (fun cursor hready => .done hready) fun cursor => ?_
  refine .bind (h cursor.steps none minPower) fun expr => .bind .current fun token => ?_
  cases hleftover : table.leftover? token with
  | none => exact .pure expr
  | some diagnostic => exact .throw (Parse.not_isTooDeep_leftover hleftover)

/-- How the outcome under a low limit compares with that under a higher one. -/
theorem parse_tracks {refusal : Diagnostic → Prop} {table : OperatorTable} {limit limit' : Nat}
    {source : String}
    (h : ∀ steps, Parse.OperandTracks (lexemes (TokenStream.ofSource source).tokens).length refusal
      (Parse.expression table limit steps limit) (Parse.expression table limit' steps limit')) :
    (∃ diagnostic, Parser.parse ⟨table, limit⟩ source = .error diagnostic ∧ refusal diagnostic) ∨
      Parser.parse ⟨table, limit⟩ source = Parser.parse ⟨table, limit'⟩ source ∧
        ∀ diagnostic, Parser.parse ⟨table, limit⟩ source = .error diagnostic →
          ¬diagnostic.cause.isTooDeep := by
  unfold parse run
  cases hstart : Cursor.start source with
  | error diagnostic =>
      refine .inr ⟨rfl, ?_⟩
      rintro _ ⟨⟩
      exact TokenStream.scan_lexical 0 0 source.toList (Cursor.mem_of_start_error hstart)
  | ok cursor =>
      have htracked := tracks_complete h (Cursor.ready_start hstart)
      dsimp only
      generalize (Parser.complete ⟨table, limit⟩).run cursor = result at htracked
      generalize (Parser.complete ⟨table, limit'⟩).run cursor = result' at htracked
      cases htracked with
      | done => exact .inr ⟨rfl, by simp⟩
      | failed hcause => exact .inr ⟨rfl, by simpa using hcause⟩
      | refused hrefusal => exact .inl ⟨_, rfl, hrefusal⟩

/-- A limit above the number of tokens is never too low. -/
theorem not_isTooDeep_of_length {table : OperatorTable} {limit : Nat} {source : String}
    (hcount : (lexemes (TokenStream.ofSource source).tokens).length < limit)
    {diagnostic : Diagnostic} (h : Parser.parse ⟨table, limit⟩ source = .error diagnostic) :
    ¬diagnostic.cause.isTooDeep := by
  have hshallow := @parse_tracks (fun _ => False) table limit limit source
    fun steps => Parse.expression_shallow hcount
  rcases hshallow with ⟨_, _, hrefusal⟩ | ⟨_, hshallow⟩
  · exact hrefusal.elim
  · exact hshallow diagnostic h

/-- The limit on nesting is a pure cut-off. What a parser says under a limit, other
than that operands nest too deep, it says under every higher limit; so if a limit
is too low, every lower one is too low as well, and is itself what the diagnostic
names. A limit above the number of tokens is never too low. -/
theorem limit_cuts_off (table : OperatorTable) (source : String) {limit limit' : Nat}
    (hlimit : limit ≤ limit') :
    ((∀ diagnostic, Parser.parse ⟨table, limit⟩ source = .error diagnostic →
        ¬diagnostic.cause.isTooDeep) →
      Parser.parse ⟨table, limit'⟩ source = Parser.parse ⟨table, limit⟩ source) ∧
    (∀ diagnostic, Parser.parse ⟨table, limit'⟩ source = .error diagnostic →
      diagnostic.cause.isTooDeep →
      ∃ position, Parser.parse ⟨table, limit⟩ source = .error ⟨.tooDeep limit, position⟩) ∧
    ((lexemes (TokenStream.ofSource source).tokens).length < limit →
      ∀ diagnostic, Parser.parse ⟨table, limit⟩ source = .error diagnostic →
        ¬diagnostic.cause.isTooDeep) := by
  have htracks := @parse_tracks (·.cause = .tooDeep limit) table limit limit' source
    fun steps => Parse.expression_tracks hlimit
  refine ⟨?_, ?_, ?_⟩
  · intro hdeep
    rcases htracks with ⟨diagnostic, hparse, hcause⟩ | ⟨hsame, _⟩
    · exact absurd (by rw [hcause]; rfl) (hdeep diagnostic hparse)
    · exact hsame.symm
  · intro diagnostic hparse hdeep
    rcases htracks with ⟨⟨cause, position⟩, hparse, rfl⟩ | ⟨hsame, hshallow⟩
    · exact ⟨position, hparse⟩
    · exact absurd hdeep (hshallow diagnostic (hsame.trans hparse))
  · exact fun hcount diagnostic => not_isTooDeep_of_length hcount

theorem limit_cuts_off_parentheses :
    (∃ expr, (Parser.ofC 3).parse "((a)) * b" = .ok expr ∧
      (Parser.ofC 256).parse "((a)) * b" = .ok expr) ∧
    ((Parser.ofC 2).parse "((a)) * b" = .error ⟨.tooDeep 2, 2⟩ ∧
      ∃ position, (Parser.ofC 1).parse "((a)) * b" = .error ⟨.tooDeep 1, position⟩) ∧
    ∀ diagnostic, (Parser.ofC 8).parse "((a)) * b" = .error diagnostic →
      ¬diagnostic.cause.isTooDeep := by
  refine ⟨?_, ?_, ?_⟩
  · obtain ⟨expr, hparse, _⟩ := @exists_of_sexp (.ofC 3) "((a)) * b" "(* a b)" (by decide +kernel)
    refine ⟨expr, hparse, ?_⟩
    rw [← hparse]
    apply (limit_cuts_off cTable "((a)) * b" (by decide : 3 ≤ 256)).1
    intro diagnostic herror
    cases hparse.symm.trans herror
  · have hparse : (Parser.ofC 2).parse "((a)) * b" = .error ⟨.tooDeep 2, 2⟩ := by decide +kernel
    exact ⟨hparse, (limit_cuts_off cTable "((a)) * b" (by decide : 1 ≤ 2)).2.1 _ hparse rfl⟩
  · exact (limit_cuts_off cTable "((a)) * b" (Nat.le_refl 8)).2.2 (by decide +kernel)

end Parser

end Precedence
