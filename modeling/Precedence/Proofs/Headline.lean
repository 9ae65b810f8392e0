import Precedence.Diagnostic.Caret
import Precedence.Proofs.Acceptance
import Precedence.Proofs.Limit
import Precedence.Proofs.Position

/-!
What a source is refused for is said on one line. The words of a source hold no separators,
and an expression is written with such words, with spaces and with parentheses. So there is
no line feed in what a diagnostic names, and none in the first line of its report.
-/

namespace Precedence

def Text.OneLine (text : String) : Prop := '\n' ∉ text.toList
  deriving Decidable

theorem Text.oneLine_append {a b : String} : OneLine (a ++ b) ↔ OneLine a ∧ OneLine b := by
  simp [OneLine]

/-- A number is written with digits only. -/
theorem Text.notMem_repr {c : Char} (h : ¬c.isDigit) (n : Nat) : c ∉ n.repr.toList := by
  intro hmem
  rw [Nat.toList_repr] at hmem
  exact h (Nat.isDigit_of_mem_toDigits (by decide) (by decide) hmem)

theorem Text.oneLine_repr (n : Nat) : OneLine n.repr := notMem_repr (by decide) n

namespace Expr

theorem oneLine_sexpOperands {exprs : List Expr} :
    Text.OneLine (sexpOperands exprs) ↔ ∀ expr ∈ exprs, Text.OneLine expr.sexp := by
  induction exprs with
  | nil => simp [sexpOperands, Text.OneLine]
  | cons expr rest ih =>
      rw [sexpOperands, Text.oneLine_append, Text.oneLine_append, ih, List.forall_mem_cons]
      simp [Text.OneLine]

theorem oneLine_sexp_node {tag : String} {children : List Expr} {grouped : Bool} {span : Span} :
    Text.OneLine (node tag children grouped span).sexp ↔
      Text.OneLine tag ∧ ∀ child ∈ children, Text.OneLine child.sexp := by
  simp only [sexp, Text.oneLine_append, oneLine_sexpOperands]
  simp [Text.OneLine]

theorem oneLine_group {expr : Expr} (h : Text.OneLine expr.sexp) :
    Text.OneLine expr.group.sexp := by
  cases expr with
  | leaf => exact h
  | node => exact oneLine_sexp_node.mpr (oneLine_sexp_node.mp h)

theorem oneLine_sequence {left right : Expr} (hleft : Text.OneLine left.sexp)
    (hright : Text.OneLine right.sexp) : Text.OneLine (Parse.sequence left right).sexp := by
  unfold Parse.sequence
  split
  · obtain ⟨htag, helements⟩ := oneLine_sexp_node.mp hleft
    simp only [oneLine_sexp_node, List.forall_mem_append, List.forall_mem_singleton]
    exact ⟨htag, helements, hright⟩
  · simp only [ofOperands, oneLine_sexp_node, List.forall_mem_cons]
    exact ⟨by decide, hleft, hright, nofun⟩

end Expr

namespace Diagnostic

/-- What the cause names: texts of the source, and the bracket that is due. -/
def words (diagnostic : Diagnostic) : List String :=
  match diagnostic.cause with
  | .foreignCharacter _ | .tooDeep _ => []
  | .unexpectedToken text | .notLeading text | .notFollowing text | .invalidTarget text
  | .malformedTernary text | .trailingInput text => [text]
  | .unmatchedDelimiter expected text => text :: expected.toList

def OneLine (diagnostic : Diagnostic) : Prop := ∀ word ∈ diagnostic.words, Text.OneLine word

theorem OneLine.headline {diagnostic : Diagnostic} (h : diagnostic.OneLine) :
    Text.OneLine diagnostic.headline := by
  obtain ⟨cause, place⟩ := diagnostic
  simp only [OneLine, words] at h
  unfold Diagnostic.headline
  cases cause with
  | foreignCharacter =>
      simp only [Cause.tip?, Cause.name]
      decide
  | tooDeep limit =>
      simp only [Cause.tip?, Cause.name, Text.oneLine_append, Text.oneLine_repr]
      decide
  | unmatchedDelimiter expected =>
      obtain ⟨htext, hexpected⟩ := List.forall_mem_cons.mp h
      cases expected with
      | none =>
          simp only [Cause.tip?, Cause.name, Text.oneLine_append, htext]
          decide
      | some closer =>
          have hcloser := hexpected closer List.mem_cons_self
          simp only [Cause.tip?, Cause.name, Text.oneLine_append, htext, hcloser]
          decide
  | _ =>
      have htext := List.forall_mem_singleton.mp h
      simp only [Cause.tip?, Cause.name, Text.oneLine_append, htext]
      decide

end Diagnostic

/-! Tokens. -/

theorem not_isSeparator_of_isWordPart {c : Char} (h : isWordPart c) : ¬isSeparator c := by
  intro hseparator
  simp only [isSeparator, Bool.or_eq_true, decide_eq_true_eq] at hseparator
  rcases hseparator with ((rfl | rfl) | rfl) | rfl <;> exact absurd h (by decide)

/-- No lexeme has a separator in it. -/
theorem IsLexeme.not_isSeparator {kind : TokenKind} {text : List Char} (h : IsLexeme kind text) :
    ∀ c ∈ text, ¬isSeparator c := by
  have hall : ((punctuation ++ operatorSymbols).map String.toList).all
      (·.all (!isSeparator ·)) := by decide +kernel
  refine h.forall_mem (fun c => not_isSeparator_of_isWordPart) fun symbol hsymbol c hc => ?_
  simpa using List.all_eq_true.mp (List.all_eq_true.mp hall symbol hsymbol) c hc

def TokenStream.OneLine (stream : TokenStream) : Prop :=
  (∀ token, .ok token ∈ stream → Text.OneLine token.value) ∧
    ∀ diagnostic, .error diagnostic ∈ stream → diagnostic.OneLine

theorem TokenStream.oneLine_ofSource (source : String) : (ofSource source).OneLine := by
  obtain ⟨front, position, rest, hscans, htokens, hbroken⟩ := exists_items source
  constructor
  · intro token htoken
    rcases htokens token htoken with hmem | ⟨_, rfl⟩
    · obtain ⟨_, kind, value, _, _, hlexeme, rfl⟩ := hscans.place hmem
      intro hlineFeed
      rw [String.toList_ofList] at hlineFeed
      exact (isLexeme_of_lexeme? hlexeme).not_isSeparator _ hlineFeed rfl
    · exact (by decide : Text.OneLine "EOF")
  · intro diagnostic hdiagnostic
    obtain ⟨c, behind, _, rfl⟩ := hbroken diagnostic hdiagnostic
    exact nofun

/-! Runs. -/

namespace Parse

/-- How a run ends: with a result that `post` tells, in front of items without line feeds, or
with a diagnostic without any. -/
inductive Terse {α : Type} (post : α → Prop) : EStateM.Result Diagnostic Cursor α → Prop
  | done {a : α} {cursor : Cursor} (hpost : post a) (hcursor : cursor.stream.OneLine) :
      Terse post (.ok a cursor)
  | failed {diagnostic : Diagnostic} {cursor : Cursor} (h : diagnostic.OneLine) :
      Terse post (.error diagnostic cursor)

def Speaks {α : Type} (post : α → Prop) (m : Parse α) : Prop :=
  ∀ ⦃cursor : Cursor⦄, cursor.stream.OneLine → Terse post (m.run cursor)

section Steps

variable {α β : Type} {post : α → Prop} {post' : β → Prop} {token : Token}

theorem Speaks.pure {a : α} (h : post a) : Speaks post (pure a) := fun _ hcursor => .done h hcursor

theorem Speaks.throw {diagnostic : Diagnostic} (h : diagnostic.OneLine) :
    Speaks post (throw diagnostic) := fun _ _ => .failed h

theorem Speaks.bind {m : Parse α} {next : α → Parse β} (h : Speaks post m)
    (hnext : ∀ a, post a → Speaks post' (next a)) : Speaks post' (m >>= next) := by
  intro cursor hcursor
  have hfirst := h hcursor
  rw [EStateM.run_bind]
  generalize m.run cursor = result at hfirst
  cases hfirst with
  | done hpost hcursor => exact hnext _ hpost hcursor
  | failed h => exact .failed h

theorem Speaks.current : Speaks (fun token => Text.OneLine token.value) Parse.current :=
  fun _ hcursor => .done (hcursor.1 _ List.mem_cons_self) hcursor

theorem Speaks.record (event : Event) : Speaks (fun _ => True) (Parse.record event) :=
  fun _ hcursor => .done trivial hcursor

theorem Speaks.advance : Speaks (fun token => Text.OneLine token.value) Parse.advance := by
  rintro ⟨current, ahead, log⟩ hcursor
  have hcurrent := hcursor.1 current List.mem_cons_self
  cases ahead with
  | nil => exact .done hcurrent hcursor
  | cons item ahead =>
      cases item with
      | error diagnostic => exact .failed (hcursor.2 diagnostic (by simp [Cursor.stream]))
      | ok next =>
          refine .done hcurrent ⟨?_, ?_⟩
          · exact fun token htoken => hcursor.1 token (List.mem_cons_of_mem _ htoken)
          · exact fun diagnostic h => hcursor.2 diagnostic (List.mem_cons_of_mem _ h)

/-- A diagnostic that names a single token. -/
theorem oneLine_of_word {diagnostic : Diagnostic} (h : Text.OneLine token.value)
    (hwords : diagnostic.words = [token.value]) : diagnostic.OneLine := by
  rw [Diagnostic.OneLine, hwords]
  simpa using h

theorem oneLine_unmatched (open? : Option Delimiter) (h : Text.OneLine token.value) :
    (Delimiter.unmatched open? token).OneLine := by
  have hclosing : ∀ delimiter : Delimiter, Text.OneLine delimiter.closing := by
    intro delimiter
    cases delimiter <;> decide
  rw [Diagnostic.OneLine, Delimiter.unmatched, Diagnostic.words, List.forall_mem_cons]
  refine ⟨h, ?_⟩
  cases open? with
  | none => simp
  | some delimiter => simpa using hclosing delimiter

theorem oneLine_misplaced (table : OperatorTable) {diagnostic : Diagnostic}
    (h : Text.OneLine token.value) (hdiagnostic : diagnostic.OneLine) :
    ((table.misplaced? token).getD diagnostic).OneLine := by
  unfold OperatorTable.misplaced?
  split
  · exact oneLine_of_word h rfl
  · exact hdiagnostic

theorem Speaks.expectClosing (table : OperatorTable) (delimiter : Delimiter) :
    Speaks (fun token => Text.OneLine token.value) (expectClosing table delimiter) := by
  refine .bind .current fun token htoken => ?_
  split
  · exact .advance
  · exact .throw (oneLine_misplaced table htoken (oneLine_unmatched _ htoken))

theorem Speaks.ensureAssignable {target : Expr} (h : Text.OneLine target.sexp) :
    Speaks (fun _ => True) (ensureAssignable target) := by
  unfold Parse.ensureAssignable
  split
  · exact .pure trivial
  · exact .throw (List.forall_mem_singleton.mpr h)

end Steps

section Rules

variable {operand : Operand} {token : Token} {left : Expr}

def ReadsOneLine (operand : Operand) : Prop :=
  ∀ open? bound, Speaks (fun expr => Text.OneLine expr.sexp) (operand open? bound)

/-- An operator is written in front of its operands. -/
theorem oneLine_node {tag : String} {children : List Expr} {span : Span} (htag : Text.OneLine tag)
    (hchildren : ∀ child ∈ children, Text.OneLine child.sexp) :
    Text.OneLine (Expr.node tag children false span).sexp :=
  Expr.oneLine_sexp_node.mpr ⟨htag, hchildren⟩

theorem ReadsOneLine.applyNull (hoperand : ReadsOneLine operand) (table : OperatorTable)
    (open? : Option Delimiter) (binding : Binding NullRule) (htoken : Text.OneLine token.value) :
    Speaks (fun expr => Text.OneLine expr.sexp) (applyNull table operand open? binding token) := by
  unfold Parse.applyNull
  split
  case h_1 => exact .throw (oneLine_of_word htoken rfl)
  case h_2 => exact .throw (oneLine_of_word htoken rfl)
  case h_3 =>
    apply Speaks.throw
    unfold Delimiter.missingOperand
    split
    · exact oneLine_of_word htoken rfl
    · exact oneLine_unmatched open? htoken
  case h_4 => exact .pure htoken
  case h_5 =>
    refine .bind (hoperand _ _) fun inner hinner => ?_
    exact .bind (.expectClosing table .group) fun _ _ => .pure (Expr.oneLine_group hinner)
  case h_6 =>
    refine .bind (hoperand _ _) fun inner hinner => .pure ?_
    exact oneLine_node htoken (List.forall_mem_singleton.mpr hinner)
  case h_7 =>
    refine .bind (hoperand _ _) fun inner hinner => ?_
    refine .bind (.ensureAssignable hinner) fun _ _ => .pure ?_
    exact oneLine_node htoken (List.forall_mem_singleton.mpr hinner)

theorem ReadsOneLine.arguments (hoperand : ReadsOneLine operand) (bound : Int) (rounds : Nat) :
    Speaks (fun values => ∀ value ∈ values, Text.OneLine value.sexp)
      (arguments operand bound rounds) := by
  induction rounds with
  | zero => exact .pure nofun
  | succ rounds ih =>
      refine .bind .current fun token htoken => ?_
      split
      · exact .pure nofun
      · split
        · exact .throw (oneLine_unmatched _ htoken)
        · refine .bind (hoperand _ _) fun first hfirst => ?_
          refine .bind .current fun separator _ => ?_
          split
          · refine .bind .advance fun _ _ => .bind ih fun rest hrest => .pure ?_
            exact List.forall_mem_cons.mpr ⟨hfirst, hrest⟩
          · exact .pure (List.forall_mem_singleton.mpr hfirst)

theorem ReadsOneLine.ternary (hoperand : ReadsOneLine operand) (table : OperatorTable)
    (open? : Option Delimiter) (bound : Int) (hleft : Text.OneLine left.sexp) :
    Speaks (fun expr => Text.OneLine expr.sexp) (ternary table operand open? left bound) := by
  refine .bind (hoperand _ _) fun positive hpositive => ?_
  refine .bind .current fun token htoken => ?_
  split
  · refine .bind .advance fun _ _ => .bind (hoperand _ _) fun negative hnegative => .pure ?_
    apply oneLine_node (by decide)
    simp only [List.forall_mem_cons]
    exact ⟨hleft, hpositive, hnegative, nofun⟩
  · exact .throw (oneLine_misplaced table htoken (oneLine_of_word htoken rfl))

theorem ReadsOneLine.applyLeft (hoperand : ReadsOneLine operand) (table : OperatorTable)
    (steps : Nat) (open? : Option Delimiter) (binding : Binding LeftRule)
    (htoken : Text.OneLine token.value) (hleft : Text.OneLine left.sexp) :
    Speaks (fun expr => Text.OneLine expr.sexp)
      (applyLeft table steps operand open? binding token left) := by
  have hbinary : Speaks (fun expr => Text.OneLine expr.sexp)
      (binary operand open? token left binding.rightPower) := by
    refine .bind (hoperand _ _) fun right hright => .pure ?_
    apply oneLine_node htoken
    simp only [List.forall_mem_cons]
    exact ⟨hleft, hright, nofun⟩
  unfold Parse.applyLeft
  split
  case h_1 => exact .throw (oneLine_of_word htoken rfl)
  case h_2 => exact .throw (oneLine_of_word htoken rfl)
  case h_3 => exact hbinary
  case h_4 => exact .bind (.ensureAssignable hleft) fun _ _ => hbinary
  case h_5 => exact hoperand.ternary table open? _ hleft
  case h_6 =>
    exact .bind (hoperand _ _) fun right hright => .pure (Expr.oneLine_sequence hleft hright)
  case h_7 =>
    refine .bind (hoperand.arguments _ steps) fun values hvalues => ?_
    refine .bind (.expectClosing table .arguments) fun _ _ => .pure ?_
    exact oneLine_node (by decide) (List.forall_mem_cons.mpr ⟨hleft, hvalues⟩)
  case h_8 =>
    refine .bind (hoperand _ _) fun place hplace => ?_
    refine .bind (.expectClosing table .index) fun _ _ => .pure ?_
    apply oneLine_node (by decide)
    simp only [List.forall_mem_cons]
    exact ⟨hleft, hplace, nofun⟩
  case h_9 =>
    apply Speaks.pure
    apply oneLine_node _ (List.forall_mem_singleton.mpr hleft)
    exact Text.oneLine_append.mpr ⟨by decide, htoken⟩

theorem ReadsOneLine.extend (hoperand : ReadsOneLine operand) (table : OperatorTable)
    (steps : Nat) (open? : Option Delimiter) (bound : Int) (rounds : Nat) (next : Int)
    (hleft : Text.OneLine left.sexp) :
    Speaks (fun expr => Text.OneLine expr.sexp)
      (extend table steps operand open? bound rounds next left) := by
  induction rounds generalizing next left with
  | zero => exact .pure hleft
  | succ rounds ih =>
      refine .bind .current fun token _ => ?_
      dsimp only
      split
      · refine .bind .advance fun token htoken => .bind (.record _) fun _ _ => ?_
        exact .bind (hoperand.applyLeft table steps open? _ htoken hleft) fun _ hleft => ih _ hleft
      · exact .pure hleft

theorem readsOneLine_expression (table : OperatorTable) (limit steps budget : Nat) :
    ReadsOneLine (expression table limit steps budget) := by
  induction budget with
  | zero => exact fun _ _ _ _ => .failed nofun
  | succ budget ih =>
      intro open? bound
      refine .bind .current fun first hfirst => ?_
      split
      · exact fun _ _ => .failed (List.forall_mem_singleton.mpr hfirst)
      · refine .bind .advance fun token htoken => .bind (.record _) fun _ _ => ?_
        exact .bind (ih.applyNull table open? _ htoken) fun left hleft =>
          ih.extend table steps open? bound steps _ hleft

end Rules

end Parse

namespace Parser

theorem speaks_complete (parser : Parser) :
    Parse.Speaks (fun expr => Text.OneLine expr.sexp) parser.complete := by
  have hget : Parse.Speaks (fun _ => True) (get : Parse Cursor) := fun _ hcursor =>
    .done trivial hcursor
  refine .bind hget fun cursor _ => ?_
  refine .bind (Parse.readsOneLine_expression _ _ _ _ _ _) fun expr hexpr => ?_
  refine .bind .current fun token htoken => ?_
  unfold OperatorTable.leftover?
  split
  · rename_i diagnostic hleftover
    split at hleftover
    · cases hleftover
    · split at hleftover
      · cases hleftover
        exact .throw (Parse.oneLine_unmatched none htoken)
      · cases hleftover
        exact .throw (Parse.oneLine_misplaced _ htoken (Parse.oneLine_of_word htoken rfl))
  · exact .pure hexpr

/-- Whatever a source is refused for, what is named of it has no line feed, though the source
may go over many lines. -/
theorem oneLine_of_refusal (parser : Parser) {source : String} {diagnostic : Diagnostic}
    (h : parser.parse source = .error diagnostic) : diagnostic.OneLine := by
  have hsource := TokenStream.oneLine_ofSource source
  unfold parse run at h
  split at h
  · rename_i hstart
    cases h
    exact hsource.2 _ (Cursor.mem_of_start_error hstart)
  · rename_i cursor hstart
    rw [← Cursor.start_stream hstart] at hsource
    have hends := parser.speaks_complete hsource
    generalize parser.complete.run cursor = result at h hends
    cases hends with
    | done => cases h
    | failed hdiagnostic =>
        cases h
        exact hdiagnostic

end Parser

end Precedence
