import Mathlib.Data.List.Forall2
import Mathlib.Data.Nat.Basic
import Mathlib.Order.Basic
import Precedence.Proofs.Adequacy
import Precedence.Proofs.Spelling

/-!
Two parses side by side. A parse looks at a token only for its kind, its value and
its bindings, and at an expression only to see whether it can be assigned to or is
an open sequence; where they were read from goes into spans and positions and decides
nothing. So from tokens that correspond, parses build expressions that correspond, or
fail with diagnostics that do.
-/

namespace Precedence

/-- Whether a diagnostic with the cause can be reported at the token, by a parser that
allows operands to nest `limit` deep. -/
def Cause.Names (limit : Nat) (token : Token) : Cause → Prop
  | .unexpectedToken value | .notLeading value | .notFollowing value
  | .unmatchedDelimiter _ value | .malformedTernary value | .trailingInput value =>
      value = token.value
  | .tooDeep depth => depth = limit
  | .foreignCharacter _ | .invalidTarget _ => False

/-- How the tokens of two sources correspond, and the spans of what is built from
them. The two tables have to give the tokens the same bindings. -/
structure Correspondence (table table' : OperatorTable) where
  token : Token → Token → Prop
  span : Span → Span → Prop
  /-- How the diagnostics correspond that the sources may break off with. -/
  broken : Diagnostic → Diagnostic → Prop
  lexeme : ∀ {t t'}, token t t' → t.lexeme = t'.lexeme
  null : ∀ {t t'}, token t t' → table.null t = table'.null t'
  left : ∀ {t t'}, token t t' → table.left t = table'.left t'
  comma : (table.leftOfSymbol ",").leftPower = (table'.leftOfSymbol ",").leftPower
  single : ∀ {t t'}, token t t' → ¬t.isEnd → span t.span t'.span
  join : ∀ {r r' s s'}, span r r' → span s s' → span (r.join s) (r'.join s')
  joinToken : ∀ {s s' t t'}, span s s' → token t t' → span (s.join t.span) (s'.join t'.span)

/-- A token is looked up by its kind and its value. -/
theorem Token.key_congr {token other : Token} (h : token.lexeme = other.lexeme) :
    token.key = other.key := by
  obtain ⟨hkind, hvalue⟩ := Lexeme.mk.inj h
  rw [key, key, hkind, hvalue]

namespace Correspondence

/-- Sources that are read with one table: tokens that say the same have the same
bindings. -/
def ofLexemes (table : OperatorTable) (token : Token → Token → Prop)
    (span : Span → Span → Prop) (broken : Diagnostic → Diagnostic → Prop)
    (lexeme : ∀ {t t'}, token t t' → t.lexeme = t'.lexeme)
    (single : ∀ {t t'}, token t t' → ¬t.isEnd → span t.span t'.span)
    (join : ∀ {r r' s s'}, span r r' → span s s' → span (r.join s) (r'.join s'))
    (joinToken : ∀ {s s' t t'}, span s s' → token t t' → span (s.join t.span) (s'.join t'.span)) :
    Correspondence table table where
  token := token
  span := span
  broken := broken
  lexeme := lexeme
  null h := by rw [OperatorTable.null, OperatorTable.null, Token.key_congr (lexeme h)]
  left h := congrArg table.leftOfKey (Token.key_congr (lexeme h))
  comma := rfl
  single := single
  join := join
  joinToken := joinToken

variable {table table' : OperatorTable}

inductive Exprs (corr : Correspondence table table') : Expr → Expr → Prop
  | leaf {t t' : Token} (htoken : corr.token t t') (hend : ¬t.isEnd) :
      Exprs corr (.leaf t) (.leaf t')
  | node {tag : String} {children children' : List Expr} {grouped : Bool} {s s' : Span}
      (hchildren : List.Forall₂ (Exprs corr) children children') (hspan : corr.span s s') :
      Exprs corr (.node tag children grouped s) (.node tag children' grouped s')

/-- The same cause at tokens or expressions that correspond, or the diagnostics that
the sources break off with. -/
inductive Diagnostics (corr : Correspondence table table') (limit : Nat) :
    Diagnostic → Diagnostic → Prop
  | named {cause : Cause} {t t' : Token} (htoken : corr.token t t')
      (hcause : cause.Names limit t) :
      Diagnostics corr limit ⟨cause, t.span.start⟩ ⟨cause, t'.span.start⟩
  | target {e e' : Expr} (hexpr : corr.Exprs e e') :
      Diagnostics corr limit ⟨.invalidTarget e.sexp, e.span.start⟩
        ⟨.invalidTarget e'.sexp, e'.span.start⟩
  | broken {d d' : Diagnostic} (hbroken : corr.broken d d') : Diagnostics corr limit d d'

inductive Events (corr : Correspondence table table') : Event → Event → Prop
  | lexed {t t' : Token} (htoken : corr.token t t') : Events corr (.lexed t) (.lexed t')
  | null {t t' : Token} (htoken : corr.token t t') (binding : Binding NullRule) :
      Events corr (.null t binding) (.null t' binding)
  | left {t t' : Token} (htoken : corr.token t t') (binding : Binding LeftRule) :
      Events corr (.left t binding) (.left t' binding)

inductive Items (corr : Correspondence table table') :
    Except Diagnostic Token → Except Diagnostic Token → Prop
  | ok {t t' : Token} (htoken : corr.token t t') : Items corr (.ok t) (.ok t')
  | error {d d' : Diagnostic} (hbroken : corr.broken d d') : Items corr (.error d) (.error d')

structure Cursors (corr : Correspondence table table') (cursor cursor' : Cursor) : Prop where
  current : corr.token cursor.current cursor'.current
  ahead : List.Forall₂ corr.Items cursor.ahead cursor'.ahead
  log : List.Forall₂ corr.Events cursor.log cursor'.log

inductive Outcomes (corr : Correspondence table table') (limit : Nat) {α β : Type}
    (related : α → β → Prop) :
    EStateM.Result Diagnostic Cursor α → EStateM.Result Diagnostic Cursor β → Prop
  | done {a : α} {b : β} {cursor cursor' : Cursor} (hrelated : related a b)
      (hcursors : corr.Cursors cursor cursor') :
      Outcomes corr limit related (.ok a cursor) (.ok b cursor')
  | failed {d d' : Diagnostic} {cursor cursor' : Cursor} (hd : corr.Diagnostics limit d d')
      (hcursors : corr.Cursors cursor cursor') :
      Outcomes corr limit related (.error d cursor) (.error d' cursor')

/-- From places that correspond, the two computations come to ends that do. -/
def Agree (corr : Correspondence table table') (limit : Nat) {α β : Type}
    (related : α → β → Prop) (m : Parse α) (m' : Parse β) : Prop :=
  ∀ ⦃cursor cursor' : Cursor⦄, corr.Cursors cursor cursor' →
    corr.Outcomes limit related (m.run cursor) (m'.run cursor')

variable {corr : Correspondence table table'} {limit : Nat} {t t' : Token}

section Tokens

variable (h : corr.token t t')

include h

theorem kind_eq : t.kind = t'.kind := congrArg Lexeme.kind (corr.lexeme h)

theorem value_eq : t.value = t'.value := congrArg Lexeme.value (corr.lexeme h)

theorem is_eq (symbol : String) : t.is symbol = t'.is symbol := by
  rw [Token.is, Token.is, kind_eq h, value_eq h]

theorem isEnd_eq : t.isEnd = t'.isEnd := by
  rw [Token.isEnd, Token.isEnd, kind_eq h]

theorem isClosing_eq : t.isClosing = t'.isClosing := by
  rw [Token.isClosing, Token.isClosing, is_eq h, is_eq h]

/-- An operator that can only begin an operand is one for both tables. -/
theorem misplaced (cause : Cause) (hcause : cause.Names limit t) :
    corr.Diagnostics limit ((table.misplaced? t).getD ⟨cause, t.span.start⟩)
      ((table'.misplaced? t').getD ⟨cause, t'.span.start⟩) := by
  unfold OperatorTable.misplaced?
  rw [kind_eq h, isClosing_eq h, corr.left h, value_eq h]
  split
  · exact .named h (value_eq h).symm
  · exact .named h hcause

theorem unmatched (open? : Option Delimiter) :
    corr.Diagnostics limit (Delimiter.unmatched open? t) (Delimiter.unmatched open? t') := by
  unfold Delimiter.unmatched
  rw [← value_eq h]
  exact .named h rfl

end Tokens

namespace Exprs

variable {e e' : Expr}

theorem eraseSpans_eq (h : corr.Exprs e e') : e.eraseSpans = e'.eraseSpans := by
  induction e generalizing e' with
  | leaf token =>
      cases h with
      | leaf htoken _ => simp only [Expr.eraseSpans, kind_eq htoken, value_eq htoken]
  | node tag children grouped span ih =>
      cases h with
      | @node _ _ children' _ _ _ hchildren _ =>
          have hall : children.map Expr.eraseSpans = children'.map Expr.eraseSpans := by
            induction hchildren with
            | nil => rfl
            | cons hfirst _ ihrest =>
                rw [List.map_cons, List.map_cons, ih _ (by simp) hfirst,
                  ihrest fun child hchild => ih child (by simp [hchild])]
          simp only [Expr.eraseSpans, Expr.eraseSpansOfAll_eq_map, hall]

theorem isAssignable_eq (h : corr.Exprs e e') : e.isAssignable = e'.isAssignable :=
  Expr.isAssignable_congr h.eraseSpans_eq

theorem span (h : corr.Exprs e e') : corr.span e.span e'.span := by
  cases h with
  | leaf htoken hend => exact corr.single htoken hend
  | node _ hspan => exact hspan

theorem group (h : corr.Exprs e e') : corr.Exprs e.group e'.group := by
  cases h with
  | leaf htoken hend => exact .leaf htoken hend
  | node hchildren hspan => exact .node hchildren hspan

theorem pair {left left' right right' : Expr} (tag : String) (hleft : corr.Exprs left left')
    (hright : corr.Exprs right right') :
    corr.Exprs (.ofOperands tag [left, right]) (.ofOperands tag [left', right']) :=
  .node (.cons hleft (.cons hright .nil)) (corr.join hleft.span hright.span)

theorem sequence {left left' right right' : Expr} (hleft : corr.Exprs left left')
    (hright : corr.Exprs right right') :
    corr.Exprs (Parse.sequence left right) (Parse.sequence left' right') := by
  have hpair := hleft.pair "," hright
  cases hleft with
  | leaf => exact hpair
  | @node tag children children' grouped s s' hchildren hspan =>
      by_cases hopen : tag = "," ∧ grouped = false
      · obtain ⟨rfl, rfl⟩ := hopen
        exact .node (List.rel_append hchildren (.cons hright .nil)) (corr.join hspan hright.span)
      · have hother : ∀ (children : List Expr) (s : Span) (right : Expr),
            Parse.sequence (.node tag children grouped s) right =
              .ofOperands "," [.node tag children grouped s, right] := by
          intro children s right
          unfold Parse.sequence
          split
          · rename_i heq
            cases heq
            exact absurd ⟨rfl, rfl⟩ hopen
          · rfl
        rw [hother, hother]
        exact hpair

end Exprs

section Steps

variable {α β γ δ : Type} {related : α → β → Prop} {related' : γ → δ → Prop}

theorem Agree.pure {a : α} {b : β} (h : related a b) :
    corr.Agree limit related (pure a) (pure b) :=
  fun _ _ hcursors => .done h hcursors

theorem Agree.throw {d d' : Diagnostic} (h : corr.Diagnostics limit d d') :
    corr.Agree limit related (throw d) (throw d') :=
  fun _ _ hcursors => .failed h hcursors

theorem Agree.bind {m : Parse α} {m' : Parse β} {next : α → Parse γ} {next' : β → Parse δ}
    (hfirst : corr.Agree limit related m m')
    (hnext : ∀ a b, related a b → corr.Agree limit related' (next a) (next' b)) :
    corr.Agree limit related' (m >>= next) (m' >>= next') := by
  intro cursor cursor' hcursors
  have houtcomes := hfirst hcursors
  rw [EStateM.run_bind, EStateM.run_bind]
  generalize m.run cursor = result at houtcomes
  generalize m'.run cursor' = result' at houtcomes
  cases houtcomes with
  | done hrelated hcursors => exact hnext _ _ hrelated hcursors
  | failed hd hcursors => exact .failed hd hcursors

theorem Agree.current : corr.Agree limit corr.token Parse.current Parse.current :=
  fun _ _ hcursors => .done hcursors.current hcursors

theorem Agree.record {event event' : Event} (h : corr.Events event event') :
    corr.Agree limit (fun _ _ => True) (Parse.record event) (Parse.record event') :=
  fun _ _ hcursors => .done trivial ⟨hcursors.current, hcursors.ahead, .cons h hcursors.log⟩

theorem sighting (h : corr.token t t') :
    List.Forall₂ corr.Events (Cursor.sighting t) (Cursor.sighting t') := by
  unfold Cursor.sighting
  rw [isEnd_eq h]
  split
  · exact .nil
  · exact .cons (.lexed h) .nil

/-- What follows a token that is taken sees the token that was current. -/
theorem bind_advance {cursor cursor' : Cursor} {next : Token → Parse γ} {next' : Token → Parse δ}
    (hcursors : corr.Cursors cursor cursor')
    (hnext : corr.Agree limit related' (next cursor.current) (next' cursor'.current)) :
    corr.Outcomes limit related' ((Parse.advance >>= next).run cursor)
      ((Parse.advance >>= next').run cursor') := by
  obtain ⟨current, ahead, log⟩ := cursor
  obtain ⟨current', ahead', log'⟩ := cursor'
  obtain ⟨hcurrent, hahead, hlog⟩ := hcursors
  rw [EStateM.run_bind, EStateM.run_bind]
  cases hahead with
  | nil => exact hnext ⟨hcurrent, .nil, hlog⟩
  | cons hitem hahead =>
      cases hitem with
      | error hbroken => exact .failed (.broken hbroken) ⟨hcurrent, hahead, hlog⟩
      | ok htoken => exact hnext ⟨htoken, hahead, List.rel_append (sighting htoken) hlog⟩

theorem Agree.advance : corr.Agree limit corr.token Parse.advance Parse.advance := by
  intro cursor cursor' hcursors
  rw [← bind_pure Parse.advance]
  exact bind_advance hcursors (.pure hcursors.current)

end Steps

section Rules

open Parse

variable {operand operand' : Operand}

theorem Agree.expectClosing (delimiter : Delimiter) :
    corr.Agree limit corr.token (expectClosing table delimiter) (expectClosing table' delimiter) := by
  apply Agree.bind .current
  intro token token' htoken
  rw [is_eq htoken]
  split
  · exact .advance
  · apply Agree.throw
    unfold Delimiter.unmatched
    rw [← value_eq htoken]
    exact misplaced htoken _ rfl

theorem Agree.ensureAssignable {e e' : Expr} (h : corr.Exprs e e') :
    corr.Agree limit (fun _ _ => True) (ensureAssignable e) (ensureAssignable e') := by
  unfold Parse.ensureAssignable
  rw [h.isAssignable_eq]
  split
  · exact .pure trivial
  · exact .throw (.target h)

def OperandsAgree (corr : Correspondence table table') (limit : Nat) (operand operand' : Operand) :
    Prop :=
  ∀ open? bound, corr.Agree limit corr.Exprs (operand open? bound) (operand' open? bound)

theorem elementBound_eq (corr : Correspondence table table') (open? : Option Delimiter) :
    Delimiter.elementBound table open? = Delimiter.elementBound table' open? := by
  unfold Delimiter.elementBound
  rw [corr.comma]

theorem OperandsAgree.applyNull (h : corr.OperandsAgree limit operand operand')
    (open? : Option Delimiter) (binding : Binding NullRule) (htoken : corr.token t t')
    (hend : ¬t.isEnd) :
    corr.Agree limit corr.Exprs (applyNull table operand open? binding t)
      (applyNull table' operand' open? binding t') := by
  have hspan := corr.single htoken hend
  unfold Parse.applyNull
  split
  case h_1 => exact .throw (value_eq htoken ▸ .named htoken rfl)
  case h_2 => exact .throw (value_eq htoken ▸ .named htoken rfl)
  case h_3 =>
    apply Agree.throw
    unfold Delimiter.missingOperand
    rw [← value_eq htoken]
    split
    · exact .named htoken rfl
    · exact unmatched htoken open?
  case h_4 => exact .pure (.leaf htoken hend)
  case h_5 =>
    refine .bind (h _ _) fun inner inner' hinner => ?_
    exact .bind (.expectClosing .group) fun _ _ _ => .pure hinner.group
  case h_6 =>
    refine .bind (h _ _) fun inner inner' hinner => ?_
    rw [← value_eq htoken]
    exact .pure (.node (.cons hinner .nil) (corr.join hspan hinner.span))
  case h_7 =>
    refine .bind (h _ _) fun inner inner' hinner => ?_
    refine .bind (.ensureAssignable hinner) fun _ _ _ => ?_
    rw [← value_eq htoken]
    exact .pure (.node (.cons hinner .nil) (corr.join hspan hinner.span))

theorem OperandsAgree.arguments (h : corr.OperandsAgree limit operand operand') (bound : Int)
    (rounds : Nat) :
    corr.Agree limit (List.Forall₂ corr.Exprs) (arguments operand bound rounds)
      (arguments operand' bound rounds) := by
  induction rounds with
  | zero => exact .pure .nil
  | succ rounds ih =>
      refine .bind .current fun token token' htoken => ?_
      rw [is_eq htoken, isEnd_eq htoken]
      split
      · exact .pure .nil
      · split
        · exact .throw (unmatched htoken _)
        · refine .bind (h _ _) fun first first' hfirst => ?_
          refine .bind .current fun separator separator' hseparator => ?_
          rw [is_eq hseparator]
          split
          · refine .bind .advance fun _ _ _ => ?_
            exact .bind ih fun rest rest' hrest => .pure (.cons hfirst hrest)
          · exact .pure (.cons hfirst .nil)

theorem OperandsAgree.ternary (h : corr.OperandsAgree limit operand operand')
    (open? : Option Delimiter) (bound : Int) {condition condition' : Expr}
    (hcondition : corr.Exprs condition condition') :
    corr.Agree limit corr.Exprs (ternary table operand open? condition bound)
      (ternary table' operand' open? condition' bound) := by
  refine .bind (h _ _) fun positive positive' hpositive => ?_
  refine .bind .current fun token token' htoken => ?_
  rw [is_eq htoken]
  split
  · refine .bind .advance fun _ _ _ => .bind (h _ _) fun negative negative' hnegative => ?_
    exact .pure (.node (.cons hcondition (.cons hpositive (.cons hnegative .nil)))
      (corr.join hcondition.span hnegative.span))
  · rw [← value_eq htoken]
    exact .throw (misplaced htoken _ rfl)

theorem OperandsAgree.applyLeft (h : corr.OperandsAgree limit operand operand') (steps : Nat)
    (open? : Option Delimiter) (binding : Binding LeftRule) (htoken : corr.token t t')
    {left left' : Expr} (hleft : corr.Exprs left left') :
    corr.Agree limit corr.Exprs (applyLeft table steps operand open? binding t left)
      (applyLeft table' steps operand' open? binding t' left') := by
  have hbinary : corr.Agree limit corr.Exprs (binary operand open? t left binding.rightPower)
      (binary operand' open? t' left' binding.rightPower) := by
    refine .bind (h _ _) fun right right' hright => ?_
    rw [← value_eq htoken]
    exact .pure (hleft.pair _ hright)
  unfold Parse.applyLeft
  split
  case h_1 => exact .throw (value_eq htoken ▸ .named htoken rfl)
  case h_2 => exact .throw (value_eq htoken ▸ .named htoken rfl)
  case h_3 => exact hbinary
  case h_4 => exact .bind (.ensureAssignable hleft) fun _ _ _ => hbinary
  case h_5 => exact h.ternary open? _ hleft
  case h_6 => exact .bind (h _ _) fun right right' hright => .pure (hleft.sequence hright)
  case h_7 =>
    unfold call
    rw [corr.elementBound_eq]
    refine .bind (h.arguments _ steps) fun values values' hvalues => ?_
    refine .bind (.expectClosing .arguments) fun closing closing' hclosing => ?_
    exact .pure (.node (.cons hleft hvalues) (corr.joinToken hleft.span hclosing))
  case h_8 =>
    unfold index
    rw [corr.elementBound_eq]
    refine .bind (h _ _) fun place place' hplace => ?_
    refine .bind (.expectClosing .index) fun closing closing' hclosing => ?_
    exact .pure (.node (.cons hleft (.cons hplace .nil)) (corr.joinToken hleft.span hclosing))
  case h_9 =>
    unfold Parse.suffixed
    rw [← value_eq htoken]
    exact .pure (.node (.cons hleft .nil) (corr.joinToken hleft.span htoken))

theorem OperandsAgree.extend (h : corr.OperandsAgree limit operand operand') (steps : Nat)
    (open? : Option Delimiter) (bound : Int) (rounds : Nat) (next : Int) {left left' : Expr}
    (hleft : corr.Exprs left left') :
    corr.Agree limit corr.Exprs (extend table steps operand open? bound rounds next left)
      (extend table' steps operand' open? bound rounds next left') := by
  induction rounds generalizing next left left' with
  | zero => exact .pure hleft
  | succ rounds ih =>
      refine .bind .current fun token token' htoken => ?_
      rw [← corr.left htoken]
      dsimp only
      split
      · refine .bind .advance fun token token' htoken => ?_
        refine .bind (.record (.left htoken _)) fun _ _ _ => ?_
        exact .bind (h.applyLeft steps open? _ htoken hleft) fun left left' hleft => ih _ hleft
      · exact .pure hleft

theorem operandsAgree (corr : Correspondence table table') (limit steps budget : Nat) :
    corr.OperandsAgree limit (expression table limit steps budget)
      (expression table' limit steps budget) := by
  induction budget with
  | zero =>
      intro open? bound cursor cursor' hcursors
      exact .failed (.named hcursors.current rfl) hcursors
  | succ budget ih =>
      intro open? bound cursor cursor' hcursors
      have htoken := hcursors.current
      change corr.Outcomes limit corr.Exprs
        ((if cursor.current.isEnd then _ else _ : Parse Expr).run cursor)
        ((if cursor'.current.isEnd then _ else _ : Parse Expr).run cursor')
      rw [← isEnd_eq htoken]
      split
      · exact .failed (value_eq htoken ▸ .named htoken rfl) hcursors
      · rename_i hend
        refine bind_advance hcursors ?_
        rw [← corr.null htoken]
        refine .bind (.record (.null htoken _)) fun _ _ _ => ?_
        exact .bind (ih.applyNull open? _ htoken hend) fun left left' hleft =>
          ih.extend steps open? bound steps _ hleft

end Rules

theorem leftover (h : corr.token t t') :
    (table.leftover? t = none ∧ table'.leftover? t' = none) ∨
      ∃ d d', table.leftover? t = some d ∧ table'.leftover? t' = some d' ∧
        corr.Diagnostics limit d d' := by
  unfold OperatorTable.leftover?
  rw [isEnd_eq h, isClosing_eq h]
  split
  · exact .inl ⟨rfl, rfl⟩
  · split
    · exact .inr ⟨_, _, rfl, rfl, unmatched h none⟩
    · rw [← value_eq h]
      exact .inr ⟨_, _, rfl, rfl, misplaced h _ rfl⟩

theorem complete_agree (corr : Correspondence table table') (limit : Nat) :
    corr.Agree limit corr.Exprs (Parser.complete ⟨table, limit⟩)
      (Parser.complete ⟨table', limit⟩) := by
  have hsteps : corr.Agree limit (fun cursor cursor' => cursor.steps = cursor'.steps)
      (get : Parse Cursor) get := by
    intro cursor cursor' hcursors
    exact .done (by rw [Cursor.steps, Cursor.steps, hcursors.ahead.length_eq]) hcursors
  refine .bind hsteps fun cursor cursor' hsteps => ?_
  rw [hsteps]
  refine .bind (corr.operandsAgree limit _ limit none minPower) fun expr expr' hexpr => ?_
  refine .bind .current fun token token' htoken => ?_
  rcases @leftover _ _ corr limit _ _ htoken with ⟨hnone, hnone'⟩ | ⟨d, d', hsome, hsome', hd⟩
  · rw [hnone, hnone']
    exact .pure hexpr
  · rw [hsome, hsome']
    exact .throw hd

/-- Two cursors at the beginning of streams that correspond, or the diagnostics that
are there in their place. -/
theorem start_cases {source source' : String}
    (h : List.Forall₂ corr.Items (TokenStream.ofSource source) (TokenStream.ofSource source')) :
    (∃ cursor cursor', Cursor.start source = .ok cursor ∧ Cursor.start source' = .ok cursor' ∧
        corr.Cursors cursor cursor') ∨
      ∃ d d', Cursor.start source = .error d ∧ Cursor.start source' = .error d' ∧
        corr.broken d d' := by
  have hsealed := TokenStream.ofSource_sealed source
  unfold Cursor.start
  generalize TokenStream.ofSource source = stream at h hsealed
  generalize TokenStream.ofSource source' = stream' at h
  cases h with
  | nil => cases hsealed
  | cons hitem hahead =>
      cases hitem with
      | error hbroken => exact .inr ⟨_, _, rfl, rfl, hbroken⟩
      | ok htoken => exact .inl ⟨_, _, rfl, rfl, htoken, hahead, sighting htoken⟩

inductive Runs (corr : Correspondence table table') (limit : Nat) : Parser.Run → Parser.Run → Prop
  | accepted {e e' : Expr} {events events' : List Event} (hexpr : corr.Exprs e e')
      (hevents : List.Forall₂ corr.Events events events') :
      Runs corr limit ⟨.ok e, events⟩ ⟨.ok e', events'⟩
  | refused {d d' : Diagnostic} {events events' : List Event} (hd : corr.Diagnostics limit d d')
      (hevents : List.Forall₂ corr.Events events events') :
      Runs corr limit ⟨.error d, events⟩ ⟨.error d', events'⟩

theorem Runs.of_error {run run' : Parser.Run} {d : Diagnostic} (h : corr.Runs limit run run')
    (herror : run.result = .error d) :
    ∃ d', run'.result = .error d' ∧ corr.Diagnostics limit d d' := by
  cases h with
  | accepted => cases herror
  | refused hd =>
      cases herror
      exact ⟨_, rfl, hd⟩

/-- Sources whose streams correspond are parsed to outcomes that correspond. -/
theorem runs (corr : Correspondence table table') (limit : Nat) {source source' : String}
    (h : List.Forall₂ corr.Items (TokenStream.ofSource source) (TokenStream.ofSource source')) :
    corr.Runs limit (Parser.run ⟨table, limit⟩ source) (Parser.run ⟨table', limit⟩ source') := by
  unfold Parser.run
  rcases start_cases h with ⟨cursor, cursor', hstart, hstart', hcursors⟩ |
    ⟨d, d', hstart, hstart', hbroken⟩
  · rw [hstart, hstart']
    have houtcomes := corr.complete_agree limit hcursors
    dsimp only
    generalize (Parser.complete ⟨table, limit⟩).run cursor = result at houtcomes
    generalize (Parser.complete ⟨table', limit⟩).run cursor' = result' at houtcomes
    cases houtcomes with
    | done hexpr hcursors => exact .accepted hexpr (List.rel_reverse hcursors.log)
    | failed hd hcursors => exact .refused hd (List.rel_reverse hcursors.log)
  · rw [hstart, hstart']
    exact .refused (.broken hbroken) .nil

theorem items_refl {corr : Correspondence table table'} {stream : TokenStream}
    (hok : ∀ {t}, .ok t ∈ stream → corr.token t t)
    (herror : ∀ {d}, .error d ∈ stream → corr.broken d d) :
    List.Forall₂ corr.Items stream stream := by
  apply List.forall₂_same.mpr
  intro item hitem
  cases item with
  | ok token => exact .ok (hok hitem)
  | error diagnostic => exact .error (herror hitem)

end Correspondence

namespace TokenStream

/-- A stream corresponds to itself, if what is demanded of the spans of its tokens goes
over to what is built from them. -/
def diagonal (table : OperatorTable) (stream : TokenStream) (span : Span → Prop)
    (single : ∀ {t}, .ok t ∈ stream → ¬t.isEnd → span t.span)
    (join : ∀ {r s}, span r → span s → span (r.join s))
    (joinToken : ∀ {s t}, span s → .ok t ∈ stream → span (s.join t.span)) :
    Correspondence table table :=
  .ofLexemes table (fun t t' => t = t' ∧ .ok t ∈ stream) (fun s _ => span s)
    (fun d d' => d = d' ∧ .error d ∈ stream) (fun h => congrArg Token.lexeme h.1)
    (fun h hend => single h.2 hend) (fun hr hs => join hr hs) (fun hs ht => joinToken hs ht.2)

def Starts (stream : TokenStream) (place : Nat) : Prop :=
  ∃ t, .ok t ∈ stream ∧ place = t.span.start

/-- A stream corresponds to itself, with spans that begin where a token does. -/
def itself (table : OperatorTable) (stream : TokenStream) : Correspondence table table :=
  stream.diagonal table (fun s => stream.Starts s.start) (fun ht _ => ⟨_, ht, rfl⟩)
    (min_rec' stream.Starts) (fun hs ht => min_rec' stream.Starts hs ⟨_, ht, rfl⟩)

theorem itself_items (table : OperatorTable) (stream : TokenStream) :
    List.Forall₂ (stream.itself table).Items stream stream :=
  Correspondence.items_refl (fun h => ⟨rfl, h⟩) (fun h => ⟨rfl, h⟩)

end TokenStream

end Precedence
