import Precedence.Proofs.Completeness

/-!
How a list of tokens is completed to an expression. What is open at its end is closed from
the inside out: an operand `x` where one is missing, then for each bracket the closing one,
and for each conditional a colon and another `x`. The operands that were read before stay
as they are, since a closing word holds as little of them as the end of the input does.
-/

namespace Precedence

open Lexeme Parse

/-- The words that complete an expression. -/
def closers : List Lexeme := [⟨.identifier, "x"⟩, mark ")", mark "]", mark ":"]

theorem Token.not_is {token : Token} {symbol other : String} (h : token.is symbol)
    (hother : symbol ≠ other) : ¬token.is other := by
  simp_all [Token.is]

def Token.Inert (token : Token) : Prop := (cTable.left token).leftPower = minPower

theorem Token.inert_of_isEnd {token : Token} (h : token.isEnd) : token.Inert := by
  rw [Inert, CTable.left_end h]
  rfl

theorem Token.inert_of_closer {token : Token} (h : token.lexeme ∈ closers) : token.Inert := by
  have hall : ∀ lexeme ∈ closers,
      (cTable.left ⟨lexeme.kind, lexeme.value, .origin⟩).leftPower = minPower := by decide
  exact hall _ h

section Readings

variable {depth : Nat} {bound : Int} {expr : Expr} {token next : Token} {tokens rest : List Token}

/-- What is taken spells the same expression before any other text. -/
theorem Yields.retail (h : Yields depth expr tokens rest) :
    ∃ used, used ≠ [] ∧ tokens = used ++ rest ∧
      ∀ rest', Yields depth expr (used ++ rest') rest' := by
  obtain ⟨hwell, used, htokens, hspelling⟩ := h
  refine ⟨used, ?_, htokens, fun rest' => ⟨hwell, used, rfl, hspelling⟩⟩
  rintro rfl
  exact absurd hspelling.spelling.within_length.pos (Nat.lt_irrefl 0)

theorem Fits.retail (h : Fits bound expr (next :: rest)) (rest' : List Token) :
    Fits bound expr (next :: rest') :=
  ⟨h.agrees, h.left, h.right⟩

theorem nextAtMost_inert {power : Int} (hpower : minPower ≤ power) (hnext : next.Inert) :
    NextAtMost power (next :: rest) := by
  rw [nextAtMost_cons, hnext]
  exact hpower

/-- An expression that is well-formed fits before a token that holds nothing of it. -/
theorem Fits.before_inert (h : Fits bound expr tokens) (hwell : expr.WellFormed cTable)
    (hnext : next.Inert) : Fits bound expr (next :: rest) := by
  refine ⟨h.agrees, h.left, fun construct hconstruct => ?_⟩
  exact nextAtMost_inert (Int.le_trans (by decide) (hwell.rightSpine_bound construct hconstruct))
    hnext

/-- A reading that accounts for every token and agrees with the table. Unlike what the
loops read, it is not tied to the tokens behind it. -/
structure Grammatical (depth : Nat) (bound : Int) (tokens : List Token) (expr : Expr)
    (rest : List Token) : Prop where
  yields : Yields depth expr tokens rest
  fits : Fits bound expr rest
  next : NextAtMost bound rest

namespace Grammatical

theorem all_yield (depth : Nat) : Reading.Yields (Grammatical depth) depth :=
  fun h => h.yields

theorem all_fit (depth : Nat) : Reading.Fits (Grammatical depth) :=
  fun h => ⟨h.fits, h.next⟩

theorem of_reads (h : Reads cTable depth bound tokens expr rest) :
    Grammatical depth bound tokens expr rest := by
  obtain ⟨hfits, hnext⟩ := Reads.fits depth h
  exact ⟨Reads.yields depth h, hfits, hnext⟩

/-- The same is read before any other text that begins with the same token. -/
theorem retail (h : Grammatical depth bound tokens expr (next :: rest)) :
    ∃ used, used ≠ [] ∧ tokens = used ++ next :: rest ∧
      ∀ rest', Grammatical depth bound (used ++ next :: rest') expr (next :: rest') := by
  obtain ⟨used, hused, htokens, hyields⟩ := h.yields.retail
  exact ⟨used, hused, htokens, fun rest' => ⟨hyields _, h.fits.retail rest', h.next⟩⟩

/-- The same is read before any other text that holds nothing of it. -/
theorem before_inert (hbound : minPower ≤ bound) (h : Grammatical depth bound tokens expr rest) :
    ∃ used, tokens = used ++ rest ∧ ∀ {next : Token} {rest' : List Token}, next.Inert →
      Grammatical depth bound (used ++ next :: rest') expr (next :: rest') := by
  obtain ⟨used, _, htokens, hyields⟩ := h.yields.retail
  exact ⟨used, htokens, fun hnext =>
    ⟨hyields _, h.fits.before_inert h.yields.1 hnext, nextAtMost_inert hbound hnext⟩⟩

theorem exists_cons (h : Grammatical depth bound tokens expr (next :: rest)) :
    ∃ first behind, tokens = first :: behind := by
  obtain ⟨used, hused, rfl, _⟩ := h.retail
  exact List.exists_cons_of_ne_nil (List.append_ne_nil_of_left_ne_nil hused _)

/-- What a token begins is read before a text that holds nothing of it. -/
theorem of_null (hbound : minPower ≤ bound) (hnext : next.Inert)
    (h : NullReads (Grammatical depth) (cTable.null token) token tokens expr (next :: rest)) :
    Grammatical (depth + 1) bound (token :: tokens) expr (next :: rest) :=
  ⟨h.yields (all_yield depth), (h.fits (all_fit depth)).1, nextAtMost_inert hbound hnext⟩

/-- What an operator makes of the operand before it is read before a text that holds
nothing of it. -/
theorem of_left {left : Expr} {all : List Token} (hbound : minPower ≤ bound) (hnext : next.Inert)
    (hyields : Yields (depth + 1) left all (token :: tokens))
    (hfits : Fits bound left (token :: tokens)) (hpower : bound < (cTable.left token).leftPower)
    (h : LeftReads cTable (Grammatical depth) (cTable.left token) token left tokens expr
      (next :: rest)) :
    Grammatical (depth + 1) bound all expr (next :: rest) :=
  ⟨h.yields (all_yield depth) hyields, (h.fits (all_fit depth) hyields.1 hfits hpower).1,
    nextAtMost_inert hbound hnext⟩

theorem identifier (hdepth : 0 < depth) (hbound : minPower ≤ bound)
    (htoken : token.kind = .identifier) (hnext : next.Inert) :
    Grammatical depth bound (token :: next :: rest) (.leaf token) (next :: rest) := by
  obtain ⟨depth, rfl⟩ : ∃ n, depth = n + 1 := ⟨depth - 1, by omega⟩
  exact of_null hbound hnext (.literal (CTable.literal_of_kind (.inl htoken)))

end Grammatical

end Readings

/-- The tokens before the end of the input, and closing words behind them, are read up
to any token that holds nothing of what is read. -/
def Completable {α : Type} (tokens : List Token) (reads : List Token → α → List Token → Prop) :
    Prop :=
  ∃ closing : List Lexeme, closing ⊆ closers ∧
    ∀ {added rest : List Token} {next : Token}, added.map Token.lexeme = closing → next.Inert →
      ∃ a, reads (tokens.dropLast ++ (added ++ next :: rest)) a (next :: rest)

theorem Completable.map {α β : Type} {reads : List Token → α → List Token → Prop}
    {reads' : List Token → β → List Token → Prop} {tokens : List Token}
    (h : Completable tokens reads)
    (hmap : ∀ {tokens a next rest}, reads tokens a (next :: rest) →
      ∃ b, reads' tokens b (next :: rest)) :
    Completable tokens reads' := by
  obtain ⟨closing, hclosing, hreads⟩ := h
  refine ⟨closing, hclosing, fun hadded hnext => ?_⟩
  obtain ⟨a, ha⟩ := hreads hadded hnext
  exact hmap ha

/-- A completion goes on with what was read before it. -/
theorem Completable.prepend {α β : Type} {reads : List Token → α → List Token → Prop}
    {reads' : List Token → β → List Token → Prop} {tokens : List Token}
    (h : Completable tokens reads) (htokens : tokens ≠ []) {before : List Token}
    (hprepend : ∀ {behind rest : List Token} {next : Token} {a : α}, next.Inert →
      reads behind a (next :: rest) → ∃ b, reads' (before ++ behind) b (next :: rest)) :
    Completable (before ++ tokens) reads' := by
  obtain ⟨closing, hclosing, hreads⟩ := h
  refine ⟨closing, hclosing, fun hadded hnext => ?_⟩
  obtain ⟨a, ha⟩ := hreads hadded hnext
  rw [List.dropLast_append_of_ne_nil htokens, List.append_assoc]
  exact hprepend hnext ha

/-- A completion goes on with more closing words. -/
theorem Completable.close {α β : Type} {reads : List Token → α → List Token → Prop}
    {reads' : List Token → β → List Token → Prop} {tokens : List Token}
    (h : Completable tokens reads) (suffix : List Lexeme) (hsuffix : suffix ⊆ closers)
    (hclose : ∀ {behind added rest : List Token} {next : Token} {a : α},
      added.map Token.lexeme = suffix → next.Inert →
      reads (tokens.dropLast ++ behind) a (added ++ next :: rest) →
      ∃ b, reads' (tokens.dropLast ++ behind) b (next :: rest)) :
    Completable tokens reads' := by
  obtain ⟨closing, hclosing, hreads⟩ := h
  refine ⟨closing ++ suffix, List.append_subset.mpr ⟨hclosing, hsuffix⟩, ?_⟩
  intro added rest next hadded hnext
  obtain ⟨first, second, rfl, hfirst, hsecond⟩ := List.map_eq_append_iff.mp hadded
  -- Behind the inner completion stands another closing word, or the token behind all.
  obtain ⟨head, tail, hcons, hhead⟩ : ∃ head tail, second ++ next :: rest = head :: tail ∧
      head.Inert := by
    cases second with
    | nil => exact ⟨next, rest, rfl, hnext⟩
    | cons head tail =>
        refine ⟨head, tail ++ next :: rest, rfl, Token.inert_of_closer (hsuffix ?_)⟩
        simp [← hsecond]
  obtain ⟨a, ha⟩ := @hreads first tail head hfirst hhead
  rw [← hcons] at ha
  rw [List.append_assoc first]
  exact hclose hsecond hnext ha

def ClosedArguments (reading : Reading) (bound : Int) (tokens : List Token) (values : List Expr)
    (rest : List Token) : Prop :=
  ∃ close, close.is ")" ∧ ArgumentsRead reading bound tokens values (close :: rest)

namespace Completable

variable {depth : Nat} {bound : Int} {token : Token} {tokens : List Token}

/-- Where an expression is missing at the end of the input, an operand completes it. -/
theorem operand_end (hbound : minPower ≤ bound) (last : Token) :
    Completable [last] (Grammatical (depth + 1) bound) := by
  refine ⟨[⟨.identifier, "x"⟩], by decide, fun {added rest next} hadded hnext => ?_⟩
  obtain ⟨operand, rfl, hoperand⟩ := List.map_eq_singleton_iff.mp hadded
  exact ⟨_, .identifier (Nat.succ_pos depth) hbound (congrArg Lexeme.kind hoperand) hnext⟩

/-- At the end of the input an argument list is closed. -/
theorem arguments_end {reading : Reading} (last : Token) :
    Completable [last] (ClosedArguments reading bound) := by
  refine ⟨[mark ")"], by decide, fun {added rest next} hadded _ => ⟨[], ?_⟩⟩
  obtain ⟨close, rfl, hclose⟩ := List.map_eq_singleton_iff.mp hadded
  have hclose := Token.is_of_lexeme hclose
  exact ⟨close, hclose, .done hclose⟩

/-- An argument at the end of the input is the last one. -/
theorem arguments_last (hopen : ¬token.is ")") (hend : ¬token.isEnd) (htokens : tokens ≠ [])
    (h : Completable (token :: tokens) (Grammatical depth bound)) :
    Completable (token :: tokens) (ClosedArguments (Grammatical depth) bound) := by
  refine h.close [mark ")"] (by decide) ?_
  intro behind added rest next first hadded _ hfirst
  obtain ⟨close, rfl, hclose⟩ := List.map_eq_singleton_iff.mp hadded
  have hclose := Token.is_of_lexeme hclose
  rw [List.dropLast_cons_of_ne_nil htokens] at hfirst ⊢
  exact ⟨[first], close, hclose, .last hopen hend hfirst (Token.not_is hclose (by decide))⟩

/-- An argument stays as it was when those behind it are completed. -/
theorem arguments_more {separator : Token} {behind : List Token} {first : Expr}
    (hopen : ¬token.is ")") (hend : ¬token.isEnd)
    (hfirst : Grammatical depth bound (token :: tokens) first (separator :: behind))
    (hseparator : separator.is ",") (hbehind : behind ≠ [])
    (h : Completable behind (ClosedArguments (Grammatical depth) bound)) :
    Completable (token :: tokens) (ClosedArguments (Grammatical depth) bound) := by
  obtain ⟨used, hused, htokens, hretail⟩ := hfirst.retail
  obtain ⟨_, used, rfl⟩ := List.exists_cons_of_ne_nil hused
  rw [List.cons_append, List.cons.injEq] at htokens
  obtain ⟨rfl, rfl⟩ := htokens
  have hall : token :: (used ++ separator :: behind) = token :: (used ++ [separator]) ++ behind := by
    simp
  rw [hall]
  refine h.prepend hbehind ?_
  rintro between rest next others - ⟨close, hclose, hothers⟩
  obtain ⟨head, tail, rfl⟩ : ∃ head tail, between = head :: tail := by
    cases hothers <;> exact ⟨_, _, rfl⟩
  have hread := ArgumentsRead.more hopen hend (hretail (head :: tail)) hseparator hothers
  exact ⟨first :: others, close, hclose, by simpa using hread⟩

variable {binding : Binding LeftRule} {left : Expr}

/-- The middle of a conditional is followed by a colon and another operand. -/
theorem ternary_middle (hrule : binding.rule = .ternary) (hbound : minPower ≤ binding.rightPower)
    (h : Completable tokens (Grammatical depth minPower)) :
    Completable tokens (LeftReads cTable (Grammatical depth) binding token left) := by
  refine h.close [mark ":", ⟨.identifier, "x"⟩] (by decide) ?_
  intro behind added rest next middle hadded hnext hmiddle
  obtain ⟨colon, _, rfl, hcolon, hadded⟩ := List.map_eq_cons_iff.mp hadded
  obtain ⟨operand, rfl, hoperand⟩ := List.map_eq_singleton_iff.mp hadded
  have hdepth : 0 < depth := by
    obtain ⟨_, _, _, hspelling⟩ := hmiddle.yields
    exact hspelling.pos
  exact ⟨_, .ternary hrule hmiddle (Token.is_of_lexeme hcolon)
    (.identifier hdepth hbound (congrArg Lexeme.kind hoperand) hnext)⟩

/-- The middle of a conditional stays as it was when the last operand is completed. -/
theorem ternary_last {colon : Token} {behind : List Token} {middle : Expr}
    (hrule : binding.rule = .ternary)
    (hmiddle : Grammatical depth minPower tokens middle (colon :: behind)) (hcolon : colon.is ":")
    (hbehind : behind ≠ []) (h : Completable behind (Grammatical depth binding.rightPower)) :
    Completable tokens (LeftReads cTable (Grammatical depth) binding token left) := by
  obtain ⟨used, _, rfl, hretail⟩ := hmiddle.retail
  rw [← List.singleton_append, ← List.append_assoc]
  refine h.prepend hbehind ?_
  intro between rest next last _ hlast
  obtain ⟨head, tail, rfl⟩ := hlast.exists_cons
  rw [List.append_assoc, List.singleton_append]
  exact ⟨_, .ternary hrule (hretail _) hcolon hlast⟩

end Completable

end Precedence
