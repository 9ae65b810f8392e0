import Precedence.Proofs.Completeness
import Precedence.Proofs.Context
import Precedence.Proofs.Scanning

/-!
Parentheses make an expression into an operand. An identifier of a source is a leaf
of the expression that is read; with a text in parentheses in its place the source
is read as the same expression with the expression of the text in place of the leaf.
-/

namespace Precedence

open Lexeme

namespace Lexeme

@[simp] theorem operands_replicate_mark (count : Nat) (symbol : String) :
    operands (List.replicate count (mark symbol)) = [] := by
  simp [operands, mark, TokenKind.isOperand]

/-- A separated list has a comma behind each text before a given one, and a comma
before each behind it. -/
theorem separated_split (texts texts' : List (List Lexeme)) (text : List Lexeme) :
    separated (texts ++ text :: texts') =
      texts.flatMap (· ++ [mark ","]) ++ text ++ texts'.flatMap (mark "," :: ·) := by
  induction texts with
  | nil => rw [List.nil_append, separated_cons]; rfl
  | cons first others ih =>
      have hne : others ++ text :: texts' ≠ [] := by simp
      have hfirst := separated_append (List.cons_ne_nil first []) hne
      rw [List.cons_append, ← List.singleton_append, hfirst, ih]
      simp [separated]

@[simp] theorem operands_flatMap_append_comma (texts : List (List Lexeme)) :
    operands (texts.flatMap (· ++ [mark ","])) = texts.flatMap operands := by
  induction texts with
  | nil => rfl
  | cons text texts ih => simp [ih]

/-- Parentheses stand to the left and to the right of what they enclose. -/
theorem enclose_eq (pairs : Nat) (text : List Lexeme) :
    enclose pairs text =
      List.replicate pairs (mark "(") ++ text ++ List.replicate pairs (mark ")") := by
  induction pairs with
  | zero => simp [enclose]
  | succ pairs ih =>
      rw [enclose, ih, List.replicate_succ, List.replicate_succ' (a := mark ")")]
      simp

/-- In a list, an operand is found by the number of operands to its left. -/
theorem split_unique {left right left' right' : List Lexeme} {lexeme : Lexeme}
    (hoperand : lexeme.kind.isOperand)
    (h : left ++ lexeme :: right = left' ++ lexeme :: right')
    (hcount : operands left = operands left') : left = left' ∧ right = right' := by
  rcases List.append_eq_append_iff.mp h with ⟨others, rfl, hothers⟩ | ⟨others, rfl, hothers⟩
  · cases others with
    | nil =>
        obtain ⟨_, rfl⟩ := List.cons.inj hothers
        simp
    | cons other others =>
        obtain ⟨rfl, _⟩ := List.cons.inj hothers
        simp [operands, hoperand] at hcount
  · cases others with
    | nil =>
        obtain ⟨_, rfl⟩ := List.cons.inj hothers
        simp
    | cons other others =>
        obtain ⟨rfl, _⟩ := List.cons.inj hothers
        simp [operands, hoperand] at hcount

end Lexeme

namespace Construct.Layout

variable {construct : Construct} {texts texts' : List (List Lexeme)} {text body : List Lexeme}

/-- A construct is written around its first operand alike, whatever that is. -/
theorem replace_first (h : construct.Layout (text :: texts') body) :
    ∃ left right, body = left ++ text ++ right ∧ operands left = [] ∧
      ∀ other, construct.Layout (other :: texts') (left ++ other ++ right) := by
  cases h with
  | @prefixed op _ =>
      refine ⟨[mark op], [], by simp, by simp, fun other => ?_⟩
      simpa using @prefixed op other
  | @suffixed op _ => exact ⟨[], [mark op], rfl, rfl, fun other => suffixed⟩
  | @binary op _ right => exact ⟨[], mark op :: right, rfl, rfl, fun other => binary⟩
  | ternary => exact ⟨[], _, rfl, rfl, fun other => ternary⟩
  | index => exact ⟨[], _, rfl, rfl, fun other => index⟩
  | call => exact ⟨[], _, rfl, rfl, fun other => call⟩
  | callTrailing hvalues => exact ⟨[], _, rfl, rfl, fun other => callTrailing hvalues⟩
  | sequence =>
      refine ⟨[], _, separated_cons _ _, rfl, fun other => ?_⟩
      rw [List.nil_append, ← separated_cons]
      exact sequence

/-- A construct is written around each of its other operands alike, too. -/
theorem replace_other {first : List Lexeme}
    (h : construct.Layout (first :: (texts ++ text :: texts')) body) :
    ∃ left right, body = left ++ text ++ right ∧
      operands left = operands first ++ texts.flatMap operands ∧
      ∀ other, construct.Layout (first :: (texts ++ other :: texts')) (left ++ other ++ right) := by
  generalize hothers : texts ++ text :: texts' = others at h
  cases h with
  | prefixed => simp at hothers
  | suffixed => simp at hothers
  | @binary op =>
      obtain ⟨rfl, rfl, rfl⟩ : texts = [] ∧ text = _ ∧ texts' = [] := by
        simpa [List.append_eq_cons_iff] using hothers
      refine ⟨first ++ [mark op], [], by simp, by simp, fun other => ?_⟩
      simpa using @binary op first other
  | @ternary _ positive negative =>
      rcases List.append_eq_cons_iff.mp hothers with ⟨rfl, hcons⟩ | ⟨between, rfl, hcons⟩
      · cases hcons
        refine ⟨first ++ [mark "?"], mark ":" :: negative, by simp, by simp, fun other => ?_⟩
        simpa using @ternary first other negative
      · obtain ⟨rfl, rfl, rfl⟩ : between = [] ∧ text = _ ∧ texts' = [] := by
          simpa [List.append_eq_cons_iff, eq_comm] using hcons
        refine ⟨first ++ mark "?" :: (positive ++ [mark ":"]), [], by simp, by simp,
          fun other => ?_⟩
        simpa using @ternary first positive other
  | sequence =>
      rw [← hothers, ← List.cons_append, separated_split]
      refine ⟨_, _, rfl, by simp, fun other => ?_⟩
      rw [← separated_split, List.cons_append]
      obtain ⟨second, behind, hsecond⟩ := List.exists_cons_of_ne_nil
        (List.append_ne_nil_of_right_ne_nil texts (List.cons_ne_nil other texts'))
      rw [hsecond]
      exact sequence
  | index =>
      obtain ⟨rfl, rfl, rfl⟩ : texts = [] ∧ text = _ ∧ texts' = [] := by
        simpa [List.append_eq_cons_iff] using hothers
      refine ⟨first ++ [mark "["], [mark "]"], by simp, by simp, fun other => ?_⟩
      simpa using @index first other
  | call =>
      rw [← hothers, separated_split]
      refine ⟨first ++ mark "(" :: texts.flatMap (· ++ [mark ","]),
        texts'.flatMap (mark "," :: ·) ++ [mark ")"], by simp, by simp, fun other => ?_⟩
      have hcall := @call first (texts ++ other :: texts')
      rw [separated_split] at hcall
      simpa using hcall
  | callTrailing =>
      rw [← hothers, separated_split]
      refine ⟨first ++ mark "(" :: texts.flatMap (· ++ [mark ","]),
        texts'.flatMap (mark "," :: ·) ++ [mark ",", mark ")"], by simp, by simp,
        fun other => ?_⟩
      have hcall := @callTrailing first (texts ++ other :: texts') (by simp)
      rw [separated_split] at hcall
      simpa using hcall

end Construct.Layout

theorem exists_split_of_forall₂ {α β : Type} {relation : α → β → Prop} {as as' : List α} {a : α}
    {bs : List β} (h : List.Forall₂ relation (as ++ a :: as') bs) :
    ∃ front b back, bs = front ++ b :: back ∧ List.Forall₂ relation as front ∧ relation a b ∧
      List.Forall₂ relation as' back := by
  induction as generalizing bs with
  | nil =>
      cases h with
      | cons hfirst hrest => exact ⟨[], _, _, rfl, .nil, hfirst, hrest⟩
  | cons first as ih =>
      cases h with
      | @cons _ b _ _ hfirst hrest =>
          obtain ⟨front, b', back, rfl, hfront, hmiddle, hback⟩ := ih hrest
          exact ⟨b :: front, b', back, rfl, .cons hfirst hfront, hmiddle, hback⟩

namespace SpellingWithin

/-- More parentheses around an operand in parentheses, or around a leaf, only nest it
deeper. -/
theorem inPairs {depth : Nat} {expr : Expr} {text : List Lexeme}
    (h : SpellingWithin depth expr text) (hgroup : expr.group = expr) (pairs : Nat) :
    SpellingWithin (depth + pairs) expr (enclose pairs text) := by
  induction pairs with
  | zero => exact h
  | succ pairs ih =>
      have hpair := ih.group
      rwa [hgroup] at hpair

theorem monoAll {depth depth' : Nat} {exprs : List Expr} {texts : List (List Lexeme)}
    (h : List.Forall₂ (SpellingWithin depth) exprs texts) (hle : depth ≤ depth') :
    List.Forall₂ (SpellingWithin depth') exprs texts :=
  h.imp fun _ _ hspelling => hspelling.mono hle

/-- The operands of several spellings are the leaves of the expressions. -/
theorem operandsOfAll {table : OperatorTable} {depth : Nat} {exprs : List Expr}
    {texts : List (List Lexeme)} (hwell : ∀ expr ∈ exprs, expr.WellFormed table)
    (h : List.Forall₂ (SpellingWithin depth) exprs texts) :
    texts.flatMap operands = (Expr.leavesOfAll exprs).map Token.lexeme :=
  operands_flatMap (h.imp fun _ _ hspelling => hspelling.spelling) fun expr hexpr _ htext =>
    htext.operands_eq (hwell expr hexpr)

variable {depth : Nat} {tag : String} {before after : List Expr} {child : Expr} {grouped : Bool}
  {span : Span} {text : List Lexeme}

/-- In a spelling an operand can be exchanged; what nests deeper in it nests deeper
in the whole. -/
theorem exchange {table : OperatorTable} (hbefore : ∀ expr ∈ before, expr.WellFormed table)
    (h : SpellingWithin depth (.node tag (before ++ child :: after) grouped span) text) :
    ∃ inner operand left right, SpellingWithin inner child operand ∧
      text = left ++ operand ++ right ∧
      operands left = (Expr.leavesOfAll before).map Token.lexeme ∧
      ∀ {extra : Nat} {other : Expr} {operand' : List Lexeme},
        SpellingWithin (inner + extra) other operand' →
        SpellingWithin (depth + extra) (.node tag (before ++ other :: after) grouped span)
          (left ++ operand' ++ right) := by
  have hpairs : ∀ (pairs : Nat) (left text right : List Lexeme),
      enclose pairs (left ++ text ++ right) = List.replicate pairs (mark "(") ++ left ++ text ++
        (right ++ List.replicate pairs (mark ")")) := by
    simp [enclose_eq]
  generalize hchildren : before ++ child :: after = children at h
  -- The operand is that of a prefix operator, or the first one of another construct, which
  -- may nest one deeper than the others, or one of these others.
  cases h with
  | @leading _ inner pairs _ _ _ _ operand body hconstruct hchild hbody hgrouped hdepth =>
      obtain ⟨rfl, rfl, rfl⟩ : before = [] ∧ child = _ ∧ after = [] := by
        simpa [List.append_eq_cons_iff] using hchildren
      obtain ⟨left, right, rfl, hleft, hlayout⟩ := hbody.replace_first
      refine ⟨inner, operand, _, _, hchild, hpairs _ _ _ _, by simp [hleft, Expr.leavesOfAll], ?_⟩
      intro extra other operand' hother
      rw [← hpairs]
      exact .leading hconstruct hother (hlayout operand') hgrouped (by omega)
  | @following _ inner pairs _ first rest _ _ operand body texts hconstruct hfirst hlength hrest
      hbody hgrouped hdepth =>
      cases before with
      | nil =>
          obtain ⟨rfl, rfl⟩ := List.cons.inj hchildren
          obtain ⟨left, right, rfl, hleft, hlayout⟩ := hbody.replace_first
          refine ⟨inner + 1, operand, _, _, hfirst, hpairs _ _ _ _,
            by simp [hleft, Expr.leavesOfAll], ?_⟩
          intro extra other operand' hother
          rw [← hpairs]
          exact @following _ (inner + extra) pairs tag other after grouped span operand' _ texts
            hconstruct (hother.mono (by omega)) hlength (fun hmem => (hrest hmem).mono (by omega))
            (hlayout operand') hgrouped (by omega)
      | cons head before =>
          obtain ⟨rfl, rfl⟩ := List.cons.inj hchildren
          obtain ⟨front, nested, back, rfl, hfront, hchild, hback⟩ :=
            exists_split_of_forall₂ (List.forall₂_iff_zip.mpr ⟨hlength, hrest⟩)
          obtain ⟨left, right, rfl, hleft, hlayout⟩ := hbody.replace_other
          refine ⟨inner, nested, _, _, hchild, hpairs _ _ _ _, ?_, ?_⟩
          · have hall := operandsOfAll hbefore (.cons hfirst (monoAll hfront (Nat.le_succ inner)))
            simpa [hleft] using hall
          · intro extra other operand' hother
            have hothers : List.Forall₂ (SpellingWithin (inner + extra)) (before ++ other :: after)
                (front ++ operand' :: back) :=
              List.rel_append (monoAll hfront (by omega)) (.cons hother (monoAll hback (by omega)))
            obtain ⟨hlength', hzip⟩ := List.forall₂_iff_zip.mp hothers
            rw [← hpairs]
            refine @following _ (inner + extra) pairs tag head (before ++ other :: after) grouped
              span operand _ (front ++ operand' :: back) ?_ (hfirst.mono (by omega)) hlength' hzip
              ?_ hgrouped (by omega)
            · simpa using hconstruct
            · simpa using hlayout operand'

/-- What is put in place of a leaf can be spelled in place of the lexeme of the leaf,
if it is an operand that parentheses do not change. -/
theorem plug {table : OperatorTable} {context : Expr.Context} {token : Token}
    (hwell : (context.plug (.leaf token)).WellFormed table)
    (h : SpellingWithin depth (context.plug (.leaf token)) text) :
    ∃ left right, text = left ++ token.lexeme :: right ∧
      operands left = context.leavesBefore.map Token.lexeme ∧
      ∀ {extra : Nat} {expr : Expr} {inserted : List Lexeme}, expr.group = expr →
        SpellingWithin (extra + 1) expr inserted →
        SpellingWithin (depth + extra) (context.plug expr) (left ++ inserted ++ right) := by
  induction context generalizing depth text with
  | hole =>
      generalize hleaf : Expr.Context.hole.plug (.leaf token) = leaf at h
      cases h with
      | @leaf _ pairs _ hdepth =>
          cases hleaf
          refine ⟨_, _, by simpa using enclose_eq pairs [token.lexeme],
            by simp [Expr.Context.leavesBefore], ?_⟩
          intro extra expr inserted hgroup hinserted
          rw [← enclose_eq]
          exact (hinserted.inPairs hgroup pairs).mono (by omega)
      | leading => cases hleaf
      | following => cases hleaf
  | node tag before inner after grouped span ih =>
      obtain ⟨_, _, hchildren⟩ := hwell.of_node
      obtain ⟨nested, operand, left, right, hoperand, rfl, hleft, hexchange⟩ :=
        exchange (fun expr hexpr => hchildren expr (by simp [hexpr])) h
      obtain ⟨left', right', rfl, hleft', hplug⟩ := ih (hchildren _ (by simp)) hoperand
      refine ⟨left ++ left', right' ++ right, by simp, ?_, ?_⟩
      · rw [operands_append, hleft, hleft', Expr.Context.leavesBefore, List.map_append]
      · intro extra expr inserted hgroup hinserted
        have hwhole := hexchange (hplug hgroup hinserted)
        simpa [Expr.Context.plug] using hwhole

/-- A text in parentheses can stand in place of the lexeme of a leaf; the depths add
up. -/
theorem inContext {table : OperatorTable} {depth' : Nat} {context : Expr.Context} {token : Token}
    {inner : Expr} {left right inserted : List Lexeme} (hoperand : token.kind.isOperand)
    (h : SpellingWithin depth (context.plug (.leaf token)) (left ++ token.lexeme :: right))
    (hwell : (context.plug (.leaf token)).WellFormed table)
    (hleft : operands left = context.leavesBefore.map Token.lexeme)
    (hinner : SpellingWithin depth' inner inserted) :
    SpellingWithin (depth + depth') (context.plug inner.group)
      (left ++ mark "(" :: (inserted ++ mark ")" :: right)) := by
  obtain ⟨left', right', htext, hleft', hplug⟩ := h.plug hwell
  obtain ⟨rfl, rfl⟩ := split_unique hoperand htext (hleft.trans hleft'.symm)
  have hwhole := hplug (Expr.group_group inner) hinner.group
  simpa using hwhole

end SpellingWithin

/-- With a text in parentheses between two parts of a source, the tokens of the text
stand in parentheses between the tokens of these parts. -/
theorem tokenize_inserted {before behind after inserted : String} {front back tokens : List Token}
    {position position' stop : Nat}
    (hfront : Scans 0 (before ++ behind).toList front position behind.toList)
    (hback : Scans position' after.toList back stop [])
    (htokens : tokenize inserted = .ok tokens) :
    ∃ joined, tokenize (before ++ "(" ++ inserted ++ ")" ++ after) = .ok joined ∧
      lexemes joined = front.map Token.lexeme ++
        mark "(" :: (lexemes tokens ++ mark ")" :: back.map Token.lexeme) := by
  have htext : (before ++ "(" ++ inserted ++ ")" ++ after).toList =
      before.toList ++ ("(".toList ++ (inserted.toList ++ (")".toList ++ after.toList))) := by
    simp
  apply Lexes.tokenize
  rw [htext]
  rw [String.toList_append] at hfront
  have hopen : ∀ text, Clear ("(".toList ++ text) := fun _ => .cons rfl
  have hclose : ∀ text, Clear (")".toList ++ text) := fun _ => .cons rfl
  have hlast : Lexes after.toList (back.map Token.lexeme) [] := by
    apply Scans.lexes
    simpa using hback
  apply Lexes.append ((hfront.before_clear (by simpa using hopen _)).lexes)
  exact .append (.bracket (by simp)) (.append (.of_tokenize htokens (by simpa using hclose _))
    (.append (.bracket (by simp)) hlast))

/-- An operand can be written as any expression in parentheses. A source is read with
an identifier `name` behind `before`, where the scan of the source has come to read
`front`. The identifier is the leaf in a context that has the operands of `front` to
its left; unless it is changed there and the inserted expression cannot be, the
source with the inserted text in parentheses in its place is read as the inserted
expression, marked as written in parentheses, in this context. The limits of both
readings together are enough. -/
theorem Parser.parse_in_context {limit limit' : Nat} {before name after inserted : String}
    {expr inner : Expr} {front : List Token}
    (h : (Parser.ofC limit).parse (before ++ name ++ after) = .ok expr)
    (h' : (Parser.ofC limit').parse inserted = .ok inner)
    (hfront : Scans 0 (before ++ name ++ after).toList front (Text.byteLength before.toList)
      (name ++ after).toList)
    (hname : lexeme? (name ++ after).toList = some (.identifier, name.toList)) :
    ∃ context : Expr.Context,
      context.plug (.leaf ⟨.identifier, name,
        .ofLength (Text.byteLength before.toList) (Text.byteLength name.toList)⟩) = expr ∧
      context.leavesBefore = Token.operands front ∧
      ((context.IsTarget cTable → inner.isAssignable) → ∀ limit'', limit + limit' ≤ limit'' →
        ∃ read, (Parser.ofC limit'').parse (before ++ "(" ++ inserted ++ ")" ++ after) = .ok read ∧
          read.eraseSpans = (context.plug inner.group).eraseSpans) := by
  obtain ⟨hwell, tokens, htokens, hspelling⟩ := spelling_of_parse h
  obtain ⟨hwell', tokens', htokens', hspelling'⟩ := spelling_of_parse h'
  rw [String.toList_append] at hname
  have hword := @Scans.word (Text.byteLength before.toList) _ _ _ hname
  rw [← String.toList_append] at hword
  generalize hx : (⟨.identifier, name, _⟩ : Token) = x at hword ⊢
  have hoperand : x.kind.isOperand := by
    rw [← hx]
    rfl
  rw [String.append_assoc] at htokens hfront
  obtain ⟨back, stop, hback, rfl⟩ := (hfront.trans hword).rest_of_tokenize htokens
  -- The leaf of the name has the operands before the name to its left, so it is the only one
  -- that its lexeme can stand for.
  rw [lexemes_tokenize htokens] at hspelling
  rw [← String.append_assoc] at htokens
  have hleaves : expr.leaves =
      Token.operands front ++ x :: Token.operands (back ++ [.endAt stop]) := by
    rw [leaves_of_parse h htokens]
    simp [Token.operands, hoperand]
  obtain ⟨context, rfl, hbefore⟩ := Expr.exists_context hleaves
  refine ⟨context, rfl, hbefore, ?_⟩
  intro htarget limit'' hlimit
  have hleft : operands (front.map Token.lexeme) = context.leavesBefore.map Token.lexeme := by
    rw [operands_map, hbefore]
  simp only [List.append_assoc, List.singleton_append, List.map_append, List.map_cons] at hspelling
  have hwhole := hspelling.inContext hoperand hwell hleft hspelling'
  obtain ⟨joined, hjoined, hwords⟩ := tokenize_inserted hfront hback htokens'
  apply parse_of_spelling (hwell.plug hwell'.group) ?_ hjoined (hwords ▸ hwhole.mono hlimit)
  exact (agrees_of_parse h).plug (agrees_of_parse h').group (.group x inner)
    (by simpa using htarget)

theorem Parser.parse_in_context_target :
    ∃ expr inner, (Parser.ofC 4).parse ("a, " ++ "x" ++ " += y * z") = .ok expr ∧
      (Parser.ofC 4).parse "v[p, q = r]" = .ok inner ∧
      expr.sexp = "(, a (+= x (* y z)))" ∧ inner.sexp = "(get v (, p (= q r)))" ∧
      ∃ context : Expr.Context,
        context.plug (.leaf ⟨.identifier, "x", .ofLength 3 1⟩) = expr ∧
        context.leavesBefore = [⟨.identifier, "a", .ofLength 0 1⟩] ∧
        ∃ read, (Parser.ofC 8).parse ("a, " ++ "(" ++ "v[p, q = r]" ++ ")" ++ " += y * z") =
            .ok read ∧
          read.eraseSpans = (context.plug inner.group).eraseSpans := by
  obtain ⟨expr, hparse, hsexp⟩ := @exists_of_sexp (.ofC 4) ("a, " ++ "x" ++ " += y * z")
    "(, a (+= x (* y z)))" (by decide +kernel)
  obtain ⟨inner, hparse', hsexp'⟩ := @exists_of_sexp (.ofC 4) "v[p, q = r]"
    "(get v (, p (= q r)))" (by decide +kernel)
  have hassignable : inner.isAssignable := by
    have hvalue : ((Parser.ofC 4).parse "v[p, q = r]").toOption.map Expr.isAssignable =
        some true := by
      decide +kernel
    rw [hparse'] at hvalue
    exact Option.some.inj hvalue
  have htext : ("a, " ++ "x" ++ " += y * z").toList =
      ['a'] ++ ([','] ++ ' ' :: ("x" ++ " += y * z").toList) := by
    simp
  have hfront : Scans 0 ("a, " ++ "x" ++ " += y * z").toList
      [⟨.identifier, "a", .ofLength 0 1⟩, ⟨.operator, ",", .ofLength 1 1⟩] 3
      ("x" ++ " += y * z").toList := by
    rw [htext]
    exact .token (by decide +kernel) (.token (by decide +kernel) (.separator rfl .here))
  obtain ⟨context, hplug, hbefore, hread⟩ := parse_in_context hparse hparse' hfront
    (by decide +kernel)
  exact ⟨expr, inner, hparse, hparse', hsexp, hsexp', context, hplug, hbefore,
    hread (fun _ => hassignable) 8 (Nat.le_refl 8)⟩

end Precedence
