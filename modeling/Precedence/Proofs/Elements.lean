import Precedence.Proofs.Completeness
import Precedence.Proofs.Scanning

/-!
A sequence and an argument list are split at the same commas. The elements of an
expression are what it holds between commas at its top; behind an identifier and
in parentheses, the text of the expression is a call with these arguments. A comma
between the texts of two expressions makes one sequence of the elements of both.
-/

namespace Precedence

open Lexeme

/-- The elements of an open sequence; anything else is an element by itself. -/
def Expr.elements (expr : Expr) : List Expr :=
  if expr.isOpenSequence then expr.children else [expr]

theorem Expr.exists_of_isOpenSequence {expr : Expr} (h : expr.isOpenSequence) :
    ∃ elements span, expr = .node "," elements false span := by
  unfold isOpenSequence at h
  split at h
  · exact ⟨_, _, rfl⟩
  · cases h

/-- A text spells the elements of an expression with commas between them. -/
theorem SpellingWithin.elements {depth : Nat} {expr : Expr} {text : List Lexeme}
    (h : SpellingWithin depth expr text) :
    ∃ texts, List.Forall₂ (SpellingWithin depth) expr.elements texts ∧ separated texts = text := by
  by_cases hopen : expr.isOpenSequence
  · obtain ⟨elements, span, rfl⟩ := Expr.exists_of_isOpenSequence hopen
    generalize hexpr : Expr.node "," elements false span = expr at h
    cases h with
    | leaf => cases hexpr
    | leading hconstruct =>
        cases hexpr
        exact absurd rfl hconstruct
    | @following _ inner pairs _ first rest _ _ operand body operands _ hfirst hlength hrest hbody
        hgrouped hdepth =>
        cases hexpr
        obtain rfl : pairs = 0 := by simpa using hgrouped
        have hothers : List.Forall₂ (SpellingWithin depth) rest operands :=
          List.forall₂_iff_zip.mpr ⟨hlength, fun hmem => (hrest hmem).mono (by omega)⟩
        refine ⟨operand :: operands, .cons (hfirst.mono (by omega)) hothers, ?_⟩
        cases hbody with
        | sequence => rfl
  · refine ⟨[text], ?_, by simp [separated]⟩
    simpa [Expr.elements, hopen] using h

namespace CTable

/-- Behind an operand the comma is the loosest operator. -/
theorem comma_lt_leftPower (token : Token) :
    (cTable.left token).rule.endsInOperand ∨ (cTable.left token).rule.endsInSymbol →
      (cTable.left token).rule ≠ .comma → Level.comma.power < (cTable.left token).leftPower := by
  refine OperatorTable.forall_left (fun _ binding =>
    binding.rule.endsInOperand ∨ binding.rule.endsInSymbol →
      binding.rule ≠ .comma → Level.comma.power < binding.leftPower) ?_ ?_ token
  · decide
  · intro _ hends
    simp [Binding.inert, LeftRule.endsInOperand, LeftRule.endsInSymbol] at hends

theorem comma_lt_registered {construct : Construct} (h : construct.Registered cTable)
    (hconstruct : construct.followsOperand) (hne : construct ≠ .sequence) :
    Level.comma.power < construct.leftPower cTable := by
  have hrule : (cTable.leftOfSymbol construct.symbol).rule ≠ .comma := by
    cases construct with
    | prefixed symbol => cases hconstruct
    | suffixed symbol =>
        have hrule : (cTable.leftOfSymbol symbol).rule = .suffixed := h
        simp [Construct.symbol, hrule]
    | binary symbol =>
        have hrule : (cTable.leftOfSymbol symbol).rule = .binary ∨
            (cTable.leftOfSymbol symbol).rule = .assignment := h
        rcases hrule with hrule | hrule <;> simp [Construct.symbol, hrule]
    | sequence => exact absurd rfl hne
    | _ => decide
  obtain ⟨hoperand, hsymbol⟩ := rule_of_registered h hconstruct
  refine comma_lt_leftPower ⟨.operator, construct.symbol, .origin⟩ ?_ hrule
  cases hends : construct.endsInOperand with
  | true => exact .inl (hoperand.trans hends)
  | false => exact .inr (hsymbol.trans (by rw [hends]; rfl))

end CTable

namespace Expr

theorem sequence_mem_rightSpine {expr : Expr} (h : expr.isOpenSequence) :
    .sequence ∈ expr.rightSpine := by
  obtain ⟨elements, span, rfl⟩ := exists_of_isOpenSequence h
  simp [rightSpine, Construct.endsInOperand]

/-- No open sequence begins an expression that is none itself: the operator behind
it would have gone to its last element. -/
theorem comma_lt_leftSpine {expr : Expr} (hwell : expr.WellFormed cTable)
    (hagrees : expr.Agrees cTable) (hopen : ¬expr.isOpenSequence) :
    ∀ inner ∈ expr.leftSpine, Level.comma.power < inner.leftPower cTable := by
  induction expr with
  | leaf token => simp [leftSpine]
  | node tag children grouped span ih =>
      obtain ⟨hregistered, _, hchildrenWell⟩ := hwell.of_node
      obtain ⟨hholds, hchildrenAgree⟩ := hagrees.of_node
      intro inner hinner
      cases grouped with
      | true => simp [leftSpine] at hinner
      | false =>
          obtain ⟨first, rest, rfl, hfollows, hinner⟩ := mem_leftSpine hinner
          have hne : Construct.of tag (first :: rest).length ≠ .sequence := by
            intro hsequence
            obtain rfl : "," = tag := Construct.tag_eq hsequence
            exact hopen rfl
          have hlt := CTable.comma_lt_registered hregistered hfollows hne
          rcases hinner with rfl | hfirst
          · exact hlt
          · refine ih first (by simp) (hchildrenWell first (by simp))
              (hchildrenAgree first (by simp)) ?_ inner hfirst
            intro hsequence
            have hle := hholds.leading hfollows first rfl _ (sequence_mem_rightSpine hsequence)
            rw [CTable.rightPower_sequence] at hle
            omega

/-- The elements of an expression that agrees with the table can stand as
arguments. -/
theorem elements_agree {expr : Expr} (hwell : expr.WellFormed cTable)
    (hagrees : expr.Agrees cTable) :
    ∀ element ∈ expr.elements, element.WellFormed cTable ∧ element.Agrees cTable ∧
      ∀ inner ∈ element.leftSpine, Level.comma.power < inner.leftPower cTable := by
  intro element helement
  unfold elements at helement
  split at helement
  · rename_i hopen
    obtain ⟨elements, span, rfl⟩ := exists_of_isOpenSequence hopen
    obtain ⟨_, _, hchildrenWell⟩ := hwell.of_node
    obtain ⟨hholds, hchildrenAgree⟩ := hagrees.of_node
    have helementWell := hchildrenWell element helement
    have helementAgrees := hchildrenAgree element helement
    refine ⟨helementWell, helementAgrees, ?_⟩
    rw [Construct.of_comma] at hholds
    -- The first element is no open sequence, the others are bound by the comma before them.
    cases elements with
    | nil => cases helement
    | cons first rest =>
        rcases List.mem_cons.mp helement with rfl | hrest
        · exact comma_lt_leftSpine helementWell helementAgrees (hholds.flat rfl _ rfl)
        · have htrailing := hholds.trailing element hrest
          rwa [CTable.rightPower_sequence] at htrailing
  · rename_i hopen
    obtain rfl := List.mem_singleton.mp helement
    exact ⟨hwell, hagrees, comma_lt_leftSpine hwell hagrees hopen⟩

end Expr

def Expr.callOf (callee : String) (values : List Expr) : Expr :=
  .node "call" (.leaf ⟨.identifier, callee, .origin⟩ :: values) false .origin

theorem Expr.callOf_agrees {expr : Expr} (hwell : expr.WellFormed cTable)
    (hagrees : expr.Agrees cTable) (callee : String) :
    (Expr.callOf callee expr.elements).WellFormed cTable ∧
      (Expr.callOf callee expr.elements).Agrees cTable := by
  have helements := Expr.elements_agree hwell hagrees
  constructor
  · refine .node trivial (by simp [Construct.Arity]) ?_
    intro child hchild
    rcases List.mem_cons.mp hchild with rfl | hchild
    · exact .leaf (.inl rfl)
    · exact (helements child hchild).1
  · refine .node ?_ ?_
    · rw [Construct.of_call]
      refine ⟨by simp [Construct.trailing], ?_, by simp [Expr.rightSpine], by simp,
        by simp [Construct.Updates]⟩
      intro _ argument hargument
      rw [CTable.leftPower_comma]
      exact (helements argument hargument).2.2
    · intro child hchild
      rcases List.mem_cons.mp hchild with rfl | hchild
      · exact .leaf
      · exact (helements child hchild).2.1

/-- The text of an expression in parentheses behind an identifier spells a call
with its elements. -/
theorem SpellingWithin.callOf {depth : Nat} {expr : Expr} {text : List Lexeme} (callee : String)
    (h : SpellingWithin depth expr text) :
    SpellingWithin (depth + 1) (.callOf callee expr.elements)
      (⟨.identifier, callee⟩ :: mark "(" :: (text ++ [mark ")"])) := by
  obtain ⟨texts, helements, rfl⟩ := h.elements
  exact .extend (Construct.of_call _) rfl (@SpellingWithin.leaf _ 0 _ (by omega)) helements .call

/-- Commas separate arguments as they separate the elements of a sequence: the
text of an expression in parentheses behind an identifier is read as a call with
the elements of the expression as its arguments, at any limit that allows one more
level. -/
theorem Parser.parse_as_arguments {limit limit' : Nat} {source callee : String} {expr : Expr}
    (h : (Parser.ofC limit).parse source = .ok expr)
    (hcallee : (⟨.identifier, callee⟩ : Lexeme).IsWord) (hlimit : limit + 1 ≤ limit') :
    ∃ read, (Parser.ofC limit').parse (callee ++ "(" ++ source ++ ")") = .ok read ∧
      read.eraseSpans = .node "call"
        (.leaf ⟨.identifier, callee, .origin⟩ :: expr.elements.map Expr.eraseSpans) false
        .origin := by
  obtain ⟨hwell, tokens, htokens, hspelling⟩ := spelling_of_parse h
  obtain ⟨hcallWell, hcallAgrees⟩ := Expr.callOf_agrees hwell (agrees_of_parse h) callee
  have htext : (callee ++ "(" ++ source ++ ")").toList =
      callee.toList ++ ("(".toList ++ (source.toList ++ ")".toList)) := by
    simp
  have hlexes : Lexes (callee ++ "(" ++ source ++ ")").toList
      (⟨.identifier, callee⟩ :: mark "(" :: (lexemes tokens ++ [mark ")"])) [] := by
    rw [htext]
    exact .append (.word hcallee (.cons rfl)) (.append (.bracket (by simp))
      (.append (.of_tokenize htokens (.cons rfl)) (.bracket (by simp))))
  obtain ⟨tokens', htokens', hwords⟩ := hlexes.tokenize
  obtain ⟨read, hread, herase⟩ := parse_of_spelling hcallWell hcallAgrees htokens'
    (hwords ▸ (hspelling.callOf callee).mono hlimit)
  refine ⟨read, hread, ?_⟩
  rw [herase]
  simp [Expr.callOf, Expr.eraseSpans]

theorem Parser.parse_as_arguments_mixed :
    ∃ expr, (Parser.ofC 5).parse "x = p ? a, b : c, (y, z), g()" = .ok expr ∧
      expr.sexp = "(, (= x (? p (, a b) c)) (, y z) (call g))" ∧
      ∃ read, (Parser.ofC 6).parse ("f" ++ "(" ++ "x = p ? a, b : c, (y, z), g()" ++ ")") =
          .ok read ∧
        read.eraseSpans = .node "call"
          (.leaf ⟨.identifier, "f", .origin⟩ :: expr.elements.map Expr.eraseSpans) false
          .origin := by
  obtain ⟨expr, hparse, hsexp⟩ := @exists_of_sexp (.ofC 5) "x = p ? a, b : c, (y, z), g()"
    "(, (= x (? p (, a b) c)) (, y z) (call g))" (by decide +kernel)
  exact ⟨expr, hparse, hsexp, parse_as_arguments hparse (by decide) (Nat.le_refl 6)⟩

def Expr.concat (expr other : Expr) : Expr :=
  .node "," (expr.elements ++ other.elements) false .origin

theorem Expr.elements_ne_nil {expr : Expr} (hwell : expr.WellFormed cTable) :
    expr.elements ≠ [] := by
  unfold elements
  split
  · rename_i hopen
    obtain ⟨elements, span, rfl⟩ := exists_of_isOpenSequence hopen
    obtain ⟨_, harity, _⟩ := hwell.of_node
    intro hnil
    rw [show elements = [] from hnil, Construct.of_comma] at harity
    simp [Construct.Arity] at harity
  · simp

/-- No expression has an open sequence as its first element. -/
theorem Expr.head_elements {expr : Expr} (hagrees : expr.Agrees cTable) :
    ∀ first ∈ expr.elements.head?, ¬first.isOpenSequence := by
  unfold elements
  split
  · rename_i hopen
    obtain ⟨elements, span, rfl⟩ := exists_of_isOpenSequence hopen
    have hholds := hagrees.of_node.1
    rw [Construct.of_comma] at hholds
    exact hholds.flat rfl
  · rename_i hopen
    intro first hfirst
    cases hfirst
    exact hopen

theorem Expr.concat_agrees {expr other : Expr} (hwell : expr.WellFormed cTable)
    (hagrees : expr.Agrees cTable) (hwell' : other.WellFormed cTable)
    (hagrees' : other.Agrees cTable) :
    (expr.concat other).WellFormed cTable ∧ (expr.concat other).Agrees cTable := by
  have hall : ∀ element ∈ expr.elements ++ other.elements, element.WellFormed cTable ∧
      element.Agrees cTable ∧
        ∀ inner ∈ element.leftSpine, Level.comma.power < inner.leftPower cTable := by
    intro element helement
    rcases List.mem_append.mp helement with helement | helement
    · exact elements_agree hwell hagrees element helement
    · exact elements_agree hwell' hagrees' element helement
  have hne := elements_ne_nil hwell
  constructor
  · refine .node trivial ?_ fun element helement => (hall element helement).1
    have hlength := List.length_pos_of_ne_nil hne
    have hlength' := List.length_pos_of_ne_nil (elements_ne_nil hwell')
    rw [Construct.of_comma, Construct.Arity, List.length_append]
    omega
  · refine .node ?_ fun element helement => (hall element helement).2.1
    rw [Construct.of_comma]
    refine ⟨?_, by simp, ?_, ?_, by simp [Construct.Updates]⟩
    · intro operand hoperand
      rw [CTable.rightPower_sequence]
      exact (hall operand (List.mem_of_mem_tail hoperand)).2.2
    · intro _ first hfirst
      rw [CTable.leftPower_sequence]
      exact (hall first (List.mem_of_mem_head? hfirst)).1.rightSpine_bound
    · intro _ first hfirst
      rw [List.head?_append_of_ne_nil _ hne] at hfirst
      exact head_elements hagrees first hfirst

/-- The texts of two expressions with a comma between them spell the sequence of
the elements of both. -/
theorem SpellingWithin.concat {depth : Nat} {expr other : Expr} {text text' : List Lexeme}
    (hwell : expr.WellFormed cTable) (hwell' : other.WellFormed cTable)
    (h : SpellingWithin depth expr text) (h' : SpellingWithin depth other text') :
    SpellingWithin (depth + 1) (expr.concat other) (text ++ mark "," :: text') := by
  obtain ⟨texts, hall, rfl⟩ := h.elements
  obtain ⟨texts', hall', rfl⟩ := h'.elements
  obtain ⟨first, rest, hfirst⟩ := List.exists_cons_of_ne_nil (Expr.elements_ne_nil hwell)
  obtain ⟨second, others, hsecond⟩ := List.exists_cons_of_ne_nil (Expr.elements_ne_nil hwell')
  unfold Expr.concat
  rw [hfirst] at hall ⊢
  cases hall with
  | @cons _ operand _ texts hoperand hrest =>
      have hothers := List.rel_append hrest hall'
      have hbody : Construct.sequence.Layout (operand :: (texts ++ texts'))
          (separated (operand :: texts) ++ mark "," :: separated texts') := by
        rw [hsecond] at hall'
        cases hall' with
        | @cons _ text _ texts' _ _ =>
            rw [← separated_append (List.cons_ne_nil _ _) (List.cons_ne_nil _ _)]
            cases texts with
            | nil => exact .sequence
            | cons => exact .sequence
      exact .extend (Construct.of_comma _) rfl (hoperand.mono (by omega)) hothers hbody

/-- A comma puts two expressions together as the sequence of the elements of both:
their texts with a comma between them are read as that sequence, at any limit that
allows one level more than both need. -/
theorem Parser.parse_concat {limit limit' limit'' : Nat} {source source' : String}
    {expr other : Expr} (h : (Parser.ofC limit).parse source = .ok expr)
    (h' : (Parser.ofC limit').parse source' = .ok other)
    (hlimit : max limit limit' + 1 ≤ limit'') :
    ∃ read, (Parser.ofC limit'').parse (source ++ " , " ++ source') = .ok read ∧
      read.eraseSpans = .node "," ((expr.elements ++ other.elements).map Expr.eraseSpans) false
        .origin := by
  obtain ⟨hwell, tokens, htokens, hspelling⟩ := spelling_of_parse h
  obtain ⟨hwell', tokens', htokens', hspelling'⟩ := spelling_of_parse h'
  obtain ⟨hjoinedWell, hjoinedAgrees⟩ :=
    Expr.concat_agrees hwell (agrees_of_parse h) hwell' (agrees_of_parse h')
  have hcomma : (mark ",").IsWord := rfl
  have htext : (source ++ " , " ++ source').toList =
      source.toList ++ ((' ' :: (",".toList ++ [' '])) ++ source'.toList) := by
    simp
  have hlexes : Lexes (source ++ " , " ++ source').toList
      (lexemes tokens ++ ([mark ","] ++ lexemes tokens')) [] := by
    rw [htext]
    exact .append (.of_tokenize htokens (.cons rfl)) (.append (.between hcomma)
      (.of_tokenize htokens' (by simp [Clear])))
  obtain ⟨joined, hjoined, hwords⟩ := hlexes.tokenize
  have hdepth := (hspelling.mono (Nat.le_max_left limit limit')).concat hwell hwell'
    (hspelling'.mono (Nat.le_max_right limit limit'))
  obtain ⟨read, hread, herase⟩ := parse_of_spelling hjoinedWell hjoinedAgrees hjoined
    (hwords ▸ hdepth.mono hlimit)
  refine ⟨read, hread, ?_⟩
  rw [herase]
  simp [Expr.concat, Expr.eraseSpans]

theorem Parser.parse_concat_assignments :
    ∃ expr other, (Parser.ofC 4).parse "a = b, (c, d)" = .ok expr ∧
      (Parser.ofC 5).parse "-x ? p, q : y, f(u, v)" = .ok other ∧
      expr.sexp = "(, (= a b) (, c d))" ∧ other.sexp = "(, (? (- x) (, p q) y) (call f u v))" ∧
      ∃ read, (Parser.ofC 6).parse ("a = b, (c, d)" ++ " , " ++ "-x ? p, q : y, f(u, v)") =
          .ok read ∧
        read.eraseSpans =
          .node "," ((expr.elements ++ other.elements).map Expr.eraseSpans) false .origin := by
  obtain ⟨expr, hparse, hsexp⟩ := @exists_of_sexp (.ofC 4) "a = b, (c, d)"
    "(, (= a b) (, c d))" (by decide +kernel)
  obtain ⟨other, hparse', hsexp'⟩ := @exists_of_sexp (.ofC 5) "-x ? p, q : y, f(u, v)"
    "(, (? (- x) (, p q) y) (call f u v))" (by decide +kernel)
  exact ⟨expr, other, hparse, hparse', hsexp, hsexp', parse_concat hparse hparse' (Nat.le_refl 6)⟩

end Precedence
