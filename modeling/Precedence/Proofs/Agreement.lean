import Precedence.Proofs.Yield

/-!
Expressions read with the C grammar agree with its table. While an operand is
read, the operators that stand open at its beginning hold it tighter than the
bound, and those open at its end hold their own operands at least as tightly as
the next token would: that is what lets the loop stop there, at every level at
once.
-/

namespace Precedence

open Parse

def NextAtMost (power : Int) (rest : List Token) : Prop :=
  ∀ token ∈ rest.head?, (cTable.left token).leftPower ≤ power

/-- The expression agrees with the table and can stand between an operator that
demands more than `bound` and the tokens `rest`. -/
structure Fits (bound : Int) (expr : Expr) (rest : List Token) : Prop where
  agrees : expr.Agrees cTable
  left : ∀ construct ∈ expr.leftSpine, bound < construct.leftPower cTable
  right : ∀ construct ∈ expr.rightSpine, NextAtMost (construct.rightPower cTable) rest

def Parse.Reading.Fits (reading : Reading) : Prop :=
  ∀ {bound : Int} {tokens : List Token} {expr : Expr} {rest : List Token},
    reading bound tokens expr rest → Precedence.Fits bound expr rest ∧ NextAtMost bound rest

namespace CTable

/-- The next token stays below the power that an operator allows behind it, if it
stays below the power of the operand at its end. -/
theorem lt_nextPower_left {token : Token} {rest : List Token}
    (h : (cTable.left token).rule.endsInSymbol ∨
      (cTable.left token).rule.endsInOperand ∧ NextAtMost (cTable.left token).rightPower rest) :
    ∀ next ∈ rest.head?, (cTable.left next).leftPower < (cTable.left token).nextPower := by
  intro next hnext
  rcases h with hrule | ⟨hrule, hrest⟩
  · have hle := (left_regular next).leftPower_le
    have hlt := (left_regular token).nextPower hrule
    omega
  · have hle := hrest next hnext
    have hlt := ((left_regular token).rightPower_bounds hrule).2
    omega

theorem lt_nextPower_null {token : Token} {rest : List Token}
    (h : (cTable.null token).rule ≠ .unregistered) (h' : (cTable.null token).rule ≠ .error) :
    ∀ next ∈ rest.head?, (cTable.left next).leftPower < (cTable.null token).nextPower := by
  intro next _
  have hle := (left_regular next).leftPower_le
  have hlt := (null_regular token).nextPower h h'
  omega

end CTable

namespace Parse

section Rules

variable {reading : Reading} {bound : Int} {token : Token} {tokens rest : List Token}
  {expr : Expr}

theorem fits_prefixed {inner : Expr} {span : Span}
    (hrule : (cTable.null token).rule = .prefixed ∨ (cTable.null token).rule = .prefixUpdate)
    (htarget : (cTable.null token).rule = .prefixUpdate → inner.isAssignable)
    (hinner : Fits (cTable.null token).rightPower inner rest)
    (hnext : NextAtMost (cTable.null token).rightPower rest) :
    Fits bound (.node token.value [inner] false span) rest := by
  obtain ⟨hkind, htag⟩ := CTable.symbol_of_prefixed hrule
  have hnull : cTable.null token = cTable.nullOfSymbol token.value :=
    OperatorTable.null_of_operator hkind
  refine ⟨.node ?_ (by simpa using hinner.agrees), ?_, ?_⟩
  · rw [List.length_singleton, htag]
    constructor
    · intro operand hoperand
      rw [List.mem_singleton.mp hoperand]
      simpa [Construct.rightPower, hnull] using hinner.left
    · simp
    · simp [Construct.followsOperand]
    · simp
    · simpa [Construct.Updates, hnull] using htarget
  · simp [Expr.leftSpine, htag, Construct.followsOperand]
  · intro construct hconstruct
    obtain ⟨_, rfl | hlast⟩ := Expr.mem_rightSpine hconstruct
    · simpa [Construct.rightPower, htag, hnull] using hnext
    · exact hinner.right construct hlast

/-- What a token begins fits behind any bound, and allows the next token. -/
theorem NullReads.fits (hreading : reading.Fits)
    (h : NullReads reading (cTable.null token) token tokens expr rest) :
    Fits bound expr rest ∧
      ∀ next ∈ rest.head?, (cTable.left next).leftPower < (cTable.null token).nextPower := by
  cases h with
  | literal hrule =>
      refine ⟨⟨.leaf, by simp [Expr.leftSpine], by simp [Expr.rightSpine]⟩, ?_⟩
      exact CTable.lt_nextPower_null (by simp [hrule]) (by simp [hrule])
  | grouping hrule hinner _ =>
      have hfits := (hreading hinner).1
      refine ⟨⟨hfits.agrees.group, by simp, by simp⟩, ?_⟩
      exact CTable.lt_nextPower_null (by simp [hrule]) (by simp [hrule])
  | prefixed hrule hinner =>
      obtain ⟨hfits, hnext⟩ := hreading hinner
      refine ⟨fits_prefixed (.inl hrule) (by simp [hrule]) hfits hnext, ?_⟩
      exact CTable.lt_nextPower_null (by simp [hrule]) (by simp [hrule])
  | prefixUpdate hrule hinner htarget =>
      obtain ⟨hfits, hnext⟩ := hreading hinner
      refine ⟨fits_prefixed (.inr hrule) (fun _ => htarget) hfits hnext, ?_⟩
      exact CTable.lt_nextPower_null (by simp [hrule]) (by simp [hrule])

theorem ArgumentsRead.fits (hreading : reading.Fits) {values : List Expr}
    (h : ArgumentsRead reading bound tokens values rest) :
    ∀ value ∈ values, value.Agrees cTable ∧
      ∀ construct ∈ value.leftSpine, bound < construct.leftPower cTable := by
  induction h with
  | done => simp
  | last _ _ hfirst _ =>
      have hfits := (hreading hfirst).1
      simpa using And.intro hfits.agrees hfits.left
  | more _ _ hfirst _ _ ih =>
      have hfits := (hreading hfirst).1
      intro value hvalue
      rcases List.mem_cons.mp hvalue with rfl | hvalue
      · exact ⟨hfits.agrees, hfits.left⟩
      · exact ih value hvalue

/-- An operator over the operand `left` before it and others behind it fits where
`left` did, if the table's demands on the other operands are met. -/
theorem fits_following {tag : String} {construct : Construct} {left : Expr}
    {others : List Expr} {span : Span} (hleft : Fits bound left (token :: tokens))
    (hbound : bound < (cTable.left token).leftPower)
    (htag : Construct.of tag (others.length + 1) = construct)
    (hconstruct : construct.followsOperand)
    (hpower : construct.leftPower cTable = (cTable.left token).leftPower)
    (htrailing : ∀ operand ∈ construct.trailing (left :: others), ∀ inner ∈ operand.leftSpine,
      construct.rightPower cTable < inner.leftPower cTable)
    (harguments : construct = .call → ∀ argument ∈ others, ∀ inner ∈ argument.leftSpine,
      (cTable.leftOfSymbol ",").leftPower < inner.leftPower cTable)
    (hflat : construct = .sequence → ¬left.isOpenSequence)
    (htarget : construct.Updates cTable → left.isAssignable)
    (hothers : ∀ other ∈ others, other.Agrees cTable)
    (hend : construct.endsInOperand → NextAtMost (construct.rightPower cTable) rest ∧
      ∀ inner ∈ Expr.rightSpineOfLast (left :: others),
        NextAtMost (inner.rightPower cTable) rest) :
    Fits bound (.node tag (left :: others) false span) rest := by
  refine ⟨.node ?_ ?_, ?_, ?_⟩
  · rw [List.length_cons, htag]
    refine ⟨htrailing, harguments, ?_, by simpa using hflat, by simpa using htarget⟩
    intro _ first hfirst inner hinner
    cases hfirst
    rw [hpower]
    exact hleft.right inner hinner token rfl
  · simpa [hleft.agrees] using hothers
  · intro inner hinner
    obtain ⟨_, _, hcons, _, rfl | hfirst⟩ := Expr.mem_leftSpine hinner
    · rwa [List.length_cons, htag, hpower]
    · cases hcons
      exact hleft.left inner hfirst
  · intro inner hinner
    obtain ⟨hends, hinner⟩ := Expr.mem_rightSpine hinner
    rw [List.length_cons, htag] at hends hinner
    rcases hinner with rfl | hlast
    · exact (hend hends).1
    · exact (hend hends).2 inner hlast

theorem fits_binary {left right : Expr} {span : Span}
    (hrule : (cTable.left token).rule = .binary ∨ (cTable.left token).rule = .assignment)
    (htarget : (cTable.left token).rule = .assignment → left.isAssignable)
    (hleft : Fits bound left (token :: tokens))
    (hbound : bound < (cTable.left token).leftPower)
    (hright : Fits (cTable.left token).rightPower right rest)
    (hnext : NextAtMost (cTable.left token).rightPower rest) :
    Fits bound (.node token.value [left, right] false span) rest := by
  obtain ⟨hkind, htag⟩ := CTable.symbol_of_binary hrule
  have hbinding : cTable.left token = cTable.leftOfSymbol token.value :=
    OperatorTable.left_of_operator hkind
  rw [hbinding] at hright hnext htarget
  refine fits_following hleft hbound htag rfl (by rw [hbinding]; rfl) ?_ (by simp) (by simp)
    htarget (by simpa using hright.agrees) ?_
  · intro operand hoperand
    rw [List.mem_singleton.mp hoperand]
    exact hright.left
  · intro _
    exact ⟨hnext, hright.right⟩

/-- An open sequence takes another element in. The first element, and the demands
on those before the new one, stay as they were. -/
theorem fits_append {elements : List Expr} {right : Expr} {span span' : Span}
    (harity : 2 ≤ elements.length)
    (hleft : Fits bound (.node "," elements false span) (token :: tokens))
    (hright : Fits (cTable.leftOfSymbol ",").rightPower right rest)
    (hnext : NextAtMost (cTable.leftOfSymbol ",").rightPower rest) :
    Fits bound (.node "," (elements ++ [right]) false span') rest := by
  obtain ⟨first, others, rfl⟩ := List.exists_cons_of_length_pos (by omega : 0 < elements.length)
  obtain ⟨hagrees, hspine, _⟩ := hleft
  cases hagrees with
  | node hholds hchildren =>
      rw [Construct.of_comma] at hholds
      refine ⟨.node ?_ ?_, ?_, ?_⟩
      · rw [Construct.of_comma]
        refine ⟨?_, by simp, hholds.leading, hholds.flat, by simp [Construct.Updates]⟩
        intro operand hoperand
        rcases List.mem_append.mp hoperand with hoperand | hoperand
        · exact hholds.trailing operand hoperand
        · rw [List.mem_singleton.mp hoperand]
          exact hright.left
      · intro child hchild
        rcases List.mem_append.mp hchild with hchild | hchild
        · exact hchildren child hchild
        · rw [List.mem_singleton.mp hchild]
          exact hright.agrees
      · exact hspine
      · intro construct hconstruct
        obtain ⟨_, rfl | hlast⟩ := Expr.mem_rightSpine hconstruct
        · exact hnext
        · rw [Expr.rightSpineOfLast_append] at hlast
          exact hright.right construct hlast

theorem fits_sequence {left right : Expr} (hrule : (cTable.left token).rule = .comma)
    (hwell : left.WellFormed cTable) (hleft : Fits bound left (token :: tokens))
    (hbound : bound < (cTable.left token).leftPower)
    (hright : Fits (cTable.left token).rightPower right rest)
    (hnext : NextAtMost (cTable.left token).rightPower rest) :
    Fits bound (sequence left right) rest := by
  have hbinding := CTable.left_of_rule (congrArg LeftRule.symbol? hrule)
  rw [hbinding] at hright hnext
  unfold sequence
  split
  · cases hwell with
    | node _ harity _ => exact fits_append harity hleft hright hnext
  · rename_i hopen
    have htag : Construct.of "," 2 = .sequence := rfl
    refine fits_following hleft hbound htag rfl (by rw [hbinding]; rfl) ?_ (by simp) ?_
      (by simp [Construct.Updates]) (by simpa using hright.agrees) ?_
    · intro operand hoperand
      rw [List.mem_singleton.mp hoperand]
      exact hright.left
    · intro _ hsequence
      unfold Expr.isOpenSequence at hsequence
      split at hsequence
      · exact hopen _ _ rfl
      · cases hsequence
    · intro _
      exact ⟨hnext, hright.right⟩

/-- What an operator makes of the operand before it fits where that one did, and
allows the next token. -/
theorem LeftReads.fits (hreading : reading.Fits) {left : Expr} (hwell : left.WellFormed cTable)
    (hleft : Fits bound left (token :: tokens))
    (hbound : bound < (cTable.left token).leftPower)
    (h : LeftReads cTable reading (cTable.left token) token left tokens expr rest) :
    Fits bound expr rest ∧
      ∀ next ∈ rest.head?, (cTable.left next).leftPower < (cTable.left token).nextPower := by
  cases h with
  | binary hrule hright =>
      obtain ⟨hfits, hnext⟩ := hreading hright
      exact ⟨fits_binary (.inl hrule) (by simp [hrule]) hleft hbound hfits hnext,
        CTable.lt_nextPower_left (.inr ⟨by rw [hrule]; rfl, hnext⟩)⟩
  | assignment hrule htarget hright =>
      obtain ⟨hfits, hnext⟩ := hreading hright
      exact ⟨fits_binary (.inr hrule) (fun _ => htarget) hleft hbound hfits hnext,
        CTable.lt_nextPower_left (.inr ⟨by rw [hrule]; rfl, hnext⟩)⟩
  | ternary hrule hpositive hcolon hnegative =>
      have hbinding := CTable.left_of_rule (congrArg LeftRule.symbol? hrule)
      have hmiddle := (hreading hpositive).1
      obtain ⟨hfits, hnext⟩ := hreading hnegative
      refine ⟨?_, CTable.lt_nextPower_left (.inr ⟨by rw [hrule]; rfl, hnext⟩)⟩
      rw [hbinding] at hfits hnext
      refine fits_following hleft hbound (Construct.of_question 3) rfl (by rw [hbinding]; rfl) ?_
        (by simp) (by simp) (by simp [Construct.Updates])
        (by simp [hmiddle.agrees, hfits.agrees]) (fun _ => ⟨hnext, hfits.right⟩)
      intro operand hoperand
      rw [List.mem_singleton.mp hoperand]
      exact hfits.left
  | comma hrule hright =>
      obtain ⟨hfits, hnext⟩ := hreading hright
      exact ⟨fits_sequence hrule hwell hleft hbound hfits hnext,
        CTable.lt_nextPower_left (.inr ⟨by rw [hrule]; rfl, hnext⟩)⟩
  | call hrule hvalues hclose =>
      have hbinding := CTable.left_of_rule (congrArg LeftRule.symbol? hrule)
      have hfits := hvalues.fits hreading
      refine ⟨?_, CTable.lt_nextPower_left (.inl (by rw [hrule]; rfl))⟩
      exact fits_following hleft hbound (Construct.of_call _) rfl (by rw [hbinding]; rfl)
        (by simp [Construct.trailing]) (fun _ argument hargument => (hfits argument hargument).2)
        (by simp) (by simp [Construct.Updates]) (fun other hother => (hfits other hother).1)
        (by simp [Construct.endsInOperand])
  | index hrule hplace hclose =>
      have hbinding := CTable.left_of_rule (congrArg LeftRule.symbol? hrule)
      have hfits := (hreading hplace).1
      refine ⟨?_, CTable.lt_nextPower_left (.inl (by rw [hrule]; rfl))⟩
      exact fits_following hleft hbound (Construct.of_get 2) rfl (by rw [hbinding]; rfl)
        (by simp [Construct.trailing]) (by simp) (by simp) (by simp [Construct.Updates])
        (by simpa using hfits.agrees) (by simp [Construct.endsInOperand])
  | suffixed hrule =>
      obtain ⟨hkind, hvalue⟩ := CTable.symbol_of_left hrule (by decide) (by decide)
      have hbinding : cTable.left token = cTable.leftOfSymbol token.value :=
        OperatorTable.left_of_operator hkind
      refine ⟨?_, CTable.lt_nextPower_left (.inl (by rw [hrule]; rfl))⟩
      exact fits_following hleft hbound (of_decide_eq_true hvalue) rfl (by rw [hbinding]; rfl)
        (by simp [Construct.trailing]) (by simp) (by simp) (by simp [Construct.Updates])
        (by simp) (by simp [Construct.endsInOperand])

end Rules

/-- Every state of the loop fits, and the operator taken last allows the next
token; so the loop stops only where the bound stops it. -/
theorem Reaches.fits {reading : Reading} {depth : Nat} (hyields : reading.Yields depth)
    (hreading : reading.Fits) {bound power : Int} {tokens rest : List Token} {expr : Expr}
    (h : Reaches cTable reading bound tokens power expr rest) :
    Fits bound expr rest ∧ ∀ next ∈ rest.head?, (cTable.left next).leftPower < power := by
  induction h with
  | start _ _ hnull => exact hnull.fits hreading
  | step hleft hbound _ hstep ih =>
      exact hstep.fits hreading (hleft.yields hyields).1 ih.1 hbound

theorem Reads.fits (budget : Nat) : (Reads cTable budget).Fits := by
  intro bound tokens expr rest h
  induction h using Reads.run with
  | step ih hreached hstops =>
      obtain ⟨hfits, hpower⟩ := hreached.fits (Reads.yields _) ih
      refine ⟨hfits, ?_⟩
      intro next hnext
      have hstop := hstops next hnext
      have hallowed := hpower next hnext
      omega

end Parse

theorem Parser.agrees_of_parse {limit : Nat} {source : String} {expr : Expr}
    (h : (Parser.ofC limit).parse source = .ok expr) : expr.Agrees cTable := by
  obtain ⟨tokens, last, _, _, hreads⟩ := (parse_eq_ok_iff CTable.endIsInert).mp h
  exact (Reads.fits limit hreads).1.agrees

/-- Precedence and associativity come out as the table says: at every operator of
an expression that is read, the operands hold together more tightly than the
operator holds them, no sequence begins with an open sequence, and what is changed
can be assigned to. -/
theorem Parser.expression_agrees {limit : Nat} {source : String} {expr : Expr}
    (h : (Parser.ofC limit).parse source = .ok expr) :
    expr.WellFormed cTable ∧ expr.Agrees cTable :=
  ⟨(spelling_of_parse h).1, agrees_of_parse h⟩

theorem Parser.expression_agrees_nested :
    ∃ expr, (Parser.ofC 8).parse "-a ** b ** c - d - e, x = y = (p, q)" = .ok expr ∧
      expr.sexp = "(, (- (- (** (- a) (** b c)) d) e) (= x (= y (, p q))))" ∧
      expr.WellFormed cTable ∧ expr.Agrees cTable := by
  obtain ⟨expr, hparse, hsexp⟩ := @exists_of_sexp (.ofC 8) "-a ** b ** c - d - e, x = y = (p, q)"
    "(, (- (- (** (- a) (** b c)) d) e) (= x (= y (, p q))))" (by decide +kernel)
  exact ⟨expr, hparse, hsexp, expression_agrees hparse⟩

end Precedence
