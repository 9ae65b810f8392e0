import Precedence.Proofs.RoundTrip
import Precedence.Proofs.Segmentation

/-!
The s-expression of an expression that was read shows the whole tree. Spaces and
parentheses stand in it between names only and never inside one, so it falls apart into
its parts in one way; and whether a leaf is an identifier or a number shows in its name.
-/

namespace Precedence

def isSexpBreak (c : Char) : Bool := c = ' ' || c = '(' || c = ')'

def isSexpName (name : List Char) : Bool := !name.isEmpty && name.all (!isSexpBreak ·)

/-- A text that no name before it goes on with. -/
def SexpBreaks (text : List Char) : Prop := ∀ c ∈ text.head?, isSexpBreak c

theorem isSexpName_iff {name : List Char} :
    isSexpName name ↔ name ≠ [] ∧ ∀ c ∈ name, ¬isSexpBreak c := by
  simp [isSexpName]

theorem takeWhile_sexpName {name rest : List Char} (hname : isSexpName name)
    (hrest : SexpBreaks rest) : (name ++ rest).takeWhile (!isSexpBreak ·) = name := by
  rw [List.takeWhile_append_of_pos (by simpa using (isSexpName_iff.mp hname).2)]
  cases rest with
  | nil => simp
  | cons c rest => simp [hrest c rfl]

/-- Where a name ends can be told from the text. -/
theorem sexpName_cancel {name name' rest rest' : List Char} (hname : isSexpName name)
    (hname' : isSexpName name') (hrest : SexpBreaks rest) (hrest' : SexpBreaks rest')
    (h : name ++ rest = name' ++ rest') : name = name' ∧ rest = rest' := by
  have hnames : name = name' := by
    rw [← takeWhile_sexpName hname hrest, h, takeWhile_sexpName hname' hrest']
  subst hnames
  exact ⟨rfl, List.append_cancel_left h⟩

theorem not_isSexpBreak_of_isWordPart {c : Char} (h : isWordPart c) : ¬isSexpBreak c := by
  intro hbreak
  simp only [isSexpBreak, Bool.or_eq_true, decide_eq_true_eq] at hbreak
  rcases hbreak with (rfl | rfl) | rfl <;> exact absurd h (by decide)

/-- Identifiers and numbers are names. -/
theorem isSexpName_of_isLexeme {kind : TokenKind} {text : List Char} (h : IsLexeme kind text)
    (hkind : kind = .identifier ∨ kind = .number) : isSexpName text := by
  rw [isSexpName_iff]
  have hdigits : ∀ {c : Char}, c.isDigit → ¬isSexpBreak c := fun hdigit =>
    not_isSexpBreak_of_isWordPart (by simp [isWordPart, hdigit])
  cases h with
  | whole hne hall => exact ⟨hne, fun c hc => hdigits (hall c hc)⟩
  | fraction _ hall hbehind =>
      refine ⟨by simp, fun c hc => ?_⟩
      rcases List.mem_append.mp hc with hc | hc
      · exact hdigits (hall c hc)
      · rcases List.mem_cons.mp hc with rfl | hc
        · decide
        · exact hdigits (hbehind c hc)
  | identifier hstart hothers =>
      refine ⟨by simp, fun c hc => not_isSexpBreak_of_isWordPart ?_⟩
      rcases List.mem_cons.mp hc with rfl | hc
      · simp [isWordPart, hstart]
      · exact hothers c hc
  | operator => simp at hkind

/-- What kind a word is shows in its value. -/
theorem Lexeme.IsWord.kind_eq {word other : Lexeme} (h : word.IsWord) (h' : other.IsWord)
    (hvalue : word.value = other.value) : word.kind = other.kind := by
  unfold Lexeme.IsWord at h h'
  rw [hvalue, h'] at h
  exact (Prod.mk.inj (Option.some.inj h)).1.symm

def LeftRule.tagsSymbol : LeftRule → Bool
  | .binary | .assignment | .suffixed => true
  | _ => false

def TokenKey.isSexpName : TokenKey → Bool
  | .symbol text => Precedence.isSexpName text.toList
  | _ => true

namespace CTable

theorem isSexpName_of_left {symbol : String}
    (h : (cTable.leftOfSymbol symbol).rule.tagsSymbol) : isSexpName symbol.toList := by
  have hname := OperatorTable.forall_left
    (fun key binding => binding.rule.tagsSymbol → key.isSexpName)
    (by decide +kernel) (by simp [Binding.inert, LeftRule.tagsSymbol])
    ⟨.operator, symbol, .origin⟩ h
  exact hname

theorem isSexpName_of_null {symbol : String}
    (h : (cTable.nullOfSymbol symbol).rule = .prefixed ∨
      (cTable.nullOfSymbol symbol).rule = .prefixUpdate) : isSexpName symbol.toList := by
  have hname := OperatorTable.forall_null
    (fun key binding => binding.rule = .prefixed ∨ binding.rule = .prefixUpdate → key.isSexpName)
    (by decide +kernel) (by simp [Binding.inert]) ⟨.operator, symbol, .origin⟩ h
  exact hname

/-- The tags of the constructs that the table has are names. -/
theorem isSexpName_tag {construct : Construct} (h : construct.Registered cTable) :
    isSexpName construct.tag.toList := by
  cases construct with
  | prefixed symbol => exact isSexpName_of_null h
  | suffixed symbol =>
      have hrule : (cTable.leftOfSymbol symbol).rule = .suffixed := h
      obtain ⟨_, hsymbol⟩ := isSexpName_iff.mp (@isSexpName_of_left symbol (by rw [hrule]; rfl))
      have hpost : ∀ c ∈ "post".toList, ¬isSexpBreak c := (isSexpName_iff.mp (by decide)).2
      rw [Construct.tag, String.toList_append, isSexpName_iff]
      refine ⟨by simp, fun c hc => ?_⟩
      rcases List.mem_append.mp hc with hc | hc
      · exact hpost c hc
      · exact hsymbol c hc
  | binary symbol =>
      apply @isSexpName_of_left symbol
      rcases h with h | h <;> rw [h] <;> rfl
  | _ => decide

end CTable

namespace Expr

inductive Named : Expr → Prop
  | leaf {token : Token} (hname : isSexpName token.value.toList) (hword : token.lexeme.IsWord) :
      Named (.leaf token)
  | node {tag : String} {children : List Expr} {grouped : Bool} {span : Span}
      (hname : isSexpName tag.toList) (hchildren : ∀ child ∈ children, Named child) :
      Named (.node tag children grouped span)

theorem Written.named {expr : Expr} (h : expr.Written) (hwell : expr.WellFormed cTable) :
    expr.Named := by
  induction hwell with
  | leaf hkind =>
      cases h with
      | leaf hword => exact .leaf (isSexpName_of_isLexeme (isLexeme_of_lexeme? hword) hkind) hword
  | node hregistered _ _ ih =>
      refine .node ?_ fun child hchild => ih child hchild (h.of_node child hchild)
      have hname := CTable.isSexpName_tag hregistered
      rwa [Construct.tag_of] at hname

theorem sexpBreaks_operands (exprs : List Expr) (rest : List Char) :
    SexpBreaks ((sexpOperands exprs).toList ++ ')' :: rest) := by
  cases exprs with
  | nil => simp [sexpOperands, SexpBreaks, isSexpBreak]
  | cons first others => simp [sexpOperands, SexpBreaks, isSexpBreak]

/-- The operands of an s-expression are told apart if each of them is. -/
theorem sexpOperands_cancel {exprs others : List Expr} {rest rest' : List Char}
    (hexprs : ∀ expr ∈ exprs, ∀ {other : Expr} {rest rest' : List Char}, other.Named →
      SexpBreaks rest → SexpBreaks rest' →
      expr.sexp.toList ++ rest = other.sexp.toList ++ rest' →
      expr.groupAll.eraseSpans = other.groupAll.eraseSpans ∧ rest = rest')
    (hothers : ∀ other ∈ others, other.Named)
    (h : (sexpOperands exprs).toList ++ ')' :: rest =
      (sexpOperands others).toList ++ ')' :: rest') :
    exprs.map (fun expr => expr.groupAll.eraseSpans) =
      others.map (fun expr => expr.groupAll.eraseSpans) ∧ rest = rest' := by
  induction exprs generalizing others with
  | nil =>
      cases others with
      | nil => simpa [sexpOperands] using h
      | cons other others => simp [sexpOperands] at h
  | cons expr exprs ih =>
      cases others with
      | nil => simp [sexpOperands] at h
      | cons other others =>
          obtain ⟨hexpr, hexprs⟩ := List.forall_mem_cons.mp hexprs
          obtain ⟨hother, hothers⟩ := List.forall_mem_cons.mp hothers
          simp only [sexpOperands, String.toList_append, List.append_assoc] at h
          obtain ⟨hfirst, hbehind⟩ := hexpr hother (sexpBreaks_operands exprs rest)
            (sexpBreaks_operands others rest') (List.append_cancel_left h)
          obtain ⟨hall, hrest⟩ := ih hexprs hothers hbehind
          exact ⟨by rw [List.map_cons, List.map_cons, hfirst, hall], hrest⟩

/-- An s-expression ends where its parentheses close, so what stands behind it can be
cut off, and it is written for one tree alone. -/
theorem sexp_cancel {expr other : Expr} {rest rest' : List Char} (hexpr : expr.Named)
    (hother : other.Named) (hrest : SexpBreaks rest) (hrest' : SexpBreaks rest')
    (h : expr.sexp.toList ++ rest = other.sexp.toList ++ rest') :
    expr.groupAll.eraseSpans = other.groupAll.eraseSpans ∧ rest = rest' := by
  -- A name never begins with a parenthesis, so leaves and operators differ at once.
  have hopening : ∀ {name text tail : List Char}, isSexpName name → name ++ text ≠ '(' :: tail := by
    intro name text tail hname heq
    obtain ⟨hne, hbreaks⟩ := isSexpName_iff.mp hname
    obtain ⟨c, others, rfl⟩ := List.exists_cons_of_ne_nil hne
    obtain rfl := (List.cons.inj heq).1
    exact hbreaks '(' (by simp) rfl
  induction hexpr generalizing other rest rest' with
  | @leaf token hname hword =>
      cases hother with
      | @leaf token' hname' hword' =>
          obtain ⟨hvalue, hrest⟩ := sexpName_cancel hname hname' hrest hrest' h
          have hvalues : token.value = token'.value := String.toList_injective hvalue
          have hkind : token.kind = token'.kind := hword.kind_eq hword' hvalues
          exact ⟨by simp only [groupAll, eraseSpans, hkind, hvalues], hrest⟩
      | @node tag children grouped span hname' hchildren =>
          simp only [sexp, String.toList_append, List.append_assoc] at h
          exact absurd h (hopening hname)
  | @node tag children grouped span hname hchildren ih =>
      cases hother with
      | @leaf token' hname' hword' =>
          simp only [sexp, String.toList_append, List.append_assoc] at h
          exact absurd h.symm (hopening hname')
      | @node tag' children' grouped' span' hname' hchildren' =>
          simp only [sexp, String.toList_append, List.append_assoc] at h
          obtain ⟨htag, hoperands⟩ := sexpName_cancel hname hname'
            (sexpBreaks_operands children rest) (sexpBreaks_operands children' rest')
            (List.append_cancel_left h)
          obtain ⟨hall, hrest⟩ := sexpOperands_cancel
            (fun child hchild _ _ _ hnamed hbreaks => ih child hchild hnamed hbreaks)
            hchildren' hoperands
          have htags : tag = tag' := String.toList_injective htag
          refine ⟨?_, hrest⟩
          simp only [groupAll, eraseSpans, groupAllOf_eq_map, eraseSpansOfAll_eq_map,
            List.map_map, htags]
          simpa [Function.comp_def] using hall

end Expr

namespace Parser

theorem named_of_parse {limit : Nat} {source : String} {expr : Expr}
    (h : (Parser.ofC limit).parse source = .ok expr) : expr.Named := by
  obtain ⟨hwell, tokens, htokens, hspelling⟩ := spelling_of_parse h
  exact (Expr.written_of_spelling hspelling.spelling (words_of_tokenize htokens)).named hwell

/-- The s-expression tells expressions apart. If two expressions that were read, at
whatever limits, are written alike, then they have the same tags over the same number of
operands and the same leaves in the same places: they agree once their spans are erased
and no difference is made between operators with and without parentheses. -/
theorem sexp_determines {limit limit' : Nat} {source source' : String} {expr expr' : Expr}
    (h : (Parser.ofC limit).parse source = .ok expr)
    (h' : (Parser.ofC limit').parse source' = .ok expr') (hsexp : expr.sexp = expr'.sexp) :
    expr.groupAll.eraseSpans = expr'.groupAll.eraseSpans := by
  refine (@Expr.sexp_cancel expr expr' [] [] (named_of_parse h) (named_of_parse h') ?_ ?_ ?_).1
  · simp [SexpBreaks]
  · simp [SexpBreaks]
  · rw [hsexp]

theorem sexp_determines_call :
    ∃ expr expr', (Parser.ofC 8).parse "post + call()[7.] * (b, -get--)" = .ok expr ∧
      (Parser.ofC 16).parse "((post) + (call ( )[ (7.)]*((b,(-(get--))))))" = .ok expr' ∧
      expr ≠ expr' ∧ expr.sexp = expr'.sexp ∧
      expr.sexp = "(+ post (* (get (call call) 7.) (, b (- (post-- get)))))" ∧
      expr.groupAll.eraseSpans = expr'.groupAll.eraseSpans := by
  obtain ⟨expr, hparse, hsexp⟩ := @exists_of_sexp (.ofC 8) "post + call()[7.] * (b, -get--)"
    "(+ post (* (get (call call) 7.) (, b (- (post-- get)))))" (by decide +kernel)
  obtain ⟨expr', hparse', hsexp'⟩ := @exists_of_sexp (.ofC 16)
    "((post) + (call ( )[ (7.)]*((b,(-(get--))))))"
    "(+ post (* (get (call call) 7.) (, b (- (post-- get)))))" (by decide +kernel)
  have hdiffer : (Parser.ofC 8).parse "post + call()[7.] * (b, -get--)" ≠
      (Parser.ofC 16).parse "((post) + (call ( )[ (7.)]*((b,(-(get--))))))" := by
    decide +kernel
  rw [hparse, hparse'] at hdiffer
  exact ⟨expr, expr', hparse, hparse', fun h => hdiffer (congrArg _ h), hsexp.trans hsexp'.symm,
    hsexp, sexp_determines hparse hparse' (hsexp.trans hsexp'.symm)⟩

end Parser

end Precedence
