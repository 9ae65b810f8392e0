import Mathlib.Data.List.Forall2
import Precedence.Proofs.Construct

/-!
The spellings of an expression: the lists of lexemes it can be written with. An
operator puts its symbols between the spellings of its operands, and parentheses
may go around the whole. `Spelling` says which lists are spellings;
`SpellingWithin` also counts how deep operands nest in each other.
-/

namespace Precedence

/-- A token without the place it was read from. -/
structure Lexeme where
  kind : TokenKind
  value : String
  deriving DecidableEq

def Token.lexeme (token : Token) : Lexeme := ⟨token.kind, token.value⟩

namespace Lexeme

/-- An operator symbol or a bracket. -/
def mark (text : String) : Lexeme := ⟨.operator, text⟩

def enclose : (pairs : Nat) → List Lexeme → List Lexeme
  | 0, text => text
  | pairs + 1, text => mark "(" :: (enclose pairs text ++ [mark ")"])

def separated (texts : List (List Lexeme)) : List Lexeme := [mark ","].intercalate texts

end Lexeme

open Lexeme

/-- How a construct is written when its operands are written already. A call may
have a comma behind its last argument. -/
inductive Construct.Layout : Construct → List (List Lexeme) → List Lexeme → Prop
  | prefixed {op : String} {operand : List Lexeme} :
      Layout (.prefixed op) [operand] (mark op :: operand)
  | suffixed {op : String} {operand : List Lexeme} :
      Layout (.suffixed op) [operand] (operand ++ [mark op])
  | binary {op : String} {left right : List Lexeme} :
      Layout (.binary op) [left, right] (left ++ mark op :: right)
  | ternary {condition positive negative : List Lexeme} :
      Layout .ternary [condition, positive, negative]
        (condition ++ mark "?" :: (positive ++ mark ":" :: negative))
  | sequence {first second : List Lexeme} {others : List (List Lexeme)} :
      Layout .sequence (first :: second :: others) (separated (first :: second :: others))
  | index {target place : List Lexeme} :
      Layout .index [target, place] (target ++ mark "[" :: (place ++ [mark "]"]))
  | call {callee : List Lexeme} {values : List (List Lexeme)} :
      Layout .call (callee :: values)
        (callee ++ mark "(" :: (separated values ++ [mark ")"]))
  | callTrailing {callee : List Lexeme} {values : List (List Lexeme)} (hvalues : values ≠ []) :
      Layout .call (callee :: values)
        (callee ++ mark "(" :: (separated values ++ [mark ",", mark ")"]))

/-- The texts an expression can be written with. A leaf may stand in any number
of parentheses, an operator stands in some exactly if it is marked so. -/
inductive Spelling : Expr → List Lexeme → Prop
  | leaf (token : Token) (pairs : Nat) : Spelling (.leaf token) (enclose pairs [token.lexeme])
  | node {tag : String} {children : List Expr} {grouped : Bool} {span : Span} {pairs : Nat}
      {operands : List (List Lexeme)} {body : List Lexeme}
      (hoperands : List.Forall₂ Spelling children operands)
      (hbody : (Construct.of tag children.length).Layout operands body)
      (hgrouped : grouped = true ↔ 0 < pairs) :
      Spelling (.node tag children grouped span) (enclose pairs body)

/-- The texts an expression can be written with if operands nest at most `depth`
deep. A pair of parentheses opens an operand, and so does an operator for each
operand behind it; the operand an operator begins with does not nest deeper than
the operator itself. -/
inductive SpellingWithin : Nat → Expr → List Lexeme → Prop
  | leaf {depth pairs : Nat} {token : Token} (hdepth : pairs < depth) :
      SpellingWithin depth (.leaf token) (enclose pairs [token.lexeme])
  | leading {depth inner pairs : Nat} {tag : String} {child : Expr} {grouped : Bool}
      {span : Span} {operand body : List Lexeme}
      (hconstruct : ¬(Construct.of tag 1).followsOperand)
      (hchild : SpellingWithin inner child operand)
      (hbody : (Construct.of tag 1).Layout [operand] body)
      (hgrouped : grouped = true ↔ 0 < pairs) (hdepth : inner + pairs < depth) :
      SpellingWithin depth (.node tag [child] grouped span) (enclose pairs body)
  | following {depth inner pairs : Nat} {tag : String} {first : Expr} {rest : List Expr}
      {grouped : Bool} {span : Span} {operand body : List Lexeme} {operands : List (List Lexeme)}
      (hconstruct : (Construct.of tag (rest.length + 1)).followsOperand)
      (hfirst : SpellingWithin (inner + 1) first operand)
      (hlength : rest.length = operands.length)
      (hrest : ∀ {operand text}, (operand, text) ∈ rest.zip operands →
        SpellingWithin inner operand text)
      (hbody : (Construct.of tag (rest.length + 1)).Layout (operand :: operands) body)
      (hgrouped : grouped = true ↔ 0 < pairs) (hdepth : inner + pairs < depth) :
      SpellingWithin depth (.node tag (first :: rest) grouped span) (enclose pairs body)

theorem Lexeme.length_enclose (pairs : Nat) (text : List Lexeme) :
    (enclose pairs text).length = text.length + 2 * pairs := by
  induction pairs with
  | zero => simp [enclose]
  | succ pairs ih =>
      simp only [enclose, List.length_cons, List.length_append, ih, List.length_nil]
      omega

theorem Lexeme.separated_cons (first : List Lexeme) (others : List (List Lexeme)) :
    separated (first :: others) = first ++ others.flatMap (mark "," :: ·) := by
  induction others generalizing first with
  | nil => simp [separated]
  | cons second others ih =>
      have hrest := ih second
      simp only [separated, List.intercalate_cons_cons, List.flatMap_cons] at hrest ⊢
      rw [hrest]
      simp

theorem Lexeme.separated_append {texts texts' : List (List Lexeme)} (h : texts ≠ [])
    (h' : texts' ≠ []) :
    separated (texts ++ texts') = separated texts ++ mark "," :: separated texts' := by
  obtain ⟨first, others, rfl⟩ := List.exists_cons_of_ne_nil h
  obtain ⟨second, others', rfl⟩ := List.exists_cons_of_ne_nil h'
  rw [List.cons_append, separated_cons, separated_cons, separated_cons]
  simp

theorem Lexeme.mem_separated {texts : List (List Lexeme)} {lexeme : Lexeme}
    (h : lexeme ∈ separated texts) :
    lexeme = mark "," ∨ ∃ text ∈ texts, lexeme ∈ text := by
  cases texts with
  | nil => cases h
  | cons first others =>
      rw [separated_cons] at h
      simp only [List.mem_append, List.mem_flatMap, List.mem_cons] at h ⊢
      grind

theorem Lexeme.sublist_separated {texts : List (List Lexeme)} {text : List Lexeme}
    (h : text ∈ texts) : text.Sublist (separated texts) := by
  cases texts with
  | nil => cases h
  | cons first others =>
      rw [separated_cons]
      rcases List.mem_cons.mp h with rfl | hothers
      · exact List.sublist_append_left _ _
      · have hmem : mark "," :: text ∈ others.map (mark "," :: ·) :=
          List.mem_map_of_mem hothers
        exact ((List.sublist_cons_self _ _).trans (List.sublist_flatten_of_mem hmem)).trans
          (List.sublist_append_right _ _)

theorem Lexeme.length_lt_separated {first text : List Lexeme} {rest : List (List Lexeme)}
    (h : text ∈ rest) : text.length < (separated (first :: rest)).length := by
  have hle := (sublist_separated h).length_le
  have hrest : rest ≠ [] := List.ne_nil_of_mem h
  simp only [separated, List.intercalate_cons_of_ne_nil hrest, List.length_append] at hle ⊢
  simp only [List.length_cons, List.length_nil]
  omega

namespace Construct.Layout

/-- Every operand is a part of the whole. -/
theorem sublist_body {construct : Construct} {operands : List (List Lexeme)}
    {body operand : List Lexeme} (h : construct.Layout operands body)
    (hoperand : operand ∈ operands) : operand.Sublist body := by
  have hbehind : ∀ {text : List Lexeme} (before : List Lexeme) (symbol : Lexeme),
      text.Sublist (before ++ symbol :: text) :=
    fun before symbol => List.sublist_append_of_sublist_right (List.sublist_cons_self _ _)
  cases h with
  | prefixed =>
      rw [List.mem_singleton.mp hoperand]
      exact List.sublist_cons_self _ _
  | suffixed =>
      rw [List.mem_singleton.mp hoperand]
      exact List.sublist_append_left _ _
  | binary =>
      simp only [List.mem_cons, List.not_mem_nil, or_false] at hoperand
      rcases hoperand with rfl | rfl
      · exact List.sublist_append_left _ _
      · exact hbehind _ _
  | ternary =>
      simp only [List.mem_cons, List.not_mem_nil, or_false] at hoperand
      rcases hoperand with rfl | rfl | rfl
      · exact List.sublist_append_left _ _
      · exact (List.sublist_append_left _ _).trans (hbehind _ _)
      · exact (hbehind _ _).trans (hbehind _ _)
  | sequence => exact sublist_separated hoperand
  | index =>
      simp only [List.mem_cons, List.not_mem_nil, or_false] at hoperand
      rcases hoperand with rfl | rfl
      · exact List.sublist_append_left _ _
      · exact (List.sublist_append_left _ _).trans (hbehind _ _)
  | call =>
      rcases List.mem_cons.mp hoperand with rfl | hoperand
      · exact List.sublist_append_left _ _
      · exact ((sublist_separated hoperand).trans (List.sublist_append_left _ _)).trans
          (hbehind _ _)
  | callTrailing =>
      rcases List.mem_cons.mp hoperand with rfl | hoperand
      · exact List.sublist_append_left _ _
      · exact ((sublist_separated hoperand).trans (List.sublist_append_left _ _)).trans
          (hbehind _ _)

/-- The operands behind the first one are shorter than the whole. -/
theorem length_lt_body {construct : Construct} {operand body : List Lexeme}
    {operands : List (List Lexeme)} (h : construct.Layout (operand :: operands) body) :
    ∀ other ∈ operands, other.length < body.length := by
  cases h with
  | prefixed => simp
  | suffixed => simp
  | binary =>
      simp only [List.length_append, List.length_cons, List.mem_singleton, forall_eq]
      omega
  | ternary =>
      simp only [List.length_append, List.length_cons, List.mem_cons, List.not_mem_nil, or_false]
      rintro other (rfl | rfl) <;> omega
  | sequence => exact fun other hother => length_lt_separated hother
  | index =>
      simp only [List.length_append, List.length_cons, List.mem_singleton, forall_eq]
      omega
  | call =>
      simp only [List.length_append, List.length_cons]
      intro other hother
      have hle := (sublist_separated hother).length_le
      omega
  | callTrailing =>
      simp only [List.length_append, List.length_cons]
      intro other hother
      have hle := (sublist_separated hother).length_le
      omega

/-- An operator that does not follow an operand stands before its only one. -/
theorem prefixed_of_leading {construct : Construct} {operand body : List Lexeme}
    {operands : List (List Lexeme)} (h : construct.Layout (operand :: operands) body)
    (hconstruct : ¬construct.followsOperand) :
    ∃ op, construct = .prefixed op ∧ operands = [] ∧ body = mark op :: operand := by
  cases h with
  | prefixed => exact ⟨_, rfl, rfl, rfl⟩
  | _ => exact absurd rfl hconstruct

theorem arity {construct : Construct} {operands : List (List Lexeme)} {body : List Lexeme}
    (h : construct.Layout operands body) : construct.Arity operands.length := by
  cases h <;> simp [Construct.Arity]

/-- A construct is written with operator symbols and its operands. -/
theorem mem_body {construct : Construct} {operands : List (List Lexeme)} {body : List Lexeme}
    {lexeme : Lexeme} (h : construct.Layout operands body) (hlexeme : lexeme ∈ body) :
    lexeme.kind = .operator ∨ ∃ operand ∈ operands, lexeme ∈ operand := by
  have hmark : ∀ {text : String}, lexeme = mark text → lexeme.kind = .operator := by
    rintro text rfl
    rfl
  cases h with
  | sequence =>
      exact (mem_separated hlexeme).imp_left hmark
  | call =>
      simp only [List.mem_append, List.mem_cons, List.not_mem_nil, or_false] at hlexeme
      grind [mem_separated]
  | callTrailing =>
      simp only [List.mem_append, List.mem_cons, List.not_mem_nil, or_false] at hlexeme
      grind [mem_separated]
  | _ =>
      simp only [List.mem_append, List.mem_cons, List.not_mem_nil, or_false] at hlexeme ⊢
      grind

theorem operands_ne_nil {construct : Construct} {body : List Lexeme} :
    ¬construct.Layout [] body := by
  intro h
  cases h

end Construct.Layout

namespace SpellingWithin

theorem pos {depth : Nat} {expr : Expr} {text : List Lexeme}
    (h : SpellingWithin depth expr text) : 0 < depth := by
  cases h <;> omega

theorem mono {depth depth' : Nat} {expr : Expr} {text : List Lexeme}
    (h : SpellingWithin depth expr text) (hle : depth ≤ depth') :
    SpellingWithin depth' expr text := by
  cases h with
  | leaf hdepth => exact .leaf (by omega)
  | leading hconstruct hchild hbody hgrouped hdepth =>
      exact .leading hconstruct hchild hbody hgrouped (by omega)
  | following hconstruct hfirst hlength hrest hbody hgrouped hdepth =>
      exact .following hconstruct hfirst hlength hrest hbody hgrouped (by omega)

theorem spelling {depth : Nat} {expr : Expr} {text : List Lexeme}
    (h : SpellingWithin depth expr text) : Spelling expr text := by
  induction h with
  | leaf => exact .leaf _ _
  | leading _ _ hbody hgrouped _ ih => exact .node (.cons ih .nil) hbody hgrouped
  | following _ _ hlength _ hbody hgrouped _ ihfirst ihrest =>
      refine .node (.cons ihfirst ?_) hbody hgrouped
      exact List.forall₂_iff_zip.mpr ⟨hlength, ihrest⟩

/-- Parentheses around a spelling mark the expression, and nest it deeper. -/
theorem group {depth : Nat} {expr : Expr} {text : List Lexeme}
    (h : SpellingWithin depth expr text) :
    SpellingWithin (depth + 1) expr.group (mark "(" :: (text ++ [mark ")"])) := by
  cases h with
  | @leaf _ pairs token hdepth => exact @leaf (depth + 1) (pairs + 1) token (by omega)
  | @leading _ inner pairs tag child _ span operand body hconstruct hchild hbody _ hdepth =>
      exact @leading (depth + 1) inner (pairs + 1) tag child true span operand body hconstruct
        hchild hbody (by simp) (by omega)
  | @following _ inner pairs tag first rest _ span operand body operands hconstruct hfirst
      hlength hrest hbody _ hdepth =>
      exact @following (depth + 1) inner (pairs + 1) tag first rest true span operand body
        operands hconstruct hfirst hlength hrest hbody (by simp) (by omega)

/-- An operator in parentheses nests one deeper than its operands for each pair. -/
theorem of_operands {depth inner pairs : Nat} {tag : String} {children : List Expr}
    {grouped : Bool} {span : Span} {operands : List (List Lexeme)} {body : List Lexeme}
    (hoperands : List.Forall₂ (SpellingWithin inner) children operands)
    (hbody : (Construct.of tag children.length).Layout operands body)
    (hgrouped : grouped = true ↔ 0 < pairs) (hdepth : inner + pairs < depth) :
    SpellingWithin depth (.node tag children grouped span) (enclose pairs body) := by
  cases hoperands with
  | nil => exact absurd hbody Construct.Layout.operands_ne_nil
  | @cons first operand rest operands hfirst hrest =>
      by_cases hconstruct : (Construct.of tag (rest.length + 1)).followsOperand
      · obtain ⟨hlength, hzip⟩ := List.forall₂_iff_zip.mp hrest
        exact .following hconstruct (hfirst.mono (by omega)) hlength hzip hbody hgrouped hdepth
      · obtain ⟨op, _, rfl, _⟩ := hbody.prefixed_of_leading hconstruct
        cases hrest
        exact .leading hconstruct hfirst hbody hgrouped hdepth

end SpellingWithin

theorem Lexeme.mem_enclose {pairs : Nat} {text : List Lexeme} {lexeme : Lexeme}
    (h : lexeme ∈ enclose pairs text) : lexeme.kind = .operator ∨ lexeme ∈ text := by
  induction pairs with
  | zero => exact .inr h
  | succ pairs ih =>
      simp only [enclose, List.mem_cons, List.mem_append, List.not_mem_nil, or_false] at h
      rcases h with rfl | h | rfl
      · exact .inl rfl
      · exact ih h
      · exact .inl rfl

theorem Lexeme.subset_enclose (pairs : Nat) (text : List Lexeme) : text ⊆ enclose pairs text := by
  induction pairs with
  | zero => exact List.Subset.refl _
  | succ pairs ih =>
      intro lexeme hlexeme
      simp [enclose, ih hlexeme]

theorem exists_related {α β : Type} {relation : α → β → Prop} {as : List α} {bs : List β}
    (h : List.Forall₂ relation as bs) {b : β} (hb : b ∈ bs) : ∃ a ∈ as, relation a b := by
  induction h with
  | nil => cases hb
  | cons hfirst _ ih =>
      rcases List.mem_cons.mp hb with rfl | hmem
      · exact ⟨_, by simp, hfirst⟩
      · obtain ⟨a, ha, hrelated⟩ := ih hmem
        exact ⟨a, by simp [ha], hrelated⟩

theorem exists_all_related {α β : Type} {relation : α → β → Prop} {as : List α}
    (h : ∀ a ∈ as, ∃ b, relation a b) : ∃ bs, List.Forall₂ relation as bs := by
  induction as with
  | nil => exact ⟨[], .nil⟩
  | cons a as ih =>
      obtain ⟨b, hb⟩ := h a (by simp)
      obtain ⟨bs, hbs⟩ := ih fun other hother => h other (by simp [hother])
      exact ⟨b :: bs, .cons hb hbs⟩

/-- No spelling holds the end of the input. -/
theorem Spelling.kind_ne_end {table : OperatorTable} {expr : Expr} {text : List Lexeme}
    (h : Spelling expr text) (hwell : expr.WellFormed table) :
    ∀ lexeme ∈ text, lexeme.kind ≠ .endOfInput := by
  induction expr generalizing text with
  | leaf token =>
      intro lexeme hlexeme
      cases hwell with
      | leaf hkind =>
          cases h with
          | leaf _ pairs =>
              rcases mem_enclose hlexeme with hoperator | hmem
              · simp [hoperator]
              · rw [List.mem_singleton.mp hmem, Token.lexeme]
                rcases hkind with hkind | hkind <;> simp [hkind]
  | node tag children grouped span ih =>
      intro lexeme hlexeme
      cases h with
      | @node _ _ _ _ pairs operands body hoperands hbody _ =>
          rcases mem_enclose hlexeme with hoperator | hmem
          · simp [hoperator]
          · rcases hbody.mem_body hmem with hoperator | ⟨operand, hoperand, hmem⟩
            · simp [hoperator]
            · obtain ⟨child, hchild, hspelling⟩ := exists_related hoperands hoperand
              exact ih child hchild hspelling (hwell.of_node.2.2 child hchild) lexeme hmem

/-- A text is longer than operands nest in it. -/
theorem Spelling.within_length {expr : Expr} {text : List Lexeme} (h : Spelling expr text) :
    SpellingWithin text.length expr text := by
  induction expr generalizing text with
  | leaf token =>
      cases h with
      | leaf _ pairs =>
          apply SpellingWithin.leaf
          rw [length_enclose, List.length_singleton]
          omega
  | node tag children grouped span ih =>
      cases h with
      | @node _ _ _ _ pairs operands body hoperands hbody hgrouped =>
          rw [length_enclose]
          cases hoperands with
          | nil => exact absurd hbody Construct.Layout.operands_ne_nil
          | @cons first operand rest operands hfirst hrest =>
              have hbound := (hbody.sublist_body (.head _)).length_le
              have hfirst := ih first (by simp) hfirst
              by_cases hconstruct : (Construct.of tag (rest.length + 1)).followsOperand
              · have hpos := hfirst.pos
                refine @SpellingWithin.following _ (body.length - 1) pairs tag first rest grouped
                  span operand body operands hconstruct (hfirst.mono (by omega))
                  hrest.length_eq ?_ hbody hgrouped (by omega)
                intro other text hmem
                have hother := List.of_mem_zip hmem
                have hspelling := (List.forall₂_iff_zip.mp hrest).2 hmem
                have hshort := hbody.length_lt_body text hother.2
                exact (ih other (List.mem_cons_of_mem _ hother.1) hspelling).mono (by omega)
              · obtain ⟨op, _, rfl, hop⟩ := hbody.prefixed_of_leading hconstruct
                cases hrest
                have hlength : body.length = operand.length + 1 := by rw [hop, List.length_cons]
                exact .leading hconstruct hfirst hbody hgrouped (by omega)

end Precedence
