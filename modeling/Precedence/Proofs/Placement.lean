import Precedence.Proofs.Leaves
import Precedence.Proofs.Registration
import Precedence.Proofs.Segmentation

/-!
Where the parts of an expression stand in its source. A leaf takes the bytes of its
token; any other expression stretches from the beginning of one token to the end of
another, around its operands, which stand apart from one another. All of this is kept
by every rule, whatever table says where the rules apply, because some token stands
between any two operands.
-/

namespace Precedence

open Parse

/-- The span runs from the beginning of a token to the end of a token, inside the
source. -/
structure Span.Stretches (span : Span) (source : String) (tokens : List Token) : Prop where
  lt : span.start < span.stop
  le : span.stop ≤ source.utf8ByteSize
  start : ∃ token ∈ tokens, span.start = token.span.start
  stop : ∃ token ∈ tokens, span.stop = token.span.stop

/-- The leaves are tokens on their own bytes of the source. Every operator stretches
around its operands, and between two neighbours of them some bytes are left. -/
inductive Expr.Placed (source : String) (tokens : List Token) : Expr → Prop
  | leaf {token : Token} (hmem : token ∈ tokens)
      (hcovers : token.span.Covers source token.value)
      (hstretches : token.span.Stretches source tokens) : Placed source tokens (.leaf token)
  | node {tag : String} {children : List Expr} {grouped : Bool} {span : Span}
      (hstretches : span.Stretches source tokens)
      (hinside : ∀ child ∈ children,
        span.start ≤ child.span.start ∧ child.span.stop ≤ span.stop)
      (hapart : children.Pairwise (·.span.stop < ·.span.start))
      (hchildren : ∀ child ∈ children, child.Placed source tokens) :
      Placed source tokens (.node tag children grouped span)

namespace Token.Pieces

variable {source : String} {tokens behind : List Token} {token next : Token}

theorem of_suffix (h : Pieces source tokens) (hsuffix : behind <:+ tokens) :
    Pieces source behind :=
  ⟨fun token htoken => h.inside token (hsuffix.subset htoken),
    fun token htoken => h.covers token (hsuffix.subset htoken),
    h.ordered.sublist hsuffix.sublist⟩

theorem tail (h : Pieces source (token :: behind)) : Pieces source behind :=
  h.of_suffix (List.suffix_cons _ _)

/-- A token that another one follows takes some bytes. -/
theorem lt (h : Pieces source (token :: next :: behind)) : token.span.start < token.span.stop :=
  ((List.pairwise_cons.mp h.ordered).1 next (by simp)).1

theorem le (h : Pieces source (token :: behind)) (hnext : next ∈ behind) :
    token.span.stop ≤ next.span.start :=
  ((List.pairwise_cons.mp h.ordered).1 next hnext).2

theorem stretches (h : Pieces source (token :: next :: behind)) :
    token.span.Stretches source (token :: next :: behind) :=
  ⟨h.lt, h.inside token (by simp), ⟨token, by simp, rfl⟩, ⟨token, by simp, rfl⟩⟩

end Token.Pieces

theorem Span.join_of_le {a b : Span} (hstart : a.start ≤ b.start) (hstop : a.stop ≤ b.stop) :
    a.join b = ⟨a.start, b.stop⟩ := by
  rw [join, Nat.min_eq_left hstart, Nat.max_eq_right hstop]

/-- From the beginning of one span to the end of a later one. -/
theorem Span.Stretches.join {a b : Span} {source : String} {tokens : List Token}
    (ha : a.Stretches source tokens) (hb : b.Stretches source tokens)
    (hstart : a.start ≤ b.start) (hstop : a.stop ≤ b.stop) :
    (a.join b).Stretches source tokens := by
  rw [Span.join_of_le hstart hstop]
  exact ⟨ha.lt.trans_le hstop, hb.le, ha.start, hb.stop⟩

theorem Span.Stretches.mono {span : Span} {source : String} {tokens more : List Token}
    (h : span.Stretches source tokens) (hsubset : tokens ⊆ more) :
    span.Stretches source more :=
  ⟨h.lt, h.le, h.start.imp fun _ hplace => ⟨hsubset hplace.1, hplace.2⟩,
    h.stop.imp fun _ hplace => ⟨hsubset hplace.1, hplace.2⟩⟩

namespace Expr.Placed

variable {source : String} {tokens : List Token} {expr : Expr}

theorem stretches (h : expr.Placed source tokens) : expr.span.Stretches source tokens := by
  cases h with
  | leaf _ _ hstretches => exact hstretches
  | node hstretches _ _ _ => exact hstretches

theorem mono (h : expr.Placed source tokens) {more : List Token} (hsubset : tokens ⊆ more) :
    expr.Placed source more := by
  induction h with
  | leaf hmem hcovers hstretches =>
      exact .leaf (hsubset hmem) hcovers (hstretches.mono hsubset)
  | node hstretches hinside hapart _ ih =>
      exact .node (hstretches.mono hsubset) hinside hapart ih

theorem group (h : expr.Placed source tokens) : expr.group.Placed source tokens := by
  cases h with
  | leaf hmem hcovers hstretches => exact .leaf hmem hcovers hstretches
  | node hstretches hinside hapart hchildren => exact .node hstretches hinside hapart hchildren

/-- What is read behind a token stands behind it. -/
theorem after {token : Token} (h : expr.Placed source tokens)
    (hpieces : Token.Pieces source (token :: tokens)) : token.span.stop ≤ expr.span.start := by
  obtain ⟨first, hfirst, hstart⟩ := h.stretches.start
  rw [hstart]
  exact hpieces.le hfirst

end Expr.Placed

@[simp] theorem Expr.span_group (expr : Expr) : expr.group.span = expr.span := by
  cases expr <;> rfl

/-- Expressions that were read from the tokens one behind the other, up to what is left
of the tokens. -/
structure Expr.Row (source : String) (tokens : List Token) (exprs : List Expr)
    (rest : List Token) : Prop where
  placed : ∀ expr ∈ exprs, expr.Placed source tokens
  apart : exprs.Pairwise (·.span.stop < ·.span.start)
  stops : ∀ expr ∈ exprs, ∀ token ∈ rest, expr.span.stop ≤ token.span.start

namespace Expr.Row

variable {source : String} {tokens rest between : List Token} {expr : Expr}
  {exprs others children : List Expr} {token next : Token}

theorem nil : Row source tokens [] rest := ⟨by simp, .nil, by simp⟩

theorem singleton (hplaced : expr.Placed source tokens)
    (hstops : ∀ token ∈ rest, expr.span.stop ≤ token.span.start) :
    Row source tokens [expr] rest :=
  ⟨by simpa using hplaced, List.pairwise_singleton _ _, by simpa using hstops⟩

theorem placed_singleton (h : Row source tokens [expr] rest) : expr.Placed source tokens :=
  h.placed expr (by simp)

theorem mono (h : Row source tokens exprs rest) {more : List Token} (hsubset : tokens ⊆ more) :
    Row source more exprs rest :=
  ⟨fun expr hexpr => (h.placed expr hexpr).mono hsubset, h.apart, h.stops⟩

theorem stops_singleton (h : Row source tokens [expr] rest) :
    ∀ token ∈ rest, expr.span.stop ≤ token.span.start :=
  h.stops expr (by simp)

theorem skip (h : Row source tokens exprs (token :: rest)) : Row source tokens exprs rest :=
  ⟨h.placed, h.apart, fun expr hexpr other hother => h.stops expr hexpr other (.tail _ hother)⟩

/-- Two rows are one if a token stands between them. -/
theorem append (hpieces : Token.Pieces source tokens)
    (hfront : Row source tokens exprs (token :: next :: between))
    (hsuffix : token :: next :: between <:+ tokens)
    (hbehind : Row source (next :: between) others rest) (hrest : rest ⊆ next :: between) :
    Row source tokens (exprs ++ others) rest := by
  have hmiddle := hpieces.of_suffix hsuffix
  refine ⟨?_, List.pairwise_append.mpr ⟨hfront.apart, hbehind.apart, ?_⟩, ?_⟩
  · intro expr hexpr
    rcases List.mem_append.mp hexpr with hexpr | hexpr
    · exact hfront.placed expr hexpr
    · exact (hbehind.placed expr hexpr).mono fun token htoken => hsuffix.subset (.tail _ htoken)
  · intro expr hexpr other hother
    have hstop := hfront.stops expr hexpr token (by simp)
    have hstart := (hbehind.placed other hother).after hmiddle
    exact hstop.trans_lt (hmiddle.lt.trans_le hstart)
  · intro expr hexpr later hlater
    rcases List.mem_append.mp hexpr with hexpr | hexpr
    · exact hfront.stops expr hexpr later (.tail _ (hrest hlater))
    · exact hbehind.stops expr hexpr later hlater

/-- The first of several expressions that stand apart begins first. -/
theorem start_le (h : Row source tokens (expr :: others) rest) :
    ∀ other ∈ expr :: others, expr.span.start ≤ other.span.start := by
  intro other hother
  rcases List.mem_cons.mp hother with rfl | hother
  · exact Nat.le_refl _
  · have hlt := (h.placed expr (by simp)).stretches.lt
    have hapart := (List.pairwise_cons.mp h.apart).1 other hother
    omega

/-- The last of several expressions that stand apart ends last. -/
theorem stop_le (h : Row source tokens (exprs ++ [expr]) rest) :
    ∀ other ∈ exprs ++ [expr], other.span.stop ≤ expr.span.stop := by
  intro other hother
  rcases List.mem_append.mp hother with hother | hother
  · have hlt := (h.placed expr (by simp)).stretches.lt
    have hapart := (List.pairwise_append.mp h.apart).2.2 other hother expr (by simp)
    omega
  · rw [List.mem_singleton.mp hother]

/-- An operator that stretches around its operands. -/
theorem node (h : Row source tokens children between) {tag : String} {span : Span}
    (hstretches : span.Stretches source tokens)
    (hinside : ∀ child ∈ children, span.start ≤ child.span.start ∧ child.span.stop ≤ span.stop)
    (hstops : ∀ token ∈ rest, span.stop ≤ token.span.start) :
    Row source tokens [.node tag children false span] rest :=
  .singleton (.node hstretches hinside h.apart h.placed) hstops

/-- An operator before its operand. -/
theorem leading (hpieces : Token.Pieces source (token :: tokens))
    (h : Row source tokens [expr] rest) (hne : tokens ≠ []) {tag : String} :
    Row source (token :: tokens) [.node tag [expr] false (token.span.join expr.span)] rest := by
  obtain ⟨next, behind, rfl⟩ := List.exists_cons_of_ne_nil hne
  have hafter := h.placed_singleton.after hpieces
  have hlt := hpieces.lt
  have hmono := h.mono (List.subset_cons_self token (next :: behind))
  have hstretches := hmono.placed_singleton.stretches
  have hstart : token.span.start ≤ expr.span.start := by omega
  have hstop : token.span.stop ≤ expr.span.stop := by
    have := hstretches.lt
    omega
  refine hmono.node (hpieces.stretches.join hstretches hstart hstop) ?_ ?_
  · rw [Span.join_of_le hstart hstop]
    simpa using hstart
  · rw [Span.join_of_le hstart hstop]
    exact h.stops_singleton

/-- An operator that the first of its operands begins and a token behind the last one
ends. -/
theorem closed (hpieces : Token.Pieces source tokens)
    (h : Row source tokens (expr :: others) (token :: next :: rest))
    (hsuffix : token :: next :: rest <:+ tokens) {tag : String} :
    Row source tokens [.node tag (expr :: others) false (expr.span.join token.span)]
      (next :: rest) := by
  have hmiddle := hpieces.of_suffix hsuffix
  have hplaced := h.placed expr (by simp)
  have hlt := hplaced.stretches.lt
  have hbefore : ∀ other ∈ expr :: others, other.span.stop ≤ token.span.start :=
    fun other hother => h.stops other hother token (by simp)
  have hfirst := hbefore expr (by simp)
  have hclose := hmiddle.lt
  have hstart : expr.span.start ≤ token.span.start := by omega
  have hstop : expr.span.stop ≤ token.span.stop := by omega
  have hstretches := hplaced.stretches.join (hmiddle.stretches.mono hsuffix.subset) hstart hstop
  rw [Span.join_of_le hstart hstop] at hstretches ⊢
  refine h.node hstretches ?_ fun later hlater => hmiddle.le hlater
  intro other hother
  have hother' := hbefore other hother
  refine ⟨h.start_le other hother, ?_⟩
  dsimp only
  omega

/-- An operator that stretches from its first operand to its last. -/
theorem ofOperands (h : Row source tokens (expr :: others) rest) {tag : String} :
    Row source tokens [.ofOperands tag (expr :: others)] rest := by
  obtain ⟨front, last, hlast⟩ : ∃ front last, expr :: others = front ++ [last] :=
    ⟨_, _, (List.dropLast_append_getLast (List.cons_ne_nil expr others)).symm⟩
  have hspan : Expr.spanOf (expr :: others) = expr.span.join last.span := by
    rw [Expr.spanOf, hlast, List.getLast?_concat, ← hlast]
    rfl
  have hmem : last ∈ expr :: others := by simp [hlast]
  have hstart := h.start_le
  have hstop : ∀ other ∈ expr :: others, other.span.stop ≤ last.span.stop := by
    rw [hlast] at h ⊢
    exact h.stop_le
  have hstretches := (h.placed expr (by simp)).stretches.join (h.placed last hmem).stretches
    (hstart last hmem) (hstop expr (by simp))
  rw [Expr.ofOperands, hspan]
  rw [Span.join_of_le (hstart last hmem) (hstop expr (by simp))] at hstretches ⊢
  exact h.node hstretches (fun child hchild => ⟨hstart child hchild, hstop child hchild⟩)
    (h.stops last hmem)

/-- A sequence goes on to its new element. -/
theorem sequence {left right : Expr} (h : Row source tokens [left, right] rest) :
    Row source tokens [Parse.sequence left right] rest := by
  have hbetween : left.span.stop < right.span.start := by simpa using h.apart
  have hright := (h.placed right (by simp)).stretches
  have hstops := h.stops right (by simp)
  unfold Parse.sequence
  split
  · rename_i elements span
    have hleft := h.placed (.node "," elements false span) (by simp)
    change span.stop < right.span.start at hbetween
    cases hleft with
    | node hstretches hinside hapart hchildren =>
        have hlt := hstretches.lt
        have hlt' := hright.lt
        have hstart : span.start ≤ right.span.start := by omega
        have hstop : span.stop ≤ right.span.stop := by omega
        have hjoin := hstretches.join hright hstart hstop
        have helements : ∀ element ∈ elements, element.span.stop < right.span.start :=
          fun element helement => (hinside element helement).2.trans_lt hbetween
        rw [Span.join_of_le hstart hstop] at hjoin ⊢
        refine .singleton (.node hjoin ?_ ?_ ?_) hstops
        · intro child hchild
          rcases List.mem_append.mp hchild with hchild | hchild
          · exact ⟨(hinside child hchild).1, by have := helements child hchild; dsimp only; omega⟩
          · rw [List.mem_singleton.mp hchild]
            exact ⟨hstart, Nat.le_refl _⟩
        · refine List.pairwise_append.mpr ⟨hapart, List.pairwise_singleton _ _, ?_⟩
          simpa using helements
        · intro child hchild
          rcases List.mem_append.mp hchild with hchild | hchild
          · exact hchildren child hchild
          · rw [List.mem_singleton.mp hchild]
            exact h.placed right (by simp)
  · exact h.ofOperands

end Expr.Row

namespace Parse

def Reading.Places (reading : Reading) (source : String) : Prop :=
  ∀ {bound : Int} {tokens : List Token} {expr : Expr} {rest : List Token},
    reading bound tokens expr rest → Token.Pieces source tokens →
    Expr.Row source tokens [expr] rest

section Rules

variable {table : OperatorTable} {reading : Reading} {source : String} {token next : Token}
  {tokens behind rest : List Token} {expr : Expr}

theorem NullReads.row (hreading : reading.Places source) {binding : Binding NullRule}
    (h : NullReads reading binding token (next :: behind) expr rest) (hend : ¬token.isEnd)
    (hpieces : Token.Pieces source (token :: next :: behind)) :
    Expr.Row source (token :: next :: behind) [expr] rest := by
  have htail := hpieces.tail
  have hne : next :: behind ≠ [] := List.cons_ne_nil _ _
  cases h with
  | literal =>
      exact .singleton
        (.leaf (.head _) (hpieces.covers token (.head _) hend) hpieces.stretches)
        fun later hlater => hpieces.le hlater
  | grouping _ hinner _ =>
      have hrow := (hreading hinner htail).skip.mono (List.subset_cons_self token _)
      exact .singleton hrow.placed_singleton.group (by simpa using hrow.stops_singleton)
  | prefixed _ hinner => exact (hreading hinner htail).leading hpieces hne
  | prefixUpdate _ hinner _ => exact (hreading hinner htail).leading hpieces hne

theorem ArgumentsRead.row (hreading : reading.Places source) (hconsumes : reading.Consumes)
    {bound : Int} {values : List Expr} (h : ArgumentsRead reading bound tokens values rest)
    (hpieces : Token.Pieces source tokens) : Expr.Row source tokens values rest := by
  induction h with
  | done => exact .nil
  | last _ _ hfirst _ => exact hreading hfirst hpieces
  | more _ _ hfirst _ hothers ih =>
      have hsuffix := hconsumes hfirst
      exact (hreading hfirst hpieces).append hpieces hsuffix
        (ih (hpieces.of_suffix hsuffix).tail) (hothers.suffix hconsumes).subset

/-- An operator over the operand before it, which was read from the same tokens, and
others behind it. -/
theorem LeftReads.row (hreading : reading.Places source) (hconsumes : reading.Consumes)
    {binding : Binding LeftRule} {left : Expr}
    (h : LeftReads table reading binding token left (next :: behind) expr rest)
    (hpieces : Token.Pieces source tokens) (hsuffix : token :: next :: behind <:+ tokens)
    (hleft : Expr.Row source tokens [left] (token :: next :: behind)) :
    Expr.Row source tokens [expr] rest := by
  have htail : Token.Pieces source (next :: behind) := (hpieces.of_suffix hsuffix).tail
  have hbehind : ∀ {others : List Expr} {rest : List Token},
      Expr.Row source (next :: behind) others rest → rest <:+ next :: behind →
      Expr.Row source tokens (left :: others) rest := by
    intro others rest hothers hrest
    exact hleft.append hpieces hsuffix hothers hrest.subset
  have hpair : ∀ {right : Expr} {bound : Int}, reading bound (next :: behind) right rest →
      Expr.Row source tokens [left, right] rest :=
    fun hright => hbehind (hreading hright htail) (hconsumes hright)
  have hskip : ∀ {rest : List Token}, rest <:+ next :: behind → rest <:+ tokens :=
    fun hrest => hrest.trans ((List.suffix_cons _ _).trans hsuffix)
  cases h with
  | binary _ hright => exact (hpair hright).ofOperands
  | assignment _ _ hright => exact (hpair hright).ofOperands
  | ternary _ hpositive _ hnegative =>
      have hcolon := hconsumes hpositive
      have hrest := hconsumes hnegative
      have hboth := (hreading hpositive htail).append htail hcolon
        (hreading hnegative (htail.of_suffix hcolon).tail) hrest.subset
      exact (hbehind hboth (hrest.trans ((List.suffix_cons _ _).trans hcolon))).ofOperands
  | comma _ hright => exact (hpair hright).sequence
  | call _ hvalues _ =>
      have hrest := hvalues.suffix hconsumes
      exact (hbehind (hvalues.row hreading hconsumes htail) hrest).closed hpieces (hskip hrest)
  | index _ hplace _ =>
      have hrest := hconsumes hplace
      exact (hbehind (hreading hplace htail) hrest).closed hpieces (hskip hrest)
  | suffixed => exact hleft.closed hpieces hsuffix

theorem Reaches.row (hreading : reading.Places source) (hconsumes : reading.Consumes)
    {bound power : Int} (h : Reaches table reading bound tokens power expr rest)
    (hpieces : Token.Pieces source tokens) : Expr.Row source tokens [expr] rest := by
  induction h with
  | start htokens hend hnull =>
      subst htokens
      exact hnull.row hreading hend hpieces
  | step hleft _ _ hstep ih =>
      exact hstep.row hreading hconsumes hpieces (hleft.suffix hconsumes) ih

end Rules

theorem Reads.places (table : OperatorTable) (budget : Nat) (source : String) :
    (Reads table budget).Places source := by
  intro bound tokens expr rest h
  induction h using Reads.run with
  | step ih hreached _ => exact hreached.row ih (Reads.consumes table _)

end Parse

/-- Different tokens stand in different places. -/
theorem Token.Pieces.nodup {source : String} {tokens : List Token}
    (h : Token.Pieces source tokens) : tokens.Nodup := by
  refine h.ordered.imp fun {token later} hapart hsame => ?_
  subst hsame
  omega

/-- All parts of an expression stand where the source has them, whatever the table. -/
theorem Parser.placed_of_parse {registrations : List Registration} {table : OperatorTable}
    {limit : Nat} {source : String} {expr : Expr}
    (hbuild : OperatorTable.build registrations = .ok table)
    (hlength : source.utf8ByteSize < 0x100000000)
    (hparse : Parser.parse ⟨table, limit⟩ source = .ok expr) :
    ∃ tokens, tokenize source = .ok tokens ∧ expr.Placed source tokens ∧
      expr.leaves.Sublist tokens ∧ expr.leaves.Nodup := by
  obtain ⟨front, last, htokenize, hend, hreads⟩ :=
    (parse_eq_ok_iff (OperatorTable.endIsInert_build hbuild)).mp hparse
  obtain ⟨front', position, hsame, hscans⟩ := Scans.of_tokenize htokenize
  have hpieces := hscans.pieces hlength
  rw [← hscans.position_eq, ← hsame] at hpieces
  have hleaves : expr.leaves.Sublist (front ++ [last]) :=
    (List.sublist_append_left _ _).trans (Reads.leaves_sublist table limit hreads)
  exact ⟨_, htokenize, (Reads.places table limit source hreads hpieces).placed_singleton, hleaves,
    hpieces.nodup.sublist hleaves⟩

theorem Parser.placed_of_parse_sequence :
    let source := "x[i] = f(7., (b, c),) ? --y : -z, w++"
    ∃ expr, OperatorTable.build cRegistrations = .ok cTable ∧
      source.utf8ByteSize < 0x100000000 ∧ Parser.parse ⟨cTable, 16⟩ source = .ok expr ∧
      expr.sexp = "(, (= (get x i) (? (call f 7. (, b c)) (-- y) (- z))) (post++ w))" ∧
      ∃ tokens, tokenize source = .ok tokens ∧ expr.Placed source tokens ∧
        expr.leaves.Sublist tokens ∧ expr.leaves.Nodup := by
  intro source
  have hlength : source.utf8ByteSize < 0x100000000 := by decide +kernel
  obtain ⟨expr, hparse, hsexp⟩ := @exists_of_sexp ⟨cTable, 16⟩ source
    "(, (= (get x i) (? (call f 7. (, b c)) (-- y) (- z))) (post++ w))" (by decide +kernel)
  exact ⟨expr, build_cRegistrations, hlength, hparse, hsexp,
    placed_of_parse build_cRegistrations hlength hparse⟩

end Precedence
