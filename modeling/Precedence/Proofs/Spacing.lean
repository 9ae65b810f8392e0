import Precedence.Proofs.Correspondence

/-!
How a source is spaced does not matter. Sources with the same words, and the same
character they break off at if they do, parse to the same tree or are refused for the
same cause, at items that stand at the same place in their streams.
-/

namespace Precedence

namespace TokenStream

/-- What an item of a stream says, apart from where it stands. -/
def word : Except Diagnostic Token → Except Cause Lexeme
  | .ok token => .ok token.lexeme
  | .error diagnostic => .error diagnostic.cause

def place : Except Diagnostic Token → Nat
  | .ok token => token.span.start
  | .error diagnostic => diagnostic.position

def words (stream : TokenStream) : List (Except Cause Lexeme) := stream.map word

def Ordered (stream : TokenStream) : Prop := (stream.map place).Pairwise (· ≤ ·)

/-- Items with the same number in two streams stand at these places. -/
def Opposite (stream stream' : TokenStream) (start start' : Nat) : Prop :=
  ∃ (i : Nat) (item item' : Except Diagnostic Token),
    stream[i]? = some item ∧ stream'[i]? = some item' ∧
      start = place item ∧ start' = place item'

theorem Ordered.place_le {stream : TokenStream} (h : stream.Ordered) {i j : Nat} (hij : i ≤ j)
    {item other : Except Diagnostic Token} (hitem : stream[i]? = some item)
    (hother : stream[j]? = some other) : place item ≤ place other := by
  obtain ⟨hi, rfl⟩ := List.getElem?_eq_some_iff.mp hitem
  obtain ⟨hj, rfl⟩ := List.getElem?_eq_some_iff.mp hother
  rcases Nat.eq_or_lt_of_le hij with rfl | hlt
  · exact Nat.le_refl _
  · have hle := List.pairwise_iff_getElem.mp h i j (by simpa using hi) (by simpa using hj) hlt
    rwa [List.getElem_map, List.getElem_map] at hle

/-- Of two pairs of opposite places, one comes first in both streams. -/
theorem Opposite.min {stream stream' : TokenStream} {a a' b b' : Nat} (hstream : stream.Ordered)
    (hstream' : stream'.Ordered) (h : Opposite stream stream' a a')
    (h' : Opposite stream stream' b b') :
    Opposite stream stream' (Min.min a b) (Min.min a' b') := by
  obtain ⟨i, item, item', hitem, hitem', rfl, rfl⟩ := h
  obtain ⟨j, other, other', hother, hother', rfl, rfl⟩ := h'
  rcases Nat.le_total i j with hij | hji
  · refine ⟨i, item, item', hitem, hitem', ?_, ?_⟩
    · exact Nat.min_eq_left (hstream.place_le hij hitem hother)
    · exact Nat.min_eq_left (hstream'.place_le hij hitem' hother')
  · refine ⟨j, other, other', hother, hother', ?_, ?_⟩
    · exact Nat.min_eq_right (hstream.place_le hji hother hitem)
    · exact Nat.min_eq_right (hstream'.place_le hji hother' hitem')

/-- The items of a text stand in order, and none of them before the text. -/
theorem scan_ordered (inside position : Nat) (text : List Char)
    (hlength : position + Text.byteLength text < 0x100000000) :
    (position :: (scan inside position text).map place).Pairwise (· ≤ ·) := by
  -- What stands in order behind a character stands in order behind the place before it.
  have hback : ∀ {position bytes : Nat} {places : List Nat},
      ((position + bytes) :: places).Pairwise (· ≤ ·) → (position :: places).Pairwise (· ≤ ·) := by
    intro position bytes places h
    obtain ⟨hle, hplaces⟩ := List.pairwise_cons.mp h
    exact List.pairwise_cons.mpr ⟨fun place hplace => by have := hle place hplace; omega, hplaces⟩
  fun_induction scan inside position text with
  | case1 _ position =>
      have hposition := @offset_of_lt position (by omega)
      simp [place, Token.endAt, Span.ofLength, hposition]
  | case2 _ position c rest ih =>
      rw [Text.byteLength_cons] at hlength
      exact hback (ih (by omega))
  | case3 position c rest _ ih =>
      rw [Text.byteLength_cons] at hlength
      exact hback (ih (by omega))
  | case4 position c rest _ _ =>
      have hposition := @offset_of_lt position (by omega)
      simp [place, hposition]
  | case5 position c rest _ kind text _ ih =>
      rw [Text.byteLength_cons] at hlength
      have hposition := @offset_of_lt position (by omega)
      rw [List.map_cons, place, Span.ofLength, hposition]
      exact List.pairwise_cons.mpr ⟨by simpa using (List.pairwise_cons.mp (hback (ih (by omega)))).1,
        hback (ih (by omega))⟩

theorem ofSource_ordered {source : String}
    (hlength : source.utf8ByteSize < 0x100000000) : (ofSource source).Ordered := by
  rw [← Text.byteLength_toList, ← Nat.zero_add (Text.byteLength _)] at hlength
  exact (List.pairwise_cons.mp (scan_ordered 0 0 source.toList hlength)).2

section Opposite

variable {stream stream' : TokenStream}

/-- Streams with the same words correspond: a span begins where a token does, and the
spans that correspond begin at opposite places. -/
def opposite (table : OperatorTable) (hstream : stream.Ordered) (hstream' : stream'.Ordered) :
    Correspondence table table :=
  .ofLexemes table
    (fun t t' => t.lexeme = t'.lexeme ∧ Opposite stream stream' t.span.start t'.span.start)
    (fun s s' => Opposite stream stream' s.start s'.start)
    (fun d d' => d.cause = d'.cause ∧ Opposite stream stream' d.position d'.position)
    (fun h => h.1) (fun h _ => h.2) (fun h h' => h.min hstream hstream' h')
    (fun h h' => h.min hstream hstream' h'.2)

theorem opposite_items (table : OperatorTable) (hstream : stream.Ordered)
    (hstream' : stream'.Ordered) (hwords : stream.words = stream'.words) :
    List.Forall₂ (opposite table hstream hstream').Items stream stream' := by
  have hlength : stream.length = stream'.length := by
    simpa [words] using congrArg List.length hwords
  refine List.forall₂_iff_get.mpr ⟨hlength, fun i hi hi' => ?_⟩
  have hword : word stream[i] = word stream'[i] := by
    have hget := congrArg (·[i]?) hwords
    simpa [words, hi, hi'] using hget
  have hplaces : Opposite stream stream' (place stream[i]) (place stream'[i]) :=
    ⟨i, _, _, List.getElem?_eq_getElem hi, List.getElem?_eq_getElem hi', rfl, rfl⟩
  rw [List.get_eq_getElem, List.get_eq_getElem]
  generalize stream[i] = item at hword hplaces
  generalize stream'[i] = item' at hword hplaces
  match item, item', hword with
  | .ok token, .ok token', hword => exact .ok ⟨Except.ok.inj hword, hplaces⟩
  | .error diagnostic, .error diagnostic', hword => exact .error ⟨Except.error.inj hword, hplaces⟩

end Opposite

end TokenStream

/-- Parsing depends on the words of a source alone. Two sources with the same words, up
to the same foreign character if they break off at one, parse to the same tree, which is
written the same and grouped alike; or they are refused for the same cause, and the items
of their streams that this is reported at have the same number. -/
theorem Parser.parse_respaced (parser : Parser) {source source' : String}
    (hlength : source.utf8ByteSize < 0x100000000)
    (hlength' : source'.utf8ByteSize < 0x100000000)
    (hwords : (TokenStream.ofSource source).words = (TokenStream.ofSource source').words) :
    (∃ expr expr', parser.parse source = .ok expr ∧ parser.parse source' = .ok expr' ∧
        expr.eraseSpans = expr'.eraseSpans ∧ expr.sexp = expr'.sexp ∧
        expr.toInfix = expr'.toInfix) ∨
      ∃ diagnostic diagnostic', parser.parse source = .error diagnostic ∧
        parser.parse source' = .error diagnostic' ∧ diagnostic.cause = diagnostic'.cause ∧
        (TokenStream.ofSource source).Opposite (TokenStream.ofSource source')
          diagnostic.position diagnostic'.position := by
  have hstream := TokenStream.ofSource_ordered hlength
  have hstream' := TokenStream.ofSource_ordered hlength'
  have hruns := (TokenStream.opposite parser.table hstream hstream').runs parser.limit
    (TokenStream.opposite_items parser.table hstream hstream' hwords)
  unfold parse
  generalize Parser.run ⟨parser.table, parser.limit⟩ source = run at hruns
  generalize Parser.run ⟨parser.table, parser.limit⟩ source' = run' at hruns
  cases hruns with
  | @accepted expr expr' _ _ hexpr _ =>
      have herase := hexpr.eraseSpans_eq
      refine .inl ⟨expr, expr', rfl, rfl, herase, ?_, ?_⟩
      · rw [← expr.sexp_eraseSpans, herase, expr'.sexp_eraseSpans]
      · rw [← expr.toInfix_eraseSpans, herase, expr'.toInfix_eraseSpans]
  | refused hdiagnostics _ =>
      refine .inr ⟨_, _, rfl, rfl, ?_⟩
      cases hdiagnostics with
      | named htoken _ => exact ⟨rfl, htoken.2⟩
      | @target expr expr' hexpr =>
          have hsexp : expr.sexp = expr'.sexp := by
            rw [← expr.sexp_eraseSpans, hexpr.eraseSpans_eq, expr'.sexp_eraseSpans]
          exact ⟨by rw [hsexp], hexpr.span⟩
      | broken hbroken => exact hbroken

theorem Parser.parse_respaced_target :
    "(a+b)=c".utf8ByteSize < 0x100000000 ∧
      "( a\n+ b ) = c".utf8ByteSize < 0x100000000 ∧
      (TokenStream.ofSource "(a+b)=c").words = (TokenStream.ofSource "( a\n+ b ) = c").words ∧
      ∃ diagnostic, (Parser.ofC 8).parse "(a+b)=c" = .error ⟨.invalidTarget "(+ a b)", 1⟩ ∧
        (Parser.ofC 8).parse "( a\n+ b ) = c" = .error diagnostic ∧
        .invalidTarget "(+ a b)" = diagnostic.cause ∧
        (TokenStream.ofSource "(a+b)=c").Opposite (TokenStream.ofSource "( a\n+ b ) = c")
          1 diagnostic.position := by
  have hlength : "(a+b)=c".utf8ByteSize < 0x100000000 := by decide +kernel
  have hlength' : "( a\n+ b ) = c".utf8ByteSize < 0x100000000 := by decide +kernel
  have hwords : (TokenStream.ofSource "(a+b)=c").words =
      (TokenStream.ofSource "( a\n+ b ) = c").words := by decide +kernel
  have hparse : (Parser.ofC 8).parse "(a+b)=c" = .error ⟨.invalidTarget "(+ a b)", 1⟩ := by
    decide +kernel
  refine ⟨hlength, hlength', hwords, ?_⟩
  rcases parse_respaced (.ofC 8) hlength hlength' hwords with
    ⟨_, _, haccepted, _⟩ | ⟨diagnostic, diagnostic', hrefused, hrefused', hsame⟩
  · cases hparse.symm.trans haccepted
  · obtain rfl : ⟨.invalidTarget "(+ a b)", 1⟩ = diagnostic :=
      Except.error.inj (hparse.symm.trans hrefused)
    exact ⟨diagnostic', hparse, hrefused', hsame⟩

end Precedence
