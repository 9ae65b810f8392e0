import Precedence.Proofs.LexicalErrors
import Precedence.Proofs.Limit

/-!
Diagnostics at the end of a source. Every other item of the stream stands before the
last byte, so a source that is refused at the place behind it has been read whole, and
is refused for its end token.
-/

namespace Precedence

namespace TokenStream

/-- A stream corresponds to itself, with spans that begin before `position`, if that is
where its tokens stand. -/
def early (table : OperatorTable) (stream : TokenStream) {position : Nat}
    (h : ∀ {t}, .ok t ∈ stream → ¬t.isEnd → t.span.start < position) :
    Correspondence table table :=
  stream.diagonal table (fun s => s.start < position) h
    (fun hr _ => Nat.lt_of_le_of_lt (Nat.min_le_left _ _) hr)
    (fun hs _ => Nat.lt_of_le_of_lt (Nat.min_le_left _ _) hs)

theorem early_items (table : OperatorTable) (stream : TokenStream) {position : Nat}
    (h : ∀ {t}, .ok t ∈ stream → ¬t.isEnd → t.span.start < position) :
    List.Forall₂ (stream.early table h).Items stream stream :=
  Correspondence.items_refl (fun h => ⟨rfl, h⟩) (fun h => ⟨rfl, h⟩)

end TokenStream

namespace Parser

/-- What a source is refused for behind its tokens is its end token. -/
theorem names_of_late {parser : Parser} {source : String} {diagnostic : Diagnostic}
    (h : parser.parse source = .error diagnostic) {front : List Token} {last : Token}
    (hstream : TokenStream.ofSource source = (front ++ [last]).map .ok) (hlast : last.isEnd)
    (hfront : ∀ token ∈ front, ¬token.isEnd ∧ token.span.start < diagnostic.position) :
    diagnostic.position = last.span.start ∧ diagnostic.cause.Names parser.limit last := by
  have hmem : ∀ {token}, .ok token ∈ TokenStream.ofSource source → token ∈ front ∨ token = last := by
    intro token htoken
    rw [hstream] at htoken
    simpa using htoken
  have hearly : ∀ {token}, .ok token ∈ TokenStream.ofSource source → ¬token.isEnd →
      token.span.start < diagnostic.position := by
    intro token htoken hend
    rcases hmem htoken with htoken | rfl
    · exact (hfront token htoken).2
    · exact absurd hlast hend
  obtain ⟨_, _, hdiagnostics⟩ := (((TokenStream.ofSource source).early parser.table hearly).runs
    parser.limit (TokenStream.early_items parser.table _ hearly)).of_error h
  cases hdiagnostics with
  | @named _ t _ htoken hcause =>
      rcases hmem htoken.2 with ht | rfl
      · exact absurd (hfront t ht).2 (Nat.lt_irrefl _)
      · exact ⟨rfl, hcause⟩
  | target hexpr => exact absurd hexpr.span (Nat.lt_irrefl _)
  | broken hbroken =>
      have hmem := hbroken.2
      rw [hstream] at hmem
      simp at hmem

/-- A source that is refused at the place behind its last byte breaks off nowhere. Its
tokens stand before that place, and it is refused for the end token there. -/
theorem tokenize_of_late {parser : Parser} {source : String} {diagnostic : Diagnostic}
    (hlength : source.utf8ByteSize < 0x100000000)
    (h : parser.parse source = .error diagnostic)
    (hposition : diagnostic.position = source.utf8ByteSize) :
    ∃ front last, tokenize source = .ok (front ++ [last]) ∧ last.isEnd ∧
      diagnostic.position = last.span.start ∧ diagnostic.cause.Names parser.limit last ∧
      ∀ token ∈ front, ¬token.isEnd ∧ token.span.start < last.span.start := by
  cases htokens : tokenize source with
  | error broken =>
      -- All items of a source that breaks off stand before its end.
      obtain ⟨front, position, c, hstream, hlt, hstarts, rfl⟩ := exists_front_of_broken htokens
      have hbroken : offset position = position := offset_of_lt (by omega)
      rcases parse_eq_error h with hmem | ⟨_, token, hmem, hstart⟩
      · rw [hstream, hbroken] at hmem
        obtain rfl : diagnostic = ⟨.foreignCharacter c, position⟩ := by simpa using hmem
        exact absurd hposition (Nat.ne_of_lt hlt)
      · rw [hstream] at hmem
        obtain ⟨start, hle, htoken⟩ := hstarts token (by simpa using hmem)
        rw [offset_of_lt (by omega)] at htoken
        omega
  | ok tokens =>
      obtain ⟨front, last, rfl, _, _, hinner⟩ :=
        (TokenStream.ofSource_sealed source).split_of_collect htokens
      obtain ⟨front', stop, hsame, hscans⟩ := Scans.of_tokenize htokens
      obtain ⟨rfl, hlast⟩ := List.append_inj' hsame rfl
      obtain rfl : last = .endAt stop := List.singleton_inj.mp hlast
      rw [← hscans.position_eq] at hlength hposition
      have hstart : (Token.endAt stop).span.start = stop := offset_of_lt hlength
      have hfront : ∀ token ∈ front, ¬token.isEnd ∧ token.span.start < diagnostic.position := by
        intro token htoken
        obtain ⟨start, _, hlt, htokenStart⟩ := hscans.start_bounds token htoken
        rw [offset_of_lt (by omega)] at htokenStart
        exact ⟨hinner token htoken, by omega⟩
      obtain ⟨hlate, hnames⟩ := names_of_late h hscans.ofSource_eq rfl hfront
      exact ⟨front, .endAt stop, rfl, rfl, hlate, hnames, hlate ▸ hfront⟩

end Parser

end Precedence
