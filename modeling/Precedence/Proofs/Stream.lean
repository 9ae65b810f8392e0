import Precedence.Token.Stream

/-!
How the stream of a source ends: with its only end token, or with a diagnostic.
-/

namespace Precedence

namespace TokenStream

/-- The tokens of a stream up to the diagnostic it breaks off with. -/
def tokens : TokenStream → List Token
  | .ok token :: rest => token :: tokens rest
  | _ => []

/-- A stream that ends as the stream of a source does: with its only end token,
or with a diagnostic. -/
inductive Sealed : TokenStream → Prop
  | finished {token : Token} (hend : token.isEnd) : Sealed [.ok token]
  | broken {diagnostic : Diagnostic} : Sealed [.error diagnostic]
  | more {token : Token} {rest : TokenStream} (hend : ¬token.isEnd) (hrest : Sealed rest) :
      Sealed (.ok token :: rest)

/-- No lexeme is classified as the end of the input. -/
theorem lexeme?_kind_ne_end {text value : List Char} {kind : TokenKind}
    (h : lexeme? text = some (kind, value)) : kind ≠ .endOfInput := by
  cases text with
  | nil => simp [lexeme?] at h
  | cons c rest =>
      simp only [lexeme?] at h
      split at h
      · simp only [Option.some.injEq, Prod.mk.injEq] at h
        simp [← h.1]
      · split at h
        · simp only [Option.some.injEq, Prod.mk.injEq] at h
          simp [← h.1]
        · simp only [Option.map_eq_some_iff, Prod.mk.injEq] at h
          obtain ⟨_, _, hkind, _⟩ := h
          simp [← hkind]

theorem scan_sealed (inside position : Nat) (text : List Char) :
    (scan inside position text).Sealed := by
  fun_induction scan inside position text with
  | case1 _ position => exact .finished rfl
  | case2 _ _ _ _ ih => exact ih
  | case3 _ _ _ _ ih => exact ih
  | case4 => exact .broken
  | case5 position c rest _ kind text hlexeme ih =>
      refine .more ?_ ih
      simpa [Token.isEnd] using lexeme?_kind_ne_end hlexeme

/-- A sealed stream with an end token breaks off nowhere, and ends there. -/
theorem Sealed.collect_eq {stream : TokenStream} (hsealed : stream.Sealed) {last : Token}
    (hmem : last ∈ stream.tokens) (hend : last.isEnd) : stream.collect = .ok stream.tokens := by
  induction hsealed with
  | finished => rfl
  | broken => cases hmem
  | more hnot _ ih =>
      simp only [tokens, List.mem_cons] at hmem
      rcases hmem with rfl | hmem
      · exact absurd hend hnot
      · simp only [collect, ih hmem, Except.map, tokens]

/-- A sealed stream has no tokens behind a diagnostic. -/
theorem Sealed.mem_tokens {stream : TokenStream} (hsealed : stream.Sealed) {token : Token}
    (hmem : .ok token ∈ stream) : token ∈ stream.tokens := by
  induction hsealed with
  | finished => simpa [tokens] using hmem
  | broken => simp at hmem
  | more _ _ ih =>
      simp only [List.mem_cons, Except.ok.injEq, tokens] at hmem ⊢
      exact hmem.imp_right ih

/-- A sealed stream breaks off with any diagnostic it holds. -/
theorem Sealed.collect_eq_error {stream : TokenStream} (hsealed : stream.Sealed)
    {diagnostic : Diagnostic} (hmem : .error diagnostic ∈ stream) :
    stream.collect = .error diagnostic := by
  induction hsealed with
  | finished => simp at hmem
  | broken =>
      obtain rfl := Except.error.inj (List.mem_singleton.mp hmem)
      rfl
  | more _ _ ih =>
      have hrest := ih (by simpa using hmem)
      simp only [collect, hrest, Except.map]

/-- The tokens of a stream that does not break off are followed by one end token. -/
theorem Sealed.split_of_collect {stream : TokenStream} (hsealed : stream.Sealed)
    {all : List Token} (hcollect : stream.collect = .ok all) :
    ∃ front last, all = front ++ [last] ∧ stream.tokens = all ∧ last.isEnd ∧
      ∀ token ∈ front, ¬token.isEnd := by
  induction hsealed generalizing all with
  | @finished token hend =>
      cases hcollect
      exact ⟨[], token, rfl, rfl, hend, by simp⟩
  | broken => cases hcollect
  | @more token rest hnot hrest ih =>
      simp only [collect] at hcollect
      cases hall : rest.collect with
      | error diagnostic =>
          rw [hall] at hcollect
          cases hcollect
      | ok others =>
          rw [hall] at hcollect
          cases hcollect
          obtain ⟨front, last, rfl, htokens, hend, hfront⟩ := ih hall
          refine ⟨token :: front, last, rfl, by simp only [tokens, htokens], hend, ?_⟩
          simpa [hnot] using hfront

theorem tokens_map_ok (all : List Token) : TokenStream.tokens (all.map .ok) = all := by
  induction all with
  | nil => rfl
  | cons token rest ih => rw [List.map_cons, tokens, ih]

theorem collect_map_ok (all : List Token) : TokenStream.collect (all.map .ok) = .ok all := by
  induction all with
  | nil => rfl
  | cons token rest ih => rw [List.map_cons, collect, ih, Except.map]

theorem sealed_of_tokens {front : List Token} {last : Token}
    (hfront : ∀ token ∈ front, ¬token.isEnd) (hend : last.isEnd) :
    Sealed ((front ++ [last]).map .ok) := by
  induction front with
  | nil => exact .finished hend
  | cons token rest ih =>
      refine .more (hfront token (by simp)) (ih ?_)
      exact fun other hother => hfront other (by simp [hother])

theorem ofSource_sealed (source : String) : (ofSource source).Sealed :=
  scan_sealed 0 0 source.toList

end TokenStream

end Precedence
