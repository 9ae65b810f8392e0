import Precedence.Proofs.Position
import Precedence.Token.Reader

/-!
A reader from its first item to its last. In whatever order its operations come, as long as
none of them moves it by hand, it stands where a scan of its source does. So it always has an
answer: it is asked for the items of the source one after the other, and has none behind the
last one. A copy that is taken up again goes on where it was saved.
-/

namespace Precedence

namespace Scans

variable {position position' : Nat} {text rest : List Char} {tokens : List Token}

/-- Separators are moved over without a token. -/
theorem separators {position : Nat} {rest : List Char} (before : List Char)
    (h : ∀ c ∈ before, isSeparator c) :
    Scans position (before ++ rest) [] (position + Text.byteLength before) rest := by
  induction before generalizing position with
  | nil => exact .here
  | cons c before ih =>
      obtain ⟨hc, hbefore⟩ := List.forall_mem_cons.mp h
      rw [Text.byteLength_cons, ← Nat.add_assoc]
      exact .separator hc (ih hbefore)

/-- Every token takes a byte at least. -/
theorem length_le (h : Scans position text tokens position' rest) :
    position + tokens.length ≤ position' := by
  induction h with
  | here => exact Nat.le_refl _
  | separator _ _ ih => omega
  | token hlexeme _ ih =>
      have hpos := lexeme?_pos hlexeme
      rw [List.length_cons]
      omega

theorem not_isEnd (h : Scans position text tokens position' rest) :
    ∀ token ∈ tokens, ¬token.isEnd := by
  intro token htoken
  obtain ⟨_, _, _, _, _, hlexeme, rfl⟩ := h.place htoken
  simpa [Token.isEnd] using TokenStream.lexeme?_kind_ne_end hlexeme

end Scans

namespace Reader

def Step.isMove : Step → Bool
  | .advance _ => true
  | _ => false

/-- Whether the reader stays the same copy under the operation, and goes on if at all by the
items of its source. -/
def Step.goesOn : Step → Bool
  | .advance _ | .restore => false
  | _ => true

def Bookmarked.performAll? (book : Bookmarked) : List Step → Option (List Answer × Bookmarked)
  | [] => some ([], book)
  | step :: rest => do
      let (answer, book) ← book.perform? step
      let (answers, book) ← book.performAll? rest
      return (answer :: answers, book)

def Answer.item? : Answer → Option (Option (Except Diagnostic Token))
  | .item found => some found
  | _ => none

/-- How many items a reader and the copy of it that was saved last have been asked for. -/
structure Asked where
  reader : Nat
  saved : Option Nat

/-- A copy that is taken up again has been asked for what it was asked for before it was
saved. -/
def Asked.after (asked : Asked) : Step → Asked
  | .next => { asked with reader := asked.reader + 1 }
  | .save => { asked with saved := some asked.reader }
  | .restore => { asked with reader := asked.saved.getD asked.reader }
  | _ => asked

def asked (steps : List Step) : Nat := (steps.foldl Asked.after ⟨0, none⟩).reader

/-! Where a reader stands. -/

inductive At (source : String) : (count : Nat) → Reader → Prop
  | reading {front : List Token} {position : Nat} {rest : List Char}
      (hscans : Scans 0 source.toList front position rest) :
      At source front.length ⟨source.toList, position, false⟩
  | finished {front : List Token} {position : Nat} {rest : List Char} {count : Nat}
      (hscans : Scans 0 source.toList front position rest)
      (hcount : (TokenStream.ofSource source).length ≤ count) :
      At source count ⟨source.toList, position, true⟩

/-- An item that is read behind the tokens of `front`, and the reader behind that. -/
inductive Takes (source : String) (front : List Token) (position : Nat) :
    Except Diagnostic Token → Reader → Prop
  | token {start : Nat} {kind : TokenKind} {value behind : List Char} (hle : position ≤ start)
      (hscans : Scans 0 source.toList front start (value ++ behind))
      (hlexeme : lexeme? (value ++ behind) = some (kind, value)) :
      Takes source front position
        (.ok ⟨kind, String.ofList value, .ofLength start (Text.byteLength value)⟩)
        ⟨source.toList, start + Text.byteLength value, false⟩
  | finished {start : Nat} (hscans : Scans 0 source.toList front start []) :
      Takes source front position (.ok (.endAt start)) ⟨source.toList, start, true⟩
  | stuck {start : Nat} {c : Char} {behind : List Char}
      (hscans : Scans 0 source.toList front start (c :: behind)) (hseparator : ¬isSeparator c)
      (hlexeme : lexeme? (c :: behind) = none) :
      Takes source front position (.error ⟨.foreignCharacter c, offset start⟩)
        ⟨source.toList, start, true⟩

section Places

variable {source : String} {front : List Token} {position : Nat} {rest : List Char}
  {finished : Bool}

/-- What a scan has still to read is what the reader at its place looks at. -/
theorem remainder?_of_scans (h : Scans 0 source.toList front position rest) :
    remainder? ⟨source.toList, position, finished⟩ = some rest ∧
      pending? ⟨source.toList, position, finished⟩ = some rest := by
  obtain ⟨before, hsource, hposition, hsize⟩ := h.split_source
  have hremainder : remainder? ⟨source.toList, position, finished⟩ = some rest := by
    rw [remainder?, hposition, hsource]
    exact Text.dropBytes?_byteLength_append before rest
  refine ⟨hremainder, ?_⟩
  unfold pending?
  split
  · rename_i hend
    have hle : Text.byteLength source.toList ≤ position := of_decide_eq_true hend
    rw [Text.byteLength_toList] at hle
    cases rest with
    | nil => rfl
    | cons c rest =>
        have hpos := c.utf8Size_pos
        rw [Text.byteLength_cons] at hsize
        omega
  · exact hremainder

/-- A reader that is not finished has an item to give. -/
theorem exists_takes (h : Scans 0 source.toList front position rest) :
    ∃ item reader, next? ⟨source.toList, position, false⟩ = some (some item, reader) ∧
      Takes source front position item reader := by
  obtain ⟨_, hpending⟩ := @remainder?_of_scans _ _ _ _ false h
  have hseparators : ∀ c ∈ rest.takeWhile isSeparator, isSeparator c :=
    fun c hc => List.mem_takeWhile_imp hc
  have hbehind : Scans 0 source.toList front
      (position + Text.byteLength (rest.takeWhile isSeparator)) (rest.dropWhile isSeparator) := by
    rw [← List.takeWhile_append_dropWhile (p := isSeparator) (l := rest)] at h
    simpa using h.trans (.separators _ hseparators)
  unfold next?
  rw [hpending]
  have hle := Nat.le_add_right position (Text.byteLength (rest.takeWhile isSeparator))
  simp only [Bool.false_eq_true, if_false, Option.bind_eq_bind, Option.bind_some]
  split
  · rename_i hnil
    rw [hnil] at hbehind
    exact ⟨_, _, rfl, .finished hbehind⟩
  · rename_i c others hcons
    have hc : ¬isSeparator c := by
      have hhead := List.head?_dropWhile_not isSeparator rest
      rw [hcons] at hhead
      simpa using hhead
    rw [hcons] at hbehind
    cases hlexeme : lexeme? (c :: others) with
    | none => exact ⟨_, _, rfl, .stuck hbehind hc hlexeme⟩
    | some lexeme =>
        obtain ⟨kind, value⟩ := lexeme
        obtain ⟨behind, htext⟩ := prefix_of_lexeme? hlexeme
        rw [← htext] at hbehind hlexeme
        exact ⟨_, _, rfl, .token hle hbehind hlexeme⟩

theorem getElem?_of_scans (h : Scans 0 source.toList front position rest) :
    (TokenStream.ofSource source)[front.length]? = (TokenStream.scan 0 position rest)[0]? := by
  rw [TokenStream.ofSource, h.scan_eq, List.getElem?_append_right (by simp), List.length_map,
    Nat.sub_self]

theorem length_ofSource (h : Scans 0 source.toList front position rest) :
    (TokenStream.ofSource source).length =
      front.length + (TokenStream.scan 0 position rest).length := by
  rw [TokenStream.ofSource, h.scan_eq, List.length_append, List.length_map]

end Places

section Items

variable {source : String} {front : List Token} {position count : Nat}
  {item : Except Diagnostic Token} {reader : Reader}

/-- The item that is read is the one of the source that is due. -/
theorem Takes.getElem?_eq (h : Takes source front position item reader) :
    (TokenStream.ofSource source)[front.length]? = some item := by
  cases h with
  | token _ hscans hlexeme => rw [getElem?_of_scans hscans, TokenStream.scan_lexeme hlexeme]; rfl
  | finished hscans => rw [getElem?_of_scans hscans]; rfl
  | stuck hscans hseparator hlexeme =>
      rw [getElem?_of_scans hscans, TokenStream.scan_stuck hseparator hlexeme]
      rfl

theorem Takes.reader_at (h : Takes source front position item reader) :
    reader.At source (front.length + 1) := by
  cases h with
  | token _ hscans hlexeme =>
      have hbehind := hscans.trans (.token hlexeme .here)
      rw [← @List.length_singleton _ (Token.mk _ _ _), ← List.length_append]
      exact .reading hbehind
  | finished hscans => exact .finished hscans (Nat.le_of_eq (length_ofSource hscans))
  | stuck hscans hseparator hlexeme =>
      refine .finished hscans (Nat.le_of_eq ?_)
      rw [length_ofSource hscans, TokenStream.scan_stuck hseparator hlexeme, List.length_singleton]

/-- A reader gives the item of the source that is due, if there is one. -/
theorem At.next (h : reader.At source count) :
    ∃ reader', reader.next? = some ((TokenStream.ofSource source)[count]?, reader') ∧
      reader'.At source (count + 1) := by
  cases h with
  | reading hscans =>
      obtain ⟨item, reader', hnext, htakes⟩ := exists_takes hscans
      exact ⟨reader', by rw [hnext, htakes.getElem?_eq], htakes.reader_at⟩
  | finished hscans hcount =>
      refine ⟨_, ?_, .finished hscans (Nat.le_succ_of_le hcount)⟩
      rw [List.getElem?_eq_none hcount]
      rfl

theorem At.reads (h : reader.At source count) :
    ∃ rest, reader.remainder? = some rest ∧ reader.pending? = some rest := by
  cases h with
  | reading hscans => exact ⟨_, remainder?_of_scans hscans⟩
  | finished hscans _ => exact ⟨_, remainder?_of_scans hscans⟩

theorem At.boundary (h : reader.At source count) :
    reader.position ≤ source.utf8ByteSize ∧ String.Pos.Raw.IsValid source ⟨reader.position⟩ := by
  have hplace : ∀ {front : List Token} {position : Nat} {rest : List Char},
      Scans 0 source.toList front position rest →
      position ≤ source.utf8ByteSize ∧ String.Pos.Raw.IsValid source ⟨position⟩ := by
    intro front position rest hscans
    obtain ⟨before, hsource, rfl, hsize⟩ := hscans.split_source
    exact ⟨hsize ▸ Nat.le_add_right _ _, isValid_of_split hsource⟩
  cases h with
  | reading hscans => exact hplace hscans
  | finished hscans _ => exact hplace hscans

/-- Items that are given come from a reader that is not finished. -/
theorem At.takes {reader' : Reader} (h : reader.At source count)
    (hnext : reader.next? = some (some item, reader')) :
    ∃ front, Takes source front reader.position item reader' := by
  cases h with
  | reading hscans =>
      obtain ⟨item', reader'', hnext', htakes⟩ := exists_takes hscans
      obtain ⟨hitem, rfl⟩ := Prod.mk.inj (Option.some.inj (hnext.symm.trans hnext'))
      obtain rfl := Option.some.inj hitem
      exact ⟨_, htakes⟩
  | finished => cases hnext

end Items

/-! A reader and its saved copy. -/

structure Bookmarked.At (source : String) (asked : Asked) (book : Bookmarked) : Prop where
  reader : book.reader.At source asked.reader
  saved : Option.Rel (fun count reader => Reader.At source count reader) asked.saved book.saved

section Operations

variable {source : String} {asked : Asked} {book : Bookmarked} {step : Step} {steps : List Step}

theorem Asked.after_of_goesOn (h : step.goesOn) (hnext : step ≠ .next) :
    (asked.after step).reader = asked.reader := by
  cases step with
  | next => exact absurd rfl hnext
  | restore => cases h
  | _ => rfl

theorem Bookmarked.performAll?_cons {book' book'' : Bookmarked} {answer : Answer}
    {answers : List Answer} (hperform : book.perform? step = some (answer, book'))
    (hall : book'.performAll? steps = some (answers, book'')) :
    book.performAll? (step :: steps) = some (answer :: answers, book'') := by
  rw [performAll?, hperform]
  simp [hall]

/-- Every operation but a move has an answer. -/
theorem Bookmarked.At.perform (h : book.At source asked) (hstep : ¬step.isMove) :
    ∃ answer book', book.perform? step = some (answer, book') ∧
      book'.At source (asked.after step) ∧
      answer.item? =
        if step = .next then some (TokenStream.ofSource source)[asked.reader]? else none := by
  obtain ⟨rest, hremainder, hpending⟩ := h.reader.reads
  cases step with
  | next =>
      obtain ⟨reader, hnext, hat⟩ := h.reader.next
      have hperform : book.perform? .next =
          some (.item (TokenStream.ofSource source)[asked.reader]?,
            { book with reader := reader }) := by
        rw [perform?, hnext]
        rfl
      exact ⟨_, _, hperform, ⟨hat, h.saved⟩, rfl⟩
  | peek => exact ⟨_, _, by rw [perform?, peek?, hremainder]; rfl, h, rfl⟩
  | remainder => exact ⟨_, _, by rw [perform?, hremainder]; rfl, h, rfl⟩
  | atEnd => exact ⟨_, _, rfl, h, rfl⟩
  | advance => exact absurd rfl hstep
  | save => exact ⟨_, _, rfl, ⟨h.reader, .some h.reader⟩, rfl⟩
  | restore =>
      refine ⟨_, _, rfl, ⟨?_, h.saved⟩, rfl⟩
      obtain ⟨reader, copy⟩ := book
      obtain ⟨count, saved⟩ := asked
      obtain ⟨hreader, hsaved⟩ := h
      cases hsaved with
      | none => exact hreader
      | some hcopy => exact hcopy
  | collect =>
      have hstream : ∃ stream, book.reader.stream? = some stream := by
        unfold stream?
        rw [hpending]
        split
        · exact ⟨_, rfl⟩
        · exact ⟨_, rfl⟩
      obtain ⟨stream, hstream⟩ := hstream
      exact ⟨_, book, by rw [perform?, hstream]; rfl, h, rfl⟩

theorem Bookmarked.reader_of_finished {answer : Answer} {book' : Bookmarked}
    (hfinished : book.reader.finished) (hstep : step.goesOn)
    (hperform : book.perform? step = some (answer, book')) : book'.reader = book.reader := by
  cases step with
  | next =>
      rw [perform?, next?, if_pos hfinished] at hperform
      cases hperform
      rfl
  | advance => cases hstep
  | restore => cases hstep
  | atEnd | save =>
      cases hperform
      rfl
  | peek | remainder | collect =>
      simp only [perform?, Option.bind_eq_bind, Option.bind_eq_some_iff, Option.pure_def,
        Option.some.injEq, Prod.mk.injEq] at hperform
      obtain ⟨_, _, _, rfl⟩ := hperform
      rfl

/-- So have all operations in turn, if none of them is a move. -/
theorem Bookmarked.At.performAll (h : book.At source asked)
    (hsteps : ∀ step ∈ steps, ¬step.isMove) :
    ∃ answers book', book.performAll? steps = some (answers, book') ∧
      book.run steps = answers.map some ∧ book'.At source (steps.foldl Asked.after asked) := by
  induction steps generalizing asked book with
  | nil => exact ⟨[], book, rfl, rfl, h⟩
  | cons step rest ih =>
      obtain ⟨hstep, hrest⟩ := List.forall_mem_cons.mp hsteps
      obtain ⟨answer, book', hperform, hat, _⟩ := h.perform hstep
      obtain ⟨answers, book'', hall, hrun, hat'⟩ := ih hat hrest
      refine ⟨answer :: answers, book'', performAll?_cons hperform hall, ?_, hat'⟩
      rw [Bookmarked.run, hperform]
      simp [hrun]

theorem Step.not_isMove_of_goesOn (h : step.goesOn) : ¬step.isMove := by
  cases step <;> simp_all [goesOn, isMove]

/-- The items that a reader gives along a chain of operations are those of its source, one
after the other. -/
theorem Bookmarked.At.items (h : book.At source asked) (hsteps : ∀ step ∈ steps, step.goesOn) :
    ∃ answers book', book.performAll? steps = some (answers, book') ∧
      answers.filterMap Answer.item? = (List.range (steps.count .next)).map fun i =>
        (TokenStream.ofSource source)[asked.reader + i]? := by
  induction steps generalizing asked book with
  | nil => exact ⟨[], book, rfl, rfl⟩
  | cons step rest ih =>
      obtain ⟨hstep, hrest⟩ := List.forall_mem_cons.mp hsteps
      obtain ⟨answer, book', hperform, hat, hitem⟩ := h.perform (Step.not_isMove_of_goesOn hstep)
      obtain ⟨answers, book'', hall, hitems⟩ := ih hat hrest
      refine ⟨answer :: answers, book'', performAll?_cons hperform hall, ?_⟩
      by_cases hnext : step = .next
      · subst hnext
        rw [if_pos rfl] at hitem
        have hshift : ∀ i, (asked.after .next).reader + i = asked.reader + (i + 1) := by
          intro i
          rw [Asked.after]
          dsimp only
          omega
        rw [List.filterMap_cons_some hitem, hitems, List.count_cons_self, List.range_succ_eq_map,
          List.map_cons, List.map_map]
        simp only [hshift]
        rfl
      · rw [if_neg hnext] at hitem
        rw [List.filterMap_cons_none hitem, hitems, List.count_cons_of_ne hnext,
          Asked.after_of_goesOn hstep hnext]

/-- A reader that is finished stays where it is. -/
theorem Bookmarked.At.stays (h : book.At source asked) (hfinished : book.reader.finished)
    (hsteps : ∀ step ∈ steps, step.goesOn) :
    ∃ answers book', book.performAll? steps = some (answers, book') ∧
      book'.reader = book.reader := by
  induction steps generalizing asked book with
  | nil => exact ⟨[], book, rfl, rfl⟩
  | cons step rest ih =>
      obtain ⟨hstep, hrest⟩ := List.forall_mem_cons.mp hsteps
      obtain ⟨answer, book', hperform, hat, _⟩ := h.perform (Step.not_isMove_of_goesOn hstep)
      have hsame := reader_of_finished hfinished hstep hperform
      obtain ⟨answers, book'', hall, hreader⟩ := ih hat (hsame ▸ hfinished) hrest
      exact ⟨answer :: answers, book'', performAll?_cons hperform hall, hreader.trans hsame⟩

end Operations

/-- What can be relied on at a reader that has been asked for `count` items of the source. -/
structure Orderly (source : String) (count : Nat) (book : Bookmarked) : Prop where
  /-- It stands between two characters of its source, or at an end of it. -/
  boundary : book.reader.position ≤ source.utf8ByteSize ∧
    String.Pos.Raw.IsValid source ⟨book.reader.position⟩
  /-- A token moves it on, to what follows the token in the source. -/
  token : ∀ token reader, book.reader.next? = some (some (.ok token), reader) → ¬token.isEnd →
    book.reader.position < reader.position ∧ ∃ before behind,
      source.toList = before ++ (token.value.toList ++ behind) ∧
      token.span = .ofLength (Text.byteLength before) (Text.byteLength token.value.toList) ∧
      reader.position = Text.byteLength before + Text.byteLength token.value.toList ∧
      reader.remainder? = some behind
  /-- The items that it is asked for from then on are those of the source, as long as no other
  copy is taken up. -/
  chain : ∀ steps : List Step, (∀ step ∈ steps, step.goesOn) →
    ∃ answers book', book.performAll? steps = some (answers, book') ∧
      answers.filterMap Answer.item? = (List.range (steps.count .next)).map fun i =>
        (TokenStream.ofSource source)[count + i]?
  /-- Behind a diagnostic it shows the character that the diagnostic is for, as long as no other
  copy is taken up. -/
  refusal : ∀ diagnostic reader,
    book.reader.next? = some (some (.error diagnostic), reader) →
    ∃ c, diagnostic = ⟨.foreignCharacter c, offset reader.position⟩ ∧
      ∀ steps : List Step, (∀ step ∈ steps, step.goesOn) → ∃ answers book',
        Bookmarked.performAll? { book with reader := reader } steps = some (answers, book') ∧
          book'.reader.peek? = some c

theorem Bookmarked.At.orderly {source : String} {asked : Asked} {book : Bookmarked}
    (h : book.At source asked) : Orderly source asked.reader book := by
  refine ⟨h.reader.boundary, ?_, fun steps => h.items, ?_⟩
  · intro token reader hnext hend
    obtain ⟨front, htakes⟩ := h.reader.takes hnext
    cases htakes with
    | @token start kind value behind hle hscans hlexeme =>
        have hpos := lexeme?_pos hlexeme
        have hbehind := hscans.trans (.token hlexeme .here)
        obtain ⟨before, hsource, hstart, _⟩ := hscans.split_source
        simp only [String.toList_ofList]
        exact ⟨by omega, before, behind, hsource, by rw [hstart], by rw [hstart],
          (remainder?_of_scans hbehind).1⟩
    | finished => exact absurd rfl hend
  · intro diagnostic reader hnext
    obtain ⟨front, htakes⟩ := h.reader.takes hnext
    have hat := htakes.reader_at
    cases htakes with
    | @stuck start c behind hscans hseparator hlexeme =>
        refine ⟨c, rfl, fun steps hsteps => ?_⟩
        have hbook : Bookmarked.At source { asked with reader := front.length + 1 }
            { book with reader := ⟨source.toList, start, true⟩ } :=
          ⟨hat, h.saved⟩
        obtain ⟨answers, book', hall, hreader⟩ := hbook.stays rfl hsteps
        refine ⟨answers, book', hall, ?_⟩
        rw [hreader, peek?, (remainder?_of_scans hscans).1]
        rfl

/-- A reader of a source that is never moved by hand always has an answer, wherever its
operations have brought it. It gives the items of the source in order: no more tokens than the
source has bytes, then the end of the input or the diagnostic that the source breaks off with,
and nothing behind that. -/
theorem answers_in_order (source : String) {steps : List Step}
    (hsteps : ∀ step ∈ steps, ¬step.isMove) :
    (∃ (tokens : List Token) (last : Except Diagnostic Token),
      TokenStream.ofSource source = tokens.map .ok ++ [last] ∧
      tokens.length ≤ source.utf8ByteSize ∧ (∀ token ∈ tokens, ¬token.isEnd) ∧
      (last = .ok (.endAt source.utf8ByteSize) ∨
        ∃ c place, last = .error ⟨.foreignCharacter c, place⟩)) ∧
    ∃ (answers : List Answer) (book : Bookmarked),
      Bookmarked.performAll? ⟨.ofSource source, none⟩ steps = some (answers, book) ∧
      run source steps = answers.map some ∧ Orderly source (asked steps) book := by
  constructor
  · obtain ⟨front, position, rest, last, hscans, hstream, hlast⟩ := TokenStream.exists_front source
    refine ⟨front, last, hstream, ?_, hscans.not_isEnd, ?_⟩
    · obtain ⟨_, _, _, hsize⟩ := hscans.split_source
      have hcount := hscans.length_le
      omega
    · rcases hlast with ⟨rfl, rfl⟩ | ⟨c, behind, _, rfl⟩
      · rw [hscans.position_eq]
        exact .inl rfl
      · exact .inr ⟨c, _, rfl⟩
  · have hstart : Bookmarked.At source ⟨0, none⟩ ⟨.ofSource source, none⟩ :=
      ⟨.reading .here, .none⟩
    obtain ⟨answers, book, hall, hrun, hat⟩ := hstart.performAll hsteps
    exact ⟨answers, book, hall, hrun, hat.orderly⟩

/-- A copy from before the diagnostic is taken up again behind it. -/
theorem answers_in_order_restored :
    (∀ step ∈ [Step.next, .save, .next, .next, .peek, .restore, .remainder, .next],
      ¬step.isMove) ∧
    asked [.next, .save, .next, .next, .peek, .restore, .remainder, .next] = 2 ∧
    ∃ (answers : List Answer) (book : Bookmarked),
      Bookmarked.performAll? ⟨.ofSource "a $é", none⟩
        [.next, .save, .next, .next, .peek, .restore, .remainder, .next] = some (answers, book) ∧
      run "a $é" [.next, .save, .next, .next, .peek, .restore, .remainder, .next] =
        answers.map some ∧
      Orderly "a $é" 2 book := by
  have hsteps : ∀ step ∈ [Step.next, .save, .next, .next, .peek, .restore, .remainder, .next],
      ¬step.isMove := by decide
  exact ⟨hsteps, rfl, (answers_in_order "a $é" hsteps).2⟩

end Reader

end Precedence
