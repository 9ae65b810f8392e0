import Mathlib.Data.List.Induction
import Precedence.Proofs.Segmentation
import Precedence.Text.Line

/-!
The line that a byte of a source is on. In UTF-8 the byte of a line feed is part of no other
character, so the line of any byte, also of one inside a character, can be told from the line
feeds alone: it begins behind the last one before the byte, ends behind the first one from
there on, and has as many lines above it as there are line feeds before the byte.
-/

namespace Precedence.Text

/-! Lines by their bytes. -/

def utf8 (text : List Char) : List UInt8 := text.flatMap String.utf8EncodeChar

def lineFeed : UInt8 := 0x0A

/-- Where the line of byte `place` begins: behind the last line feed before that byte. -/
def lineStart (bytes : List UInt8) : (place : Nat) → Nat
  | 0 => 0
  | place + 1 => if bytes[place]? = some lineFeed then place + 1 else lineStart bytes place

/-- Where the line of byte `place` ends: behind the first line feed from that byte on. -/
def lineStop (bytes : List UInt8) (place : Nat) : Nat :=
  match (bytes.drop place).idxOf? lineFeed with
  | some i => place + i + 1
  | none => bytes.length

@[simp] theorem utf8_nil : utf8 [] = [] := rfl

@[simp] theorem utf8_cons (c : Char) (text : List Char) :
    utf8 (c :: text) = String.utf8EncodeChar c ++ utf8 text := List.flatMap_cons

@[simp] theorem utf8_append (a b : List Char) : utf8 (a ++ b) = utf8 a ++ utf8 b :=
  List.flatMap_append

@[simp] theorem length_utf8 (text : List Char) : (utf8 text).length = byteLength text := by
  induction text with
  | nil => rfl
  | cons c text ih =>
      rw [utf8_cons, List.length_append, String.length_utf8EncodeChar, ih, byteLength_cons]

/-- These are the bytes that a string consists of. -/
theorem toByteArray_utf8 (source : String) :
    (utf8 source.toList).toByteArray = source.toByteArray :=
  String.utf8Encode_toList

theorem utf8EncodeChar_lineFeed : String.utf8EncodeChar '\n' = [lineFeed] := by decide

/-- No other character has the byte of a line feed in it. -/
theorem lineFeed_mem_utf8EncodeChar {c : Char} (h : lineFeed ∈ String.utf8EncodeChar c) :
    c = '\n' := by
  have hbyte : ∀ n < 256, lineFeed = UInt8.ofNat n → n = 10 := by
    intro n hn heq
    have hsame := congrArg UInt8.toNat heq
    rw [UInt8.toNat_ofNat', Nat.mod_eq_of_lt hn] at hsame
    exact hsame.symm
  unfold String.utf8EncodeChar at h
  dsimp only at h
  split at h
  · have hcode := hbyte _ (by omega) (List.mem_singleton.mp h)
    exact Char.ext (UInt32.toNat_inj.mp hcode)
  · -- Every byte of a longer character is 128 or more.
    exfalso
    split at h
    · simp only [List.mem_cons, List.not_mem_nil, or_false] at h
      rcases h with h | h
      all_goals exact absurd (hbyte _ (by omega) h) (by omega)
    · split at h
      · simp only [List.mem_cons, List.not_mem_nil, or_false] at h
        rcases h with h | h | h
        all_goals exact absurd (hbyte _ (by omega) h) (by omega)
      · simp only [List.mem_cons, List.not_mem_nil, or_false] at h
        rcases h with h | h | h | h
        all_goals exact absurd (hbyte _ (by omega) h) (by omega)

/-- The bytes of line feeds are its line feeds. -/
theorem count_lineFeed (text : List Char) : (utf8 text).count lineFeed = text.count '\n' := by
  induction text with
  | nil => rfl
  | cons c text ih =>
      rw [utf8_cons, List.count_append, ih]
      by_cases hc : c = '\n'
      · rw [hc, utf8EncodeChar_lineFeed, List.count_singleton_self, List.count_cons_self,
          Nat.add_comm]
      · rw [List.count_cons_of_ne hc,
          List.count_eq_zero.mpr fun hmem => hc (lineFeed_mem_utf8EncodeChar hmem), Nat.zero_add]

theorem lineFeed_notMem_utf8 {text : List Char} (h : '\n' ∉ text) : lineFeed ∉ utf8 text := by
  apply List.count_eq_zero.mp
  rw [count_lineFeed]
  exact List.count_eq_zero.mpr h

/-! Lines by their characters. -/

/-- A text of lines that are all ended by a line feed. -/
inductive Closed : List Char → Prop
  | nil : Closed []
  | line {first rest : List Char} (hfirst : '\n' ∉ first) (hrest : Closed rest) :
      Closed (first ++ '\n' :: rest)

/-- The line around a place in a text is `front ++ back`, with the place between these two.
It stands behind `head` and before `tail`. -/
structure LineAround (head front back tail : List Char) : Prop where
  above : Closed head
  front : '\n' ∉ front
  inside : '\n' ∉ back.dropLast
  below : back.getLast? = some '\n' ∨ tail = []

/-- What stands before a place is the lines above its line and the front of this. -/
theorem exists_above (before : List Char) :
    ∃ head front, before = head ++ front ∧ Closed head ∧ '\n' ∉ front := by
  induction before with
  | nil => exact ⟨[], [], rfl, .nil, List.not_mem_nil⟩
  | cons c before ih =>
      obtain ⟨head, front, rfl, hhead, hfront⟩ := ih
      by_cases hc : c = '\n'
      · subst hc
        exact ⟨'\n' :: head, front, rfl, .line List.not_mem_nil hhead, hfront⟩
      · cases hhead with
        | nil =>
            refine ⟨[], c :: front, rfl, .nil, ?_⟩
            exact List.not_mem_cons_of_ne_of_not_mem (Ne.symm hc) hfront
        | @line first rest hfirst hrest =>
            refine ⟨(c :: first) ++ '\n' :: rest, front, rfl, .line ?_ hrest, hfront⟩
            exact List.not_mem_cons_of_ne_of_not_mem (Ne.symm hc) hfirst

/-- What stands behind a place is the rest of its line and the lines below. -/
theorem exists_below (behind : List Char) :
    ∃ back tail, behind = back ++ tail ∧ '\n' ∉ back.dropLast ∧
      (back.getLast? = some '\n' ∨ tail = []) := by
  induction behind with
  | nil => exact ⟨[], [], rfl, List.not_mem_nil, .inr rfl⟩
  | cons c behind ih =>
      by_cases hc : c = '\n'
      · subst hc
        exact ⟨['\n'], behind, rfl, List.not_mem_nil, .inl rfl⟩
      · obtain ⟨back, tail, rfl, hinside, hbelow⟩ := ih
        cases back with
        | nil =>
            rcases hbelow with hlast | rfl
            · cases hlast
            · exact ⟨[c], [], rfl, List.not_mem_nil, .inr rfl⟩
        | cons c' back =>
            refine ⟨c :: c' :: back, tail, rfl, ?_, ?_⟩
            · rw [List.dropLast_cons_cons]
              exact List.not_mem_cons_of_ne_of_not_mem (Ne.symm hc) hinside
            · rwa [List.getLast?_cons_cons]

/-- The line goes on with the character at the place. -/
theorem LineAround.exists_back {head front back tail behind : List Char} {c : Char}
    (h : LineAround head front back tail) (hbehind : back ++ tail = c :: behind) :
    ∃ others, back = c :: others := by
  cases back with
  | nil =>
      obtain rfl := h.below.resolve_left nofun
      cases hbehind
  | cons c' others =>
      obtain ⟨rfl, _⟩ := List.cons.inj hbehind
      exact ⟨others, rfl⟩

theorem exists_lineAround (before behind : List Char) :
    ∃ head front back tail, before = head ++ front ∧ behind = back ++ tail ∧
      LineAround head front back tail := by
  obtain ⟨head, front, hbefore, habove, hfront⟩ := exists_above before
  obtain ⟨back, tail, hbehind, hinside, hbelow⟩ := exists_below behind
  exact ⟨head, front, back, tail, hbefore, hbehind, habove, hfront, hinside, hbelow⟩

/-! Looking up a line. -/

theorem lines_of_notMem {line : List Char} (h : '\n' ∉ line) (hne : line ≠ []) :
    lines line = [line] := by
  induction line with
  | nil => exact absurd rfl hne
  | cons c line ih =>
      obtain ⟨hc, hline⟩ := List.ne_and_not_mem_of_not_mem_cons h
      rw [lines, if_neg (Ne.symm hc)]
      cases line with
      | nil => rfl
      | cons c' line => rw [ih hline (List.cons_ne_nil c' line)]

theorem lines_append {line : List Char} (h : '\n' ∉ line) (rest : List Char) :
    lines (line ++ '\n' :: rest) = (line ++ ['\n']) :: lines rest := by
  induction line with
  | nil => rw [List.nil_append, lines, if_pos rfl, List.nil_append]
  | cons c line ih =>
      obtain ⟨hc, hline⟩ := List.ne_and_not_mem_of_not_mem_cons h
      rw [List.cons_append, lines, if_neg (Ne.symm hc), ih hline]
      rfl

/-- The lines above are passed over and counted. -/
theorem locate_above {head : List Char} (h : Closed head) (number : Nat) (rest : List Char)
    (column : Nat) :
    locate number (lines (head ++ rest)) (byteLength head + column) =
      locate (number + head.count '\n') (lines rest) column := by
  induction h generalizing number with
  | nil => simp
  | @line first others hfirst _ ih =>
      have hlength : byteLength (first ++ '\n' :: others) =
          byteLength (first ++ ['\n']) + byteLength others := by
        rw [← byteLength_append, List.append_assoc, List.singleton_append]
      have hcount : (first ++ '\n' :: others).count '\n' = 1 + others.count '\n' := by
        rw [List.count_append, List.count_eq_zero.mpr hfirst, List.count_cons_self]
        omega
      rw [List.append_assoc, List.cons_append, lines_append hfirst, locate, hlength,
        if_neg (by omega), if_neg (by simp), hcount, ← Nat.add_assoc number, ← ih]
      congr 1
      omega

namespace LineAround

variable {head front back tail : List Char} (h : LineAround head front back tail)

include h

/-- The rest of the line ends with its only line feed, or it is what is left of the text. -/
theorem back_cases :
    (∃ others, back = others ++ ['\n'] ∧ '\n' ∉ others) ∨ '\n' ∉ back ∧ tail = [] := by
  obtain ⟨_, _, hinside, hbelow⟩ := h
  rcases back.eq_nil_or_concat' with rfl | ⟨others, last, rfl⟩
  · exact .inr ⟨List.not_mem_nil, hbelow.resolve_left nofun⟩
  · rw [List.dropLast_concat] at hinside
    rw [List.getLast?_concat, Option.some.injEq] at hbelow
    by_cases hlast : last = '\n'
    · exact .inl ⟨others, by rw [hlast], hinside⟩
    · refine .inr ⟨?_, hbelow.resolve_left hlast⟩
      simp [hinside, Ne.symm hlast]

/-- The line is found from every byte in it, and from the end of the text if the line is not
ended there. -/
theorem lineAt_eq {column : Nat}
    (hcolumn : column < byteLength back ∨ column = 0 ∧ back = []) :
    lineAt (head ++ front ++ (back ++ tail)) (byteLength (head ++ front) + column) =
      ⟨1 + head.count '\n', front ++ back, byteLength front + column⟩ := by
  have hplace : byteLength (head ++ front) + column ≤
      byteLength (head ++ front ++ (back ++ tail)) := by
    rw [byteLength_append _ (back ++ tail), byteLength_append back]
    rcases hcolumn with hlt | ⟨rfl, rfl⟩ <;> omega
  rw [lineAt, Nat.min_eq_left hplace, List.append_assoc, byteLength_append, Nat.add_assoc,
    locate_above h.above]
  rcases h.back_cases with ⟨others, rfl, hothers⟩ | ⟨hback, rfl⟩
  · have hline : '\n' ∉ front ++ others := by simp [h.front, hothers]
    have hlt : byteLength front + column < byteLength (front ++ others ++ ['\n']) := by
      rw [List.append_assoc, byteLength_append]
      rcases hcolumn with hlt | ⟨_, hnil⟩
      · omega
      · simp at hnil
    rw [show front ++ (others ++ ['\n'] ++ tail) = front ++ others ++ '\n' :: tail by simp,
      lines_append hline, locate, if_pos hlt, List.append_assoc]
  · have hline : '\n' ∉ front ++ back := by simp [h.front, hback]
    rw [List.append_nil]
    by_cases hne : front ++ back = []
    · obtain ⟨rfl, rfl⟩ := List.append_eq_nil_iff.mp hne
      obtain rfl : column = 0 := by simpa using hcolumn
      rfl
    · rw [lines_of_notMem hline hne, locate]
      rcases hcolumn with hlt | ⟨rfl, rfl⟩
      · rw [if_pos (by rw [byteLength_append]; omega)]
      · rw [List.append_nil] at hline ⊢
        rw [Nat.add_zero, if_neg (Nat.lt_irrefl _), if_pos]
        simpa using fun hlast => hline (List.mem_of_getLast? hlast)

end LineAround

/-! The line by its bytes. -/

theorem Closed.eq_nil_or_append {head : List Char} (h : Closed head) :
    head = [] ∨ ∃ others, head = others ++ ['\n'] := by
  induction h with
  | nil => exact .inl rfl
  | @line first rest _ _ ih =>
      right
      rcases ih with rfl | ⟨others, rfl⟩
      · exact ⟨first, rfl⟩
      · exact ⟨first ++ '\n' :: others, by simp⟩

theorem lineStart_append {head front : List UInt8}
    (hhead : head = [] ∨ ∃ others, head = others ++ [lineFeed]) (hfront : lineFeed ∉ front)
    (rest : List UInt8) :
    lineStart (head ++ (front ++ rest)) (head.length + front.length) = head.length := by
  induction front using List.reverseRecOn generalizing rest with
  | nil =>
      rcases hhead with rfl | ⟨others, rfl⟩
      · rfl
      · simp [lineStart]
  | append_singleton front byte ih =>
      rw [List.mem_append, not_or] at hfront
      have hbyte : byte ≠ lineFeed := fun hsame => hfront.2 (by simp [hsame])
      rw [List.length_append, List.length_singleton, ← Nat.add_assoc, lineStart, if_neg,
        List.append_assoc]
      · exact ih hfront.1 (byte :: rest)
      · simpa using hbyte

theorem idxOf?_append_cons {α : Type} [BEq α] [LawfulBEq α] {front : List α} {a : α}
    (h : a ∉ front) (rest : List α) : (front ++ a :: rest).idxOf? a = some front.length := by
  apply List.idxOf?_eq_some_iff.mpr
  refine ⟨by simp, by simp, ?_⟩
  intro i hi hsame
  rw [List.getElem_append_left hi] at hsame
  exact h (hsame ▸ List.getElem_mem hi)

theorem lineStop_append {others : List UInt8} (h : lineFeed ∉ others) (before rest : List UInt8) :
    lineStop (before ++ (others ++ lineFeed :: rest)) before.length =
      before.length + (others ++ [lineFeed]).length := by
  rw [lineStop, List.drop_left, idxOf?_append_cons h]
  simp [Nat.add_assoc]

theorem lineStop_of_notMem {back : List UInt8} (h : lineFeed ∉ back) (before : List UInt8) :
    lineStop (before ++ back) before.length = before.length + back.length := by
  rw [lineStop, List.drop_left, List.idxOf?_eq_none_iff.mpr h, List.length_append]

namespace LineAround

variable {head front back tail : List Char} (h : LineAround head front back tail)
  {column : Nat} (hcolumn : column < byteLength back ∨ column = 0 ∧ back = [])

include h hcolumn

/-- The byte that is looked up cuts the rest of the line in two. There is no line feed in the
first part, and none but the one at the end in the second. -/
theorem exists_bytes :
    ∃ first second, utf8 back = first ++ second ∧ first.length = column ∧ lineFeed ∉ first ∧
      ((∃ others, second = others ++ [lineFeed] ∧ lineFeed ∉ others) ∨
        lineFeed ∉ second ∧ tail = []) := by
  refine ⟨(utf8 back).take column, (utf8 back).drop column,
    (List.take_append_drop column (utf8 back)).symm, ?_, ?_⟩
  · rw [List.length_take, length_utf8]
    rcases hcolumn with hlt | ⟨rfl, _⟩ <;> omega
  · rcases h.back_cases with ⟨others, rfl, hothers⟩ | ⟨hback, htail⟩
    · have hbytes := lineFeed_notMem_utf8 hothers
      have hle : column ≤ (utf8 others).length := by
        rcases hcolumn with hlt | ⟨_, hnil⟩
        · rw [byteLength_append] at hlt
          rw [length_utf8]
          exact Nat.le_of_lt_succ hlt
        · simp at hnil
      have hend : utf8 (others ++ ['\n']) = utf8 others ++ [lineFeed] := by
        rw [utf8_append, utf8_cons, utf8EncodeChar_lineFeed, utf8_nil, List.append_nil]
      rw [hend, List.take_append_of_le_length hle, List.drop_append_of_le_length hle]
      exact ⟨fun hmem => hbytes (List.mem_of_mem_take hmem),
        .inl ⟨_, rfl, fun hmem => hbytes (List.mem_of_mem_drop hmem)⟩⟩
    · have hbytes := lineFeed_notMem_utf8 hback
      exact ⟨fun hmem => hbytes (List.mem_of_mem_take hmem),
        .inr ⟨fun hmem => hbytes (List.mem_of_mem_drop hmem), htail⟩⟩

/-- The line feeds tell the ends of the line and how many lines are above it. -/
theorem utf8_eq :
    let bytes := utf8 (head ++ front ++ (back ++ tail))
    let place := byteLength (head ++ front) + column
    lineStart bytes place = byteLength head ∧
      lineStop bytes place = byteLength head + byteLength (front ++ back) ∧
      (bytes.take place).count lineFeed = head.count '\n' := by
  intro bytes place
  obtain ⟨first, second, hback, hlength, hfirst, hsecond⟩ := h.exists_bytes hcolumn
  have hinside : lineFeed ∉ utf8 front ++ first := by
    simp [lineFeed_notMem_utf8 h.front, hfirst]
  have hbytes : bytes = utf8 head ++ ((utf8 front ++ first) ++ (second ++ utf8 tail)) := by
    simp [bytes, hback]
  have hplace : place = (utf8 head).length + (utf8 front ++ first).length := by
    simp [place, hlength, Nat.add_assoc]
  refine ⟨?_, ?_, ?_⟩
  · rw [hbytes, hplace, lineStart_append _ hinside, length_utf8]
    rcases h.above.eq_nil_or_append with rfl | ⟨others, rfl⟩
    · exact .inl rfl
    · exact .inr ⟨utf8 others, by simp [utf8EncodeChar_lineFeed]⟩
  · have hline : byteLength head + byteLength (front ++ back) = place + second.length := by
      rw [hplace, ← length_utf8 (front ++ back), utf8_append, hback]
      simp [Nat.add_assoc]
    rw [hline, hbytes, ← List.append_assoc]
    rw [← List.length_append] at hplace
    rw [hplace]
    rcases hsecond with ⟨others, rfl, hothers⟩ | ⟨hsecond, rfl⟩
    · rw [List.append_assoc others]
      exact lineStop_append hothers _ _
    · rw [utf8_nil, List.append_nil]
      exact lineStop_of_notMem hsecond _
  · rw [hbytes, ← List.append_assoc, hplace, ← List.length_append, List.take_left,
      List.count_append, List.count_eq_zero.mpr hinside, count_lineFeed, Nat.add_zero]

/-- The bytes between these ends are those of the line. -/
theorem extract_eq :
    let bytes := utf8 (head ++ front ++ (back ++ tail))
    let place := byteLength (head ++ front) + column
    bytes.extract (lineStart bytes place) (lineStop bytes place) = utf8 (front ++ back) := by
  intro bytes place
  obtain ⟨hstart, hstop, _⟩ := h.utf8_eq hcolumn
  have hbytes : bytes = utf8 head ++ (utf8 (front ++ back) ++ utf8 tail) := by simp [bytes]
  rw [hstart, hstop, List.extract_eq_take_drop, hbytes, ← length_utf8 head,
    ← length_utf8 (front ++ back), Nat.add_sub_cancel_left, List.drop_left, List.take_left]

end LineAround

/-- Every byte of a text, and the end of it, is on a line. -/
theorem exists_line {text : List Char} {place : Nat} (h : place ≤ byteLength text) :
    ∃ head front back tail column, text = head ++ front ++ (back ++ tail) ∧
      place = byteLength (head ++ front) + column ∧ LineAround head front back tail ∧
      (column < byteLength back ∨ column = 0 ∧ back = []) := by
  rcases Nat.lt_or_eq_of_le h with hlt | rfl
  · obtain ⟨before, c, behind, rfl, hle, hlt⟩ := exists_character hlt
    obtain ⟨head, front, back, tail, rfl, hbehind, haround⟩ :=
      exists_lineAround before (c :: behind)
    refine ⟨head, front, back, tail, place - byteLength (head ++ front), by rw [hbehind],
      by omega, haround, .inl ?_⟩
    obtain ⟨others, rfl⟩ := haround.exists_back hbehind.symm
    rw [byteLength_cons]
    omega
  · obtain ⟨head, front, back, tail, rfl, hnil, haround⟩ := exists_lineAround text []
    obtain ⟨rfl, rfl⟩ := List.append_eq_nil_iff.mp hnil.symm
    exact ⟨head, front, [], [], 0, by simp, by simp, haround, .inr ⟨rfl, rfl⟩⟩

/-- The line that is looked up for a position, or for the end of the source if the position
is past that, is the one that the line feeds around it tell: its number is one more than that
of the line feeds before, its text are the bytes from the last of these to the next one, and
its column counts the bytes in between. -/
theorem lineAt_by_feeds (source : List Char) (position : Nat) :
    let bytes := utf8 source
    let place := min position bytes.length
    let line := lineAt source position
    line.number = 1 + (bytes.take place).count lineFeed ∧
      utf8 line.text = bytes.extract (lineStart bytes place) (lineStop bytes place) ∧
      line.column = place - lineStart bytes place := by
  intro bytes place line
  have hplace : place ≤ byteLength source := by
    rw [← length_utf8]
    exact Nat.min_le_right _ _
  have hline : line = lineAt source place := by
    simp [line, place, bytes, lineAt]
  obtain ⟨head, front, back, tail, column, hsource, hcolumn, haround, hinside⟩ :=
    exists_line hplace
  have hfound := haround.lineAt_eq hinside
  have hbytes := haround.extract_eq hinside
  obtain ⟨hstart, _, hcount⟩ := haround.utf8_eq hinside
  rw [← hsource, ← hcolumn] at hfound hbytes hstart hcount
  rw [hline, hfound, hcount, hbytes, hstart]
  refine ⟨rfl, rfl, ?_⟩
  rw [hcolumn, byteLength_append]
  dsimp only
  omega

/-- The last line has no line feed, and the position is inside its only character. -/
example : lineAt "a\n\né".toList 4 = ⟨3, ['é'], 1⟩ := by decide

end Precedence.Text
