import Precedence.Proofs.Headline
import Precedence.Proofs.Lines

/-!
Reports point at what they are about. Nothing but characters of a single byte stands before
the place that a diagnostic is for, or it would be for one of these. So the bytes in front of
that place are as many as the characters there, and the arrow, which is drawn by bytes below a
line that is shown by characters, ends below the right one: what is left out of the line in
front is left out of the arrow too, whatever the number of the line takes.
-/

namespace Precedence

namespace Text

/-! The part of a line that is shown. -/

/-- A line falls into the spaces before what is shown of it, this, and the blanks behind. -/
structure Framed (spaces shown blanks : List Char) : Prop where
  spaces : ∀ c ∈ spaces, c = ' '
  first : ∀ c ∈ shown.head?, c ≠ ' '
  last : ∀ c ∈ shown.getLast?, ¬isBlank c
  blanks : ∀ c ∈ blanks, isBlank c

theorem exists_trimEnd (text : List Char) :
    ∃ blanks, text = trimEnd text ++ blanks ∧ (∀ c ∈ (trimEnd text).getLast?, ¬isBlank c) ∧
      ∀ c ∈ blanks, isBlank c := by
  induction text with
  | nil => exact ⟨[], rfl, nofun, nofun⟩
  | cons c text ih =>
      obtain ⟨blanks, htext, hlast, hblanks⟩ := ih
      rw [trimEnd]
      split
      · rename_i hnil
        rw [hnil, List.nil_append] at htext
        split
        · rename_i hc
          exact ⟨c :: blanks, by rw [htext, List.nil_append], nofun,
            List.forall_mem_cons.mpr ⟨hc, hblanks⟩⟩
        · rename_i hc
          exact ⟨blanks, by rw [htext, List.singleton_append], by simpa using hc, hblanks⟩
      · rename_i kept hne
        refine ⟨blanks, by rw [List.cons_append, ← htext], ?_, hblanks⟩
        obtain ⟨first, rest, hkept⟩ := List.exists_cons_of_ne_nil hne
        rw [hkept, List.getLast?_cons_cons, ← hkept]
        exact hlast

namespace Framed

variable {spaces shown blanks : List Char} (h : Framed spaces shown blanks)

include h

/-- A character that is not blank is shown. -/
theorem exists_part {front others : List Char} {c : Char}
    (hline : spaces ++ shown ++ blanks = front ++ c :: others) (hc : ¬isBlank c) :
    ∃ part rest, shown = part ++ c :: rest ∧ front = spaces ++ part := by
  rw [List.append_assoc] at hline
  rcases Scans.append_cons_cases hline with ⟨part, hfront, hrest⟩ | ⟨_, hspaces⟩
  · rcases Scans.append_cons_cases hrest with ⟨_, _, hblanks⟩ | ⟨rest, hshown⟩
    · exact absurd (h.blanks c (by simp [hblanks])) hc
    · exact ⟨part, rest, hshown, hfront⟩
  · obtain rfl := h.spaces c (by simp [hspaces])
    exact absurd (by decide) hc

/-- The line feed that ends a line is not shown. -/
theorem lineFeed_notMem (hline : '\n' ∉ (spaces ++ shown ++ blanks).dropLast) : '\n' ∉ shown := by
  rcases shown.eq_nil_or_concat' with rfl | ⟨others, last, rfl⟩
  · exact List.not_mem_nil
  · have hlast := h.last last (by simp)
    have hothers : '\n' ∉ others := by
      rw [List.append_assoc, List.append_assoc, List.dropLast_append_of_ne_nil (by simp),
        List.dropLast_append_of_ne_nil (by simp)] at hline
      exact fun hmem => hline (by simp [hmem])
    rw [List.mem_append, List.mem_singleton, not_or]
    refine ⟨hothers, ?_⟩
    rintro rfl
    exact hlast (by decide)

end Framed

/-- A line has no line feed but at its end. -/
theorem LineAround.notMem_dropLast {head front back tail : List Char}
    (h : LineAround head front back tail) : '\n' ∉ (front ++ back).dropLast := by
  by_cases hback : back = []
  · subst hback
    rw [List.append_nil]
    exact fun hmem => h.front (List.dropLast_subset front hmem)
  · rw [List.dropLast_append_of_ne_nil hback, List.mem_append, not_or]
    exact ⟨h.front, h.inside⟩

/-! Bytes and characters. -/

theorem byteLength_eq_zero {text : List Char} (h : byteLength text = 0) : text = [] := by
  cases text with
  | nil => rfl
  | cons c text =>
      have hpos := c.utf8Size_pos
      rw [byteLength_cons] at h
      omega

theorem val_le_of_isWordPart {c : Char} (h : isWordPart c) : c.val ≤ 0x7F := by
  rcases Bool.or_eq_true_iff.mp h with hstart | hdigit
  · rcases Bool.or_eq_true_iff.mp hstart with halpha | hunderscore
    · rcases Bool.or_eq_true_iff.mp halpha with hupper | hlower
      · exact UInt32.le_trans (of_decide_eq_true hupper).2 (by decide)
      · have hle := of_decide_eq_true (Bool.and_eq_true_iff.mp hlower).2
        exact UInt32.le_trans hle (by decide)
    · rw [of_decide_eq_true hunderscore]
      decide
  · have hle := of_decide_eq_true (Bool.and_eq_true_iff.mp hdigit).2
    exact UInt32.le_trans hle (by decide)

theorem utf8Size_of_isSourceChar {c : Char} (h : isSourceChar c) : c.utf8Size = 1 := by
  apply Char.utf8Size_eq_one_iff.mpr
  simp only [isSourceChar, Bool.or_eq_true] at h
  rcases h with (hseparator | hword) | hsymbol
  · simp only [isSeparator, Bool.or_eq_true, decide_eq_true_eq] at hseparator
    rcases hseparator with ((rfl | rfl) | rfl) | rfl <;> decide
  · exact val_le_of_isWordPart hword
  · have hall : "()[],.+-*/%=<>?!:~&^|@".toList.all (·.val ≤ 0x7F) := by decide
    simpa using List.all_eq_true.mp hall c (List.contains_iff_mem.mp hsymbol)

theorem byteLength_of_isSourceChar {text : List Char} (h : ∀ c ∈ text, isSourceChar c) :
    byteLength text = text.length := by
  induction text with
  | nil => rfl
  | cons c text ih =>
      obtain ⟨hc, htext⟩ := List.forall_mem_cons.mp h
      rw [byteLength_cons, utf8Size_of_isSourceChar hc, ih htext, List.length_cons, Nat.add_comm]

end Text

open Text

/-- No item of a source is for a place behind its first character that sources are not
written with. -/
theorem TokenStream.exists_scanned {source : String}
    (hlength : source.utf8ByteSize < 0x100000000) :
    ∃ scanned rest, source.toList = scanned ++ rest ∧ (∀ c ∈ scanned, isSourceChar c) ∧
      (∀ token, .ok token ∈ ofSource source → token.span.start ≤ byteLength scanned) ∧
      ∀ diagnostic, .error diagnostic ∈ ofSource source →
        diagnostic.position ≤ byteLength scanned := by
  obtain ⟨front, position, rest, hscans, htokens, hbroken⟩ := exists_items source
  obtain ⟨scanned, hsource, hposition, hsize⟩ := hscans.split_source
  have hbound : position < 0x100000000 := by omega
  refine ⟨scanned, rest, hsource, ?_, ?_, ?_⟩
  · rw [hsource] at hscans
    exact hscans.isSourceChar
  · intro token htoken
    rw [← hposition]
    rcases htokens token htoken with hmem | ⟨_, rfl⟩
    · obtain ⟨_, hlt, hle⟩ := (hscans.ordered hbound).2 token hmem
      omega
    · rw [Token.endAt_of_lt hbound]
  · intro diagnostic hdiagnostic
    obtain ⟨c, behind, _, rfl⟩ := hbroken diagnostic hdiagnostic
    rw [← hposition]
    exact Nat.le_of_eq (offset_of_lt hbound)

/-- Before the place that a diagnostic is for, a source has no characters but those that
sources are written with. -/
theorem Parser.exists_split_of_refusal {parser : Parser} {source : String} {diagnostic : Diagnostic}
    (hlength : source.utf8ByteSize < 0x100000000) (h : parser.parse source = .error diagnostic) :
    ∃ before behind, source.toList = before ++ behind ∧ diagnostic.position = byteLength before ∧
      ∀ c ∈ before, isSourceChar c := by
  obtain ⟨scanned, rest, hscanned, hall, htokens, hbroken⟩ := TokenStream.exists_scanned hlength
  have hle : diagnostic.position ≤ byteLength scanned := by
    rcases parse_eq_error h with hmem | ⟨_, token, hmem, hposition⟩
    · exact hbroken diagnostic hmem
    · rw [hposition]
      exact htokens token hmem
  obtain ⟨_, hvalid, _⟩ := parser.refusal_points hlength h
  obtain ⟨before, behind, hsource, hplace⟩ := String.Pos.Raw.isValid_iff_exists_append.mp hvalid
  have hposition : diagnostic.position = byteLength before.toList := by
    rw [byteLength_toList]
    exact congrArg String.Pos.Raw.byteIdx hplace
  rw [hsource, String.toList_append] at hscanned
  refine ⟨before.toList, behind.toList, by rw [hsource, String.toList_append], hposition, ?_⟩
  rcases List.append_eq_append_iff.mp hscanned with ⟨others, hothers, _⟩ | ⟨others, hothers, _⟩
  · intro c hc
    exact hall c (by simp [hothers, hc])
  · -- The place is not behind what is scanned, so there is nothing in between.
    have hnil : byteLength others = 0 := by
      rw [hothers, byteLength_append] at hposition
      omega
    rw [hothers, byteLength_eq_zero hnil, List.append_nil]
    exact hall

/-- The line that a diagnostic is in, around its place: so many characters stand before this
place in the line as its column counts bytes. -/
theorem Parser.exists_line_of_refusal {parser : Parser} {source : String} {diagnostic : Diagnostic}
    (hlength : source.utf8ByteSize < 0x100000000) (h : parser.parse source = .error diagnostic) :
    let bytes := utf8 source.toList
    let position := diagnostic.position
    ∃ head front back tail, LineAround head front back tail ∧
      source.toList = head ++ front ++ (back ++ tail) ∧ position = byteLength (head ++ front) ∧
      diagnostic.line source =
        ⟨1 + (bytes.take position).count lineFeed, front ++ back, front.length⟩ ∧
      lineStart bytes position = byteLength head ∧
      bytes.extract (lineStart bytes position) (lineStop bytes position) =
        utf8 (front ++ back) := by
  intro bytes position
  obtain ⟨before, behind, hsource, hposition, hbefore⟩ := exists_split_of_refusal hlength h
  obtain ⟨head, front, back, tail, rfl, rfl, haround⟩ := exists_lineAround before behind
  have hinside : 0 < byteLength back ∨ 0 = 0 ∧ back = [] := by
    rcases Nat.eq_zero_or_pos (byteLength back) with hnil | hpos
    · exact .inr ⟨rfl, byteLength_eq_zero hnil⟩
    · exact .inl hpos
  have hwide : byteLength front = front.length :=
    byteLength_of_isSourceChar fun c hc => hbefore c (List.mem_append_right head hc)
  have hline := haround.lineAt_eq hinside
  have hextract := haround.extract_eq hinside
  obtain ⟨hstart, _, hcount⟩ := haround.utf8_eq hinside
  rw [Nat.add_zero, ← hsource, ← hposition] at hline hextract hstart hcount
  refine ⟨head, front, back, tail, haround, hsource, hposition, ?_, hstart, hextract⟩
  rw [Diagnostic.line, hline, hcount, Nat.add_zero, hwide]

/-! The lines of a report. -/

theorem Text.toList_pushn (c : Char) (n : Nat) : ("".pushn c n).toList = List.replicate n c := by
  rw [String.pushn_eq_repeat_push]
  induction n with
  | zero => rfl
  | succ n ih => rw [Nat.repeat, String.toList_push, ih, List.replicate_succ']

/-- Texts without line feeds are the lines that they are written on. -/
theorem Text.lines_join {texts : List String} (h : ∀ text ∈ texts, OneLine text) :
    lines (String.join (texts.map (· ++ "\n"))).toList = texts.map (·.toList ++ ['\n']) := by
  induction texts with
  | nil => rfl
  | cons text texts ih =>
      obtain ⟨htext, htexts⟩ := List.forall_mem_cons.mp h
      rw [List.map_cons, List.map_cons, String.join_cons, ← ih htexts, String.toList_append,
        String.toList_append, List.append_assoc]
      exact lines_append htext _

namespace Diagnostic

/-- What is shown of a line, and what the arrow below leaves out in front of it. -/
theorem exists_framed (line : Line) :
    ∃ spaces blanks, line.text = spaces ++ shownText line ++ blanks ∧
      Framed spaces (shownText line) blanks ∧
      shaftLength line = line.column - spaces.length := by
  obtain ⟨number, text, column⟩ := line
  obtain ⟨blanks, hrest, hlast, hblanks⟩ := exists_trimEnd (text.dropWhile (· = ' '))
  refine ⟨text.takeWhile (· = ' '), blanks, ?_, ⟨?_, ?_, hlast, hblanks⟩, rfl⟩
  · rw [shownText, List.append_assoc, ← hrest, List.takeWhile_append_dropWhile]
  · intro c hc
    simpa using List.mem_takeWhile_imp hc
  · intro c hc
    have hhead := List.head?_dropWhile_not (· = ' ') text
    rw [shownText] at hc
    generalize trimEnd (text.dropWhile (· = ' ')) = shown at hrest hc
    cases shown with
    | nil => cases hc
    | cons first shown =>
        obtain rfl := Option.some.inj hc
        rw [hrest] at hhead
        simpa using hhead

def numbered (number : String) (shown : List Char) : String :=
  number ++ " | " ++ String.ofList shown

/-- An arrow that ends behind `shaft` bytes of what is shown. -/
def arrow (number : String) (shaft : Nat) : String :=
  margin number ++ " " ++ "".pushn '-' shaft ++ "^"

theorem toList_margin (number : String) :
    (margin number).toList = List.replicate (number.length + 1) ' ' ++ ['|'] := by
  rw [margin, String.toList_append, toList_pushn]
  rfl

theorem toList_arrow (number : String) (shaft : Nat) :
    (arrow number shaft).toList = List.replicate (number.length + 1) ' ' ++
      '|' :: ' ' :: List.replicate shaft '-' ++ ['^'] := by
  simp [arrow, toList_margin, toList_pushn]

/-- The bars of the last three lines stand one below the other. -/
theorem idxOf?_bar {number : String} (hnumber : '|' ∉ number.toList) (shown : List Char)
    (shaft : Nat) :
    ∀ line ∈ [margin number, numbered number shown, arrow number shaft],
      line.toList.idxOf? '|' = some (number.length + 1) := by
  have hmargin : (margin number).toList.idxOf? '|' = some (number.length + 1) := by
    rw [toList_margin, idxOf?_append_cons (by simp), List.length_replicate]
  have hnumbered : (numbered number shown).toList.idxOf? '|' = some (number.length + 1) := by
    have hline : (numbered number shown).toList =
        (number.toList ++ [' ']) ++ '|' :: ' ' :: shown := by
      simp [numbered]
    rw [hline, idxOf?_append_cons (by simp [hnumber]), List.length_append, String.length_toList,
      List.length_singleton]
  have harrow : (arrow number shaft).toList.idxOf? '|' = some (number.length + 1) := by
    rw [toList_arrow, List.append_assoc, List.cons_append, idxOf?_append_cons (by simp),
      List.length_replicate]
  simp [hmargin, hnumbered, harrow]

/-- The arrow has one tip, behind the shaft. -/
theorem idxOf?_tip (number : String) (shaft : Nat) :
    (arrow number shaft).toList.count '^' = 1 ∧
      (arrow number shaft).toList.idxOf? '^' = some ((number ++ " | ").length + shaft) := by
  rw [toList_arrow]
  have hnone : '^' ∉
      List.replicate (number.length + 1) ' ' ++ '|' :: ' ' :: List.replicate shaft '-' := by
    simp
  constructor
  · rw [List.count_append, List.count_eq_zero.mpr hnone, List.count_singleton_self]
  · have hbar : " | ".length = 3 := by decide
    rw [idxOf?_append_cons hnone, String.length_append, hbar]
    simp only [List.length_append, List.length_replicate, List.length_cons, Option.some.injEq]
    omega

/-- A report has five lines, if its arrow can be drawn. -/
theorem exists_report {diagnostic : Diagnostic} {source : String} (h : diagnostic.OneLine)
    (hshown : '\n' ∉ shownText (diagnostic.line source))
    (hwidth : shaftLength (diagnostic.line source) < 65535) :
    let line := diagnostic.line source
    let number := line.number.repr
    ∃ report, diagnostic.report? source = some report ∧
      lines report.toList = [diagnostic.headline, "-> <input>", margin number,
        numbered number (shownText line), arrow number (shaftLength line)].map
          (·.toList ++ ['\n']) := by
  intro line number
  have hlines : ∀ text ∈ [diagnostic.headline, "-> <input>", margin number,
      numbered number (shownText line), arrow number (shaftLength line)], Text.OneLine text := by
    simp only [List.forall_mem_cons]
    refine ⟨h.headline, by decide, ?_, ?_, ?_, nofun⟩
    · simp [Text.OneLine, toList_margin]
    · rw [numbered, oneLine_append, oneLine_append]
      exact ⟨⟨oneLine_repr line.number, by decide⟩, by simpa [Text.OneLine] using hshown⟩
    · simp [Text.OneLine, toList_arrow]
  refine ⟨_, if_pos hwidth, ?_⟩
  exact lines_join hlines

end Diagnostic

/-- The report of a diagnostic points at what it is about, whatever the table and the limit. It
has five lines. The fourth shows the line of the source that the diagnostic is in, behind the
number of this line, and the only tip of the arrow in the fifth stands below the character at
the place of the diagnostic, unless this is blank. At the end of the source the tip stands
behind all that is shown. The last three lines have their bars below each other. -/
theorem Parser.report_aligned (parser : Parser) {source : String} {diagnostic : Diagnostic}
    (hlength : source.utf8ByteSize < 0x100000000)
    (hwidth : Diagnostic.shaftLength (diagnostic.line source) < 65535)
    (h : parser.parse source = .error diagnostic) :
    let bytes := utf8 source.toList
    let position := diagnostic.position
    let label := (1 + (bytes.take position).count lineFeed).repr ++ " | "
    ∃ (report headline margin numbered arrow : String) (spaces shown blanks : List Char)
      (bar : Nat),
      diagnostic.report? source = some report ∧
      lines report.toList =
        [headline, "-> <input>", margin, numbered, arrow].map (·.toList ++ ['\n']) ∧
      numbered.toList = label.toList ++ shown ∧
      utf8 (spaces ++ shown ++ blanks) =
        bytes.extract (lineStart bytes position) (lineStop bytes position) ∧
      Framed spaces shown blanks ∧
      (∀ line ∈ [margin, numbered, arrow], line.toList.idxOf? '|' = some bar) ∧
      arrow.toList.count '^' = 1 ∧
      (∀ c behind, dropBytes? position source.toList = some (c :: behind) → ¬isBlank c →
        ∃ part rest, shown = part ++ c :: rest ∧
          lineStart bytes position + byteLength (spaces ++ part) = position ∧
          arrow.toList.idxOf? '^' = some (label.length + part.length)) ∧
      (position = source.utf8ByteSize →
        ∃ tip, arrow.toList.idxOf? '^' = some tip ∧ numbered.length ≤ tip) := by
  dsimp only
  obtain ⟨head, front, back, tail, haround, hsource, hposition, hline, hstart, hextract⟩ :=
    exists_line_of_refusal hlength h
  obtain ⟨spaces, blanks, htext, hframed, hshaft⟩ :=
    Diagnostic.exists_framed (diagnostic.line source)
  have hshown : '\n' ∉ Diagnostic.shownText (diagnostic.line source) := by
    apply hframed.lineFeed_notMem
    rw [← htext, hline]
    exact haround.notMem_dropLast
  obtain ⟨report, hreport, hlines⟩ :=
    Diagnostic.exists_report (parser.oneLine_of_refusal h) hshown hwidth
  generalize Diagnostic.shownText (diagnostic.line source) = shown at htext hframed hlines
  generalize Diagnostic.shaftLength (diagnostic.line source) = shaft at hshaft hlines
  rw [hline] at htext hshaft hlines
  dsimp only at htext hshaft hlines
  generalize 1 + ((utf8 source.toList).take diagnostic.position).count lineFeed = number
    at hlines ⊢
  obtain ⟨hone, htip⟩ := Diagnostic.idxOf?_tip number.repr shaft
  refine ⟨report, _, _, _, _, spaces, shown, blanks, _, hreport, hlines, ?_, ?_, hframed,
    Diagnostic.idxOf?_bar (notMem_repr (by decide) _) shown shaft, hone, ?_, ?_⟩
  · rw [Diagnostic.numbered, String.toList_append, String.toList_ofList]
  · rw [← htext]
    exact hextract.symm
  · intro c others hdrop hc
    rw [hsource, hposition, dropBytes?_byteLength_append] at hdrop
    obtain ⟨behind, rfl⟩ := haround.exists_back (Option.some.inj hdrop)
    obtain ⟨part, rest, rfl, rfl⟩ := hframed.exists_part htext.symm hc
    refine ⟨part, rest, rfl, ?_, ?_⟩
    · rw [hstart, ← byteLength_append]
      exact hposition.symm
    · rw [htip, hshaft, List.length_append, Nat.add_sub_cancel_left]
  · intro hend
    refine ⟨_, htip, ?_⟩
    have hback : back = [] := by
      apply byteLength_eq_zero
      rw [← byteLength_toList, hsource, byteLength_append _ (back ++ tail), byteLength_append back,
        hposition] at hend
      omega
    rw [hback, List.append_nil] at htext
    rw [hshaft, htext, Diagnostic.numbered, String.length_append, String.length_ofList,
      List.length_append, List.length_append]
    omega

/-- The spaces in front of the second line are left out, and the character of two bytes stands
behind the parenthesis. -/
theorem Parser.report_aligned_second_line :
    "x = 1,\n  y | ) + é".utf8ByteSize < 0x100000000 ∧
      Diagnostic.shaftLength
        (Diagnostic.line ⟨.unmatchedDelimiter none ")", 13⟩ "x = 1,\n  y | ) + é") < 65535 ∧
      (ofC 8).parse "x = 1,\n  y | ) + é" = .error ⟨.unmatchedDelimiter none ")", 13⟩ ∧
      ∃ (report headline margin numbered arrow : String) (part rest : List Char),
        Diagnostic.report? ⟨.unmatchedDelimiter none ")", 13⟩ "x = 1,\n  y | ) + é" =
          some report ∧
        lines report.toList =
          [headline, "-> <input>", margin, numbered, arrow].map (·.toList ++ ['\n']) ∧
        numbered.toList = "2 | ".toList ++ (part ++ ')' :: rest) ∧
        arrow.toList.idxOf? '^' = some (4 + part.length) := by
  have hlength : "x = 1,\n  y | ) + é".utf8ByteSize < 0x100000000 := by decide +kernel
  have hwidth : Diagnostic.shaftLength
      (Diagnostic.line ⟨.unmatchedDelimiter none ")", 13⟩ "x = 1,\n  y | ) + é") < 65535 := by
    decide +kernel
  have h : (ofC 8).parse "x = 1,\n  y | ) + é" = .error ⟨.unmatchedDelimiter none ")", 13⟩ := by
    decide +kernel
  have hlabel : (1 + ((utf8 "x = 1,\n  y | ) + é".toList).take 13).count lineFeed).repr ++ " | " =
      "2 | " := by
    decide +kernel
  have hdrop : dropBytes? 13 "x = 1,\n  y | ) + é".toList = some (')' :: " + é".toList) := by
    decide +kernel
  obtain ⟨report, headline, margin, numbered, arrow, _, shown, _, _, hreport, hlines, hnumbered,
    _, _, _, _, hcharacter, _⟩ := report_aligned (.ofC 8) hlength hwidth h
  obtain ⟨part, rest, rfl, _, htip⟩ := hcharacter ')' " + é".toList hdrop (by decide)
  rw [hlabel] at hnumbered htip
  exact ⟨hlength, hwidth, h, report, headline, margin, numbered, arrow, part, rest, hreport,
    hlines, hnumbered, htip⟩

end Precedence
