import TreeLayout.Proofs.Text.Places
import TreeLayout.Proofs.Tree.Placement

/-!
# Lines and offsets of a source

A source is read by byte offsets: where its lines start, and where the characters of a line stand.
Between the starts of lines that follow each other stand the contents of the lines, each with a line
end after it (`SourceText.Contents`). Put together with line ends they are the text, and a line is
its content without the carriage returns that end it.

A position on a line, at most at its end, has an offset between two characters, and the first
characters of the line stand before it (`SourceText.standsAt_take`). Offsets order the positions of
a source as lines and columns do (`SourceText.lt_of_positionLt`). All of it is put together in
`SourceText.offsets_index_text`.
-/

namespace TreeLayout

open Text (byteSize linesSize segments joinSegments trimEnd StandsAt IsBoundary)

namespace Text

/-- Pieces that are put together start where those before them, with their line ends, stop. -/
theorem exists_joinSegments_eq (ss : List (List Char)) (s : List Char) :
    ∃ before, joinSegments (ss ++ [s]) = before ++ s ∧ byteSize before = linesSize ss := by
  refine ⟨joinSegments (ss ++ [[]]), ?_, ?_⟩
  · rw [← joinSegments_concat_append, List.nil_append]
  · rw [byteSize_joinSegments_concat, byteSize_nil, Nat.add_zero]

/-- A piece between line ends stands where those before it, with their line ends, stop. -/
theorem standsAt_of_joinSegments {ss : List (List Char)} {s rest cs : List Char}
    (h : cs = joinSegments (ss ++ [s]) ++ rest) :
    StandsAt cs (linesSize ss, linesSize ss + byteSize s) s := by
  obtain ⟨before, hbefore, hsize⟩ := exists_joinSegments_eq ss s
  refine ⟨before, rest, by rw [h, hbefore], hsize, ?_⟩
  rw [byteSize_append, hsize]

/-- A piece of a text ends between two characters, or at the end of the text. -/
theorem StandsAt.isBoundary {cs piece : List Char} {range : Nat × Nat}
    (h : StandsAt cs range piece) : IsBoundary cs range.2 := by
  obtain ⟨before, after, hcs, -, hstop⟩ := h
  exact ⟨before ++ piece, after, hcs.symm, hstop⟩

/-- The more pieces, the more bytes. -/
theorem linesSize_take_le (ss : List (List Char)) {n m : Nat} (h : n ≤ m) :
    linesSize (ss.take n) ≤ linesSize (ss.take m) := by
  obtain ⟨more, rfl⟩ := Nat.exists_eq_add_of_le h
  rw [List.take_add, linesSize_append]
  exact Nat.le_add_right _ _

/-- The more characters, the more bytes. -/
theorem byteSize_take_lt {cs : List Char} {n m : Nat} (h : n < m) (hm : m ≤ cs.length) :
    byteSize (cs.take n) < byteSize (cs.take m) := by
  obtain ⟨more, rfl⟩ := Nat.exists_eq_add_of_le (Nat.le_of_lt h)
  -- Every character has bytes, and there is one between the two places.
  have hmore : byteSize ((cs.drop n).take more) ≠ 0 := by
    rw [ne_eq, byteSize_eq_zero, ← List.length_eq_zero_iff, List.length_take, List.length_drop]
    omega
  rw [List.take_add, byteSize_append]
  omega

/-- A part of a text has no more bytes. -/
theorem byteSize_take_le (cs : List Char) (n : Nat) : byteSize (cs.take n) ≤ byteSize cs := by
  conv_rhs => rw [← List.take_append_drop n cs]
  rw [byteSize_append]
  omega

end Text

namespace SourceText

variable {source : SourceText} {n : Nat}

/-! ## Contents of lines -/

/-- The byte before which the content of a line ends: the line end before the next line, or the end
of the text on the last line. -/
def contentEnd (source : SourceText) (line : Nat) : Nat :=
  match source.lineStart? (line + 1) with
  | some next => next - 1
  | none => byteSize source.text.toList

/-- The contents of the lines of a source stand between the starts of its lines. -/
structure Contents (source : SourceText) (contents : List (List Char)) : Prop where
  /-- There is one content for each line. -/
  length : contents.length = source.lineCount
  /-- A content stands from the start of its line up to the line end before the next line. -/
  standsAt : ∀ n content, contents[n]? = some content →
    ∃ start, source.lineStart? (n + 1) = some start ∧
      StandsAt source.text.toList (start, source.contentEnd (n + 1)) content

/-- A line starts where the pieces of the text before it, with their line ends, stop. -/
theorem lineStart?_of_lt (hn : n < source.segments.length) :
    source.lineStart? (n + 1) = some (linesSize (source.segments.take n)) :=
  if_pos hn

/-- The pieces of a source make up its text. -/
theorem joinSegments_segments_eq (source : SourceText) :
    joinSegments source.segments = source.text.toList := by
  rw [source.segments_eq, Text.joinSegments_segments]

/-- The content of a line has the bytes of its piece of the text. -/
theorem contentEnd_of_lt (hn : n < source.segments.length) :
    source.contentEnd (n + 1) =
      linesSize (source.segments.take n) + byteSize source.segments[n] := by
  unfold contentEnd
  by_cases hnext : n + 1 < source.segments.length
  · rw [lineStart?_of_lt hnext, List.take_add_one, List.getElem?_eq_getElem hn, Option.toList_some,
      Text.linesSize_append]
    simp only [linesSize]
    omega
  · -- The last piece ends with the text.
    have hlast : source.segments = source.segments.take n ++ [source.segments[n]] := by
      conv_lhs => rw [← List.take_append_drop n source.segments]
      rw [← List.getElem_cons_drop hn, List.drop_of_length_le (by omega)]
    have hnone : source.lineStart? (n + 1 + 1) = none := if_neg hnext
    rw [hnone, ← joinSegments_segments_eq]
    dsimp only
    conv_lhs => rw [hlast]
    rw [Text.byteSize_joinSegments_concat]

/-- A piece of the text between line ends stands where the content of its line does. -/
theorem standsAt_segment (hn : n < source.segments.length) :
    StandsAt source.text.toList
      (linesSize (source.segments.take n), source.contentEnd (n + 1)) source.segments[n] := by
  obtain ⟨more, hmore⟩ := Text.exists_joinSegments_append (source.segments.take n)
    source.segments[n] [] (source.segments.drop (n + 1))
  rw [List.append_nil, List.nil_append, List.getElem_cons_drop hn, List.take_append_drop,
    joinSegments_segments_eq] at hmore
  rw [contentEnd_of_lt hn]
  exact Text.standsAt_of_joinSegments hmore

/-- The pieces of a source are its contents. -/
theorem contents_segments (source : SourceText) : source.Contents source.segments := by
  refine ⟨rfl, ?_⟩
  intro n content hcontent
  obtain ⟨hn, rfl⟩ := List.getElem?_eq_some_iff.1 hcontent
  exact ⟨_, lineStart?_of_lt hn, standsAt_segment hn⟩

/-- The contents of the lines are the pieces of the text between its line ends. -/
theorem Contents.eq_segments {contents : List (List Char)} (h : source.Contents contents) :
    contents = source.segments := by
  apply List.ext_getElem h.length
  intro n hn hn'
  obtain ⟨start, hstart, hstands⟩ := h.standsAt n _ (List.getElem?_eq_getElem hn)
  rw [lineStart?_of_lt hn'] at hstart
  cases hstart
  -- There is one piece of the text at these bytes.
  exact hstands.unique (standsAt_segment hn')

/-! ## Positions on lines -/

/-- A position stands on a line of a source, at most at the end of the line. -/
structure HasPosition (source : SourceText) (p : Position) : Prop where
  /-- Lines are counted from one. -/
  one_le : 1 ≤ p.line
  /-- There is such a line. -/
  line_le : p.line ≤ source.lineCount
  /-- The line has that many characters. -/
  column_le : p.column ≤ (source.line p.line).length

/-- A position is on one of the lines that the text has between its line ends. -/
theorem HasPosition.exists_line {p : Position} (h : source.HasPosition p) :
    ∃ n, p.line = n + 1 ∧ n < source.segments.length := by
  have hone := h.one_le
  have hle : p.line ≤ source.segments.length := h.line_le
  exact ⟨p.line - 1, by omega, by omega⟩

/-- Where a column of a line starts: after the lines before it and the characters before it. -/
theorem offset?_of_lt (hn : n < source.segments.length) (column : Nat) :
    source.offset? (n + 1) column =
      some (linesSize (source.segments.take n) +
        byteSize ((source.line (n + 1)).take column)) := by
  rw [offset?, lineStart?_of_lt hn, Option.map_some]

/-- The first characters of a line stand between the start of the line and the offset after them. -/
theorem standsAt_take (hn : n < source.segments.length) (column : Nat) :
    StandsAt source.text.toList
      (linesSize (source.segments.take n),
        linesSize (source.segments.take n) + byteSize ((source.line (n + 1)).take column))
      ((source.line (n + 1)).take column) := by
  obtain ⟨more, hmore⟩ := exists_cut hn column
  exact Text.standsAt_of_joinSegments hmore

/-- No line goes past the line end that follows it. -/
theorem byteSize_line_le (hn : n < source.segments.length) :
    byteSize (source.line (n + 1)) ≤ byteSize source.segments[n] := by
  obtain ⟨returns, hpiece⟩ := exists_line_append hn
  rw [hpiece, Text.byteSize_append]
  omega

/-- Offsets grow with positions: along a line, and from each line to the later ones. -/
theorem lt_of_positionLt {p q : Position} (hp : source.HasPosition p) (hq : source.HasPosition q)
    (hlt : p.Lt q) {a b : Nat} (ha : source.offset? p.line p.column = some a)
    (hb : source.offset? q.line q.column = some b) : a < b := by
  obtain ⟨n, hpline, hn⟩ := hp.exists_line
  obtain ⟨m, hqline, hm⟩ := hq.exists_line
  rw [hpline, offset?_of_lt hn, Option.some.injEq] at ha
  rw [hqline, offset?_of_lt hm, Option.some.injEq] at hb
  obtain hline | ⟨hline, hcolumn⟩ := hlt
  · -- On an earlier line: its piece and the line end after it come before the later line.
    have htake := Text.byteSize_take_le (source.line (n + 1)) p.column
    have hpiece := byteSize_line_le hn
    have hnext : linesSize (source.segments.take (n + 1)) =
        linesSize (source.segments.take n) + byteSize source.segments[n] + 1 := by
      rw [List.take_add_one, List.getElem?_eq_getElem hn, Option.toList_some,
        Text.linesSize_append]
      simp only [linesSize]
      omega
    have hlater := Text.linesSize_take_le source.segments (show n + 1 ≤ m by omega)
    omega
  · obtain rfl : n = m := by omega
    have hle := hq.column_le
    rw [hqline] at hle
    have htake := Text.byteSize_take_lt hcolumn hle
    omega

/-- Line starts and offsets index a source. The contents between its line starts, without line ends
of their own, are the text if they are put together with line ends, and a line is its content
without the carriage returns that end it. At every position on a line there is an offset between two
characters, with exactly the first characters of the line between the start of the line and it;
further to the right is the end of the line; and offsets order positions as lines and columns do. -/
theorem offsets_index_text (source : SourceText) :
    (∃ contents, source.Contents contents) ∧
      (∀ contents, source.Contents contents →
        joinSegments contents = source.text.toList ∧
          ∀ n content, contents[n]? = some content →
            '\n' ∉ content ∧ source.line (n + 1) = trimEnd (· = '\r') content) ∧
      (∀ p, source.HasPosition p → ∃ start stop,
        source.lineStart? p.line = some start ∧ source.offset? p.line p.column = some stop ∧
          IsBoundary source.text.toList stop ∧
          StandsAt source.text.toList (start, stop) ((source.line p.line).take p.column)) ∧
      (∀ line column, (source.line line).length ≤ column →
        source.offset? line column = source.offset? line (source.line line).length) ∧
      ∀ p q, source.HasPosition p → source.HasPosition q → ∀ a b,
        source.offset? p.line p.column = some a → source.offset? q.line q.column = some b →
          (a < b ↔ p.Lt q) ∧ (a = b ↔ p = q) := by
  refine ⟨⟨_, source.contents_segments⟩, ?_, ?_, ?_, ?_⟩
  · intro contents hcontents
    rw [hcontents.eq_segments]
    refine ⟨source.joinSegments_segments_eq, fun n content hcontent => ⟨?_, ?_⟩⟩
    · have hmem : content ∈ Text.segments source.text.toList := by
        rw [← source.segments_eq]
        exact List.mem_of_getElem? hcontent
      exact Text.newline_not_mem_of_mem_segments hmem
    · rw [line, hcontent, Option.map_some, Option.getD_some]
  · intro p hp
    obtain ⟨n, hline, hn⟩ := hp.exists_line
    have hstands := standsAt_take hn p.column
    rw [hline]
    exact ⟨_, _, lineStart?_of_lt hn, offset?_of_lt hn p.column, hstands.isBoundary, hstands⟩
  · intro line column hcolumn
    rw [offset?, offset?, List.take_of_length_le hcolumn, List.take_length]
  · intro p q hp hq a b ha hb
    have hlt := fun h => lt_of_positionLt hp hq h ha hb
    have hgt := fun h => lt_of_positionLt hq hp h hb ha
    have heq : p = q → a = b := by
      rintro rfl
      exact Option.some.inj (ha.symm.trans hb)
    -- One position comes first or they are the same, and the offsets follow.
    rcases Position.lt_trichotomy p q with h | h | h
    · exact ⟨iff_of_true (hlt h) h, iff_of_false (Nat.ne_of_lt (hlt h)) h.ne⟩
    · exact ⟨iff_of_false (Nat.not_lt_of_le (heq h).ge) fun hpq => hpq.ne h, iff_of_true (heq h) h⟩
    · have hba := hgt h
      refine ⟨iff_of_false (by omega) fun hpq => ?_, iff_of_false (by omega) h.ne.symm⟩
      exact absurd (hlt hpq) (by omega)

/-- In a text whose first line has a letter of two bytes and ends with a carriage return and a line
end, the end of the first line comes two bytes before the second line. -/
theorem offsets_index_text_accent :
    let source := ofString "é\r\nb" 4
    source.HasPosition ⟨1, 1⟩ ∧ source.HasPosition ⟨2, 0⟩ ∧
      source.Contents ["é\r".toList, ['b']] ∧
      joinSegments ["é\r".toList, ['b']] = source.text.toList ∧
      source.line 1 = trimEnd (· = '\r') "é\r".toList ∧
      (∃ start stop, source.lineStart? 1 = some start ∧ source.offset? 1 1 = some stop ∧
        IsBoundary source.text.toList stop ∧
        StandsAt source.text.toList (start, stop) ((source.line 1).take 1)) ∧
      source.offset? 1 7 = source.offset? 1 1 ∧
      ((2 < 4 ↔ Position.Lt ⟨1, 1⟩ ⟨2, 0⟩) ∧ (2 = 4 ↔ (⟨1, 1⟩ : Position) = ⟨2, 0⟩)) := by
  intro source
  obtain ⟨-, hcontents, hoffset, hclamp, horder⟩ := offsets_index_text source
  have hp : source.HasPosition ⟨1, 1⟩ := ⟨by decide, by decide, by decide⟩
  have hq : source.HasPosition ⟨2, 0⟩ := ⟨by decide, by decide, by decide⟩
  have hpieces : source.Contents ["é\r".toList, ['b']] := source.contents_segments
  obtain ⟨hjoin, hlines⟩ := hcontents _ hpieces
  exact ⟨hp, hq, hpieces, hjoin, (hlines 0 _ rfl).2, hoffset _ hp, hclamp 1 7 (by decide),
    horder _ _ hp hq 2 4 (by decide) (by decide)⟩

end SourceText

end TreeLayout
