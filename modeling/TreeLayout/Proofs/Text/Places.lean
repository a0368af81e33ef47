import Mathlib.Data.List.DropRight
import TreeLayout.Proofs.Text.Bytes
import TreeLayout.Proofs.Text.Lines
import TreeLayout.Tree.Builder

/-!
# Places in a text

A text up to a place is cut into the lines that are complete there and the start of one more line
(`Text.Passed`). A cursor that has passed it shows the number of these lines and the length of that
start, which are the line and the column of the place; and a source has the line under that number
(`Text.Passed.lineStart?_and_line`). Conversely a source is cut in two at each raw column of each of
its lines (`SourceText.exists_cut`).
-/

namespace TreeLayout

open Text (byteSize linesSize segments joinSegments trimEnd ending isGap isBlank)
open Builder (advanceBy)

namespace Text

/-! ## What is trimmed -/

/-- The ending that is cut off has only characters of the kind. -/
theorem of_mem_ending {p : Char → Bool} {cs : List Char} {c : Char} (h : c ∈ ending p cs) :
    p c = true :=
  List.mem_rtakeWhile_imp h

/-- What is left ends with no character of the kind. -/
theorem getLast?_trimEnd (p : Char → Bool) (cs : List Char) :
    ∀ c ∈ (trimEnd p cs).getLast?, p c = false := by
  intro c hc
  obtain ⟨hne, rfl⟩ := List.mem_getLast?_eq_getLast hc
  exact Bool.eq_false_iff.2 (List.rdropWhile_last_not p cs hne)

/-- No gap has a line end. -/
theorem ne_newline_of_isGap {c : Char} (h : isGap c = true) : c ≠ '\n' := by
  rintro rfl
  exact absurd h (by decide)

/-- A gap is blank. -/
theorem isBlank_of_isGap {c : Char} (h : isGap c = true) : isBlank c = true := by
  simp only [isGap, Bool.or_eq_true, decide_eq_true_eq] at h
  rcases h with rfl | rfl <;> rfl

/-- What stands before a character that is not trimmed is not trimmed. -/
theorem exists_trimEnd_append {p : Char → Bool} {c : Char} (hc : p c = false) (a b : List Char) :
    ∃ b', trimEnd p (a ++ c :: b) = a ++ c :: b' := by
  induction b using List.reverseRecOn with
  | nil => exact ⟨[], trimEnd_append_of_neg hc a⟩
  | append_singleton b d ih =>
    rw [← List.cons_append, ← List.append_assoc]
    cases hd : p d with
    | true =>
      obtain ⟨b', hb'⟩ := ih
      exact ⟨b', by rw [trimEnd_append_of_pos hd, hb']⟩
    | false => exact ⟨b ++ [d], by rw [trimEnd_append_of_neg hd]; simp⟩

/-- Blanks have no other characters. -/
theorem filter_eq_nil_of_isBlank {cs : List Char} (h : ∀ c ∈ cs, isBlank c = true) :
    cs.filter (fun c => !isBlank c) = [] := by
  simpa [List.filter_eq_nil_iff] using h

/-! ## Texts up to a place -/

/-- Text that was passed is cut into the lines that are complete and the line of the cursor. -/
structure Passed (passed : List Char) (full : List (List Char)) (upto last : List Char) : Prop where
  /-- The complete lines come before the line of the cursor. -/
  append : passed = upto ++ last
  /-- The complete lines end with line ends. -/
  size : byteSize upto = linesSize full
  /-- The complete lines are the first lines of the whole text. -/
  lines : ∀ rest, segments (passed ++ rest) = full ++ segments (last ++ rest)
  /-- There is no line end on the line of the cursor. -/
  newline : '\n' ∉ last
  /-- The cursor counts the lines and the characters on its line. -/
  pos : advanceBy ⟨1, 0⟩ passed = ⟨full.length + 1, last.length⟩

/-- The bytes of lines add up. -/
theorem linesSize_append (ss ss' : List (List Char)) :
    linesSize (ss ++ ss') = linesSize ss + linesSize ss' := by
  induction ss with
  | nil => simp [linesSize]
  | cons s ss ih =>
    rw [List.cons_append, linesSize, linesSize, ih]
    omega

/-- What a cursor has passed is some full lines and a part of a line. -/
theorem exists_passed (passed : List Char) : ∃ full upto last, Passed passed full upto last := by
  induction passed using List.reverseRecOn with
  | nil => exact ⟨[], [], [], ⟨rfl, rfl, fun _ => rfl, List.not_mem_nil, rfl⟩⟩
  | append_singleton passed c ih =>
    obtain ⟨full, upto, last, h⟩ := ih
    have hpos : advanceBy ⟨1, 0⟩ (passed ++ [c]) =
        Builder.advance ⟨full.length + 1, last.length⟩ c := by
      rw [← h.pos, advanceBy, List.foldl_append]
      rfl
    have hlines : ∀ rest, segments (passed ++ [c] ++ rest) = full ++ segments (last ++ c :: rest) :=
      fun rest => by rw [List.append_assoc, List.singleton_append, h.lines]
    by_cases hc : c = '\n'
    · subst hc
      refine ⟨full ++ [last], upto ++ last ++ ['\n'], [], ⟨?_, ?_, fun rest => ?_, ?_, ?_⟩⟩
      · rw [h.append, List.append_nil]
      · have hsize := h.size
        have hnewline : byteSize ['\n'] = 1 := rfl
        simp only [byteSize_append, linesSize_append, linesSize, hnewline]
        omega
      · rw [hlines, segments_append_newline h.newline, List.append_assoc]
        rfl
      · exact List.not_mem_nil
      · rw [hpos, Builder.advance, if_pos rfl, List.length_append]
        rfl
    · refine ⟨full, upto, last ++ [c], ⟨?_, h.size, fun rest => ?_, ?_, ?_⟩⟩
      · rw [h.append, List.append_assoc]
      · rw [hlines, List.append_assoc, List.singleton_append]
      · rw [List.mem_append, List.mem_singleton, not_or]
        exact ⟨h.newline, fun h => hc h.symm⟩
      · rw [hpos, Builder.advance, if_neg hc, List.length_append]
        rfl

/-- Lines without line ends of their own and the start of one more line are passed. -/
theorem passed_joinSegments {full : List (List Char)} {last : List Char}
    (h : ∀ s ∈ full ++ [last], '\n' ∉ s) :
    ∃ upto, Passed (joinSegments (full ++ [last])) full upto last := by
  obtain ⟨full', upto, last', hpassed⟩ := exists_passed (joinSegments (full ++ [last]))
  -- There is one way to cut a text into lines.
  have hpieces : full ++ [last] = full' ++ [last'] := by
    calc full ++ [last] = segments (joinSegments (full ++ [last])) :=
          (segments_joinSegments (by simp) h).symm
      _ = full' ++ segments (last' ++ []) := by rw [← hpassed.lines, List.append_nil]
      _ = full' ++ [last'] := by rw [List.append_nil, segments_of_not_mem hpassed.newline]
  obtain ⟨rfl, hlast⟩ := List.append_inj' hpieces rfl
  obtain rfl : last = last' := List.singleton_inj.1 hlast
  exact ⟨upto, hpassed⟩

/-- What follows a place on its line goes on the piece that stands before the place. -/
theorem segments_joinSegments_append {full : List (List Char)} {last rest head : List Char}
    {tail : List (List Char)} (h : ∀ s ∈ full ++ [last], '\n' ∉ s)
    (hrest : segments rest = head :: tail) :
    segments (joinSegments (full ++ [last]) ++ rest) = full ++ (last ++ head) :: tail := by
  obtain ⟨upto, hpassed⟩ := passed_joinSegments h
  rw [hpassed.lines, segments_append_of_not_mem (h last (by simp)) hrest]

namespace Passed

variable {passed upto last rest : List Char} {full : List (List Char)} {c : Char}

/-- The line of the cursor, where the text goes on with no blank. -/
theorem exists_line_eq (h : Passed passed full upto last) (hc : isBlank c = false)
    {source : SourceText} (hsource : source.text.toList = passed ++ c :: rest) :
    source.lineStart? (full.length + 1) = some (byteSize upto) ∧
      ∃ tail, source.line (full.length + 1) = last ++ c :: tail := by
  have hblank : c ≠ ' ' ∧ c ≠ '\t' ∧ c ≠ '\r' ∧ c ≠ '\n' := by
    simpa [isBlank, and_assoc] using hc
  obtain ⟨tail, others, htail⟩ := List.exists_cons_of_ne_nil (segments_ne_nil rest)
  have hnewline : '\n' ∉ last ++ [c] := by
    simpa [h.newline] using hblank.2.2.2.symm
  have hsegments : source.segments = full ++ (last ++ c :: tail) :: others := by
    rw [source.segments_eq, hsource, h.lines, List.append_cons,
      segments_append_of_not_mem hnewline htail, List.append_assoc, List.singleton_append]
  constructor
  · rw [SourceText.lineStart?, hsegments, if_pos (by simp), List.take_left, h.size]
  · obtain ⟨tail', htail'⟩ := exists_trimEnd_append (p := (· = '\r')) (c := c)
      (by simpa using hblank.2.2.1) last tail
    refine ⟨tail', ?_⟩
    rw [SourceText.line, hsegments, List.getElem?_append_right (Nat.le_refl _), Nat.sub_self,
      List.getElem?_cons_zero, Option.map_some, Option.getD_some, htail']

/-- What stands before the cursor on its line, where the text goes on with no blank. -/
theorem lineStart?_and_line (h : Passed passed full upto last) (hc : isBlank c = false)
    {source : SourceText} (hsource : source.text.toList = passed ++ c :: rest) :
    source.lineStart? (full.length + 1) = some (byteSize upto) ∧
      (source.line (full.length + 1)).take last.length = last := by
  obtain ⟨hstart, tail, hline⟩ := h.exists_line_eq hc hsource
  refine ⟨hstart, ?_⟩
  rw [hline, List.take_left]

end Passed

end Text

/-! ## Places in a source -/

namespace SourceText

variable {source : SourceText} {n : Nat}

/-- A line is the start of a piece of the text; carriage returns may follow. -/
theorem exists_line_append (hn : n < source.segments.length) :
    ∃ returns, source.segments[n] = source.line (n + 1) ++ returns := by
  refine ⟨ending (· = '\r') source.segments[n], ?_⟩
  rw [line, List.getElem?_eq_getElem hn, Option.map_some, Option.getD_some,
    Text.trimEnd_append_ending]

/-- No line has a line end. -/
theorem newline_not_mem_line (hn : n < source.segments.length) : '\n' ∉ source.line (n + 1) := by
  obtain ⟨returns, hpiece⟩ := exists_line_append hn
  have hmem : source.segments[n] ∈ Text.segments source.text.toList := by
    rw [← source.segments_eq]
    exact List.getElem_mem hn
  have hnewline := Text.newline_not_mem_of_mem_segments hmem
  rw [hpiece] at hnewline
  exact fun h => hnewline (List.mem_append_left returns h)

/-- A source is cut at a raw column of one of its lines. -/
theorem exists_cut (hn : n < source.segments.length) (raw : Nat) : ∃ more,
    source.text.toList =
      joinSegments (source.segments.take n ++ [(source.line (n + 1)).take raw]) ++
        ((source.line (n + 1)).drop raw ++ more) := by
  obtain ⟨returns, hpiece⟩ := exists_line_append hn
  obtain ⟨more, hmore⟩ := Text.exists_joinSegments_append (source.segments.take n)
    ((source.line (n + 1)).take raw) ((source.line (n + 1)).drop raw ++ returns)
    (source.segments.drop (n + 1))
  refine ⟨returns ++ more, ?_⟩
  calc source.text.toList
      = joinSegments source.segments := by
        rw [source.segments_eq, Text.joinSegments_segments]
    _ = joinSegments (source.segments.take n ++ source.segments[n] ::
          source.segments.drop (n + 1)) := by
        rw [List.getElem_cons_drop, List.take_append_drop]
    _ = _ := by
        rw [hpiece, ← List.append_assoc (List.drop raw _), ← hmore,
          ← List.append_assoc (List.take raw _), List.take_append_drop]

end SourceText

end TreeLayout
