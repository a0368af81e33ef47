import TreeLayout.Proofs.Fix.Substitution
import TreeLayout.Proofs.Text.Places

/-!
# Fixes touch nothing but blanks

A finding points to a place of a source: the lines before its line, and the part of its line before
its column (`Finding.PointsAt`). The place need not be that of a token, and a column past the end of
the line is read as the end.

There are three sorts of fixes (`Suggested`): the blanks before the place, on its line, give way to
spaces, or to a line end with spaces, or the blanks before the place over several lines give way to
one space or to nothing. So the characters that are no blanks stay as they are, and the first sort,
the one that is safe, changes one line only (`suggestFix?_edits_blanks`).
-/

namespace TreeLayout

open Text (byteSize linesSize segments joinSegments trimEnd ending isGap isBlank)
open Builder (advanceBy)

/-- Spaces are no line ends. -/
theorem Column.newline_not_mem_spaces (n : Nat) : '\n' ∉ Column.spaces n := by
  simp [Column.spaces]

/-- The text after an edit, read as the source is. -/
def SourceText.edited (source : SourceText) (cs : List Char) : SourceText :=
  source.withText (String.ofList cs)

namespace SourceText

/-- An edited source has the same tab width. -/
theorem tabWidth_edited (source : SourceText) (cs : List Char) :
    (source.edited cs).tabWidth = source.tabWidth := rfl

/-- An edited source counts columns in the same arithmetic. -/
theorem arithmetic_edited (source : SourceText) (cs : List Char) :
    (source.edited cs).arithmetic = source.arithmetic := rfl

/-- The characters of an edited source are those that were put in. -/
theorem toList_text_edited (source : SourceText) (cs : List Char) :
    (source.edited cs).text.toList = cs :=
  String.toList_ofList

end SourceText

/-! ## The place of a finding -/

/-- A finding points to the place in a source between `before` on a line and `rest`, where the lines
`full` come before that line. -/
structure Finding.PointsAt (f : Finding) (source : SourceText) (full : List (List Char))
    (before rest : List Char) : Prop where
  /-- The place cuts the text in two. -/
  text : source.text.toList = joinSegments (full ++ [before]) ++ rest
  /-- The lines before the place end where the text is cut into lines. -/
  newline : ∀ s ∈ full ++ [before], '\n' ∉ s
  /-- The line of the finding is the next one. -/
  line : f.line = full.length + 1
  /-- What stands before the place is the line up to the raw column of the finding. -/
  before : before = (source.line f.line).take f.rawColumn
  /-- What follows the place goes on with the rest of the line. -/
  after : ∃ more, rest = (source.line f.line).drop f.rawColumn ++ more

/-- The lines before the place of a finding, and its own line with the gap before the place
replaced, have no line ends. -/
theorem Finding.PointsAt.newline_resized {f : Finding} {source : SourceText}
    {full : List (List Char)} {kept gap rest : List Char}
    (h : f.PointsAt source full (kept ++ gap) rest) (width : Nat) :
    ∀ s ∈ full ++ [kept ++ Column.spaces width], '\n' ∉ s := by
  have hnewline := h.newline
  rw [List.forall_mem_append, List.forall_mem_singleton, List.mem_append, not_or] at hnewline ⊢
  exact ⟨hnewline.1, hnewline.2.1, Column.newline_not_mem_spaces width⟩

/-- A finding on a line of a source points to a place in it. -/
theorem Finding.exists_pointsAt {f : Finding} {source : SourceText} {start : Nat}
    (h : source.lineStart? f.line = some start) :
    ∃ full before rest, f.PointsAt source full before rest ∧ start = linesSize full := by
  cases hline : f.line with
  | zero =>
    rw [hline] at h
    cases h
  | succ n =>
    rw [hline, SourceText.lineStart?] at h
    split at h
    case isFalse => cases h
    case isTrue hn =>
      obtain ⟨more, htext⟩ := SourceText.exists_cut hn f.rawColumn
      refine ⟨_, _, _, ⟨htext, ?_, ?_, by rw [hline], ⟨more, by rw [hline]⟩⟩,
        (Option.some.inj h).symm⟩
      · intro s hs
        rcases List.mem_append.1 hs with hs | hs
        · have hmem : s ∈ Text.segments source.text.toList := by
            rw [← source.segments_eq]
            exact List.mem_of_mem_take hs
          exact Text.newline_not_mem_of_mem_segments hmem
        · rw [List.mem_singleton.1 hs]
          exact fun hmem => SourceText.newline_not_mem_line hn (List.mem_of_mem_take hmem)
      · rw [hline, List.length_take, Nat.min_eq_left (Nat.le_of_lt hn)]

/-! ## The sorts of fixes -/

/-- The range of a fix is that of `gap` in a text that starts with `kept ++ gap`. -/
structure Fix.Covers (fix : Fix) (kept gap : List Char) : Prop where
  /-- The range starts after what is kept. -/
  start : byteSize kept = fix.startOffset
  /-- The range ends with the gap. -/
  stop : fix.startOffset + byteSize gap = fix.endOffset

/-- A fix that covers a gap fits every text with that gap. -/
theorem Fix.Covers.fits {fix : Fix} {kept gap : List Char} (h : fix.Covers kept gap)
    (after : List Char) : fix.Fits (kept ++ gap ++ after) := by
  have hstart := h.start
  have hstop := h.stop
  refine ⟨by omega, ⟨kept, gap ++ after, by simp, hstart⟩, ⟨kept ++ gap, after, rfl, ?_⟩⟩
  rw [Text.byteSize_append]
  omega

/-- What the fix for a finding does at the place of the finding, between `before` on its line and
`rest`, where the lines `full` come before. -/
inductive Suggested (f : Finding) (source : SourceText) (full : List (List Char))
    (before rest : List Char) (fix : Fix) : Prop
  /-- The blanks before the place, on its line, give way to `width` spaces: the indentation if there
  is nothing else on the line, else the gap made wider or narrower by what the column is off. -/
  | resizes {token : String} {expected actual : Nat} (kept gap : List Char) (width : Nat)
    (hmessage : f.message = .column token expected actual)
    (happend : before = kept ++ gap) (hgap : ∀ c ∈ gap, isGap c = true)
    (hcovers : fix.Covers (joinSegments (full ++ [kept])) gap)
    (hreplacement : fix.replacement.toList = Column.spaces width)
    (hwidth : kept = [] ∧ width = f.indent.getD (source.arithmetic.sub expected 1) ∨
      actual < source.arithmetic.add (f.gapWidth source kept.length) expected ∧
        width = source.arithmetic.add (f.gapWidth source kept.length) expected - actual)
  /-- The blanks before the place, on its line, give way to a line end and the indentation. -/
  | wraps {next : String} (kept gap : List Char) (indent : Nat)
    (hmessage : f.message = .mustWrap next) (hindent : f.indent = some indent)
    (happend : before = kept ++ gap) (hgap : ∀ c ∈ gap, isGap c = true)
    (hcovers : fix.Covers (joinSegments (full ++ [kept])) gap)
    (hreplacement : fix.replacement.toList = '\n' :: Column.spaces indent)
    (hrisky : fix.safety = .risky)
  /-- All blanks before the place, over several lines, give way to one space or to nothing. -/
  | joins {prev next : String} (kept gap : List Char) (width : Nat)
    (hmessage : f.message = .sameLine prev next)
    (happend : joinSegments (full ++ [before]) = kept ++ gap) (hgap : ∀ c ∈ gap, isBlank c = true)
    (hkept : ∀ c ∈ kept.getLast?, isBlank c = false)
    (hcovers : fix.Covers kept gap)
    (hreplacement : fix.replacement.toList = Column.spaces width) (hwidth : width ≤ 1)
    (hrisky : fix.safety = .risky)

section Suggestions

variable {f : Finding} {source : SourceText} {full : List (List Char)} {before rest : List Char}
  {fix : Fix}

/-- What is suggested about a column is suggested for the gap before the token. -/
theorem suggested_of_suggestColumn? {token : String} {expected actual : Nat}
    (hmessage : f.message = .column token expected actual)
    (h : suggestColumn? f source (linesSize full) before expected actual = some fix) :
    Suggested f source full before rest fix := by
  unfold suggestColumn? at h
  split at h
  · rename_i hall
    cases h
    refine .resizes [] before _ hmessage rfl (List.all_eq_true.1 hall) ⟨?_, rfl⟩ (by simp)
      (.inl ⟨rfl, rfl⟩)
    rw [Text.byteSize_joinSegments_concat]
    rfl
  · simp only at h
    split at h
    · cases h
    · rename_i hgap
      cases h
      have hbefore := Text.trimEnd_append_ending isGap before
      have hsize : byteSize before =
          byteSize (trimEnd isGap before) + byteSize (ending isGap before) := by
        rw [← Text.byteSize_append, hbefore]
      refine .resizes (trimEnd isGap before) (ending isGap before) _ hmessage hbefore.symm
        (fun _ => Text.of_mem_ending) ⟨?_, ?_⟩ (by simp) (.inr ⟨?_, rfl⟩)
      · rw [Text.byteSize_joinSegments_concat]
      · simp only
        omega
      · simp only [Bool.or_eq_true, decide_eq_true_eq, not_or] at hgap
        omega

/-- What is suggested about a wrap is suggested for the gap before the token. -/
theorem suggested_of_suggestWrap {next : String} {indent : Nat}
    (hmessage : f.message = .mustWrap next) (hindent : f.indent = some indent) :
    Suggested f source full before rest (suggestWrap (linesSize full) before indent) := by
  have hbefore := Text.trimEnd_append_ending isGap before
  have hsize : byteSize before =
      byteSize (trimEnd isGap before) + byteSize (ending isGap before) := by
    rw [← Text.byteSize_append, hbefore]
  refine .wraps (trimEnd isGap before) (ending isGap before) indent hmessage hindent hbefore.symm
    (fun _ => Text.of_mem_ending) ⟨?_, ?_⟩ (by simp [suggestWrap]) rfl
  · rw [Text.byteSize_joinSegments_concat]
    simp only [suggestWrap]
    omega
  · simp only [suggestWrap]
    omega

/-- What is suggested about a shared line is suggested for the blanks before the token, line ends
among them. -/
theorem suggested_of_suggestJoin? {prev next : String} (hmessage : f.message = .sameLine prev next)
    (htext : source.text.toList = joinSegments (full ++ [before]) ++ rest)
    (h : suggestJoin? source (linesSize full + byteSize before) = some fix) :
    Suggested f source full before rest fix := by
  rw [suggestJoin?, ← Text.byteSize_joinSegments_concat, htext, Text.splitAtByte?_append] at h
  simp only [Option.bind_eq_bind, Option.bind_some] at h
  split at h
  · cases h
  · cases h
    have hpassed := Text.trimEnd_append_ending isBlank (joinSegments (full ++ [before]))
    have hsize : byteSize (joinSegments (full ++ [before])) = _ := congrArg byteSize hpassed.symm
    rw [Text.byteSize_append] at hsize
    -- Tokens that belong together get no space.
    obtain ⟨width, hwidth, hspaces⟩ : ∃ width ≤ 1,
        (if joinsTightly (trimEnd isBlank (joinSegments (full ++ [before]))).getLast? rest.head?
          then "" else " ").toList = Column.spaces width := by
      split
      · exact ⟨0, by decide, rfl⟩
      · exact ⟨1, by decide, rfl⟩
    exact .joins _ _ width hmessage hpassed.symm (fun _ => Text.of_mem_ending)
      (Text.getLast?_trimEnd isBlank _) ⟨rfl, by simp only; omega⟩ hspaces hwidth rfl

end Suggestions

/-- A fix for a finding is of one of the three sorts, at the place to which the finding points. -/
theorem suggestFix?_cases {f : Finding} {source : SourceText} {fix : Fix}
    (h : suggestFix? f source = some fix) : ∃ full before rest,
      f.PointsAt source full before rest ∧ Suggested f source full before rest fix := by
  obtain ⟨start, hstart, hfix⟩ := Option.bind_eq_some_iff.1 h
  obtain ⟨full, before, rest, hplace, rfl⟩ := f.exists_pointsAt hstart
  refine ⟨full, before, rest, hplace, ?_⟩
  rw [← hplace.before] at hfix
  cases hmessage : f.message with
  | column =>
    rw [hmessage] at hfix
    exact suggested_of_suggestColumn? hmessage hfix
  | mustWrap =>
    rw [hmessage] at hfix
    obtain ⟨indent, hindent, rfl⟩ := Option.map_eq_some_iff.1 hfix
    exact suggested_of_suggestWrap hmessage hindent
  | sameLine =>
    rw [hmessage] at hfix
    exact suggested_of_suggestJoin? hmessage hplace.text hfix
  | unexpectedToken | extraToken | missingToken =>
    rw [hmessage] at hfix
    cases hfix

/-! ## What the edit leaves alone -/

namespace Suggested

variable {f : Finding} {source : SourceText} {full : List (List Char)} {before rest : List Char}
  {fix : Fix}

/-- Whatever its sort, a fix puts spaces, with a line end before them or not, in the place of the
blanks before the place of the finding. -/
theorem exists_covers (h : Suggested f source full before rest fix) : ∃ kept gap width,
    joinSegments (full ++ [before]) = kept ++ gap ∧ fix.Covers kept gap ∧
      (∀ c ∈ gap, isBlank c = true) ∧ (fix.replacement.toList = Column.spaces width ∨
        fix.replacement.toList = '\n' :: Column.spaces width) := by
  cases h with
  | resizes kept gap width hmessage happend hgap hcovers hreplacement hwidth =>
    refine ⟨_, gap, width, ?_, hcovers, fun c hc => Text.isBlank_of_isGap (hgap c hc),
      .inl hreplacement⟩
    rw [happend, Text.joinSegments_concat_append]
  | wraps kept gap indent hmessage hindent happend hgap hcovers hreplacement =>
    refine ⟨_, gap, indent, ?_, hcovers, fun c hc => Text.isBlank_of_isGap (hgap c hc),
      .inr hreplacement⟩
    rw [happend, Text.joinSegments_concat_append]
  | joins kept gap width hmessage happend hgap hkept hcovers hreplacement =>
    exact ⟨kept, gap, width, happend, hcovers, hgap, .inl hreplacement⟩

/-- A safe fix changes one piece of the text. -/
theorem segments_of_isSafe (h : Suggested f source full before rest fix)
    (hplace : f.PointsAt source full before rest) (hsafe : fix.isSafe = true) :
    ∃ kept gap piece, fix.Covers kept gap ∧ joinSegments (full ++ [before]) = kept ++ gap ∧
      '\n' ∉ gap ∧ '\n' ∉ fix.replacement.toList ∧
      segments (kept ++ fix.replacement.toList ++ rest) =
        source.segments.set full.length piece := by
  unfold Fix.isSafe at hsafe
  cases h with
  | resizes kept gap width hmessage happend hgap hcovers hreplacement hwidth =>
    subst happend
    obtain ⟨head, tail, hrest⟩ := List.exists_cons_of_ne_nil (Text.segments_ne_nil rest)
    refine ⟨_, gap, kept ++ Column.spaces width ++ head, hcovers,
      Text.joinSegments_concat_append _ _ _, ?_, ?_, ?_⟩
    · exact fun hmem => Text.ne_newline_of_isGap (hgap _ hmem) rfl
    · rw [hreplacement]
      exact Column.newline_not_mem_spaces width
    · have hold : source.segments = full ++ (kept ++ gap ++ head) :: tail := by
        rw [source.segments_eq, hplace.text,
          Text.segments_joinSegments_append hplace.newline hrest]
      rw [hreplacement, ← Text.joinSegments_concat_append,
        Text.segments_joinSegments_append (hplace.newline_resized width) hrest, hold,
        List.set_append_right _ _ (Nat.le_refl _), Nat.sub_self, List.set_cons_zero]
  | wraps _ _ _ _ _ _ _ _ _ hrisky =>
    rw [hrisky] at hsafe
    cases hsafe
  | joins _ _ _ _ _ _ _ _ _ _ hrisky =>
    rw [hrisky] at hsafe
    cases hsafe

end Suggested

/-- A fix touches nothing but blanks. Its range lies in the text, between characters, and covers
only blanks; the replacement is some spaces, or a line end and some spaces. So the characters that
are no blanks are the same before and after. If the fix is safe, neither the range nor the
replacement has a line end: the number of lines stays, and each line but that of the finding. -/
theorem suggestFix?_edits_blanks (f : Finding) (source : SourceText) {fix : Fix}
    (h : suggestFix? f source = some fix) :
    let old := source.text.toList
    let text := fix.replacement.toList
    fix.Fits old ∧ ∃ before gap after new,
      old = before ++ gap ++ after ∧ byteSize before = fix.startOffset
      ∧ byteSize (before ++ gap) = fix.endOffset
      ∧ (∀ c ∈ gap, isBlank c = true)
      ∧ (∃ n, text = Column.spaces n ∨ text = '\n' :: Column.spaces n)
      ∧ fix.replaceIn? old = some new ∧ new = before ++ text ++ after
      ∧ new.filter (fun c => !isBlank c) = old.filter (fun c => !isBlank c)
      ∧ (fix.isSafe = true → '\n' ∉ gap ∧ '\n' ∉ text ∧
        let edited := source.edited new
        edited.lineCount = source.lineCount
          ∧ ∀ n, n + 1 ≠ f.line → edited.segments[n]? = source.segments[n]?) := by
  intro old text
  obtain ⟨full, before, rest, hplace, hfix⟩ := suggestFix?_cases h
  obtain ⟨kept, gap, width, hcut, hcovers, hgap, htext⟩ := hfix.exists_covers
  have hold : old = kept ++ gap ++ rest := by
    rw [← hcut]
    exact hplace.text
  have hblank : ∀ c ∈ text, isBlank c = true := by
    have hspaces : ∀ c ∈ Column.spaces width, isBlank c = true := by
      intro c hc
      rw [List.eq_of_mem_replicate hc]
      rfl
    rcases htext with htext | htext <;> rw [show text = _ from htext]
    · exact hspaces
    · exact List.forall_mem_cons.2 ⟨rfl, hspaces⟩
  refine ⟨hold ▸ hcovers.fits rest, kept, gap, rest, kept ++ text ++ rest, hold, hcovers.start, ?_,
    hgap, ⟨width, htext⟩, ?_, rfl, ?_, ?_⟩
  · rw [Text.byteSize_append, hcovers.start, hcovers.stop]
  · rw [hold]
    exact Fix.replaceIn?_append rest hcovers.start hcovers.stop
  · simp only [hold, List.filter_append, Text.filter_eq_nil_of_isBlank hgap,
      Text.filter_eq_nil_of_isBlank hblank]
  · intro hsafe
    obtain ⟨kept', gap', piece, hcovers', hcut', hgap', htext', hnew⟩ :=
      hfix.segments_of_isSafe hplace hsafe
    -- The range starts at one place of the text.
    obtain ⟨rfl, rfl⟩ := Text.append_inj_of_byteSize_eq (hcut.symm.trans hcut')
      (hcovers.start.trans hcovers'.start.symm)
    have hsegments : (source.edited (kept ++ text ++ rest)).segments =
        source.segments.set full.length piece := by
      rw [SourceText.segments_eq, source.toList_text_edited, hnew]
    refine ⟨hgap', htext', ?_, fun n hn => ?_⟩
    · rw [SourceText.lineCount, hsegments, List.length_set, SourceText.lineCount]
    · have hne : full.length ≠ n := by
        rw [hplace.line] at hn
        omega
      rw [hsegments, List.getElem?_set_ne hne]

/-- A tab before a token gives way to one space; the bytes of the letter before it and the carriage
return after the line stay. -/
theorem suggestFix?_edits_blanks_tab :
    let source := SourceText.ofString "é\t= 1;\r\nb;" 4
    ∃ fix, suggestFix? ⟨1, 5, 2, 1, .column "=" 3 5, some 2⟩ source = some fix
      ∧ fix.isSafe = true ∧ fix.Fits source.text.toList
      ∧ ∃ new, fix.replaceIn? source.text.toList = some new ∧ new = "é = 1;\r\nb;".toList
        ∧ new.filter (fun c => !isBlank c) = source.text.toList.filter (fun c => !isBlank c) := by
  intro source
  have hfix : suggestFix? ⟨1, 5, 2, 1, .column "=" 3 5, some 2⟩ source =
      some ⟨"move to column 3", " ", 2, 3, .safe⟩ := by
    decide +kernel
  obtain ⟨hfits, _, _, _, new, -, -, -, -, -, hnew, -, hfilter, -⟩ :=
    suggestFix?_edits_blanks _ source hfix
  have htext : Fix.replaceIn? ⟨"move to column 3", " ", 2, 3, .safe⟩ source.text.toList =
      some "é = 1;\r\nb;".toList := by
    decide +kernel
  exact ⟨_, hfix, rfl, hfits, new, hnew, Option.some.inj (hnew.symm.trans htext), hfilter⟩

end TreeLayout
