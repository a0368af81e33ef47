import TreeLayout.Proofs.Column.Expansion
import TreeLayout.Proofs.Fix.Blanks
import TreeLayout.Proofs.Relocation.Exact
import TreeLayout.Proofs.Walk.Findings

/-!
# Fixes put a token where the finding asks for it

A finding of a walk is measured by the source: its column is that of the token, and a column that is
asked for is the indentation of the token if it starts its line (`Finding.Measured`). Where a
character that is no blank stands at the place of the finding, it stands after the edit where the
finding asks for it (`Finding.MetAt`, `suggestFix?_places_token`).

For a token in the middle of its line the new gap is computed from the width of the old one. It
comes out right although there may be tabs in the gap and before it: the width of what is kept does
not depend on what follows, and after it each space adds one column. The fix adds the column of the
token and the column that is asked for, so their sum has to fit (`Finding.SumFits`).
-/

namespace TreeLayout

open Text (byteSize joinSegments isGap isBlank)
open Builder (advanceBy)

/-! ## Widths -/

namespace Column

variable {a : Arithmetic} {w : Nat}

/-- Spaces add their number to a width. -/
theorem width_append_spaces (cs : List Char) (n : Nat) :
    width a w (cs ++ spaces n) = a.fit (width a w cs + n) := by
  rw [width, List.foldl_append,
    foldl_advance_of_not_mem (tab_not_mem_spaces n) (holds_foldl_advance cs (Arithmetic.holds_zero a)),
    spaces, List.length_replicate, width]

/-- Counted exactly, a text is no wider than what it is the start of. -/
theorem width_le_append (hw : 0 < w) (cs cs' : List Char) :
    width .exact w cs ≤ width .exact w (cs ++ cs') := by
  rw [width, width, List.foldl_append]
  exact le_foldl_advance hw cs' _

end Column

namespace SourceText

variable {source : SourceText} {line : Nat} {before tail : List Char}

/-- The column of a place on a line is the width of what stands before it. -/
theorem column_of_line_eq (h : source.line line = before ++ tail) :
    source.column line before.length = Column.width source.arithmetic source.tabWidth before := by
  rw [column, Column.expanded, h, List.take_left, source.max_tabWidth, List.length_append,
    Nat.sub_eq_zero_of_le (Nat.le_add_right _ _)]
  exact Column.holds_width _

end SourceText

/-! ## Where a character stands -/

/-- A character stands at a position of a source, after the characters `before` on its line. -/
structure SourceText.ShowsAt (source : SourceText) (pos : Position) (before : List Char)
    (c : Char) : Prop where
  /-- The character is on the line, at the raw column. -/
  char : (source.line pos.line)[pos.column]? = some c
  /-- What stands before it on the line. -/
  start : (source.line pos.line).take pos.column = before
  /-- The expanded column is the width of what stands before. -/
  column : source.column pos.line pos.column =
    Column.width source.arithmetic source.tabWidth before

/-- A character that is no blank stands at the cursor that has passed the text before it. -/
theorem Text.Passed.showsAt {passed upto last rest : List Char} {full : List (List Char)} {c : Char}
    (h : Passed passed full upto last) (hc : isBlank c = false) {source : SourceText}
    (hsource : source.text.toList = passed ++ c :: rest) :
    source.ShowsAt (advanceBy ⟨1, 0⟩ passed) last c := by
  obtain ⟨-, tail, hline⟩ := h.exists_line_eq hc hsource
  rw [h.pos]
  constructor
  · simp only [hline]
    rw [List.getElem?_append_right (Nat.le_refl _), Nat.sub_self, List.getElem?_cons_zero]
  · simp only [hline]
    rw [List.take_left]
  · exact SourceText.column_of_line_eq hline

/-! ## Findings of a walk -/

/-- The numbers of a finding are those of a source: its column is that of its place, and a column
that is asked for is the indentation of the token. -/
structure Finding.Measured (f : Finding) (source : SourceText) : Prop where
  /-- The column of the finding, counted from one. -/
  column : f.column = source.arithmetic.add (source.column f.line f.rawColumn) 1
  /-- The columns of the message, counted from one. -/
  message {token : String} {expected actual : Nat} :
    f.message = .column token expected actual →
      actual = f.column ∧
        ∃ indent, f.indent = some indent ∧ expected = source.arithmetic.add indent 1

/-- The column of a finding and the column that it asks for have a sum that fits, counted from one. -/
def Finding.SumFits (f : Finding) (source : SourceText) : Prop :=
  ∀ indent ∈ f.indent,
    source.arithmetic.Holds (source.exactly.column f.line f.rawColumn + indent + 1)

/-- In exact arithmetic the sum fits. -/
theorem Finding.sumFits_of_exact {f : Finding} {source : SourceText}
    (h : source.arithmetic = .exact) : f.SumFits source :=
  fun _ _ => h ▸ Arithmetic.holds_exact _

/-- All findings of a walk are measured by its source. -/
theorem pervades_measured (cx : Context) : Pervades cx (fun _ => True) (fun _ => True)
    fun f => f.Measured cx.source where
  children _ _ := trivial
  base _ := ⟨trivial, trivial⟩
  here _ := trivial
  structural {t message} _ hmessage := by
    refine ⟨rfl, fun {token expected actual} hcolumn => ?_⟩
    rw [show message = .column token expected actual from hcolumn] at hmessage
    cases hmessage
  sameLine _ := ⟨rfl, nofun⟩
  column {t name c} _ _ := by
    refine ⟨rfl, ?_⟩
    rintro _ _ _ ⟨⟩
    exact ⟨rfl, c, rfl, rfl⟩
  mustWrap _ _ := ⟨rfl, nofun⟩

/-! ## What the finding asks for -/

/-- A token stands where a finding asks for it: in an edited source at `pos`, with `passed'` before
it, where `passed` was before it in the source of the finding. -/
def Finding.MetAt (f : Finding) (edited : SourceText) (pos : Position)
    (passed passed' : List Char) : Prop :=
  match f.message with
  | .column _ expected _ =>
    pos.line = f.line ∧ edited.arithmetic.add (edited.column pos.line pos.column) 1 = expected
  | .mustWrap _ =>
    (∀ d ∈ (edited.line pos.line).take pos.column, isBlank d = true) ∧
      f.indent = some (edited.column pos.line pos.column)
  | .sameLine _ _ => ∃ kept gap width,
      passed = kept ++ gap ∧ passed' = kept ++ Column.spaces width ∧
      (∀ d ∈ gap, isBlank d = true) ∧ (∀ d ∈ kept.getLast?, isBlank d = false) ∧ width ≤ 1
  | .unexpectedToken _ _ | .extraToken _ | .missingToken _ => False

section Placing

variable {f : Finding} {source : SourceText} {full : List (List Char)}
  {before rest : List Char} {fix : Fix} {c : Char}

/-- The gap before a token is as wide as the column asks for. -/
theorem width_resized {kept gap : List Char} {width expected : Nat} {token : String} {actual : Nat}
    (hplace : f.PointsAt source full (kept ++ gap) rest) (hmeasured : f.Measured source)
    (hfits : f.SumFits source) (hat : source.ShowsAt ⟨f.line, f.rawColumn⟩ (kept ++ gap) c)
    (hmessage : f.message = .column token expected actual)
    (hwidth : kept = [] ∧ width = f.indent.getD (source.arithmetic.sub expected 1) ∨
      actual < source.arithmetic.add (f.gapWidth source kept.length) expected ∧
        width = source.arithmetic.add (f.gapWidth source kept.length) expected - actual) :
    source.arithmetic.add
      (Column.width source.arithmetic source.tabWidth (kept ++ Column.spaces width)) 1 = expected := by
  obtain ⟨hactual, indent, hindent, hexpected⟩ := hmeasured.message hmessage
  have hsum := hfits indent hindent
  rw [Column.width_append_spaces, hexpected, Arithmetic.add, Arithmetic.fit_add_fit_left]
  rcases hwidth with ⟨rfl, hwidth⟩ | ⟨hlt, hwidth⟩
  · rw [hindent, Option.getD_some] at hwidth
    have hzero : Column.width source.arithmetic source.tabWidth [] = 0 := rfl
    rw [hzero, Nat.zero_add, hwidth, Arithmetic.add]
  · have hline : source.line f.line = kept ++ (gap ++ (source.line f.line).drop f.rawColumn) := by
      rw [← List.append_assoc, hplace.before, List.take_append_drop]
    have hraw : f.rawColumn ≤ (source.line f.line).length :=
      Nat.le_of_lt (List.getElem?_eq_some_iff.1 hat.char).1
    have hexact : source.exactly.column f.line f.rawColumn =
        Column.width .exact source.tabWidth (kept ++ gap) := by
      refine (Column.expanded_of_le hraw source.tabWidth).trans ?_
      rw [source.max_tabWidth, hat.start]
      rfl
    rw [hexact] at hsum
    -- The old gap was as wide as the place is away from what is kept, so no difference is cut off
    -- at zero.
    have hle := Column.width_le_append source.tabWidth_pos kept gap
    have hkept : Column.width source.arithmetic source.tabWidth kept =
        Column.width .exact source.tabWidth kept :=
      Column.width_of_holds source.tabWidth_pos (hsum.of_le (by omega))
    have hcolumn : f.column = Column.width .exact source.tabWidth (kept ++ gap) + 1 := by
      rw [hmeasured.column, hat.column,
        Column.width_of_holds source.tabWidth_pos (hsum.of_le (by omega))]
      exact Arithmetic.add_of_holds (hsum.of_le (by omega))
    have hgap : f.gapWidth source kept.length =
        Column.width .exact source.tabWidth (kept ++ gap) -
          Column.width .exact source.tabWidth kept := by
      rw [Finding.gapWidth, SourceText.column_of_line_eq hline, hkept, hcolumn, Arithmetic.sub,
        if_pos (Nat.le_add_left 1 _), Nat.add_sub_cancel]
    have hone : source.arithmetic.add indent 1 = indent + 1 :=
      Arithmetic.add_of_holds (hsum.of_le (by omega))
    rw [hgap, hexpected, hone, Arithmetic.add_of_holds (hsum.of_le (by omega)), hactual,
      hcolumn] at hlt hwidth
    rw [hkept]
    exact congrArg source.arithmetic.fit (by omega)

/-- Lines and the start of one more, with a character behind them that is no blank: the cursor is on
that line, and the character stands there. -/
theorem Text.showsAt_joinSegments (h : ∀ s ∈ full ++ [before], '\n' ∉ s) (hc : isBlank c = false)
    (hsource : source.text.toList = joinSegments (full ++ [before]) ++ c :: rest) :
    advanceBy ⟨1, 0⟩ (joinSegments (full ++ [before])) = ⟨full.length + 1, before.length⟩ ∧
      source.ShowsAt (advanceBy ⟨1, 0⟩ (joinSegments (full ++ [before]))) before c := by
  obtain ⟨upto, hpassed⟩ := Text.passed_joinSegments h
  exact ⟨hpassed.pos, hpassed.showsAt hc hsource⟩

/-- After the edit the character behind the place of a finding stands where the finding asks for. -/
theorem Suggested.metAt (h : Suggested f source full before (c :: rest) fix)
    (hplace : f.PointsAt source full before (c :: rest)) (hmeasured : f.Measured source)
    (hfits : f.SumFits source) (hat : source.ShowsAt ⟨f.line, f.rawColumn⟩ before c) (hc : isBlank c = false) :
    ∃ kept gap, joinSegments (full ++ [before]) = kept ++ gap ∧ fix.Covers kept gap ∧
      f.MetAt (source.edited (kept ++ fix.replacement.toList ++ c :: rest))
        (advanceBy ⟨1, 0⟩ (kept ++ fix.replacement.toList)) (kept ++ gap)
        (kept ++ fix.replacement.toList) := by
  cases h with
  | resizes kept gap width hmessage happend hgap hcovers hreplacement hwidth =>
    subst happend
    refine ⟨_, gap, Text.joinSegments_concat_append _ _ _, hcovers, ?_⟩
    rw [hreplacement, ← Text.joinSegments_concat_append]
    obtain ⟨hpos, hshows⟩ := Text.showsAt_joinSegments (hplace.newline_resized width) hc
      (source.toList_text_edited _)
    unfold Finding.MetAt
    rw [hmessage]
    refine ⟨?_, ?_⟩
    · rw [hpos, hplace.line]
    · rw [hshows.column, source.tabWidth_edited, source.arithmetic_edited]
      exact width_resized hplace hmeasured hfits hat hmessage hwidth
  | wraps kept gap indent hmessage hindent happend hgap hcovers hreplacement =>
    subst happend
    refine ⟨_, gap, Text.joinSegments_concat_append _ _ _, hcovers, ?_⟩
    -- What is kept of the line is a line of its own, and the spaces start the next one.
    rw [hreplacement, ← Text.joinSegments_concat (by simp)]
    have hkept := hplace.newline_resized 0
    have hnew : ∀ s ∈ full ++ [kept] ++ [Column.spaces indent], '\n' ∉ s := by
      rw [List.forall_mem_append, List.forall_mem_singleton, ← List.append_nil kept]
      exact ⟨hkept, Column.newline_not_mem_spaces indent⟩
    obtain ⟨-, hshows⟩ := Text.showsAt_joinSegments hnew hc (source.toList_text_edited _)
    unfold Finding.MetAt
    rw [hmessage]
    refine ⟨?_, ?_⟩
    · rw [hshows.start]
      intro d hd
      rw [List.eq_of_mem_replicate hd]
      rfl
    · have hholds : source.arithmetic.Holds indent := (hfits indent hindent).of_le (by omega)
      have hzero : Column.width source.arithmetic source.tabWidth [] = 0 := rfl
      rw [hshows.column, hindent, ← List.nil_append (Column.spaces indent),
        Column.width_append_spaces, source.arithmetic_edited, source.tabWidth_edited, hzero,
        Nat.zero_add, hholds]
  | joins kept gap width hmessage happend hgap hkept hcovers hreplacement hwidth =>
    refine ⟨kept, gap, happend, hcovers, ?_⟩
    unfold Finding.MetAt
    rw [hmessage, hreplacement]
    exact ⟨kept, gap, width, rfl, rfl, hgap, hkept, hwidth⟩

end Placing

/-- A character that is no blank at the place of a finding of a walk stands, after the edit of the
fix, where the finding asks for it. The range of the fix ends before the character. A column that is
asked for is its column then, on the same line; if the line should end before it, it is the first
character of its line that is no blank, and is indented as the finding says; if it should stand on
the line of what comes before, there is at most a space between it and the last character before it
that is no blank. The sum that
the fix computes has to fit, as it does in exact arithmetic (`Finding.sumFits_of_exact`). -/
theorem suggestFix?_places_token (cx : Context) (table : ProgramTable) (t : Tree) {f : Finding}
    {fix : Fix} {c : Char} (hf : f ∈ verify cx table t)
    (hc : (cx.source.line f.line)[f.rawColumn]? = some c) (hblank : isBlank c = false)
    (hfix : suggestFix? f cx.source = some fix) (hfits : f.SumFits cx.source) :
    ∃ passed passed' rest,
      cx.source.text.toList = passed ++ c :: rest ∧ byteSize passed = fix.endOffset
      ∧ advanceBy ⟨1, 0⟩ passed = ⟨f.line, f.rawColumn⟩
      ∧ fix.replaceIn? cx.source.text.toList = some (passed' ++ c :: rest)
      ∧ let edited := cx.source.edited (passed' ++ c :: rest)
        let pos := advanceBy ⟨1, 0⟩ passed'
        (edited.line pos.line)[pos.column]? = some c ∧ f.MetAt edited pos passed passed' := by
  have hmeasured : f.Measured cx.source := by
    unfold verify at hf
    exact (pervades_measured cx).walkFindings table trivial f (List.mem_mergeSort.1 hf)
  obtain ⟨full, before, rest, hplace, hsuggested⟩ := suggestFix?_cases hfix
  obtain ⟨hraw, hget⟩ := List.getElem?_eq_some_iff.1 hc
  -- The line goes on with the character at the place.
  obtain ⟨rest, rfl⟩ : ∃ rest', rest = c :: rest' := by
    obtain ⟨more, hmore⟩ := hplace.after
    rw [List.drop_eq_getElem_cons hraw, hget] at hmore
    exact ⟨_, hmore⟩
  have hlength : before.length = f.rawColumn := by
    rw [hplace.before, List.length_take, Nat.min_eq_left (Nat.le_of_lt hraw)]
  obtain ⟨hpos, hat⟩ := Text.showsAt_joinSegments hplace.newline hblank hplace.text
  rw [← hplace.line, hlength] at hpos
  rw [hpos] at hat
  obtain ⟨kept, gap, hcut, hcovers, hmet⟩ := hsuggested.metAt hplace hmeasured hfits hat hblank
  rw [hcut] at hpos
  refine ⟨kept ++ gap, kept ++ fix.replacement.toList, rest, ?_, ?_, hpos, ?_, ?_, hmet⟩
  · rw [hplace.text, hcut]
  · rw [Text.byteSize_append, hcovers.start, hcovers.stop]
  · rw [hplace.text, hcut]
    exact Fix.replaceIn?_append (c :: rest) hcovers.start hcovers.stop
  · obtain ⟨full', upto, last, hpassed⟩ :=
      Text.exists_passed (kept ++ fix.replacement.toList)
    exact (hpassed.showsAt hblank (cx.source.toList_text_edited _)).char

/-- Two fields on lines that start with a tab; before the second `=` there is a tab too, and it
gives way to one space. -/
theorem suggestFix?_places_token_tab :
    let source := SourceText.ofString "\x7b\n\tint a = 2;\n\tint b\t= 1;\n\x7d" 4
    let f : Finding := ⟨3, 13, 7, 1, .column "=" 11 13, some 10⟩
    ∃ table t fix, ProgramTable.ofSettings .strict = .ok table
      ∧ f ∈ verify ⟨source, .strict⟩ table t
      ∧ (source.line f.line)[f.rawColumn]? = some '=' ∧ isBlank '=' = false
      ∧ suggestFix? f source = some fix ∧ fix.replacement = " "
      ∧ ∃ passed passed' rest, source.text.toList = passed ++ '=' :: rest
        ∧ fix.replaceIn? source.text.toList = some (passed' ++ '=' :: rest)
        ∧ f.MetAt (source.edited (passed' ++ '=' :: rest)) (advanceBy ⟨1, 0⟩ passed') passed
          passed' := by
  intro source f
  let field (name value : String) (line : Nat) : Tree :=
    .node .fieldDecl (.token .identifier "int" ⟨line, 1⟩)
      [.token .identifier name ⟨line, 5⟩, .token .assign "=" ⟨line, 7⟩,
        .token .literal value ⟨line, 9⟩, .token .semi ";" ⟨line, 10⟩]
  let t : Tree := .node .classBody (.token .lBrace "\x7b" ⟨1, 0⟩)
    [field "a" "2" 2, field "b" "1" 3, .token .rBrace "\x7d" ⟨4, 0⟩]
  obtain ⟨table, htable⟩ := ProgramTable.exists_ofSettings .strict
  have hfound : (ProgramTable.ofSettings .strict).toOption.map (fun table =>
      decide (f ∈ walkFindings ⟨source, .strict⟩ table t)) = some true := by
    decide +kernel
  rw [htable] at hfound
  have hmem : f ∈ verify ⟨source, .strict⟩ table t := by
    unfold verify
    exact List.mem_mergeSort.2 (of_decide_eq_true (Option.some.inj hfound))
  have hchar : (source.line f.line)[f.rawColumn]? = some '=' := by decide +kernel
  have hfix : suggestFix? f source = some ⟨"move to column 11", " ", 20, 21, .safe⟩ := by
    decide +kernel
  have hfits : f.SumFits source := by
    rintro indent ⟨⟩
    decide +kernel
  obtain ⟨passed, passed', rest, htext, -, -, hnew, -, hmet⟩ :=
    suggestFix?_places_token ⟨source, .strict⟩ table t hmem hchar rfl hfix hfits
  exact ⟨table, t, _, htable, hmem, hchar, rfl, hfix, rfl, passed, passed', rest, htext, hnew, hmet⟩

end TreeLayout
