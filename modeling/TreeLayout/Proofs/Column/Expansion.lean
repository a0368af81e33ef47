import TreeLayout.Proofs.Column.Tabs

/-!
# Expanded lines and expanded columns

Columns, indentations and lines with their tabs written as spaces are computed apart from each
other. They agree: what is written for the first characters of a line is as long as the expanded
column after them says (`length_expandTabs_take`), so that a character stands in the expanded line
where its expanded column points (`getElem?_expandTabs`), and the indentation of a line is the
expanded column after its opening blanks (`indentation_eq_expanded`). A mark that is put below an
expanded line at an expanded column stands below its character (`expandTabs_meets_columns`).

The number of characters of a text is not counted in words. So where lengths or columns are
compared, the exact column has to fit words. Up to a column that fits words count exactly
(`expandFrom_of_holds`), and it is enough to compare exact columns.
-/

namespace TreeLayout.Column

variable {a : Arithmetic} {w tabWidth k : Nat} {cs : List Char}

/-- Counted exactly, what is written for some characters ends at the width that is reached after
them. -/
theorem length_expandFrom (hw : 0 < w) (start : Nat) (cs : List Char) :
    start + (expandFrom .exact w start cs).length = cs.foldl (advance .exact w) start := by
  induction cs generalizing start with
  | nil => rfl
  | cons c cs ih =>
    rw [expandFrom_cons, List.length_append, List.foldl_cons, ← ih, ← Nat.add_assoc]
    -- What is written for the first character alone leads to the next column.
    congr 1
    obtain ⟨-, n, hnext, hchar⟩ | ⟨-, hnext, hchar⟩ :=
      expandChar_cases hw (Arithmetic.holds_exact w) (Arithmetic.holds_exact start) c
    · rw [hnext, hchar, List.length_replicate]
    · rw [hnext, hchar, List.length_singleton]

/-- Up to a width that fits, tabs are written as exact arithmetic writes them. -/
theorem expandFrom_of_holds (hw : 0 < w) {start : Nat}
    (h : a.Holds (cs.foldl (advance .exact w) start)) :
    expandFrom a w start cs = expandFrom .exact w start cs := by
  induction cs generalizing start with
  | nil => rfl
  | cons c cs ih =>
    rw [List.foldl_cons] at h
    have hnext : advance a w start c = advance .exact w start c := by
      rw [advance_eq_fit, h.of_le (le_foldl_advance hw cs _)]
    obtain ⟨n, -, hexact⟩ := advance_exact hw start c
    have hle : start ≤ advance .exact w start c := by omega
    rw [expandFrom_cons, expandFrom_cons, expandChar, expandChar, hnext, Arithmetic.sub,
      Arithmetic.sub, if_pos hle, if_pos hle, ih h]

/-- Written with spaces for its tabs, a text is as long as it is wide, if its width fits. -/
theorem length_expandTabs (h : a.Holds (width .exact (max tabWidth 1) cs)) :
    (expandTabs a cs tabWidth).length = width .exact (max tabWidth 1) cs := by
  have hw := zero_lt_max tabWidth
  have hlength := length_expandFrom hw 0 cs
  rw [Nat.zero_add] at hlength
  rw [expandTabs, expandFrom_of_holds hw h, hlength, width]

/-- In a line, an expanded column is the width of the characters before it. -/
theorem expanded_of_le (h : k ≤ cs.length) (tabWidth : Nat) :
    expanded a cs k tabWidth = width a (max tabWidth 1) (cs.take k) := by
  rw [expanded, Nat.sub_eq_zero_of_le h]
  exact holds_width _

/-- What is written for the first characters of a line ends at the expanded column after them. -/
theorem length_expandTabs_take (hk : k ≤ cs.length)
    (h : a.Holds (expanded .exact cs k tabWidth)) :
    (expandTabs a (cs.take k) tabWidth).length = expanded a cs k tabWidth := by
  rw [expanded_of_holds h]
  rw [expanded_of_le hk] at h ⊢
  exact length_expandTabs h

/-- A character that is no tab stands in the expanded line at its expanded column. -/
theorem getElem?_expandTabs {c : Char} (hget : cs[k]? = some c) (hc : c ≠ '\t')
    (h : a.Holds (expanded .exact cs k tabWidth)) :
    (expandTabs a cs tabWidth)[expanded a cs k tabWidth]? = some c := by
  obtain ⟨hk, hget⟩ := List.getElem?_eq_some_iff.1 hget
  have hcut : cs = cs.take k ++ c :: cs.drop (k + 1) := by
    rw [← hget, List.getElem_cons_drop, List.take_append_drop]
  -- The expanded line goes on with the character itself after what is written before it.
  obtain ⟨rest, hrest⟩ : ∃ rest, expandTabs a cs tabWidth =
      expandTabs a (cs.take k) tabWidth ++ c :: rest := by
    unfold expandTabs
    rw [hcut, expandFrom_append, expandFrom_cons, expandChar, if_neg hc, ← hcut]
    exact ⟨_, rfl⟩
  rw [hrest, ← length_expandTabs_take (Nat.le_of_lt hk) h,
    List.getElem?_append_right (Nat.le_refl _), Nat.sub_self, List.getElem?_cons_zero]

/-- The indentation of a line is the expanded column after the blanks that open it. -/
theorem indentation_eq_expanded (cs : List Char) (tabWidth : Nat) :
    indentation a cs tabWidth =
      expanded a cs (cs.takeWhile fun c => c = ' ' || c = '\t').length tabWidth := by
  have hopening := List.takeWhile_prefix (l := cs) fun c => decide (c = ' ') || decide (c = '\t')
  rw [expanded_of_le hopening.length_le, ← List.prefix_iff_eq_take.1 hopening, indentation]

/-- A column that fits lies further right than the columns before it. -/
theorem expanded_lt_expanded {k' : Nat} (hlt : k < k')
    (h : a.Holds (expanded .exact cs k' tabWidth)) :
    expanded a cs k tabWidth < expanded a cs k' tabWidth := by
  have hexact := strictMono_expanded cs tabWidth hlt
  rwa [expanded_of_holds h, expanded_of_holds (h.of_le (Nat.le_of_lt hexact))]

/-- Columns, indentation and expanded lines agree, whatever the tab width is. As far as the columns
fit, an expanded column is the length of what is written for the characters before it; columns grow
strictly; and a character that is no tab stands in the expanded line at its expanded column. The
indentation is the column after the opening blanks, and no tab is left in the expanded line. -/
theorem expandTabs_meets_columns (a : Arithmetic) (cs : List Char) (tabWidth : Nat) :
    (∀ k, k ≤ cs.length → a.Holds (expanded .exact cs k tabWidth) →
        expanded a cs k tabWidth = (expandTabs a (cs.take k) tabWidth).length) ∧
      (∀ k k', k < k' → a.Holds (expanded .exact cs k' tabWidth) →
        expanded a cs k tabWidth < expanded a cs k' tabWidth) ∧
      (∀ k c, cs[k]? = some c → c ≠ '\t' → a.Holds (expanded .exact cs k tabWidth) →
        (expandTabs a cs tabWidth)[expanded a cs k tabWidth]? = some c) ∧
      indentation a cs tabWidth =
        expanded a cs (cs.takeWhile fun c => c = ' ' || c = '\t').length tabWidth ∧
      '\t' ∉ expandTabs a cs tabWidth := by
  refine ⟨?_, ?_, ?_, ?_, ?_⟩
  · intro k hk h
    exact (length_expandTabs_take hk h).symm
  · intro k k' hlt h
    exact expanded_lt_expanded hlt h
  · intro k c hget hc h
    exact getElem?_expandTabs hget hc h
  · exact indentation_eq_expanded cs tabWidth
  · exact tab_not_mem_expandTabs cs tabWidth

/-- With tabs before and inside the text, and tab stops two columns apart, a character is found at
its column, and a place past the end of the line is further to the right. -/
theorem expandTabs_meets_columns_mixed :
    expanded .words [' ', '\t', 'x', '\t', 'y'] 4 2 =
        (expandTabs .words [' ', '\t', 'x', '\t'] 2).length ∧
      expanded .words [' ', '\t', 'x', '\t', 'y'] 4 2 <
        expanded .words [' ', '\t', 'x', '\t', 'y'] 7 2 ∧
      (expandTabs .words [' ', '\t', 'x', '\t', 'y'] 2)[
          expanded .words [' ', '\t', 'x', '\t', 'y'] 4 2]? = some 'y' := by
  obtain ⟨hlength, hlt, hget, -, -⟩ :=
    expandTabs_meets_columns .words [' ', '\t', 'x', '\t', 'y'] 2
  exact ⟨hlength 4 (by decide) (by decide), hlt 4 7 (by decide) (by decide),
    hget 4 'y' rfl (by decide) (by decide)⟩

end TreeLayout.Column
