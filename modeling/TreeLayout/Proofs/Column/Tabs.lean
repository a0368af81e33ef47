import TreeLayout.Proofs.Text.Lines
import Mathlib.Data.List.Induction
import Mathlib.Order.Monotone.Basic

/-!
# Columns of lines that are expanded or indented

In a line without tabs a raw column is its expanded column. Written with spaces for its tabs, a line
has no tab, and the width of its opening blanks stays the same (`indentation_expandTabs`). This holds
in every arithmetic: where the width of a line starts from zero again, a tab is still written as the
spaces to its stop, since differences are taken in the same arithmetic.

Counted exactly, expanded columns grow strictly with raw ones (`strictMono_expanded`); in words the
next column is at least another one (`expanded_succ_ne`). A number of spaces before a line moves its
tab stops along if it is a multiple of the tab width, and then, counted exactly, it adds to all columns
of the line (`expanded_spaces_append`) and to its indentation (`indentation_spaces_append`).
-/

namespace TreeLayout.Column

variable {a : Arithmetic} {w : Nat} {cs : List Char}

/-! ## Lines without tabs -/

/-- After characters that are no tabs the width has grown by their number. -/
theorem foldl_advance_of_not_mem (h : '\t' ∉ cs) {start : Nat} (hstart : a.Holds start) :
    cs.foldl (advance a w) start = a.fit (start + cs.length) := by
  induction cs generalizing start with
  | nil => exact hstart.symm
  | cons c cs ih =>
    have hc : c ≠ '\t' := fun hc => h (hc ▸ List.mem_cons_self)
    have hcs : '\t' ∉ cs := fun hcs => h (List.mem_cons_of_mem c hcs)
    rw [List.foldl_cons, advance, if_neg hc, Arithmetic.add, ih hcs (Arithmetic.holds_fit _),
      Arithmetic.fit_add_fit_left, List.length_cons, Nat.add_assoc, Nat.add_comm 1]

/-- A text without tabs is as wide as it is long. -/
theorem width_of_not_mem (h : '\t' ∉ cs) : width a w cs = a.fit cs.length := by
  rw [width, foldl_advance_of_not_mem h (Arithmetic.holds_zero a), Nat.zero_add]

/-- In a line without tabs each raw column is its expanded column, also past the end. -/
theorem expanded_of_not_mem (h : '\t' ∉ cs) (raw : Nat) : expanded a cs raw w = a.fit raw := by
  have htake : '\t' ∉ cs.take raw := fun hmem => h (List.mem_of_mem_take hmem)
  have hsum : min raw cs.length + (raw - cs.length) = raw := by omega
  rw [expanded, width_of_not_mem htake, List.length_take, Arithmetic.add,
    Arithmetic.fit_add_fit_left, hsum]

/-! ## Widths in words and exact widths -/

/-- A width that is reached fits. -/
theorem holds_advance (start : Nat) (c : Char) : a.Holds (advance a w start c) := by
  unfold advance
  split <;> exact Arithmetic.holds_fit _

/-- The width after one more character is what is kept of the exact one. -/
theorem advance_eq_fit (start : Nat) (c : Char) :
    advance a w start c = a.fit (advance .exact w start c) := by
  unfold advance
  split
  · simp only [Arithmetic.mul, Arithmetic.add, Arithmetic.exact_fit, Arithmetic.fit_mul_fit_left]
  · simp only [Arithmetic.add, Arithmetic.exact_fit]

/-- A column that is reached from one that fits, fits. -/
theorem holds_foldl_advance (cs : List Char) {start : Nat} (hstart : a.Holds start) :
    a.Holds (cs.foldl (advance a w) start) := by
  induction cs generalizing start with
  | nil => exact hstart
  | cons c cs ih => exact ih (holds_advance start c)

/-- A width fits. -/
theorem holds_width (cs : List Char) : a.Holds (width a w cs) :=
  holds_foldl_advance cs (Arithmetic.holds_zero a)

/-- Counted exactly, a character takes at least one column and at most a tab width. -/
theorem advance_exact (hw : 0 < w) (start : Nat) (c : Char) :
    ∃ n, n < w ∧ advance .exact w start c = start + (n + 1) := by
  unfold advance
  simp only [Arithmetic.mul, Arithmetic.add, Arithmetic.exact_fit]
  split
  · have hmod := Nat.mod_lt start hw
    refine ⟨w - start % w - 1, by omega, ?_⟩
    calc (start / w + 1) * w = w * (start / w) + w := by rw [Nat.add_mul, Nat.one_mul, Nat.mul_comm]
      _ = w * (start / w) + start % w + (w - start % w) := by omega
      _ = start + (w - start % w - 1 + 1) := by rw [Nat.div_add_mod]; omega
  · exact ⟨0, hw, rfl⟩

/-! ## Tabs written as spaces -/

/-- What is written for one character. -/
def expandChar (a : Arithmetic) (w start : Nat) (c : Char) : List Char :=
  if c = '\t' then List.replicate (a.sub (advance a w start c) start) ' ' else [c]

/-- A text is written character by character. -/
theorem expandFrom_cons (a : Arithmetic) (w start : Nat) (c : Char) (cs : List Char) :
    expandFrom a w start (c :: cs) =
      expandChar a w start c ++ expandFrom a w (advance a w start c) cs := rfl

/-- A character is written as something, without tabs, that is as long as the width grows. -/
theorem expandChar_cases (hw : 0 < w) (hfit : a.Holds w) {start : Nat} (hstart : a.Holds start)
    (c : Char) :
    (c = '\t' ∧ ∃ n, advance .exact w start c = start + (n + 1) ∧
        expandChar a w start c = List.replicate (n + 1) ' ') ∨
      (c ≠ '\t' ∧ advance .exact w start c = start + 1 ∧ expandChar a w start c = [c]) := by
  by_cases hc : c = '\t'
  · obtain ⟨n, hn, hnext⟩ := advance_exact hw start c
    refine .inl ⟨hc, n, hnext, ?_⟩
    rw [expandChar, if_pos hc, advance_eq_fit, hnext,
      Arithmetic.sub_fit_add hstart (hfit.of_le hn)]
  · refine .inr ⟨hc, ?_, ?_⟩
    · rw [advance, if_neg hc, Arithmetic.add, Arithmetic.exact_fit]
    · rw [expandChar, if_neg hc]

/-- No tab is written. -/
theorem tab_not_mem_expandFrom (start : Nat) (cs : List Char) :
    '\t' ∉ expandFrom a w start cs := by
  induction cs generalizing start with
  | nil => exact List.not_mem_nil
  | cons c cs ih =>
    rw [expandFrom_cons, List.mem_append, not_or]
    refine ⟨?_, ih _⟩
    unfold expandChar
    split
    · simp
    · simp [Ne.symm ‹c ≠ '\t'›]

/-- A tab width, with zero read as one, is not zero. -/
theorem zero_lt_max (tabWidth : Nat) : 0 < max tabWidth 1 :=
  Nat.lt_of_lt_of_le Nat.zero_lt_one (Nat.le_max_right _ _)

/-- No tab is left in a line with its tabs written as spaces. -/
theorem tab_not_mem_expandTabs (line : List Char) (tabWidth : Nat) :
    '\t' ∉ expandTabs a line tabWidth :=
  tab_not_mem_expandFrom 0 line

/-- The blanks that open an expanded line are as many as the columns that those of the line take. -/
theorem length_takeWhile_expandFrom (hw : 0 < w) (hfit : a.Holds w) {start : Nat}
    (hstart : a.Holds start) (cs : List Char) :
    a.fit (start + ((expandFrom a w start cs).takeWhile fun c => c = ' ' || c = '\t').length) =
      (cs.takeWhile fun c => c = ' ' || c = '\t').foldl (advance a w) start := by
  induction cs generalizing start with
  | nil => exact hstart
  | cons c cs ih =>
    have hrest := ih (holds_advance (w := w) start c)
    have hadvance := advance_eq_fit (a := a) (w := w) start c
    rw [expandFrom_cons]
    obtain ⟨rfl, n, hnext, hchar⟩ | ⟨hc, hnext, hchar⟩ := expandChar_cases hw hfit hstart c
    · rw [hchar, List.takeWhile_append_of_pos (by simp), List.takeWhile_cons_of_pos (by simp),
        List.foldl_cons, ← hrest, List.length_append, List.length_replicate, ← Nat.add_assoc,
        ← hnext, ← Arithmetic.fit_add_fit_left, ← hadvance]
    · by_cases hspace : c = ' '
      · subst hspace
        rw [hchar, List.singleton_append, List.takeWhile_cons_of_pos (by simp),
          List.takeWhile_cons_of_pos (by simp), List.foldl_cons, ← hrest, List.length_cons,
          Nat.add_comm _ 1, ← Nat.add_assoc, ← hnext, ← Arithmetic.fit_add_fit_left, ← hadvance]
      · rw [hchar, List.singleton_append, List.takeWhile_cons_of_neg (by simp [hspace, hc]),
          List.takeWhile_cons_of_neg (by simp [hspace, hc])]
        exact hstart

/-- A line keeps its indentation when its tabs are written as spaces. -/
theorem indentation_expandTabs (line : List Char) {tabWidth : Nat}
    (hfit : a.Holds (max tabWidth 1)) (tabWidth' : Nat) :
    indentation a (expandTabs a line tabWidth) tabWidth' = indentation a line tabWidth := by
  have htab : '\t' ∉ (expandTabs a line tabWidth).takeWhile fun c => c = ' ' || c = '\t' :=
    fun hmem => tab_not_mem_expandTabs line tabWidth ((List.takeWhile_sublist _).subset hmem)
  rw [indentation, width_of_not_mem htab, indentation, width,
    ← length_takeWhile_expandFrom (zero_lt_max tabWidth) hfit (Arithmetic.holds_zero a),
    Nat.zero_add, expandTabs]

/-- A text is written piece by piece, each from where the one before it ends. -/
theorem expandFrom_append (a : Arithmetic) (w start : Nat) (cs cs' : List Char) :
    expandFrom a w start (cs ++ cs') =
      expandFrom a w start cs ++ expandFrom a w (cs.foldl (advance a w) start) cs' := by
  induction cs generalizing start with
  | nil => rfl
  | cons c cs ih =>
    rw [List.cons_append, expandFrom_cons, expandFrom_cons, ih, List.foldl_cons, List.append_assoc]

/-- Expanding a line keeps all characters but tabs. -/
theorem mem_expandFrom {start : Nat} {d : Char} (h : d ∈ expandFrom a w start cs) :
    d = ' ' ∨ d ∈ cs := by
  induction cs generalizing start with
  | nil => exact .inr h
  | cons c cs ih =>
    rw [expandFrom_cons, List.mem_append] at h
    obtain h | h := h
    · unfold expandChar at h
      split at h
      · exact .inl (List.eq_of_mem_replicate h)
      · exact .inr (List.mem_singleton.1 h ▸ List.mem_cons_self)
    · exact (ih h).imp id (List.mem_cons_of_mem c)

/-- Expanding a line keeps the carriage returns that end it. -/
theorem trimEnd_expandFrom (hw : 0 < w) (hfit : a.Holds w) {start : Nat} (hstart : a.Holds start)
    (cs : List Char) :
    Text.trimEnd (· = '\r') (expandFrom a w start cs) =
      expandFrom a w start (Text.trimEnd (· = '\r') cs) := by
  induction cs using List.reverseRecOn with
  | nil => rfl
  | append_singleton cs c ih =>
    rw [expandFrom_append, expandFrom_cons, expandFrom, List.append_nil]
    by_cases hc : c = '\r'
    · subst hc
      rw [expandChar, if_neg (by decide), Text.trimEnd_append_of_pos (by simp),
        Text.trimEnd_append_of_pos (by simp), ih]
    · rw [Text.trimEnd_append_of_neg (by simp [hc]), expandFrom_append, expandFrom_cons, expandFrom,
        List.append_nil]
      -- What is written for the last character ends in no carriage return either.
      obtain ⟨-, n, -, hchar⟩ | ⟨-, -, hchar⟩ :=
        expandChar_cases hw hfit (holds_foldl_advance (w := w) cs hstart) c
      · rw [hchar, List.replicate_succ', ← List.append_assoc, Text.trimEnd_append_of_neg (by simp)]
      · rw [hchar, Text.trimEnd_append_of_neg (by simp [hc])]

/-- Writing tabs as spaces leaves line ends alone. -/
theorem keepsEnds_expandTabs {tabWidth : Nat} (hfit : a.Holds (max tabWidth 1)) :
    Text.KeepsEnds (expandTabs a · tabWidth) := by
  have hw := zero_lt_max tabWidth
  refine ⟨fun cs hcs hmem => ?_, trimEnd_expandFrom hw hfit (Arithmetic.holds_zero a)⟩
  obtain hspace | hmem := mem_expandFrom hmem
  · exact absurd hspace (by decide)
  · exact hcs hmem

/-! ## Growing columns -/

/-- In a line, one more raw column counts one more character. -/
theorem expanded_succ_of_lt {raw : Nat} (hraw : raw < cs.length) (tabWidth : Nat) :
    expanded a cs raw tabWidth = width a (max tabWidth 1) (cs.take raw) ∧
      expanded a cs (raw + 1) tabWidth =
        advance a (max tabWidth 1) (width a (max tabWidth 1) (cs.take raw)) cs[raw] := by
  have hzero : raw - cs.length = 0 ∧ raw + 1 - cs.length = 0 := by omega
  unfold expanded
  rw [hzero.1, hzero.2, List.take_add_one, List.getElem?_eq_getElem hraw, Arithmetic.add,
    Arithmetic.add, Nat.add_zero, Nat.add_zero]
  refine ⟨holds_width _, ?_⟩
  rw [width, List.foldl_append]
  exact holds_advance _ _

/-- Past the end of a line each raw column counts one. -/
theorem expanded_succ_of_le {raw : Nat} (hraw : cs.length ≤ raw) (tabWidth : Nat) :
    ∃ n, expanded a cs raw tabWidth = a.fit n ∧ expanded a cs (raw + 1) tabWidth = a.fit (n + 1) := by
  refine ⟨width a (max tabWidth 1) cs + (raw - cs.length), ?_, ?_⟩
  · rw [expanded, List.take_of_length_le hraw, Arithmetic.add]
  · rw [expanded, List.take_of_length_le (Nat.le_succ_of_le hraw), Arithmetic.add,
      Nat.succ_sub hraw]
    rfl

/-- The next raw column has another expanded column. -/
theorem expanded_succ_ne (cs : List Char) {tabWidth : Nat} (hfit : a.Holds (max tabWidth 1))
    (raw : Nat) : expanded a cs (raw + 1) tabWidth ≠ expanded a cs raw tabWidth := by
  obtain hraw | hraw := Nat.lt_or_ge raw cs.length
  · obtain ⟨hhere, hnext⟩ := expanded_succ_of_lt (a := a) hraw tabWidth
    rw [hhere, hnext]
    intro heq
    -- The difference between the two widths is what the character takes, and not nothing.
    obtain ⟨n, hn, hexact⟩ := advance_exact (zero_lt_max tabWidth)
      (width a (max tabWidth 1) (cs.take raw)) cs[raw]
    have hsub := Arithmetic.sub_fit_add (holds_width (a := a) (w := max tabWidth 1) (cs.take raw))
      (hfit.of_le hn)
    rw [← hexact, ← advance_eq_fit, heq, Arithmetic.sub, if_pos (Nat.le_refl _), Nat.sub_self] at hsub
    cases hsub
  · obtain ⟨n, hhere, hnext⟩ := expanded_succ_of_le (a := a) hraw tabWidth
    rw [hhere, hnext]
    exact Arithmetic.fit_succ_ne a n

/-- Counted exactly, the next character stands further right. -/
theorem expanded_lt_expanded_succ (cs : List Char) (tabWidth raw : Nat) :
    expanded .exact cs raw tabWidth < expanded .exact cs (raw + 1) tabWidth := by
  obtain hraw | hraw := Nat.lt_or_ge raw cs.length
  · obtain ⟨hhere, hnext⟩ := expanded_succ_of_lt (a := .exact) hraw tabWidth
    obtain ⟨n, -, hadvance⟩ := advance_exact (zero_lt_max tabWidth)
      (width .exact (max tabWidth 1) (cs.take raw)) cs[raw]
    omega
  · obtain ⟨n, hhere, hnext⟩ := expanded_succ_of_le (a := .exact) hraw tabWidth
    rw [hhere, hnext, Arithmetic.exact_fit, Arithmetic.exact_fit]
    exact Nat.lt_succ_self n

/-- Counted exactly, expanded columns grow with raw columns, inside of tabs and past the end of the
line too. -/
theorem strictMono_expanded (cs : List Char) (tabWidth : Nat) :
    StrictMono fun raw => expanded .exact cs raw tabWidth :=
  strictMono_nat_of_lt_succ (expanded_lt_expanded_succ cs tabWidth)

/-! ## Widths that fit -/

/-- Counted exactly, widths grow. -/
theorem le_foldl_advance (hw : 0 < w) (cs : List Char) (start : Nat) :
    start ≤ cs.foldl (advance .exact w) start := by
  induction cs generalizing start with
  | nil => exact Nat.le_refl start
  | cons c cs ih =>
    obtain ⟨n, -, hnext⟩ := advance_exact hw start c
    have hle := ih (advance .exact w start c)
    rw [List.foldl_cons]
    omega

/-- A width that fits is exact. -/
theorem foldl_advance_of_holds (hw : 0 < w) (cs : List Char) {start : Nat}
    (h : a.Holds (cs.foldl (advance .exact w) start)) :
    cs.foldl (advance a w) start = cs.foldl (advance .exact w) start := by
  induction cs generalizing start with
  | nil => rfl
  | cons c cs ih =>
    rw [List.foldl_cons] at h
    have hnext := h.of_le (le_foldl_advance hw cs _)
    rw [List.foldl_cons, List.foldl_cons, advance_eq_fit, hnext, ih h]

/-- A width that fits is exact. -/
theorem width_of_holds (hw : 0 < w) (h : a.Holds (width .exact w cs)) :
    width a w cs = width .exact w cs :=
  foldl_advance_of_holds hw cs h

/-- An expanded column that fits is exact. -/
theorem expanded_of_holds {tabWidth raw : Nat} (h : a.Holds (expanded .exact cs raw tabWidth)) :
    expanded a cs raw tabWidth = expanded .exact cs raw tabWidth := by
  have hexact : expanded .exact cs raw tabWidth =
      width .exact (max tabWidth 1) (cs.take raw) + (raw - cs.length) := Arithmetic.exact_fit _
  rw [hexact] at h ⊢
  rw [expanded, width_of_holds (zero_lt_max tabWidth) (h.of_le (Nat.le_add_right _ _)),
    Arithmetic.add_of_holds h]

/-- An indentation that fits is exact. -/
theorem indentation_of_holds {tabWidth : Nat} (h : a.Holds (indentation .exact cs tabWidth)) :
    indentation a cs tabWidth = indentation .exact cs tabWidth :=
  width_of_holds (zero_lt_max tabWidth) h

/-! ## Lines moved by spaces -/

/-- Counted exactly, tab stops repeat after a multiple of the tab width. -/
theorem advance_add {k : Nat} (hk : w ∣ k) (start : Nat) (c : Char) :
    advance .exact w (start + k) c = advance .exact w start c + k := by
  unfold advance
  simp only [Arithmetic.mul, Arithmetic.add, Arithmetic.exact_fit]
  split
  · obtain ⟨n, rfl⟩ := hk
    obtain rfl | hw := Nat.eq_zero_or_pos w
    · simp
    · rw [Nat.add_mul_div_left _ _ hw, Nat.add_right_comm, Nat.add_mul, Nat.mul_comm n w]
  · exact Nat.add_right_comm start k 1

/-- Counted exactly, a start that is moved by whole tab stops moves the end by as much. -/
theorem foldl_advance_add {k : Nat} (hk : w ∣ k) (start : Nat) (cs : List Char) :
    cs.foldl (advance .exact w) (start + k) = cs.foldl (advance .exact w) start + k := by
  induction cs generalizing start with
  | nil => rfl
  | cons c cs ih => rw [List.foldl_cons, List.foldl_cons, advance_add hk, ih]

/-- Spaces are no tabs. -/
theorem tab_not_mem_spaces (k : Nat) : '\t' ∉ spaces k := by
  simp [spaces]

/-- Counted exactly, whole tab stops before a text add to its width. -/
theorem width_spaces_append {k : Nat} (hk : w ∣ k) (cs : List Char) :
    width .exact w (spaces k ++ cs) = width .exact w cs + k := by
  have hspaces : width .exact w (spaces k) = k := by
    rw [width_of_not_mem (tab_not_mem_spaces k), spaces, List.length_replicate,
      Arithmetic.exact_fit]
  have hfrom := foldl_advance_add hk 0 cs
  rw [Nat.zero_add] at hfrom
  rw [width, List.foldl_append, ← width, hspaces, hfrom, ← width]

variable {k tabWidth : Nat}

/-- Spaces before a line move all of its columns, if they move its tab stops too. -/
theorem expanded_spaces_append (hk : max tabWidth 1 ∣ k) (line : List Char) (raw : Nat) :
    expanded .exact (spaces k ++ line) (raw + k) tabWidth =
      expanded .exact line raw tabWidth + k := by
  have hlength : (spaces k).length = k := List.length_replicate
  have htake : (spaces k ++ line).take (raw + k) = spaces k ++ line.take raw := by
    rw [List.take_append, hlength, Nat.add_sub_cancel, List.take_of_length_le (by omega)]
  rw [expanded, expanded, htake, width_spaces_append hk, List.length_append, hlength,
    Arithmetic.add, Arithmetic.add, Arithmetic.exact_fit, Arithmetic.exact_fit]
  omega

/-- Spaces before a line move its indentation, if they move its tab stops too. -/
theorem indentation_spaces_append (hk : max tabWidth 1 ∣ k) (line : List Char) :
    indentation .exact (spaces k ++ line) tabWidth = indentation .exact line tabWidth + k := by
  have htake : (spaces k ++ line).takeWhile (fun c => c = ' ' || c = '\t') =
      spaces k ++ line.takeWhile fun c => c = ' ' || c = '\t' :=
    List.takeWhile_append_of_pos (by simp [spaces])
  rw [indentation, indentation, htake, width_spaces_append hk]

/-- Spaces before a line leave its end alone. -/
theorem keepsEnds_spaces_append (k : Nat) : Text.KeepsEnds (spaces k ++ ·) := by
  refine ⟨fun cs hcs => by simp [spaces, hcs], fun cs => ?_⟩
  induction cs using List.reverseRecOn with
  | nil =>
    cases k with
    | zero => rfl
    | succ k =>
      rw [List.append_nil, spaces, List.replicate_succ', Text.trimEnd_append_of_neg (by simp)]
      simp [Text.trimEnd]
  | append_singleton cs c ih =>
    rw [← List.append_assoc]
    by_cases hc : c = '\r'
    · rw [Text.trimEnd_append_of_pos (by simp [hc]), Text.trimEnd_append_of_pos (by simp [hc]), ih]
    · rw [Text.trimEnd_append_of_neg (by simp [hc]), Text.trimEnd_append_of_neg (by simp [hc]),
        List.append_assoc]

end TreeLayout.Column
