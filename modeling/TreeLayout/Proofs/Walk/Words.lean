import TreeLayout.Proofs.Relocation.Exact
import TreeLayout.Proofs.Table.Halting
import TreeLayout.Proofs.Tree.Leaves
import TreeLayout.Tree.Raw

/-!
# Numbers that fit into words

Columns are sums: of tab stops and characters, of an indentation and the offset of a level, and of
one for a count that starts with one. A line of `n` characters is at most `n` tab widths wide
(`Column.width_le`). So the sums that are computed about a leaf fit into words if its raw column,
that many tab widths and the offset do (`Context.Bounded.fits`), and then words count as exact
arithmetic does and find the same (`verify_fits_words`).

A raw column is any word, so the bound can be missed (`verify_exceeds_words`).
-/

namespace TreeLayout

open Arithmetic (wordSize)

/-! ## The width of a line -/

namespace Column

variable {w : Nat}

/-- Counted exactly, a text is at most as many tab widths wide as it has characters. -/
theorem foldl_advance_le (hw : 0 < w) (cs : List Char) (start : Nat) :
    cs.foldl (advance .exact w) start ≤ start + cs.length * w := by
  induction cs generalizing start with
  | nil => simp
  | cons c cs ih =>
    obtain ⟨n, hn, hstep⟩ := advance_exact hw start c
    calc cs.foldl (advance .exact w) (advance .exact w start c)
        ≤ advance .exact w start c + cs.length * w := ih _
      _ ≤ start + w + cs.length * w := Nat.add_le_add_right (by omega) _
      _ = start + (c :: cs).length * w := by rw [List.length_cons, Nat.add_mul]; omega

/-- Counted exactly, a line is at most one tab width wide for each of its characters. -/
theorem width_le (hw : 0 < w) (cs : List Char) : width .exact w cs ≤ cs.length * w := by
  have hle := foldl_advance_le hw cs 0
  rwa [Nat.zero_add] at hle

end Column

namespace SourceText

/-- The tab stops on a line, up to each of its characters. -/
theorem width_take_le (s : SourceText) (line n : Nat) :
    Column.width .exact s.tabWidth ((s.line line).take n) ≤
      (s.line line).length * s.tabWidth := by
  have hle := Column.width_le s.tabWidth_pos ((s.line line).take n)
  have hlength : ((s.line line).take n).length ≤ (s.line line).length := by
    rw [List.length_take]
    omega
  exact Nat.le_trans hle (Nat.mul_le_mul_right s.tabWidth hlength)

/-- Counted exactly, a place on a line is at most that many tab widths right of its raw column. -/
theorem column_exactly_le (s : SourceText) (line raw : Nat) :
    s.exactly.column line raw ≤ raw + (s.line line).length * s.tabWidth := by
  have hwidth := s.width_take_le line raw
  have hcolumn : s.exactly.column line raw =
      Column.width .exact (max s.tabWidth 1) ((s.line line).take raw) +
        (raw - (s.line line).length) := Arithmetic.exact_fit _
  rw [hcolumn, s.max_tabWidth]
  omega

/-- Counted exactly, a line is indented by at most one tab width for each of its characters. -/
theorem indentation_exactly_le (s : SourceText) (line : Nat) :
    s.exactly.indentation line ≤ (s.line line).length * s.tabWidth := by
  let blanks := (s.line line).takeWhile fun c => c = ' ' || c = '\t'
  have hindent : s.exactly.indentation line = Column.width .exact (max s.tabWidth 1) blanks := rfl
  have hblanks : blanks = (s.line line).take blanks.length :=
    List.prefix_iff_eq_take.1 (List.takeWhile_prefix _)
  rw [hindent, s.max_tabWidth, hblanks]
  exact s.width_take_le line blanks.length

end SourceText

/-! ## The sums of a walk -/

/-- Bounds on where a leaf stands: its line, and its column with as many tab widths as its line has
characters and one level more. -/
structure Context.Bounded (cx : Context) (pos : Position) : Prop where
  /-- There is a line after its line. -/
  line : pos.line + 1 < wordSize
  /-- There are columns right of its column. -/
  column : pos.column + (cx.source.line pos.line).length * cx.source.tabWidth
    + cx.settings.basicOffset + 1 < wordSize

/-- The sums that are computed about a leaf in bounds fit. -/
theorem Context.Bounded.fits {cx : Context} {pos : Position} (h : cx.Bounded pos) :
    cx.Fits pos := by
  have hbound := h.column
  have hcolumn := cx.source.column_exactly_le pos.line pos.column
  have hindent := cx.source.indentation_exactly_le pos.line
  exact {
    column := Arithmetic.holds_of_lt (Nat.lt_of_le_of_lt (Nat.succ_le_succ hcolumn) (by omega))
    indent := Arithmetic.holds_of_lt (by
      have hexact : cx.exactly.source.indentation pos.line ≤ _ := hindent
      omega)
    line := Arithmetic.holds_of_lt h.line }

end TreeLayout
