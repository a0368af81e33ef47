import TreeLayout.Proofs.Relocation.Exact

/-!
# Sources without tabs, and sources further in

Two ways of rewriting a source and moving its trees along. With all tabs written as spaces
(`SourceText.untabbed`) the findings keep everything but their raw columns
(`walkFindings_untabbed`). With all lines moved to the right by a multiple of the tab width
(`SourceText.indented`) the findings move to the right, and so do the columns that they name
(`walkFindings_indented`). In both cases the contexts before and after are shifted against each
other, so the walks agree.

The first holds in every arithmetic, since no column changes. In the second one columns grow, and tab
stops move along only while they are counted exactly, so there the sums in the moved tree have to fit.
-/

namespace TreeLayout

namespace SourceText

/-- The source with all tabs written as the spaces that they stand for. -/
def untabbed (s : SourceText) : SourceText :=
  s.mapLines (Column.expandTabs s.arithmetic · s.tabWidth)

/-- The source with a number of spaces before each line. -/
def indented (s : SourceText) (k : Nat) : SourceText := s.mapLines (Column.spaces k ++ ·)

/-- Writing tabs as spaces keeps the ends of lines. -/
theorem keepsEnds_untabbed (s : SourceText) :
    Text.KeepsEnds (Column.expandTabs s.arithmetic · s.tabWidth) :=
  Column.keepsEnds_expandTabs s.max_tabWidth_holds

/-- The lines of a source without tabs, in and outside of it. -/
theorem line_untabbed (s : SourceText) (n : Nat) :
    s.untabbed.line n = Column.expandTabs s.arithmetic (s.line n) s.tabWidth := by
  rw [untabbed, line_mapLines s.keepsEnds_untabbed]
  split
  · rfl
  · rename_i hn
    rw [line_eq_nil hn]
    rfl

/-- In a source without tabs a column of the source is the raw column. -/
theorem column_untabbed (s : SourceText) (line raw : Nat) :
    s.untabbed.column line (s.column line raw) = s.column line raw := by
  rw [column, line_untabbed,
    Column.expanded_of_not_mem (Column.tab_not_mem_expandTabs (s.line line) s.tabWidth)]
  exact Arithmetic.holds_fit _

/-- Writing tabs as spaces keeps indentations. -/
theorem indentation_untabbed (s : SourceText) (line : Nat) :
    s.untabbed.indentation line = s.indentation line := by
  rw [indentation, line_untabbed]
  exact Column.indentation_expandTabs _ s.max_tabWidth_holds _

section Exact

variable {s : SourceText} (hs : s.arithmetic = .exact) {k : Nat} (hk : s.tabWidth ∣ k)
include hs hk

/-- Counted exactly, a column of a line moves with the line; outside of the source it is the raw
column. -/
theorem column_indented (line raw : Nat) :
    (s.indented k).column line (raw + k) = s.column line raw + k := by
  have hw : max s.tabWidth 1 ∣ k := by rwa [s.max_tabWidth]
  rw [column, column, indented, tabWidth_mapLines, arithmetic_mapLines, hs,
    line_mapLines (Column.keepsEnds_spaces_append k)]
  split
  · exact Column.expanded_spaces_append hw _ raw
  · rename_i hn
    rw [line_eq_nil hn, Column.expanded_of_not_mem List.not_mem_nil,
      Column.expanded_of_not_mem List.not_mem_nil, Arithmetic.exact_fit, Arithmetic.exact_fit]

/-- Counted exactly, the indentation of a line moves with the line. -/
theorem indentation_indented {line : Nat} (hline : 1 ≤ line ∧ line ≤ s.lineCount) :
    (s.indented k).indentation line = s.indentation line + k := by
  have hw : max s.tabWidth 1 ∣ k := by rwa [s.max_tabWidth]
  rw [indentation, indentation, indented, tabWidth_mapLines, arithmetic_mapLines, hs,
    line_mapLines (Column.keepsEnds_spaces_append k), if_pos hline]
  exact Column.indentation_spaces_append hw _

end Exact

end SourceText

namespace Context

/-- A source without tabs has the columns of the source, if raw columns are moved to these. -/
theorem shifted_untabbed (cx : Context) :
    cx.Shifted cx.source.column id (fun _ => True) { cx with source := cx.source.untabbed } where
  settings := rfl
  column {pos} _ := cx.source.column_untabbed pos.line pos.column
  indentation {pos} _ := cx.source.indentation_untabbed pos.line
  stepIn _ := rfl
  succ _ := rfl
  injective _ _ heq := heq
  nextLine _ := rfl

/-- Counted exactly, a source further in has the columns of the source, further in. -/
theorem shifted_indented (cx : Context) (hcx : cx.source.arithmetic = .exact) {k : Nat}
    (hk : cx.source.tabWidth ∣ k) :
    cx.Shifted (fun _ raw => raw + k) (· + k) (fun pos => 1 ≤ pos.line ∧ pos.line ≤ cx.source.lineCount)
      { cx with source := cx.source.indented k } where
  settings := rfl
  column {pos} _ := SourceText.column_indented hcx hk pos.line pos.column
  indentation hpos := SourceText.indentation_indented hcx hk hpos
  stepIn {base} _ := by
    have hsum : ∀ n, cx.source.arithmetic.add n cx.settings.basicOffset =
        n + cx.settings.basicOffset := fun n => hcx ▸ Arithmetic.exact_fit _
    exact (hsum _).trans (by rw [stepIn, hsum]; omega)
  succ {n} _ := by
    have hsum : ∀ n, cx.source.arithmetic.add n 1 = n + 1 := fun n => hcx ▸ Arithmetic.exact_fit _
    exact (hsum _).trans (by rw [succ, hsum]; omega)
  injective _ _ heq := Nat.add_right_cancel heq
  nextLine _ := rfl

end Context

/-- Tabs are not seen by a walk. If all tabs of the source are written as the spaces that they stand
for, and each raw column of the tree is replaced by its expanded column, then the walk finds the
same as before, in the same order, but for the raw columns of the findings. -/
theorem walkFindings_untabbed (cx : Context) (table : ProgramTable) (t : Tree) :
    cx.source.untabbed.lines =
        cx.source.lines.map (Column.expandTabs cx.source.arithmetic · cx.source.tabWidth) ∧
      walkFindings { cx with source := cx.source.untabbed } table (t.relocate cx.source.column) =
        (walkFindings cx table t).map
          (fun f => { f with rawColumn := cx.source.column f.line f.rawColumn }) ∧
      verify { cx with source := cx.source.untabbed } table (t.relocate cx.source.column) =
        (verify cx table t).map
          (fun f => { f with rawColumn := cx.source.column f.line f.rawColumn }) := by
  have hshifted := cx.shifted_untabbed
  have hwithin : t.Within fun _ => True := Tree.within_of_foci fun _ _ => trivial
  rw [← Finding.relocate_id]
  exact ⟨SourceText.lines_mapLines cx.source.keepsEnds_untabbed cx.source,
    walkFindings_relocate hshifted table hwithin, verify_relocate hshifted strictMono_id table hwithin⟩

/-- Walks do not depend on how far in a text stands. If each line of the source gets as many spaces
more as a multiple of the tab width, and each node of a tree on its lines moves along, then the walk
finds the same as before, in the same order, with all columns moved. The sums about the moved tree
have to fit, which they do in exact arithmetic (`Context.fits_of_exact`). -/
theorem walkFindings_indented (cx : Context) (table : ProgramTable) (t : Tree) {k : Nat}
    (hk : cx.source.tabWidth ∣ k)
    (ht : ∀ f ∈ t.foci, 1 ≤ f.tree.line ∧ f.tree.line ≤ cx.source.lineCount)
    (hfits : ∀ f ∈ (t.relocate fun _ raw => raw + k).foci,
      Context.Fits { cx with source := cx.source.indented k } f.tree.pos) :
    (cx.source.indented k).lines = cx.source.lines.map (Column.spaces k ++ ·) ∧
      walkFindings { cx with source := cx.source.indented k } table
          (t.relocate fun _ raw => raw + k) =
        (walkFindings cx table t).map (fun f =>
          { f with
            column := f.column + k
            rawColumn := f.rawColumn + k
            message := f.message.shift (· + k)
            indent := f.indent.map (· + k) }) ∧
      verify { cx with source := cx.source.indented k } table (t.relocate fun _ raw => raw + k) =
        (verify cx table t).map (fun f =>
          { f with
            column := f.column + k
            rawColumn := f.rawColumn + k
            message := f.message.shift (· + k)
            indent := f.indent.map (· + k) }) := by
  have hmoved := Tree.within_of_foci hfits
  have hwithin : t.Within fun pos => 1 ≤ pos.line ∧ pos.line ≤ cx.source.lineCount :=
    Tree.within_of_foci ht
  have hshifted := cx.exactly.shifted_indented rfl hk
  -- The sums are smaller in the tree before it moves, so they fit there too.
  have hbefore : t.Within cx.Fits := by
    refine Tree.within_of_foci fun f hf => ?_
    have hline : 1 ≤ f.tree.pos.line ∧ f.tree.pos.line ≤ cx.source.lineCount := ht f hf
    have hthere := hfits (f.relocate fun _ raw => raw + k) (by
      rw [Tree.foci_relocate]
      exact List.mem_map_of_mem hf)
    rw [Focus.tree_relocate, Tree.pos_relocate] at hthere
    have hcolumn := hshifted.column hline
    have hindent := hshifted.indentation hline
    exact {
      column := hthere.column.of_le (Nat.add_le_add_right (hcolumn ▸ Nat.le_add_right _ k) 1)
      indent := hthere.indent.of_le (by
        refine Nat.add_le_add_right (Nat.add_le_add_right ?_ _) 1
        exact hindent ▸ Nat.le_add_right _ k)
      line := hthere.line }
  refine ⟨SourceText.lines_mapLines (Column.keepsEnds_spaces_append k) cx.source, ?_, ?_⟩
  · rw [walkFindings_exactly table hmoved, walkFindings_exactly table hbefore]
    exact walkFindings_relocate hshifted table hwithin
  · rw [verify_exactly table hmoved, verify_exactly table hbefore]
    exact verify_relocate hshifted (fun _ _ hlt => Nat.add_lt_add_right hlt k) table hwithin

/-- A block the closing brace of which stands one tab in, and the same block two tab stops further.
-/
theorem walkFindings_indented_brace :
    ∃ table, ProgramTable.ofSettings .default = .ok table ∧
      walkFindings ⟨.ofString "\x7b\n\t\x7d" 4, .default⟩ table
          (.node .block (.token .lBrace "\x7b" ⟨1, 0⟩) [.token .rBrace "\x7d" ⟨2, 1⟩]) =
        [⟨2, 5, 1, 1, .column "\x7d" 1 5, some 0⟩] ∧
      walkFindings ⟨(SourceText.ofString "\x7b\n\t\x7d" 4).indented 8, .default⟩ table
          (.node .block (.token .lBrace "\x7b" ⟨1, 8⟩) [.token .rBrace "\x7d" ⟨2, 9⟩]) =
        [⟨2, 13, 9, 1, .column "\x7d" 9 13, some 8⟩] := by
  obtain ⟨table, htable⟩ := ProgramTable.exists_ofSettings .default
  have hfound : (ProgramTable.ofSettings .default).toOption.map (fun table =>
      walkFindings ⟨.ofString "\x7b\n\t\x7d" 4, .default⟩ table
        (.node .block (.token .lBrace "\x7b" ⟨1, 0⟩) [.token .rBrace "\x7d" ⟨2, 1⟩])) =
      some [⟨2, 5, 1, 1, .column "\x7d" 1 5, some 0⟩] := by
    decide +kernel
  rw [htable] at hfound
  have hbefore := Option.some.inj hfound
  beta_reduce at hbefore
  have hafter := (walkFindings_indented ⟨.ofString "\x7b\n\t\x7d" 4, .default⟩ table
    (.node .block (.token .lBrace "\x7b" ⟨1, 0⟩) [.token .rBrace "\x7d" ⟨2, 1⟩])
    (k := 8) (by decide) (by decide) (by decide +kernel)).2.1
  rw [hbefore] at hafter
  exact ⟨table, htable, hbefore, hafter⟩

end TreeLayout
