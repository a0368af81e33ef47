import Mathlib.Algebra.Order.BigOperators.Group.List
import Mathlib.Algebra.Order.Group.Nat
import TreeLayout.Proofs.Column.Tabs
import TreeLayout.Proofs.Variation.Walk
import TreeLayout.Proofs.Verdict.Walk

/-!
# One token in another column

A tree on which a walk reports nothing, with one leaf further to the right (`walkFindings_nudged`).
The leaf is the hole, and its column is the index. Where nothing is found at the old column, what is
found in another one is the same complaint about the leaf a number of times, for all columns with
another expanded column (`Nudged`); the next raw column is one of them (`Column.expanded_succ_ne`).
That number is at most one: it can be read off a column in which no other leaf stands, and there a
walk reports at most one layout finding.
-/

namespace TreeLayout

/-! ## Leaves in another column -/

namespace Tree

section Leaf

variable {leaf : Tree} (h : leaf.children = [])
include h

/-- A leaf in its own column is the leaf. -/
theorem inColumn_rawColumn : leaf.inColumn leaf.rawColumn = leaf := by
  cases leaf with
  | token | empty => rfl
  | node => cases h

/-- A leaf that is moved is the leaf in another column. -/
theorem relocate_eq_inColumn (ρ : Nat → Nat → Nat) :
    leaf.relocate ρ = leaf.inColumn (ρ leaf.line leaf.rawColumn) := by
  cases leaf with
  | token | empty => rfl
  | node => cases h

/-- The column of a leaf is no part of its outline. -/
theorem outline_inColumn (column : Nat) : (leaf.inColumn column).outline = leaf.outline := by
  cases leaf with
  | token | empty => rfl
  | node => cases h

/-- A leaf is its own first leaf. -/
theorem leftmost_inColumn (column : Nat) :
    (leaf.inColumn column).leftmost = leaf.inColumn column := by
  cases leaf with
  | token | empty => rfl
  | node => cases h

/-- Where a leaf in another column stands. -/
theorem pos_inColumn (column : Nat) : (leaf.inColumn column).pos = ⟨leaf.line, column⟩ := by
  cases leaf with
  | token | empty => rfl
  | node => cases h

/-- A leaf in another column has no children. -/
theorem children_inColumn (column : Nat) : (leaf.inColumn column).children = [] := by
  rw [inColumn, children_relocate, h, List.map_nil]

/-- A leaf in another column is not looked into. -/
theorem inert_inColumn (column : Nat) : (leaf.inColumn column).Inert := by
  cases leaf with
  | token | empty => exact fun hchildren => nomatch hchildren
  | node => cases h

/-- A leaf is its only node. -/
theorem preorderFrom_inColumn (column : Nat) (path : List Frame) :
    Focus.preorderFrom (leaf.inColumn column) path = [⟨leaf.inColumn column, path⟩] := by
  cases leaf with
  | token | empty => rfl
  | node => cases h

/-- A leaf is its only leaf. -/
theorem leaves_inColumn (column : Nat) :
    (leaf.inColumn column).leaves = [leaf.inColumn column] := by
  cases leaf with
  | token | empty => rfl
  | node => cases h

end Leaf

end Tree

/-! ## Findings in another column -/

/-- What is said about a leaf in a column if it should stand in its own. -/
def nudgedFinding (cx : Context) (leaf : Tree) (column : Nat) : Finding :=
  cx.finding (leaf.inColumn column)
    (.column leaf.describe (cx.succ (cx.column leaf)) (cx.succ (cx.column (leaf.inColumn column))))
    (some (cx.column leaf))

/-- The finding about a nudged leaf, field by field. -/
theorem nudgedFinding_eq (cx : Context) {leaf : Tree} (hleaf : leaf.children = []) (column : Nat) :
    nudgedFinding cx leaf column =
      { line := leaf.line
        column := cx.succ (cx.source.column leaf.line column)
        rawColumn := column
        length := max leaf.text.length 1
        message := .column leaf.describe (cx.succ (cx.source.column leaf.line leaf.rawColumn))
          (cx.succ (cx.source.column leaf.line column))
        indent := some (cx.source.column leaf.line leaf.rawColumn) } := by
  cases leaf with
  | token | empty => rfl
  | node => cases hleaf

/-- Where nothing is found with a leaf in its column, only this is found with the leaf in another
column, a number of times that does not depend on the column. -/
def Nudged (cx : Context) (leaf : Tree) (F : Nat → List Finding) : Prop :=
  F leaf.rawColumn = [] → ∃ n, ∀ column, cx.column (leaf.inColumn column) ≠ cx.column leaf →
    F column = List.replicate n (nudgedFinding cx leaf column)

namespace Nudged

variable {cx : Context} {leaf : Tree} {F G : Nat → List Finding}

/-- What does not depend on the leaf. -/
theorem const (fs : List Finding) : Nudged cx leaf fun _ => fs :=
  fun hquiet => ⟨0, fun _ _ => hquiet⟩

/-- Of two nudged families of findings the findings together are nudged. -/
theorem append (hF : Nudged cx leaf F) (hG : Nudged cx leaf G) :
    Nudged cx leaf fun column => F column ++ G column := by
  intro hquiet
  obtain ⟨hquietF, hquietG⟩ := List.append_eq_nil_iff.1 hquiet
  obtain ⟨n, hn⟩ := hF hquietF
  obtain ⟨k, hk⟩ := hG hquietG
  exact ⟨n + k, fun column hne => by simp only [hn column hne, hk column hne, List.replicate_add]⟩

/-- Something that is always found. -/
theorem of_ne_nil (h : F leaf.rawColumn ≠ []) : Nudged cx leaf F := fun hquiet => absurd hquiet h

/-- The leaf should start in a column: if it does, it does not in another one. -/
theorem expectColumn (hleaf : leaf.children = []) (expected : Nat) :
    Nudged cx leaf fun column => cx.expectColumn (leaf.inColumn column) expected := by
  intro hquiet
  have hexpected : cx.column leaf = expected := by
    simpa [Context.expectColumn, Tree.inColumn_rawColumn hleaf] using hquiet
  refine ⟨1, fun column hne => ?_⟩
  rw [hexpected] at hne
  have hdescribe : (leaf.inColumn column).leftmost.describe = leaf.describe := by
    rw [Tree.leftmost_inColumn hleaf, Tree.inColumn, Tree.describe_relocate]
  simp only [Context.expectColumn, if_neg hne, hdescribe, nudgedFinding, hexpected,
    List.replicate_one]

/-- Checks are quiet in another column, or complain about the leaf. -/
theorem variation (cx : Context) (hleaf : leaf.children = []) :
    Variation cx (fun _ => cx) leaf.inColumn (Nudged cx leaf) where
  source _ := rfl
  offset _ := rfl
  wrap _ := rfl
  outline := ⟨leaf.outline, Tree.outline_inColumn hleaf⟩
  inert := Tree.inert_inColumn hleaf
  nil := const []
  append := append
  finding message indent _ := of_ne_nil (List.cons_ne_nil _ _)
  findingLast message indent _ := of_ne_nil (List.cons_ne_nil _ _)
  column {t} expected ht := by
    obtain hhole | ⟨first, hfirst⟩ := ht.leftmost_cases
    · have hcolumn : ∀ column, cx.expectColumn (t column) expected =
          cx.expectColumn (leaf.inColumn column) expected := fun column => by
        rw [← cx.expectColumn_leftmost, hhole, Tree.leftmost_inColumn hleaf]
      simpa only [hcolumn] using expectColumn hleaf expected
    · have hcolumn : ∀ column, cx.expectColumn (t column) expected =
          cx.expectColumn first expected := fun column => by
        rw [← cx.expectColumn_leftmost, hfirst]
      simpa only [hcolumn] using const _

end Nudged

/-! ## Walks -/

open Focus

variable {leaf : Tree} {path : List Frame}

/-- A walk over a tree without case groups is quiet in another column, or complains about the leaf. -/
theorem nudged_walkFindings (cx : Context) (hcx : cx.settings.alignDeclarations = false)
    (table : ProgramTable) (hleaf : leaf.children = [])
    (hcase : ∀ f ∈ (rootFrom leaf path).foci, f.tree.kind ≠ .construct .switchCase) :
    Nudged cx leaf fun column => walkFindings cx table (rootFrom (leaf.inColumn column) path) := by
  have hvariation := Nudged.variation cx hleaf
  obtain ⟨before, after, hbefore, hafter, hfoci⟩ := exists_foci_eq leaf.inColumn path
  -- The leaf itself is visited too, and has no children that could be in the hole.
  let here : VaryingFocus Nat := ⟨leaf.inColumn, path.map .const⟩
  have hhere : here.Outside leaf.inColumn := {
    tree := .hole
    path := by simp [here, VaryingFrame.Around.of_const]
    children := ⟨[], by simp, Tree.children_inColumn hleaf⟩ }
  have hall : ∀ column, (rootFrom (leaf.inColumn column) path).foci =
      (before ++ here :: after).map (·.pick column) := fun column => by
    rw [hfoci, Tree.preorderFrom_inColumn hleaf, List.map_append, List.map_cons]
    simp only [here, VaryingFocus.pick, VaryingFrame.map_pick_const, List.singleton_append]
  have houtside : ∀ f ∈ before ++ here :: after, f.Outside leaf.inColumn :=
    List.forall_mem_append.2 ⟨hbefore, List.forall_mem_cons.2 ⟨hhere, hafter⟩⟩
  simp only [walkFindings_eq hcx, hall]
  refine hvariation.visits (hvariation.tabled_const table) houtside fun f hf t ht hchild =>
    ⟨ht, fun hlike => ?_⟩
  -- A case group among the children would be a node of the tree.
  have hmem : f.pick leaf.rawColumn ∈ (rootFrom leaf path).foci := by
    have hfoci := hall leaf.rawColumn
    rw [Tree.inColumn_rawColumn hleaf] at hfoci
    rw [hfoci]
    exact List.mem_map_of_mem hf
  obtain ⟨g, hg, hgt⟩ := exists_child_mem_preorderFrom hmem (hchild leaf.rawColumn)
  exact absurd (hgt ▸ by simpa [Kind.isCaseLike] using hlike leaf.rawColumn) (hcase g hg)

/-- A leaf in a raw column is in the expanded column of that place. -/
theorem column_inColumn (cx : Context) (hleaf : leaf.children = []) (column : Nat) :
    cx.column (leaf.inColumn column) = cx.source.column leaf.line column := by
  have hpos := Tree.pos_inColumn hleaf column
  simp only [Context.column, Tree.line, Tree.rawColumn, hpos]

/-- The next raw column has another expanded column. -/
theorem column_succ_ne (source : SourceText) (line raw : Nat) :
    source.column line (raw + 1) ≠ source.column line raw :=
  Column.expanded_succ_ne _ source.max_tabWidth_holds raw

/-- There is a raw column with another expanded column than that of a leaf in which none of several
leaves stands. -/
theorem exists_fresh_column (cx : Context) (hleaf : leaf.children = []) (leaves : List Tree) :
    ∃ column, cx.column (leaf.inColumn column) ≠ cx.column leaf ∧
      Position.mk leaf.line column ∉ leaves.map Tree.pos := by
  have hfresh : ∀ column, (leaves.map Tree.rawColumn).sum < column →
      Position.mk leaf.line column ∉ leaves.map Tree.pos := by
    intro column hlt hmem
    obtain ⟨other, hother, hpos⟩ := List.mem_map.1 hmem
    have hle : other.rawColumn ≤ (leaves.map Tree.rawColumn).sum :=
      List.le_sum_of_mem (List.mem_map_of_mem hother)
    have hcolumn : other.rawColumn = column := congrArg Position.column hpos
    omega
  -- Of two columns side by side one differs from that of the leaf.
  let column := (leaves.map Tree.rawColumn).sum + 1
  by_cases hcolumn : cx.column (leaf.inColumn column) = cx.column leaf
  · refine ⟨column + 1, ?_, hfresh _ (by omega)⟩
    rw [← hcolumn, column_inColumn cx hleaf, column_inColumn cx hleaf]
    exact column_succ_ne cx.source leaf.line column
  · exact ⟨column, hcolumn, hfresh _ (Nat.lt_succ_self _)⟩

/-- What a walk says about a leaf in another column, it says at most once. -/
theorem nudged_le_one {s : LayoutSettings} {table : ProgramTable}
    (htable : ProgramTable.ofSettings s = .ok table) {cx : Context}
    (hcx : cx.settings.alignDeclarations = false) (hleaf : leaf.children = []) {n : Nat}
    (hn : ∀ column, cx.column (leaf.inColumn column) ≠ cx.column leaf →
      walkFindings cx table (rootFrom (leaf.inColumn column) path) =
        List.replicate n (nudgedFinding cx leaf column)) : n ≤ 1 := by
  obtain ⟨before, after, hleaves⟩ := Tree.exists_leaves_rootFrom path
  obtain ⟨column, hne, hfresh⟩ := exists_fresh_column cx hleaf (before ++ after)
  have hle := verdicts_walkFindings_le htable ⟨leaf.line, column⟩ cx hcx
    (rootFrom (leaf.inColumn column) path)
  -- At the fresh column each complaint is a verdict, and only the leaf stands there.
  have hverdicts : verdicts ⟨leaf.line, column⟩
      (List.replicate n (nudgedFinding cx leaf column)) = n := by
    have hjudges : (nudgedFinding cx leaf column).judges ⟨leaf.line, column⟩ = true := by
      rw [nudgedFinding_eq cx hleaf]
      exact decide_eq_true rfl
    rw [verdicts, List.countP_replicate, if_pos hjudges]
  have hcount : ((rootFrom (leaf.inColumn column) path).leaves.map Tree.pos).count
      ⟨leaf.line, column⟩ = 1 := by
    rw [List.map_append, List.mem_append, not_or] at hfresh
    rw [hleaves, Tree.leaves_inColumn hleaf, List.map_append, List.map_append, List.count_append,
      List.count_append, List.count_eq_zero.2 hfresh.1, List.count_eq_zero.2 hfresh.2,
      List.map_singleton, Tree.pos_inColumn hleaf, List.count_singleton_self]
  rw [hn column hne, hverdicts, hcount] at hle
  exact hle

/-- One token in another column. If a walk over a tree without case groups reports nothing, and one
leaf moves right by a raw column, then the walk reports nothing, or one finding: the leaf should
stand in its old expanded column and stands in the new one. -/
theorem walkFindings_nudged (source : SourceText) (s : LayoutSettings)
    (hs : s.alignDeclarations = false) {table : ProgramTable}
    (htable : ProgramTable.ofSettings s = .ok table) (t : Tree)
    (hcase : ∀ f ∈ t.foci, f.tree.kind ≠ .construct .switchCase)
    (hquiet : walkFindings ⟨source, s⟩ table t = []) (f : Focus) (hf : f ∈ t.foci)
    (hleaf : f.tree.children = []) :
    walkFindings ⟨source, s⟩ table (rootFrom (f.tree.relocate fun _ raw => raw + 1) f.path) = [] ∨
      walkFindings ⟨source, s⟩ table (rootFrom (f.tree.relocate fun _ raw => raw + 1) f.path) =
        [{ line := f.tree.line
           column := Context.succ ⟨source, s⟩ (source.column f.tree.line (f.tree.rawColumn + 1))
           rawColumn := f.tree.rawColumn + 1
           length := max f.tree.text.length 1
           message := .column f.tree.describe
             (Context.succ ⟨source, s⟩ (source.column f.tree.line f.tree.rawColumn))
             (Context.succ ⟨source, s⟩ (source.column f.tree.line (f.tree.rawColumn + 1)))
           indent := some (source.column f.tree.line f.tree.rawColumn) }] := by
  obtain rfl : rootFrom f.tree f.path = t := Tree.root_of_mem_foci hf
  have hnudged := nudged_walkFindings ⟨source, s⟩ hs table hleaf hcase
  rw [Nudged, Tree.inColumn_rawColumn hleaf] at hnudged
  obtain ⟨n, hn⟩ := hnudged hquiet
  have hle := nudged_le_one htable hs hleaf hn
  have hne : Context.column ⟨source, s⟩ (f.tree.inColumn (f.tree.rawColumn + 1)) ≠
      Context.column ⟨source, s⟩ f.tree := by
    rw [column_inColumn _ hleaf]
    exact column_succ_ne source f.tree.line f.tree.rawColumn
  rw [Tree.relocate_eq_inColumn hleaf, hn _ hne]
  obtain rfl | rfl : n = 0 ∨ n = 1 := by omega
  · exact .inl rfl
  · exact .inr (congrArg List.singleton (nudgedFinding_eq ⟨source, s⟩ hleaf _))

/-- The statement of a block, one column too far right. -/
theorem walkFindings_nudged_statement :
    ∃ table, ProgramTable.ofSettings .default = .ok table ∧
      walkFindings ⟨.ofString "\x7b\n    x;\n\x7d" 4, .default⟩ table
          (.node .block (.token .lBrace "\x7b" ⟨1, 0⟩)
            [.node .exprStatement (.token .identifier "x" ⟨2, 4⟩) [.token .semi ";" ⟨2, 5⟩],
              .token .rBrace "\x7d" ⟨3, 0⟩]) = [] ∧
      walkFindings ⟨.ofString "\x7b\n    x;\n\x7d" 4, .default⟩ table
          (.node .block (.token .lBrace "\x7b" ⟨1, 0⟩)
            [.node .exprStatement (.token .identifier "x" ⟨2, 5⟩) [.token .semi ";" ⟨2, 5⟩],
              .token .rBrace "\x7d" ⟨3, 0⟩]) =
        [⟨2, 6, 5, 1, .column "x" 5 6, some 4⟩] := by
  let cx : Context := ⟨.ofString "\x7b\n    x;\n\x7d" 4, .default⟩
  let t : Tree := .node .block (.token .lBrace "\x7b" ⟨1, 0⟩)
    [.node .exprStatement (.token .identifier "x" ⟨2, 4⟩) [.token .semi ";" ⟨2, 5⟩],
      .token .rBrace "\x7d" ⟨3, 0⟩]
  let f : Focus := ⟨.token .identifier "x" ⟨2, 4⟩,
    [⟨.exprStatement, [], [.token .semi ";" ⟨2, 5⟩]⟩,
      ⟨.block, [.token .lBrace "\x7b" ⟨1, 0⟩], [.token .rBrace "\x7d" ⟨3, 0⟩]⟩]⟩
  obtain ⟨table, htable⟩ := ProgramTable.exists_ofSettings .default
  have hfound : (ProgramTable.ofSettings .default).toOption.map (fun table =>
      (walkFindings cx table t,
        (walkFindings cx table (rootFrom (f.tree.relocate fun _ raw => raw + 1) f.path)).length)) =
      some ([], 1) := by
    decide +kernel
  rw [htable] at hfound
  obtain ⟨hquiet, hlength⟩ := Prod.mk.inj (Option.some.inj hfound)
  have hcase : ∀ g ∈ t.foci, g.tree.kind ≠ .construct .switchCase := by decide
  have hmem : f ∈ t.foci := .tail _ (.tail _ (.tail _ (.head _)))
  obtain hnil | hone := walkFindings_nudged cx.source .default rfl htable t hcase hquiet f hmem rfl
  · exact absurd (hlength.symm.trans (congrArg List.length hnil)) (by decide)
  · exact ⟨table, htable, hquiet, hone.trans (by decide +kernel)⟩

end TreeLayout
