import TreeLayout.Proofs.Variation.Machine

/-!
# Walks over varying trees

A property of findings that goes to runs goes to the visits of nodes outside of the hole
(`Variation.visits`), for tables that differ only in whether elements may share lines.

Errors stay local (`walkFindings_local`). If a node is replaced by one that looks the same from
outside, the visits of all other nodes find what they found before.
-/

namespace TreeLayout

open TreeLayout.Tree (Around)
open Machine (findings)

variable {ι : Type}

namespace Variation

open Machine

variable {cx₀ : Context} {cx : ι → Context} {hole : ι → Tree} {V : (ι → List Finding) → Prop}
  {table : ι → ProgramTable}

/-- The tables have the same programs, and elements share lines as the property allows. -/
def Tabled (cx₀ : Context) (hole : ι → Tree) (V : (ι → List Finding) → Prop)
    (table : ι → ProgramTable) : Prop :=
  ∀ kind, (∀ i, (table i).get? kind = none) ∨ ∃ (p : Program) (multiple : ι → Bool),
    Shares cx₀ hole V multiple ∧ ∀ i, (table i).get? kind = some (p.sharing (multiple i))

/-- One table for all indices. -/
theorem tabled_const (h : Variation cx₀ cx hole V) (table : ProgramTable) :
    Tabled cx₀ hole V fun _ => table := fun kind => by
  cases hget : table.get? kind with
  | none => exact .inl fun _ => hget
  | some p => exact .inr ⟨p, _, h.shares_const p.multiplePerLine, fun _ => hget⟩

/-- The property holds of what the visit of a varying node outside of the hole finds. -/
theorem visit [Nonempty ι] (h : Variation cx₀ cx hole V) (htable : Tabled cx₀ hole V table)
    {f : VaryingFocus ι} (hf : f.Outside hole)
    (hmeets : ∀ t, Around hole t → (∀ i, t i ∈ (f.tree i).children) → Meets cx₀ hole t) :
    V fun i => visitFindings (cx i) (table i) (f.pick i) := by
  obtain ⟨k, hk⟩ := h.exists_kind hf.tree
  have hpick : ∀ i, (f.pick i).tree.kind = k := hk
  simp only [visitFindings, TreeLayout.visit, hpick]
  obtain hnone | ⟨p, multiple, hshares, hsome⟩ := htable k
  · simp only [hnone]
    exact h.nil
  · simp only [hsome]
    exact h.run hf hmeets p hshares

/-- The property holds of what the visits of varying nodes outside of the hole find. -/
theorem visits [Nonempty ι] (h : Variation cx₀ cx hole V) (htable : Tabled cx₀ hole V table)
    {fs : List (VaryingFocus ι)} (hfs : ∀ f ∈ fs, f.Outside hole)
    (hmeets : ∀ f ∈ fs, ∀ t, Around hole t → (∀ i, t i ∈ (f.tree i).children) → Meets cx₀ hole t) :
    V fun i => (fs.map (·.pick i)).flatMap (visitFindings (cx i) (table i)) := by
  induction fs with
  | nil => exact h.nil
  | cons f fs ih =>
    obtain ⟨hf, hfs⟩ := List.forall_mem_cons.1 hfs
    obtain ⟨hmeet, hmeets⟩ := List.forall_mem_cons.1 hmeets
    exact h.append (h.visit htable hf hmeet) (ih hfs hmeets)

end Variation

/-! ## Holes with the same leaves at both ends -/

namespace Context

variable (cx : Context) (t : Tree)

/-- A tree stands in the column of its first leaf. -/
theorem column_leftmost : cx.column t.leftmost = cx.column t := by
  simp only [column, Tree.line, Tree.rawColumn, Tree.pos_leftmost]

/-- A finding is anchored on the first leaf. -/
theorem finding_leftmost (message : Message) (indent : Option Nat) :
    cx.finding t.leftmost message indent = cx.finding t message indent := by
  simp only [finding, column_leftmost, Tree.leftmost_leftmost, Tree.line, Tree.rawColumn,
    Tree.pos_leftmost]

/-- A column is asked of a tree as it is of its first leaf. -/
theorem expectColumn_leftmost (expected : Nat) :
    cx.expectColumn t.leftmost expected = cx.expectColumn t expected := by
  simp only [expectColumn, column_leftmost, finding_leftmost, Tree.leftmost_leftmost]

end Context

section Ends

variable {hole : ι → Tree}

/-- What is read off the first leaf of trees around the hole does not vary if the hole always starts
with one leaf. -/
theorem Tree.Around.exists_leftmost (hfirst : ∃ leaf, ∀ i, (hole i).leftmost = leaf) {t : ι → Tree}
    (ht : Around hole t) : ∃ leaf, ∀ i, (t i).leftmost = leaf := by
  obtain hhole | hleaf := ht.leftmost_cases
  · simpa only [hhole] using hfirst
  · exact hleaf

/-- A tree around a hole has one last leaf, if what fills the hole has one. -/
theorem Tree.Around.exists_rightmost (hlast : ∃ leaf, ∀ i, (hole i).rightmost = leaf) {t : ι → Tree}
    (ht : Around hole t) : ∃ leaf, ∀ i, (t i).rightmost = leaf := by
  obtain hhole | hleaf := ht.rightmost_cases
  · simpa only [hhole] using hlast
  · exact hleaf

/-- The fillings of a hole look the same from outside, columns included. -/
structure Alike (hole : ι → Tree) : Prop where
  /-- They have one outline. -/
  outline : ∃ o, ∀ i, (hole i).outline = o
  /-- They start with one leaf. -/
  first : ∃ leaf, ∀ i, (hole i).leftmost = leaf
  /-- They end with one leaf. -/
  last : ∃ leaf, ∀ i, (hole i).rightmost = leaf
  /-- The expression checker enters none of them. -/
  inert : ∀ i, (hole i).Inert

/-- One filling that the expression checker does not enter. -/
theorem Alike.const {t : Tree} (h : t.Inert) : Alike (Function.const ι t) where
  outline := ⟨t.outline, fun _ => rfl⟩
  first := ⟨t.leftmost, fun _ => rfl⟩
  last := ⟨t.rightmost, fun _ => rfl⟩
  inert _ := h

variable {cx₀ : Context} {cx : ι → Context} {V : (ι → List Finding) → Prop}

/-- A property that holds of all findings that do not vary. -/
theorem Alike.variation (h : Alike hole) (hsource : ∀ i, (cx i).source = cx₀.source)
    (hoffset : ∀ i, (cx i).settings.basicOffset = cx₀.settings.basicOffset)
    (hwrap : ∀ i, (cx i).settings.wrap = cx₀.settings.wrap) (hconst : ∀ fs, V fun _ => fs)
    (happend : ∀ {F G : ι → List Finding}, V F → V G → V fun i => F i ++ G i) :
    Variation cx₀ cx hole V where
  source := hsource
  offset := hoffset
  wrap := hwrap
  outline := h.outline
  inert := h.inert
  nil := hconst []
  append := happend
  finding message indent ht := by
    obtain ⟨leaf, hleaf⟩ := ht.exists_leftmost h.first
    have hfinding := fun i => congrArg (cx₀.finding · message indent) (hleaf i)
    simp only [cx₀.finding_leftmost] at hfinding
    simp only [hfinding]
    exact hconst _
  findingLast message indent ht := by
    obtain ⟨leaf, hleaf⟩ := ht.exists_rightmost h.last
    simp only [hleaf]
    exact hconst _
  column expected ht := by
    obtain ⟨leaf, hleaf⟩ := ht.exists_leftmost h.first
    have hcolumn := fun i => congrArg (cx₀.expectColumn · expected) (hleaf i)
    simp only [cx₀.expectColumn_leftmost] at hcolumn
    simp only [hcolumn]
    exact hconst _

/-- A run can meet all trees around the hole. -/
theorem Alike.meets (h : Alike hole) {t : ι → Tree} (ht : Around hole t) :
    Machine.Meets cx₀ hole t where
  around := ht
  column _ := by
    obtain ⟨leaf, hleaf⟩ := ht.exists_leftmost h.first
    exact ⟨cx₀.column leaf, fun i => by rw [← cx₀.column_leftmost, hleaf]⟩

/-- What is found on a node outside of the hole does not vary. -/
theorem Alike.visitFindings_eq (h : Alike hole) (cx : Context) (table : ProgramTable)
    {f : VaryingFocus ι} (hf : f.Outside hole) (i j : ι) :
    visitFindings cx table (f.pick i) = visitFindings cx table (f.pick j) := by
  have : Nonempty ι := ⟨i⟩
  have hvariation : Variation cx (fun _ => cx) hole fun F => F i = F j :=
    h.variation (fun _ => rfl) (fun _ => rfl) (fun _ => rfl) (fun _ => rfl)
      fun hF hG => congrArg₂ (· ++ ·) hF hG
  exact hvariation.visit (hvariation.tabled_const table) hf fun t ht _ => h.meets ht

end Ends

/-! ## Errors stay local -/

open Focus

/-- Errors stay local. A node with children that is no expression is replaced by one of the same
kind with children, where the last child is of the same kind and the first and the last leaf are the
same. The walks over both trees visit the same nodes outside of the replaced one, before it and
after it, and find the same on each of them; so the findings differ only in those of the nodes
replaced. -/
theorem walkFindings_local (cx : Context) (hcx : cx.settings.alignDeclarations = false)
    (table : ProgramTable) (path : List Frame) (old new : Tree) (hkind : old.kind = new.kind)
    (hexpression : old.kind.isExpression = false) (hold : old.hasChildren = true)
    (hnew : new.hasChildren = true)
    (hlastKind : old.children.getLast?.map Tree.kind = new.children.getLast?.map Tree.kind)
    (hfirst : old.leftmost = new.leftmost) (hlast : old.rightmost = new.rightmost) :
    ∃ before before' after after' : List Focus,
      (rootFrom old path).foci = before ++ preorderFrom old path ++ after ∧
      (rootFrom new path).foci = before' ++ preorderFrom new path ++ after' ∧
      before.map (visitFindings cx table) = before'.map (visitFindings cx table) ∧
      after.map (visitFindings cx table) = after'.map (visitFindings cx table) ∧
      walkFindings cx table (rootFrom old path) =
        before.flatMap (visitFindings cx table) ++
          (preorderFrom old path).flatMap (visitFindings cx table) ++
          after.flatMap (visitFindings cx table) ∧
      walkFindings cx table (rootFrom new path) =
        before.flatMap (visitFindings cx table) ++
          (preorderFrom new path).flatMap (visitFindings cx table) ++
          after.flatMap (visitFindings cx table) := by
  -- The hole is filled with the node that is replaced, or with the one that replaces it.
  let hole : Bool → Tree := fun replaced => if replaced then new else old
  have houtline : new.outline = old.outline := by
    simp only [Tree.outline, hkind, hold, hnew, hlastKind, hfirst, hlast]
  have halike : Alike hole := {
    outline := ⟨old.outline, Bool.forall_bool.2 ⟨rfl, houtline⟩⟩
    first := ⟨old.leftmost, Bool.forall_bool.2 ⟨rfl, hfirst.symm⟩⟩
    last := ⟨old.rightmost, Bool.forall_bool.2 ⟨rfl, hlast.symm⟩⟩
    inert := Bool.forall_bool.2 ⟨fun _ => hexpression, fun _ => hkind ▸ hexpression⟩ }
  have hvisits : ∀ fs : List (VaryingFocus Bool), (∀ f ∈ fs, f.Outside hole) →
      (fs.map (·.pick false)).map (visitFindings cx table) =
        (fs.map (·.pick true)).map (visitFindings cx table) := fun fs hfs => by
    rw [List.map_map, List.map_map]
    exact List.map_congr_left fun f hf => halike.visitFindings_eq cx table (hfs f hf) false true
  obtain ⟨before, after, hbefore, hafter, hfoci⟩ := exists_foci_eq hole path
  have hfalse : (rootFrom old path).foci = before.map (·.pick false) ++ preorderFrom old path ++
      after.map (·.pick false) := by
    rw [List.append_assoc]
    exact hfoci false
  have htrue : (rootFrom new path).foci = before.map (·.pick true) ++ preorderFrom new path ++
      after.map (·.pick true) := by
    rw [List.append_assoc]
    exact hfoci true
  -- The same lists node by node give the same findings in a row.
  have hflat : ∀ fs : List (VaryingFocus Bool), (∀ f ∈ fs, f.Outside hole) →
      (fs.map (·.pick true)).flatMap (visitFindings cx table) =
        (fs.map (·.pick false)).flatMap (visitFindings cx table) := fun fs hfs => by
    rw [List.flatMap_def, ← hvisits fs hfs, List.flatMap_def]
  refine ⟨_, _, _, _, hfalse, htrue, hvisits before hbefore, hvisits after hafter, ?_, ?_⟩
  · rw [walkFindings_eq hcx, hfalse, List.flatMap_append, List.flatMap_append]
  · rw [walkFindings_eq hcx, htrue, List.flatMap_append, List.flatMap_append, hflat before hbefore,
      hflat after hafter]

/-- A statement gets a comma too many; the next one, which stands in a wrong column, does not
notice. -/
theorem walkFindings_local_comma :
    ∃ table before after, ProgramTable.ofSettings .default = .ok table ∧
      before ++ after = [⟨3, 3, 2, 1, .column "y" 5 3, some 4⟩] ∧
      walkFindings ⟨.ofString "\x7b\n    x,;\n  y;\n\x7d" 4, .default⟩ table
          (.node .block (.token .lBrace "\x7b" ⟨1, 0⟩)
            [.node .exprStatement (.token .identifier "x" ⟨2, 4⟩) [.token .semi ";" ⟨2, 6⟩],
              .node .exprStatement (.token .identifier "y" ⟨3, 2⟩) [.token .semi ";" ⟨3, 3⟩],
              .token .rBrace "\x7d" ⟨4, 0⟩]) =
        before ++ after ∧
      walkFindings ⟨.ofString "\x7b\n    x,;\n  y;\n\x7d" 4, .default⟩ table
          (.node .block (.token .lBrace "\x7b" ⟨1, 0⟩)
            [.node .exprStatement (.token .identifier "x" ⟨2, 4⟩)
                [.token .comma "," ⟨2, 5⟩, .token .semi ";" ⟨2, 6⟩],
              .node .exprStatement (.token .identifier "y" ⟨3, 2⟩) [.token .semi ";" ⟨3, 3⟩],
              .token .rBrace "\x7d" ⟨4, 0⟩]) =
        before ++ [⟨2, 6, 5, 1, .unexpectedToken ";" ",", none⟩] ++ after := by
  let cx : Context := ⟨.ofString "\x7b\n    x,;\n  y;\n\x7d" 4, .default⟩
  let path : List Frame := [⟨.block, [.token .lBrace "\x7b" ⟨1, 0⟩],
    [.node .exprStatement (.token .identifier "y" ⟨3, 2⟩) [.token .semi ";" ⟨3, 3⟩],
      .token .rBrace "\x7d" ⟨4, 0⟩]⟩]
  let old : Tree := .node .exprStatement (.token .identifier "x" ⟨2, 4⟩) [.token .semi ";" ⟨2, 6⟩]
  let new : Tree := .node .exprStatement (.token .identifier "x" ⟨2, 4⟩)
    [.token .comma "," ⟨2, 5⟩, .token .semi ";" ⟨2, 6⟩]
  obtain ⟨table, htable⟩ := ProgramTable.exists_ofSettings .default
  have hfound : (ProgramTable.ofSettings .default).toOption.map (fun table =>
      (walkFindings cx table (rootFrom old path),
        (preorderFrom old path).flatMap (visitFindings cx table),
        (preorderFrom new path).flatMap (visitFindings cx table))) =
      some ([⟨3, 3, 2, 1, .column "y" 5 3, some 4⟩], [],
        [⟨2, 6, 5, 1, .unexpectedToken ";" ",", none⟩]) := by
    decide +kernel
  rw [htable] at hfound
  obtain ⟨hwalk, hold, hnew⟩ := Prod.mk.inj (Option.some.inj hfound) |>.imp id Prod.mk.inj
  obtain ⟨before, -, after, -, -, -, -, -, hwalkOld, hwalkNew⟩ :=
    walkFindings_local cx rfl table path old new rfl rfl rfl rfl rfl rfl rfl
  rw [hold, List.append_nil] at hwalkOld
  rw [hnew] at hwalkNew
  exact ⟨table, _, _, htable, hwalkOld.symm.trans hwalk, hwalkOld, hwalkNew⟩

end TreeLayout
