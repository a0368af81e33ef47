import Mathlib.Algebra.Order.BigOperators.Group.List
import Mathlib.Algebra.Order.Group.Nat
import Mathlib.Algebra.Ring.Nat
import Mathlib.Data.List.Induction
import TreeLayout.Proofs.Tree.Construction
import TreeLayout.Tree.Arena

/-!
# The arena of a tree

A tree is kept in an arena with a row for each of its nodes, in document order (`Tree.toArena`). The
number of a row is the number of its node (`Tree.rows_toArena`), so the ways through the arena are the
ways through the tree: to the children of a node, to its parent, to its siblings, and to the leaves at
its sides.
-/

namespace TreeLayout

/-- Items that are put on a stack from the last to the first come off in their order. -/
theorem pushAll_reverse {α : Type} (stack items : List α) :
    pushAll stack items.reverse = items ++ stack := by
  simp [pushAll]

/-! ## Numbers of children -/

namespace Tree

/-- The numbers of nodes that come one after the other, with all nodes below each of them. -/
def idsFrom (start : Nat) : List Tree → List Nat
  | [] => []
  | t :: ts => start :: idsFrom (start + t.size) ts

/-- The nodes of several trees are counted tree by tree. -/
theorem sizeAmong_eq_sum (ts : List Tree) : sizeAmong ts = (ts.map size).sum := by
  induction ts with
  | nil => rfl
  | cons t ts ih => rw [sizeAmong, ih, List.map_cons, List.sum_cons]

/-- A tree has a node. -/
theorem size_pos (t : Tree) : 0 < t.size := by
  cases t with
  | token | empty => exact Nat.one_pos
  | node kind first rest =>
    rw [size]
    omega

/-- The number of a node comes after all nodes of the trees before it. -/
theorem getElem?_idsFrom (start : Nat) (ts : List Tree) (i : Nat) :
    (idsFrom start ts)[i]? = ts[i]?.map fun _ => start + sizeAmong (ts.take i) := by
  induction ts generalizing start i with
  | nil => rfl
  | cons t ts ih =>
    cases i with
    | zero => rfl
    | succ i =>
      rw [idsFrom, List.getElem?_cons_succ, List.getElem?_cons_succ, ih, List.take_succ_cons,
        sizeAmong, Nat.add_assoc]

/-- The number after a child and all nodes below it. -/
theorem one_add_sizeAmong_cons (t : Tree) (before : List Tree) (n : Nat) :
    1 + sizeAmong (t :: before) + n = 1 + sizeAmong before + n + t.size := by
  rw [sizeAmong]
  omega

/-- There are as many numbers as nodes. -/
@[simp] theorem length_idsFrom (start : Nat) (ts : List Tree) :
    (idsFrom start ts).length = ts.length := by
  induction ts generalizing start with
  | nil => rfl
  | cons t ts ih => rw [idsFrom, List.length_cons, ih, List.length_cons]

end Tree

namespace Focus

/-- The numbers of the children of a node. -/
theorem index_child? (f : Focus) (i : Nat) :
    (f.child? i).map index = (Tree.idsFrom (f.index + 1) f.tree.children)[i]? := by
  obtain ⟨t, path⟩ := f
  cases t with
  | token | empty => rfl
  | node kind first rest =>
    have hreverse (ts : List Tree) : Tree.sizeAmong ts.reverse = Tree.sizeAmong ts := by
      rw [Tree.sizeAmong_eq_sum, Tree.sizeAmong_eq_sum, List.map_reverse, List.sum_reverse]
    rw [Tree.getElem?_idsFrom]
    simp only [child?, childAt?, Option.map_map, Tree.children]
    congr 1
    funext t
    simp only [Function.comp_apply, index, countBefore, hreverse]
    omega

/-- The first child is the one at place zero. -/
theorem first?_eq_child? (f : Focus) : f.first? = f.child? 0 := by
  obtain ⟨t, path⟩ := f
  cases t <;> rfl

/-- A node stands where its first child stands. -/
theorem pos_child?_zero {f g : Focus} (h : f.child? 0 = some g) : g.tree.pos = f.tree.pos := by
  rw [← first?_eq_child?] at h
  obtain ⟨t, path⟩ := f
  cases t with
  | token | empty => cases h
  | node kind first rest =>
    cases h
    rfl

/-- The last child is the one at the last place. -/
theorem last?_eq_child? (f : Focus) : f.last? = f.child? (f.tree.children.length - 1) := by
  obtain ⟨t, path⟩ := f
  cases t with
  | token | empty => rfl
  | node kind first rest =>
    cases rest using List.reverseRecOn with
    | nil => rfl
    | append_singleton ts u => simp [last?, child?, childAt?, Tree.children]

/-- The last leaf below the last of several children. -/
theorem rightmostFromAmong_append_singleton (kind : ConstructKind) (before ts : List Tree) (u : Tree)
    (path : List Frame) : rightmostFromAmong kind before (ts ++ [u]) path =
      some (rightmostFrom u (⟨kind, ts.reverse ++ before, []⟩ :: path)) := by
  induction ts generalizing before with
  | nil => rfl
  | cons t ts ih => rw [List.cons_append, rightmostFromAmong, ih]; simp

/-- The last leaf below a node is that below its last child. -/
theorem rightmost_of_last? {f g : Focus} (h : f.last? = some g) : g.rightmost = f.rightmost := by
  obtain ⟨t, path⟩ := f
  cases t with
  | token | empty => cases h
  | node kind first rest =>
    cases rest using List.reverseRecOn with
    | nil =>
      cases h
      rfl
    | append_singleton ts u =>
      have hg : g = ⟨u, ⟨kind, ts.reverse ++ [first], []⟩ :: path⟩ := by simpa [last?] using h.symm
      rw [hg, rightmost, rightmost, rightmostFrom, rightmostFromAmong_append_singleton]

/-- A node has more nodes below it than its children have. -/
theorem size_lt_of_child? {f g : Focus} {i : Nat} (h : f.child? i = some g) :
    g.tree.size < f.tree.size := by
  obtain ⟨t, path⟩ := f
  cases t with
  | token | empty => cases h
  | node kind first rest =>
    obtain ⟨t, ht, rfl⟩ := Option.map_eq_some_iff.1 h
    have hle : t.size ≤ ((first :: rest).map Tree.size).sum :=
      List.le_sum_of_mem (List.mem_map_of_mem (List.mem_of_getElem? ht))
    rw [← Tree.sizeAmong_eq_sum, Tree.sizeAmong] at hle
    change t.size < 1 + (first.size + Tree.sizeAmong rest)
    omega

/-! ## Rows -/

/-- What an arena keeps of a node. -/
def row (f : Focus) : Row where
  kind := f.tree.kind
  text := f.tree.label.2
  pos := f.tree.pos
  parent := f.parent?.map index
  children := Tree.idsFrom (f.index + 1) f.tree.children
  slot := f.slot

end Focus

namespace Tree

variable {t : Tree} {f : Focus}

/-- The arena in which a tree is kept. -/
def toArena (t : Tree) : Arena := ⟨t.foci.map Focus.row⟩

/-- The number of a node is its place in document order. -/
theorem getElem?_foci (h : f ∈ t.foci) : t.foci[f.index]? = some f := by
  obtain ⟨i, hi⟩ := List.getElem?_of_mem h
  have hindex : (t.foci.map Focus.index)[i]? = some f.index := by
    rw [List.getElem?_map, hi, Option.map_some]
  rw [index_foci, List.getElem?_eq_some_iff] at hindex
  obtain ⟨hlt, hindex⟩ := hindex
  rw [List.getElem_range] at hindex
  rwa [← hindex]

/-- Each number up to the size of a tree is that of a node. -/
theorem exists_index_eq {i : Nat} (h : i < t.size) : ∃ f ∈ t.foci, f.index = i := by
  rw [← List.mem_range, ← index_foci] at h
  exact List.mem_map.1 h

/-- A node has the row with its number. -/
theorem rows_toArena (h : f ∈ t.foci) : t.toArena.rows[f.index]? = some f.row := by
  rw [toArena, List.getElem?_map, getElem?_foci h, Option.map_some]

/-- There are as many rows as nodes. -/
theorem size_toArena (t : Tree) : t.toArena.size = t.size := by
  have hlength := congrArg List.length t.index_foci
  rw [List.length_map, List.length_range] at hlength
  rw [Arena.size, toArena, List.length_map, hlength]

end Tree

/-! ## Ways -/

namespace Tree

variable {t : Tree} {f g : Focus}

/-- The children of a node stay in the tree. -/
theorem mem_foci_of_child? {i : Nat} (hf : f ∈ t.foci) (h : f.child? i = some g) : g ∈ t.foci := by
  obtain ⟨hparent, -⟩ := Focus.parent?_child? h
  exact mem_foci_of_root_eq hf (Focus.root_parent? hparent).symm

variable (hf : f ∈ t.foci)
include hf

/-- The children of a node in the arena. -/
theorem children_toArena : t.toArena.children f.index = idsFrom (f.index + 1) f.tree.children := by
  rw [Arena.children, rows_toArena hf]
  rfl

/-- In the arena of a tree a child has the number of the child. -/
theorem child?_toArena (i : Nat) : t.toArena.child? f.index i = (f.child? i).map Focus.index := by
  rw [Arena.child?, children_toArena hf, f.index_child?]

/-- In the arena of a tree the first child has the number of the first child. -/
theorem first?_toArena : t.toArena.first? f.index = f.first?.map Focus.index := by
  rw [Arena.first?, child?_toArena hf, f.first?_eq_child?]

/-- In the arena of a tree the last child has the number of the last child. -/
theorem last?_toArena : t.toArena.last? f.index = f.last?.map Focus.index := by
  rw [Arena.last?, children_toArena hf, List.getLast?_eq_getElem?, length_idsFrom,
    ← f.index_child?, f.last?_eq_child?]

/-- In the arena of a tree the parent has the number of the parent. -/
theorem parent?_toArena : t.toArena.parent? f.index = f.parent?.map Focus.index := by
  rw [Arena.parent?, rows_toArena hf]
  rfl

/-- In the arena of a tree a node stands in its slot. -/
theorem slot_toArena : t.toArena.slot f.index = f.slot := by
  rw [Arena.slot, rows_toArena hf]
  rfl

/-- A way over the parent of a node leads to a child of the parent. -/
theorem parent_child?_toArena (i : Nat) :
    ((t.toArena.parent? f.index).bind fun p => t.toArena.child? p i) =
      (f.parent?.bind (·.child? i)).map Focus.index := by
  rw [parent?_toArena hf]
  cases hparent : f.parent? with
  | none => rfl
  | some p => exact child?_toArena (mem_foci_of_root_eq hf (Focus.root_parent? hparent)) i

/-- In the arena of a tree the next sibling has the number of the next sibling. -/
theorem next?_toArena : t.toArena.next? f.index = f.next?.map Focus.index := by
  rw [Arena.next?, slot_toArena hf, parent_child?_toArena hf, f.next?_eq_child?]

/-- In the arena of a tree the previous sibling has the number of the previous sibling. -/
theorem prev?_toArena : t.toArena.prev? f.index = f.prev?.map Focus.index := by
  rw [Arena.prev?, slot_toArena hf, parent_child?_toArena hf, f.prev?_eq_child?]
  split <;> rfl

end Tree

end TreeLayout
