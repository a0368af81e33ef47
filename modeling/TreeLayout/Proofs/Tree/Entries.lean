import TreeLayout.Proofs.Tree.Construction

/-!
# Trees with the same nodes

The nodes of a tree make a table with one entry for each node: its number, what it shows by itself,
the numbers of its parent and of its children, and its place among its siblings (`Focus.entry`). A
change that leaves the nodes where they are, and moves leaves at most (`Tree.KeepsNodes`), takes the
nodes of a tree to those of the changed tree, one by one (`Tree.foci_map`), so the entries stay the
same (`Tree.entry_foci`).
-/

namespace TreeLayout

/-- What a table of nodes says about a node, apart from its position. -/
structure Entry where
  /-- The number of the node. -/
  index : Nat
  /-- What the node shows by itself. -/
  label : Label
  /-- The number of its parent. -/
  parent : Option Nat
  /-- Its place among the children of its parent. -/
  slot : Nat
  /-- The numbers of its children. -/
  children : List Nat

/-- The entry of a node. -/
def Focus.entry (f : Focus) : Entry where
  index := f.index
  label := f.tree.label
  parent := f.parent?.map index
  slot := f.slot
  children := (List.range f.tree.children.length).filterMap fun i => (f.child? i).map index

/-- A change of trees that moves leaves and does nothing else. -/
structure Tree.KeepsNodes (g : Tree → Tree) : Prop where
  /-- A token stays a token with its text. -/
  token : ∀ kind text pos, ∃ pos', g (.token kind text pos) = .token kind text pos'
  /-- A construct without children stays one. -/
  empty : ∀ kind pos, ∃ pos', g (.empty kind pos) = .empty kind pos'
  /-- A construct with children changes with its children. -/
  node : ∀ kind first rest, g (.node kind first rest) = .node kind (g first) (rest.map g)

/-- The surroundings of a node in a changed tree. -/
def Frame.map (g : Tree → Tree) (frame : Frame) : Frame :=
  ⟨frame.kind, frame.before.map g, frame.after.map g⟩

/-- A node of a changed tree. -/
def Focus.map (g : Tree → Tree) (f : Focus) : Focus :=
  ⟨g f.tree, f.path.map (Frame.map g)⟩

namespace Tree.KeepsNodes

variable {g : Tree → Tree}

/-- Several changed trees have as many nodes, if each of them has. -/
theorem sizeAmong_map {ts : List Tree} (h : ∀ t ∈ ts, (g t).size = t.size) :
    Tree.sizeAmong (ts.map g) = Tree.sizeAmong ts := by
  induction ts with
  | nil => rfl
  | cons t ts ih =>
    rw [List.map_cons, Tree.sizeAmong, Tree.sizeAmong, h t List.mem_cons_self,
      ih fun t' ht' => h t' (List.mem_cons_of_mem t ht')]

/-- The nodes below several changed trees are the changed nodes, if those of each of them are. -/
theorem preorderFromAmong_map (kind : ConstructKind) {ts : List Tree}
    (h : ∀ t ∈ ts, ∀ path, Focus.preorderFrom (g t) (path.map (Frame.map g)) =
      (Focus.preorderFrom t path).map (Focus.map g)) (before : List Tree) (path : List Frame) :
    Focus.preorderFromAmong kind (before.map g) (ts.map g) (path.map (Frame.map g)) =
      (Focus.preorderFromAmong kind before ts path).map (Focus.map g) := by
  induction ts generalizing before with
  | nil => rfl
  | cons t ts ih =>
    have hlater := ih (fun t' ht' => h t' (List.mem_cons_of_mem t ht')) (t :: before)
    have hhere := h t List.mem_cons_self (⟨kind, before, ts⟩ :: path)
    rw [List.map_cons] at hlater hhere ⊢
    rw [Focus.preorderFromAmong, Focus.preorderFromAmong, List.map_append, hlater, ← hhere]
    rfl

variable (hg : KeepsNodes g)
include hg

/-- A changed tree has the same label. -/
theorem label (t : Tree) : (g t).label = t.label := by
  cases t with
  | token kind text pos =>
    obtain ⟨pos', h⟩ := hg.token kind text pos
    rw [h, Tree.label, Tree.label]
  | empty kind pos =>
    obtain ⟨pos', h⟩ := hg.empty kind pos
    rw [h, Tree.label, Tree.label]
  | node kind first rest => rw [hg.node, Tree.label, Tree.label]

/-- The children of a changed tree are its changed children. -/
theorem children (t : Tree) : (g t).children = t.children.map g := by
  cases t with
  | token kind text pos =>
    obtain ⟨pos', h⟩ := hg.token kind text pos
    rw [h]
    rfl
  | empty kind pos =>
    obtain ⟨pos', h⟩ := hg.empty kind pos
    rw [h]
    rfl
  | node kind first rest =>
    rw [hg.node]
    rfl

/-- A changed tree has as many nodes. -/
theorem size (t : Tree) : (g t).size = t.size := by
  induction t using children_induction with
  | token kind text pos =>
    obtain ⟨pos', h⟩ := hg.token kind text pos
    rw [h]
    rfl
  | empty kind pos =>
    obtain ⟨pos', h⟩ := hg.empty kind pos
    rw [h]
    rfl
  | node kind first rest hfirst hrest =>
    rw [hg.node, Tree.size, Tree.size, hfirst, sizeAmong_map hrest]

/-! ## Surroundings -/

/-- A change of a tree is a change of its subtree and of what is around it. -/
theorem plug (frame : Frame) (t : Tree) : (frame.map g).plug (g t) = g (frame.plug t) := by
  unfold Frame.plug
  simp only [Frame.map, ← List.map_reverse]
  cases frame.before.reverse with
  | nil => exact (hg.node _ _ _).symm
  | cons first rest => rw [hg.node, List.map_append, List.map_cons, List.map_cons]

/-- A node of a changed tree has the same number. -/
theorem index (f : Focus) : (f.map g).index = f.index := by
  obtain ⟨t, path⟩ := f
  simp only [Focus.index, Focus.map]
  induction path with
  | nil => rfl
  | cons frame path ih =>
    rw [List.map_cons, Focus.countBefore, Focus.countBefore, ih, Frame.map,
      sizeAmong_map fun t _ => hg.size t]

/-- The parent of a changed node is its changed parent. -/
theorem parent? (f : Focus) : (f.map g).parent? = f.parent?.map (Focus.map g) := by
  obtain ⟨t, path⟩ := f
  cases path with
  | nil => rfl
  | cons frame path => simp [Focus.parent?, Focus.map, hg.plug]

/-- A child of a changed node is its changed child. -/
theorem child? (f : Focus) (i : Nat) : (f.map g).child? i = (f.child? i).map (Focus.map g) := by
  obtain ⟨t, path⟩ := f
  cases t with
  | token kind text pos =>
    obtain ⟨pos', h⟩ := hg.token kind text pos
    simp only [Focus.child?, Focus.map, h]
    rfl
  | empty kind pos =>
    obtain ⟨pos', h⟩ := hg.empty kind pos
    simp only [Focus.child?, Focus.map, h]
    rfl
  | node kind first rest =>
    simp only [Focus.child?, Focus.map, hg.node, Focus.childAt?, ← List.map_cons]
    rw [List.getElem?_map, Option.map_map, Option.map_map]
    congr 1
    funext t
    simp [Focus.map, Frame.map, List.map_take, List.map_drop]

/-- A node of a changed tree has the same entry. -/
theorem entry (f : Focus) : (f.map g).entry = f.entry := by
  have hlength : (f.map g).tree.children.length = f.tree.children.length := by
    rw [Focus.map, hg.children, List.length_map]
  have hslot : (f.map g).slot = f.slot := by
    obtain ⟨t, path⟩ := f
    cases path with
    | nil => rfl
    | cons frame path => exact List.length_map g
  have hlabel : (f.map g).tree.label = f.tree.label := hg.label f.tree
  have hindex : Focus.index ∘ Focus.map g = Focus.index := funext hg.index
  simp only [Focus.entry, hg.index, hlabel, hg.parent?, hslot, hlength, hg.child?, Option.map_map,
    hindex]

/-! ## All nodes -/

/-- The nodes of a changed tree are the changed nodes, in the same order. -/
theorem preorderFrom (t : Tree) (path : List Frame) :
    Focus.preorderFrom (g t) (path.map (Frame.map g)) =
      (Focus.preorderFrom t path).map (Focus.map g) := by
  induction t using children_induction generalizing path with
  | token kind text pos =>
    obtain ⟨pos', h⟩ := hg.token kind text pos
    simp [h, Focus.preorderFrom, Focus.map]
  | empty kind pos =>
    obtain ⟨pos', h⟩ := hg.empty kind pos
    simp [h, Focus.preorderFrom, Focus.map]
  | node kind first rest hfirst hrest =>
    have hchildren := preorderFromAmong_map kind (List.forall_mem_cons.2 ⟨hfirst, hrest⟩) [] path
    rw [List.map_cons, List.map_nil] at hchildren
    rw [hg.node, Focus.preorderFrom_node, Focus.preorderFrom_node, List.map_cons, hchildren, Focus.map, hg.node]

end Tree.KeepsNodes

/-- The nodes of a changed tree are the changed nodes, in the same order. -/
theorem Tree.foci_map {g : Tree → Tree} (hg : KeepsNodes g) (t : Tree) :
    (g t).foci = t.foci.map (Focus.map g) :=
  hg.preorderFrom t []

/-- A changed tree has the same table of nodes. -/
theorem Tree.entry_foci {g : Tree → Tree} (hg : KeepsNodes g) (t : Tree) :
    (g t).foci.map Focus.entry = t.foci.map Focus.entry := by
  rw [foci_map hg, List.map_map]
  exact List.map_congr_left fun f _ => hg.entry f

end TreeLayout
