import TreeLayout.Proofs.Tree.Leaves

/-!
# Trees with their leaves at other positions

`Tree.mapPos` moves the leaves of a tree, each by its position, and the nodes above them with it.
Kinds and texts stay, and so do the first and the last leaf apart from their positions.
-/

namespace TreeLayout.Tree

variable (σ : Position → Position)

mutual
/-- A tree with its leaves at other positions. -/
def mapPos : Tree → Tree
  | .token kind text pos => .token kind text (σ pos)
  | .empty kind pos => .empty kind (σ pos)
  | .node kind first rest => .node kind first.mapPos (mapPosAmong rest)

/-- Several trees with their leaves at other positions. -/
def mapPosAmong : List Tree → List Tree
  | [] => []
  | t :: ts => t.mapPos :: mapPosAmong ts
end

/-- Several trees are moved one by one. -/
theorem mapPosAmong_eq_map (ts : List Tree) : mapPosAmong σ ts = ts.map (mapPos σ) := by
  induction ts with
  | nil => rfl
  | cons t ts ih => rw [mapPosAmong, ih, List.map_cons]

/-- A token is moved by its position. -/
@[simp] theorem mapPos_token (kind : TokenKind) (text : String) (pos : Position) :
    (token kind text pos).mapPos σ = .token kind text (σ pos) := by
  rw [mapPos]

/-- A construct without children is moved by its position. -/
@[simp] theorem mapPos_empty (kind : ConstructKind) (pos : Position) :
    (empty kind pos).mapPos σ = .empty kind (σ pos) := by
  rw [mapPos]

/-- A construct with children is moved by its children. -/
@[simp] theorem mapPos_node (kind : ConstructKind) (first : Tree) (rest : List Tree) :
    (node kind first rest).mapPos σ = .node kind (first.mapPos σ) (rest.map (mapPos σ)) := by
  rw [mapPos, mapPosAmong_eq_map]

/-- A tree with moved leaves is of the same kind. -/
@[simp] theorem kind_mapPos (t : Tree) : (t.mapPos σ).kind = t.kind := by
  cases t <;> simp [kind]

/-- The children of a tree with moved leaves are those of the tree, with moved leaves. -/
@[simp] theorem children_mapPos (t : Tree) :
    (t.mapPos σ).children = t.children.map (mapPos σ) := by
  cases t <;> simp [children]

/-- A tree with moved leaves has children if the tree has. -/
@[simp] theorem hasChildren_mapPos (t : Tree) : (t.mapPos σ).hasChildren = t.hasChildren := by
  cases t <;> simp [hasChildren]

/-- A tree moves with its first leaf. -/
@[simp] theorem pos_mapPos (t : Tree) : (t.mapPos σ).pos = σ t.pos := by
  induction t using children_induction with
  | token | empty => simp [pos]
  | node kind first rest ih _ => rw [mapPos_node, pos, ih, pos]

/-! ## Leaves -/

/-- The leaves of several moved trees, if each tree moves its own. -/
theorem leavesAmong_mapPos {ts : List Tree}
    (h : ∀ t ∈ ts, (t.mapPos σ).leaves = t.leaves.map (mapPos σ)) :
    leavesAmong (ts.map (mapPos σ)) = (leavesAmong ts).map (mapPos σ) := by
  induction ts with
  | nil => rfl
  | cons t ts ih =>
    rw [List.map_cons, leavesAmong, leavesAmong, List.map_append, h t List.mem_cons_self,
      ih fun t' ht' => h t' (List.mem_cons_of_mem t ht')]

/-- The leaves of a moved tree are the moved leaves. -/
theorem leaves_mapPos (t : Tree) : (t.mapPos σ).leaves = t.leaves.map (mapPos σ) := by
  induction t using children_induction with
  | token | empty => simp [leaves]
  | node kind first rest hfirst hrest =>
    have hamong := leavesAmong_mapPos σ (List.forall_mem_cons.2 ⟨hfirst, hrest⟩)
    rw [mapPos_node, leaves_node, leaves_node, ← hamong, List.map_cons]

/-- The last leaf moves with its tree. -/
@[simp] theorem rightmost_mapPos (t : Tree) :
    (t.mapPos σ).rightmost = t.rightmost.mapPos σ := by
  have hlast := (t.mapPos σ).getLast?_leaves
  rw [leaves_mapPos, List.getLast?_map, getLast?_leaves] at hlast
  exact (Option.some.inj hlast).symm

end TreeLayout.Tree
