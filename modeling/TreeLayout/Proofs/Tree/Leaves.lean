import TreeLayout.Proofs.Tree.Root

/-!
# The leaves of a tree

`Tree.leaves` lists the leaves of a tree in source order. The first and the last of them are those
that the tree itself knows (`Tree.head?_leaves`, `Tree.getLast?_leaves`). A node in a larger tree
brings its own leaves and has nothing to do with the others (`Tree.exists_leaves_rootFrom`).
-/

namespace TreeLayout

namespace Tree

mutual
/-- The leaves of a tree in source order. -/
def leaves : Tree → List Tree
  | .token kind text pos => [.token kind text pos]
  | .empty kind pos => [.empty kind pos]
  | .node _ first rest => first.leaves ++ leavesAmong rest

/-- The leaves of several trees. -/
def leavesAmong : List Tree → List Tree
  | [] => []
  | t :: ts => t.leaves ++ leavesAmong ts
end

/-- The leaves of several trees are listed tree by tree. -/
theorem leavesAmong_eq_flatMap (ts : List Tree) : leavesAmong ts = ts.flatMap leaves := by
  induction ts with
  | nil => rfl
  | cons t ts ih => rw [leavesAmong, ih, List.flatMap_cons]

/-- The leaves of a construct are those of its children. -/
theorem leaves_node (kind : ConstructKind) (first : Tree) (rest : List Tree) :
    (node kind first rest).leaves = leavesAmong (first :: rest) := rfl

/-- Trees side by side have their leaves side by side. -/
theorem leavesAmong_append (ts us : List Tree) :
    leavesAmong (ts ++ us) = leavesAmong ts ++ leavesAmong us := by
  simp only [leavesAmong_eq_flatMap, List.flatMap_append]

/-! ## The first and the last leaf -/

/-- The first of the leaves is the first leaf. -/
theorem head?_leaves (t : Tree) : t.leaves.head? = some t.leftmost := by
  induction t using children_induction with
  | token | empty => rfl
  | node kind first rest ih _ => rw [leaves, List.head?_append, ih, leftmost, Option.some_or]

/-- The last of the leaves of several trees, if each tree knows its own. -/
theorem getLast?_leavesAmong {ts : List Tree}
    (h : ∀ t ∈ ts, t.leaves.getLast? = some t.rightmost) :
    (leavesAmong ts).getLast? = rightmostAmong ts := by
  induction ts with
  | nil => rfl
  | cons t ts ih =>
    rw [leavesAmong, rightmostAmong, List.getLast?_append, h t List.mem_cons_self,
      ih fun t' ht' => h t' (List.mem_cons_of_mem t ht')]
    cases rightmostAmong ts <;> rfl

/-- The last of the leaves is the last leaf. -/
theorem getLast?_leaves (t : Tree) : t.leaves.getLast? = some t.rightmost := by
  induction t using children_induction with
  | token | empty => rfl
  | node kind first rest hfirst hrest =>
    rw [leaves, rightmost, List.getLast?_append, hfirst, getLast?_leavesAmong hrest]
    cases rightmostAmong rest <;> rfl

/-- The first leaf of a tree is one of its leaves. -/
theorem leftmost_mem_leaves (t : Tree) : t.leftmost ∈ t.leaves :=
  List.mem_of_head? t.head?_leaves

/-- The last leaf of a tree is one of its leaves. -/
theorem rightmost_mem_leaves (t : Tree) : t.rightmost ∈ t.leaves :=
  List.mem_of_getLast? t.getLast?_leaves

/-- The last leaf below several trees is the one below the last tree. -/
theorem rightmostAmong_eq (ts : List Tree) : rightmostAmong ts = ts.getLast?.map rightmost := by
  induction ts with
  | nil => rfl
  | cons t ts ih =>
    rw [rightmostAmong, ih]
    cases ts with
    | nil => rfl
    | cons next ts =>
      rw [List.getLast?_cons_cons]
      cases hlast : (next :: ts).getLast? with
      | none => simp at hlast
      | some last => rfl

/-- The last leaf is its own last leaf. -/
theorem rightmost_rightmost (t : Tree) : t.rightmost.rightmost = t.rightmost := by
  induction t using children_induction with
  | token | empty => rfl
  | node kind first rest hfirst hrest =>
    rw [rightmost, rightmostAmong_eq]
    cases hlast : rest.getLast? with
    | none => exact hfirst
    | some last => exact hrest last (List.mem_of_getLast? hlast)

/-- The first leaf is its own first leaf. -/
theorem leftmost_leftmost (t : Tree) : t.leftmost.leftmost = t.leftmost := by
  induction t using children_induction with
  | token | empty => rfl
  | node kind first rest ih _ => exact ih

/-! ## Leaves in a larger tree -/

/-- A construct with a child in its gap has the leaves of that child between those of the others. -/
theorem leaves_plug (frame : Frame) (t : Tree) :
    (frame.plug t).leaves =
      leavesAmong frame.before.reverse ++ t.leaves ++ leavesAmong frame.after := by
  unfold Frame.plug
  cases frame.before.reverse with
  | nil => rfl
  | cons first rest =>
    simp only [leaves, leavesAmong, leavesAmong_append, List.append_assoc]

/-- The leaves of a tree are those of a node in it, and others that do not depend on the node. -/
theorem exists_leaves_rootFrom (path : List Frame) :
    ∃ before after, ∀ t, (Focus.rootFrom t path).leaves = before ++ t.leaves ++ after := by
  induction path with
  | nil => exact ⟨[], [], fun t => by simp [Focus.rootFrom]⟩
  | cons frame path ih =>
    obtain ⟨before, after, hleaves⟩ := ih
    refine ⟨before ++ leavesAmong frame.before.reverse, leavesAmong frame.after ++ after,
      fun t => ?_⟩
    rw [Focus.rootFrom, hleaves, leaves_plug]
    simp only [List.append_assoc]

end Tree

/-! ## Leaves in their surroundings -/

namespace Focus

/-- The first leaf below a node, apart from its surroundings. -/
theorem tree_leftmostFrom (t : Tree) (path : List Frame) :
    (leftmostFrom t path).tree = t.leftmost := by
  induction t using Tree.children_induction generalizing path with
  | token | empty => rfl
  | node kind first rest ih _ => rw [leftmostFrom, ih, Tree.leftmost]

/-- The last leaf below the last of several children, apart from its surroundings. -/
theorem tree_rightmostFromAmong (kind : ConstructKind) {ts : List Tree}
    (h : ∀ t ∈ ts, ∀ path, (rightmostFrom t path).tree = t.rightmost) (before : List Tree)
    (path : List Frame) :
    (rightmostFromAmong kind before ts path).map Focus.tree = Tree.rightmostAmong ts := by
  induction ts generalizing before with
  | nil => rfl
  | cons t ts ih =>
    have hlater := ih (fun t' ht' => h t' (List.mem_cons_of_mem t ht')) (t :: before)
    rw [rightmostFromAmong, Tree.rightmostAmong, ← hlater]
    cases rightmostFromAmong kind (t :: before) ts path with
    | some leaf => rfl
    | none => exact congrArg some (h t List.mem_cons_self _)

/-- The last leaf below a node, apart from its surroundings. -/
theorem tree_rightmostFrom (t : Tree) (path : List Frame) :
    (rightmostFrom t path).tree = t.rightmost := by
  induction t using Tree.children_induction generalizing path with
  | token | empty => rfl
  | node kind first rest hfirst hrest =>
    rw [rightmostFrom, Tree.rightmost, ← tree_rightmostFromAmong kind hrest [first] path]
    cases rightmostFromAmong kind [first] rest path with
    | some leaf => rfl
    | none => exact hfirst _

end Focus

end TreeLayout
