import TreeLayout.Proofs.Tree.Root

/-!
# Which nodes a walk visits

A walk visits a node, and then the nodes below each of its children. The nodes of a tree are the foci
that the tree is put together from (`Tree.mem_foci_iff`): a walk visits the nodes below each of them
without a break (`Focus.preorderFrom_infix_foci`), and a child of each node that it visits
(`Focus.exists_child_mem_preorderFrom`).
-/

namespace TreeLayout

namespace Focus

/-! ## Constructs -/

/-- A walk over a construct visits it, and then its children. -/
theorem preorderFrom_node (kind : ConstructKind) (first : Tree) (rest : List Tree)
    (path : List Frame) :
    preorderFrom (.node kind first rest) path =
      ⟨.node kind first rest, path⟩ :: preorderFromAmong kind [] (first :: rest) path := by
  rw [preorderFrom, preorderFromAmong]

/-- The children of a construct with a child in its gap. -/
theorem children_plug (frame : Frame) (t : Tree) :
    (frame.plug t).children = frame.before.reverse ++ t :: frame.after := by
  unfold Frame.plug
  cases frame.before.reverse <;> rfl

/-- A walk over a construct with a child in its gap. -/
theorem preorderFrom_plug (frame : Frame) (t : Tree) (path : List Frame) :
    preorderFrom (frame.plug t) path = ⟨frame.plug t, path⟩ ::
      preorderFromAmong frame.kind [] (frame.before.reverse ++ t :: frame.after) path := by
  unfold Frame.plug
  cases frame.before.reverse with
  | nil => exact preorderFrom_node frame.kind t frame.after path
  | cons first rest => exact preorderFrom_node frame.kind first (rest ++ t :: frame.after) path

/-! ## Nodes below children -/

/-- A walk starts with the node that it is a walk over. -/
theorem self_mem_preorderFrom (t : Tree) (path : List Frame) : ⟨t, path⟩ ∈ preorderFrom t path := by
  cases t <;> simp [preorderFrom]

/-- A walk over children visits all nodes below each of them. -/
theorem exists_preorderFrom_subset (kind : ConstructKind) {t : Tree} {ts : List Tree} (ht : t ∈ ts)
    (before : List Tree) (path : List Frame) :
    ∃ path', preorderFrom t path' ⊆ preorderFromAmong kind before ts path := by
  induction ts generalizing before with
  | nil => cases ht
  | cons next ts ih =>
    rw [preorderFromAmong]
    obtain rfl | ht := List.mem_cons.1 ht
    · exact ⟨_, List.subset_append_left _ _⟩
    · obtain ⟨path', hsubset⟩ := ih ht (next :: before)
      exact ⟨path', List.Subset.trans hsubset (List.subset_append_right _ _)⟩

/-- A node that a walk over children visits stands below one of them. -/
theorem exists_mem_preorderFrom (kind : ConstructKind) {ts : List Tree} {before : List Tree}
    {path : List Frame} {f : Focus} (hf : f ∈ preorderFromAmong kind before ts path) :
    ∃ t ∈ ts, ∃ path', f ∈ preorderFrom t path' ∧
      preorderFrom t path' ⊆ preorderFromAmong kind before ts path := by
  induction ts generalizing before with
  | nil => cases hf
  | cons next ts ih =>
    rw [preorderFromAmong] at hf ⊢
    obtain hf | hf := List.mem_append.1 hf
    · exact ⟨next, List.mem_cons_self, _, hf, List.subset_append_left _ _⟩
    · obtain ⟨t, ht, path', hmem, hsubset⟩ := ih hf
      exact ⟨t, List.mem_cons_of_mem next ht, path', hmem,
        List.Subset.trans hsubset (List.subset_append_right _ _)⟩

/-- A walk visits the children of the nodes that it visits. -/
theorem exists_child_mem_preorderFrom {t : Tree} {path : List Frame} {f : Focus}
    (hf : f ∈ preorderFrom t path) {child : Tree} (hchild : child ∈ f.tree.children) :
    ∃ g ∈ preorderFrom t path, g.tree = child := by
  induction t using Tree.children_induction generalizing path with
  | token | empty =>
    obtain rfl : f = ⟨_, path⟩ := by simpa [preorderFrom] using hf
    cases hchild
  | node kind first rest hfirst hrest =>
    rw [preorderFrom_node] at hf ⊢
    obtain rfl | hf := List.mem_cons.1 hf
    · obtain ⟨path', hsubset⟩ := exists_preorderFrom_subset kind hchild [] path
      exact ⟨⟨child, path'⟩, List.mem_cons_of_mem _ (hsubset (self_mem_preorderFrom child path')),
        rfl⟩
    · obtain ⟨t, ht, path', hmem, hsubset⟩ := exists_mem_preorderFrom kind hf
      have hbelow : ∃ g ∈ preorderFrom t path', g.tree = child := by
        obtain rfl | ht := List.mem_cons.1 ht
        · exact hfirst hmem
        · exact hrest t ht hmem
      obtain ⟨g, hg, hgchild⟩ := hbelow
      exact ⟨g, List.mem_cons_of_mem _ (hsubset hg), hgchild⟩

/-! ## Nodes in a larger tree -/

/-- A walk over several children visits the nodes below one of them without a break. -/
theorem preorderFrom_infix_preorderFromAmong (kind : ConstructKind) (left : List Tree) (t : Tree)
    (right before : List Tree) (path : List Frame) :
    preorderFrom t (⟨kind, left.reverse ++ before, right⟩ :: path) <:+:
      preorderFromAmong kind before (left ++ t :: right) path := by
  induction left generalizing before with
  | nil =>
    rw [List.nil_append, preorderFromAmong]
    exact (List.prefix_append _ _).isInfix
  | cons next left ih =>
    rw [List.cons_append, preorderFromAmong, List.reverse_cons, List.append_assoc]
    exact (ih (next :: before)).trans (List.suffix_append _ _).isInfix

/-- A walk over a construct visits the nodes below the child in its gap without a break. -/
theorem preorderFrom_infix_plug (frame : Frame) (t : Tree) (path : List Frame) :
    preorderFrom t (frame :: path) <:+: preorderFrom (frame.plug t) path := by
  have hchildren := preorderFrom_infix_preorderFromAmong frame.kind frame.before.reverse t
    frame.after [] path
  rw [List.reverse_reverse, List.append_nil] at hchildren
  rw [preorderFrom_plug]
  exact hchildren.trans (List.suffix_cons _ _).isInfix

/-- A walk over a tree visits the nodes below each of its nodes without a break. -/
theorem preorderFrom_infix_foci (t : Tree) (path : List Frame) :
    preorderFrom t path <:+: (rootFrom t path).foci := by
  induction path generalizing t with
  | nil => exact List.infix_rfl
  | cons frame path ih => exact (preorderFrom_infix_plug frame t path).trans (ih (frame.plug t))

end Focus

/-- The nodes of a tree are the foci that it is the root of. -/
theorem Tree.mem_foci_iff {t : Tree} {f : Focus} : f ∈ t.foci ↔ f.root = t := by
  constructor
  · exact root_of_mem_foci
  · rintro rfl
    exact (Focus.preorderFrom_infix_foci f.tree f.path).subset (Focus.self_mem_preorderFrom _ _)

/-- A node with the root of a node of the tree is in the tree. -/
theorem Tree.mem_foci_of_root_eq {t : Tree} {f g : Focus} (hf : f ∈ t.foci) (h : g.root = f.root) :
    g ∈ t.foci := by
  rw [mem_foci_iff] at hf ⊢
  rw [h, hf]

end TreeLayout
