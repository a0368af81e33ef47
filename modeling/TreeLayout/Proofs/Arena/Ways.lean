import TreeLayout.Proofs.Arena.Rows

/-!
# Loops over the arena of a tree

Loops over the rows of an arena stop by themselves if the arena is that of a tree. A step down comes to
a smaller tree, so the leaves at the sides of a node are reached (`Tree.leftmost_toArena`,
`Tree.rightmost_toArena`). A visit takes one step for each node, in document order, and has no nodes
left then (`Tree.visits_toArena`). The raw form that is read off the rows is that of the tree
(`Tree.toRaw?_toArena`).
-/

namespace TreeLayout

namespace Tree

variable {t : Tree} {f g : Focus}

/-- No node has more nodes below it than the tree. -/
theorem size_le_of_mem_foci (hf : f ∈ t.foci) : f.tree.size ≤ t.size := by
  have hlength (u : Tree) (path : List Frame) : (Focus.preorderFrom u path).length = u.size := by
    have hindex := congrArg List.length (Focus.index_preorderFrom u path)
    rwa [List.length_map, List.length_range'] at hindex
  have hinfix := (Focus.preorderFrom_infix_foci f.tree f.path).length_le
  rw [hlength] at hinfix
  calc f.tree.size ≤ f.root.foci.length := hinfix
    _ = f.root.size := hlength _ _
    _ = t.size := by rw [mem_foci_iff.1 hf]

/-- A child has fewer nodes below it than its parent. -/
theorem size_lt_of_mem_children {u : Tree} (h : u ∈ t.children) : u.size < t.size := by
  have hle : u.size ≤ sizeAmong t.children := by
    rw [sizeAmong_eq_sum]
    exact List.le_sum_of_mem (List.mem_map_of_mem h)
  cases t with
  | token | empty => cases h
  | node kind first rest =>
    rw [children, sizeAmong] at hle
    rw [size]
    omega

/-- The nodes below the children of a node stay in the tree. -/
theorem mem_foci_of_preorderFromAmong {kind : ConstructKind} {first : Tree} {rest : List Tree}
    {path : List Frame} (hf : ⟨.node kind first rest, path⟩ ∈ t.foci) :
    ∀ f ∈ Focus.preorderFromAmong kind [] (first :: rest) path, f ∈ t.foci := by
  intro f hbelow
  have hinfix := Focus.preorderFrom_infix_foci (.node kind first rest) path
  rw [Focus.preorderFrom_node] at hinfix
  rw [← mem_foci_iff.1 hf]
  exact hinfix.subset (List.mem_cons_of_mem _ hbelow)

/-! ## Leaves at the sides -/

/-- A way from child to child goes down to a leaf, and the way from number to number along with it. -/
theorem index_followed {step? : Nat → Option Nat} {child? : Focus → Option Focus}
    {leaf : Focus → Focus} (hstep : ∀ f ∈ t.foci, step? f.index = (child? f).map Focus.index)
    (hchild : ∀ f g, child? f = some g → (∃ i, f.child? i = some g) ∧ leaf g = leaf f)
    (hend : ∀ f, child? f = none → leaf f = f) (hf : f ∈ t.foci) {steps : Nat}
    (hsteps : f.tree.size ≤ steps) : Arena.followed step? steps f.index = (leaf f).index := by
  induction steps generalizing f with
  | zero =>
    have hpos := f.tree.size_pos
    omega
  | succ steps ih =>
    rw [Arena.followed, hstep f hf]
    cases hnext : child? f with
    | none => rw [hend f hnext, Option.map_none]
    | some g =>
      obtain ⟨⟨i, hi⟩, hleaf⟩ := hchild f g hnext
      have hsize := Focus.size_lt_of_child? hi
      rw [← hleaf]
      exact ih (mem_foci_of_child? hf hi) (by omega)

section

variable (hf : f ∈ t.foci)
include hf

/-- The first leaf below a node stays in the tree. -/
theorem leftmost_mem_foci : f.leftmost ∈ t.foci :=
  mem_foci_of_root_eq hf (Focus.root_leftmostFrom f.tree f.path)

/-- The first leaf below a node is reached. -/
theorem leftmost_toArena : t.toArena.leftmost f.index = f.leftmost.index := by
  refine index_followed (fun f hf => first?_toArena hf) ?_ ?_ hf ?_
  · rintro ⟨u, path⟩ g h
    refine ⟨⟨0, by rwa [← Focus.first?_eq_child?]⟩, ?_⟩
    cases u with
    | token | empty => cases h
    | node kind first rest =>
      cases h
      rfl
  · rintro ⟨u, path⟩ h
    cases u with
    | token | empty => rfl
    | node => cases h
  · rw [size_toArena]
    exact size_le_of_mem_foci hf

/-- The last leaf below a node is reached. -/
theorem rightmost_toArena : t.toArena.rightmost f.index = f.rightmost.index := by
  refine index_followed (fun f hf => last?_toArena hf) ?_ ?_ hf ?_
  · intro f g h
    exact ⟨⟨_, by rwa [← Focus.last?_eq_child?]⟩, Focus.rightmost_of_last? h⟩
  · rintro ⟨u, path⟩ h
    cases u with
    | token | empty => rfl
    | node kind first rest =>
      rw [Focus.last?_eq_child?, ← Option.not_isSome_iff_eq_none, Focus.isSome_child?] at h
      exact absurd (Nat.lt_succ_self _) h
  · rw [size_toArena]
    exact size_le_of_mem_foci hf

/-- The text of a node in the arena. -/
theorem text_toArena : t.toArena.text f.index = f.tree.text := by
  have hlabel (u : Tree) : u.label.2.getD "" = u.text := by cases u <;> rfl
  rw [Arena.text, rows_toArena hf]
  exact hlabel f.tree

/-- Messages name a node in the arena as they name it in the tree. -/
theorem describe_toArena : t.toArena.describe f.index = f.tree.describe := by
  have hleaf := leftmost_mem_foci hf
  have hkind {g : Focus} (hg : g ∈ t.foci) : t.toArena.kind? g.index = some g.tree.kind := by
    rw [Arena.kind?, rows_toArena hg]
    rfl
  rw [Arena.describe, leftmost_toArena hf, hkind hf, hkind hleaf, text_toArena hleaf, describe,
    Focus.leftmost, Focus.tree_leftmostFrom]
  cases f.tree.leftmost <;> rfl

end

/-! ## Visits -/

end Tree

/-- A visit that has some nodes on top comes to so many numbers from one on, and then goes on with what
is below the top. -/
def Arena.Passes (a : Arena) (top : List Nat) (start number : Nat) : Prop :=
  ∀ count stack, a.visits (number + count) (top ++ stack) =
    (List.range' start number ++ (a.visits count stack).1, (a.visits count stack).2)

/-- With nothing on top a visit goes on at once. -/
theorem Arena.passes_nil (a : Arena) (start : Nat) : a.Passes [] start 0 := by
  intro count stack
  simp

/-- What is passed one after the other is passed together. -/
theorem Arena.Passes.append {a : Arena} {top below : List Nat} {start m n : Nat}
    (h : a.Passes top start m) (hbelow : a.Passes below (start + m) n) :
    a.Passes (top ++ below) start (m + n) := by
  intro count stack
  rw [List.append_assoc, Nat.add_assoc, h, hbelow, ← List.append_assoc, List.range'_append_1]

namespace Tree

variable {t : Tree} {f g : Focus}

/-- A visit passes several children if it passes each of them. -/
theorem passes_idsFrom (kind : ConstructKind) (path : List Frame) {ts : List Tree}
    (h : ∀ f ∈ t.foci, f.tree ∈ ts → t.toArena.Passes [f.index] f.index f.tree.size)
    (before : List Tree) (hmem : ∀ f ∈ Focus.preorderFromAmong kind before ts path, f ∈ t.foci) :
    let start := 1 + sizeAmong before + Focus.countBefore path
    t.toArena.Passes (idsFrom start ts) start (sizeAmong ts) := by
  induction ts generalizing before with
  | nil => exact t.toArena.passes_nil _
  | cons u ts ih =>
    rw [Focus.preorderFromAmong, List.forall_mem_append] at hmem
    have hhere := h ⟨u, ⟨kind, before, ts⟩ :: path⟩
      (hmem.1 _ (Focus.self_mem_preorderFrom _ _)) List.mem_cons_self
    have hlater := ih (fun f hf hts => h f hf (List.mem_cons_of_mem u hts)) (u :: before) hmem.2
    rw [one_add_sizeAmong_cons] at hlater
    exact hhere.append hlater

/-- A visit passes a node together with all nodes below it. -/
theorem passes_index (hf : f ∈ t.foci) : t.toArena.Passes [f.index] f.index f.tree.size := by
  -- The induction is on the size, not on the tree: the children are told by their foci in `t`.
  induction hsize : f.tree.size using Nat.strongRecOn generalizing f with
  | ind n ih =>
    subst hsize
    intro count stack
    have hids := children_toArena hf
    obtain ⟨u, path⟩ := f
    cases u with
    | token | empty =>
      rw [size, Nat.add_comm, List.singleton_append, Arena.visits, Arena.visit?, hids]
      rfl
    | node kind first rest =>
      have hbelow : ∀ f ∈ t.foci, f.tree ∈ first :: rest →
          t.toArena.Passes [f.index] f.index f.tree.size := fun f hf hu =>
        ih f.tree.size (size_lt_of_mem_children hu) hf rfl
      have hchildren := passes_idsFrom kind path hbelow [] (mem_foci_of_preorderFromAmong hf) count
        stack
      have hstart : 1 + sizeAmong [] + Focus.countBefore path =
          Focus.index ⟨.node kind first rest, path⟩ + 1 := by
        rw [sizeAmong, Nat.add_zero, Nat.add_comm]
        rfl
      have hpush : pushAll stack (t.toArena.children (Focus.index ⟨.node kind first rest, path⟩)).reverse
          = idsFrom (1 + sizeAmong [] + Focus.countBefore path) (first :: rest) ++ stack := by
        rw [hids, hstart, pushAll_reverse, children]
      have htotal : (node kind first rest).size = sizeAmong (first :: rest) + 1 := by
        rw [size, sizeAmong, Nat.add_comm]
      -- One step takes the node itself; the steps for its children follow without a break.
      rw [htotal, Nat.add_right_comm, List.singleton_append, Arena.visits, Arena.visit?]
      simp only [hpush, hchildren]
      rw [hstart, List.range'_succ, List.cons_append]

/-- A visit of the arena of a tree comes to all nodes in document order, and then ends. -/
theorem visits_toArena (t : Tree) {count : Nat} (h : t.size ≤ count) :
    t.toArena.visits count Arena.start = (List.range t.size, []) := by
  obtain ⟨more, rfl⟩ := Nat.exists_eq_add_of_le h
  have hend : t.toArena.visits more [] = ([], []) := by cases more <;> rfl
  have hroot : Focus.ofRoot t ∈ t.foci := Focus.self_mem_preorderFrom t []
  have hvisit : t.toArena.visits (t.size + more) Arena.start =
      (List.range' 0 t.size ++ (t.toArena.visits more []).1, (t.toArena.visits more []).2) :=
    passes_index hroot more []
  rw [hvisit, hend, List.append_nil, List.range_eq_range']

/-- All nodes of an arena in document order are the numbers from zero on. -/
theorem preorder_toArena (t : Tree) : t.toArena.preorder = List.range t.size := by
  rw [Arena.preorder, visits_toArena t (Nat.le_of_eq t.size_toArena.symm)]

/-! ## The raw form -/

end Tree

/-- The raw form of a construct is put together from those of its children. -/
theorem Arena.rawFrom_construct {a : Arena} {id depth : Nat} {row : Row} {kind : ConstructKind}
    (h : a.rows[id]? = some row) (hkind : row.kind = .construct kind) :
    a.rawFrom (depth + 1) id = (row.children.mapM (a.rawFrom depth)).map fun children =>
      ⟨Kind.construct kind, none, none, none, children⟩ := by
  rw [rawFrom, h]
  simp only [Option.bind_eq_bind, Option.bind_some, hkind]
  cases row.children.mapM (a.rawFrom depth) <;> rfl

namespace Tree

variable {t : Tree} {f : Focus}

/-- The raw forms of several children are read off their rows. -/
theorem rawFrom_idsFrom {depth : Nat} (kind : ConstructKind) (path : List Frame) {ts : List Tree}
    (h : ∀ f ∈ t.foci, f.tree ∈ ts → t.toArena.rawFrom depth f.index = some f.tree.toRaw)
    (before : List Tree) (hmem : ∀ f ∈ Focus.preorderFromAmong kind before ts path, f ∈ t.foci) :
    (idsFrom (1 + sizeAmong before + Focus.countBefore path) ts).mapM (t.toArena.rawFrom depth) =
      some (toRawAmong ts) := by
  induction ts generalizing before with
  | nil => rfl
  | cons u ts ih =>
    rw [Focus.preorderFromAmong, List.forall_mem_append] at hmem
    have hhere := h ⟨u, ⟨kind, before, ts⟩ :: path⟩
      (hmem.1 _ (Focus.self_mem_preorderFrom _ _)) List.mem_cons_self
    have hlater := ih (fun f hf hts => h f hf (List.mem_cons_of_mem u hts)) (u :: before) hmem.2
    rw [one_add_sizeAmong_cons] at hlater
    simp only [Focus.index, Focus.countBefore] at hhere
    rw [idsFrom, List.mapM_cons, hhere, hlater, toRawAmong]
    rfl

/-- The raw form of a node is read off the rows. -/
theorem rawFrom_toArena (hf : f ∈ t.foci) {depth : Nat} (hdepth : f.tree.size ≤ depth) :
    t.toArena.rawFrom depth f.index = some f.tree.toRaw := by
  -- The bound on the depth is what the recursion goes by, so the induction is on it.
  induction depth generalizing f with
  | zero =>
    have hpos := f.tree.size_pos
    omega
  | succ depth ih =>
    have hrow := rows_toArena hf
    have htext := text_toArena hf
    obtain ⟨u, path⟩ := f
    cases u with
    | token =>
      rw [Arena.rawFrom, hrow, htext]
      rfl
    | empty =>
      rw [Arena.rawFrom, hrow]
      rfl
    | node kind first rest =>
      have hbelow : ∀ f ∈ t.foci, f.tree ∈ first :: rest →
          t.toArena.rawFrom depth f.index = some f.tree.toRaw := by
        intro f hf hu
        have hlt : f.tree.size < (node kind first rest).size := size_lt_of_mem_children hu
        exact ih hf (Nat.le_of_lt_succ (Nat.lt_of_lt_of_le hlt hdepth))
      have hchildren := rawFrom_idsFrom kind path hbelow [] (mem_foci_of_preorderFromAmong hf)
      have hids : (Focus.row ⟨.node kind first rest, path⟩).children =
          idsFrom (1 + sizeAmong [] + Focus.countBefore path) (first :: rest) := by
        rw [sizeAmong, Nat.add_zero, Nat.add_comm]
        rfl
      have hkind : (Focus.row ⟨.node kind first rest, path⟩).kind = .construct kind := rfl
      rw [Arena.rawFrom_construct hrow hkind, hids, hchildren, toRaw]
      rfl

/-- The raw form that is read off the arena of a tree is that of the tree. -/
theorem toRaw?_toArena (t : Tree) : t.toArena.toRaw? = some t.toRaw := by
  rw [Arena.toRaw?, size_toArena]
  exact rawFrom_toArena (f := .ofRoot t) (Focus.self_mem_preorderFrom t []) (Nat.le_refl _)

end Tree

end TreeLayout
