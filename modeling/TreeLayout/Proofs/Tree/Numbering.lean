import TreeLayout.Proofs.Tree.Preorder

/-!
# Numbers of nodes

The nodes of a tree are the foci that the tree is put together from (`Tree.mem_foci_iff`), so the
ways from a node to its parent, its children and its siblings stay among them. Their numbers count
from zero in document order (`Tree.index_foci`), a child has a greater number than its parent, and
the place of a child among its siblings (`Focus.slot`) is where its parent has it
(`Focus.child?_slot`).
-/

namespace TreeLayout

namespace Focus

variable {f g p : Focus} {i : Nat}

/-! ## Parents, children and siblings -/

/-- The place of a node among the children of its parent, counted from zero. -/
def slot (f : Focus) : Nat :=
  match f.path with
  | [] => 0
  | frame :: _ => frame.before.length

/-- The node at a place among the children of a construct at the end of a path. -/
def childAt? (kind : ConstructKind) (children : List Tree) (path : List Frame) (i : Nat) :
    Option Focus :=
  children[i]?.map fun t => ⟨t, ⟨kind, (children.take i).reverse, children.drop (i + 1)⟩ :: path⟩

/-- The child of a node at a place. -/
def child? (f : Focus) (i : Nat) : Option Focus :=
  match f.tree with
  | .node kind first rest => childAt? kind (first :: rest) f.path i
  | _ => none

/-- The node between those before and those after it. -/
theorem childAt?_append (frame : Frame) (t : Tree) (path : List Frame) :
    childAt? frame.kind (frame.before.reverse ++ t :: frame.after) path frame.before.length =
      some ⟨t, frame :: path⟩ := by
  obtain ⟨kind, before, after⟩ := frame
  have hlength : before.reverse.length = before.length := List.length_reverse
  have hget : (before.reverse ++ t :: after)[before.length]? = some t := by
    rw [List.getElem?_append_right (by omega), hlength, Nat.sub_self]
    rfl
  have htake : (before.reverse ++ t :: after).take before.length = before.reverse := by
    rw [← hlength, List.take_left]
  have hdrop : (before.reverse ++ t :: after).drop (before.length + 1) = after := by
    rw [← List.drop_drop, ← hlength, List.drop_left]
    rfl
  simp only [childAt?, hget, htake, hdrop, Option.map_some, List.reverse_reverse]

/-- A node taken out of its construct at a place. -/
theorem childAt?_eq_some {kind : ConstructKind} {children : List Tree} {path : List Frame}
    (h : childAt? kind children path i = some g) :
    ∃ frame, g = ⟨g.tree, frame :: path⟩ ∧ frame.kind = kind ∧ frame.before.length = i
      ∧ frame.before.reverse ++ g.tree :: frame.after = children := by
  obtain ⟨t, ht, rfl⟩ := Option.map_eq_some_iff.1 h
  obtain ⟨hi, rfl⟩ := List.getElem?_eq_some_iff.1 ht
  refine ⟨_, rfl, rfl, ?_, ?_⟩
  · rw [List.length_reverse, List.length_take]
    omega
  · rw [List.reverse_reverse, List.getElem_cons_drop, List.take_append_drop]

/-- A construct around a subtree has that subtree among its children. -/
theorem plug_eq_node {frame : Frame} {t first : Tree} {rest : List Tree}
    (h : frame.before.reverse ++ t :: frame.after = first :: rest) :
    frame.plug t = .node frame.kind first rest := by
  unfold Frame.plug
  cases hbefore : frame.before.reverse with
  | nil =>
    rw [hbefore] at h
    cases h
    rfl
  | cons before rest' =>
    rw [hbefore] at h
    cases h
    rfl

/-- The construct around a node has it at its place. -/
theorem child?_slot (h : f.parent? = some p) : p.child? f.slot = some f := by
  obtain ⟨t, path⟩ := f
  cases path with
  | nil => cases h
  | cons frame path =>
    cases h
    have hat := childAt?_append frame t path
    obtain ⟨first, rest, hchildren⟩ : ∃ first rest,
        frame.before.reverse ++ t :: frame.after = first :: rest :=
      List.exists_cons_of_ne_nil (by simp)
    rw [hchildren] at hat
    simp only [child?, plug_eq_node hchildren]
    exact hat

/-- The child at a place has the construct as its parent, and has this place. -/
theorem parent?_child? (h : p.child? i = some f) : f.parent? = some p ∧ f.slot = i := by
  obtain ⟨t, path⟩ := p
  unfold child? at h
  split at h
  · rename_i kind first rest ht
    simp only at ht
    obtain ⟨frame, hf, rfl, hslot, hchildren⟩ := childAt?_eq_some h
    rw [hf, ht, ← plug_eq_node hchildren]
    exact ⟨rfl, hslot⟩
  · cases h

/-- There is a child at a place exactly if there are more children than places before it. -/
theorem isSome_child? : (f.child? i).isSome ↔ i < f.tree.children.length := by
  obtain ⟨t, path⟩ := f
  cases t with
  | token | empty => simp [child?, Tree.children]
  | node kind first rest => simp [child?, childAt?, Tree.children]

/-- A child has a greater number than its parent. -/
theorem index_lt_of_parent? (h : f.parent? = some p) : p.index < f.index := by
  obtain ⟨t, path⟩ := f
  cases path with
  | nil => cases h
  | cons frame path =>
    cases h
    simp only [index, countBefore]
    omega

/-- The outermost node is the one with number zero. -/
theorem parent?_eq_none_iff : f.parent? = none ↔ f.index = 0 := by
  obtain ⟨t, path⟩ := f
  cases path with
  | nil => exact ⟨fun _ => rfl, fun _ => rfl⟩
  | cons frame path => simp [parent?, index, countBefore]

/-- A node is the sibling before another one exactly if that one is the sibling after it. -/
theorem next?_eq_some_iff : f.next? = some g ↔ g.prev? = some f := by
  obtain ⟨t, path⟩ := f
  obtain ⟨u, path'⟩ := g
  unfold next? prev?
  constructor
  · intro h
    split at h
    · rename_i hpath
      simp only at hpath
      cases hpath
      cases h
      rfl
    · cases h
  · intro h
    split at h
    · rename_i hpath
      simp only at hpath
      cases hpath
      cases h
      rfl
    · cases h

/-- The sibling after a node is the child at the next place of its construct. -/
theorem next?_eq_child? (f : Focus) : f.next? = f.parent?.bind (·.child? (f.slot + 1)) := by
  obtain ⟨t, path⟩ := f
  cases path with
  | nil => rfl
  | cons frame path =>
    obtain ⟨kind, before, after⟩ := frame
    cases after with
    | nil =>
      -- The last child: there is no next place.
      have hnone : ¬ (child? ⟨Frame.plug ⟨kind, before, []⟩ t, path⟩
          (before.length + 1)).isSome := by
        rw [isSome_child?, children_plug]
        simp
      exact (Option.not_isSome_iff_eq_none.1 hnone).symm
    | cons u after =>
      have hchild := child?_slot (f := ⟨u, ⟨kind, t :: before, after⟩ :: path⟩) rfl
      rw [Frame.plug_cons] at hchild
      exact hchild.symm

/-- The sibling before a node is the child at the place before it. -/
theorem prev?_eq_child? (f : Focus) :
    f.prev? = if f.slot = 0 then none else f.parent?.bind (·.child? (f.slot - 1)) := by
  obtain ⟨t, path⟩ := f
  cases path with
  | nil => rfl
  | cons frame path =>
    obtain ⟨kind, before, after⟩ := frame
    cases before with
    | nil => rfl
    | cons u before =>
      have hchild := child?_slot (f := ⟨u, ⟨kind, before, t :: after⟩ :: path⟩) rfl
      rw [← Frame.plug_cons] at hchild
      exact hchild.symm

/-! ## Numbers in document order -/

/-- What holds of the numbers below a node: they are consecutive, starting with its own. -/
theorem index_preorderFromAmong (kind : ConstructKind) {ts : List Tree}
    (h : ∀ t ∈ ts, ∀ path,
      (preorderFrom t path).map index = List.range' (countBefore path) t.size)
    (before : List Tree) (path : List Frame) :
    (preorderFromAmong kind before ts path).map index =
      List.range' (1 + Tree.sizeAmong before + countBefore path) (Tree.sizeAmong ts) := by
  induction ts generalizing before with
  | nil => rfl
  | cons t ts ih =>
    have hhere := h t List.mem_cons_self (⟨kind, before, ts⟩ :: path)
    have hlater := ih (fun t' ht' => h t' (List.mem_cons_of_mem t ht')) (t :: before)
    have hstart : 1 + Tree.sizeAmong (t :: before) + countBefore path =
        1 + Tree.sizeAmong before + countBefore path + t.size := by
      rw [Tree.sizeAmong]
      omega
    rw [preorderFromAmong, List.map_append, hhere, hlater, hstart, countBefore,
      List.range'_append_1, Tree.sizeAmong]

/-- The nodes of a tree are numbered from one on to the next. -/
theorem index_preorderFrom (t : Tree) (path : List Frame) :
    (preorderFrom t path).map index = List.range' (countBefore path) t.size := by
  induction t using Tree.children_induction generalizing path with
  | token | empty => rfl
  | node kind first rest hfirst hrest =>
    have hchildren := index_preorderFromAmong kind
      (List.forall_mem_cons.2 ⟨hfirst, hrest⟩) [] path
    rw [preorderFrom_node, List.map_cons, hchildren, Tree.size, Nat.add_comm 1 (_ + _),
      List.range'_succ]
    simp only [index, Tree.sizeAmong, Nat.add_comm 1]

end Focus

/-- The nodes of a tree have the numbers from zero on, in document order. -/
theorem Tree.index_foci (t : Tree) : t.foci.map Focus.index = List.range t.size := by
  rw [List.range_eq_range']
  exact Focus.index_preorderFrom t []

/-- The numbers of the nodes increase in document order. -/
theorem Tree.pairwise_index_foci (t : Tree) : t.foci.Pairwise fun a b => a.index < b.index := by
  have hrange : (t.foci.map Focus.index).Pairwise (· < ·) := by
    rw [index_foci]
    exact List.pairwise_lt_range
  exact List.pairwise_map.1 hrange

/-- The number of a node is the number of the nodes before it. -/
theorem Tree.index_eq_length {t : Tree} {f : Focus} {before after : List Focus}
    (h : t.foci = before ++ f :: after) : f.index = before.length := by
  have hindex : (t.foci.map Focus.index)[before.length]? = some f.index := by
    rw [h, List.map_append, List.map_cons, List.getElem?_append_right (by simp), List.length_map,
      Nat.sub_self, List.getElem?_cons_zero]
  rw [index_foci] at hindex
  obtain ⟨hlt, hget⟩ := List.getElem?_eq_some_iff.1 hindex
  rw [← hget, List.getElem_range]

end TreeLayout
