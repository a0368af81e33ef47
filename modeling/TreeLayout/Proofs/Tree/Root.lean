import TreeLayout.Verify.Anchor
import Mathlib.Logic.Relation

/-!
# Nodes of one tree

A focus is a node of the tree that is left when all constructs around it are put back, its
`Focus.root`. The ways from a node to its parent and to its siblings stay in that tree, and other
nodes are described by such ways. A leaf is: on the way up from the first leaf below a node no node
has a sibling before it, and from the last leaf none has a sibling after it (`Focus.IsLeafOf`). So is
the indentation parent, which is the node itself, a construct around it, the last leaf of the sibling
before it, or its own first leaf (`isNear_indentationParent`). The nodes that a walk visits are those
of the tree walked over (`root_of_mem_foci`).

`Tree.Within` says at which positions the leaves of a tree stand. All nodes of the tree then start at
such positions, in particular each node that another one is measured from (`Focus.within_of_root`).
-/

namespace TreeLayout

/-- What holds of leaves, and of a node if it does of its children, holds of all trees. -/
@[elab_as_elim]
theorem Tree.children_induction {motive : Tree → Prop} (t : Tree)
    (token : ∀ kind text pos, motive (.token kind text pos))
    (empty : ∀ kind pos, motive (.empty kind pos))
    (node : ∀ kind first rest, motive first → (∀ t ∈ rest, motive t) →
      motive (.node kind first rest)) : motive t :=
  @Tree.rec motive (fun ts => ∀ t ∈ ts, motive t) token empty node
    (by simp) (fun _ _ hhead htail => by simpa using ⟨hhead, htail⟩) t

/-! ## Roots -/

/-- The gap of a construct moved to the child before it. -/
theorem Frame.plug_cons (kind : ConstructKind) (before after : List Tree) (prev t : Tree) :
    Frame.plug ⟨kind, prev :: before, after⟩ t = Frame.plug ⟨kind, before, t :: after⟩ prev := by
  simp only [plug, List.reverse_cons]
  cases before.reverse with
  | nil => rfl
  | cons first rest => simp

namespace Focus

/-- The whole tree around a node at the end of a path. -/
def rootFrom : Tree → List Frame → Tree
  | t, [] => t
  | t, frame :: path => rootFrom (frame.plug t) path

/-- The whole tree that a node is taken from. -/
def root (f : Focus) : Tree := rootFrom f.tree f.path

variable {f g : Focus}

/-- The parent of a node has the same root. -/
theorem root_parent? (h : f.parent? = some g) : g.root = f.root := by
  obtain ⟨t, path⟩ := f
  cases path with
  | nil => cases h
  | cons frame path =>
    cases h
    rfl

/-- The node before another one has the same root. -/
theorem root_prev? (h : f.prev? = some g) : g.root = f.root := by
  obtain ⟨t, path⟩ := f
  cases path with
  | nil => cases h
  | cons frame path =>
    obtain ⟨kind, before, after⟩ := frame
    cases before with
    | nil => cases h
    | cons prev before =>
      cases h
      simp only [root, rootFrom, Frame.plug_cons]

/-- A way up stays in the tree. -/
theorem root_of_way_up
    (h : Relation.ReflTransGen (fun g parent => g.parent? = some parent) f g) :
    g.root = f.root := by
  induction h with
  | refl => rfl
  | tail _ hparent ih => exact (root_parent? hparent).trans ih

/-! ## Leaves -/

variable {leaf : Focus} {beside? : Focus → Option Focus}

/-- A node is the leaf at one side of another one: it has no children, and on the way up from it to
that node none has a sibling on that side. -/
structure IsLeafOf (beside? : Focus → Option Focus) (leaf f : Focus) : Prop where
  /-- The leaf has no children. -/
  childless : leaf.tree.children = []
  /-- The way up from the leaf, along the side. -/
  edge : Relation.ReflTransGen (fun g parent => g.parent? = some parent ∧ beside? g = none) leaf f

/-- A leaf of the child at a side is one of its parent. -/
theorem IsLeafOf.parent (h : IsLeafOf beside? leaf g) (hparent : g.parent? = some f)
    (hside : beside? g = none) : IsLeafOf beside? leaf f :=
  ⟨h.childless, h.edge.tail ⟨hparent, hside⟩⟩

/-- A leaf of a node is in the same tree. -/
theorem IsLeafOf.root_eq (h : IsLeafOf beside? leaf f) : leaf.root = f.root := by
  have hway := Relation.ReflTransGen.mono (fun _ _ hstep => hstep.1) _ _ h.edge
  exact (root_of_way_up hway).symm

/-- The first leaf below a node has nothing before it on its way up to the node. -/
theorem isLeafOf_leftmostFrom (t : Tree) (path : List Frame) :
    IsLeafOf prev? (leftmostFrom t path) ⟨t, path⟩ := by
  induction t using Tree.children_induction generalizing path with
  | token | empty => exact ⟨rfl, .refl⟩
  | node kind first rest ih _ => exact (ih _).parent rfl rfl

/-- The last leaf below the last of several children has nothing after it on its way up to the
construct. -/
theorem isLeafOf_rightmostFromAmong {kind : ConstructKind} {t : Tree} {ts : List Tree}
    (h : ∀ t' ∈ t :: ts, ∀ path, IsLeafOf next? (rightmostFrom t' path) ⟨t', path⟩)
    (before : List Tree) (path : List Frame) :
    ∃ leaf, rightmostFromAmong kind before (t :: ts) path = some leaf ∧
      IsLeafOf next? leaf ⟨Frame.plug ⟨kind, before, ts⟩ t, path⟩ := by
  induction ts generalizing t before with
  | nil =>
    have hlast := h t List.mem_cons_self (⟨kind, before, []⟩ :: path)
    exact ⟨_, rfl, hlast.parent rfl rfl⟩
  | cons next ts ih =>
    have hlater := fun t' ht' => h t' (List.mem_cons_of_mem t ht')
    obtain ⟨leaf, hleaf, hedge⟩ := ih hlater (t :: before)
    refine ⟨leaf, by rw [rightmostFromAmong, hleaf], ?_⟩
    rwa [← Frame.plug_cons]

/-- The last leaf below a node has nothing after it on its way up to the node. -/
theorem isLeafOf_rightmostFrom (t : Tree) (path : List Frame) :
    IsLeafOf next? (rightmostFrom t path) ⟨t, path⟩ := by
  induction t using Tree.children_induction generalizing path with
  | token | empty => exact ⟨rfl, .refl⟩
  | node kind first rest hfirst hrest =>
    rw [rightmostFrom]
    cases rest with
    | nil => exact (hfirst _).parent rfl rfl
    | cons next rest =>
      obtain ⟨leaf, hleaf, hedge⟩ := isLeafOf_rightmostFromAmong hrest [first] path
      rw [hleaf]
      exact hedge

/-- The first leaf below a node has the same root. -/
theorem root_leftmostFrom (t : Tree) (path : List Frame) :
    (leftmostFrom t path).root = rootFrom t path :=
  (isLeafOf_leftmostFrom t path).root_eq

/-- The last leaf below a node has the same root. -/
theorem root_rightmostFrom (t : Tree) (path : List Frame) :
    (rightmostFrom t path).root = rootFrom t path :=
  (isLeafOf_rightmostFrom t path).root_eq

/-! ## Indentation parents -/

/-- A construct is an ancestor of a node: its parent, the parent of that, and so on. -/
def IsAncestorOf (a f : Focus) : Prop :=
  Relation.TransGen (fun g parent => g.parent? = some parent) f a

/-- The first `if` of a chain of arms is the node itself or a construct around it. -/
theorem exists_way_to_ifChainRoot (f : Focus) :
    Relation.ReflTransGen (fun g parent => g.parent? = some parent) f
      (ifChainRoot f.tree f.path) := by
  obtain ⟨t, path⟩ := f
  induction path generalizing t with
  | nil => exact .refl
  | cons frame path ih =>
    rw [ifChainRoot]
    split
    · exact (ih (frame.plug t)).head rfl
    · exact .refl

/-- The construct that owns a body is the one around it, or a construct around that. -/
theorem exists_way_to_bodyOwner {owner f : Focus} (h : bodyOwner? owner = some f) :
    Relation.ReflTransGen (fun g parent => g.parent? = some parent) owner f := by
  unfold bodyOwner? at h
  split at h
  · split at h
    · exact .single h
    · exact .single h
    · cases h
      exact exists_way_to_ifChainRoot owner
    all_goals cases h
    all_goals exact .refl
  · cases h

/-- The nodes near a node that its children may be measured from. -/
inductive IsNear (f : Focus) : Focus → Prop
  /-- The node itself. -/
  | self : IsNear f f
  /-- A construct around it. -/
  | ancestor {a : Focus} (h : a.IsAncestorOf f) : IsNear f a
  /-- The last leaf of the sibling before it. -/
  | name {prev leaf : Focus} (hprev : f.prev? = some prev) (h : IsLeafOf next? leaf prev) :
    IsNear f leaf
  /-- Its own first leaf. -/
  | leaf {leaf : Focus} (h : IsLeafOf prev? leaf f) : IsNear f leaf

/-- The nodes near a node are in the same tree. -/
theorem IsNear.root_eq (h : f.IsNear g) : g.root = f.root := by
  cases h with
  | self => rfl
  | ancestor h => exact root_of_way_up h.to_reflTransGen
  | name hprev h => exact h.root_eq.trans (root_prev? hprev)
  | leaf h => exact h.root_eq

/-- The indentation parent of a node is the node itself, one of its ancestors, the last leaf of the
sibling before it, or its own first leaf. -/
theorem isNear_indentationParent (f : Focus) : f.IsNear (indentationParent f) := by
  -- The name before a list, or else the construct around it.
  have hname : ∀ name, f.prev? = some name → f.IsNear name.rightmost := fun name hprev =>
    .name hprev (isLeafOf_rightmostFrom name.tree name.path)
  have haround : f.IsNear (f.parent?.getD f) := by
    cases hparent : f.parent? with
    | some parent => exact .ancestor (.single hparent)
    | none => exact .self
  -- The construct that owns a body, or else the body itself.
  have hbody : f.IsNear ((f.parent?.bind bodyOwner?).getD f) := by
    cases howner : f.parent?.bind bodyOwner? with
    | none => exact .self
    | some owner =>
      obtain ⟨parent, hparent, howner⟩ := Option.bind_eq_some_iff.1 howner
      exact .ancestor (.head' hparent (exists_way_to_bodyOwner howner))
  unfold indentationParent
  split
  · split
    · split
      · exact hname _ (by assumption)
      · exact haround
    · split
      · exact hname _ (by assumption)
      · exact haround
    · exact .leaf (isLeafOf_leftmostFrom f.tree f.path)
    · exact hbody
    · exact hbody
    · exact .self
  · exact .self

end Focus

/-- The indentation parent of a node is a node of the same tree. -/
theorem root_indentationParent (f : Focus) : (indentationParent f).root = f.root :=
  (Focus.isNear_indentationParent f).root_eq

namespace Focus

/-- The nodes below several children are nodes of the tree that the children belong to. -/
theorem root_of_mem_preorderFromAmong {kind : ConstructKind} {t : Tree} {ts : List Tree}
    (h : ∀ t' ∈ t :: ts, ∀ path, ∀ f ∈ preorderFrom t' path, f.root = rootFrom t' path)
    (before : List Tree) (path : List Frame) :
    ∀ f ∈ preorderFromAmong kind before (t :: ts) path,
      f.root = rootFrom (Frame.plug ⟨kind, before, ts⟩ t) path := by
  intro f hf
  rw [preorderFromAmong, List.mem_append] at hf
  obtain hf | hf := hf
  · exact h t List.mem_cons_self _ f hf
  · induction ts generalizing t before with
    | nil => cases hf
    | cons next ts ih =>
      have hlater := fun t' ht' => h t' (List.mem_cons_of_mem t ht')
      rw [preorderFromAmong, List.mem_append] at hf
      rw [← Frame.plug_cons]
      obtain hf | hf := hf
      · exact hlater next List.mem_cons_self _ f hf
      · exact ih hlater (t :: before) hf

/-- All nodes below a node have the same root. -/
theorem root_of_mem_preorderFrom (t : Tree) (path : List Frame) :
    ∀ f ∈ preorderFrom t path, f.root = rootFrom t path := by
  induction t using Tree.children_induction generalizing path with
  | token | empty => simp [preorderFrom, root]
  | node kind first rest hfirst hrest =>
    intro f hf
    rw [preorderFrom, List.mem_cons, List.mem_append] at hf
    obtain rfl | hf | hf := hf
    · rfl
    · exact hfirst _ f hf
    · cases rest with
      | nil => cases hf
      | cons next rest => exact root_of_mem_preorderFromAmong hrest [first] path f hf

end Focus

/-- The nodes that a walk visits are nodes of the tree. -/
theorem Tree.root_of_mem_foci {t : Tree} {f : Focus} (h : f ∈ t.foci) : f.root = t :=
  Focus.root_of_mem_preorderFrom t [] f h

/-! ## Positions -/

namespace Tree

variable {S : Position → Prop} {t : Tree}

mutual
/-- All leaves of a tree stand at positions with a property. -/
def Within (S : Position → Prop) : Tree → Prop
  | .token _ _ pos => S pos
  | .empty _ pos => S pos
  | .node _ first rest => first.Within S ∧ WithinAmong S rest

/-- All leaves of several trees stand at positions with a property. -/
def WithinAmong (S : Position → Prop) : List Tree → Prop
  | [] => True
  | t :: ts => t.Within S ∧ WithinAmong S ts
end

/-- Several trees lie within some places if each of them does. -/
theorem withinAmong_iff {ts : List Tree} : WithinAmong S ts ↔ ∀ t ∈ ts, t.Within S := by
  induction ts with
  | nil => simp [WithinAmong]
  | cons t ts ih => simp [WithinAmong, ih]

/-- A construct with children lies within some places if its children do. -/
@[simp] theorem within_node {kind : ConstructKind} {first : Tree} {rest : List Tree} :
    (node kind first rest).Within S ↔ first.Within S ∧ ∀ t ∈ rest, t.Within S := by
  rw [Within, withinAmong_iff]

/-- A tree starts where its first leaf stands. -/
theorem Within.pos (h : t.Within S) : S t.pos := by
  induction t using children_induction with
  | token | empty => simpa [Within, Tree.pos] using h
  | node kind first rest ih _ => exact ih (within_node.1 h).1

/-- The children of a node lie within the same places. -/
theorem Within.children (h : t.Within S) : ∀ c ∈ t.children, c.Within S := by
  cases t with
  | token | empty => simp [Tree.children]
  | node kind first rest => simpa [Tree.children] using h

/-- The last leaf below the last of several trees. -/
theorem within_of_rightmostAmong {ts : List Tree} {leaf : Tree}
    (h : ∀ t ∈ ts, t.rightmost.Within S) (hleaf : rightmostAmong ts = some leaf) :
    leaf.Within S := by
  induction ts with
  | nil => cases hleaf
  | cons t ts ih =>
    rw [List.forall_mem_cons] at h
    rw [rightmostAmong] at hleaf
    cases hlater : rightmostAmong ts with
    | some leaf' =>
      rw [hlater, Option.some.injEq] at hleaf
      exact ih h.2 (hleaf ▸ hlater)
    | none =>
      rw [hlater, Option.some.injEq] at hleaf
      exact hleaf ▸ h.1

/-- The last leaf of a tree stands where its leaves do. -/
theorem Within.rightmost (h : t.Within S) : t.rightmost.Within S := by
  induction t using children_induction with
  | token | empty => exact h
  | node kind first rest hfirst hrest =>
    obtain ⟨hleft, hright⟩ := within_node.1 h
    rw [Tree.rightmost]
    cases hleaf : rightmostAmong rest with
    | some leaf => exact within_of_rightmostAmong (fun t ht => hrest t ht (hright t ht)) hleaf
    | none => exact hfirst hleft

/-- The child in the gap of a construct. -/
theorem Within.of_plug {frame : Frame} (h : (frame.plug t).Within S) : t.Within S := by
  unfold Frame.plug at h
  split at h
  · exact (within_node.1 h).1
  · exact (within_node.1 h).2 t (by simp)

end Tree

namespace Focus

variable {S : Position → Prop}

/-- A node lies within the places of its root. -/
theorem within_of_rootFrom {t : Tree} {path : List Frame} (h : (rootFrom t path).Within S) :
    t.Within S := by
  induction path generalizing t with
  | nil => exact h
  | cons frame path ih => exact (ih h).of_plug

/-- The leaves below a node stand where those of its tree do. -/
theorem within_of_root {f : Focus} (h : f.root.Within S) : f.tree.Within S := within_of_rootFrom h

/-- Trees all nodes of which start at positions with a property. -/
theorem within_of_preorderFrom {t : Tree} {path : List Frame}
    (h : ∀ f ∈ preorderFrom t path, S f.tree.pos) : t.Within S := by
  induction t using Tree.children_induction generalizing path with
  | token | empty => simpa [preorderFrom, Tree.Within, Tree.pos] using h
  | node kind first rest hfirst hrest =>
    rw [preorderFrom, List.forall_mem_cons, List.forall_mem_append] at h
    obtain ⟨-, hleft, hright⟩ := h
    refine Tree.within_node.2 ⟨hfirst hleft, fun t ht => ?_⟩
    -- The nodes below a later child are among those of the later children.
    have hamong : ∀ (ts before : List Tree), t ∈ ts → (∀ f ∈ preorderFromAmong kind before ts path,
        S f.tree.pos) → ∃ path', ∀ f ∈ preorderFrom t path', S f.tree.pos := by
      intro ts
      induction ts with
      | nil => simp
      | cons t' ts ih =>
        intro before hmem hpos
        rw [preorderFromAmong, List.forall_mem_append] at hpos
        obtain rfl | hmem := List.mem_cons.1 hmem
        · exact ⟨_, hpos.1⟩
        · exact ih _ hmem hpos.2
    obtain ⟨path', hpath'⟩ := hamong rest [first] ht hright
    exact hrest t ht hpath'

end Focus

/-- The leaves of a tree stand where its nodes start. -/
theorem Tree.within_of_foci {S : Position → Prop} {t : Tree} (h : ∀ f ∈ t.foci, S f.tree.pos) :
    t.Within S := by
  unfold foci Focus.preorder at h
  exact Focus.within_of_preorderFrom h

end TreeLayout
