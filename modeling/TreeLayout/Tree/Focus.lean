import TreeLayout.Tree.Basic

/-!
# Nodes in their surroundings

A focus is a node of a tree together with the way back to the root. It knows its parent, its siblings
and its number in document order.
-/

namespace TreeLayout

/-- A construct with one child taken out. -/
structure Frame where
  /-- The kind of the construct. -/
  kind : ConstructKind
  /-- The children before the gap, nearest first. -/
  before : List Tree
  /-- The children after the gap. -/
  after : List Tree

/-- The construct with a child put into its gap. -/
def Frame.plug (f : Frame) (t : Tree) : Tree :=
  match f.before.reverse with
  | [] => .node f.kind t f.after
  | first :: rest => .node f.kind first (rest ++ t :: f.after)

/-- A node and the way from it to the root. -/
structure Focus where
  /-- The node with everything below it. -/
  tree : Tree
  /-- The constructs around it, innermost first, each without the part that contains it. -/
  path : List Frame

namespace Focus

/-- The outermost node. -/
def ofRoot (root : Tree) : Focus := ⟨root, []⟩

/-- The construct that has the node as a child. -/
def parent? (f : Focus) : Option Focus :=
  match f.path with
  | [] => none
  | frame :: path => some ⟨frame.plug f.tree, path⟩

/-- The sibling before the node. -/
def prev? (f : Focus) : Option Focus :=
  match f.path with
  | ⟨kind, t :: before, after⟩ :: path => some ⟨t, ⟨kind, before, f.tree :: after⟩ :: path⟩
  | _ => none

/-- The sibling after the node. -/
def next? (f : Focus) : Option Focus :=
  match f.path with
  | ⟨kind, before, t :: after⟩ :: path => some ⟨t, ⟨kind, f.tree :: before, after⟩ :: path⟩
  | _ => none

/-- The first child. -/
def first? (f : Focus) : Option Focus :=
  match f.tree with
  | .node kind first rest => some ⟨first, ⟨kind, [], rest⟩ :: f.path⟩
  | _ => none

/-- The last child. -/
def last? (f : Focus) : Option Focus :=
  match f.tree with
  | .node kind first rest =>
    match rest.reverse with
    | [] => some ⟨first, ⟨kind, [], []⟩ :: f.path⟩
    | t :: before => some ⟨t, ⟨kind, before ++ [first], []⟩ :: f.path⟩
  | _ => none

/-- The first leaf below a node at the end of a path. -/
def leftmostFrom : Tree → List Frame → Focus
  | .token k text pos, path => ⟨.token k text pos, path⟩
  | .empty k pos, path => ⟨.empty k pos, path⟩
  | .node kind first rest, path => leftmostFrom first (⟨kind, [], rest⟩ :: path)

/-- The first leaf below the node, which is the node itself for a leaf. -/
def leftmost (f : Focus) : Focus := leftmostFrom f.tree f.path

mutual
/-- The last leaf below a node at the end of a path. -/
def rightmostFrom : Tree → List Frame → Focus
  | .token k text pos, path => ⟨.token k text pos, path⟩
  | .empty k pos, path => ⟨.empty k pos, path⟩
  | .node kind first rest, path =>
    match rightmostFromAmong kind [first] rest path with
    | some leaf => leaf
    | none => rightmostFrom first (⟨kind, [], []⟩ :: path)

/-- The last leaf below the last of the children after `before`. -/
def rightmostFromAmong (kind : ConstructKind) (before : List Tree) :
    List Tree → List Frame → Option Focus
  | [], _ => none
  | t :: ts, path =>
    match rightmostFromAmong kind (t :: before) ts path with
    | some leaf => some leaf
    | none => some (rightmostFrom t (⟨kind, before, []⟩ :: path))
end

/-- The last leaf below the node, which is the node itself for a leaf. -/
def rightmost (f : Focus) : Focus := rightmostFrom f.tree f.path

mutual
/-- A node at the end of a path and all nodes below it, in document order. -/
def preorderFrom : Tree → List Frame → List Focus
  | .token k text pos, path => [⟨.token k text pos, path⟩]
  | .empty k pos, path => [⟨.empty k pos, path⟩]
  | .node kind first rest, path =>
    ⟨.node kind first rest, path⟩
      :: (preorderFrom first (⟨kind, [], rest⟩ :: path)
        ++ preorderFromAmong kind [first] rest path)

/-- The children after `before` and all nodes below them, in document order. -/
def preorderFromAmong (kind : ConstructKind) (before : List Tree) :
    List Tree → List Frame → List Focus
  | [], _ => []
  | t :: ts, path =>
    preorderFrom t (⟨kind, before, ts⟩ :: path) ++ preorderFromAmong kind (t :: before) ts path
end

/-- The node and all nodes below it, in document order, parents before children. -/
def preorder (f : Focus) : List Focus := preorderFrom f.tree f.path

/-- The number of nodes that a path has before its end in document order. -/
def countBefore : List Frame → Nat
  | [] => 0
  | frame :: path => 1 + Tree.sizeAmong frame.before + countBefore path

/-- The number of the node in document order; the root has number zero. -/
def index (f : Focus) : Nat := countBefore f.path

end Focus

/-- All nodes of a tree in document order, parents before children. -/
def Tree.foci (root : Tree) : List Focus := (Focus.ofRoot root).preorder

end TreeLayout
