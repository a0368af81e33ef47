import TreeLayout.Tree.Raw

/-!
# Arenas

A syntax tree is kept in an arena, a table with one row for each node. Nodes are the numbers of their
rows, counted from zero, and a row names by number its parent and its children, and says at which place
among the children of its parent it stands. A row is added at the end of the table, after that of its
parent, which gains it as its last child (`Arena.push`). When all rows are there, each construct with
children is put where its first child stands (`Arena.settle`), the last rows first.

Loops that follow the links take as many steps as there are rows at most.
-/

namespace TreeLayout

/-- What an arena keeps of a node. -/
structure Row where
  /-- The kind of the node. -/
  kind : Kind
  /-- The text, which tokens have. -/
  text : Option String
  /-- The position. -/
  pos : Position
  /-- The construct that has the node as a child. -/
  parent : Option Nat
  /-- The children in source order. -/
  children : List Nat
  /-- The place among the children of the parent, counted from zero. -/
  slot : Nat
  deriving DecidableEq

/-- A table of nodes; the first row is that of the root. -/
structure Arena where
  /-- The rows in the order in which they were added. -/
  rows : List Row
  deriving DecidableEq

/-- Puts items on a stack, one after the other. -/
def pushAll {α : Type} (stack items : List α) : List α :=
  items.foldl (fun stack item => item :: stack) stack

namespace Arena

/-- No rows. -/
def empty : Arena := ⟨[]⟩

/-- The number of nodes. -/
def size (a : Arena) : Nat := a.rows.length

/-! ## Adding rows -/

/-- The children of a node. -/
def children (a : Arena) (id : Nat) : List Nat := ((a.rows[id]?).map Row.children).getD []

/-- Adds a node as the last child of its parent; its number is that of the rows before it. -/
def push (a : Arena) (kind : Kind) (text : Option String) (pos : Position) (parent : Option Nat) :
    Arena :=
  match parent with
  | none => ⟨a.rows ++ [⟨kind, text, pos, none, [], 0⟩]⟩
  | some p =>
    let linked := a.rows.modify p fun row => { row with children := row.children ++ [a.size] }
    ⟨linked ++ [⟨kind, text, pos, some p, [], (a.children p).length⟩]⟩

/-- Puts a node where its first child stands, if it has one. -/
def settleNode (a : Arena) (id : Nat) : Arena :=
  match (a.children id).head?.bind fun first => a.rows[first]? with
  | none => a
  | some first => ⟨a.rows.modify id fun row => { row with pos := first.pos }⟩

/-- Puts each node where its first child stands, from the last node to the first. -/
def settle (a : Arena) : Arena := (List.range a.size).reverse.foldl settleNode a

/-! ## Ways through an arena -/

/-- The child of a node at a place. -/
def child? (a : Arena) (id i : Nat) : Option Nat := (a.children id)[i]?

/-- The first child of a node. -/
def first? (a : Arena) (id : Nat) : Option Nat := a.child? id 0

/-- The last child of a node. -/
def last? (a : Arena) (id : Nat) : Option Nat := (a.children id).getLast?

/-- The construct that has a node as a child. -/
def parent? (a : Arena) (id : Nat) : Option Nat := (a.rows[id]?).bind Row.parent

/-- The place of a node among the children of its parent. -/
def slot (a : Arena) (id : Nat) : Nat := ((a.rows[id]?).map Row.slot).getD 0

/-- The sibling after a node. -/
def next? (a : Arena) (id : Nat) : Option Nat :=
  (a.parent? id).bind fun p => a.child? p (a.slot id + 1)

/-- The sibling before a node. -/
def prev? (a : Arena) (id : Nat) : Option Nat :=
  if a.slot id = 0 then none else (a.parent? id).bind fun p => a.child? p (a.slot id - 1)

/-- The node at the end of a way of so many steps at most. -/
def followed (step? : Nat → Option Nat) : Nat → Nat → Nat
  | 0, id => id
  | steps + 1, id =>
    match step? id with
    | none => id
    | some next => followed step? steps next

/-- The first leaf below a node, which is the node itself for a leaf. -/
def leftmost (a : Arena) (id : Nat) : Nat := followed a.first? a.size id

/-- The last leaf below a node, which is the node itself for a leaf. -/
def rightmost (a : Arena) (id : Nat) : Nat := followed a.last? a.size id

/-- The kind of a node. -/
def kind? (a : Arena) (id : Nat) : Option Kind := (a.rows[id]?).map Row.kind

/-- The text of a token; constructs have none. -/
def text (a : Arena) (id : Nat) : String := ((a.rows[id]?).bind Row.text).getD ""

/-- The position of a node. -/
def pos? (a : Arena) (id : Nat) : Option Position := (a.rows[id]?).map Row.pos

/-- How messages name a node: by the text of its first token, or by its kind if it starts with none. -/
def describe (a : Arena) (id : Nat) : String :=
  let name := ((a.kind? id).map Kind.displayName).getD ""
  match a.kind? (a.leftmost id) with
  | some (.token _) => if (a.text (a.leftmost id)).isEmpty then name else a.text (a.leftmost id)
  | _ => name

/-! ## Visiting all nodes -/

/-- The next node of a visit and the nodes that are still to be visited, topmost first: those that
were, and above them the children of the node, which are put there from the last to the first. -/
def visit? (a : Arena) : List Nat → Option (Nat × List Nat)
  | [] => none
  | id :: stack => some (id, pushAll stack (a.children id).reverse)

/-- The next nodes of a visit, so many at most, and the nodes that are still to be visited. -/
def visits (a : Arena) : Nat → List Nat → List Nat × List Nat
  | 0, stack => ([], stack)
  | count + 1, stack =>
    match a.visit? stack with
    | none => ([], stack)
    | some (id, stack) =>
      let (ids, left) := a.visits count stack
      (id :: ids, left)

/-- A visit that has just started. -/
def start : List Nat := [0]

/-- All nodes in document order, parents before children. -/
def preorder (a : Arena) : List Nat := (a.visits a.size start).1

/-! ## The raw form -/

/-- The raw form of a node, if there are no more than so many nodes on each way down from it. -/
def rawFrom (a : Arena) : Nat → Nat → Option RawNode
  | 0, _ => none
  | depth + 1, id => do
    let row ← a.rows[id]?
    match row.kind with
    | .token kind => some ⟨kind, some (a.text id), some row.pos.line, some row.pos.column, []⟩
    | .construct kind =>
      let children ← row.children.mapM (a.rawFrom depth)
      some ⟨kind, none, none, none, children⟩

/-- The raw form of the tree in an arena. -/
def toRaw? (a : Arena) : Option RawNode := a.rawFrom a.size 0

end Arena

end TreeLayout
