import TreeLayout.Kind

/-!
# Syntax trees

A tree is a token, a construct without children, or a construct with at least one. A construct with
children stands where its first child stands, so only leaves carry a position.
-/

namespace TreeLayout

/-- A place in a source text: a line counted from one and a raw column counted from zero. -/
structure Position where
  /-- The line, counted from one. -/
  line : Nat
  /-- The raw column, counted in characters from zero. -/
  column : Nat
  deriving DecidableEq

/-- A syntax tree. -/
inductive Tree where
  /-- A token with its text and position. -/
  | token (kind : TokenKind) (text : String) (pos : Position)
  /-- A construct without children, at a position of its own. -/
  | empty (kind : ConstructKind) (pos : Position)
  /-- A construct with a first child and further ones. -/
  | node (kind : ConstructKind) (first : Tree) (rest : List Tree)

namespace Tree

/-- A construct with a list of children, which stands at `pos` if the list is empty. -/
def construct (kind : ConstructKind) (pos : Position) : List Tree → Tree
  | [] => .empty kind pos
  | first :: rest => .node kind first rest

/-- The kind of a node. -/
def kind : Tree → Kind
  | .token k _ _ => k
  | .empty k _ => k
  | .node k _ _ => k

/-- The text of a token; constructs have none. -/
def text : Tree → String
  | .token _ text _ => text
  | .empty _ _ | .node _ _ _ => ""

/-- The children of a node in source order. -/
def children : Tree → List Tree
  | .token _ _ _ | .empty _ _ => []
  | .node _ first rest => first :: rest

/-- The children of a construct are those that it is made of. -/
@[simp] theorem children_construct (kind : ConstructKind) (pos : Position) (ts : List Tree) :
    (construct kind pos ts).children = ts := by
  cases ts <;> rfl

/-- The kind of a construct is the one that it is made with. -/
@[simp] theorem kind_construct (kind : ConstructKind) (pos : Position) (ts : List Tree) :
    (construct kind pos ts).kind = kind := by
  cases ts <;> rfl

/-- Whether a node is a construct with children. -/
def hasChildren : Tree → Bool
  | .token _ _ _ | .empty _ _ => false
  | .node _ _ _ => true

/-- Whether a node is a token. -/
def isToken : Tree → Bool
  | .token _ _ _ => true
  | .empty _ _ | .node _ _ _ => false

/-- The first leaf below a node, which is the node itself for a leaf. -/
def leftmost : Tree → Tree
  | .token k text pos => .token k text pos
  | .empty k pos => .empty k pos
  | .node _ first _ => first.leftmost

/-- The position of a node, that of its first leaf. -/
def pos : Tree → Position
  | .token _ _ pos => pos
  | .empty _ pos => pos
  | .node _ first _ => first.pos

/-- A node stands where its first leaf stands. -/
theorem pos_leftmost (t : Tree) : t.leftmost.pos = t.pos :=
  match t with
  | .token _ _ _ => rfl
  | .empty _ _ => rfl
  | .node _ first _ => pos_leftmost first

/-- The line of a node. -/
def line (t : Tree) : Nat := t.pos.line

/-- The raw column of a node. -/
def rawColumn (t : Tree) : Nat := t.pos.column

mutual
/-- The last leaf below a node, which is the node itself for a leaf. -/
def rightmost : Tree → Tree
  | .token k text pos => .token k text pos
  | .empty k pos => .empty k pos
  | .node _ first rest =>
    match rightmostAmong rest with
    | some leaf => leaf
    | none => first.rightmost

/-- The last leaf below the last of several nodes. -/
def rightmostAmong : List Tree → Option Tree
  | [] => none
  | t :: ts =>
    match rightmostAmong ts with
    | some leaf => some leaf
    | none => some t.rightmost
end

mutual
/-- The number of nodes of a tree. -/
def size : Tree → Nat
  | .token _ _ _ => 1
  | .empty _ _ => 1
  | .node _ first rest => 1 + (first.size + sizeAmong rest)

/-- The number of nodes of several trees. -/
def sizeAmong : List Tree → Nat
  | [] => 0
  | t :: ts => t.size + sizeAmong ts
end

/-- How messages name a node: by the text of its first token, or by its kind if it starts with none. -/
def describe (t : Tree) : String :=
  match t.leftmost with
  | .token _ text _ => if text.isEmpty then t.kind.displayName else text
  | _ => t.kind.displayName

/-- How messages name the end of a node: by the text of its last token if it ends with one. -/
def describeLast (t : Tree) : String :=
  match t.rightmost with
  | .token _ text _ => text
  | _ => t.describe

end Tree

end TreeLayout
