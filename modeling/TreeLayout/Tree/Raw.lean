import TreeLayout.Tree.Error

/-!
# The serialized form of trees

A raw node states a kind and whatever a document gives for it. `RawNode.toTree` accepts it if every
token has a text and a position, no construct has a text, and no line is zero; `Tree.toRaw` gives the
raw form of a tree, in which only tokens carry positions.
-/

namespace TreeLayout

/-- One node of a serialized tree. -/
structure RawNode where
  /-- The kind of the node. -/
  kind : Kind
  /-- The text, which tokens have. -/
  text : Option String
  /-- The line, which tokens have. -/
  line : Option Nat
  /-- The raw column, which tokens have. -/
  column : Option Nat
  /-- The children, which constructs may have. -/
  children : List RawNode

namespace RawNode

/-- A token from its text, position and absence of children. -/
def tokenOf (kind : TokenKind) (raw : RawNode) : Except TreeError Tree :=
  if !raw.children.isEmpty then .error (.tokenWithChildren kind)
  else
    match raw.text, raw.line, raw.column with
    | some text, some line, some column =>
      if line = 0 then .error (.zeroLine kind) else .ok (.token kind text ⟨line, column⟩)
    | _, _, _ => .error (.incompleteToken kind)

/-- The position of a construct if it turns out to have no children. -/
def constructPos (kind : ConstructKind) (text : Option String) (line column : Option Nat) :
    Except TreeError Position :=
  if text.isSome then .error (.textOnConstruct kind)
  else if line = some 0 then .error (.zeroLine kind)
  else .ok ⟨line.getD 1, column.getD 0⟩

mutual
/-- The tree below a raw node, or the fault of the first faulty node in document order. -/
def toNode : RawNode → Except TreeError Tree
  | ⟨.token kind, text, line, column, children⟩ =>
    tokenOf kind ⟨.token kind, text, line, column, children⟩
  | ⟨.construct kind, text, line, column, children⟩ => do
    let pos ← constructPos kind text line column
    let ts ← toNodes children
    return .construct kind pos ts

/-- The trees below several raw nodes. -/
def toNodes : List RawNode → Except TreeError (List Tree)
  | [] => .ok []
  | raw :: raws => do
    let t ← toNode raw
    let ts ← toNodes raws
    return t :: ts
end

/-- The syntax tree that a raw node describes; its outermost node is a construct. -/
def toTree (raw : RawNode) : Except TreeError Tree :=
  match raw.kind with
  | .token kind => .error (.tokenRoot kind)
  | .construct _ => raw.toNode

end RawNode

namespace Tree

mutual
/-- The raw form of a tree. -/
def toRaw : Tree → RawNode
  | .token kind text pos => ⟨kind, some text, some pos.line, some pos.column, []⟩
  | .empty kind _ => ⟨kind, none, none, none, []⟩
  | .node kind first rest => ⟨kind, none, none, none, first.toRaw :: toRawAmong rest⟩

/-- The raw forms of several trees. -/
def toRawAmong : List Tree → List RawNode
  | [] => []
  | t :: ts => t.toRaw :: toRawAmong ts
end

end Tree

end TreeLayout
