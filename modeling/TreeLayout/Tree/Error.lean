import TreeLayout.Tree.Basic

/-!
# Faults of tree descriptions

The reasons for which calls to the builder or a serialized tree describe no syntax tree, and their
texts.
-/

namespace TreeLayout

/-- Why a description is not a syntax tree. -/
inductive TreeError where
  /-- A token was looked for in the source and does not stand at the given place. -/
  | tokenNotFound (expected : String) (pos : Position)
  /-- A token lacks its text or its position. -/
  | incompleteToken (kind : TokenKind)
  /-- A construct was given a text. -/
  | textOnConstruct (kind : ConstructKind)
  /-- A node was put on line zero. -/
  | zeroLine (kind : Kind)
  /-- The outermost node is a token. -/
  | tokenRoot (kind : TokenKind)
  /-- A token was given children. -/
  | tokenWithChildren (kind : TokenKind)
  /-- A construct was closed while none was open. -/
  | closeWithoutOpen
  /-- A node was added after the outermost node was complete. -/
  | secondRoot (kind : Kind)
  /-- Constructs were not closed. -/
  | leftOpen (count : Nat)
  /-- No node was added. -/
  | noRoot
  deriving DecidableEq

/-- The text of a fault. -/
def TreeError.message : TreeError → String
  | .tokenNotFound expected pos =>
    "token `" ++ expected ++ "` not found at line " ++ toString pos.line ++ ", column "
      ++ toString pos.column
  | .incompleteToken kind => kind.displayName ++ " is a token and needs text and a position"
  | .textOnConstruct kind => kind.displayName ++ " is a construct and cannot carry text"
  | .zeroLine kind => "line numbers are 1-based, got 0 for " ++ kind.displayName
  | .tokenRoot kind => "root node must be a construct, got " ++ kind.displayName
  | .tokenWithChildren kind => "unbalanced tree: token " ++ kind.displayName ++ " has children"
  | .closeWithoutOpen => "unbalanced tree: close without open"
  | .secondRoot kind =>
    "unbalanced tree: second root " ++ kind.displayName ++ " outside the first"
  | .leftOpen count => "unbalanced tree: " ++ toString count ++ " construct(s) left open"
  | .noRoot => "unbalanced tree: empty tree"

end TreeLayout
