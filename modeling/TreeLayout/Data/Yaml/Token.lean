/-!
# YAML tokens

The pieces of a document. The starts and ends of block collections, which indentation says, are tokens
like the brackets of flow collections. A tag is a sequence of bytes, since the escapes in it need not
write a text.
-/

namespace TreeLayout.Yaml

/-- How a scalar is written, as far as it matters for its meaning. -/
inductive ScalarStyle where
  /-- Without marks. -/
  | plain
  /-- As lines after a bar. -/
  | literal
  /-- Between quotes, or as folded lines. -/
  | other
  deriving DecidableEq

/-- A token of a document. -/
inductive Token where
  /-- The version that the document states. -/
  | version (major minor : Nat)
  /-- A handle of tags and what it stands for. -/
  | tagHandle (handle : String) (start : List UInt8)
  /-- Three dashes. -/
  | documentStart
  /-- Three dots. -/
  | documentEnd
  /-- A block sequence starts. -/
  | blockSequence
  /-- A block mapping starts. -/
  | blockMapping
  /-- A block collection ends. -/
  | blockEnd
  /-- An opening bracket. -/
  | openSequence
  /-- A closing bracket. -/
  | closeSequence
  /-- An opening brace. -/
  | openMapping
  /-- A closing brace. -/
  | closeMapping
  /-- A dash before an item. -/
  | item
  /-- A comma. -/
  | comma
  /-- A key follows. -/
  | key
  /-- The value of a key follows. -/
  | value
  /-- A reference to an anchored node. -/
  | alias (name : String)
  /-- The name of the node that follows. -/
  | anchor (name : String)
  /-- The tag of the node that follows. -/
  | tag (handle : String) (rest : List UInt8)
  /-- A scalar. -/
  | scalar (text : String) (style : ScalarStyle)
  deriving DecidableEq

end TreeLayout.Yaml
