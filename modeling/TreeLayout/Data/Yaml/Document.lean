import TreeLayout.Data.Yaml.Node
import TreeLayout.Data.Yaml.Token.Lexer

/-!
# YAML documents

A document is a node together with the nodes that aliases refer to. Anchors are numbered in the order in
which they stand in the document, by the count of the names in use before them, and an alias refers to
the number that its name has at its place.
-/

namespace TreeLayout.Yaml

/-- A node whose aliases are numbers. -/
abbrev NumberedNode := Node Nat

/-- The numbers of names so far. -/
abbrev AnchorNumbers := List (String × Nat)

/-- A node with numbers for aliases, the nodes that got numbers, in order, and the numbers of names after
it. -/
structure Numbered (α : Type) where
  /-- The result. -/
  result : α
  /-- The nodes that got numbers, in order. -/
  anchored : List (Nat × NumberedNode)
  /-- The numbers of names after the node. -/
  names : AnchorNumbers

/-- A name with a new number: the count of the names in use, to which a name that is used again does not
add. -/
def nameNumber (names : AnchorNumbers) (name : String) : Nat × AnchorNumbers :=
  (names.length, (name, names.length) :: names.filter (·.1 != name))

/-- The number of a node with properties, and the names after it. -/
def propertyNumber (names : AnchorNumbers) (props : Properties) : Option Nat × AnchorNumbers :=
  match props.anchor with
  | some name => ((nameNumber names name).map some id)
  | none => (none, names)

mutual
/-- Aliases become numbers; a name that is not in use has none. -/
def number? (names : AnchorNumbers) : Node String → Option (Numbered NumberedNode)
  | .alias name => (names.lookup name).map fun n => ⟨.alias n, [], names⟩
  | .scalar props text style =>
    let (own, names) := propertyNumber names props
    let result : NumberedNode := .scalar props text style
    some ⟨result, (own.map fun n => (n, result)).toList, names⟩
  | .seq props items =>
    let (own, names) := propertyNumber names props
    (numberItems? names items).map fun inner =>
      let result : NumberedNode := .seq props inner.result
      ⟨result, (own.map fun n => (n, result)).toList ++ inner.anchored, inner.names⟩
  | .map props entries =>
    let (own, names) := propertyNumber names props
    (numberEntries? names entries).map fun inner =>
      let result : NumberedNode := .map props inner.result
      ⟨result, (own.map fun n => (n, result)).toList ++ inner.anchored, inner.names⟩

/-- `number?` on the items of a sequence. -/
def numberItems? (names : AnchorNumbers) :
    List (Node String) → Option (Numbered (List NumberedNode))
  | [] => some ⟨[], [], names⟩
  | n :: ns => do
    let first ← number? names n
    let rest ← numberItems? first.names ns
    return ⟨first.result :: rest.result, first.anchored ++ rest.anchored, rest.names⟩

/-- `number?` on the entries of a mapping. -/
def numberEntries? (names : AnchorNumbers) :
    List (Node String × Node String) → Option (Numbered (List (NumberedNode × NumberedNode)))
  | [] => some ⟨[], [], names⟩
  | (k, v) :: ns => do
    let key ← number? names k
    let value ← number? key.names v
    let rest ← numberEntries? value.names ns
    return ⟨(key.result, value.result) :: rest.result,
      key.anchored ++ value.anchored ++ rest.anchored, rest.names⟩
end

/-- A document. -/
structure Document where
  /-- Its node. -/
  root : NumberedNode
  /-- The nodes by number; of two with one number the first counts. -/
  anchored : List (Nat × NumberedNode)

namespace Document

/-- The document of a text, if the text has one and not only comments. The last node that got a number
is the one that aliases of it mean. -/
def parse? (text : String) : Option (Option Document) := do
  match ← root? (← tokens? text) with
  | none => return none
  | some n =>
    let numbered ← number? [] n
    return some ⟨numbered.result, numbered.anchored.reverse⟩

/-- How often aliases may be followed while a document is read: a hundred times for each of its parts. -/
def aliasBound (d : Document) : Nat := 100 * d.root.size

end Document

end TreeLayout.Yaml
