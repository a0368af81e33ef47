import TreeLayout.Data.Json.Reader
import TreeLayout.Tree.Codec

/-!
# Contents of tree documents

What a tree document says: its raw tree, and where the source of it is. The fields of a document are the
same in JSON and in YAML.
-/

namespace TreeLayout

/-- The content of a tree document. -/
structure TreeFile where
  /-- The file that holds the source. -/
  source : Option String
  /-- The source itself, which is taken before a file. -/
  text : Option String
  /-- Columns from one tab stop to the next. -/
  tabWidth : Option Nat
  /-- The tree. -/
  root : RawNode

namespace TreeFile

/-- The fields of a tree document in order. -/
def fieldNames : List String := ["source", "text", "tab_width", "root"]

/-- The document content that a JSON value holds. -/
def ofValue? (v : Value) : Option TreeFile := do
  let fields ← v.record? .json fieldNames
  let source ← optionalField fields "source" Value.text?
  let text ← optionalField fields "text" Value.text?
  let tabWidth ← optionalField fields "tab_width" Value.nat?
  let root ← RawNode.ofValue? (← fields.lookup "root")
  return { source, text, tabWidth, root }

/-- The document content that a YAML document holds. -/
def ofYaml (d : Yaml.Document) : Yaml.Reading TreeFile := do
  let fields ← d.record Yaml.nestingBound fieldNames d.root
  let source ← Yaml.fieldOrElse fields "source" none (d.optional d.text)
  let text ← Yaml.fieldOrElse fields "text" none (d.optional d.text)
  let tabWidth ← Yaml.fieldOrElse fields "tab_width" none (d.optional d.nat)
  let root ← Yaml.neededField fields "root" (RawNode.ofYaml d (Yaml.nestingBound - 1))
  return { source, text, tabWidth, root }

/-- The content of a text that is written as JSON. -/
def parseJson? (content : String) : Option TreeFile :=
  (Json.parse? Json.documentDepth content).bind ofValue?

/-- The content of a text that is written as YAML. -/
def parseYaml? (content : String) : Option TreeFile := do
  match ← Yaml.Document.parse? content with
  | none => none
  | some d => ((ofYaml d).run d.aliasBound).map (·.1)

end TreeFile

end TreeLayout
