import TreeLayout.Data.Decode
import TreeLayout.Data.Yaml.Reading
import TreeLayout.Tree.Raw

/-!
# Raw trees as values

A raw node is a record of its kind, text, line, column and children; everything but the kind may be
missing. It is read from JSON values and from YAML nodes. What is absent is left out when a raw node is
written.
-/

namespace TreeLayout.RawNode

/-- The fields of a raw node in order. -/
def fieldNames : List String := ["kind", "text", "line", "column", "children"]

/-- The raw node that a JSON value holds, with nodes nested at most `depth` deep. -/
def ofValueAt? : (depth : Nat) → Value → Option RawNode
  | 0, _ => none
  | depth + 1, v => do
    let fields ← v.record? .json fieldNames
    let kind ← (← fields.lookup "kind").choice? .json Kind.ofName?
    let text ← optionalField fields "text" Value.text?
    let line ← optionalField fields "line" Value.nat?
    let column ← optionalField fields "column" Value.nat?
    let children ← fieldOr fields "children" [] fun v => do
      let items ← v.items? .json
      items.mapM (ofValueAt? depth)
    return ⟨kind, text, line, column, children⟩

/-- The raw node that a JSON value holds. -/
def ofValue? (v : Value) : Option RawNode := ofValueAt? v.height v

/-- The raw node that a YAML node holds, with collections nested at most `depth` deep. -/
def ofYaml (d : Yaml.Document) : (depth : Nat) → Yaml.NumberedNode → Yaml.Reading RawNode
  | 0, _ => failure
  | depth + 1, n => do
    let fields ← d.record (depth + 1) fieldNames n
    let kind ← Yaml.neededField fields "kind" (d.choice Kind.ofName?)
    let text ← Yaml.fieldOrElse fields "text" none (d.optional d.text)
    let line ← Yaml.fieldOrElse fields "line" none (d.optional d.nat)
    let column ← Yaml.fieldOrElse fields "column" none (d.optional d.nat)
    let children ← Yaml.fieldOrElse fields "children" [] fun v => do
      let items ← d.items depth v
      match depth with
      | 0 => return []
      | depth + 1 => items.mapM (ofYaml d depth)
    return ⟨kind, text, line, column, children⟩

mutual
/-- The value that holds a raw node. -/
def toValue : RawNode → Value
  | ⟨kind, text, line, column, children⟩ =>
    .map ([("kind", .text kind.name)]
      ++ (text.map fun s => ("text", .text s)).toList
      ++ (line.map fun n => ("line", .nat n)).toList
      ++ (column.map fun n => ("column", .nat n)).toList
      ++ (match toValues children with
        | [] => []
        | items => [("children", .seq items)]))

/-- The values that hold several raw nodes. -/
def toValues : List RawNode → List Value
  | [] => []
  | raw :: raws => toValue raw :: toValues raws
end

end TreeLayout.RawNode
