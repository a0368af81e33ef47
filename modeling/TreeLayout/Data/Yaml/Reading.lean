import TreeLayout.Data.Yaml.Document
import TreeLayout.Data.Yaml.Scalar

/-!
# Reading nodes

How nodes become the parts of a record whose types are known. A scalar is a text whatever it looks like;
where a number is wanted, a plain scalar is read as one; and an empty scalar is also an empty
collection. Aliases are followed only where something is read, and only so often.
-/

namespace TreeLayout.Yaml

/-- A result that is read while aliases may be followed a number of times. -/
abbrev Reading (α : Type) := StateT Nat Option α

/-- Collections nest at most so deep where they are read. -/
def nestingBound : Nat := 128

/-- The bytes of the tag of a type. -/
def typeTag (name : String) : List UInt8 := ("tag:yaml.org,2002:" ++ name).toUTF8.toList

/-- The name that a tag gives to a choice: it starts with an exclamation mark, which is no part of the
name unless it is all of it. -/
def tagName? : Option (List UInt8) → Option String
  | some (0x21 :: rest) =>
    String.fromUTF8? (ByteArray.mk (if rest.isEmpty then [0x21] else rest).toArray)
  | _ => none

namespace Document

/-- The node that an alias means, or the node itself. -/
def follow (d : Document) : NumberedNode → Reading NumberedNode
  | .alias n => do
    match ← get with
    | 0 => failure
    | left + 1 =>
      set left
      match d.anchored.lookup n with
      | some target => return target
      | none => failure
  | n => return n

/-- The text of a scalar. -/
def text (d : Document) (n : NumberedNode) : Reading String := do
  match ← d.follow n with
  | .scalar _ text _ => return text
  | _ => failure

/-- The natural number that a plain scalar writes, or a literal one with the tag of integers. -/
def nat (d : Document) (n : NumberedNode) : Reading Nat := do
  match ← d.follow n with
  | .scalar props text style =>
    if style = .plain || (style = .literal && props.tag = some (typeTag "int")) then
      match nat? text with
      | some n => return n
      | none => failure
    else failure
  | _ => failure

/-- A node that may be null. Among tagged plain scalars only one with the tag of null is null, and must
be written so. -/
def optional {α : Type} (d : Document) (read : NumberedNode → Reading α) (n : NumberedNode) :
    Reading (Option α) := do
  let n ← d.follow n
  match n with
  | .scalar props text ScalarStyle.plain =>
    match props.tag with
    | none => if isNull text then return none else some <$> read n
    | some tag =>
      if tag = typeTag "null" then
        if isNullWord text then return none else failure
      else some <$> read n
  | n => some <$> read n

/-- A choice among named alternatives: a scalar with the name, or null with the name as its tag. -/
def choice {α : Type} (d : Document) (ofName? : String → Option α) (n : NumberedNode) :
    Reading α := do
  match ← d.follow n with
  | .scalar props text style =>
    let name? :=
      match tagName? props.tag with
      | some name => if style = ScalarStyle.plain && isNull text then some name else none
      | none => some text
    match name?.bind ofName? with
    | some a => return a
    | none => failure
  | _ => failure

/-- The items of a sequence, which is nested in at most `depth` further collections. -/
def items (d : Document) (depth : Nat) (n : NumberedNode) : Reading (List NumberedNode) := do
  match ← d.follow n with
  | .seq _ items => if depth = 0 then failure else return items
  | .scalar _ text _ => if text.isEmpty then return [] else failure
  | _ => failure

/-- The entries of a mapping, which is nested in at most `depth` further collections. -/
def entries (d : Document) (depth : Nat) (n : NumberedNode) :
    Reading (List (NumberedNode × NumberedNode)) := do
  match ← d.follow n with
  | .map _ entries => if depth = 0 then failure else return entries
  | .scalar _ text _ => if text.isEmpty then return [] else failure
  | _ => failure

/-- The fields of a record that have known names; all names are texts, and no known one occurs twice. -/
def record (d : Document) (depth : Nat) (names : List String) (n : NumberedNode) :
    Reading (List (String × NumberedNode)) := do
  let entries ← d.entries depth n
  entries.foldlM
    (fun known (k, v) => do
      let name ← d.text k
      if !names.contains name then return known
      else if (known.lookup name).isSome then failure
      else return known ++ [(name, v)])
    []

end Document

/-- A field that must not be missing. -/
def neededField {α : Type} (fields : List (String × NumberedNode)) (name : String)
    (read : NumberedNode → Reading α) : Reading α :=
  match fields.lookup name with
  | some n => read n
  | none => failure

/-- A field that may be missing, in which case it has a default. -/
def fieldOrElse {α : Type} (fields : List (String × NumberedNode)) (name : String) (default : α)
    (read : NumberedNode → Reading α) : Reading α :=
  match fields.lookup name with
  | some n => read n
  | none => return default

end TreeLayout.Yaml
