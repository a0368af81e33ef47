import TreeLayout.Data.Value

/-!
# Decoding values

How values become fields of domain types. A record is written as a mapping in which unknown names are
ignored and known names occur once. JSON may also list the fields of a record in order and may write a
choice as a mapping from its name to null; YAML may write it as a tag before null, may leave out the
content of a collection, and ignores tags elsewhere.
-/

namespace TreeLayout

/-- The format that a value was written in. -/
inductive Dialect where
  | json | yaml
  deriving DecidableEq

namespace Value

/-- A value without tags before it. -/
def untagged : Value → Value
  | .tagged _ content => content.untagged
  | v => v

/-- The text that a value holds. -/
def text? (v : Value) : Option String :=
  match v.untagged with
  | .text s => some s
  | _ => none

/-- The natural number that a value holds. -/
def nat? (v : Value) : Option Nat :=
  match v.untagged with
  | .nat n => some n
  | _ => none

/-- The truth value that a value holds. -/
def bool? (v : Value) : Option Bool :=
  match v.untagged with
  | .bool b => some b
  | _ => none

/-- Whether a value is null. -/
def isNull : Value → Bool
  | .null => true
  | _ => false

/-- The items of a value as a sequence. -/
def items? (d : Dialect) (v : Value) : Option (List Value) :=
  match v.untagged with
  | .seq items => some items
  | .null => if d = .yaml then some [] else none
  | _ => none

/-- The fields of a value as a mapping. -/
def fields? (d : Dialect) (v : Value) : Option (List (String × Value)) :=
  match v.untagged with
  | .map fields => some fields
  | .null => if d = .yaml then some [] else none
  | _ => none

/-- Whether no name occurs twice. -/
def namesDistinct : List (String × Value) → Bool
  | [] => true
  | (name, _) :: rest => !rest.any (·.1 == name) && namesDistinct rest

/-- The known fields of a value as a record. -/
def record? (d : Dialect) (names : List String) (v : Value) : Option (List (String × Value)) :=
  match d, v with
  | .json, .seq items => if items.length ≤ names.length then some (names.zip items) else none
  | _, _ => do
    let fields ← v.fields? d
    let known := fields.filter fun (name, _) => names.contains name
    if namesDistinct known then some known else none

/-- A choice among named alternatives. -/
def choice? {α : Type} (d : Dialect) (ofName? : String → Option α) (v : Value) : Option α :=
  match d, v with
  | .json, .map [(name, .null)] => ofName? name
  | _, .text name => ofName? name
  | _, .tagged name .null => ofName? name
  | _, _ => none

/-- A sequence of texts. -/
def texts? (d : Dialect) (v : Value) : Option (List String) := do
  let items ← v.items? d
  items.mapM text?

end Value

/-- A field that may be missing, in which case it has a default. -/
def fieldOr {α : Type} (fields : List (String × Value)) (name : String) (default : α)
    (decode? : Value → Option α) : Option α :=
  match fields.lookup name with
  | none => some default
  | some v => decode? v

/-- A field that may be missing or null. -/
def optionalField {α : Type} (fields : List (String × Value)) (name : String)
    (decode? : Value → Option α) : Option (Option α) :=
  match fields.lookup name with
  | none => some none
  | some v => if v.isNull then some none else (decode? v).map some

/-- A record with one field for each member of a finite type, where missing fields keep a default. -/
def decodeTable? {κ α : Type} [DecidableEq κ] (d : Dialect) (all : List κ) (name : κ → String)
    (default : κ → α) (decode? : Value → Option α) (v : Value) : Option (κ → α) := do
  let fields ← v.record? d (all.map name)
  let entries ← all.mapM fun k => (fieldOr fields (name k) (default k) decode?).map fun a => (k, a)
  return fun k => (entries.lookup k).getD (default k)

end TreeLayout
