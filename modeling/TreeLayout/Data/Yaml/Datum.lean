import TreeLayout.Data.Yaml.Reading

/-!
# YAML data

A datum is a YAML value whose types are decided by how it is written. Keys of mappings are data of any
kind, and no two of a mapping are the same. `Datum.toValue` is the form in which records are decoded,
and `Datum.toJson?` the form that can be written as JSON.
-/

namespace TreeLayout.Yaml

/-- A value whose types are decided. -/
inductive Datum where
  /-- The null value. -/
  | null
  /-- A truth value. -/
  | bool (b : Bool)
  /-- An integer that fits 64 bits, with or without a sign. -/
  | int (n : Int)
  /-- Another number and its text. -/
  | real (x : Float) (written : String)
  /-- A text. -/
  | text (s : String)
  /-- A sequence. -/
  | seq (items : List Datum)
  /-- A mapping. -/
  | map (entries : List (Datum × Datum))
  /-- A value with a tag before it. -/
  | tagged (tag : String) (content : Datum)

namespace Datum

/-- A tag without an exclamation mark before it, unless it is all of it. -/
def bareTag (tag : String) : String :=
  match tag.toList with
  | '!' :: c :: cs => String.ofList (c :: cs)
  | _ => tag

mutual
/-- Whether two data are the same. The order of a mapping does not count, and numbers are the same if
they are equal or both no numbers. -/
def same : Datum → Datum → Bool
  | .null, .null => true
  | .bool a, .bool b => a == b
  | .int a, .int b => a == b
  | .real a _, .real b _ => a == b || (a.isNaN && b.isNaN)
  | .text a, .text b => a == b
  | .seq as, .seq bs => sameItems as bs
  | .map as, .map bs => as.length == bs.length && allEntriesIn as bs
  | .tagged s a, .tagged t b => bareTag s == bareTag t && same a b
  | _, _ => false

/-- `same` on the items of two sequences. -/
def sameItems : List Datum → List Datum → Bool
  | [], [] => true
  | a :: as, b :: bs => same a b && sameItems as bs
  | _, _ => false

/-- Whether all entries of one mapping are entries of another. -/
def allEntriesIn : List (Datum × Datum) → List (Datum × Datum) → Bool
  | [], _ => true
  | (k, v) :: rest, bs => bs.any (fun (k', v') => same k k' && same v v') && allEntriesIn rest bs
end

/-- The integer that a scalar writes, if it fits 64 bits with or without a sign. -/
def ofInt? (n : Int) : Option Datum :=
  if -(wordBound / 2 : Int) ≤ n ∧ n < wordBound then some (.int n) else none

/-- Whether an integer fits 128 bits, with or without a sign. -/
def isWide (n : Int) : Bool :=
  decide (-(wordBound * wordBound / 2 : Int) ≤ n ∧ n < (wordBound * wordBound : Int))

/-- The meaning of a plain scalar. Integers beyond 64 bits have none up to 128 bits and are other numbers
from there on. -/
def ofPlain? (s : String) : Option Datum :=
  if isNull s then some .null
  else
    match bool? s, int? s with
    | some b, _ => some (.bool b)
    | none, some n => if isWide n then ofInt? n else real
    | none, none => real
where
  /-- Another number, or a text. -/
  real : Option Datum :=
    if isZeroPadded s.toList then some (.text s)
    else
      match float? s with
      | some x => some (.real x s)
      | none => some (.text s)

/-- The meaning of a scalar. A tag of a type decides it; other tags are kept or do not count. -/
def ofScalar? (tag : Option (List UInt8)) (text : String) (style : ScalarStyle) : Option Datum :=
  let open? := if style = .plain then ofPlain? text else some (.text text)
  match tagName? tag, tag with
  | some name, _ => open?.map (.tagged name)
  | none, none => open?
  | none, some tag =>
    if tag = typeTag "bool" then (bool? text).map .bool
    else if tag = typeTag "int" then (int? text).bind ofInt?
    else if tag = typeTag "float" then (float? text).map (.real · text)
    else if tag = typeTag "null" then if isNullWord text then some .null else none
    else if tag.head? = some 0x21 then open?
    else some (.text text)

/-- A collection with its tag, if it has one. -/
def withTag (tag : Option (List UInt8)) (content : Datum) : Datum :=
  match tagName? tag with
  | some name => .tagged name content
  | none => content

/-- The datum of a node, with collections nested at most `depth` deep. -/
def ofNode (d : Document) : (depth : Nat) → NumberedNode → Reading Datum
  | 0, n => do
    match ← d.follow n with
    | .scalar props s style => (ofScalar? props.tag s style : Option Datum)
    | _ => failure
  | depth + 1, n => do
    match ← d.follow n with
    | .scalar props s style => (ofScalar? props.tag s style : Option Datum)
    | .seq props items => return withTag props.tag (.seq (← items.mapM (ofNode d depth)))
    | .map props entries =>
      let known ← entries.foldlM
        (fun known (k, v) => do
          let key ← ofNode d depth k
          if known.any fun (k, _) => same k key then failure
          else return (key, ← ofNode d depth v) :: known)
        []
      return withTag props.tag (.map known.reverse)
    | .alias _ => failure

/-- The datum of a text; one without content is null. -/
def parse? (text : String) : Option Datum := do
  match ← Document.parse? text with
  | none => return .null
  | some d => ((ofNode d nestingBound d.root).run d.aliasBound).map (·.1)

/-- A datum without tags before it. -/
def untagged : Datum → Datum
  | .tagged _ content => content.untagged
  | v => v

/-- The field of a mapping with a name. -/
def field? (v : Datum) (name : String) : Option Datum :=
  match v.untagged with
  | .map entries => (entries.find? fun (k, _) => same k (.text name)).map (·.2)
  | _ => none

/-- The name that a key gives to a field. -/
def keyText? (k : Datum) : Option String :=
  match k.untagged with
  | .text s => some s
  | _ => none

/-- The name that a key has in JSON. -/
def jsonKey? : Datum → Option String
  | .text s => some s
  | .bool b => some (if b then "true" else "false")
  | .int n => some (toString n)
  | .real x written => if x.isFinite then some written else none
  | _ => none

/-- A number as a value. -/
def intValue (n : Int) : Value :=
  match n with
  | .ofNat n => .nat n
  | .negSucc _ => .real (toString n)

mutual
/-- The form in which records are decoded. A mapping with a key that is no text cannot be read as a
record. -/
def toValue : Datum → Value
  | .null => .null
  | .bool b => .bool b
  | .int n => intValue n
  | .real _ written => .real written
  | .text s => .text s
  | .seq items => .seq (toValues items)
  | .map entries =>
    match toFields? entries with
    | some fields => .map fields
    | none => .invalid
  | .tagged tag content => .tagged (bareTag tag) content.toValue

/-- `toValue` on the items of a sequence. -/
def toValues : List Datum → List Value
  | [] => []
  | v :: vs => v.toValue :: toValues vs

/-- `toValue` on the entries of a mapping. -/
def toFields? : List (Datum × Datum) → Option (List (String × Value))
  | [] => some []
  | (k, v) :: rest => do
    let name ← keyText? k
    let fields ← toFields? rest
    return (name, v.toValue) :: fields
end

mutual
/-- The form that can be written as JSON, if all keys have a name there. Numbers that are not finite are
null, and a tag is the one field of an object. -/
def toJson? : Datum → Option Value
  | .null => some .null
  | .bool b => some (.bool b)
  | .int n => some (intValue n)
  | .real x written => some (if x.isFinite then .real written else .null)
  | .text s => some (.text s)
  | .seq items => (toJsons? items).map .seq
  | .map entries => (toJsonFields? entries).map .map
  | .tagged tag content => content.toJson?.map fun v => .map [("!" ++ bareTag tag, v)]

/-- `toJson?` on the items of a sequence. -/
def toJsons? : List Datum → Option (List Value)
  | [] => some []
  | v :: vs => do
    let v ← v.toJson?
    let vs ← toJsons? vs
    return v :: vs

/-- `toJson?` on the entries of a mapping. -/
def toJsonFields? : List (Datum × Datum) → Option (List (String × Value))
  | [] => some []
  | (k, v) :: rest => do
    let name ← jsonKey? k
    let v ← v.toJson?
    let fields ← toJsonFields? rest
    return (name, v) :: fields
end

end Datum

end TreeLayout.Yaml
