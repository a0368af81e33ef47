/-!
# Data values

The values that documents hold, whether they are written as JSON or as YAML. The fields of a mapping
keep their order. A number is a natural number of at most 64 bits, or any other number, which is kept
as it was written. What a format allows to be written but gives no meaning is an invalid value: it does
no harm where it is skipped.
-/

namespace TreeLayout

/-- A value of a document. -/
inductive Value where
  /-- The null value. -/
  | null
  /-- A truth value. -/
  | bool (b : Bool)
  /-- A natural number of at most 64 bits. -/
  | nat (n : Nat)
  /-- Any other number, as written. -/
  | real (text : String)
  /-- A text. -/
  | text (s : String)
  /-- A sequence. -/
  | seq (items : List Value)
  /-- A mapping. -/
  | map (fields : List (String × Value))
  /-- A value with a tag before it. -/
  | tagged (tag : String) (content : Value)
  /-- A value that can be skipped and not be read. -/
  | invalid

/-- Natural numbers of documents have at most 64 bits. -/
def wordBound : Nat := UInt64.size

namespace Value

/-- The field of a mapping with a name, the first one if several have it. -/
def field? (v : Value) (name : String) : Option Value :=
  match v with
  | .map fields => fields.lookup name
  | _ => none

mutual
/-- How deep values are nested; a value without parts has height one. -/
def height : Value → Nat
  | .seq items => heightItems items + 1
  | .map fields => heightFields fields + 1
  | .tagged _ content => content.height + 1
  | _ => 1

/-- The greatest height of the items of a sequence. -/
def heightItems : List Value → Nat
  | [] => 0
  | v :: vs => max v.height (heightItems vs)

/-- The greatest height of the fields of a mapping. -/
def heightFields : List (String × Value) → Nat
  | [] => 0
  | (_, v) :: rest => max v.height (heightFields rest)
end

mutual
/-- Every mapping keeps only the last field of each name. -/
def lastFields : Value → Value
  | .seq items => .seq (lastFieldsItems items)
  | .map fields => .map (lastFieldsEntries fields)
  | .tagged tag content => .tagged tag content.lastFields
  | v => v

/-- `lastFields` on the items of a sequence. -/
def lastFieldsItems : List Value → List Value
  | [] => []
  | v :: vs => v.lastFields :: lastFieldsItems vs

/-- `lastFields` on the fields of a mapping. -/
def lastFieldsEntries : List (String × Value) → List (String × Value)
  | [] => []
  | (name, v) :: rest =>
    if rest.any (·.1 == name) then lastFieldsEntries rest
    else (name, v.lastFields) :: lastFieldsEntries rest
end

mutual
/-- Whether a value and all its parts can be read. -/
def isValid : Value → Bool
  | .seq items => allValid items
  | .map fields => allFieldsValid fields
  | .tagged _ content => content.isValid
  | .invalid => false
  | _ => true

/-- `isValid` on the items of a sequence. -/
def allValid : List Value → Bool
  | [] => true
  | v :: vs => v.isValid && allValid vs

/-- `isValid` on the fields of a mapping. -/
def allFieldsValid : List (String × Value) → Bool
  | [] => true
  | (_, v) :: rest => v.isValid && allFieldsValid rest
end

end Value

end TreeLayout
