import TreeLayout.Data.Yaml.Token

/-!
# YAML nodes

The tree that tokens describe. A node may have an anchor and a tag; an alias refers to an anchored node.
Names are kept as they are written, so that a reference is a name here.
-/

namespace TreeLayout.Yaml

/-- What may stand before a node. -/
structure Properties where
  /-- The name by which aliases refer to the node. -/
  anchor : Option String
  /-- The bytes of the tag. -/
  tag : Option (List UInt8)
  deriving DecidableEq

/-- A node without properties. -/
def Properties.none : Properties := ⟨.none, .none⟩

/-- A node whose aliases are references of a type. -/
inductive Node (ρ : Type) where
  /-- The node that is referred to. -/
  | alias (ref : ρ)
  /-- A scalar. -/
  | scalar (props : Properties) (text : String) (style : ScalarStyle)
  /-- A sequence. -/
  | seq (props : Properties) (items : List (Node ρ))
  /-- A mapping. -/
  | map (props : Properties) (entries : List (Node ρ × Node ρ))

namespace Node

/-- The node that stands where none is written. -/
def missing {ρ : Type} : Node ρ := .scalar .none "" .plain

mutual
/-- The number of parts of a node, where a collection has a start and an end. -/
def size {ρ : Type} : Node ρ → Nat
  | .alias _ => 1
  | .scalar _ _ _ => 1
  | .seq _ items => sizeItems items + 2
  | .map _ entries => sizeEntries entries + 2

/-- `size` on the items of a sequence. -/
def sizeItems {ρ : Type} : List (Node ρ) → Nat
  | [] => 0
  | n :: ns => n.size + sizeItems ns

/-- `size` on the entries of a mapping. -/
def sizeEntries {ρ : Type} : List (Node ρ × Node ρ) → Nat
  | [] => 0
  | (k, v) :: rest => k.size + v.size + sizeEntries rest
end

end Node

/-- Handles of tags with what they stand for. -/
abbrev TagHandles := List (String × List UInt8)

/-- The anchor and the tag at the start of tokens, in either order, and the tokens after them. -/
def properties (ts : List Token) :
    Option String × Option (String × List UInt8) × List Token :=
  match ts with
  | .anchor name :: .tag handle rest :: ts => (some name, some (handle, rest), ts)
  | .tag handle rest :: .anchor name :: ts => (some name, some (handle, rest), ts)
  | .anchor name :: ts => (some name, none, ts)
  | .tag handle rest :: ts => (none, some (handle, rest), ts)
  | ts => (none, none, ts)

/-- A tag with what its handle stands for; a handle that is not explained is an error. -/
def wholeTag? (handles : TagHandles) : Option (String × List UInt8) → Option (Option (List UInt8))
  | none => some none
  | some (handle, rest) =>
    if handle.isEmpty then some (some rest)
    else (handles.lookup handle).map fun start => some (start ++ rest)

/-- Whether tokens start with one of the given ones, or are at their end. -/
def startsWithToken (marks : List Token) (ts : List Token) : Bool :=
  match ts with
  | [] => false
  | t :: _ => marks.contains t

mutual
/-- The node at the start of tokens. Block collections count only where `block` says so, and a sequence
without indentation of its own only where `flat` does. -/
def node? (handles : TagHandles) : (fuel : Nat) → (block flat : Bool) → List Token →
    Option (Node String × List Token)
  | 0, _, _, _ => none
  | _ + 1, _, _, .alias name :: ts => some (.alias name, ts)
  | fuel + 1, block, flat, ts => do
    let (anchor, written, ts) := properties ts
    let tag ← wholeTag? handles written
    let props : Properties := ⟨anchor, tag⟩
    match ts with
    | .scalar text style :: ts =>
      -- A mark alone is no tag of a scalar.
      let props := if tag = some [0x21] then ⟨anchor, none⟩ else props
      return (.scalar props text style, ts)
    | .openSequence :: ts =>
      let (items, ts) ← flowItems? handles fuel true ts
      return (.seq props items, ts)
    | .openMapping :: ts =>
      let (entries, ts) ← flowEntries? handles fuel true ts
      return (.map props entries, ts)
    | ts =>
      if flat && startsWithToken [.item] ts then
        let (items, ts) ← flatItems? handles fuel ts
        return (.seq props items, ts)
      else if block && startsWithToken [.blockSequence] ts then
        let (items, ts) ← blockItems? handles fuel (ts.drop 1)
        return (.seq props items, ts)
      else if block && startsWithToken [.blockMapping] ts then
        let (entries, ts) ← blockEntries? handles fuel (ts.drop 1)
        return (.map props entries, ts)
      else if anchor.isSome || tag.isSome then return (.scalar props "" .plain, ts)
      else none

/-- The items of a block sequence up to its end. -/
def blockItems? (handles : TagHandles) : (fuel : Nat) → List Token →
    Option (List (Node String) × List Token)
  | 0, _ => none
  | _ + 1, .blockEnd :: ts => some ([], ts)
  | fuel + 1, .item :: ts => do
    let (n, ts) ←
      if startsWithToken [.item, .blockEnd] ts then some (.missing, ts)
      else node? handles fuel true false ts
    let (ns, ts) ← blockItems? handles fuel ts
    return (n :: ns, ts)
  | _ + 1, _ => none

/-- The items of a sequence that is indented like the mapping around it. -/
def flatItems? (handles : TagHandles) : (fuel : Nat) → List Token →
    Option (List (Node String) × List Token)
  | 0, _ => none
  | fuel + 1, .item :: ts => do
    let (n, ts) ←
      if startsWithToken [.item, .key, .value, .blockEnd] ts then some (.missing, ts)
      else node? handles fuel true false ts
    let (ns, ts) ← flatItems? handles fuel ts
    return (n :: ns, ts)
  | _ + 1, ts => some ([], ts)

/-- The entries of a block mapping up to its end. -/
def blockEntries? (handles : TagHandles) : (fuel : Nat) → List Token →
    Option (List (Node String × Node String) × List Token)
  | 0, _ => none
  | _ + 1, .blockEnd :: ts => some ([], ts)
  | fuel + 1, .key :: ts => do
    let (k, ts) ←
      if startsWithToken [.key, .value, .blockEnd] ts then some (.missing, ts)
      else node? handles fuel true true ts
    let (v, ts) ←
      match ts with
      | .value :: ts =>
        if startsWithToken [.key, .value, .blockEnd] ts then some (.missing, ts)
        else node? handles fuel true true ts
      | ts => some (.missing, ts)
    let (rest, ts) ← blockEntries? handles fuel ts
    return ((k, v) :: rest, ts)
  | _ + 1, _ => none

/-- The items of a flow sequence up to its bracket. Items after the first follow a comma. An item may be
an entry, which is a mapping of its own. -/
def flowItems? (handles : TagHandles) : (fuel : Nat) → (first : Bool) → List Token →
    Option (List (Node String) × List Token)
  | 0, _, _ => none
  | _ + 1, _, .closeSequence :: ts => some ([], ts)
  | fuel + 1, first, ts => do
    let ts ←
      if first then some ts
      else
        match ts with
        | .comma :: ts => some ts
        | _ => none
    match ts with
    | .closeSequence :: ts => return ([], ts)
    | .key :: ts =>
      let (k, ts) ←
        if startsWithToken [.value, .comma, .closeSequence] ts then some (.missing, ts.drop 1)
        else node? handles fuel false false ts
      let (v, ts) ← flowValue? handles fuel .closeSequence ts
      let (ns, ts) ← flowItems? handles fuel false ts
      return (.map .none [(k, v)] :: ns, ts)
    | ts =>
      let (n, ts) ← node? handles fuel false false ts
      let (ns, ts) ← flowItems? handles fuel false ts
      return (n :: ns, ts)

/-- The entries of a flow mapping up to its brace. A node that is no key has no value. -/
def flowEntries? (handles : TagHandles) : (fuel : Nat) → (first : Bool) → List Token →
    Option (List (Node String × Node String) × List Token)
  | 0, _, _ => none
  | _ + 1, _, .closeMapping :: ts => some ([], ts)
  | fuel + 1, first, ts => do
    let ts ←
      if first then some ts
      else
        match ts with
        | .comma :: ts => some ts
        | _ => none
    match ts with
    | .closeMapping :: ts => return ([], ts)
    | .key :: ts =>
      let (k, ts) ←
        if startsWithToken [.value, .comma, .closeMapping] ts then some (.missing, ts)
        else node? handles fuel false false ts
      let (v, ts) ← flowValue? handles fuel .closeMapping ts
      let (rest, ts) ← flowEntries? handles fuel false ts
      return ((k, v) :: rest, ts)
    | ts =>
      let (k, ts) ← node? handles fuel false false ts
      let (rest, ts) ← flowEntries? handles fuel false ts
      return ((k, .missing) :: rest, ts)

/-- The value of an entry in a flow collection that ends with a token. -/
def flowValue? (handles : TagHandles) : (fuel : Nat) → (closing : Token) → List Token →
    Option (Node String × List Token)
  | 0, _, _ => none
  | fuel + 1, closing, .value :: ts =>
    if startsWithToken [.comma, closing] ts then some (.missing, ts)
    else node? handles fuel false false ts
  | _ + 1, _, ts => some (.missing, ts)
end

/-- The directives before a document, with the version and the handles that they state so far. Each is
stated once, and the version is 1.1 or 1.2. -/
def directives? (version : Bool) (handles : TagHandles) : List Token →
    Option (TagHandles × List Token)
  | .version major minor :: ts =>
    if version || major ≠ 1 || (minor ≠ 1 && minor ≠ 2) then none else directives? true handles ts
  | .tagHandle handle start :: ts =>
    if (handles.lookup handle).isSome then none
    else directives? version (handles ++ [(handle, start)]) ts
  | ts => some (handles, ts)

/-- The handles that need no directive. -/
def standardHandles : TagHandles :=
  [("!", "!".toUTF8.toList), ("!!", "tag:yaml.org,2002:".toUTF8.toList)]

/-- The root of the one document that tokens describe, if there is any. Without directives the document
needs no mark before it. -/
def root? (ts : List Token) : Option (Option (Node String)) := do
  let fuel := 4 * ts.length + 4
  let opened :=
    match ts with
    | .version _ _ :: _ | .tagHandle _ _ :: _ | .documentStart :: _ => true
    | _ => false
  if ts.isEmpty then return none
  else
    let (n, ts) ←
      if opened then do
        let (handles, ts) ← directives? false [] ts
        match ts with
        | .documentStart :: ts =>
          match ts with
          | [] | .version _ _ :: _ | .tagHandle _ _ :: _ | .documentStart :: _ | .documentEnd :: _ =>
            some (.missing, ts)
          | ts => node? (handles ++ standardHandles) fuel true false ts
        | _ => none
      else node? standardHandles fuel true false ts
    if ts.all (· = .documentEnd) then return some n else none

end TreeLayout.Yaml
