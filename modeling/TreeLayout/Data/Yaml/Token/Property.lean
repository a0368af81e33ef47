import TreeLayout.Data.Json.Number
import TreeLayout.Data.Yaml.Place

/-!
# Anchors, tags and directives

The names that stand before nodes, and the lines before a document that say how it is read. A tag is
written in full between angle brackets, or with a handle that a directive explains.
-/

namespace TreeLayout.Yaml

/-- The bytes of a text. -/
def bytesOf (s : String) : List UInt8 := s.toUTF8.toList

/-- The name of an anchor or an alias after its mark, and the place after it. -/
def anchorName? (p : Place) : Option (String × Place) :=
  let name := p.rest.takeWhile isWord
  let after := p.skip name.length
  if !name.isEmpty && (atBlank after.rest
      || startsWith ['?', ':', ',', ']', '\x7d', '%', '@', '\x60'] after.rest) then
    some (String.ofList name, after)
  else none

/-- Whether a character may stand in a tag; in one that is written in full, also flow marks may. -/
def isTagChar (full : Bool) (c : Char) : Bool :=
  isWord c || [';', '/', '?', ':', '@', '&', '=', '+', '$', '.', '!', '~', '*', '\x27', '(', ')'].contains c
    || (full && (c = ',' || c = '[' || c = ']'))

/-- The number of bytes that a character takes whose first byte is given. -/
def encodedSize? (byte : Nat) : Option Nat :=
  if byte < 0x80 then some 1
  else if 0xC0 ≤ byte && byte < 0xE0 then some 2
  else if 0xE0 ≤ byte && byte < 0xF0 then some 3
  else if 0xF0 ≤ byte && byte < 0xF8 then some 4
  else none

/-- The bytes of a tag and the place after them. A byte may be written as a percent sign and two
hexadecimal digits; `left` further bytes of a character must be written so. -/
def tagBytes (full : Bool) (acc : List UInt8) (left index line column : Nat) :
    List Char → Option (List UInt8 × Place)
  | [] => if left = 0 then some (acc.reverse, ⟨index, line, column, []⟩) else none
  | '%' :: a :: b :: cs => do
    let byte := (← Json.digit? a) * 16 + (← Json.digit? b)
    let left ←
      if left = 0 then (encodedSize? byte).map (· - 1)
      else if 0x80 ≤ byte && byte < 0xC0 then some (left - 1)
      else none
    tagBytes full (byte.toUInt8 :: acc) left (index + 3) line (column + 3) cs
  | c :: cs =>
    if c = '%' then none
    else if left ≠ 0 then none
    else if isTagChar full c then
      tagBytes full (c.toNat.toUInt8 :: acc) 0 (index + 1) line (column + 1) cs
    else some (acc.reverse, ⟨index, line, column, c :: cs⟩)

/-- The bytes of a tag from a place on, which may be missing only if `optional` says so. A zero byte ends
the tag, and what follows it does not count. -/
def tagPart? (full optional : Bool) (p : Place) : Option (List UInt8 × Place) :=
  match tagBytes full [] 0 p.index p.line p.column p.rest with
  | some (bytes, after) =>
    if bytes.isEmpty && !optional then none else some (bytes.takeWhile (· != 0), after)
  | none => none

/-- The handle and the rest of a tag that starts at a place, and the place after it. -/
def tag? (flow : Bool) (p : Place) : Option (String × List UInt8 × Place) := do
  let (handle, rest, after) ←
    match p.rest.drop 1 with
    | '<' :: _ => do
      let (bytes, after) ← tagPart? true false (p.skip 2)
      match after.rest with
      | '>' :: _ => some ("", bytes, after.skip 1)
      | _ => none
    | cs =>
      let word := cs.takeWhile isWord
      let after := p.skip (word.length + 1)
      match after.rest with
      | '!' :: _ => do
        let (bytes, after) ← tagPart? false false (after.skip 1)
        some ("!" ++ String.ofList word ++ "!", bytes, after)
      | _ => do
        let (bytes, after) ← tagPart? false true after
        let rest := bytesOf (String.ofList word) ++ bytes
        -- A mark alone is a tag of its own.
        if rest.isEmpty then some ("", bytesOf "!", after) else some ("!", rest, after)
  if atBlank after.rest || (flow && startsWith [','] after.rest) then
    return (handle, rest, after)
  else none

/-- A number of a version, which has at most nine digits. -/
def versionNumber? (p : Place) : Option (Nat × Place) :=
  let ds := p.rest.takeWhile Json.isDigit
  if ds.isEmpty || 9 < ds.length then none else some (Json.ofDigits ds, p.skip ds.length)

/-- The two numbers of a version. -/
def version? (p : Place) : Option (Nat × Nat × Place) := do
  let (major, p) ← versionNumber? (p.skipWhile isBlank)
  match p.rest with
  | '.' :: _ =>
    let (minor, p) ← versionNumber? (p.skip 1)
    return (major, minor, p)
  | _ => none

/-- The handle of a directive: an exclamation mark, or a word between two. -/
def handle? (p : Place) : Option (String × Place) :=
  match p.rest with
  | '!' :: cs =>
    let word := cs.takeWhile isWord
    let after := p.skip (word.length + 1)
    match after.rest with
    | '!' :: _ => some ("!" ++ String.ofList word ++ "!", after.skip 1)
    | _ => if word.isEmpty then some ("!", after) else none
  | _ => none

/-- A handle and the start of the tags that it stands for. -/
def tagHandle? (p : Place) : Option (String × List UInt8 × Place) := do
  let (handle, p) ← handle? (p.skipWhile isBlank)
  if !startsWith [' ', '\t'] p.rest then none
  else
    let (start, p) ← tagPart? true false (p.skipWhile isBlank)
    if atBlank p.rest then return (handle, start, p) else none

end TreeLayout.Yaml
