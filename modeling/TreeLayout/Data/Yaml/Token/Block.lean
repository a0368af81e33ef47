import TreeLayout.Data.Json.Number
import TreeLayout.Data.Yaml.Place

/-!
# Block scalars

A block scalar takes the lines below its header that reach its margin. The margin is stated in the
header or is the deepest indentation up to the first line that is not empty. Line ends are kept, or
those between lines that start at the margin are read as blanks.
-/

namespace TreeLayout.Yaml

/-- What happens to the line ends that close a block scalar. -/
inductive Chomping where
  /-- One is kept. -/
  | clip
  /-- None is kept. -/
  | strip
  /-- All are kept. -/
  | keep
  deriving DecidableEq

/-- The header of a block scalar. -/
structure BlockHeader where
  /-- What happens to the last line ends. -/
  chomping : Chomping
  /-- The stated indentation below the parent, or zero. -/
  indent : Nat

/-- The way of chomping that a character names. -/
def chomping? : Char → Option Chomping
  | '+' => some .keep
  | '-' => some .strip
  | _ => none

/-- The indicators of a header, in either order and each at most once, and the place after them. -/
def blockHeader? (p : Place) : Option (BlockHeader × Place) :=
  let indent? (c : Char) : Option Nat := if Json.isDigit c then some (c.toNat - '0'.toNat) else none
  match p.rest with
  | [] => some (⟨.clip, 0⟩, p)
  | c :: cs =>
    match chomping? c, indent? c with
    | some chomping, _ =>
      match (cs.head?.bind indent?) with
      | some 0 => none
      | some n => some (⟨chomping, n⟩, p.skip 2)
      | none => some (⟨chomping, 0⟩, p.skip 1)
    | none, some 0 => none
    | none, some n =>
      match (cs.head?.bind chomping?) with
      | some chomping => some (⟨chomping, n⟩, p.skip 2)
      | none => some (⟨.clip, n⟩, p.skip 1)
    | none, none => some (⟨.clip, 0⟩, p)

/-- The empty lines and the indentation up to the next text: the deepest indentation, the line ends, last
first, and the place of the text. Spaces count as indentation up to the margin, or all if it is zero,
and no tab may stand in it. -/
def emptyLines (margin deepest : Nat) (ends : List Char) (index line column : Nat) :
    List Char → Option (Nat × List Char × Place)
  | [] => some (max deepest column, ends, ⟨index, line, column, []⟩)
  | c :: cs =>
    let inMargin := margin = 0 || column < margin
    if inMargin && c = ' ' then emptyLines margin deepest ends (index + 1) line (column + 1) cs
    else if inMargin && c = '\t' then none
    else if isBreak c then
      emptyLines margin (max deepest column) (c :: ends) (index + c.utf8Size) (line + 1) 0 cs
    else some (max deepest column, ends, ⟨index, line, column, c :: cs⟩)

/-- The lines of a block scalar read so far. -/
structure BlockText where
  /-- The text without the last line ends, last character first. -/
  text : List Char
  /-- The end of the last line. -/
  lineEnd : Option Char
  /-- The ends of the empty lines after it, last first. -/
  further : List Char
  /-- Whether the last line starts with a blank. -/
  indented : Bool

/-- The lines that start at the margin, added to those read so far. -/
def blockLines (folded : Bool) (margin : Nat) :
    (fuel : Nat) → BlockText → Place → Option (BlockText × Place)
  | 0, t, p => some (t, p)
  | fuel + 1, t, p =>
    if p.column ≠ margin || p.rest.isEmpty then some (t, p)
    else do
      let indented := startsWith [' ', '\t'] p.rest
      let joined :=
        if folded && t.lineEnd = some '\n' && !t.indented && !indented then
          if t.further.isEmpty then ' ' :: t.text else t.text
        else t.lineEnd.toList ++ t.text
      let content := p.rest.takeWhile fun c => !isBreak c
      let (lineEnd, p) := (p.skip content.length).skipBreak
      let (_, further, p) ← emptyLines margin 0 [] p.index p.line p.column p.rest
      blockLines folded margin fuel
        ⟨content.reverse ++ t.further ++ joined, lineEnd, further, indented⟩ p

/-- A block scalar after its first character, where `level` is the lowest column of its parent's
content: its text and the place after it. -/
def blockScalar (folded : Bool) (level : Nat) (p : Place) : Option (String × Place) := do
  let (header, p) ← blockHeader? p
  let p := p.skipComment
  if !p.rest.isEmpty && p.skipBreak.1.isNone then none
  else
    let p := p.skipBreak.2
    let stated := if header.indent = 0 then 0 else level - 1 + header.indent
    let (deepest, further, p) ← emptyLines stated 0 [] p.index p.line p.column p.rest
    let margin := if stated = 0 then max (max deepest level) 1 else stated
    let (t, p) ← blockLines folded margin (p.rest.length + 1) ⟨[], none, further, false⟩ p
    let text :=
      match header.chomping with
      | .strip => t.text
      | .clip => t.lineEnd.toList ++ t.text
      | .keep => t.further ++ t.lineEnd.toList ++ t.text
    return (String.ofList text.reverse, p)

end TreeLayout.Yaml
