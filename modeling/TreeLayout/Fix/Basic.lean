import TreeLayout.Finding
import TreeLayout.SourceText

/-!
# Fixes

A fix replaces a range of bytes of a source text. The fixes that are suggested for findings touch
nothing but blanks: a token is indented anew, the gap before it is resized, a line is ended before it,
or it is joined to the line before. Only the first two keep the lines, and are safe.
-/

namespace TreeLayout

/-- Whether a fix may be applied unseen. -/
inductive FixSafety where
  /-- Only blanks inside one line change. -/
  | safe
  /-- Lines are ended or joined. -/
  | risky
  deriving DecidableEq

/-- The name of a safety class. -/
def FixSafety.name : FixSafety → String
  | .safe => "safe"
  | .risky => "unsafe"

/-- The replacement of a range of bytes. -/
structure Fix where
  /-- What the fix does. -/
  description : String
  /-- The new text. -/
  replacement : String
  /-- The offset of the first byte that is replaced. -/
  startOffset : Nat
  /-- The offset after the last byte that is replaced. -/
  endOffset : Nat
  /-- Whether the fix may be applied unseen. -/
  safety : FixSafety
  deriving DecidableEq

namespace Fix

/-- Whether a fix may be applied unseen. -/
def isSafe (f : Fix) : Bool := f.safety = .safe

/-- Whether two fixes touch a common byte, where an empty range touches the byte after it. -/
def overlaps (a b : Fix) : Bool :=
  decide (a.startOffset < max b.endOffset (b.startOffset + 1))
    && decide (b.startOffset < max a.endOffset (a.startOffset + 1))

/-- The text with the range replaced, if the range lies in the text and ends between characters. -/
def replaceIn? (f : Fix) (cs : List Char) : Option (List Char) :=
  if f.endOffset < f.startOffset then none
  else do
    let (before, _) ← Text.splitAtByte? f.startOffset cs
    let (_, after) ← Text.splitAtByte? f.endOffset cs
    return before ++ f.replacement.toList ++ after

end Fix

/-- Whether two characters stay together when lines are joined between them. -/
def joinsTightly (last first : Option Char) : Bool :=
  (first.map fun c => ['(', ')', ';', ',', '.', '[', ']'].contains c).getD false
    || (last.map fun c => ['(', '[', '.'].contains c).getD false

/-- The width between a raw column and the place of a finding on one line; zero if the raw column lies
further right. -/
def Finding.gapWidth (f : Finding) (source : SourceText) (raw : Nat) : Nat :=
  source.arithmetic.sub f.column 1 - source.column f.line raw

/-- A token that starts its line is indented anew, and the gap before any other token is resized. A gap
does not vanish, and none is made where there is none. -/
def suggestColumn? (f : Finding) (source : SourceText) (lineStart : Nat) (before : List Char)
    (expected actual : Nat) : Option Fix :=
  let a := source.arithmetic
  let start := lineStart + Text.byteSize before
  if before.all Text.isGap then
    let indent := f.indent.getD (a.sub expected 1)
    some ⟨"reindent to column " ++ toString (a.add indent 1), String.ofList (Column.spaces indent),
      lineStart, start, .safe⟩
  else
    let kept := Text.trimEnd Text.isGap before
    let reach := a.add (f.gapWidth source kept.length) expected
    if kept.length = before.length || reach ≤ actual then none
    else
      some ⟨"move to column " ++ toString expected,
        String.ofList (Column.spaces (reach - actual)), lineStart + Text.byteSize kept, start, .safe⟩

/-- The line is ended before a token, and the token is indented. -/
def suggestWrap (lineStart : Nat) (before : List Char) (indent : Nat) : Fix :=
  let start := lineStart + Text.byteSize before
  ⟨"wrap line", String.ofList ('\n' :: Column.spaces indent),
    start - Text.byteSize (Text.ending Text.isGap before), start, .risky⟩

/-- A token is joined to the last character before it that is no blank; there is a blank between them
unless they belong together. -/
def suggestJoin? (source : SourceText) (start : Nat) : Option Fix := do
  let (before, after) ← Text.splitAtByte? start source.text.toList
  let kept := Text.trimEnd Text.isBlank before
  if kept.length = before.length then none
  else
    some ⟨"join lines", if joinsTightly kept.getLast? after.head? then "" else " ",
      Text.byteSize kept, start, .risky⟩

/-- The fix that is suggested for a finding; structural findings get none. -/
def suggestFix? (f : Finding) (source : SourceText) : Option Fix := do
  let lineStart ← source.lineStart? f.line
  let before := (source.line f.line).take f.rawColumn
  match f.message with
  | .column _ expected actual => suggestColumn? f source lineStart before expected actual
  | .mustWrap _ => f.indent.map (suggestWrap lineStart before)
  | .sameLine _ _ => suggestJoin? source (lineStart + Text.byteSize before)
  | .unexpectedToken _ _ | .extraToken _ | .missingToken _ => none

end TreeLayout
