import TreeLayout.Text.Basic

/-!
# Differences between texts

The difference between two texts by lines is one hunk: what lies between the longest common beginning
and the longest common ending, with one common line before and after it. Texts with equal lines have
none.
-/

namespace TreeLayout

/-- The stretch in which two texts differ. -/
structure Hunk where
  /-- How many lines stand before the hunk. -/
  start : Nat
  /-- The common line before the change. -/
  before : List String
  /-- The lines that are taken away. -/
  removed : List String
  /-- The lines that are put in. -/
  added : List String
  /-- The common line after the change. -/
  after : List String
  deriving DecidableEq

namespace Hunk

/-- The number of lines that two lists begin with in common. -/
def commonPrefix : List String → List String → Nat
  | a :: as, b :: bs => if a = b then commonPrefix as bs + 1 else 0
  | _, _ => 0

/-- The hunk by which a list of lines differs from another one. -/
def between? (old new : List String) : Option Hunk :=
  let common := commonPrefix old new
  let oldRest := old.drop common
  let newRest := new.drop common
  let tail := commonPrefix oldRest.reverse newRest.reverse
  let removed := oldRest.take (oldRest.length - tail)
  let added := newRest.take (newRest.length - tail)
  if removed.isEmpty && added.isEmpty then none
  else
    some
      { start := common - 1
        before := (old.take common).drop (common - 1)
        removed
        added
        after := (oldRest.drop (oldRest.length - tail)).take 1 }

/-- The number of lines that the hunk covers in the old text. -/
def oldCount (h : Hunk) : Nat := h.before.length + h.removed.length + h.after.length

/-- The number of lines that the hunk covers in the new text. -/
def newCount (h : Hunk) : Nat := h.before.length + h.added.length + h.after.length

/-- Lines behind a mark. -/
def marked (mark : String) (lines : List String) : String :=
  String.join (lines.map fun line => mark ++ line ++ "\n")

/-- The text of a hunk. -/
def render (h : Hunk) : String :=
  "@@ -" ++ toString (h.start + 1) ++ "," ++ toString h.oldCount
    ++ " +" ++ toString (h.start + 1) ++ "," ++ toString h.newCount ++ " @@\n"
    ++ marked " " h.before ++ marked "-" h.removed ++ marked "+" h.added ++ marked " " h.after

end Hunk

/-- The change of one file. -/
structure FileDiff where
  /-- The path of the file. -/
  file : String
  /-- Where its lines differ. -/
  hunk : Option Hunk

namespace FileDiff

/-- The lines of a text. -/
def linesOf (content : List Char) : List String :=
  (Text.lines content).map String.ofList

/-- The change from an old content to a new one. -/
def between (file : String) (old new : List Char) : FileDiff :=
  ⟨file, Hunk.between? (linesOf old) (linesOf new)⟩

/-- The text of a change. -/
def render (d : FileDiff) : String :=
  "--- a/" ++ d.file ++ "\n+++ b/" ++ d.file ++ "\n" ++ (d.hunk.map Hunk.render).getD ""

/-- The text of several changes, each under a line that names its file. -/
def renderAll (diffs : List FileDiff) : String :=
  String.join (diffs.map fun d =>
    "diff --wrapcheck a/" ++ d.file ++ " b/" ++ d.file ++ "\n" ++ d.render ++ "\n")

end FileDiff

end TreeLayout
