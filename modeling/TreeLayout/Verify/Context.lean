import TreeLayout.Finding
import TreeLayout.Settings
import TreeLayout.SourceText
import TreeLayout.Tree.Basic

/-!
# Lines and columns of nodes

The checks that the program machine and the expression checker share: where a node starts, whether two
nodes share a line, and what is reported if they stand wrongly. Each check gives the list of its
findings.
-/

namespace TreeLayout

/-- What a check needs besides the nodes. -/
structure Context where
  /-- The source that the tree was parsed from. -/
  source : SourceText
  /-- The layout that is asked for. -/
  settings : LayoutSettings

/-- Whether a node starts on the line on which another one's last leaf starts. -/
def sameLine (prev next : Tree) : Bool :=
  prev.rightmost.line = next.line

namespace Context

/-- The expanded column at which a node starts, counted from zero. -/
def column (cx : Context) (t : Tree) : Nat :=
  cx.source.column t.line t.rawColumn

/-- The indentation of the line on which a node starts. -/
def baseOf (cx : Context) (t : Tree) : Nat :=
  cx.source.indentation t.line

/-- One more, in the arithmetic of the source. -/
def succ (cx : Context) (n : Nat) : Nat := cx.source.arithmetic.add n 1

/-- The column one indentation level further in. -/
def stepIn (cx : Context) (base : Nat) : Nat :=
  cx.source.arithmetic.add base cx.settings.basicOffset

/-- A finding anchored on the first leaf of a node. -/
def finding (cx : Context) (anchor : Tree) (message : Message) (indent : Option Nat) : Finding where
  line := anchor.line
  column := cx.succ (cx.column anchor)
  rawColumn := anchor.rawColumn
  length := max anchor.leftmost.text.length 1
  message := message
  indent := indent

/-- A node starts in a column. -/
def expectColumn (cx : Context) (next : Tree) (expected : Nat) : List Finding :=
  let actual := cx.column next
  if actual = expected then []
  else
    [cx.finding next (.column next.leftmost.describe (cx.succ expected) (cx.succ actual))
      (some expected)]

/-- Two nodes do not share a line and should. -/
def sameLineViolation (cx : Context) (prev next : Tree) : Finding :=
  cx.finding next (.sameLine prev.rightmost.describeLast next.leftmost.describe) none

/-- A node does not start a line and should, with an indentation. -/
def mustWrapViolation (cx : Context) (next : Tree) (indent : Nat) : Finding :=
  cx.finding next (.mustWrap next.leftmost.describe) (some indent)

/-- Two nodes share a line. -/
def noWrap (cx : Context) (prev next : Tree) : List Finding :=
  if sameLine prev next then [] else [cx.sameLineViolation prev next]

/-- Two nodes share a line, or the second starts in a column. -/
def mayWrap (cx : Context) (prev next : Tree) (column : Nat) : List Finding :=
  if sameLine prev next then [] else cx.expectColumn next column

/-- The second of two nodes starts a line in a column. -/
def mustWrap (cx : Context) (prev next : Tree) (column : Nat) : List Finding :=
  if sameLine prev next then [cx.mustWrapViolation next column] else cx.expectColumn next column

/-- The boundary between two nodes under a policy; further lines start in a column. -/
def boundary (cx : Context) (policy : WrapPolicy) (prev next : Tree) (column : Nat) :
    List Finding :=
  match policy with
  | .no => cx.noWrap prev next
  | .may => cx.mayWrap prev next column
  | .must => cx.mustWrap prev next column

/-- A child is of the wrong kind. -/
def unexpected (cx : Context) (child : Tree) (expected : String) : Finding :=
  cx.finding child (.unexpectedToken expected child.describe) none

/-- A child is one too many. -/
def extra (cx : Context) (child : Tree) : Finding :=
  cx.finding child (.extraToken child.describe) none

/-- A construct lacks its first child. -/
def missingFirst (cx : Context) (t : Tree) : Finding :=
  cx.finding t (.missingToken t.kind.displayName) none

end Context

end TreeLayout
