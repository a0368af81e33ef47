import TreeLayout.Fix.Basic

/-!
# Diagnostics

A diagnostic is what is reported about a file: a rule with a severity and a message, a place, the lines
around it, and what can be done about it.
-/

namespace TreeLayout

/-- A place in a file. -/
structure Location where
  /-- The path of the file. -/
  file : String
  /-- The line, counted from one; zero if the whole file is meant. -/
  line : Nat
  /-- The expanded column, counted from one; zero if the whole file is meant. -/
  column : Nat
  /-- The length of what is marked. -/
  length : Nat
  deriving DecidableEq

/-- A report about a file. -/
structure Diagnostic where
  /-- The identifier of the rule. -/
  rule : String
  /-- How serious it is. -/
  severity : Severity
  /-- What is wrong. -/
  message : String
  /-- Where it is wrong. -/
  location : Location
  /-- The line of the place. -/
  sourceLine : Option String
  /-- The lines before it with their numbers. -/
  contextBefore : List (Nat × String)
  /-- The lines after it with their numbers. -/
  contextAfter : List (Nat × String)
  /-- What a reader is told to do. -/
  help : Option String
  /-- The edit that puts it right. -/
  fix : Option Fix
  deriving DecidableEq

namespace Diagnostic

/-- A report without lines, help and edit. -/
def plain (rule : String) (severity : Severity) (message : String) (location : Location) :
    Diagnostic :=
  ⟨rule, severity, message, location, none, [], [], none, none⟩

/-- Lines with their numbers, counted from one: at most `count` of them after the first `skip`. -/
def numbered (lines : List String) (skip count : Nat) : List (Nat × String) :=
  ((lines.drop skip).take count).zipIdx.map fun (line, i) => (skip + i + 1, line)

/-- A report with up to `count` further lines before and after its place. -/
def withContext (d : Diagnostic) (lines : List String) (count : Nat) : Diagnostic :=
  let line := d.location.line
  if count = 0 || line = 0 then d
  else
    let first := line - (count + 1)
    { d with
      contextBefore := d.contextBefore ++ numbered lines first (line - 1 - first)
      contextAfter := d.contextAfter ++ numbered lines line count }

/-- Whether a report is an error. -/
def isError (d : Diagnostic) : Bool := d.severity = .error

/-- Whether a report is a warning. -/
def isWarning (d : Diagnostic) : Bool := d.severity = .warning

/-- Whether a report is information only. -/
def isInfo (d : Diagnostic) : Bool := d.severity = .info

/-- Whether a report stands no later in its file than another one. -/
def le (a b : Diagnostic) : Bool :=
  decide (a.location.line < b.location.line)
    || (decide (a.location.line = b.location.line)
      && decide (a.location.column ≤ b.location.column))

end Diagnostic

end TreeLayout
