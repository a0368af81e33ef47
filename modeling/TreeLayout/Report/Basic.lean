import TreeLayout.Diagnostic

/-!
# Reports

A report is the outcome of a run: the diagnostics of all files and their counts. The reports of single
files are added up in order.
-/

namespace TreeLayout

/-- The outcome of a run. -/
structure Report where
  /-- The diagnostics in order. -/
  diagnostics : List Diagnostic
  /-- How many files were verified. -/
  filesProcessed : Nat
  /-- How many of them have errors. -/
  filesWithErrors : Nat
  /-- How many of them have warnings. -/
  filesWithWarnings : Nat
  /-- How many errors there are. -/
  errorCount : Nat
  /-- How many warnings there are. -/
  warningCount : Nat
  /-- How many diagnostics are information only. -/
  infoCount : Nat
  /-- How many milliseconds the run took. -/
  durationMs : Nat

namespace Report

/-- The report of a run without files. -/
def empty : Report := ⟨[], 0, 0, 0, 0, 0, 0, 0⟩

/-- The report of one file. -/
def ofFile (diagnostics : List Diagnostic) : Report :=
  let errors := diagnostics.countP Diagnostic.isError
  let warnings := diagnostics.countP Diagnostic.isWarning
  { diagnostics
    filesProcessed := 1
    filesWithErrors := if errors = 0 then 0 else 1
    filesWithWarnings := if warnings = 0 then 0 else 1
    errorCount := errors
    warningCount := warnings
    infoCount := diagnostics.countP Diagnostic.isInfo
    durationMs := 0 }

/-- A report with another one added. -/
def merge (a b : Report) : Report where
  diagnostics := a.diagnostics ++ b.diagnostics
  filesProcessed := a.filesProcessed + b.filesProcessed
  filesWithErrors := a.filesWithErrors + b.filesWithErrors
  filesWithWarnings := a.filesWithWarnings + b.filesWithWarnings
  errorCount := a.errorCount + b.errorCount
  warningCount := a.warningCount + b.warningCount
  infoCount := a.infoCount + b.infoCount
  durationMs := a.durationMs

/-- Whether there are errors. -/
def hasErrors (r : Report) : Bool := r.errorCount != 0

/-- Whether there are warnings. -/
def hasWarnings (r : Report) : Bool := r.warningCount != 0

/-- Whether there are neither errors nor warnings. -/
def isClean (r : Report) : Bool := !r.hasErrors && !r.hasWarnings

/-- The exit code of a run: two with errors, one with warnings and otherwise zero. -/
def exitCode (r : Report) : Nat :=
  if r.hasErrors then 2 else if r.hasWarnings then 1 else 0

end Report

end TreeLayout
