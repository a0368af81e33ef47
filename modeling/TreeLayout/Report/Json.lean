import TreeLayout.Data.Json.Printer
import TreeLayout.Report.Basic

/-!
# Reports as JSON

The diagnostics in order, and a summary. What a diagnostic lacks is left out.
-/

namespace TreeLayout

/-- The value that holds a fix. -/
def Fix.toValue (f : Fix) : Value :=
  .map
    [("description", .text f.description), ("replacement", .text f.replacement),
     ("start_offset", .nat f.startOffset), ("end_offset", .nat f.endOffset),
     ("safety", .text f.safety.name)]

/-- The value that holds a diagnostic. -/
def Diagnostic.toValue (d : Diagnostic) : Value :=
  .map
    ([("rule_id", .text d.rule), ("severity", .text d.severity.name), ("message", .text d.message),
      ("file", .text d.location.file), ("line", .nat d.location.line),
      ("column", .nat d.location.column), ("length", .nat d.location.length)]
      ++ (d.sourceLine.map fun s => ("source_line", .text s)).toList
      ++ (d.help.map fun s => ("help", .text s)).toList
      ++ (d.fix.map fun f => ("fix", f.toValue)).toList)

/-- The value that holds a report. -/
def Report.toValue (r : Report) : Value :=
  .map
    [("diagnostics", .seq (r.diagnostics.map Diagnostic.toValue)),
     ("summary", .map
       [("files_processed", .nat r.filesProcessed), ("files_with_errors", .nat r.filesWithErrors),
        ("files_with_warnings", .nat r.filesWithWarnings), ("error_count", .nat r.errorCount),
        ("warning_count", .nat r.warningCount), ("info_count", .nat r.infoCount),
        ("duration_ms", .nat r.durationMs)])]

/-- How a report is written as JSON. -/
structure JsonStyle where
  /-- Whether each item has a line of its own. -/
  pretty : Bool

namespace JsonStyle

/-- A value as JSON. -/
def renderValue (s : JsonStyle) (v : Value) : String :=
  if s.pretty then Json.pretty v else Json.compact v

/-- A diagnostic. -/
def renderDiagnostic (s : JsonStyle) (d : Diagnostic) : String := s.renderValue d.toValue

/-- A report. -/
def render (s : JsonStyle) (r : Report) : String := s.renderValue r.toValue

end JsonStyle

end TreeLayout
