import TreeLayout.Report.Basic

/-!
# Reports as workflow commands

One command a line marks each diagnostic in its file, and a notice closes a report that has any. In a
message the percent sign and the line ends are escaped.
-/

namespace TreeLayout

/-- What a report as workflow commands shows. -/
structure GithubStyle where
  /-- Whether a notice closes the report. -/
  showSummary : Bool

namespace GithubStyle

/-- A message inside a command. -/
def escape (s : String) : String :=
  Text.replaceChar '\n' "%0A" (Text.replaceChar '\r' "%0D" (Text.replaceChar '%' "%25" s))

/-- The level of a severity. -/
def level : Severity → String
  | .error => "error"
  | .warning => "warning"
  | .info => "notice"

/-- A diagnostic; lines and columns count from one. -/
def renderDiagnostic (d : Diagnostic) : String :=
  "::" ++ level d.severity ++ " file=" ++ d.location.file
    ++ ",line=" ++ toString (max d.location.line 1)
    ++ ",col=" ++ toString (max d.location.column 1)
    ++ ",title=" ++ d.rule ++ "::" ++ escape d.message

/-- The notice that closes a report. -/
def notice (r : Report) : String :=
  "::notice::Layout check complete: " ++ toString r.errorCount ++ " error(s), "
    ++ toString r.warningCount ++ " warning(s), " ++ toString r.infoCount ++ " info(s) in "
    ++ toString r.filesProcessed ++ " file(s)\n"

/-- A report. -/
def render (s : GithubStyle) (r : Report) : String :=
  String.join (r.diagnostics.map fun d => renderDiagnostic d ++ "\n")
    ++ (if s.showSummary && !r.diagnostics.isEmpty then notice r else "")

end GithubStyle

end TreeLayout
