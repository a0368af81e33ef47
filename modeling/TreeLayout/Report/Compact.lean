import TreeLayout.Report.Basic

/-!
# Reports for scripts

One line for each diagnostic: its place, its severity, its rule and its message.
-/

namespace TreeLayout

/-- What a report for scripts shows. -/
structure CompactStyle where
  /-- Whether severities are shown. -/
  showSeverity : Bool
  /-- Whether rules are shown. -/
  showRule : Bool

namespace CompactStyle

/-- A diagnostic. -/
def renderDiagnostic (s : CompactStyle) (d : Diagnostic) : String :=
  let place := d.location.file ++ ":" ++ toString d.location.line ++ ":"
    ++ toString d.location.column
  ": ".intercalate
    ([place] ++ (if s.showSeverity then [d.severity.name] else [])
      ++ (if s.showRule then [d.rule] else []) ++ [d.message])

/-- A report. -/
def render (s : CompactStyle) (r : Report) : String :=
  String.join (r.diagnostics.map fun d => s.renderDiagnostic d ++ "\n")

end CompactStyle

end TreeLayout
