import TreeLayout.Path
import TreeLayout.Report.Ansi
import TreeLayout.Report.Basic
import TreeLayout.Report.Seconds

/-!
# Reports for readers

The diagnostics stand under their files, each with the source line, a mark under the place, and the
help and the fix that there are. A summary counts files and diagnostics.
-/

namespace TreeLayout

/-- What a report for readers shows. -/
structure TextStyle where
  /-- Whether styles are used. -/
  colored : Bool
  /-- Whether source lines are shown. -/
  showSource : Bool
  /-- Whether help is shown. -/
  showHelp : Bool
  /-- Whether fixes are shown. -/
  showFixes : Bool
  /-- Whether a summary is shown. -/
  showStats : Bool
  /-- Whether the lines around a place are shown. -/
  showContext : Bool

namespace TextStyle

/-- A text in a style, if styles are used. -/
def paint (t : TextStyle) (style : Ansi.Style) (s : String) : String :=
  Ansi.paintIf t.colored style s

/-- The style of a severity. -/
def severityStyle : Severity → Ansi.Style
  | .error => .boldRed
  | .warning => .boldYellow
  | .info => .blue

/-- The line between line numbers and lines. -/
def gutter (t : TextStyle) : String := t.paint .blue "|"

/-- Room for a line number. -/
def numberField (n : Nat) : String := Text.padLeft 4 (toString n)

/-- A line around a place. -/
def contextLine (t : TextStyle) (entry : Nat × String) : String :=
  t.paint .dimmed (numberField entry.1) ++ " " ++ t.gutter ++ " " ++ t.paint .dimmed entry.2 ++ "\n"

/-- The mark under a place. -/
def markLine (t : TextStyle) (location : Location) : String :=
  if location.column = 0 then ""
  else
    "     " ++ t.gutter ++ " " ++ String.ofList (Column.spaces (location.column - 1))
      ++ t.paint .red (String.ofList (List.replicate (max location.length 1) '^')) ++ "\n"

/-- The source line of a diagnostic with its mark and the lines around it. -/
def sourceBlock (t : TextStyle) (d : Diagnostic) (line : String) : String :=
  let around (entries : List (Nat × String)) : String :=
    if t.showContext then String.join (entries.map t.contextLine) else ""
  "     " ++ t.gutter ++ "\n" ++ around d.contextBefore
    ++ t.paint .blue (numberField d.location.line) ++ " " ++ t.gutter ++ " " ++ line ++ "\n"
    ++ t.markLine d.location ++ around d.contextAfter

/-- The first line of a diagnostic. -/
def headLine (t : TextStyle) (d : Diagnostic) : String :=
  d.location.file ++ ":" ++ toString d.location.line ++ ":" ++ toString d.location.column ++ ": "
    ++ t.paint (severityStyle d.severity) d.severity.name ++ "[" ++ t.paint .cyan d.rule ++ "]: "
    ++ d.message ++ "\n"

/-- A diagnostic. -/
def renderDiagnostic (t : TextStyle) (d : Diagnostic) : String :=
  let source :=
    match d.sourceLine with
    | some line => if t.showSource then t.sourceBlock d line else ""
    | none => ""
  let help :=
    match d.help with
    | some help =>
      if t.showHelp then "     " ++ t.paint .blue "=" ++ " help: " ++ help ++ "\n" else ""
    | none => ""
  let fix :=
    match d.fix with
    | some fix =>
      if t.showFixes then
        "     " ++ t.paint .green "=" ++ " fix (" ++ fix.safety.name ++ "): "
          ++ t.paint .green fix.description ++ "\n"
      else ""
    | none => ""
  t.headLine d ++ source ++ help ++ fix

/-- A number of things. -/
def counted (n : Nat) (one many : String) : String :=
  toString n ++ " " ++ (if n = 1 then one else many)

/-- The summary of a report. -/
def summary (t : TextStyle) (r : Report) : String :=
  let count (n : Nat) (style : Ansi.Style) (one many : String) : List String :=
    if n = 0 then [] else [t.paint style (counted n one many)]
  let counts := count r.errorCount .red "error" "errors"
    ++ count r.warningCount .yellow "warning" "warnings"
    ++ count r.infoCount .blue "info" "infos"
  counted r.filesProcessed "file" "files" ++ " processed"
    ++ (if counts.isEmpty then "" else ": " ++ ", ".intercalate counts) ++ "\n"
    ++ "Finished in " ++ Seconds.text r.durationMs ++ "s\n"

/-- A report; the files stand in the order of their paths. -/
def render (t : TextStyle) (r : Report) : String :=
  let files := (Path.group (·.location.file) r.diagnostics).map fun (file, ds) =>
    t.paint .underline file ++ "\n" ++ String.join (ds.map fun d => t.renderDiagnostic d ++ "\n")
  String.join files ++ (if t.showStats then t.summary r else "")

end TextStyle

end TreeLayout
