import TreeLayout.Finding
import TreeLayout.Settings
import TreeLayout.Text.Basic

/-!
# Words for settings

Names of severities, wrap policies and output formats as people type them: case does not matter, and
some have short or long forms.
-/

namespace TreeLayout

/-- How results are written. -/
inductive OutputFormat where
  | text | json | github | compact
  deriving DecidableEq

namespace OutputFormat

/-- The name of a format. -/
def name : OutputFormat → String
  | .text => "text"
  | .json => "json"
  | .github => "github"
  | .compact => "compact"

/-- The format with exactly this name. -/
def ofName? (s : String) : Option OutputFormat :=
  [OutputFormat.text, .json, .github, .compact].find? fun f => f.name == s

/-- The format that a word means. -/
def ofWord? (s : String) : Option OutputFormat := ofName? (Text.lowercase s)

/-- What is said about a word that means no format. -/
def unknown (s : String) : String := "Unknown output format: " ++ s

end OutputFormat

namespace Severity

/-- The severity with exactly this name. -/
def ofName? (s : String) : Option Severity :=
  [Severity.info, .warning, .error].find? fun v => v.name == s

/-- The severity that a word means. -/
def ofWord? (s : String) : Option Severity :=
  match Text.lowercase s with
  | "info" | "hint" | "note" => some .info
  | "warning" | "warn" => some .warning
  | "error" | "err" => some .error
  | _ => none

end Severity

namespace WrapPolicy

/-- The policy that a word means; `_` and `-` are the same. -/
def ofWord? (s : String) : Option WrapPolicy :=
  match Text.replaceChar '_' "-" (Text.lowercase s) with
  | "must" | "must-wrap" => some .must
  | "may" | "may-wrap" => some .may
  | "no" | "no-wrap" => some .no
  | _ => none

/-- What is said about a word that means no policy. -/
def unknown (s : String) : String := "Unknown wrap policy: " ++ s

end WrapPolicy

end TreeLayout
