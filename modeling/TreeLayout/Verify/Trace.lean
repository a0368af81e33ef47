import TreeLayout.Text.Escaped
import TreeLayout.Verify.Machine

/-!
# Logs of runs

The texts of a run's log: one line for each step with the state before it and one for each finding.
Forks that could not be settled are listed apart.
-/

namespace TreeLayout.Machine

/-- A mode in a log. -/
def modeName : WrapMode → String
  | .unset => "Unset"
  | .sameLine => "SameLine"
  | .wrapped => "Wrapped"

/-- A node in a log, with its place and its text. -/
def showNode (t : Tree) : String :=
  t.kind.camelName ++ "(" ++ toString t.line ++ ":" ++ toString t.rawColumn ++ " "
    ++ Text.shown t.text ++ ")"

/-- A node that may be missing, in a log. -/
def showChild : Option Tree → String
  | none => "None"
  | some t => "Some(" ++ showNode t ++ ")"

/-- The line that an event adds to the log of a run on a construct of a kind. -/
def Event.traceLine? (kind : Kind) : Event → Option String
  | .step pc op child mode =>
    some (kind.displayName ++ " pc=" ++ toString pc ++ " " ++ op.display ++ " child="
      ++ showChild child ++ " mode=" ++ modeName mode)
  | .report f | .expression f => some ("finding " ++ f.text)
  | .ambiguous _ _ _ => none

/-- The warning about a fork both paths of which accept the child equally well. -/
def Event.warning? : Event → Option String
  | .ambiguous kind pc child =>
    some ("ambiguous FORK in " ++ kind.displayName ++ " program at step " ++ toString pc
      ++ ": both paths accept `" ++ child.describe ++ "` (line " ++ toString child.line
      ++ "); taking the branch")
  | _ => none

end TreeLayout.Machine
