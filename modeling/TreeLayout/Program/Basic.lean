import TreeLayout.Text.Basic
import TreeLayout.Tree.Basic

/-!
# Layout programs

A program describes the children that one kind of construct expects, in order, and the wrap policy
between them. Its steps expect a child, steer the control flow, or check the layout before the next
child. Steps are authored with labels; `Program.resolve` turns jumps to labels into jumps to steps and
refuses programs that are not well formed.
-/

namespace TreeLayout

/-- Which children a step accepts. -/
inductive Expect where
  /-- A child of one kind. -/
  | kind (k : Kind)
  /-- Any child. -/
  | any
  /-- An expression, which is checked once it is consumed. -/
  | expr
  deriving DecidableEq

namespace Expect

/-- Whether a child of a kind is accepted. -/
def acceptsKind : Expect → Kind → Bool
  | .kind k, other => other = k
  | .any, _ => true
  | .expr, other => other.isExpression

/-- Whether a child is accepted. -/
def accepts (e : Expect) (t : Tree) : Bool := e.acceptsKind t.kind

/-- How specific the expectation is; the more specific of two accepting paths is taken. -/
def specificity : Expect → Nat
  | .kind _ => 3
  | .expr => 2
  | .any => 1

/-- The expectation in a listing. -/
def display : Expect → String
  | .kind k => "`" ++ k.displayName ++ "`"
  | .any => "ANY"
  | .expr => "EXPR"

/-- How messages name what was expected. -/
def expected : Expect → String
  | .kind k => k.displayName
  | .any => "token"
  | .expr => "expression"

end Expect

/-- The layout checks that a program may ask for before a child. -/
inductive LayoutOp where
  /-- The child may start a run of elements one level in, or go on with one. -/
  | mayIndent
  /-- Like `mayIndent`, but a child without children stays on the line. -/
  | indentIfChildren
  /-- Like `mayIndent`, but the child starts a line. -/
  | mustIndent
  /-- The child closes the run. -/
  | unindent
  /-- The run is over and the child is not checked. -/
  | endRun
  /-- The child stays on the line or wraps back to the baseline. -/
  | mayWrap
  /-- The child wraps back to the baseline. -/
  | mustWrap
  /-- The child stays on the line. -/
  | noWrap
  deriving DecidableEq

/-- The layout check in a listing. -/
def LayoutOp.display : LayoutOp → String
  | .mayIndent => "MAY_INDENT"
  | .indentIfChildren => "INDENT_IF_CHILDREN"
  | .mustIndent => "MUST_INDENT"
  | .unindent => "UNINDENT"
  | .endRun => "END_RUN"
  | .mayWrap => "MAY_WRAP"
  | .mustWrap => "MUST_WRAP"
  | .noWrap => "NO_WRAP"

/-- One step of a program. A jump is a number: a label while the program is authored, the index of a
step once it is resolved. -/
inductive Step where
  /-- A child is expected and consumed. -/
  | expect (e : Expect)
  /-- Goes to the jump if the path there accepts the current child better. -/
  | fork (jump : Nat)
  /-- Goes to the jump. -/
  | branch (jump : Nat)
  /-- A place that jumps may name. -/
  | label (n : Nat)
  /-- The next expectation is skipped if it does not accept the current child. -/
  | optional
  /-- The program ends; no child may be left. -/
  | finish
  /-- A layout check before the current child. -/
  | layout (op : LayoutOp)
  deriving DecidableEq

namespace Step

/-- Whether the step checks the layout. -/
def isLayout : Step → Bool
  | .layout _ => true
  | _ => false

/-- Whether the step consumes a child. -/
def isExpect : Step → Bool
  | .expect _ => true
  | _ => false

/-- A step of a resolved program in a listing. -/
def display : Step → String
  | .expect e => e.display
  | .fork jump => "FORK @" ++ toString jump
  | .branch jump => "BRANCH @" ++ toString jump
  | .label n => "LABEL " ++ toString n
  | .optional => "OPTIONAL"
  | .finish => "END"
  | .layout op => op.display

end Step

/-- Why a list of steps is no program. -/
inductive ProgramFault where
  /-- A jump names a label that is not defined. -/
  | danglingLabel (label : Nat)
  /-- A label is defined twice. -/
  | duplicateLabel (label : Nat)
  /-- The last step is not the end. -/
  | missingEnd
  /-- A branch goes back without a child being expected in between. -/
  | emptyLoop (index : Nat)
  deriving DecidableEq

/-- A fault of the program for a kind. -/
structure ProgramError where
  /-- The kind that the program was for. -/
  kind : Kind
  /-- What is wrong with it. -/
  fault : ProgramFault
  deriving DecidableEq

/-- The text of a fault. -/
def ProgramError.message (e : ProgramError) : String :=
  e.kind.displayName ++ ": " ++
    match e.fault with
    | .danglingLabel label => "jump to undefined label " ++ toString label
    | .duplicateLabel label => "label " ++ toString label ++ " defined more than once"
    | .missingEnd => "program must finish with END"
    | .emptyLoop index => "loop at step " ++ toString index ++ " consumes no child"

/-- The steps for one kind of construct, with jumps resolved. -/
structure Program where
  /-- The kind of construct that the program is for. -/
  kind : Kind
  /-- The steps. -/
  steps : List Step
  /-- Whether the elements of a run may share lines. -/
  multiplePerLine : Bool
  deriving DecidableEq

namespace Program

/-- The label that a step defines. -/
def labelOf? : Step → Option Nat
  | .label n => some n
  | _ => none

/-- The first label that occurs a second time. -/
def duplicate? (seen : List Nat) : List Nat → Option Nat
  | [] => none
  | n :: ns => if seen.contains n then some n else duplicate? (n :: seen) ns

/-- The index of the step after a label. -/
def target? (authored : List Step) (label : Nat) : Option Nat :=
  (authored.findIdx? (· = .label label)).map (· + 1)

/-- A step with its jump resolved. -/
def resolveStep (authored : List Step) : Step → Except ProgramFault Step
  | .fork label =>
    match target? authored label with
    | some index => .ok (.fork index)
    | none => .error (.danglingLabel label)
  | .branch label =>
    match target? authored label with
    | some index => .ok (.branch index)
    | none => .error (.danglingLabel label)
  | step => .ok step

/-- Whether the step at an index branches back over steps that expect no child. -/
def isEmptyLoop (steps : List Step) (index : Nat) : Bool :=
  match steps[index]? with
  | some (.branch target) =>
    decide (target ≤ index) && !((steps.take index).drop target).any Step.isExpect
  | _ => false

/-- The steps with jumps resolved, if labels are defined once, the last step is the end, and no branch
goes back without a child being expected in between. -/
def resolveSteps (authored : List Step) : Except ProgramFault (List Step) := do
  if let some label := duplicate? [] (authored.filterMap labelOf?) then
    throw (.duplicateLabel label)
  let steps ← authored.mapM (resolveStep authored)
  if steps.getLast? ≠ some .finish then
    throw .missingEnd
  if let some index := (List.range steps.length).find? (isEmptyLoop steps) then
    throw (.emptyLoop index)
  return steps

/-- The program for a kind from its authored steps. -/
def resolve (kind : Kind) (authored : List Step) (multiplePerLine : Bool) :
    Except ProgramError Program :=
  match resolveSteps authored with
  | .ok steps => .ok ⟨kind, steps, multiplePerLine⟩
  | .error fault => .error ⟨kind, fault⟩

/-- The step at an index. -/
def step? (p : Program) (pc : Nat) : Option Step := p.steps[pc]?

/-- The listing of a program. -/
def display (p : Program) : String :=
  let lines := p.steps.zipIdx.map fun (step, index) =>
    "\n  " ++ Text.padLeft 3 (toString index) ++ "  " ++ step.display
  p.kind.displayName ++ (if p.multiplePerLine then " (multiple per line)" else "") ++ ":"
    ++ String.join lines

end Program

end TreeLayout
