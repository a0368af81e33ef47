import TreeLayout.Verify.Anchor
import TreeLayout.Verify.Expression
import TreeLayout.Verify.Lookahead

/-!
# The program machine

The machine runs the program of one construct over its children. It consumes them from left to right,
checks the layout before each, and hands expressions to the expression checker. A structural mismatch
is reported and ends the run; a layout mismatch is reported and the run goes on. The first element of a
run of elements decides whether the run stays on its line or wraps.
-/

namespace TreeLayout

/-- How the elements of the current run are laid out. -/
inductive WrapMode where
  /-- No element was placed yet. -/
  | unset
  /-- The first element stayed on the line. -/
  | sameLine
  /-- The first element started a line. -/
  | wrapped
  deriving DecidableEq

namespace Machine

/-- What does not change during a run. -/
structure Task where
  /-- The source and the settings. -/
  cx : Context
  /-- The construct whose children are verified. -/
  node : Tree
  /-- Its program. -/
  program : Program
  /-- The indentation that its children are measured from. -/
  base : Nat
  /-- Whether expressions among its children stay on one line. -/
  inline : Bool

/-- The task of running a program on a node in its surroundings. -/
def Task.of (cx : Context) (f : Focus) (program : Program) : Task where
  cx := cx
  node := f.tree
  program := program
  base := cx.baseOf (indentationParent f).tree
  inline := keepsInline f

/-- What changes during a run. -/
structure State where
  /-- The index of the next step. -/
  pc : Nat
  /-- The children consumed so far, last first. -/
  consumed : List Tree
  /-- The children that are left. -/
  rest : List Tree
  /-- How the elements of the current run are laid out. -/
  mode : WrapMode

/-- Before the first step no child is consumed. -/
def State.start (t : Tree) : State := ⟨0, [], t.children, .unset⟩

/-- The next child. -/
def State.current (s : State) : Option Tree := s.rest.head?

/-- The kind of the next child. -/
def State.currentKind (s : State) : Option Kind := s.current.map Tree.kind

/-- The last leaf of the child consumed last. -/
def State.previous (s : State) : Option Tree := s.consumed.head?.map Tree.rightmost

/-- What a run logs. -/
inductive Event where
  /-- A step is about to be taken. -/
  | step (pc : Nat) (step : Step) (child : Option Tree) (mode : WrapMode)
  /-- The machine reports a finding. -/
  | report (f : Finding)
  /-- The expression checker reports a finding. -/
  | expression (f : Finding)
  /-- Both paths of a fork in the program for a kind accept the child equally well. -/
  | ambiguous (kind : Kind) (pc : Nat) (child : Tree)

/-- The finding of an event. -/
def Event.finding? : Event → Option Finding
  | .report f | .expression f => some f
  | .step _ _ _ _ | .ambiguous _ _ _ => none

/-- An element that starts a line stands one level in. A case group stands in line with the one before
it, and the first one may also stand at the baseline. -/
def checkIndented (m : Task) (consumed : List Tree) (child : Tree) : List Finding :=
  let indent := m.cx.stepIn m.base
  if !child.kind.isCaseLike then m.cx.expectColumn child indent
  else
    match consumed.find? fun c => c.kind.isCaseLike with
    | some group => m.cx.expectColumn child (m.cx.column group)
    | none => if m.cx.column child = m.base then [] else m.cx.expectColumn child indent

/-- Whether the child consumed last is a modifier list that ends with a keyword. -/
def endsWithModifier (consumed : List Tree) : Bool :=
  match consumed with
  | [] => false
  | last :: _ =>
    last.kind = .construct .modifiers
      && (last.children.getLast?.map Tree.kind) = some (.token .modifier)

/-- An element of a run, after the leaf `prev`: the first one decides the mode, and the others follow it
unless elements may share lines. -/
def element (m : Task) (s : State) (prev child : Tree) : List Finding × WrapMode :=
  let same := sameLine prev child
  let multiple := m.program.multiplePerLine
  let violation := m.cx.mustWrapViolation child (m.cx.stepIn m.base)
  match s.mode, same with
  | .unset, true => ([], .sameLine)
  | .unset, false => (checkIndented m s.consumed child, .wrapped)
  | .sameLine, true => ([], .sameLine)
  | .sameLine, false =>
    (if multiple then checkIndented m s.consumed child else [violation], .sameLine)
  | .wrapped, false => (checkIndented m s.consumed child, .wrapped)
  | .wrapped, true => (if multiple then [] else [violation], .wrapped)

/-- The closing of a run, after the leaf `prev`: it stays on the line or wraps as the run does. -/
def closeRun (m : Task) (mode : WrapMode) (prev child : Tree) : List Finding :=
  match mode with
  | .sameLine => m.cx.noWrap prev child
  | .wrapped => m.cx.mustWrap prev child m.base
  | .unset => m.cx.mayWrap prev child m.base

/-- A layout check of a child after the leaf `prev`, and the mode after it. -/
def applyLayout (m : Task) (s : State) (op : LayoutOp) (prev child : Tree) :
    List Finding × WrapMode :=
  match op with
  | .noWrap => (m.cx.noWrap prev child, s.mode)
  | .mayWrap => (m.cx.mayWrap prev child m.base, s.mode)
  | .mustWrap =>
    -- What follows a plain list of modifier keywords may share their line.
    if sameLine prev child && endsWithModifier s.consumed then ([], s.mode)
    else (m.cx.mustWrap prev child m.base, s.mode)
  | .unindent => (closeRun m s.mode prev child, .unset)
  | .indentIfChildren =>
    if child.hasChildren then element m s prev child
    else (m.cx.noWrap prev child, .sameLine)
  | .mayIndent => element m s prev child
  | .mustIndent =>
    if sameLine prev child then
      ([m.cx.mustWrapViolation child (m.cx.stepIn m.base)], .wrapped)
    else (checkIndented m s.consumed child, .wrapped)
  | .endRun => ([], .unset)

/-- The finding for a child that should be there and is not. -/
def missing (m : Task) (s : State) : Finding :=
  match s.previous with
  | some prev => m.cx.finding prev (.missingToken prev.text) none
  | none => m.cx.missingFirst m.node

/-- The current child is matched with an expectation; no state is left if that fails. -/
def consume (m : Task) (s : State) (e : Expect) : List Event × Option State :=
  match s.rest with
  | [] => ([.report (missing m s)], none)
  | child :: rest =>
    if !e.accepts child then ([.report (m.cx.unexpected child e.expected)], none)
    else
      let inside :=
        if e = .expr then Expression.check m.cx child (m.cx.baseOf child) m.inline else []
      (inside.map .expression, some ⟨s.pc + 1, child :: s.consumed, rest, s.mode⟩)

/-- A layout check of the current child, if there is one and a child was consumed before it. The end of a
run needs neither. -/
def layout (m : Task) (s : State) (op : LayoutOp) : List Event × Option State :=
  if op = .endRun then ([], some { s with pc := s.pc + 1, mode := .unset })
  else
    match s.current, s.previous with
    | some child, some prev =>
      let (findings, mode) := applyLayout m s op prev child
      (findings.map .report, some { s with pc := s.pc + 1, mode := mode })
    | _, _ => ([], some { s with pc := s.pc + 1 })

/-- The choice of a fork. -/
def fork (m : Task) (s : State) (target : Nat) : List Event × Option State :=
  match m.program.choose s.pc target s.currentKind with
  | .stay => ([], some { s with pc := s.pc + 1 })
  | .jump => ([], some { s with pc := target })
  | .ambiguous =>
    ((s.current.map fun child => .ambiguous m.program.kind s.pc child).toList,
      some { s with pc := target })

/-- Where a run goes on at an optional expectation: after it if it does not accept the current child. -/
def afterOptional (p : Program) (pc : Nat) (child : Option Kind) : Nat :=
  match p.nextExpect? (pc + 1) with
  | some (index, e) => if e.acceptsCurrent child then pc + 1 else index + 1
  | none => pc + 1

/-- The effect of one step: what it logs, and the state after it unless it ends the run. -/
def step (m : Task) (s : State) : Step → List Event × Option State
  | .expect e => consume m s e
  | .fork target => fork m s target
  | .branch target => ([], some { s with pc := target })
  | .label _ => ([], some { s with pc := s.pc + 1 })
  | .optional => ([], some { s with pc := afterOptional m.program s.pc s.currentKind })
  | .finish => ((s.current.map fun child => .report (m.cx.extra child)).toList, none)
  | .layout op => layout m s op

/-- At most `fuel` steps from a state. -/
def runFrom (m : Task) : (fuel : Nat) → State → List Event
  | 0, _ => []
  | fuel + 1, s =>
    match m.program.step? s.pc with
    | none => []
    | some op =>
      let (events, next) := step m s op
      .step s.pc op s.current s.mode
        :: (events ++
          match next with
          | none => []
          | some s => runFrom m fuel s)

/-- The number of states that a run can pass through without repeating one: a step, a number of children
consumed, and one of three modes. A run that needs more steps than that never ends. -/
def stateBound (m : Task) : Nat :=
  3 * m.program.steps.length * (m.node.children.length + 1)

/-- The log of running a program on a node in its surroundings. -/
def run (cx : Context) (f : Focus) (program : Program) : List Event :=
  let m := Task.of cx f program
  runFrom m (stateBound m + 1) (.start f.tree)

/-- The findings of running a program on a node. -/
def findings (events : List Event) : List Finding := events.filterMap Event.finding?

end Machine

end TreeLayout
