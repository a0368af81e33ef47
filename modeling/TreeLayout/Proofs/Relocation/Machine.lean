import TreeLayout.Proofs.Machine.Steps
import TreeLayout.Proofs.Relocation.Expression

/-!
# Runs on moved nodes

A program run on a moved node takes the same steps as on the node itself, and what it logs moves
(`run_relocate`). The control flow looks at kinds only; the layout checks compare columns that all
move alike. `step_relocate` says so for one step, and `runFrom_relocate` for a run. The children that
a run has consumed and those that are left stand where columns move (`State.Within`), since a run only
takes children from the one to the other.
-/

namespace TreeLayout.Machine

variable {ρ : Nat → Nat → Nat} {σ : Nat → Nat} {S : Position → Prop}

/-- A state of a run over moved children. -/
def State.relocate (ρ : Nat → Nat → Nat) (s : State) : State :=
  { s with consumed := s.consumed.map (Tree.relocate ρ), rest := s.rest.map (Tree.relocate ρ) }

/-- An event of a run over moved children. -/
def Event.relocate (ρ : Nat → Nat → Nat) (σ : Nat → Nat) : Event → Event
  | .step pc op child mode => .step pc op (child.map (Tree.relocate ρ)) mode
  | .report f => .report (f.relocate ρ σ)
  | .expression f => .expression (f.relocate ρ σ)
  | .ambiguous kind pc child => .ambiguous kind pc (child.relocate ρ)

/-- The second task is the first one on a moved node. -/
structure Task.Shifted (ρ : Nat → Nat → Nat) (σ : Nat → Nat) (S : Position → Prop) (m m' : Task) :
    Prop where
  /-- The contexts are shifted against each other. -/
  cx : Context.Shifted ρ σ S m.cx m'.cx
  /-- The node stands where columns move. -/
  within : m.node.Within S
  /-- The node is moved. -/
  node : m'.node = m.node.relocate ρ
  /-- The programs are the same. -/
  program : m'.program = m.program
  /-- The node is measured from the indentation of a line. -/
  baseline : m.cx.Baseline S m.base
  /-- The baseline is moved. -/
  base : m'.base = σ m.base
  /-- The same expressions stay on one line. -/
  inline : m'.inline = m.inline

/-- The children of a run stand at positions with a property. -/
structure State.Within (S : Position → Prop) (s : State) : Prop where
  /-- The children that were consumed. -/
  consumed : ∀ t ∈ s.consumed, t.Within S
  /-- The children that are left. -/
  rest : ∀ t ∈ s.rest, t.Within S

variable {m m' : Task} {s : State} {consumed : List Tree} {prev child : Tree}

/-- Control stands at the same step. -/
@[simp] theorem State.pc_relocate (s : State) : (s.relocate ρ).pc = s.pc := rfl

/-- The consumed children are the moved ones. -/
@[simp] theorem State.consumed_relocate (s : State) :
    (s.relocate ρ).consumed = s.consumed.map (Tree.relocate ρ) := rfl

/-- The children that are left are the moved ones. -/
@[simp] theorem State.rest_relocate (s : State) :
    (s.relocate ρ).rest = s.rest.map (Tree.relocate ρ) := rfl

/-- The mode is the same. -/
@[simp] theorem State.mode_relocate (s : State) : (s.relocate ρ).mode = s.mode := rfl

/-- The current child is the moved one. -/
@[simp] theorem State.current_relocate (s : State) :
    (s.relocate ρ).current = s.current.map (Tree.relocate ρ) :=
  List.head?_map

/-- The current child is of the same kind. -/
@[simp] theorem State.currentKind_relocate (s : State) :
    (s.relocate ρ).currentKind = s.currentKind := by
  rw [currentKind, current_relocate, Option.map_map, Tree.kind_comp_relocate, currentKind]

/-- The previous child is the moved one. -/
@[simp] theorem State.previous_relocate (s : State) :
    (s.relocate ρ).previous = s.previous.map (Tree.relocate ρ) := by
  rw [previous, previous, relocate, List.head?_map, Option.map_map, Option.map_map]
  congr 1
  exact funext (Tree.rightmost_relocate ρ)

namespace State.Within

/-- The current child lies within the places of the state. -/
theorem current (hs : s.Within S) (h : s.current = some child) : child.Within S :=
  hs.rest child (List.mem_of_head? h)

/-- The last leaf before the next child stands where the children consumed do. -/
theorem previous (hs : s.Within S) (h : s.previous = some prev) : prev.Within S := by
  unfold State.previous at h
  obtain ⟨last, hlast, rfl⟩ := Option.map_eq_some_iff.1 h
  exact (hs.consumed last (List.mem_of_head? hlast)).rightmost

/-- A step takes a child from those that are left to those consumed, or leaves both alone. -/
theorem of_next? {s' : State} (hs : s.Within S) (hnext : next? m s = some s') : s'.Within S := by
  obtain ⟨-, hconsumed, hrest⟩ | ⟨e, child, -, hrest, -, -, hconsumed⟩ := next?_eq_some hnext
  · exact ⟨hconsumed ▸ hs.consumed, hrest ▸ hs.rest⟩
  · have hall := hs.rest
    rw [hrest, List.forall_mem_cons] at hall
    refine ⟨?_, hall.2⟩
    rw [hconsumed, List.forall_mem_cons]
    exact ⟨hall.1, hs.consumed⟩

end State.Within

/-! ## Layout checks -/

/-- An element that should start a line one level in. -/
theorem Task.Shifted.mustWrapViolation_relocate (h : m.Shifted ρ σ S m') (hchild : child.Within S) :
    m'.cx.mustWrapViolation (child.relocate ρ) (m'.cx.stepIn m'.base) =
      (m.cx.mustWrapViolation child (m.cx.stepIn m.base)).relocate ρ σ := by
  rw [h.base, h.cx.stepIn h.baseline, h.cx.mustWrapViolation_relocate hchild]

/-- The indentation of an element that starts a line moves with it. -/
theorem checkIndented_relocate (h : m.Shifted ρ σ S m') (hconsumed : ∀ t ∈ consumed, t.Within S)
    (hchild : child.Within S) :
    checkIndented m' (consumed.map (Tree.relocate ρ)) (child.relocate ρ) =
      (checkIndented m consumed child).map (Finding.relocate ρ σ) := by
  have hgroup : (consumed.map (Tree.relocate ρ)).find? (fun c => c.kind.isCaseLike) =
      (consumed.find? fun c => c.kind.isCaseLike).map (Tree.relocate ρ) := by
    rw [List.find?_map]
    simp only [Function.comp_def, Tree.kind_relocate]
  have hbase : σ (m.cx.column child) = σ m.base ↔ m.cx.column child = m.base :=
    h.cx.eq_iff (Context.reached_column _ hchild) (.base h.baseline)
  unfold checkIndented
  simp only [hgroup, Tree.kind_relocate, h.base, h.cx.stepIn h.baseline,
    h.cx.expectColumn_relocate hchild (.stepIn h.baseline), h.cx.column_relocate hchild, hbase]
  split
  · rfl
  · cases hfind : consumed.find? fun c => c.kind.isCaseLike with
    | some group =>
      have hwithin := hconsumed group (List.mem_of_find?_eq_some hfind)
      have hexpect := h.cx.expectColumn_relocate hchild (Context.reached_column _ hwithin)
      rw [← h.cx.column_relocate hwithin] at hexpect
      exact hexpect
    | none =>
      simp only [Option.map_none]
      split <;> rfl

/-- Moved children end with a modifier if the children do. -/
theorem endsWithModifier_relocate (consumed : List Tree) :
    endsWithModifier (consumed.map (Tree.relocate ρ)) = endsWithModifier consumed := by
  cases consumed with
  | nil => rfl
  | cons last _ =>
    simp only [endsWithModifier, List.map_cons, Tree.kind_relocate, Tree.children_relocate,
      List.getLast?_map, Option.map_map, Tree.kind_comp_relocate]

/-- The first element of a run decides the same mode, and what is found at an element moves. -/
theorem element_relocate (h : m.Shifted ρ σ S m') (hs : s.Within S) (prev : Tree)
    (hchild : child.Within S) :
    element m' (s.relocate ρ) (prev.relocate ρ) (child.relocate ρ) =
      (element m s prev child).map (List.map (Finding.relocate ρ σ)) id := by
  unfold element
  simp only [sameLine_relocate, State.mode_relocate, State.consumed_relocate, h.program,
    checkIndented_relocate h hs.consumed hchild, h.mustWrapViolation_relocate hchild]
  cases s.mode with
  | unset => cases sameLine prev child <;> rfl
  | sameLine =>
    cases sameLine prev child with
    | true => rfl
    | false => cases m.program.multiplePerLine <;> rfl
  | wrapped =>
    cases sameLine prev child with
    | true => cases m.program.multiplePerLine <;> rfl
    | false => rfl

/-- The end of a run finds the moved findings. -/
theorem closeRun_relocate (h : m.Shifted ρ σ S m') (mode : WrapMode) (prev : Tree)
    (hchild : child.Within S) :
    closeRun m' mode (prev.relocate ρ) (child.relocate ρ) =
      (closeRun m mode prev child).map (Finding.relocate ρ σ) := by
  cases mode with
  | sameLine => exact h.cx.noWrap_relocate prev hchild
  | wrapped =>
    rw [closeRun, h.base]
    exact h.cx.mustWrap_relocate prev hchild (.base h.baseline)
  | unset =>
    rw [closeRun, h.base]
    exact h.cx.mayWrap_relocate prev hchild (.base h.baseline)

/-- What a layout check finds moves, and the mode after it is the same. -/
theorem applyLayout_relocate (h : m.Shifted ρ σ S m') (hs : s.Within S) (op : LayoutOp)
    (prev : Tree) (hchild : child.Within S) :
    applyLayout m' (s.relocate ρ) op (prev.relocate ρ) (child.relocate ρ) =
      (applyLayout m s op prev child).map (List.map (Finding.relocate ρ σ)) id := by
  have hnoWrap := h.cx.noWrap_relocate prev hchild
  cases op with
  | noWrap => exact congrArg (·, s.mode) hnoWrap
  | mayWrap =>
    rw [applyLayout, applyLayout, h.base, h.cx.mayWrap_relocate prev hchild (.base h.baseline)]
    rfl
  | mustWrap =>
    rw [applyLayout, applyLayout, h.base, h.cx.mustWrap_relocate prev hchild (.base h.baseline),
      sameLine_relocate, State.consumed_relocate, endsWithModifier_relocate]
    split <;> rfl
  | unindent => exact congrArg (·, WrapMode.unset) (closeRun_relocate h s.mode prev hchild)
  | indentIfChildren =>
    rw [applyLayout, applyLayout, Tree.hasChildren_relocate, element_relocate h hs prev hchild,
      hnoWrap]
    split <;> rfl
  | mayIndent => exact element_relocate h hs prev hchild
  | mustIndent =>
    rw [applyLayout, applyLayout, sameLine_relocate, State.consumed_relocate,
      checkIndented_relocate h hs.consumed hchild, h.mustWrapViolation_relocate hchild]
    split <;> rfl
  | endRun => rfl

/-- What is missing is found at the moved place. -/
theorem missing_relocate (h : m.Shifted ρ σ S m') (hs : s.Within S) :
    missing m' (s.relocate ρ) = (missing m s).relocate ρ σ := by
  unfold missing
  rw [State.previous_relocate]
  cases hprev : s.previous with
  | none =>
    rw [h.node]
    exact h.cx.missingFirst_relocate h.within
  | some prev =>
    have hfinding := h.cx.finding_relocate (hs.previous hprev) (.missingToken prev.text) none
    simpa [Message.shift] using hfinding

/-! ## Steps and runs -/

/-- Consuming a moved child is consuming the child and moving what comes of it. -/
theorem consume_relocate (h : m.Shifted ρ σ S m') (hs : s.Within S) (e : Expect) :
    consume m' (s.relocate ρ) e =
      (consume m s e).map (List.map (Event.relocate ρ σ)) (Option.map (State.relocate ρ)) := by
  unfold consume
  rw [State.rest_relocate]
  cases hrest : s.rest with
  | nil => simp [missing_relocate h hs, Event.relocate]
  | cons child rest =>
    have hchild := hs.rest child (by simp [hrest])
    have haccepts : e.accepts (child.relocate ρ) = e.accepts child := by
      rw [Expect.accepts, Tree.kind_relocate, Expect.accepts]
    -- An expression is measured from the line on which it starts.
    have hcheck := Expression.check_relocate h.cx hchild (Context.baseline_baseOf _ hchild) m.inline
    rw [← h.cx.baseOf_relocate hchild] at hcheck
    simp only [List.map_cons, haccepts, h.cx.unexpected_relocate hchild, h.inline, hcheck]
    split
    · rfl
    · split
      · simp [Event.relocate, State.relocate, Function.comp_def]
      · rfl

/-- A layout step about moved children is the step with what comes of it moved. -/
theorem layout_relocate (h : m.Shifted ρ σ S m') (hs : s.Within S) (op : LayoutOp) :
    layout m' (s.relocate ρ) op =
      (layout m s op).map (List.map (Event.relocate ρ σ)) (Option.map (State.relocate ρ)) := by
  unfold layout
  rw [State.current_relocate, State.previous_relocate]
  split
  · rfl
  · cases hchild : s.current with
    | none => rfl
    | some child =>
      cases s.previous with
      | none => rfl
      | some prev =>
        simp only [Option.map_some, applyLayout_relocate h hs op prev (hs.current hchild)]
        simp [Event.relocate, State.relocate]

/-- A fork goes the same way. -/
theorem fork_relocate (h : m.Shifted ρ σ S m') (s : State) (target : Nat) :
    fork m' (s.relocate ρ) target =
      (fork m s target).map (List.map (Event.relocate ρ σ)) (Option.map (State.relocate ρ)) := by
  unfold fork
  rw [h.program, State.currentKind_relocate, State.pc_relocate, State.current_relocate]
  split
  · rfl
  · rfl
  · cases s.current <;> rfl

/-- One step on moved children logs what it logs on the children, moved, and goes on from the moved
state. -/
theorem step_relocate (h : m.Shifted ρ σ S m') (hs : s.Within S) (op : Step) :
    step m' (s.relocate ρ) op =
      (step m s op).map (List.map (Event.relocate ρ σ)) (Option.map (State.relocate ρ)) := by
  cases op with
  | expect e => exact consume_relocate h hs e
  | fork target => exact fork_relocate h s target
  | branch | label => rfl
  | optional =>
    rw [step, step, State.currentKind_relocate, h.program]
    rfl
  | finish =>
    rw [step, step, State.current_relocate]
    cases hchild : s.current with
    | none => rfl
    | some child => simp [h.cx.extra_relocate (hs.current hchild), Event.relocate]
  | layout op => exact layout_relocate h hs op

/-- The next state is the moved one. -/
theorem next?_relocate (h : m.Shifted ρ σ S m') (hs : s.Within S) :
    next? m' (s.relocate ρ) = (next? m s).map (State.relocate ρ) := by
  rw [next?, next?, h.program, State.pc_relocate]
  cases m.program.step? s.pc with
  | none => rfl
  | some op => rw [Option.bind_some, Option.bind_some, step_relocate h hs, Prod.map_snd]

/-- What a step logs is moved. -/
theorem logged_relocate (h : m.Shifted ρ σ S m') (hs : s.Within S) :
    logged m' (s.relocate ρ) = (logged m s).map (Event.relocate ρ σ) := by
  rw [logged, logged, h.program, State.pc_relocate]
  cases m.program.step? s.pc with
  | none => rfl
  | some op =>
    simp only [step_relocate h hs, State.current_relocate, Prod.map_fst, List.map_cons]
    rfl

/-- A run on moved children logs what the run on the children logs, moved. -/
theorem runFrom_relocate (h : m.Shifted ρ σ S m') (fuel : Nat) (hs : s.Within S) :
    runFrom m' fuel (s.relocate ρ) = (runFrom m fuel s).map (Event.relocate ρ σ) := by
  induction fuel generalizing s with
  | zero => rfl
  | succ fuel ih =>
    rw [runFrom_succ, runFrom_succ, logged_relocate h hs, next?_relocate h hs, List.map_append]
    cases hnext : next? m s with
    | none => rfl
    | some s' =>
      have hrun := ih (hs.of_next? hnext)
      simp only [Option.map_some, Option.getD_some, hrun]

/-- The task on a moved node is the moved task. -/
theorem Task.Shifted.of {cx cx' : Context} (h : cx.Shifted ρ σ S cx') {f : Focus}
    (hf : f.root.Within S) (p : Program) :
    (Task.of cx f p).Shifted ρ σ S (Task.of cx' (f.relocate ρ) p) := by
  have hparent : (indentationParent f).tree.Within S :=
    Focus.within_of_root (root_indentationParent f ▸ hf)
  refine ⟨h, Focus.within_of_root hf, rfl, rfl, Context.baseline_baseOf _ hparent, ?_,
    keepsInline_relocate ρ f⟩
  simp only [Task.of, indentationParent_relocate, Focus.tree_relocate]
  exact h.baseOf_relocate hparent

/-- The log of a program run on a moved node. -/
theorem run_relocate {cx cx' : Context} (h : cx.Shifted ρ σ S cx') {f : Focus}
    (hf : f.root.Within S) (p : Program) :
    run cx' (f.relocate ρ) p = (run cx f p).map (Event.relocate ρ σ) := by
  have hstart : State.start (f.relocate ρ).tree = (State.start f.tree).relocate ρ := by
    simp [State.start, State.relocate]
  have hbound : stateBound (Task.of cx' (f.relocate ρ) p) = stateBound (Task.of cx f p) := by
    simp [stateBound, Task.of]
  have hchildren : (State.start f.tree).Within S :=
    ⟨by simp [State.start], (Focus.within_of_root hf).children⟩
  simp only [run, hstart, hbound]
  exact runFrom_relocate (Task.Shifted.of h hf p) _ hchildren

/-- The findings of a log that is moved. -/
theorem findings_relocate (events : List Event) :
    findings (events.map (Event.relocate ρ σ)) = (findings events).map (Finding.relocate ρ σ) := by
  have hfinding : ∀ ev : Event, (ev.relocate ρ σ).finding? =
      ev.finding?.map (Finding.relocate ρ σ) := by
    intro ev
    cases ev <;> rfl
  rw [findings, findings, List.filterMap_map, List.map_filterMap]
  congr 1
  exact funext hfinding

end TreeLayout.Machine
