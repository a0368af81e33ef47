import TreeLayout.Proofs.Table.Visits
import TreeLayout.Proofs.Tree.Leaves
import TreeLayout.Proofs.Verdict.Expression

/-!
# At most one verdict per token

A token is the first leaf of many nested nodes, and a boundary may be checked before each of them.
Still a walk reports at most one layout finding on it, if no two leaves stand at one place
(`layout_findings_nodup`).

The programs of a table check a boundary only right before they expect the child after it
(`Program.ChecksChildren`). So what a run can still report at a place is known from its state
(`Machine.due`): it is about the children that are left, apart from the first one once its boundary
is checked, and about what the expressions among them hold. Each step lowers that by what it reports
(`Machine.verdicts_logged_add_due_le`). No program is run on expressions, so each node other than a
first child has its boundary in one place only, and counting leaves gives the result
(`verdicts_walkFindings_le`).
-/

namespace TreeLayout

open TreeLayout.Tree (starts judged judged_composite)

/-! ## Boundaries of programs -/

/-- Whether each layout check, apart from the end of a run, stands right before an expectation. -/
def checksChildren : List Step → Bool
  | [] => true
  | .layout op :: steps =>
    ((steps.head?.map Step.isExpect).getD false || op = .endRun) && checksChildren steps
  | _ :: steps => checksChildren steps

/-- A step of a list that checks children is no layout check, or the end of a run, or stands right
before an expectation. -/
theorem exists_expect_of_checksChildren {steps : List Step} (h : checksChildren steps = true)
    {pc : Nat} {op : LayoutOp} (hop : steps[pc]? = some (.layout op)) (hend : op ≠ .endRun) :
    ∃ e, steps[pc + 1]? = some (.expect e) := by
  induction steps generalizing pc with
  | nil => simp at hop
  | cons step steps ih =>
    cases pc with
    | zero =>
      obtain rfl : step = .layout op := by simpa using hop
      rw [checksChildren, Bool.and_eq_true] at h
      cases steps with
      | nil => simp [hend] at h
      | cons next steps =>
        cases next with
        | expect e => exact ⟨e, rfl⟩
        | _ => simp [hend, Step.isExpect] at h
    | succ pc =>
      have hlater : checksChildren steps = true := by
        cases step with
        | layout op => exact (Bool.and_eq_true_iff.1 h).2
        | _ => exact h
      exact ih hlater hop

/-- A program checks a boundary only right before the child that stands after it. -/
def Program.ChecksChildren (p : Program) : Prop :=
  ∀ pc op, p.step? pc = some (.layout op) → op ≠ .endRun → ∃ e, p.step? (pc + 1) = some (.expect e)

/-- A step that is no jump is resolved to itself. -/
theorem Program.resolveStep_eq {authored : List Step} {a b : Step}
    (h : resolveStep authored a = .ok b) (hjump : b.jump? = none ∨ a.jump? = none) : a = b := by
  cases a with
  | fork | branch =>
    rw [resolveStep] at h
    split at h
    · cases h
      obtain hjump | hjump := hjump <;> cases hjump
    · cases h
  | _ =>
    cases h
    rfl

/-- A program checks children if its authored steps do. -/
theorem Program.checksChildren_of_resolve {kind : Kind} {authored : List Step} {multiple : Bool}
    {p : Program} (h : resolve kind authored multiple = .ok p)
    (hauthored : checksChildren authored = true) : p.ChecksChildren := by
  intro pc op hop hend
  unfold resolve at h
  split at h
  · rename_i steps hsteps
    cases h
    -- Resolving changes jumps only, so checks and expectations stay where they are.
    obtain ⟨-, hall, -, -⟩ := resolveSteps_eq_ok hsteps
    obtain ⟨a, ha, hresolve⟩ := exists_getElem?_of_forall₂ hall hop
    obtain rfl := resolveStep_eq hresolve (.inl rfl)
    obtain ⟨e, he⟩ := exists_expect_of_checksChildren hauthored ha hend
    obtain ⟨b, hb, hresolve'⟩ := exists_getElem?_of_forall₂ hall.flip he
    obtain rfl := resolveStep_eq hresolve' (.inr rfl)
    exact ⟨e, hb⟩
  · cases h

/-- All templates check children. -/
theorem Template.checksChildren_authored? {s : LayoutSettings} {kind : ConstructKind}
    {steps : List Step} {multiple : Bool} (h : authored? s kind = some (steps, multiple)) :
    checksChildren steps = true := by
  -- With one layout check for each policy the steps are explicit.
  cases kind <;>
    simp only [authored?, modifiers, declaration, list, firstStep, statementBody, ifStatement,
      forStatement, wrapStep_eq, indentStep_eq, restStep_eq, closeStep_eq, ← apply_ite Step.layout,
      Option.some.injEq, Prod.mk.injEq, reduceCtorEq] at h
  all_goals
    obtain ⟨rfl, rfl⟩ := h
    rfl

/-- The programs of a table check boundaries right before children. -/
theorem ProgramTable.checksChildren_of_mem {s : LayoutSettings} {table : ProgramTable}
    (h : ofSettings s = .ok table) {p : Program} (hp : p ∈ table.programs) : p.ChecksChildren := by
  obtain ⟨kind, steps, multiple, hauthored, hresolve⟩ := (mem_programs_iff h).1 hp
  exact Program.checksChildren_of_resolve hresolve (Template.checksChildren_authored? hauthored)

/-! ## Runs -/

namespace Machine

variable {q : Position} {m : Task} {s : State}

/-- Indentation gives at most one verdict on the element. -/
theorem verdicts_checkIndented_le (q : Position) (m : Task) (consumed : List Tree) (child : Tree) :
    verdicts q (checkIndented m consumed child) ≤ starts q child := by
  simp only [checkIndented]
  split
  · exact m.cx.verdicts_expectColumn_le q child _
  · split
    · exact m.cx.verdicts_expectColumn_le q child _
    · split
      · exact Nat.zero_le _
      · exact m.cx.verdicts_expectColumn_le q child _

/-- An element gets at most one verdict. -/
theorem verdicts_element_le (q : Position) (m : Task) (s : State) (prev child : Tree) :
    verdicts q (element m s prev child).1 ≤ starts q child := by
  have hindented := verdicts_checkIndented_le q m s.consumed child
  have hviolation := m.cx.verdicts_finding_le q child (.mustWrap child.leftmost.describe)
    (some (m.cx.stepIn m.base))
  simp only [element]
  split
  · exact Nat.zero_le _
  · exact hindented
  · exact Nat.zero_le _
  · split
    · exact hindented
    · exact hviolation
  · exact hindented
  · split
    · exact Nat.zero_le _
    · exact hviolation

/-- The end of a run gives at most one verdict on the child after it. -/
theorem verdicts_closeRun_le (q : Position) (m : Task) (mode : WrapMode) (prev child : Tree) :
    verdicts q (closeRun m mode prev child) ≤ starts q child := by
  cases mode with
  | sameLine => exact m.cx.verdicts_noWrap_le q prev child
  | wrapped => exact m.cx.verdicts_mustWrap_le q prev child m.base
  | unset => exact m.cx.verdicts_mayWrap_le q prev child m.base

/-- A layout check is about the child after it. -/
theorem verdicts_applyLayout_le (q : Position) (m : Task) (s : State) (op : LayoutOp)
    (prev child : Tree) : verdicts q (applyLayout m s op prev child).1 ≤ starts q child := by
  cases op with
  | noWrap => exact m.cx.verdicts_noWrap_le q prev child
  | mayWrap => exact m.cx.verdicts_mayWrap_le q prev child m.base
  | mustWrap =>
    rw [applyLayout]
    split
    · exact Nat.zero_le _
    · exact m.cx.verdicts_mustWrap_le q prev child m.base
  | unindent => exact verdicts_closeRun_le q m s.mode prev child
  | indentIfChildren =>
    rw [applyLayout]
    split
    · exact verdicts_element_le q m s prev child
    · exact m.cx.verdicts_noWrap_le q prev child
  | mayIndent => exact verdicts_element_le q m s prev child
  | mustIndent =>
    rw [applyLayout]
    split
    · exact m.cx.verdicts_finding_le q child _ _
    · exact verdicts_checkIndented_le q m s.consumed child
  | endRun => exact Nat.zero_le _

/-- Whether the boundary before the next child cannot be checked any more: no child stands before
it, or the child is expected now. -/
def settled (p : Program) (s : State) : Bool :=
  s.consumed.isEmpty || ((p.step? s.pc).map Step.isExpect).getD false

/-- The most layout findings that a run can report at a place from a state on. -/
def due (q : Position) (p : Program) (s : State) : Nat :=
  match s.rest with
  | [] => 0
  | child :: rest =>
    (if settled p s then 0 else starts q child) + judged q child +
      ((rest.map (starts q)).sum + (rest.map (judged q)).sum)

/-- Once the boundary before the next child is settled, only what is inside the child is due for it.
-/
theorem due_of_settled {p : Program} {child : Tree} {rest : List Tree} (h : settled p s = true)
    (hrest : s.rest = child :: rest) :
    due q p s = judged q child + ((rest.map (starts q)).sum + (rest.map (judged q)).sum) := by
  simp [due, hrest, h]

/-- Before the boundary of the current child is settled, that child is due as well. -/
theorem due_of_not_settled {p : Program} {child : Tree} {rest : List Tree}
    (h : settled p s = false) (hrest : s.rest = child :: rest) :
    due q p s = starts q child + judged q child +
      ((rest.map (starts q)).sum + (rest.map (judged q)).sum) := by
  simp [due, hrest, h]

/-- No more is due than the children that are left and the judged nodes in them. -/
theorem due_le_sum (q : Position) (p : Program) (s : State) :
    due q p s ≤ (s.rest.map (starts q)).sum + (s.rest.map (judged q)).sum := by
  unfold due
  cases s.rest with
  | nil => exact Nat.le_refl 0
  | cons child rest =>
    simp only [List.map_cons, List.sum_cons]
    split <;> omega

/-- A step that expects no child and finds nothing leaves no more to report. -/
theorem quiet_add_due_le {op : Step} (hop : m.program.step? s.pc = some op)
    (hexpect : op.isExpect = false) {events : List Event} (hquiet : findings events = [])
    {s' : State} (hconsumed : s'.consumed = s.consumed) (hrest : s'.rest = s.rest) :
    verdicts q (findings events) + due q m.program s' ≤ due q m.program s := by
  have hle := due_le_sum q m.program s'
  rw [hquiet, verdicts_nil, Nat.zero_add]
  rw [hrest] at hle
  cases hs : s.rest with
  | nil => simpa [due, hs] using hle
  | cons child rest =>
    cases hempty : s.consumed.isEmpty with
    | true =>
      -- Before the first child there is no boundary.
      rw [due_of_settled (s := s) (by simp [settled, hempty]) hs,
        due_of_settled (by simp [settled, hconsumed, hempty]) (hrest.trans hs)]
    | false =>
      rw [due_of_not_settled (s := s) (by simp [settled, hop, hexpect, hempty]) hs]
      simp only [hs, List.map_cons, List.sum_cons] at hle
      omega

/-- A step that ends the run without a layout finding. -/
theorem last_add_due_le {events : List Event} (hnone : verdicts q (findings events) = 0) :
    verdicts q (findings events) + ((none : Option State).map (due q m.program)).getD 0 ≤
      due q m.program s := by
  rw [hnone]
  exact Nat.zero_le _

/-- A missing child is no verdict on a layout. -/
theorem verdicts_missing (m : Task) (s : State) : verdicts q [missing m s] = 0 := by
  unfold missing
  split
  · exact m.cx.verdicts_structural q rfl _ none
  · exact m.cx.verdicts_missingFirst q m.node

/-- What is found inside an accepted child is due for it. -/
theorem verdicts_consume_add_due_le {e : Expect} (hop : m.program.step? s.pc = some (.expect e)) :
    verdicts q (findings (consume m s e).1) + ((consume m s e).2.map (due q m.program)).getD 0 ≤
      due q m.program s := by
  unfold consume
  cases hrest : s.rest with
  | nil => exact last_add_due_le (verdicts_missing m s)
  | cons child rest =>
    simp only
    split
    · exact last_add_due_le (m.cx.verdicts_unexpected q child e.expected)
    · have hinside : verdicts q (if e = .expr then
          Expression.check m.cx child (m.cx.baseOf child) m.inline else []) ≤ judged q child := by
        split
        · exact Expression.verdicts_check_le q m.cx child _ _
        · exact Nat.zero_le _
      have hlater := due_le_sum q m.program ⟨s.pc + 1, child :: s.consumed, rest, s.mode⟩
      rw [due_of_settled (by simp [settled, hop, Step.isExpect]) hrest, findings_map_expression]
      exact Nat.add_le_add hinside hlater

/-- A layout check is about the next child, which is expected right after it. -/
theorem verdicts_layout_add_due_le (hp : m.program.ChecksChildren) {op : LayoutOp}
    (hop : m.program.step? s.pc = some (.layout op)) :
    verdicts q (findings (layout m s op).1) + ((layout m s op).2.map (due q m.program)).getD 0 ≤
      due q m.program s := by
  by_cases hend : op = .endRun
  · subst hend
    exact quiet_add_due_le hop rfl rfl rfl rfl
  obtain ⟨e, he⟩ := hp s.pc op hop hend
  rw [layout, if_neg hend]
  split
  · rename_i child prev hcurrent hprevious
    obtain ⟨rest, hrest⟩ := List.head?_eq_some_iff.1 hcurrent
    have hconsumed : s.consumed.isEmpty = false := by
      cases hconsumed : s.consumed with
      | nil => simp [State.previous, hconsumed] at hprevious
      | cons => rfl
    have hcheck := verdicts_applyLayout_le q m s op prev child
    have hnext : due q m.program
        { s with pc := s.pc + 1, mode := (applyLayout m s op prev child).2 } =
        judged q child + ((rest.map (starts q)).sum + (rest.map (judged q)).sum) :=
      due_of_settled (by simp [settled, he, Step.isExpect]) hrest
    rw [due_of_not_settled (by simp [settled, hop, Step.isExpect, hconsumed]) hrest]
    simp only [findings_map_report, Option.map_some, Option.getD_some, hnext]
    omega
  · exact quiet_add_due_le hop rfl rfl rfl rfl

/-- What is due before a step is enough for what the step reports and for what is due after it. -/
theorem verdicts_step_add_due_le (hp : m.program.ChecksChildren) {op : Step}
    (hop : m.program.step? s.pc = some op) :
    verdicts q (findings (step m s op).1) + ((step m s op).2.map (due q m.program)).getD 0 ≤
      due q m.program s := by
  cases op with
  | expect e => exact verdicts_consume_add_due_le hop
  | fork target =>
    have hquiet : findings (fork m s target).1 = [] := by
      unfold fork
      split
      · rfl
      · rfl
      · cases s.current <;> rfl
    rw [step, fork_snd]
    exact quiet_add_due_le hop rfl hquiet rfl rfl
  | branch | label | optional => exact quiet_add_due_le hop rfl rfl rfl rfl
  | finish =>
    rw [step]
    cases s.current with
    | none => exact Nat.zero_le _
    | some child =>
      exact last_add_due_le (m.cx.verdicts_extra q child)
  | layout op => exact verdicts_layout_add_due_le hp hop

/-- A run reports no more layout findings at a place than are due in its first state. -/
theorem verdicts_runFrom_le (hp : m.program.ChecksChildren) (fuel : Nat) (s : State) :
    verdicts q (findings (runFrom m fuel s)) ≤ due q m.program s := by
  induction fuel generalizing s with
  | zero => exact Nat.zero_le _
  | succ fuel ih =>
    rw [runFrom_succ, findings_append, verdicts_append, findings_logged, next?]
    cases hop : m.program.step? s.pc with
    | none => exact Nat.zero_le _
    | some op =>
      have hstep := verdicts_step_add_due_le (q := q) hp hop
      simp only [Option.map_some, Option.getD_some, Option.bind_some]
      cases hnext : (step m s op).2 with
      | none =>
        rw [hnext] at hstep
        exact hstep
      | some s' =>
        have hlater := ih s'
        rw [hnext] at hstep
        simp only [Option.map_some, Option.getD_some] at hstep ⊢
        omega

end Machine

/-! ## Walks -/

open Focus Machine

variable {s : LayoutSettings} {table : ProgramTable}

/-- The visit of a node reports no more than is due before its first child. -/
theorem verdicts_visitFindings_le_due (h : ProgramTable.ofSettings s = .ok table) (q : Position)
    (cx : Context) (f : Focus) :
    visitFindings cx table f = [] ∨ ∃ p, verdicts q (visitFindings cx table f) ≤
      due q p (.start f.tree) := by
  unfold visitFindings visit
  cases hget : table.get? f.tree.kind with
  | none => exact .inl rfl
  | some p =>
    have hchecks := ProgramTable.checksChildren_of_mem h (List.mem_of_find?_eq_some hget)
    exact .inr ⟨p, verdicts_runFrom_le (m := Task.of cx f p) hchecks _ _⟩

/-- Nothing is reported about the layout of a leaf when it is visited. -/
theorem verdicts_visitFindings_leaf (h : ProgramTable.ofSettings s = .ok table) (q : Position)
    (cx : Context) {f : Focus} (hf : f.tree.children = []) :
    verdicts q (visitFindings cx table f) = 0 := by
  obtain hnil | ⟨p, hle⟩ := verdicts_visitFindings_le_due h q cx f
  · rw [hnil, verdicts_nil]
  · have hdue : due q p (.start f.tree) = 0 := by simp [due, State.start, hf]
    omega

/-- A visit reports no more layout findings at a place than there are boundaries before the children
of the node and inside them; and none if these boundaries belong to an expression. -/
theorem verdicts_visitFindings_node (h : ProgramTable.ofSettings s = .ok table) (q : Position)
    (cx : Context) (kind : ConstructKind) (first : Tree) (rest : List Tree) (path : List Frame) :
    verdicts q (visitFindings cx table ⟨.node kind first rest, path⟩) +
        judged q (.node kind first rest) ≤
      judged q first + ((rest.map (starts q)).sum + (rest.map (judged q)).sum) := by
  -- The boundaries between the children are checked by the visit, or inside an expression.
  by_cases hcomposite : kind.isComposite = true
  · have hnone : Template.authored? s kind = none := by
      rw [← Option.not_isSome_iff_eq_none, Template.isSome_authored?]
      simpa [ConstructKind.isComposite] using hcomposite
    have hquiet : visitFindings cx table ⟨.node kind first rest, path⟩ = [] := by
      have hget := ProgramTable.get?_eq_none h hnone
      simp only [visitFindings, visit, Tree.kind, hget]
      rfl
    rw [hquiet, judged_composite hcomposite, verdicts_nil, Nat.zero_add]
  · rw [judged, if_neg hcomposite, Nat.add_zero]
    obtain hnil | ⟨p, hle⟩ := verdicts_visitFindings_le_due h q cx ⟨.node kind first rest, path⟩
    · rw [hnil]
      exact Nat.zero_le _
    · rwa [due_of_settled rfl rfl] at hle

/-- The leaves of a tree at a place are enough for all layout findings there: those of the visits of
its nodes, those inside it as an expression, and the one before it. -/
def LeavesSuffice (q : Position) (cx : Context) (table : ProgramTable) (t : Tree) : Prop :=
  ∀ path, verdicts q ((preorderFrom t path).flatMap (visitFindings cx table)) +
    (starts q t + judged q t) ≤ (t.leaves.map Tree.pos).count q

/-- The leaves of several trees suffice if those of each one do. -/
theorem leavesSuffice_among {q : Position} {cx : Context} {ts : List Tree}
    (hts : ∀ t ∈ ts, LeavesSuffice q cx table t) (kind : ConstructKind) (before : List Tree)
    (path : List Frame) :
    verdicts q ((preorderFromAmong kind before ts path).flatMap (visitFindings cx table)) +
        ((ts.map (starts q)).sum + (ts.map (judged q)).sum) ≤
      ((Tree.leavesAmong ts).map Tree.pos).count q := by
  induction ts generalizing before with
  | nil => exact Nat.le_refl 0
  | cons t ts ih =>
    obtain ⟨ht, hts⟩ := List.forall_mem_cons.1 hts
    have hhere := ht (⟨kind, before, ts⟩ :: path)
    have hlater := ih hts (t :: before)
    simp only [preorderFromAmong, Tree.leavesAmong, List.flatMap_append, verdicts_append,
      List.map_append, List.map_cons, List.sum_cons, List.count_append]
    omega

/-- The leaves of a tree suffice for all verdicts on it. -/
theorem leavesSuffice (h : ProgramTable.ofSettings s = .ok table) (q : Position) (cx : Context)
    (t : Tree) : LeavesSuffice q cx table t := by
  -- A leaf stands where it starts, and its visit reports nothing.
  have hleaf : ∀ (leaf : Tree) (path : List Frame), leaf.children = [] →
      verdicts q ([Focus.mk leaf path].flatMap (visitFindings cx table)) + (starts q leaf + 0) ≤
        ([leaf].map Tree.pos).count q := by
    intro leaf path hchildren
    have hvisit := verdicts_visitFindings_leaf h q cx (f := ⟨leaf, path⟩) hchildren
    simp only [List.flatMap_singleton, hvisit, starts, List.map_singleton, List.count_singleton]
    simp
  induction t using Tree.children_induction with
  | token kind text pos => exact fun path => hleaf (.token kind text pos) path rfl
  | empty kind pos => exact fun path => hleaf (.empty kind pos) path rfl
  | node kind first rest hfirst hrest =>
    intro path
    have hvisit := verdicts_visitFindings_node h q cx kind first rest path
    have hhere := hfirst (⟨kind, [], rest⟩ :: path)
    have hothers := leavesSuffice_among hrest kind [first] path
    -- The first child stands where the node does, so its boundary is the one before the node.
    have hstarts : starts q (.node kind first rest) = starts q first := rfl
    simp only [preorderFrom, Tree.leaves, List.flatMap_cons, List.flatMap_append, verdicts_append,
      List.map_append, List.count_append, hstarts]
    omega

/-- A walk reports no more layout findings at a place than there are leaves. -/
theorem verdicts_walkFindings_le (h : ProgramTable.ofSettings s = .ok table) (q : Position)
    (cx : Context) (hcx : cx.settings.alignDeclarations = false) (t : Tree) :
    verdicts q (walkFindings cx table t) ≤ (t.leaves.map Tree.pos).count q := by
  have hsuffice := leavesSuffice h q cx t []
  rw [walkFindings_eq hcx]
  exact Nat.le_trans (Nat.le_add_right _ _) hsuffice

/-- At most one verdict per token. Where no two leaves of a tree stand at one place, a walk reports
no two layout findings at one place. -/
theorem layout_findings_nodup (source : SourceText) (s : LayoutSettings)
    (hs : s.alignDeclarations = false) {table : ProgramTable}
    (htable : ProgramTable.ofSettings s = .ok table) (t : Tree)
    (ht : (t.leaves.map Tree.pos).Nodup) :
    (((walkFindings ⟨source, s⟩ table t).filter (!·.message.isStructural)).map
      fun f => (f.line, f.rawColumn)).Nodup := by
  -- The layout findings at each place are counted by the leaves there.
  rw [List.nodup_iff_count_le_one]
  rintro ⟨line, column⟩
  have hle := verdicts_walkFindings_le htable ⟨line, column⟩ ⟨source, s⟩ hs t
  have hone := List.nodup_iff_count_le_one.1 ht ⟨line, column⟩
  have hcount : (((walkFindings ⟨source, s⟩ table t).filter (!·.message.isStructural)).map
      fun f => (f.line, f.rawColumn)).count (line, column) =
      verdicts ⟨line, column⟩ (walkFindings ⟨source, s⟩ table t) := by
    rw [List.count, List.countP_map, List.countP_filter]
    exact List.countP_congr fun f _ => by simp [Finding.judges, and_comm]
  omega

/-- A block with three tokens in wrong places, one of them inside an expression. The second
statement starts with a token that is the first leaf of two nodes, and has one verdict. -/
theorem layout_findings_nodup_block :
    ∃ table, ProgramTable.ofSettings .default = .ok table ∧
      ∃ places, places.Nodup ∧ places.length = 3 ∧
        ((walkFindings ⟨.ofString "\x7b\n    x +\n  y;\nz;\n  \x7d" 4, .default⟩ table
          (.node .block (.token .lBrace "\x7b" ⟨1, 0⟩)
            [.node .exprStatement
                (.node .binaryExpr (.token .identifier "x" ⟨2, 4⟩)
                  [.token .operator "+" ⟨2, 6⟩, .token .identifier "y" ⟨3, 2⟩])
                [.token .semi ";" ⟨3, 3⟩],
              .node .exprStatement (.token .identifier "z" ⟨4, 0⟩) [.token .semi ";" ⟨4, 1⟩],
              .token .rBrace "\x7d" ⟨5, 2⟩])).filter (!·.message.isStructural)).map
          (fun f => (f.line, f.rawColumn)) = places := by
  let t : Tree := .node .block (.token .lBrace "\x7b" ⟨1, 0⟩)
    [.node .exprStatement
        (.node .binaryExpr (.token .identifier "x" ⟨2, 4⟩)
          [.token .operator "+" ⟨2, 6⟩, .token .identifier "y" ⟨3, 2⟩])
        [.token .semi ";" ⟨3, 3⟩],
      .node .exprStatement (.token .identifier "z" ⟨4, 0⟩) [.token .semi ";" ⟨4, 1⟩],
      .token .rBrace "\x7d" ⟨5, 2⟩]
  obtain ⟨table, htable⟩ := ProgramTable.exists_ofSettings .default
  have hfound : (ProgramTable.ofSettings .default).toOption.map (fun table =>
      (((walkFindings ⟨.ofString "\x7b\n    x +\n  y;\nz;\n  \x7d" 4, .default⟩ table t).filter
        (!·.message.isStructural)).map fun f => (f.line, f.rawColumn)).length) = some 3 := by
    decide +kernel
  rw [htable] at hfound
  have hnodup := layout_findings_nodup (.ofString "\x7b\n    x +\n  y;\nz;\n  \x7d" 4) .default rfl
    htable t (by decide)
  exact ⟨table, htable, _, hnodup, Option.some.inj hfound, rfl⟩

end TreeLayout
