import TreeLayout.Proofs.Tree.Preorder
import TreeLayout.Proofs.Wrap.Checks

/-!
# Ending a line before a token

If a token stands on the line of the leaf before it, and the line is ended there, a walk asks for a
line end before the token in at most one of the two trees (`wraps_add_wraps_walkFindings_le`).

The runs on a node of both trees take the same steps, since control follows the kinds of the
children. The layout of the first elements of a run decides how the others are checked. These stand
before the token as long as something is due there, and they do not move, so until then both runs
are in the same mode (`Machine.Tracks`).
-/

namespace TreeLayout

open TreeLayout.Tree (starts judged judged_composite mapPos leavesAmong)

variable {σ : Position → Position} {q : Position} {shared : Prop}

/-! ## Places of boundaries -/

namespace Tree

/-- Several trees start and are judged at a place no more often than leaves stand there, if each one
is so. -/
theorem sum_starts_add_judged_le_of {ts : List Tree}
    (h : ∀ t ∈ ts, starts q t + judged q t ≤ (t.leaves.map pos).count q) :
    (ts.map (starts q)).sum + (ts.map (judged q)).sum ≤ ((leavesAmong ts).map pos).count q := by
  induction ts with
  | nil => exact Nat.le_refl 0
  | cons t ts ih =>
    obtain ⟨ht, hts⟩ := List.forall_mem_cons.1 h
    have hlater := ih hts
    simp only [List.map_cons, List.sum_cons, leavesAmong, List.map_append, List.count_append]
    omega

/-- The boundary before a tree and those inside it as an expression have different leaves after
them. -/
theorem starts_add_judged_le (q : Position) (t : Tree) :
    starts q t + judged q t ≤ (t.leaves.map pos).count q := by
  have hstarts : ∀ t : Tree, starts q t ≤ (t.leaves.map pos).count q := by
    intro t
    unfold starts
    split
    · rename_i hq
      have hmem : q ∈ t.leaves.map pos :=
        List.mem_map.2 ⟨t.leftmost, t.leftmost_mem_leaves, t.pos_leftmost.trans hq⟩
      exact List.count_pos_iff.2 hmem
    · exact Nat.zero_le _
  induction t using children_induction with
  | token kind text pos => exact hstarts (.token kind text pos)
  | empty kind pos => exact hstarts (.empty kind pos)
  | node kind first rest hfirst hrest =>
    by_cases hcomposite : kind.isComposite = true
    · have hlater := sum_starts_add_judged_le_of hrest
      have hsame : starts q (.node kind first rest) = starts q first := rfl
      rw [judged_composite hcomposite, hsame, leaves, List.map_append, List.count_append]
      omega
    · rw [judged, if_neg hcomposite]
      exact hstarts (.node kind first rest)

/-- Several trees start and are judged at a place no more often than leaves stand there. -/
theorem sum_starts_add_judged_le (q : Position) (ts : List Tree) :
    (ts.map (starts q)).sum + (ts.map (judged q)).sum ≤ ((leavesAmong ts).map pos).count q :=
  sum_starts_add_judged_le_of fun t _ => starts_add_judged_le q t

end Tree

/-! ## Runs -/

namespace Machine

variable {m m' : Task} {s s' : State}

/-- Between two children, a layout step checks their boundary and goes on. -/
theorem layout_of_boundary {op : LayoutOp} (hop : op ≠ .endRun) {prev child : Tree}
    (hcurrent : s.current = some child) (hprevious : s.previous = some prev) :
    layout m s op = ((applyLayout m s op prev child).1.map .report,
      some { s with pc := s.pc + 1, mode := (applyLayout m s op prev child).2 }) := by
  simp [layout, hop, hcurrent, hprevious]

/-- Without two children, a layout step only goes on. -/
theorem layout_of_no_boundary {op : LayoutOp} (hop : op ≠ .endRun)
    (hnone : s.current = none ∨ s.previous = none) :
    layout m s op = ([], some { s with pc := s.pc + 1 }) := by
  unfold layout
  rw [if_neg hop]
  rcases hnone with hnone | hnone
  · rw [hnone]
  · rw [hnone]
    cases s.current <;> rfl

/-- A state is between two children, or before the first one, or after the last one. -/
theorem State.boundary_cases (s : State) :
    (s.current = none ∨ s.previous = none) ∨
      ∃ last before child rest, s.consumed = last :: before ∧ s.rest = child :: rest := by
  cases hrest : s.rest with
  | nil => exact .inl (.inl (by simp [State.current, hrest]))
  | cons child rest =>
    cases hconsumed : s.consumed with
    | nil => exact .inl (.inr (by simp [State.previous, hconsumed]))
    | cons last before => exact .inr ⟨last, before, child, rest, rfl, rfl⟩

/-- A step checks the boundary before a child that starts at a place. -/
def ChecksBefore (q : Position) (s : State) (op : Step) : Prop :=
  ∃ o last before child rest, op = .layout o ∧ o ≠ .endRun ∧ s.consumed = last :: before ∧
    s.rest = child :: rest ∧ child.pos = q

/-- A step asks for no line end before a token that shares its line with nothing before it, unless
it checks the boundary before the token. -/
theorem wraps_step_eq_zero (m : Task) (hclear : ∀ t ∈ s.rest, Clear q t) {op : Step}
    (hop : ¬ ChecksBefore q s op) : wraps q (findings (step m s op).1) = 0 := by
  have hquiet : ∀ fs : List Finding, verdicts q fs = 0 → wraps q fs = 0 := by
    intro fs hfs
    have hle := wraps_le_verdicts q fs
    omega
  cases op with
  | expect e =>
    rw [step, consume]
    cases hrest : s.rest with
    | nil => exact hquiet _ (verdicts_missing m s)
    | cons child rest =>
      simp only
      split
      · exact hquiet _ (m.cx.verdicts_unexpected q child e.expected)
      · have hchild : Clear q child := hclear child (by rw [hrest]; exact List.mem_cons_self)
        rw [findings_map_expression]
        split
        · exact hchild.wraps_check m.cx m.inline
        · rfl
  | fork target =>
    rw [step, fork]
    split
    · rfl
    · rfl
    · cases s.current <;> rfl
  | branch | label | optional => rfl
  | finish =>
    rw [step]
    cases s.current with
    | none => rfl
    | some child => exact hquiet _ (m.cx.verdicts_extra q child)
  | layout o =>
    rw [step]
    by_cases hend : o = .endRun
    · subst hend
      rfl
    obtain hnone | ⟨last, before, child, rest, hconsumed, hrest⟩ := s.boundary_cases
    · rw [layout_of_no_boundary hend hnone]
      rfl
    · have hne : child.pos ≠ q := fun hq =>
        hop ⟨o, last, before, child, rest, rfl, hend, hconsumed, hrest, hq⟩
      have hchild : s.current = some child := by rw [State.current, hrest, List.head?_cons]
      have hlast : s.previous = some last.rightmost := by
        rw [State.previous, hconsumed, List.head?_cons, Option.map_some]
      have hle := verdicts_applyLayout_le q m s o last.rightmost child
      rw [starts, if_neg hne] at hle
      rw [layout_of_boundary hend hchild hlast, findings_map_report]
      exact hquiet _ (Nat.le_zero.1 hle)

/-- Two runs on the children of a tree before and after it is moved, where something may still be
due at the place. -/
structure Tracks (σ : Position → Position) (q : Position) (shared : Prop) (p : Program)
    (s s' : State) : Prop where
  /-- The next step is the same. -/
  pc : s'.pc = s.pc
  /-- The children consumed are the moved ones. -/
  consumed : s'.consumed = s.consumed.map (mapPos σ)
  /-- The children that are left are the moved ones. -/
  rest : s'.rest = s.rest.map (mapPos σ)
  /-- The place is moved away from the leaves before it. -/
  pushed : Pushed σ q shared (leavesAmong (s.consumed.reverse ++ s.rest))
  /-- The elements are laid out in the same way, as long as that matters at the place. -/
  mode : due q p s = 0 ∨ s'.mode = s.mode

namespace Tracks

variable {p : Program}

/-- The current child is the one that was moved. -/
theorem current_eq (h : Tracks σ q shared p s s') : s'.current = s.current.map (mapPos σ) := by
  rw [State.current, h.rest, List.head?_map, State.current]

/-- The current child is of the same kind. -/
theorem currentKind_eq (h : Tracks σ q shared p s s') : s'.currentKind = s.currentKind := by
  rw [State.currentKind, h.current_eq, Option.map_map, State.currentKind]
  congr 1
  funext t
  exact t.kind_mapPos σ

/-- The previous child is the one that was moved. -/
theorem previous_eq (h : Tracks σ q shared p s s') : s'.previous = s.previous.map (mapPos σ) := by
  rw [State.previous, h.consumed, List.head?_map, Option.map_map, State.previous, Option.map_map]
  congr 1
  funext t
  exact t.rightmost_mapPos σ

/-- The leaves of the last child consumed and those that are left. -/
theorem pushed_last (h : Tracks σ q shared p s s') {last : Tree} {before : List Tree}
    (hconsumed : s.consumed = last :: before) :
    Pushed σ q shared (last.leaves ++ leavesAmong s.rest) := by
  have hall := h.pushed
  rw [hconsumed, List.reverse_cons, List.append_assoc, Tree.leavesAmong_eq_flatMap,
    List.flatMap_append] at hall
  have hright := hall.right
  rwa [List.singleton_append, List.flatMap_cons, ← Tree.leavesAmong_eq_flatMap] at hright

/-- The leaves of the children that are left are pushed. -/
theorem pushed_rest (h : Tracks σ q shared p s s') : Pushed σ q shared (leavesAmong s.rest) := by
  have hall := h.pushed
  rw [Tree.leavesAmong_eq_flatMap, List.flatMap_append] at hall
  rw [Tree.leavesAmong_eq_flatMap]
  exact hall.right

/-- Both runs check the boundary between the same children. -/
theorem layout_eq (h : Tracks σ q shared p s s') (m m' : Task) {op : LayoutOp} (hop : op ≠ .endRun)
    {last child : Tree} {before rest : List Tree} (hconsumed : s.consumed = last :: before)
    (hrest : s.rest = child :: rest) :
    layout m s op = ((applyLayout m s op last.rightmost child).1.map .report,
        some { s with pc := s.pc + 1, mode := (applyLayout m s op last.rightmost child).2 }) ∧
      layout m' s' op =
        ((applyLayout m' s' op (last.rightmost.mapPos σ) (child.mapPos σ)).1.map .report,
          some { s' with
            pc := s'.pc + 1
            mode := (applyLayout m' s' op (last.rightmost.mapPos σ) (child.mapPos σ)).2 }) := by
  have hchild : s.current = some child := by rw [State.current, hrest, List.head?_cons]
  have hlast : s.previous = some last.rightmost := by
    rw [State.previous, hconsumed, List.head?_cons, Option.map_some]
  have hcurrent := h.current_eq
  have hprevious := h.previous_eq
  rw [hchild] at hcurrent
  rw [hlast] at hprevious
  exact ⟨layout_of_boundary hop hchild hlast, layout_of_boundary hop hcurrent hprevious⟩

/-- Neither run checks a boundary before the first child or after the last one. -/
theorem no_boundary (h : Tracks σ q shared p s s') (hnone : s.current = none ∨ s.previous = none) :
    s'.current = none ∨ s'.previous = none := by
  rw [h.current_eq, h.previous_eq]
  rcases hnone with hnone | hnone
  · exact .inl (by rw [hnone, Option.map_none])
  · exact .inr (by rw [hnone, Option.map_none])

/-- A step that checks another boundary in the old run does so in the new one. -/
theorem not_checksBefore (h : Tracks σ q shared p s s') {op : Step}
    (hop : ¬ ChecksBefore q s op) : ¬ ChecksBefore (σ q) s' op := by
  rintro ⟨o, last', before', child', rest', rfl, hend, hconsumed', hrest', hq⟩
  rw [h.consumed] at hconsumed'
  rw [h.rest] at hrest'
  obtain ⟨last, before, hconsumed, -, -⟩ := List.map_eq_cons_iff.1 hconsumed'
  obtain ⟨child, rest, hrest, rfl, -⟩ := List.map_eq_cons_iff.1 hrest'
  refine hop ⟨o, last, before, child, rest, rfl, hend, hconsumed, hrest, ?_⟩
  -- No child but the one at the place goes where the place goes.
  have hleaf : child.leftmost ∈ leavesAmong s.rest := by
    rw [hrest, leavesAmong]
    exact List.mem_append_left _ child.leftmost_mem_leaves
  have hapart := h.pushed_rest.apart child.leftmost hleaf
  rw [child.pos_leftmost] at hapart
  rw [Tree.pos_mapPos] at hq
  exact hapart hq

section Boundary

variable {last child : Tree} {before rest : List Tree}

/-- The boundary before the place is all that is due there. -/
theorem due_boundary (h : Tracks σ q shared p s s') (hp : p.ChecksChildren) {op : LayoutOp}
    (hop : p.step? s.pc = some (.layout op)) (hend : op ≠ .endRun)
    (hconsumed : s.consumed = last :: before) (hrest : s.rest = child :: rest)
    (hq : child.pos = q) :
    due q p s = 1 ∧ ∀ mode, due q p { s with pc := s.pc + 1, mode := mode } = 0 := by
  obtain ⟨e, he⟩ := hp s.pc op hop hend
  -- No other leaf stands at the place.
  have hle := Tree.sum_starts_add_judged_le q s.rest
  have honce := h.pushed_rest.once
  have hstarts : starts q child = 1 := if_pos hq
  rw [hrest, List.map_cons, List.map_cons, List.sum_cons, List.sum_cons, ← hrest] at hle
  constructor
  · rw [due_of_not_settled (by simp [settled, hop, Step.isExpect, hconsumed]) hrest]
    omega
  · intro mode
    -- The child is expected next.
    have hsettled : settled p { s with pc := s.pc + 1, mode := mode } = true := by
      simp [settled, he, Step.isExpect]
    rw [due_of_settled hsettled hrest]
    omega

/-- The token shares its line with what stands before it as is said, and not in the new tree. -/
theorem sameLine_boundary (h : Tracks σ q shared p s s') (hconsumed : s.consumed = last :: before)
    (hrest : s.rest = child :: rest) (hq : child.pos = q) :
    (sameLine last.rightmost child = true ↔ shared) ∧
      sameLine (last.rightmost.mapPos σ) (child.mapPos σ) = false := by
  have hpushed := h.pushed_last hconsumed
  rw [hrest, leavesAmong, ← List.append_assoc] at hpushed
  have hline := hpushed.left.line_eq_iff hq
  obtain ⟨hfixed, hne⟩ := hpushed.left.line_ne hq
  constructor
  · rw [sameLine, Tree.rightmost_rightmost, decide_eq_true_eq, ← hline]
    have hchild : child.line = q.line := by rw [Tree.line, hq]
    rw [hchild]
  · rw [sameLine, decide_eq_false_iff_not, Tree.rightmost_mapPos, Tree.rightmost_rightmost,
      Tree.line, Tree.line, Tree.pos_mapPos, Tree.pos_mapPos, hq, hfixed]
    exact hne

end Boundary

/-- The children that are left are clear. -/
theorem clear_rest (h : Tracks σ q shared p s s') : ∀ t ∈ s'.rest, Clear (σ q) t := by
  rw [h.rest]
  intro t' ht'
  obtain ⟨t, ht, rfl⟩ := List.mem_map.1 ht'
  exact (h.pushed_rest.of_mem ht).clear_mapPos

/-- Where the line is shared, what is due before a step is enough for what the step reports in both
runs and for what is due after it. -/
theorem verdicts_add_wraps_step_le (h : Tracks σ q shared m.program s s') (hshared : shared)
    (hp : m.program.ChecksChildren) (m' : Task) {op : Step}
    (hop : m.program.step? s.pc = some op) :
    verdicts q (findings (step m s op).1) + wraps (σ q) (findings (step m' s' op).1) +
      ((step m s op).2.map (due q m.program)).getD 0 ≤ due q m.program s := by
  by_cases hchecks : ChecksBefore q s op
  · obtain ⟨o, last, before, child, rest, rfl, hend, hconsumed, hrest, hq⟩ := hchecks
    obtain ⟨hdue, hnext⟩ := h.due_boundary hp hop hend hconsumed hrest hq
    obtain ⟨hsame, hnew⟩ := h.sameLine_boundary hconsumed hrest hq
    obtain ⟨hstep, hstep'⟩ := h.layout_eq m m' hend hconsumed hrest
    have hmode : s'.mode = s.mode := h.mode.resolve_left (by omega)
    rw [step, step, hstep, hstep', findings_map_report, findings_map_report, Option.map_some,
      Option.getD_some, hnext, hdue, Nat.add_zero]
    exact verdicts_add_wraps_applyLayout_le o (hsame.2 hshared) hnew hmode
      (child.hasChildren_mapPos σ)
  · have hle := verdicts_step_add_due_le (q := q) hp hop
    rw [wraps_step_eq_zero m' h.clear_rest (h.not_checksBefore hchecks), Nat.add_zero]
    exact hle

/-- Where the line is not shared, a step that asks for a line end does so in both runs. -/
theorem wraps_step_le (h : Tracks σ q shared m.program s s') (hshared : ¬ shared)
    (hp : m.program.ChecksChildren) (hprogram : m'.program = m.program) {op : Step}
    (hop : m.program.step? s.pc = some op) :
    wraps q (findings (step m s op).1) ≤ wraps (σ q) (findings (step m' s' op).1) := by
  by_cases hchecks : ChecksBefore q s op
  · obtain ⟨o, last, before, child, rest, rfl, hend, hconsumed, hrest, hq⟩ := hchecks
    obtain ⟨hdue, -⟩ := h.due_boundary hp hop hend hconsumed hrest hq
    obtain ⟨hsame, hnew⟩ := h.sameLine_boundary hconsumed hrest hq
    obtain ⟨hstep, hstep'⟩ := h.layout_eq m m' hend hconsumed hrest
    have hmode : s'.mode = s.mode := h.mode.resolve_left (by omega)
    have hold : sameLine last.rightmost child = false :=
      Bool.eq_false_iff.2 fun hsame' => hshared (hsame.1 hsame')
    have heq := wraps_applyLayout_eq (m := m) (s := s) o hold hnew hmode hprogram
      (child.hasChildren_mapPos σ)
    rw [Tree.pos_mapPos, hq] at heq
    rw [step, step, hstep, hstep', findings_map_report, findings_map_report, heq]
  · rw [wraps_step_eq_zero m (fun t ht => (h.pushed_rest.of_mem ht).clear hshared) hchecks]
    exact Nat.zero_le _

/-- Where only control moves on, the layout of the elements stays as it is. -/
theorem move (h : Tracks σ q shared p s s') (pc : Nat)
    (hdue : due q p { s with pc := pc } ≤ due q p s) :
    Tracks σ q shared p { s with pc := pc } { s' with pc := pc } where
  pc := rfl
  consumed := h.consumed
  rest := h.rest
  pushed := h.pushed
  mode := h.mode.imp_left fun hzero => by omega

/-- A child that stands before the place does not move. -/
theorem sameLine_eq (h : Tracks σ q shared p s s') {last child : Tree} {before rest : List Tree}
    (hconsumed : s.consumed = last :: before) (hrest : s.rest = child :: rest)
    (hne : child.pos ≠ q) (hdue : due q p s ≠ 0) :
    sameLine (last.rightmost.mapPos σ) (child.mapPos σ) = sameLine last.rightmost child := by
  -- The leaf at the place is one after the first leaf of the child.
  obtain ⟨leaf, hleaf, hq⟩ : ∃ leaf ∈ leavesAmong s.rest, leaf.pos = q := by
    have hle := due_le_sum q p s
    have hcount := Tree.sum_starts_add_judged_le q s.rest
    have hpos : 0 < ((leavesAmong s.rest).map Tree.pos).count q := by omega
    exact List.mem_map.1 (List.count_pos_iff.1 hpos)
  have hpushed := h.pushed_last hconsumed
  obtain ⟨others, hothers⟩ : ∃ others, leavesAmong s.rest = child.leftmost :: others := by
    refine List.head?_eq_some_iff.1 ?_
    rw [hrest, leavesAmong, List.head?_append, child.head?_leaves, Option.some_or]
  rw [hothers] at hleaf hpushed
  have hlater : leaf ∈ others := by
    refine (List.mem_cons.1 hleaf).resolve_left ?_
    rintro rfl
    exact hne (child.pos_leftmost.symm.trans hq)
  obtain ⟨-, hpairs, hacross⟩ := List.pairwise_append.1 hpushed.before
  have hlast := hacross last.rightmost last.rightmost_mem_leaves leaf
    (List.mem_cons_of_mem _ hlater) hq
  have hchild := (List.pairwise_cons.1 hpairs).1 leaf hlater hq
  rw [Tree.line, child.pos_leftmost] at hchild
  rw [sameLine, sameLine, Tree.rightmost_mapPos, Tree.rightmost_rightmost, Tree.line, Tree.line,
    Tree.pos_mapPos, Tree.pos_mapPos, hlast.1, hchild.1, Tree.line, Tree.line]

/-- A layout check of both runs leaves them in the same mode, as long as that matters. -/
theorem layout_next (h : Tracks σ q shared m.program s s') (hp : m.program.ChecksChildren)
    (m' : Task) {op : LayoutOp} (hop : m.program.step? s.pc = some (.layout op)) :
    ∃ t t', (layout m s op).2 = some t ∧ (layout m' s' op).2 = some t' ∧
      Tracks σ q shared m.program t t' := by
  have hdue := verdicts_step_add_due_le (q := q) hp hop
  by_cases hend : op = .endRun
  · subst hend
    exact ⟨_, _, rfl, rfl, ⟨congrArg (· + 1) h.pc, h.consumed, h.rest, h.pushed, .inr rfl⟩⟩
  obtain hnone | ⟨last, before, child, rest, hconsumed, hrest⟩ := s.boundary_cases
  · rw [step, layout_of_no_boundary hend hnone] at hdue
    rw [layout_of_no_boundary hend hnone, layout_of_no_boundary hend (h.no_boundary hnone), h.pc]
    exact ⟨_, _, rfl, rfl, h.move (s.pc + 1) (by simpa [findings] using hdue)⟩
  · obtain ⟨hstep, hstep'⟩ := h.layout_eq m m' hend hconsumed hrest
    rw [step, hstep, Option.map_some, Option.getD_some] at hdue
    rw [hstep, hstep', h.pc]
    refine ⟨_, _, rfl, rfl, ⟨rfl, h.consumed, h.rest, h.pushed, ?_⟩⟩
    by_cases hq : child.pos = q
    · exact .inl ((h.due_boundary hp hop hend hconsumed hrest hq).2 _)
    · rw [Classical.or_iff_not_imp_left]
      intro hnext
      have hne : due q m.program s ≠ 0 := by omega
      exact mode_applyLayout_eq op (h.mode.resolve_left hne)
        (h.sameLine_eq hconsumed hrest hq hne) (child.hasChildren_mapPos σ)

/-- Both runs take the same step. -/
theorem next (h : Tracks σ q shared m.program s s') (hp : m.program.ChecksChildren)
    (hprogram : m'.program = m.program) {op : Step} (hop : m.program.step? s.pc = some op) :
    ((step m s op).2 = none ∧ (step m' s' op).2 = none) ∨
      ∃ t t', (step m s op).2 = some t ∧ (step m' s' op).2 = some t' ∧
        Tracks σ q shared m.program t t' := by
  have hdue := verdicts_step_add_due_le (q := q) hp hop
  have hkind := h.currentKind_eq
  cases op with
  | expect e =>
    cases hrest : s.rest with
    | nil =>
      have hrest' : s'.rest = [] := by rw [h.rest, hrest, List.map_nil]
      simp [step, consume, hrest, hrest']
    | cons child rest =>
      have hrest' : s'.rest = child.mapPos σ :: rest.map (mapPos σ) := by
        rw [h.rest, hrest, List.map_cons]
      have haccepts : e.accepts (child.mapPos σ) = e.accepts child := by
        rw [Expect.accepts, child.kind_mapPos, Expect.accepts]
      cases hchild : e.accepts child with
      | false => simp [step, consume, hrest, hrest', haccepts, hchild]
      | true =>
        have hnext : (step m s (.expect e)).2 =
            some ⟨s.pc + 1, child :: s.consumed, rest, s.mode⟩ := by
          simp [step, consume, hrest, hchild]
        have hnext' : (step m' s' (.expect e)).2 =
            some ⟨s.pc + 1, child.mapPos σ :: s'.consumed, rest.map (mapPos σ), s'.mode⟩ := by
          simp [step, consume, hrest', haccepts, hchild, h.pc]
        refine .inr ⟨_, _, hnext, hnext', ⟨rfl, ?_, rfl, ?_, ?_⟩⟩
        · rw [h.consumed, List.map_cons]
        · have hpushed := h.pushed
          rw [hrest] at hpushed
          simpa using hpushed
        · rw [hnext, Option.map_some, Option.getD_some] at hdue
          exact h.mode.imp_left fun hzero => by omega
  | fork target =>
    rw [step, fork_snd, Option.map_some, Option.getD_some] at hdue
    rw [step, step, fork_snd, fork_snd, hprogram, hkind, h.pc]
    exact .inr ⟨_, _, rfl, rfl, h.move _ (by omega)⟩
  | branch | label | optional =>
    simp only [step, hprogram, hkind, h.pc] at hdue ⊢
    exact .inr ⟨_, _, rfl, rfl, h.move _ (by simpa [findings] using hdue)⟩
  | finish => exact .inl ⟨rfl, rfl⟩
  | layout op => exact .inr (h.layout_next hp m' hop)

/-- Both runs together report no more at the place than is due there in their first states. -/
theorem verdicts_add_wraps_runFrom_le (h : Tracks σ q shared m.program s s') (hshared : shared)
    (hp : m.program.ChecksChildren) (hprogram : m'.program = m.program) (fuel : Nat) :
    verdicts q (findings (runFrom m fuel s)) + wraps (σ q) (findings (runFrom m' fuel s')) ≤
      due q m.program s := by
  induction fuel generalizing s s' with
  | zero => exact Nat.zero_le _
  | succ fuel ih =>
    rw [runFrom_succ, runFrom_succ, findings_append, findings_append, verdicts_append, wraps_append,
      findings_logged, findings_logged, next?, next?, hprogram, h.pc]
    cases hop : m.program.step? s.pc with
    | none => exact Nat.zero_le _
    | some op =>
      have hstep := h.verdicts_add_wraps_step_le hshared hp m' hop
      simp only [Option.map_some, Option.getD_some, Option.bind_some]
      obtain ⟨hnone, hnone'⟩ | ⟨t, t', hnext, hnext', htracks⟩ := h.next hp hprogram hop
      · rw [hnone, hnone']
        rw [hnone] at hstep
        exact hstep
      · have hlater := ih htracks
        rw [hnext, hnext']
        rw [hnext] at hstep
        simp only [Option.map_some, Option.getD_some] at hstep ⊢
        omega

/-- Where the line is not shared, the new run asks for a line end if the old one does. -/
theorem wraps_runFrom_le (h : Tracks σ q shared m.program s s') (hshared : ¬ shared)
    (hp : m.program.ChecksChildren) (hprogram : m'.program = m.program) (fuel : Nat) :
    wraps q (findings (runFrom m fuel s)) ≤ wraps (σ q) (findings (runFrom m' fuel s')) := by
  induction fuel generalizing s s' with
  | zero => exact Nat.zero_le _
  | succ fuel ih =>
    rw [runFrom_succ, runFrom_succ, findings_append, findings_append, wraps_append, wraps_append,
      findings_logged, findings_logged, next?, next?, hprogram, h.pc]
    cases hop : m.program.step? s.pc with
    | none => exact Nat.le_refl _
    | some op =>
      have hstep := h.wraps_step_le hshared hp hprogram hop
      simp only [Option.map_some, Option.getD_some, Option.bind_some]
      obtain ⟨hnone, hnone'⟩ | ⟨t, t', hnext, hnext', htracks⟩ := h.next hp hprogram hop
      · rw [hnone, hnone']
        exact Nat.add_le_add_right hstep 0
      · rw [hnext, hnext']
        exact Nat.add_le_add hstep (ih htracks)

end Tracks

/-- Before the first child nothing is laid out yet. -/
theorem tracks_start {t : Tree} (h : Pushed σ q shared (leavesAmong t.children)) (p : Program) :
    Tracks σ q shared p (.start t) (.start (t.mapPos σ)) where
  pc := rfl
  consumed := rfl
  rest := t.children_mapPos σ
  pushed := h
  mode := .inr rfl

end Machine

/-! ## Walks -/

open Focus Machine

variable {settings : LayoutSettings} {table : ProgramTable}

/-- The visits of a node in both trees find nothing, or what the runs of one program find. -/
theorem visitFindings_cases (h : ProgramTable.ofSettings settings = .ok table) (cx cx' : Context)
    (σ : Position → Position) (t : Tree) (path path' : List Frame) :
    (visitFindings cx table ⟨t, path⟩ = [] ∧ visitFindings cx' table ⟨t.mapPos σ, path'⟩ = []) ∨
      ∃ fuel m m', m.program.ChecksChildren ∧ m'.program = m.program ∧
        visitFindings cx table ⟨t, path⟩ = findings (runFrom m fuel (.start t)) ∧
        visitFindings cx' table ⟨t.mapPos σ, path'⟩ =
          findings (runFrom m' fuel (.start (t.mapPos σ))) := by
  unfold visitFindings visit
  rw [Tree.kind_mapPos]
  cases hget : table.get? t.kind with
  | none => exact .inl ⟨rfl, rfl⟩
  | some p =>
    have hchecks := ProgramTable.checksChildren_of_mem h (List.mem_of_find?_eq_some hget)
    have hfuel : stateBound (Task.of cx' ⟨t.mapPos σ, path'⟩ p) =
        stateBound (Task.of cx ⟨t, path⟩ p) := by
      simp [stateBound, Task.of]
    refine .inr ⟨_, Task.of cx ⟨t, path⟩ p, Task.of cx' ⟨t.mapPos σ, path'⟩ p, hchecks, rfl, rfl,
      ?_⟩
    simp only [run]
    rw [hfuel]

/-- Where the line is shared, the visits of a node in both trees report no more than is due before
its first child. -/
theorem visitFindings_le_due (h : ProgramTable.ofSettings settings = .ok table) (cx cx' : Context)
    (hshared : shared) {t : Tree} (ht : Pushed σ q shared (leavesAmong t.children))
    (path path' : List Frame) :
    (visitFindings cx table ⟨t, path⟩ = [] ∧ visitFindings cx' table ⟨t.mapPos σ, path'⟩ = []) ∨
      ∃ p, verdicts q (visitFindings cx table ⟨t, path⟩) +
        wraps (σ q) (visitFindings cx' table ⟨t.mapPos σ, path'⟩) ≤ due q p (.start t) := by
  obtain hnone | ⟨fuel, m, m', hchecks, hprogram, hrun, hrun'⟩ :=
    visitFindings_cases h cx cx' σ t path path'
  · exact .inl hnone
  · rw [hrun, hrun']
    exact .inr ⟨m.program, (tracks_start ht _).verdicts_add_wraps_runFrom_le hshared hchecks
      hprogram fuel⟩

/-- Where the line is not shared, the visit in the new tree asks for a line end if the one in the
old tree does. -/
theorem wraps_visitFindings_le (h : ProgramTable.ofSettings settings = .ok table)
    (cx cx' : Context) (hshared : ¬ shared) {t : Tree} (ht : Pushed σ q shared t.leaves)
    (path path' : List Frame) :
    wraps q (visitFindings cx table ⟨t, path⟩) ≤
      wraps (σ q) (visitFindings cx' table ⟨t.mapPos σ, path'⟩) := by
  obtain ⟨hnone, -⟩ | ⟨fuel, m, m', hchecks, hprogram, hrun, hrun'⟩ :=
    visitFindings_cases h cx cx' σ t path path'
  · rw [hnone]
    exact Nat.zero_le _
  · rw [hrun, hrun']
    exact (tracks_start ht.children _).wraps_runFrom_le hshared hchecks hprogram fuel

/-- The visits of a node with children in both trees; nothing is found where the boundaries between
the children belong to an expression. -/
theorem visitFindings_node_le (h : ProgramTable.ofSettings settings = .ok table)
    (cx cx' : Context) (hshared : shared) (kind : ConstructKind) {first : Tree} {rest : List Tree}
    (ht : Pushed σ q shared (leavesAmong (first :: rest))) (path path' : List Frame) :
    verdicts q (visitFindings cx table ⟨.node kind first rest, path⟩) +
        wraps (σ q) (visitFindings cx' table ⟨(Tree.node kind first rest).mapPos σ, path'⟩) +
        judged q (.node kind first rest) ≤
      judged q first + ((rest.map (starts q)).sum + (rest.map (judged q)).sum) := by
  by_cases hcomposite : kind.isComposite = true
  · have hnone : Template.authored? settings kind = none := by
      rw [← Option.not_isSome_iff_eq_none, Template.isSome_authored?]
      simpa [ConstructKind.isComposite] using hcomposite
    have hquiet : ∀ (cx : Context) (t : Tree) (path : List Frame), t.kind = .construct kind →
        visitFindings cx table ⟨t, path⟩ = [] := by
      intro cx t path hkind
      have hget := ProgramTable.get?_eq_none h hnone
      simp only [visitFindings, visit, hkind, hget]
      rfl
    rw [hquiet cx _ path rfl, hquiet cx' _ path' (Tree.kind_mapPos σ _),
      judged_composite hcomposite, verdicts_nil, wraps_nil, Nat.zero_add]
  · rw [judged, if_neg hcomposite, Nat.add_zero]
    obtain ⟨hnil, hnil'⟩ | ⟨p, hle⟩ :=
      visitFindings_le_due h cx cx' hshared (t := .node kind first rest) ht path path'
    · rw [hnil, hnil']
      exact Nat.zero_le _
    · rwa [due_of_settled rfl rfl] at hle

/-- The leaves of a tree at the place are enough for the layout findings there in the old tree and
the line ends that are asked for there in the new one. -/
def LeavesSufficeMoved (σ : Position → Position) (q : Position) (cx cx' : Context)
    (table : ProgramTable) (t : Tree) : Prop :=
  ∀ path path', verdicts q ((preorderFrom t path).flatMap (visitFindings cx table)) +
      wraps (σ q) ((preorderFrom (t.mapPos σ) path').flatMap (visitFindings cx' table)) +
      (starts q t + judged q t) ≤ (t.leaves.map Tree.pos).count q

/-- The leaves of several trees suffice if those of each one do. -/
theorem leavesSufficeMoved_among {cx cx' : Context} {ts : List Tree}
    (hts : ∀ t ∈ ts, LeavesSufficeMoved σ q cx cx' table t) (kind : ConstructKind)
    (before before' : List Tree) (path path' : List Frame) :
    verdicts q ((preorderFromAmong kind before ts path).flatMap (visitFindings cx table)) +
        wraps (σ q) ((preorderFromAmong kind before' (ts.map (mapPos σ)) path').flatMap
          (visitFindings cx' table)) +
        ((ts.map (starts q)).sum + (ts.map (judged q)).sum) ≤
      ((leavesAmong ts).map Tree.pos).count q := by
  induction ts generalizing before before' with
  | nil => exact Nat.le_refl 0
  | cons t ts ih =>
    obtain ⟨ht, hts⟩ := List.forall_mem_cons.1 hts
    have hhere := ht (⟨kind, before, ts⟩ :: path) (⟨kind, before', ts.map (mapPos σ)⟩ :: path')
    have hlater := ih hts (t :: before) (t.mapPos σ :: before')
    simp only [List.map_cons, preorderFromAmong, leavesAmong, List.flatMap_append, verdicts_append,
      wraps_append, List.map_append, List.sum_cons, List.count_append]
    omega

/-- The leaves of a tree suffice for the verdicts before and the wraps after the push. -/
theorem leavesSufficeMoved (h : ProgramTable.ofSettings settings = .ok table) (cx cx' : Context)
    (hshared : shared) {t : Tree} (ht : Pushed σ q shared t.leaves) :
    LeavesSufficeMoved σ q cx cx' table t := by
  -- A leaf stands where it starts, and its visit reports nothing.
  have hleaf : ∀ (leaf : Tree) (path path' : List Frame), leaf.children = [] →
      verdicts q ([Focus.mk leaf path].flatMap (visitFindings cx table)) +
        wraps (σ q) ([Focus.mk (leaf.mapPos σ) path'].flatMap (visitFindings cx' table)) +
        (starts q leaf + 0) ≤ ([leaf].map Tree.pos).count q := by
    intro leaf path path' hchildren
    have hvisit := verdicts_visitFindings_leaf h q cx (f := ⟨leaf, path⟩) hchildren
    have hvisit' := verdicts_visitFindings_leaf h (σ q) cx' (f := ⟨leaf.mapPos σ, path'⟩)
      (by simp [hchildren])
    have hwraps := wraps_le_verdicts (σ q) (visitFindings cx' table ⟨leaf.mapPos σ, path'⟩)
    have hstarts : starts q leaf ≤ ([leaf].map Tree.pos).count q := by
      simp [starts, List.count_singleton]
    simp only [List.flatMap_singleton]
    omega
  induction t using Tree.children_induction with
  | token kind text pos =>
    intro path path'
    have hhere := hleaf (.token kind text pos) path path' rfl
    rw [Tree.mapPos_token] at hhere ⊢
    exact hhere
  | empty kind pos =>
    intro path path'
    have hhere := hleaf (.empty kind pos) path path' rfl
    rw [Tree.mapPos_empty] at hhere ⊢
    exact hhere
  | node kind first rest hfirst hrest =>
    intro path path'
    have hamong : Pushed σ q shared (leavesAmong (first :: rest)) := ht
    have hvisit := visitFindings_node_le h cx cx' hshared kind hamong path path'
    have hhere := hfirst (hamong.of_mem List.mem_cons_self) (⟨kind, [], rest⟩ :: path)
      (⟨kind, [], rest.map (mapPos σ)⟩ :: path')
    have hothers := leavesSufficeMoved_among
      (fun t ht => hrest t ht (hamong.of_mem (List.mem_cons_of_mem first ht))) kind [first]
      [first.mapPos σ] path path'
    have hstarts : starts q (.node kind first rest) = starts q first := rfl
    rw [Tree.mapPos_node] at hvisit ⊢
    simp only [preorderFrom, Tree.leaves, List.flatMap_cons, List.flatMap_append, verdicts_append,
      wraps_append, List.map_append, List.count_append, hstarts]
    omega

/-- Alignment gives no wrap. -/
theorem wraps_alignDeclaration (q : Position) (cx : Context) (last : Option Nat) (f : Focus) :
    wraps q (alignDeclaration cx last f) = 0 := by
  refine wraps_eq_zero fun g hg => ?_
  unfold alignDeclaration at hg
  split at hg
  · cases hg
  · split at hg
    · simp only [alignWith] at hg
      split at hg
      · cases hg
      · split at hg
        · split at hg
          · cases hg
          · obtain rfl := List.mem_singleton.1 hg
            exact Context.wrapsAt_of_rule (by simp [Message.rule])
        · cases hg
    · cases hg

/-- The alignment of declarations asks for no line ends: only visits do. -/
theorem wraps_walkFrom (q : Position) (cx : Context) (table : ProgramTable) (last : Option Nat)
    (fs : List Focus) :
    wraps q (findings (walkFrom cx table last fs)) =
      wraps q (fs.flatMap (visitFindings cx table)) := by
  induction fs generalizing last with
  | nil => rfl
  | cons f fs ih =>
    rw [walkFrom_cons, findings_append, wraps_append, List.flatMap_cons, wraps_append,
      visitFindings]
    congr 1
    split
    · rw [findings_append, findings_map_report, wraps_append, wraps_alignDeclaration, Nat.zero_add]
      exact ih _
    · exact ih _

/-- The wraps of a walk are those of the visits to its nodes. -/
theorem wraps_foci (q : Position) (cx : Context) (table : ProgramTable) (t : Tree) :
    wraps q (walkFindings cx table t) =
      wraps q ((preorderFrom t []).flatMap (visitFindings cx table)) :=
  wraps_walkFrom q cx table none t.foci

/-- If the line is ended before a token that shares its line with the leaf before it, a line end is
asked for there before or after that, and not both times. -/
theorem wraps_add_wraps_walkFindings_le (h : ProgramTable.ofSettings settings = .ok table)
    (cx cx' : Context) (hshared : shared) {t : Tree} (ht : Pushed σ q shared t.leaves) :
    wraps q (walkFindings cx table t) + wraps (σ q) (walkFindings cx' table (t.mapPos σ)) ≤ 1 := by
  have hsuffice := leavesSufficeMoved h cx cx' hshared ht [] []
  have hverdicts := wraps_le_verdicts q ((preorderFrom t []).flatMap (visitFindings cx table))
  have honce := ht.once
  rw [wraps_foci, wraps_foci]
  omega

/-- The new tree has no fewer line ends asked for at the place than the old one. -/
def KeepsWraps (σ : Position → Position) (q : Position) (cx cx' : Context) (table : ProgramTable)
    (t : Tree) : Prop :=
  ∀ path path', wraps q ((preorderFrom t path).flatMap (visitFindings cx table)) ≤
    wraps (σ q) ((preorderFrom (t.mapPos σ) path').flatMap (visitFindings cx' table))

/-- Several trees keep their wraps if each one does. -/
theorem keepsWraps_among {cx cx' : Context} {ts : List Tree}
    (hts : ∀ t ∈ ts, KeepsWraps σ q cx cx' table t) (kind : ConstructKind)
    (before before' : List Tree) (path path' : List Frame) :
    wraps q ((preorderFromAmong kind before ts path).flatMap (visitFindings cx table)) ≤
      wraps (σ q) ((preorderFromAmong kind before' (ts.map (mapPos σ)) path').flatMap
        (visitFindings cx' table)) := by
  induction ts generalizing before before' with
  | nil => exact Nat.le_refl 0
  | cons t ts ih =>
    obtain ⟨ht, hts⟩ := List.forall_mem_cons.1 hts
    simp only [List.map_cons, preorderFromAmong, List.flatMap_append, wraps_append]
    exact Nat.add_le_add (ht _ _) (ih hts _ _)

/-- Where the pushed leaves share no line, a tree keeps its wraps. -/
theorem keepsWraps (h : ProgramTable.ofSettings settings = .ok table) (cx cx' : Context)
    (hshared : ¬ shared) {t : Tree} (ht : Pushed σ q shared t.leaves) :
    KeepsWraps σ q cx cx' table t := by
  intro path path'
  have hhere := wraps_visitFindings_le h cx cx' hshared ht path path'
  induction t using Tree.children_induction generalizing path path' with
  | token kind text pos =>
    rw [Tree.mapPos_token] at hhere ⊢
    simpa [preorderFrom] using hhere
  | empty kind pos =>
    rw [Tree.mapPos_empty] at hhere ⊢
    simpa [preorderFrom] using hhere
  | node kind first rest hfirst hrest =>
    have hamong : Pushed σ q shared (leavesAmong (first :: rest)) := ht
    have hchildren : ∀ t ∈ first :: rest, KeepsWraps σ q cx cx' table t := by
      intro t ht path path'
      have hpushed := hamong.of_mem ht
      have hvisit := wraps_visitFindings_le h cx cx' hshared hpushed path path'
      rcases List.mem_cons.1 ht with rfl | ht
      · exact hfirst hpushed path path' hvisit
      · exact hrest t ht hpushed path path' hvisit
    have hbelow := keepsWraps_among hchildren kind [] [] path path'
    rw [Tree.mapPos_node] at hhere ⊢
    rw [preorderFrom_node, preorderFrom_node, List.flatMap_cons, List.flatMap_cons, wraps_append,
      wraps_append]
    exact Nat.add_le_add hhere hbelow

/-- If the line is ended before a token that starts it, a line end is asked for there again. -/
theorem wraps_walkFindings_le (h : ProgramTable.ofSettings settings = .ok table) (cx cx' : Context)
    (hshared : ¬ shared) {t : Tree} (ht : Pushed σ q shared t.leaves) :
    wraps q (walkFindings cx table t) ≤ wraps (σ q) (walkFindings cx' table (t.mapPos σ)) := by
  rw [wraps_foci, wraps_foci]
  exact keepsWraps h cx cx' hshared ht [] []

end TreeLayout
