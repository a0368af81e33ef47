import TreeLayout.Verify.Walk
import TreeLayout.Proofs.Machine.Outcome
import TreeLayout.Proofs.Table.Programs
import Mathlib.Algebra.Ring.Nat

/-!
# The programs of the table halt

For all settings the table is built, and each of its programs goes back only after a child; so on
each node it halts within one round of its steps for each child, and one more
(`ProgramTable.haltsWithin`). The machine logs one event for each step that it takes, so the log of
a walk also says how long the walk took: `countP_isStep_walkFrom_le` bounds it by the sum over the
visited nodes.
-/

namespace TreeLayout

namespace Machine

variable {m : Task} {s : State}

/-- Whether an event is that of a step about to be taken. -/
def Event.isStep : Event → Bool
  | .step _ _ _ _ => true
  | .report _ | .expression _ | .ambiguous _ _ _ => false

/-- No effect of a step is logged as a step. -/
theorem isStep_of_mem_step {op : Step} {ev : Event} (h : ev ∈ (step m s op).1) :
    ev.isStep = false := by
  obtain ⟨f, rfl⟩ | ⟨f, -, rfl⟩ | ⟨target, child, -, -, -, rfl⟩ := mem_step_fst h
  · rfl
  · rfl
  · rfl

/-- At most one step is logged for the step that is next. -/
theorem countP_isStep_logged_le (m : Task) (s : State) :
    (logged m s).countP Event.isStep ≤ 1 := by
  unfold logged
  split
  · exact Nat.zero_le _
  · rename_i op _
    have hzero : (step m s op).1.countP Event.isStep = 0 := by
      rw [List.countP_eq_zero]
      intro ev hev
      rw [isStep_of_mem_step hev]
      exact Bool.false_ne_true
    rw [List.countP_cons, hzero]
    split_ifs <;> omega

/-- A run logs no more steps than it is granted. -/
theorem countP_isStep_runFrom_le (m : Task) (fuel : Nat) (s : State) :
    (runFrom m fuel s).countP Event.isStep ≤ fuel := by
  induction fuel generalizing s with
  | zero => exact Nat.le_refl 0
  | succ fuel ih =>
    rw [runFrom_succ, List.countP_append]
    have hfirst := countP_isStep_logged_le m s
    cases next? m s with
    | none =>
      simp only [Option.map_none, Option.getD_none, List.countP_nil]
      omega
    | some s' =>
      have hrest := ih s'
      simp only [Option.map_some, Option.getD_some]
      omega

/-- A run that halts within a bound logs no more steps than that. -/
theorem countP_isStep_run_le {cx : Context} {f : Focus} {p : Program} {bound : Nat}
    (hp : p.WellFormed) (h : HaltsWithin (Task.of cx f p) (.start f.tree) bound) :
    (run cx f p).countP Event.isStep ≤ bound := by
  obtain ⟨n, s, hlt, hafter, hends⟩ := h
  rw [run_of_endsAt hp hafter hends, ← runFrom_of_endsAt hafter hends (Nat.lt_succ_self n)]
  exact Nat.le_trans (countP_isStep_runFrom_le _ (n + 1) _) hlt

end Machine

open Machine (Event HaltsWithin Halts Task)

variable {s : LayoutSettings} {table : ProgramTable}

/-- A program of a table halts on each node, within one round of its steps for each child and one
more. -/
theorem ProgramTable.haltsWithin (h : ofSettings s = .ok table) {p : Program}
    (hp : p ∈ table.programs) (cx : Context) (f : Focus) :
    HaltsWithin (Task.of cx f p) (.start f.tree)
      (p.steps.length * (f.tree.children.length + 1)) := by
  obtain ⟨hwell, hforward⟩ := wellFormed_and_goesForward h hp
  exact Machine.haltsWithin_of_not_circles (m := Task.of cx f p) hwell hwell.length_pos
    fun _ _ _ => Program.not_circles_of_goesForward hforward

/-- The log of visiting one node. -/
def visit (cx : Context) (table : ProgramTable) (f : Focus) : List Event :=
  match table.get? f.tree.kind with
  | some p => Machine.run cx f p
  | none => []

/-- A walk visits the first node, aligns it if it is a declaration, and goes on with the others. -/
theorem walkFrom_cons (cx : Context) (table : ProgramTable) (last : Option Nat) (f : Focus)
    (fs : List Focus) :
    walkFrom cx table last (f :: fs) =
      visit cx table f ++
        if cx.settings.alignDeclarations && isDeclaration f.tree.kind then
          (alignDeclaration cx last f).map .report ++ walkFrom cx table (some f.index) fs
        else walkFrom cx table last fs := by
  rw [walkFrom]
  split_ifs
  · rw [List.append_assoc]
    rfl
  · rfl

/-- The most steps that the visit of a node takes. -/
def visitBound (table : ProgramTable) (f : Focus) : Nat :=
  match table.get? f.tree.kind with
  | some p => p.steps.length * (f.tree.children.length + 1)
  | none => 0

/-- The visit of a node takes no more steps than that. -/
theorem countP_isStep_visit_le (h : ProgramTable.ofSettings s = .ok table) (cx : Context)
    (f : Focus) : (visit cx table f).countP Event.isStep ≤ visitBound table f := by
  unfold visit visitBound
  cases hget : table.get? f.tree.kind with
  | none => exact Nat.le_refl 0
  | some p =>
    have hmem : p ∈ table.programs := List.mem_of_find?_eq_some hget
    exact Machine.countP_isStep_run_le (ProgramTable.wellFormed_and_goesForward h hmem).1
      (ProgramTable.haltsWithin h hmem cx f)

/-- The alignment of declarations takes no step. -/
theorem countP_isStep_alignDeclaration (cx : Context) (last : Option Nat) (f : Focus) :
    ((alignDeclaration cx last f).map Event.report).countP Event.isStep = 0 := by
  rw [List.countP_eq_zero]
  intro ev hev
  obtain ⟨finding, -, rfl⟩ := List.mem_map.1 hev
  exact Bool.false_ne_true

/-- A walk takes no more steps than the visits of its nodes may take. -/
theorem countP_isStep_walkFrom_le (h : ProgramTable.ofSettings s = .ok table) (cx : Context)
    (last : Option Nat) (fs : List Focus) :
    (walkFrom cx table last fs).countP Event.isStep ≤ (fs.map (visitBound table)).sum := by
  induction fs generalizing last with
  | nil => exact Nat.le_refl 0
  | cons f fs ih =>
    have hvisit := countP_isStep_visit_le h cx f
    rw [walkFrom_cons, List.countP_append, List.map_cons, List.sum_cons]
    -- Whether the node is aligned or not, the rest of the walk takes what the induction says.
    split_ifs
    · rw [List.countP_append, countP_isStep_alignDeclaration, Nat.zero_add]
      exact Nat.add_le_add hvisit (ih _)
    · exact Nat.add_le_add hvisit (ih _)

/-- All settings give a table of 38 programs, one for each construct but the expressions other than
array initializers. Each program halts on each node within its number of steps, taken once for each
child and once more; so a walk over a tree finishes the visit of each node, and takes no more steps
than all visits together may take. -/
theorem ofSettings_haltsWithin (s : LayoutSettings) :
    ∃ table, ProgramTable.ofSettings s = .ok table ∧ table.size = 38 ∧
      (∀ kind : ConstructKind, (table.get? (.construct kind)).isSome =
        (!(Kind.construct kind).isExpression || decide (kind = .arrayInitializer))) ∧
      (∀ p ∈ table.programs, ∀ (cx : Context) (f : Focus),
        HaltsWithin (Task.of cx f p) (.start f.tree)
          (p.steps.length * (f.tree.children.length + 1))) ∧
      ∀ (cx : Context) (t : Tree),
        (∀ f ∈ t.foci, ∀ p, table.get? f.tree.kind = some p →
          Halts (Task.of cx f p) (.start f.tree)) ∧
        (walk cx table t).countP Event.isStep ≤ (t.foci.map (visitBound table)).sum := by
  obtain ⟨table, htable⟩ := ProgramTable.exists_ofSettings s
  refine ⟨table, htable, ProgramTable.size_of_ofSettings htable, fun kind => ?_,
    fun p hp cx f => ProgramTable.haltsWithin htable hp cx f, fun cx t => ⟨?_, ?_⟩⟩
  · rw [ProgramTable.isSome_get? htable, Template.isSome_authored?]
  · intro f _ p hget
    exact (ProgramTable.haltsWithin htable (List.mem_of_find?_eq_some hget) cx f).halts
  · exact countP_isStep_walkFrom_le htable cx none t.foci

/-- The bound for a block of two closing braces, which has no opening one. -/
theorem ofSettings_haltsWithin_braces :
    ∃ table p, ProgramTable.ofSettings .default = .ok table ∧ p ∈ table.programs ∧
      p.kind = .construct .block ∧
      HaltsWithin
        (Task.of ⟨.ofString "\x7d\x7d" 4, .default⟩
          (.ofRoot (.node .block (.token .rBrace "\x7d" ⟨1, 0⟩) [.token .rBrace "\x7d" ⟨1, 1⟩])) p)
        (.start (.node .block (.token .rBrace "\x7d" ⟨1, 0⟩) [.token .rBrace "\x7d" ⟨1, 1⟩]))
        (p.steps.length * 3) := by
  obtain ⟨table, htable, -, hsome, hhalts, -⟩ := ofSettings_haltsWithin .default
  obtain ⟨p, hp⟩ := Option.isSome_iff_exists.1 (hsome .block)
  have hmem : p ∈ table.programs := List.mem_of_find?_eq_some hp
  have hkind : p.kind = .construct .block := by simpa using List.find?_some hp
  exact ⟨table, p, htable, hmem, hkind, hhalts p hmem _ (.ofRoot _)⟩

end TreeLayout
