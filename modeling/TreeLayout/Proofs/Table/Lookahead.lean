import TreeLayout.Verify.Trace
import TreeLayout.Proofs.Table.Halting

/-!
# The forks of the table

One child of lookahead suffices for the programs of the table, whatever the settings are: looking
ahead ends before the limit on both paths of each fork, and no child is accepted equally well by
both. A machine whose program is like that never logs an ambiguous fork
(`Machine.warning?_of_mem_runFrom`), so neither does a walk with the table.
-/

namespace TreeLayout

namespace Machine

variable {m : Task} {s : State}

/-- The step that is next logs no warning, if forks tell their paths apart. -/
theorem warning?_of_mem_logged (hp : m.program.tellsApart = true) {ev : Event}
    (h : ev ∈ logged m s) : ev.warning? = none := by
  unfold logged at h
  split at h
  · cases h
  · rename_i op hop
    obtain rfl | h := List.mem_cons.1 h
    · rfl
    obtain ⟨f, rfl⟩ | ⟨f, -, rfl⟩ | ⟨target, child, rfl, hcurrent, hchoose, rfl⟩ := mem_step_fst h
    · rfl
    · rfl
    · -- The choice of a fork is not ambiguous for a child.
      rw [State.currentKind, hcurrent] at hchoose
      exact absurd hchoose (Program.choose_ne_ambiguous hp hop child.kind)

/-- A run logs no warning, if the forks of its program tell their paths apart. -/
theorem warning?_of_mem_runFrom (hp : m.program.tellsApart = true) {fuel : Nat} {ev : Event}
    (h : ev ∈ runFrom m fuel s) : ev.warning? = none := by
  induction fuel generalizing s with
  | zero => cases h
  | succ fuel ih =>
    rw [runFrom_succ, List.mem_append] at h
    obtain h | h := h
    · exact warning?_of_mem_logged hp h
    · cases hnext : next? m s with
      | none =>
        rw [hnext] at h
        cases h
      | some s' =>
        rw [hnext] at h
        exact ih h

end Machine

open Machine (Event)

variable {s : LayoutSettings} {table : ProgramTable}

/-- A walk with a table of settings logs no warning. -/
theorem warning?_of_mem_walkFrom (h : ProgramTable.ofSettings s = .ok table) {cx : Context}
    {last : Option Nat} {fs : List Focus} {ev : Event} (hev : ev ∈ walkFrom cx table last fs) :
    ev.warning? = none := by
  induction fs generalizing last with
  | nil => cases hev
  | cons f fs ih =>
    rw [walkFrom_cons, List.mem_append] at hev
    obtain hev | hev := hev
    · unfold visit at hev
      split at hev
      · rename_i p hget
        have htells := ProgramTable.tellsApart_of_mem h (List.mem_of_find?_eq_some hget)
        exact Machine.warning?_of_mem_runFrom (m := .of cx f p) htells hev
      · cases hev
    · split_ifs at hev
      · obtain hev | hev := List.mem_append.1 hev
        · obtain ⟨finding, -, rfl⟩ := List.mem_map.1 hev
          rfl
        · exact ih hev
      · exact ih hev

/-- All settings give a table whose programs look ahead by no more than one child: at each fork
looking ahead ends before the limit on both paths, for each child and for none, and no child is
accepted equally well by both. So no walk over a tree warns of an ambiguous fork. -/
theorem ofSettings_looks_one_ahead (s : LayoutSettings) :
    ∃ table, ProgramTable.ofSettings s = .ok table ∧
      (∀ p ∈ table.programs, ∀ pc target, p.step? pc = some (.fork target) →
        (∀ child, p.LooksWithinLimit child (pc + 1) ∧ p.LooksWithinLimit child target) ∧
          ∀ k r, acceptance p (pc + 1) (some k) = some r → acceptance p target (some k) ≠ some r) ∧
      ∀ (cx : Context) (t : Tree), ∀ ev ∈ walk cx table t, ev.warning? = none := by
  obtain ⟨table, htable⟩ := ProgramTable.exists_ofSettings s
  refine ⟨table, htable, fun p hp pc target hop => ?_, fun cx t ev hev => ?_⟩
  · exact Program.looks_of_tellsApart (ProgramTable.tellsApart_of_mem htable hp) hop
  · exact warning?_of_mem_walkFrom htable hev

/-- The fork after `else`, where an `if`, a block and any other statement compete. -/
theorem ofSettings_looks_one_ahead_else :
    ∃ table p, ProgramTable.ofSettings .default = .ok table ∧ p ∈ table.programs ∧
      p.kind = .construct .ifStatement ∧ p.step? 21 = some (.fork 27) ∧
      acceptance p 22 (some (.construct .ifStatement)) = some 1 ∧
      acceptance p 27 (some (.construct .ifStatement)) ≠ some 1 := by
  obtain ⟨table, htable, hforks, -⟩ := ofSettings_looks_one_ahead .default
  have hauthored : Template.authored? .default .ifStatement =
      some (Template.ifStatement .default, false) := rfl
  obtain ⟨p, hresolve, -⟩ := Template.resolve_authored? hauthored
  have hmem : p ∈ table.programs :=
    (ProgramTable.mem_programs_iff htable).2 ⟨_, _, _, hauthored, hresolve⟩
  cases hresolve
  exact ⟨table, _, htable, hmem, rfl, rfl, rfl, (hforks _ hmem 21 27 rfl).2 _ 1 rfl⟩

end TreeLayout
