import TreeLayout.Proofs.Program.Flow

/-!
# Programs that go back only after a child

A program has no circle if control goes back only by branches that are entered by consuming a child.
`Program.goesForward` checks that on the steps alone: no fork, branch, optional expectation, label
or layout check leads to a backward branch, and all of them but the backward branches lead forward.
The check is stronger than that for empty loops, which looks for an expectation between a branch and
its target, and it does not depend on the child that is looked at.
-/

namespace TreeLayout.Program

/-- Whether a step is a branch back. -/
def isBack (p : Program) (pc : Nat) : Bool :=
  match p.step? pc with
  | some (.branch target) => decide (target ≤ pc)
  | _ => false

/-- The steps to which control can go from a step, whatever the current child is. -/
def exits (p : Program) (pc : Nat) : List Nat :=
  match p.step? pc with
  | some (.fork target) => [pc + 1, target]
  | some (.branch target) => [target]
  | some .optional =>
    match p.nextExpect? (pc + 1) with
    | some (i, _) => [pc + 1, i + 1]
    | none => [pc + 1]
  | some (.label _) | some (.layout _) => [pc + 1]
  | some (.expect _) | some .finish | none => []

/-- Whether control comes to backward branches only by consuming a child, and goes forward from
every other step. -/
def goesForward (p : Program) : Bool :=
  (List.range p.steps.length).all fun pc =>
    (p.exits pc).all fun q => !p.isBack q && (p.isBack pc || decide (pc < q))

variable {p : Program} {child : Option Kind} {pc pc' : Nat}

/-- Control goes to one of the exits of a step. -/
theorem mem_exits_of_move (h : p.move? child pc = some pc') : pc' ∈ p.exits pc := by
  unfold exits
  obtain ⟨target, hop, rfl⟩ | hop | ⟨hop, rfl⟩ | ⟨n, hop, rfl⟩ | ⟨op, hop, rfl⟩ := move?_eq_some h
  · rw [hop]
    split_ifs
    · exact List.mem_cons_self
    · exact List.mem_cons_of_mem _ List.mem_cons_self
  · rw [hop]
    exact List.mem_cons_self
  · rw [hop]
    obtain hnext | ⟨i, e, hnext, hi⟩ := afterOptional_cases p pc child
    · rw [hnext]
      cases p.nextExpect? (pc + 1) <;> exact List.mem_cons_self
    · simp only [hi, hnext]
      exact List.mem_cons_of_mem _ List.mem_cons_self
  · rw [hop]
    exact List.mem_cons_self
  · rw [hop]
    exact List.mem_cons_self

/-- Control moves only from steps of the program. -/
theorem pc_lt_of_move? (h : p.move? child pc = some pc') : pc < p.steps.length := by
  by_contra hge
  have hop : p.step? pc = none := List.getElem?_eq_none (by omega)
  simp [move?, hop] at h

/-- A move does not lead to a backward branch, and it leads forward unless it is one itself. -/
theorem move?_of_goesForward (hp : p.goesForward = true) (h : p.move? child pc = some pc') :
    p.isBack pc' = false ∧ (p.isBack pc = false → pc < pc') := by
  have hpc := List.all_eq_true.1 hp pc (List.mem_range.2 (pc_lt_of_move? h))
  have hexit := List.all_eq_true.1 hpc pc' (mem_exits_of_move h)
  simp only [Bool.and_eq_true, Bool.not_eq_true', Bool.or_eq_true, decide_eq_true_eq] at hexit
  refine ⟨hexit.1, fun hback => ?_⟩
  simpa [hback] using hexit.2

/-- Moves from a step that is no backward branch lead forward by at least their number. -/
theorem moves?_of_goesForward (hp : p.goesForward = true) {n : Nat}
    (hback : p.isBack pc = false) (h : p.moves? child n pc = some pc') : pc + n ≤ pc' := by
  induction n generalizing pc with
  | zero =>
    cases h
    exact Nat.le_refl _
  | succ n ih =>
    rw [moves?, Option.bind_eq_some_iff] at h
    obtain ⟨q, hmove, hmoves⟩ := h
    obtain ⟨hq, hlt⟩ := move?_of_goesForward hp hmove
    have hle := ih hq hmoves
    have hlt' := hlt hback
    omega

/-- A program that goes back only after a child has no circle. -/
theorem not_circles_of_goesForward (hp : p.goesForward = true) : ¬ p.Circles child pc := by
  rintro ⟨n, hn⟩
  -- The last move of the circle leads to its first step, which so is no backward branch.
  have hlast := hn
  rw [moves?_succ', Option.bind_eq_some_iff] at hlast
  obtain ⟨q, -, hmove⟩ := hlast
  obtain ⟨hback, -⟩ := move?_of_goesForward hp hmove
  have hle := moves?_of_goesForward hp hback hn
  omega

end TreeLayout.Program
