import TreeLayout.Proofs.Data.Traversal
import TreeLayout.Verify.Machine

/-!
# The control flow of accepted programs

`Program.resolve` accepts a list of steps only if its labels are defined once, its last step is the
end, and no branch goes back over steps that expect no child. What runs need of that is
`Program.WellFormed`: every jump names a step, and the last step is the end, so that control never
leaves the program (`WellFormed.move?_lt`).

`Program.move?` is the way of control while one child stays the current one. It depends on the steps
and on the kind of that child, and on nothing else: neither the layout of the children nor the wrap
mode takes part in it.
-/

namespace TreeLayout

/-- The place that a step jumps to. -/
def Step.jump? : Step → Option Nat
  | .fork target | .branch target => some target
  | .expect _ | .label _ | .optional | .finish | .layout _ => none

namespace Program

/-- What it takes for steps to be accepted: labels are defined once, every step is resolved, the
last one is the end, and none is a branch back over steps that expect no child. -/
theorem resolveSteps_eq_ok {authored steps : List Step} (h : resolveSteps authored = .ok steps) :
    duplicate? [] (authored.filterMap labelOf?) = none ∧
      List.Forall₂ (fun a b => resolveStep authored a = .ok b) authored steps ∧
      steps.getLast? = some .finish ∧
      ∀ index < steps.length, isEmptyLoop steps index = false := by
  unfold resolveSteps at h
  -- The checks are made one after the other; where one fails, so does the whole.
  cases hdup : duplicate? [] (authored.filterMap labelOf?) with
  | some label => simp [hdup, bind, Except.bind, throw, throwThe, MonadExceptOf.throw] at h
  | none =>
    cases hmap : authored.mapM (resolveStep authored) with
    | error e => simp [hdup, hmap, bind, Except.bind] at h
    | ok resolved =>
      by_cases hlast : resolved.getLast? = some .finish
      · cases hloop : (List.range resolved.length).find? (isEmptyLoop resolved) with
        | some index =>
          simp [hdup, hmap, hlast, hloop, bind, Except.bind, throw, throwThe,
            MonadExceptOf.throw] at h
        | none =>
          simp only [hdup, hmap, hlast, hloop, bind, Except.bind, pure, Except.pure, ne_eq,
            not_true_eq_false, if_false, Except.ok.injEq] at h
          subst h
          refine ⟨rfl, mapM_eq_ok_iff.1 hmap, hlast, fun index hindex => ?_⟩
          have hnone := List.find?_eq_none.1 hloop index (List.mem_range.2 hindex)
          simpa using hnone
      · simp [hdup, hmap, hlast, bind, Except.bind, throw, throwThe, MonadExceptOf.throw] at h

/-- What runs need of a program: control stays inside it. -/
structure WellFormed (p : Program) : Prop where
  /-- The last step is the end. -/
  last : p.steps.getLast? = some .finish
  /-- A fork or a branch jumps to a step. -/
  jump : ∀ {pc target : Nat} {op : Step}, p.step? pc = some op → op.jump? = some target →
    target < p.steps.length

/-- A label never is the last step of steps that end with the end, so there is a step after it. -/
theorem target?_lt {authored : List Step} {label index : Nat}
    (hlast : authored.getLast? = some .finish) (h : target? authored label = some index) :
    index < authored.length := by
  unfold target? at h
  obtain ⟨i, hi, rfl⟩ := Option.map_eq_some_iff.1 h
  obtain ⟨hlt, hlabel, -⟩ := List.findIdx?_eq_some_iff_getElem.1 hi
  -- The last step is the end, and so no label.
  have hne : i ≠ authored.length - 1 := by
    rintro rfl
    rw [List.getLast?_eq_getElem?, List.getElem?_eq_getElem hlt, Option.some.injEq] at hlast
    simp [hlast] at hlabel
  omega

/-- Only the end is resolved to the end. -/
theorem eq_finish_of_resolveStep {authored : List Step} {step : Step}
    (h : resolveStep authored step = .ok .finish) : step = .finish := by
  unfold resolveStep at h
  split at h
  · split at h <;> cases h
  · split at h <;> cases h
  · exact Except.ok.inj h

/-- The jump of a resolved step is the step after a label. -/
theorem target?_of_resolveStep {authored : List Step} {step resolved : Step} {target : Nat}
    (h : resolveStep authored step = .ok resolved) (hjump : resolved.jump? = some target) :
    ∃ label, target? authored label = some target := by
  cases step with
  | fork label | branch label =>
    simp only [resolveStep] at h
    split at h
    · rename_i index htarget
      cases h
      cases hjump
      exact ⟨label, htarget⟩
    · cases h
  | expect e | label n | optional | finish | layout op =>
    cases h
    cases hjump

/-- Steps that are accepted keep control inside the program. -/
theorem wellFormed_of_resolve {kind : Kind} {authored : List Step} {multiple : Bool} {p : Program}
    (h : resolve kind authored multiple = .ok p) : p.WellFormed := by
  unfold resolve at h
  split at h
  · rename_i steps hsteps
    cases h
    obtain ⟨-, hall, hlast, -⟩ := resolveSteps_eq_ok hsteps
    -- The authored steps end with the end too, so no label stands last among them.
    have hauthored : authored.getLast? = some .finish := by
      rw [List.getLast?_eq_getElem?] at hlast ⊢
      rw [← hall.length_eq] at hlast
      obtain ⟨step, hstep, hfinish⟩ := exists_getElem?_of_forall₂ hall hlast
      rw [hstep, eq_finish_of_resolveStep hfinish]
    refine ⟨hlast, fun {pc target op} hop hjump => ?_⟩
    obtain ⟨step, -, hstep⟩ := exists_getElem?_of_forall₂ hall hop
    obtain ⟨label, htarget⟩ := target?_of_resolveStep hstep hjump
    have hlt := target?_lt hauthored htarget
    rwa [hall.length_eq] at hlt
  · cases h

/-- The last step of a well-formed program is the end, so a step follows every other one. -/
theorem WellFormed.succ_lt {p : Program} (hp : p.WellFormed) {pc : Nat} {op : Step}
    (hop : p.step? pc = some op) (hne : op ≠ .finish) : pc + 1 < p.steps.length := by
  have hlast := hp.last
  obtain ⟨hlt, hget⟩ := List.getElem?_eq_some_iff.1 hop
  by_contra hge
  have hpc : pc = p.steps.length - 1 := by omega
  rw [List.getLast?_eq_getElem?, ← hpc, List.getElem?_eq_getElem hlt, hget] at hlast
  exact hne (Option.some.inj hlast)

/-- A well-formed program has a first step. -/
theorem WellFormed.length_pos {p : Program} (hp : p.WellFormed) : 0 < p.steps.length := by
  have hlast := hp.last
  cases hsteps : p.steps with
  | nil => simp [hsteps] at hlast
  | cons _ _ => simp

/-- The first expectation among steps is one of them. -/
theorem firstExpect?_eq_some {steps : List Step} {index i : Nat} {e : Expect}
    (h : firstExpect? index steps = some (i, e)) :
    ∃ d, i = index + d ∧ steps[d]? = some (.expect e) := by
  induction steps generalizing index with
  | nil => cases h
  | cons step steps ih =>
    cases step with
    | expect e' =>
      cases h
      exact ⟨0, rfl, rfl⟩
    | layout op =>
      obtain ⟨d, hi, hd⟩ := ih h
      exact ⟨d + 1, by omega, by simpa using hd⟩
    -- Any other step ends the search.
    | fork _ | branch _ | label _ | optional | finish => cases h

/-- The next expectation stands at or after the step from which it is sought. -/
theorem nextExpect?_eq_some {p : Program} {pc i : Nat} {e : Expect}
    (h : p.nextExpect? pc = some (i, e)) : pc ≤ i ∧ p.step? i = some (.expect e) := by
  obtain ⟨d, rfl, hd⟩ := firstExpect?_eq_some h
  rw [List.getElem?_drop] at hd
  exact ⟨Nat.le_add_right pc d, hd⟩

/-- An optional expectation is entered, or the next expectation is passed over. -/
theorem afterOptional_cases (p : Program) (pc : Nat) (child : Option Kind) :
    Machine.afterOptional p pc child = pc + 1 ∨
      ∃ i e, p.nextExpect? (pc + 1) = some (i, e) ∧
        Machine.afterOptional p pc child = i + 1 := by
  unfold Machine.afterOptional
  split
  · rename_i i e hnext
    split_ifs
    · exact .inl rfl
    · exact .inr ⟨i, e, hnext, rfl⟩
  · exact .inl rfl

/-- The step to which control goes from a step while `child` is the kind of the current child,
unless the step expects a child or is the end. -/
def move? (p : Program) (child : Option Kind) (pc : Nat) : Option Nat :=
  match p.step? pc with
  | some (.fork target) =>
    some (if p.choose pc target child = .stay then pc + 1 else target)
  | some (.branch target) => some target
  | some .optional => some (Machine.afterOptional p pc child)
  | some (.label _) | some (.layout _) => some (pc + 1)
  | some (.expect _) | some .finish | none => none

/-- What a move of control can be: the choice of a fork, a branch, an optional expectation that is
entered or passed over, or the step after a label or a layout check. -/
theorem move?_eq_some {p : Program} {child : Option Kind} {pc pc' : Nat}
    (h : p.move? child pc = some pc') :
    (∃ target, p.step? pc = some (.fork target) ∧
        pc' = if p.choose pc target child = .stay then pc + 1 else target) ∨
      p.step? pc = some (.branch pc') ∨
      (p.step? pc = some .optional ∧ pc' = Machine.afterOptional p pc child) ∨
      (∃ n, p.step? pc = some (.label n) ∧ pc' = pc + 1) ∨
      ∃ op, p.step? pc = some (.layout op) ∧ pc' = pc + 1 := by
  unfold move? at h
  cases hop : p.step? pc with
  | none =>
    rw [hop] at h
    cases h
  | some op =>
    rw [hop] at h
    cases op with
    | expect _ | finish => cases h
    | fork target =>
      cases h
      exact .inl ⟨target, rfl, rfl⟩
    | branch target =>
      cases h
      exact .inr (.inl rfl)
    | optional =>
      cases h
      exact .inr (.inr (.inl ⟨rfl, rfl⟩))
    | label n =>
      cases h
      exact .inr (.inr (.inr (.inl ⟨n, rfl, rfl⟩)))
    | layout op =>
      cases h
      exact .inr (.inr (.inr (.inr ⟨op, rfl, rfl⟩)))

/-- Control moves on from every step that is not the end and expects no child. -/
theorem move?_eq_none {p : Program} {child : Option Kind} {pc : Nat} (hpc : pc < p.steps.length)
    (h : p.move? child pc = none) :
    p.step? pc = some .finish ∨ ∃ e, p.step? pc = some (.expect e) := by
  have hop : p.step? pc = some p.steps[pc] := List.getElem?_eq_getElem hpc
  unfold move? at h
  rw [hop] at h ⊢
  cases hstep : p.steps[pc] with
  | finish => exact .inl rfl
  | expect e => exact .inr ⟨e, rfl⟩
  | fork _ | branch _ | label _ | optional | layout _ => simp [hstep] at h

/-- Control stays inside a well-formed program. -/
theorem WellFormed.move?_lt {p : Program} (hp : p.WellFormed) {child : Option Kind} {pc pc' : Nat}
    (h : p.move? child pc = some pc') : pc' < p.steps.length := by
  obtain ⟨target, hop, rfl⟩ | hop | ⟨hop, rfl⟩ | ⟨n, hop, rfl⟩ | ⟨op, hop, rfl⟩ := move?_eq_some h
  · split_ifs
    · exact hp.succ_lt hop (by simp)
    · exact hp.jump hop rfl
  · exact hp.jump hop rfl
  · obtain hnext | ⟨i, e, hnext, hi⟩ := afterOptional_cases p pc child
    · rw [hnext]
      exact hp.succ_lt hop (by simp)
    · rw [hi]
      exact hp.succ_lt (nextExpect?_eq_some hnext).2 (by simp)
  · exact hp.succ_lt hop (by simp)
  · exact hp.succ_lt hop (by simp)

/-- The step to which control goes in a number of moves while `child` stays the kind of the current
child. -/
def moves? (p : Program) (child : Option Kind) : Nat → Nat → Option Nat
  | 0, pc => some pc
  | n + 1, pc => (p.move? child pc).bind (p.moves? child n)

/-- The last of several moves, taken apart from the others. -/
theorem moves?_succ' (p : Program) (child : Option Kind) (n pc : Nat) :
    p.moves? child (n + 1) pc = (p.moves? child n pc).bind (p.move? child) := by
  induction n generalizing pc with
  | zero => cases h : p.move? child pc <;> simp [moves?, h]
  | succ n ih =>
    cases h : p.move? child pc with
    | none => simp [moves?, h]
    | some pc' =>
      have ih' := ih pc'
      rw [moves?, h, Option.bind_some, ih', moves?, h, Option.bind_some]

/-- From a step on a circle control comes back to it, with the same current child. No step in
between consumes that child, so the machine never leaves the circle. -/
def Circles (p : Program) (child : Option Kind) (pc : Nat) : Prop :=
  ∃ n, p.moves? child (n + 1) pc = some pc

/-- Control goes from a step on a circle to another one. -/
theorem Circles.move {p : Program} {child : Option Kind} {pc : Nat} (h : p.Circles child pc) :
    ∃ pc', p.move? child pc = some pc' ∧ p.Circles child pc' := by
  obtain ⟨n, hn⟩ := h
  rw [moves?, Option.bind_eq_some_iff] at hn
  obtain ⟨pc', hmove, hback⟩ := hn
  -- The first move of the circle is the last one of the circle from the next step.
  refine ⟨pc', hmove, n, ?_⟩
  rw [moves?_succ', hback, Option.bind_some, hmove]

end Program

end TreeLayout
