import TreeLayout.Proofs.Program.Flow

/-!
# Runs of the machine, step by step

`Machine.runFrom` writes the log of a run. Here a run is the sequence of its states: `next?` is one
step of the machine, and `after` a number of them. `next?_eq_some` says once what a step can do to a
state: either control moves on by the program's `move?` and the children stay as they are, or the
current child is accepted and consumed. Invariants of runs are derived from it by `after_invariant`,
and `runFrom_of_after` relates the states of a run to its log.
-/

namespace TreeLayout.Machine

variable {m : Task} {s s' : State}

/-- The state after one step, unless the run ends with it. -/
def next? (m : Task) (s : State) : Option State :=
  (m.program.step? s.pc).bind fun op => (step m s op).2

/-- The state after a number of steps, unless the run ends before. -/
def after (m : Task) : Nat → State → Option State
  | 0, s => some s
  | n + 1, s => (next? m s).bind (after m n)

/-- The run ends with the step that is next: it is the end, or it expects a child and does not get
it. -/
def EndsAt (m : Task) (s : State) : Prop :=
  m.program.step? s.pc = some .finish ∨
    ∃ e, m.program.step? s.pc = some (.expect e) ∧ e.acceptsCurrent s.currentKind = false

/-- Where there is a next child, it is the one that an expectation looks at. -/
theorem acceptsCurrent_of_cons {e : Expect} {child : Tree} {rest : List Tree}
    (hrest : s.rest = child :: rest) : e.acceptsCurrent s.currentKind = e.accepts child := by
  unfold State.currentKind State.current
  rw [hrest]
  rfl

/-- A layout check moves on to the next step, and changes nothing but the mode. -/
theorem layout_snd (m : Task) (s : State) (op : LayoutOp) :
    ∃ mode, (layout m s op).2 = some { s with pc := s.pc + 1, mode := mode } := by
  unfold layout
  split_ifs
  · exact ⟨_, rfl⟩
  · split
    · exact ⟨_, rfl⟩
    · exact ⟨s.mode, rfl⟩

/-- A fork goes where the program's choice says. -/
theorem fork_snd (m : Task) (s : State) (target : Nat) :
    (fork m s target).2 = some { s with
      pc := if m.program.choose s.pc target s.currentKind = .stay then s.pc + 1 else target } := by
  unfold fork
  split <;> simp [*]

/-- Where control moves on, so does the machine, and the children stay as they are. -/
theorem next?_of_move {pc : Nat} (h : m.program.move? s.currentKind s.pc = some pc) :
    ∃ mode, next? m s = some { s with pc := pc, mode := mode } := by
  unfold next?
  obtain ⟨target, hop, rfl⟩ | hop | ⟨hop, rfl⟩ | ⟨n, hop, rfl⟩ | ⟨op, hop, rfl⟩ :=
    Program.move?_eq_some h
  · exact ⟨s.mode, by rw [hop, Option.bind_some, step, fork_snd]⟩
  · exact ⟨s.mode, by rw [hop, Option.bind_some, step]⟩
  · exact ⟨s.mode, by rw [hop, Option.bind_some, step]⟩
  · exact ⟨s.mode, by rw [hop, Option.bind_some, step]⟩
  · -- Only a layout check can change the mode.
    obtain ⟨mode, hmode⟩ := layout_snd m s op
    exact ⟨mode, by rw [hop, Option.bind_some, step, hmode]⟩

/-- An accepted child is consumed. -/
theorem next?_of_accepts {e : Expect} {child : Tree} {rest : List Tree}
    (hop : m.program.step? s.pc = some (.expect e)) (hrest : s.rest = child :: rest)
    (haccepts : e.accepts child = true) :
    next? m s = some ⟨s.pc + 1, child :: s.consumed, rest, s.mode⟩ := by
  unfold next?
  rw [hop, Option.bind_some, step, consume, hrest]
  simp [haccepts]

/-- No state follows the step that ends the run. -/
theorem next?_of_endsAt (h : EndsAt m s) : next? m s = none := by
  unfold next?
  obtain hop | ⟨e, hop, hno⟩ := h
  · rw [hop, Option.bind_some, step]
  · rw [hop, Option.bind_some, step, consume]
    cases hrest : s.rest with
    | nil => rfl
    | cons child rest =>
      rw [acceptsCurrent_of_cons hrest] at hno
      simp [hno]

/-- What a step of the program does: it ends the run, or control moves on and the children stay as
they are, or the current child is accepted and consumed. -/
theorem next?_cases (hpc : s.pc < m.program.steps.length) :
    (EndsAt m s ∧ next? m s = none) ∨
      (∃ pc mode, m.program.move? s.currentKind s.pc = some pc ∧
        next? m s = some { s with pc := pc, mode := mode }) ∨
      ∃ e child rest, m.program.step? s.pc = some (.expect e) ∧ s.rest = child :: rest ∧
        e.accepts child = true ∧
        next? m s = some ⟨s.pc + 1, child :: s.consumed, rest, s.mode⟩ := by
  cases hmove : m.program.move? s.currentKind s.pc with
  | some pc =>
    obtain ⟨mode, hnext⟩ := next?_of_move hmove
    exact .inr (.inl ⟨pc, mode, rfl, hnext⟩)
  | none =>
    -- Control stays only at the end and at expectations.
    obtain hop | ⟨e, hop⟩ := Program.move?_eq_none hpc hmove
    · exact .inl ⟨.inl hop, next?_of_endsAt (.inl hop)⟩
    · cases haccepts : e.acceptsCurrent s.currentKind with
      | false =>
        have hends : EndsAt m s := .inr ⟨e, hop, haccepts⟩
        exact .inl ⟨hends, next?_of_endsAt hends⟩
      | true =>
        cases hrest : s.rest with
        | nil => simp [State.currentKind, State.current, hrest, Expect.acceptsCurrent] at haccepts
        | cons child rest =>
          rw [acceptsCurrent_of_cons hrest] at haccepts
          have hnext := next?_of_accepts hop hrest haccepts
          exact .inr (.inr ⟨e, child, rest, hop, rfl, haccepts, hnext⟩)

/-- A state has a next one only at a step of the program. -/
theorem pc_lt_of_next? (h : next? m s = some s') : s.pc < m.program.steps.length := by
  by_contra hge
  have hop : m.program.step? s.pc = none := List.getElem?_eq_none (by omega)
  rw [next?, hop] at h
  cases h

/-- What a step that does not end the run does to the state. -/
theorem next?_eq_some (h : next? m s = some s') :
    (m.program.move? s.currentKind s.pc = some s'.pc ∧ s'.consumed = s.consumed ∧
        s'.rest = s.rest) ∨
      ∃ e child, m.program.step? s.pc = some (.expect e) ∧ s.rest = child :: s'.rest ∧
        e.accepts child = true ∧ s'.pc = s.pc + 1 ∧ s'.consumed = child :: s.consumed := by
  obtain ⟨-, hnone⟩ | ⟨pc, mode, hmove, hnext⟩ | ⟨e, child, rest, hop, hrest, haccepts, hnext⟩ :=
    next?_cases (pc_lt_of_next? h)
  · rw [hnone] at h
    cases h
  · rw [hnext, Option.some.injEq] at h
    subst h
    exact .inl ⟨hmove, rfl, rfl⟩
  · rw [hnext, Option.some.injEq] at h
    subst h
    exact .inr ⟨e, child, hop, hrest, haccepts, rfl, rfl⟩

/-- A run that does not go on from a step of the program ends with it. -/
theorem endsAt_of_next?_eq_none (hpc : s.pc < m.program.steps.length) (h : next? m s = none) :
    EndsAt m s := by
  obtain ⟨hends, -⟩ | ⟨pc, mode, -, hnext⟩ | ⟨e, child, rest, -, -, -, hnext⟩ := next?_cases hpc
  · exact hends
  · rw [hnext] at h
    cases h
  · rw [hnext] at h
    cases h

/-- The last of several steps, taken apart from the others. -/
theorem after_succ' (m : Task) (n : Nat) (s : State) :
    after m (n + 1) s = (after m n s).bind (next? m) := by
  induction n generalizing s with
  | zero => cases h : next? m s <;> simp [after, h]
  | succ n ih =>
    cases h : next? m s with
    | none => simp [after, h]
    | some t => rw [after, h, Option.bind_some, ih, after, h, Option.bind_some]

/-- A number of steps after a number of steps. -/
theorem after_add (m : Task) (n k : Nat) (s : State) :
    after m (n + k) s = (after m n s).bind (after m k) := by
  induction k with
  | zero => cases after m n s <;> simp [after]
  | succ k ih =>
    rw [← Nat.add_assoc, after_succ', ih, Option.bind_assoc]
    congr 1
    funext t
    rw [after_succ']

/-- What every step keeps, every run keeps. -/
theorem after_invariant {P : State → Prop} (hstep : ∀ s s', P s → next? m s = some s' → P s')
    {n : Nat} (h : after m n s = some s') (hs : P s) : P s' := by
  induction n generalizing s with
  | zero =>
    cases h
    exact hs
  | succ n ih =>
    rw [after, Option.bind_eq_some_iff] at h
    obtain ⟨t, hnext, hafter⟩ := h
    exact ih hafter (hstep s t hs hnext)

/-- A run of a well-formed program stays at steps of the program. -/
theorem after_pc_lt (hp : m.program.WellFormed) {n : Nat} (h : after m n s = some s')
    (hs : s.pc < m.program.steps.length) : s'.pc < m.program.steps.length := by
  refine after_invariant (P := fun t => t.pc < m.program.steps.length) ?_ h hs
  intro t t' _ hnext
  obtain ⟨hmove, -, -⟩ | ⟨e, child, hop, -, -, hpc, -⟩ := next?_eq_some hnext
  · exact hp.move?_lt hmove
  · rw [hpc]
    exact hp.succ_lt hop (by simp)

/-- A run consumes children from the left and drops none. -/
theorem after_children {n : Nat} (h : after m n s = some s') :
    s'.consumed.reverse ++ s'.rest = s.consumed.reverse ++ s.rest := by
  refine after_invariant
    (P := fun t => t.consumed.reverse ++ t.rest = s.consumed.reverse ++ s.rest) ?_ h rfl
  intro t t' ht hnext
  obtain ⟨-, hconsumed, hrest⟩ | ⟨e, child, -, hrest, -, -, hconsumed⟩ := next?_eq_some hnext
  · rw [hconsumed, hrest, ht]
  · rw [← ht, hconsumed, hrest, List.reverse_cons, List.append_assoc, List.singleton_append]

/-- A run never gets children back. -/
theorem after_rest_length_le {n : Nat} (h : after m n s = some s') :
    s'.rest.length ≤ s.rest.length := by
  refine after_invariant (P := fun t => t.rest.length ≤ s.rest.length) ?_ h (Nat.le_refl _)
  intro t t' ht hnext
  obtain ⟨-, -, hrest⟩ | ⟨e, child, -, hrest, -, -, -⟩ := next?_eq_some hnext
  · rw [hrest]
    exact ht
  · rw [hrest, List.length_cons] at ht
    omega

/-- A run that consumes no child only moves control. -/
theorem after_moves {n : Nat} (h : after m n s = some s') (hlen : s'.rest.length = s.rest.length) :
    s'.rest = s.rest ∧ m.program.moves? s.currentKind n s.pc = some s'.pc := by
  induction n generalizing s with
  | zero =>
    cases h
    exact ⟨rfl, rfl⟩
  | succ n ih =>
    rw [after, Option.bind_eq_some_iff] at h
    obtain ⟨t, hnext, hafter⟩ := h
    obtain ⟨hmove, -, hrest⟩ | ⟨e, child, -, hrest, -, -, -⟩ := next?_eq_some hnext
    · -- The children that are left stay the same, so the current one does.
      have hkind : t.currentKind = s.currentKind := by
        rw [State.currentKind, State.current, hrest]
        rfl
      obtain ⟨hrest', hmoves⟩ := ih hafter (by rw [hlen, hrest])
      refine ⟨hrest'.trans hrest, ?_⟩
      rw [Program.moves?, hmove, Option.bind_some, ← hkind, hmoves]
    · -- The child that is consumed now is missing at the end.
      have hle := after_rest_length_le hafter
      rw [hlen, hrest, List.length_cons] at hle
      omega

/-- What a step can log: a report of the machine, one of the expression checker about an expression
that is expected, or a fork that is ambiguous for the current child. -/
theorem mem_step_fst {op : Step} {ev : Event} (h : ev ∈ (step m s op).1) :
    (∃ f, ev = .report f) ∨ (∃ f, op = .expect .expr ∧ ev = .expression f) ∨
      ∃ target child, op = .fork target ∧ s.current = some child ∧
        m.program.choose s.pc target s.currentKind = .ambiguous ∧
        ev = .ambiguous m.program.kind s.pc child := by
  cases op with
  | expect e =>
    -- A report if the child is missing or not accepted, else what the expression checker found.
    simp only [step, consume] at h
    split at h
    · exact .inl ⟨_, List.mem_singleton.1 h⟩
    · split_ifs at h with haccepts he
      · exact .inl ⟨_, List.mem_singleton.1 h⟩
      · obtain ⟨f, -, rfl⟩ := List.mem_map.1 h
        exact .inr (.inl ⟨f, by rw [he], rfl⟩)
      · cases h
  | fork target =>
    simp only [step, fork] at h
    split at h
    · cases h
    · cases h
    · rename_i hchoose
      rw [Option.mem_toList] at h
      obtain ⟨child, hcurrent, rfl⟩ := Option.map_eq_some_iff.1 h
      exact .inr (.inr ⟨target, child, rfl, hcurrent, hchoose, rfl⟩)
  | branch _ | label _ | optional => cases h
  | finish =>
    rw [step, Option.mem_toList] at h
    obtain ⟨child, -, rfl⟩ := Option.map_eq_some_iff.1 h
    exact .inl ⟨_, rfl⟩
  | layout op =>
    simp only [step, layout] at h
    split_ifs at h
    · cases h
    · split at h
      · obtain ⟨f, -, rfl⟩ := List.mem_map.1 h
        exact .inl ⟨f, rfl⟩
      · cases h

/-- What is logged for the step that is next. -/
def logged (m : Task) (s : State) : List Event :=
  match m.program.step? s.pc with
  | none => []
  | some op => .step s.pc op s.current s.mode :: (step m s op).1

/-- The log of a run is that of its first step, followed by that of the rest of the run. -/
theorem runFrom_succ (m : Task) (fuel : Nat) (s : State) :
    runFrom m (fuel + 1) s =
      logged m s ++ ((next? m s).map (runFrom m fuel)).getD [] := by
  rw [runFrom, logged, next?]
  cases m.program.step? s.pc with
  | none => rfl
  | some op =>
    simp only [Option.bind_some, List.cons_append]
    cases (step m s op).2 <;> rfl

/-- The log of a run splits at every state that it passes. -/
theorem runFrom_of_after {n : Nat} (h : after m n s = some s') (fuel : Nat) :
    runFrom m (n + fuel) s = runFrom m n s ++ runFrom m fuel s' := by
  induction n generalizing s with
  | zero =>
    cases h
    rw [Nat.zero_add, runFrom, List.nil_append]
  | succ n ih =>
    rw [after, Option.bind_eq_some_iff] at h
    obtain ⟨t, hnext, hafter⟩ := h
    rw [Nat.succ_add, runFrom_succ, runFrom_succ, hnext]
    simp only [Option.map_some, Option.getD_some]
    rw [ih hafter, List.append_assoc]

/-- The log of a run that ends does not depend on the steps that it is granted beyond its end. -/
theorem runFrom_of_endsAt {n fuel : Nat} (h : after m n s = some s') (hends : EndsAt m s')
    (hfuel : n < fuel) : runFrom m fuel s = runFrom m n s ++ logged m s' := by
  -- One of the steps granted after the first `n` is the last one of the run.
  obtain ⟨k, rfl⟩ : ∃ k, fuel = n + (k + 1) := ⟨fuel - n - 1, by omega⟩
  rw [runFrom_of_after h, runFrom_succ, next?_of_endsAt hends]
  simp

/-- What a run logs is logged at one of the states that it passes. -/
theorem exists_after_of_mem_runFrom {fuel : Nat} {ev : Event} (h : ev ∈ runFrom m fuel s) :
    ∃ n t, after m n s = some t ∧ ev ∈ logged m t := by
  induction fuel generalizing s with
  | zero => cases h
  | succ fuel ih =>
    rw [runFrom_succ, List.mem_append] at h
    obtain h | h := h
    · exact ⟨0, s, rfl, h⟩
    · cases hnext : next? m s with
      | none =>
        rw [hnext] at h
        cases h
      | some s' =>
        rw [hnext] at h
        obtain ⟨n, t, hafter, hev⟩ := ih h
        exact ⟨n + 1, t, by rw [after, hnext, Option.bind_some, hafter], hev⟩

end TreeLayout.Machine
