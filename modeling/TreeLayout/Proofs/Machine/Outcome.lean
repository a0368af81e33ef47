import TreeLayout.Proofs.Machine.Halting
import Mathlib.Logic.Basic

/-!
# How runs end

A run reports at most one structural finding of its own, and that ends it. If it reports none, it
came to the end of its program with all children consumed, and the steps that it took are one way
through the program on which every expectation accepts its child (`Program.Path`).

The events that count as faults are the structural reports of the machine itself (`Event.isFault`);
those of the expression checker are events of another kind. A step that does not end the run logs no
fault (`isFault_of_next?`), and `logged_of_endsAt` says what the last step logs.
-/

namespace TreeLayout

/-- Whether a finding is about the layout, and not about the shape of the tree. -/
def Finding.isLayout (f : Finding) : Prop := f.message.isStructural = false

namespace Context

/-- A wrong column is a fault of the layout. -/
theorem isLayout_of_mem_expectColumn {cx : Context} {t : Tree} {column : Nat} {f : Finding}
    (h : f ∈ cx.expectColumn t column) : f.isLayout := by
  simp only [expectColumn] at h
  split_ifs at h
  · cases h
  · rw [List.mem_singleton] at h
    subst h
    rfl

/-- A wrapped line that should not be is a fault of the layout. -/
theorem isLayout_of_mem_noWrap {cx : Context} {prev next : Tree} {f : Finding}
    (h : f ∈ cx.noWrap prev next) : f.isLayout := by
  unfold noWrap at h
  split_ifs at h
  · cases h
  · rw [List.mem_singleton] at h
    subst h
    rfl

/-- A line that may wrap has only faults of the layout. -/
theorem isLayout_of_mem_mayWrap {cx : Context} {prev next : Tree} {column : Nat} {f : Finding}
    (h : f ∈ cx.mayWrap prev next column) : f.isLayout := by
  unfold mayWrap at h
  split_ifs at h
  · cases h
  · exact isLayout_of_mem_expectColumn h

/-- A line that must wrap has only faults of the layout. -/
theorem isLayout_of_mem_mustWrap {cx : Context} {prev next : Tree} {column : Nat} {f : Finding}
    (h : f ∈ cx.mustWrap prev next column) : f.isLayout := by
  unfold mustWrap at h
  split_ifs at h
  · rw [List.mem_singleton] at h
    subst h
    rfl
  · exact isLayout_of_mem_expectColumn h

end Context

namespace Machine

variable {m : Task} {s s' : State}

/-- An element that starts a line has only faults of the layout. -/
theorem isLayout_of_mem_checkIndented {consumed : List Tree} {child : Tree} {f : Finding}
    (h : f ∈ checkIndented m consumed child) : f.isLayout := by
  simp only [checkIndented] at h
  split at h
  · exact Context.isLayout_of_mem_expectColumn h
  · split at h
    · exact Context.isLayout_of_mem_expectColumn h
    · split_ifs at h
      · cases h
      · exact Context.isLayout_of_mem_expectColumn h

/-- An element of a run of elements has only faults of the layout. -/
theorem isLayout_of_mem_element {prev child : Tree} {f : Finding}
    (h : f ∈ (element m s prev child).1) : f.isLayout := by
  have hviolation : (m.cx.mustWrapViolation child (m.cx.stepIn m.base)).isLayout := rfl
  simp only [element] at h
  split at h
  · cases h
  · exact isLayout_of_mem_checkIndented h
  · cases h
  · split_ifs at h
    · exact isLayout_of_mem_checkIndented h
    · rwa [List.mem_singleton.1 h]
  · exact isLayout_of_mem_checkIndented h
  · split_ifs at h
    · cases h
    · rwa [List.mem_singleton.1 h]

/-- A layout check has only faults of the layout. -/
theorem isLayout_of_mem_applyLayout {op : LayoutOp} {prev child : Tree} {f : Finding}
    (h : f ∈ (applyLayout m s op prev child).1) : f.isLayout := by
  cases op with
  | noWrap => exact Context.isLayout_of_mem_noWrap h
  | mayWrap => exact Context.isLayout_of_mem_mayWrap h
  | mustWrap =>
    simp only [applyLayout] at h
    split_ifs at h
    · cases h
    · exact Context.isLayout_of_mem_mustWrap h
  | unindent =>
    simp only [applyLayout, closeRun] at h
    split at h
    · exact Context.isLayout_of_mem_noWrap h
    · exact Context.isLayout_of_mem_mustWrap h
    · exact Context.isLayout_of_mem_mayWrap h
  | indentIfChildren =>
    simp only [applyLayout] at h
    split_ifs at h
    · exact isLayout_of_mem_element h
    · exact Context.isLayout_of_mem_noWrap h
  | mayIndent => exact isLayout_of_mem_element h
  | mustIndent =>
    simp only [applyLayout] at h
    split_ifs at h
    · rw [List.mem_singleton.1 h]
      rfl
    · exact isLayout_of_mem_checkIndented h
  | endRun => cases h

/-- Whether an event is a structural report of the machine itself. -/
def Event.isFault : Event → Bool
  | .report f => f.message.isStructural
  | .step _ _ _ _ | .expression _ | .ambiguous _ _ _ => false

/-- A layout check logs no fault. -/
theorem isFault_of_mem_layout {op : LayoutOp} {ev : Event} (h : ev ∈ (layout m s op).1) :
    ev.isFault = false := by
  unfold layout at h
  split_ifs at h
  · cases h
  · split at h
    · obtain ⟨f, hf, rfl⟩ := List.mem_map.1 h
      exact isLayout_of_mem_applyLayout hf
    · cases h

/-- A fork logs no fault. -/
theorem isFault_of_mem_fork {target : Nat} {ev : Event} (h : ev ∈ (fork m s target).1) :
    ev.isFault = false := by
  unfold fork at h
  split at h
  · cases h
  · cases h
  · rw [Option.mem_toList] at h
    obtain ⟨child, -, rfl⟩ := Option.map_eq_some_iff.1 h
    rfl

/-- An expectation that does not end the run logs no fault. -/
theorem isFault_of_mem_consume {e : Expect} {ev : Event} (h : ev ∈ (consume m s e).1)
    (hsome : (consume m s e).2 = some s') : ev.isFault = false := by
  cases hrest : s.rest with
  | nil => simp [consume, hrest] at hsome
  | cons child rest =>
    cases haccepts : e.accepts child with
    | false => simp [consume, hrest, haccepts] at hsome
    | true =>
      simp only [consume, hrest, haccepts, Bool.not_true, Bool.false_eq_true, if_false] at h
      obtain ⟨f, -, rfl⟩ := List.mem_map.1 h
      rfl

/-- A step that does not end the run logs no fault. -/
theorem isFault_of_next? (h : next? m s = some s') {ev : Event} (hev : ev ∈ logged m s) :
    ev.isFault = false := by
  unfold logged at hev
  unfold next? at h
  cases hop : m.program.step? s.pc with
  | none =>
    rw [hop] at h
    cases h
  | some op =>
    rw [hop, Option.bind_some] at h
    rw [hop] at hev
    obtain rfl | hev := List.mem_cons.1 hev
    · rfl
    cases op with
    | expect e => exact isFault_of_mem_consume hev h
    | fork target => exact isFault_of_mem_fork hev
    | branch _ | label _ | optional => cases hev
    | finish => cases h
    | layout op => exact isFault_of_mem_layout hev

/-- A run that has not ended logs no fault. -/
theorem isFault_of_after {n : Nat} (h : after m n s = some s') {ev : Event}
    (hev : ev ∈ runFrom m n s) : ev.isFault = false := by
  induction n generalizing s with
  | zero => cases hev
  | succ n ih =>
    rw [after, Option.bind_eq_some_iff] at h
    obtain ⟨t, hnext, hafter⟩ := h
    rw [runFrom_succ, hnext, Option.map_some, Option.getD_some, List.mem_append] at hev
    obtain hev | hev := hev
    · exact isFault_of_next? hnext hev
    · exact ih hafter hev

/-- At the end with no child left only the step itself is logged. -/
theorem logged_of_finish (hop : m.program.step? s.pc = some .finish) (hrest : s.rest = []) :
    logged m s = [.step s.pc .finish s.current s.mode] := by
  simp [logged, hop, step, State.current, hrest]

/-- The last step of a run logs one fault as its last event, or it is the end of the program and no
child is left. -/
theorem logged_of_endsAt (h : EndsAt m s) :
    (∃ op f, f.message.isStructural = true ∧
        logged m s = [.step s.pc op s.current s.mode, .report f]) ∨
      m.program.step? s.pc = some .finish ∧ s.rest = [] ∧
        logged m s = [.step s.pc .finish s.current s.mode] := by
  obtain hop | ⟨e, hop, hno⟩ := h
  · cases hrest : s.rest with
    | nil => exact .inr ⟨hop, rfl, logged_of_finish hop hrest⟩
    | cons child rest =>
      exact .inl ⟨.finish, m.cx.extra child, rfl,
        by simp [logged, hop, step, State.current, hrest]⟩
  · cases hrest : s.rest with
    | nil =>
      -- Both findings for a missing child are structural, whether one was consumed before or not.
      have hmissing : (missing m s).message.isStructural = true := by
        unfold missing
        split <;> rfl
      exact .inl ⟨.expect e, missing m s, hmissing, by simp [logged, hop, step, consume, hrest]⟩
    | cons child rest =>
      rw [acceptsCurrent_of_cons hrest] at hno
      exact .inl ⟨.expect e, m.cx.unexpected child e.expected, rfl,
        by simp [logged, hop, step, consume, hrest, hno]⟩

/-- The log of a run that ends is all there, since the steps that a run is granted suffice for it.
-/
theorem run_of_endsAt {cx : Context} {f : Focus} {p : Program} (hp : p.WellFormed) {n : Nat}
    (h : after (Task.of cx f p) n (.start f.tree) = some s) (hends : EndsAt (Task.of cx f p) s) :
    run cx f p = runFrom (Task.of cx f p) n (.start f.tree) ++ logged (Task.of cx f p) s := by
  have hhalts : Halts (Task.of cx f p) (.start f.tree) := ⟨n, s, h, hends⟩
  obtain ⟨n', s', hn', h', hends'⟩ := hhalts.within hp hp.length_pos
  have hbound : p.steps.length * (f.tree.children.length + 1) ≤ stateBound (Task.of cx f p) := by
    unfold stateBound
    rw [Nat.mul_assoc]
    exact Nat.le_mul_of_pos_left _ (by omega)
  have hfuel : n' < stateBound (Task.of cx f p) + 1 :=
    Nat.lt_succ_of_lt (Nat.lt_of_lt_of_le hn' hbound)
  calc run cx f p
    _ = runFrom (Task.of cx f p) (stateBound (Task.of cx f p) + 1) (.start f.tree) := rfl
    _ = runFrom (Task.of cx f p) (n + n' + 1) (.start f.tree) :=
      (runFrom_of_endsAt h' hends' hfuel).trans (runFrom_of_endsAt h' hends' (by omega)).symm
    _ = runFrom (Task.of cx f p) n (.start f.tree) ++ logged (Task.of cx f p) s :=
      runFrom_of_endsAt h hends (by omega)

end Machine

/-- A way through a program from a step to the end on which the expectations accept children one by
one. A fork may go either way, and an optional expectation be entered or passed over. -/
inductive Program.Path (p : Program) : Nat → List Tree → Prop
  /-- The end, with no child left. -/
  | finish {pc : Nat} : p.step? pc = some .finish → Path p pc []
  /-- An expectation and the child that it accepts. -/
  | expect {pc : Nat} {e : Expect} {t : Tree} {ts : List Tree} :
    p.step? pc = some (.expect e) → e.accepts t = true → Path p (pc + 1) ts → Path p pc (t :: ts)
  /-- A fork that goes on with the next step. -/
  | stay {pc target : Nat} {ts : List Tree} :
    p.step? pc = some (.fork target) → Path p (pc + 1) ts → Path p pc ts
  /-- A fork that jumps. -/
  | jump {pc target : Nat} {ts : List Tree} :
    p.step? pc = some (.fork target) → Path p target ts → Path p pc ts
  /-- A branch. -/
  | branch {pc target : Nat} {ts : List Tree} :
    p.step? pc = some (.branch target) → Path p target ts → Path p pc ts
  /-- An optional expectation that is entered. -/
  | take {pc : Nat} {ts : List Tree} :
    p.step? pc = some .optional → Path p (pc + 1) ts → Path p pc ts
  /-- An optional expectation that is passed over. -/
  | skip {pc i : Nat} {e : Expect} {ts : List Tree} :
    p.step? pc = some .optional → p.nextExpect? (pc + 1) = some (i, e) → Path p (i + 1) ts →
      Path p pc ts
  /-- A label. -/
  | label {pc n : Nat} {ts : List Tree} :
    p.step? pc = some (.label n) → Path p (pc + 1) ts → Path p pc ts
  /-- A layout check. -/
  | layout {pc : Nat} {op : LayoutOp} {ts : List Tree} :
    p.step? pc = some (.layout op) → Path p (pc + 1) ts → Path p pc ts

/-- Each move of control is part of a way through the program. -/
theorem Program.Path.of_move {p : Program} {child : Option Kind} {pc pc' : Nat} {ts : List Tree}
    (h : p.move? child pc = some pc') (hpath : p.Path pc' ts) : p.Path pc ts := by
  obtain ⟨target, hop, rfl⟩ | hop | ⟨hop, rfl⟩ | ⟨n, hop, rfl⟩ | ⟨op, hop, rfl⟩ :=
    Program.move?_eq_some h
  · split_ifs at hpath
    · exact .stay hop hpath
    · exact .jump hop hpath
  · exact .branch hop hpath
  · obtain hnext | ⟨i, e, hnext, hi⟩ := Program.afterOptional_cases p pc child
    · rw [hnext] at hpath
      exact .take hop hpath
    · rw [hi] at hpath
      exact .skip hop hnext hpath
  · exact .label hop hpath
  · exact .layout hop hpath

namespace Machine

variable {m : Task} {s s' : State}

/-- A run is part of a way through the program: a way from where it stands is one from where it
started. -/
theorem path_of_after {n : Nat} (h : after m n s = some s') (hpath : m.program.Path s'.pc s'.rest) :
    m.program.Path s.pc s.rest := by
  induction n generalizing s with
  | zero =>
    cases h
    exact hpath
  | succ n ih =>
    rw [after, Option.bind_eq_some_iff] at h
    obtain ⟨t, hnext, hafter⟩ := h
    have ht := ih hafter
    obtain ⟨hmove, -, hrest⟩ | ⟨e, child, hop, hrest, haccepts, hpc, -⟩ := next?_eq_some hnext
    · rw [hrest] at ht
      exact .of_move hmove ht
    · rw [hpc] at ht
      rw [hrest]
      exact .expect hop haccepts ht

/-- The log of a run that failed: its last event is a structural report of the machine, and it has
no other one. -/
def FailedLog (log : List Event) : Prop :=
  ∃ before f, log = before ++ [.report f] ∧ f.message.isStructural = true ∧
    ∀ ev ∈ before, ev.isFault = false

/-- A run that succeeded: it reported nothing structural itself, it stands at the end with every
child consumed, and there is a way through the program for the children. -/
structure Succeeded (cx : Context) (f : Focus) (p : Program) : Prop where
  /-- No event of the log is a structural report of the machine. -/
  quiet : ∀ ev ∈ run cx f p, ev.isFault = false
  /-- The run came to the end of the program with all children consumed, in order. -/
  finished : ∃ n s, after (Task.of cx f p) n (.start f.tree) = some s ∧
    p.step? s.pc = some .finish ∧ s.rest = [] ∧ s.consumed.reverse = f.tree.children
  /-- There is a way through the program on which the children are accepted one by one. -/
  path : p.Path 0 f.tree.children

/-- A failed log holds a structural report of the machine. -/
theorem FailedLog.exists_isFault {log : List Event} (h : FailedLog log) :
    ¬ ∀ ev ∈ log, ev.isFault = false := by
  obtain ⟨before, f, rfl, hf, -⟩ := h
  intro hall
  have hno := hall (.report f) (by simp)
  rw [Event.isFault, hf] at hno
  cases hno

/-- A run that halts fails or succeeds, by what its last step logs. -/
theorem failedLog_or_succeeded {cx : Context} {f : Focus} {p : Program} (hp : p.WellFormed)
    (h : Halts (Task.of cx f p) (.start f.tree)) : FailedLog (run cx f p) ∨ Succeeded cx f p := by
  obtain ⟨n, s, hafter, hends⟩ := h
  have hrun := run_of_endsAt hp hafter hends
  have hquiet : ∀ ev ∈ runFrom (Task.of cx f p) n (.start f.tree), ev.isFault = false :=
    fun ev hev => isFault_of_after hafter hev
  -- The event of a step is never a fault, so only the report of the last step can be one.
  have hquiet' : ∀ op, ∀ ev ∈ runFrom (Task.of cx f p) n (.start f.tree) ++
      [.step s.pc op s.current s.mode], ev.isFault = false := by
    intro op ev hev
    obtain hev | hev := List.mem_append.1 hev
    · exact hquiet ev hev
    · rw [List.mem_singleton.1 hev]
      rfl
  obtain ⟨op, fault, hfault, hlast⟩ | ⟨hop, hrest, hlast⟩ := logged_of_endsAt hends
  · refine .inl ⟨_, fault, ?_, hfault, hquiet' op⟩
    rw [hrun, hlast, List.append_assoc]
    rfl
  · have hchildren := after_children hafter
    rw [hrest, List.append_nil] at hchildren
    refine .inr ⟨?_, ⟨n, s, hafter, hop, hrest, hchildren⟩, ?_⟩
    · rw [hrun, hlast]
      exact hquiet' .finish
    · exact path_of_after hafter (by rw [hrest]; exact .finish hop)

/-- Every run of an accepted program stays at steps of the program, and one that halts either fails
with one structural report, its last event, or succeeds without any. -/
theorem run_failed_xor_succeeded {kind : Kind} {authored : List Step} {multiple : Bool}
    {p : Program} (h : Program.resolve kind authored multiple = .ok p) (cx : Context) (f : Focus) :
    (∀ n s, after (Task.of cx f p) n (.start f.tree) = some s → s.pc < p.steps.length) ∧
      (Halts (Task.of cx f p) (.start f.tree) →
        Xor (FailedLog (run cx f p)) (Succeeded cx f p)) := by
  have hp := Program.wellFormed_of_resolve h
  refine ⟨fun n s hafter => after_pc_lt (m := Task.of cx f p) hp hafter hp.length_pos,
    fun hhalts => ?_⟩
  obtain hfailed | hok := failedLog_or_succeeded hp hhalts
  · exact .inl ⟨hfailed, fun hok => hfailed.exists_isFault hok.quiet⟩
  · exact .inr ⟨hok, fun hfailed => hfailed.exists_isFault hok.quiet⟩

/-- The outcomes of a program for braces around at most one child, on a node that has two. -/
theorem run_failed_xor_succeeded_braces :
    let authored : List Step :=
      [.expect (.kind (.token .lBrace)), .fork 0, .expect .any, .label 0,
       .expect (.kind (.token .rBrace)), .finish]
    let p : Program :=
      ⟨.construct .block,
        [.expect (.kind (.token .lBrace)), .fork 4, .expect .any, .label 0,
         .expect (.kind (.token .rBrace)), .finish], false⟩
    let cx : Context := ⟨.ofString "\x7ba b\x7d" 4, .default⟩
    let f : Focus := .ofRoot (.node .block (.token .lBrace "\x7b" ⟨1, 0⟩)
      [.token .identifier "a" ⟨1, 1⟩, .token .identifier "b" ⟨1, 3⟩, .token .rBrace "\x7d" ⟨1, 4⟩])
    Program.resolve (.construct .block) authored false = .ok p ∧
      Halts (Task.of cx f p) (.start f.tree) ∧
      Xor (FailedLog (run cx f p)) (Succeeded cx f p) := by
  intro authored p cx f
  have hresolve : Program.resolve (.construct .block) authored false = .ok p := rfl
  have hhalts : Halts (Task.of cx f p) (.start f.tree) :=
    ⟨4, _, rfl, .inr ⟨.kind (.token .rBrace), rfl, rfl⟩⟩
  exact ⟨hresolve, hhalts, (run_failed_xor_succeeded hresolve cx f).2 hhalts⟩

end Machine

end TreeLayout
