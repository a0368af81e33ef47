import TreeLayout.Proofs.Variation.Machine
import Mathlib.Data.List.Chain

/-!
# What layout checks ask for

Each layout check finds nothing exactly if the child stands where the check wants it. Here this is
said for the checks one by one, in terms of lines and columns, and then for runs: `EndsWithout` is a
run from a state that comes to its end and reports no finding of a certain sort, and there is one
equation for it and each sort of step. With them the layout that a program asks for is read off its
steps, and a loop becomes a condition on each two neighbours (`List.IsChain`) by induction over the
children that are left.
-/

namespace TreeLayout

namespace Context

variable {cx : Context} {prev next : Tree} {column : Nat}

/-- Nothing is found exactly if the node stands in the column. -/
theorem expectColumn_eq_nil_iff : cx.expectColumn next column = [] ↔ cx.column next = column := by
  unfold expectColumn
  dsimp only
  split_ifs with h <;> simp [h]

/-- Nothing is found exactly if the nodes share a line. -/
theorem noWrap_eq_nil_iff : cx.noWrap prev next = [] ↔ sameLine prev next = true := by
  unfold noWrap
  split_ifs with h <;> simp [h]

/-- Nothing is found exactly if the nodes share a line or the later one stands in the column. -/
theorem mayWrap_eq_nil_iff :
    cx.mayWrap prev next column = [] ↔ sameLine prev next = true ∨ cx.column next = column := by
  unfold mayWrap
  split_ifs with h <;> simp [h, expectColumn_eq_nil_iff]

/-- Nothing is found exactly if the later node starts a line in the column. -/
theorem mustWrap_eq_nil_iff :
    cx.mustWrap prev next column = [] ↔ sameLine prev next = false ∧ cx.column next = column := by
  unfold mustWrap
  split_ifs with h <;> simp [h, expectColumn_eq_nil_iff]

/-- The second of two elements stays on the line of the first, or starts one in a column if elements
may do as they like. -/
def KeepsLine (cx : Context) (multiple : Bool) (column : Nat) (prev next : Tree) : Prop :=
  sameLine prev next = true ∨ multiple = true ∧ cx.column next = column

/-- The second of two elements starts a line in a column, or stays on that of the first if elements
may do as they like. -/
def TakesLine (cx : Context) (multiple : Bool) (column : Nat) (prev next : Tree) : Prop :=
  sameLine prev next = false ∧ cx.column next = column ∨ multiple = true ∧ sameLine prev next = true

end Context

namespace Machine

variable {m : Task} {s s' : State} {prev child : Tree}

/-- An element that starts a line and is no case group stands one level in. -/
theorem checkIndented_eq_nil_iff {consumed : List Tree} (hchild : child.kind.isCaseLike = false) :
    checkIndented m consumed child = [] ↔ m.cx.column child = m.cx.stepIn m.base := by
  unfold checkIndented
  simp only [hchild, Bool.not_false, if_true]
  exact Context.expectColumn_eq_nil_iff

/-- How an element follows the one before it, by the mode that the first one decided. -/
def Follows (m : Task) : WrapMode → Tree → Tree → Prop
  | .wrapped => m.cx.TakesLine m.program.multiplePerLine (m.cx.stepIn m.base)
  | .sameLine | .unset => m.cx.KeepsLine m.program.multiplePerLine (m.cx.stepIn m.base)

/-- How the mark that closes a run follows the last element. -/
def Closes (m : Task) : WrapMode → Tree → Tree → Prop
  | .sameLine => fun prev child => sameLine prev child = true
  | .wrapped => fun prev child => sameLine prev child = false ∧ m.cx.column child = m.base
  | .unset => fun prev child => sameLine prev child = true ∨ m.cx.column child = m.base

/-- The first element of a run stays on the line or stands one level in, and decides the mode. -/
theorem element_first (hmode : s.mode = .unset) (hchild : child.kind.isCaseLike = false) :
    ((element m s prev child).1 = [] ↔
        sameLine prev child = true ∨ m.cx.column child = m.cx.stepIn m.base) ∧
      (element m s prev child).2 = if sameLine prev child then .sameLine else .wrapped := by
  unfold element
  cases hsame : sameLine prev child with
  | true => simp [hmode]
  | false => simp [hmode, checkIndented_eq_nil_iff hchild]

/-- A further element of a run follows as the mode says, and leaves it as it is. -/
theorem element_further (hmode : s.mode ≠ .unset) (hchild : child.kind.isCaseLike = false) :
    ((element m s prev child).1 = [] ↔ Follows m s.mode prev child) ∧
      (element m s prev child).2 = s.mode := by
  unfold element Follows Context.KeepsLine Context.TakesLine
  cases hmode' : s.mode with
  | unset => exact absurd hmode' hmode
  | sameLine =>
    cases hsame : sameLine prev child <;> cases hmultiple : m.program.multiplePerLine <;>
      simp [hsame, checkIndented_eq_nil_iff hchild]
  | wrapped =>
    cases hsame : sameLine prev child <;> cases hmultiple : m.program.multiplePerLine <;>
      simp [hsame, checkIndented_eq_nil_iff hchild]

/-- A run is closed as its mode says. -/
theorem closeRun_eq_nil_iff {mode : WrapMode} :
    closeRun m mode prev child = [] ↔ Closes m mode prev child := by
  cases mode with
  | sameLine => exact Context.noWrap_eq_nil_iff
  | wrapped => exact Context.mustWrap_eq_nil_iff
  | unset => exact Context.mayWrap_eq_nil_iff

/-- The run from a state comes to its end, and the machine reports no finding with a property. -/
inductive EndsWithout (m : Task) (P : Finding → Prop) : State → Prop
  /-- The next step is the last one. -/
  | last {s : State} : EndsAt m s → (∀ g, Event.report g ∈ logged m s → ¬ P g) → EndsWithout m P s
  /-- The run goes on. -/
  | next {s s' : State} : next? m s = some s' → (∀ g, Event.report g ∈ logged m s → ¬ P g) →
    EndsWithout m P s' → EndsWithout m P s

variable {P : Finding → Prop} {pc : Nat} {consumed rest : List Tree} {mode : WrapMode}

/-- What is reported from a state is what its step reports, and what is reported from the next. -/
theorem endsWithout_of_next? (h : next? m s = some s') :
    EndsWithout m P s ↔ (∀ g, Event.report g ∈ logged m s → ¬ P g) ∧ EndsWithout m P s' := by
  constructor
  · intro hs
    cases hs with
    | last hends _ =>
      rw [next?_of_endsAt hends] at h
      cases h
    | next hnext hlogged hrest =>
      rw [h, Option.some.injEq] at hnext
      subst hnext
      exact ⟨hlogged, hrest⟩
  · rintro ⟨hlogged, hrest⟩
    exact .next h hlogged hrest

/-- What a run reports until its last step. -/
theorem endsWithout_of_after {n : Nat} (h : after m n s = some s') (hends : EndsAt m s') :
    EndsWithout m P s ↔ ∀ g, Event.report g ∈ runFrom m n s ++ logged m s' → ¬ P g := by
  induction n generalizing s with
  | zero =>
    cases h
    constructor
    · intro hs
      cases hs with
      | last _ hlogged => exact hlogged
      | next hnext _ _ =>
        rw [next?_of_endsAt hends] at hnext
        cases hnext
    · exact .last hends
  | succ n ih =>
    rw [after, Option.bind_eq_some_iff] at h
    obtain ⟨t, hnext, hafter⟩ := h
    rw [endsWithout_of_next? hnext, ih hafter, runFrom_succ, hnext, Option.map_some,
      Option.getD_some, List.append_assoc]
    simp only [List.mem_append (s := logged m s), or_imp, forall_and]

/-- A run of a program that halts on a node ends without findings of a sort exactly if its log has
no report of one. -/
theorem endsWithout_start_iff {cx : Context} {f : Focus} {p : Program} (hp : p.WellFormed)
    (h : Halts (Task.of cx f p) (.start f.tree)) :
    EndsWithout (Task.of cx f p) P (.start f.tree) ↔
      ∀ g, Event.report g ∈ run cx f p → ¬ P g := by
  obtain ⟨n, t, hafter, hends⟩ := h
  rw [endsWithout_of_after hafter hends, run_of_endsAt hp hafter hends]

/-- Running a program that expects no expression finds nothing exactly if the machine reports
nothing. -/
theorem findings_run_eq_nil_iff {cx : Context} {f : Focus} {p : Program}
    (hexpr : .expect .expr ∉ p.steps) :
    findings (run cx f p) = [] ↔ ∀ g, Event.report g ∈ run cx f p → ¬ True := by
  have hrun : ∀ g, Event.expression g ∉ run cx f p := by
    intro g hg
    obtain ⟨n, t, -, hlogged⟩ := exists_after_of_mem_runFrom hg
    unfold logged at hlogged
    split at hlogged
    · cases hlogged
    · rename_i op hop
      obtain hg | hg := List.mem_cons.1 hlogged
      · cases hg
      obtain ⟨_, hg⟩ | ⟨_, rfl, -⟩ | ⟨_, _, -, -, -, hg⟩ := mem_step_fst hg
      · cases hg
      · exact hexpr (List.mem_of_getElem? hop)
      · cases hg
  rw [findings, List.filterMap_eq_nil_iff]
  constructor
  · intro hnone g hg
    cases hnone _ hg
  · intro hnone ev hev
    cases ev with
    | step | ambiguous => rfl
    | report g => exact absurd trivial (hnone g hev)
    | expression g => exact absurd hev (hrun g)

/-- Where the run only moves on, it reports nothing. -/
theorem endsWithout_of_silent {op : Step} (hop : m.program.step? s.pc = some op)
    (hsilent : ∀ g, Event.report g ∉ (step m s op).1) (hnext : (step m s op).2 = some s') :
    EndsWithout m P s ↔ EndsWithout m P s' := by
  have hnext' : next? m s = some s' := by
    unfold next?
    rw [hop, Option.bind_some, hnext]
  rw [endsWithout_of_next? hnext']
  refine and_iff_right fun g hg => ?_
  unfold logged at hg
  rw [hop] at hg
  obtain hg | hg := List.mem_cons.1 hg
  · cases hg
  · exact absurd hg (hsilent g)

/-- A fork goes where the program's choice says, and reports nothing. -/
theorem endsWithout_fork {target : Nat} (hop : m.program.step? pc = some (.fork target)) :
    EndsWithout m P ⟨pc, consumed, rest, mode⟩ ↔
      EndsWithout m P ⟨if m.program.choose pc target (rest.head?.map Tree.kind) = .stay then pc + 1
        else target, consumed, rest, mode⟩ := by
  refine endsWithout_of_silent hop (fun g hg => ?_) (fork_snd m _ target)
  simp only [step, fork] at hg
  split at hg
  · cases hg
  · cases hg
  · rw [Option.mem_toList, Option.map_eq_some_iff] at hg
    obtain ⟨child, -, hg⟩ := hg
    cases hg

/-- A fork that jumps exactly at children of one kind goes on before another child. -/
theorem endsWithout_fork_of_ne {target : Nat} {k : Kind}
    (hop : m.program.step? pc = some (.fork target))
    (hfork : ∀ c, m.program.choose pc target c = .stay ↔ c ≠ some k) (hchild : child.kind ≠ k) :
    EndsWithout m P ⟨pc, consumed, child :: rest, mode⟩ ↔
      EndsWithout m P ⟨pc + 1, consumed, child :: rest, mode⟩ := by
  have hstay : m.program.choose pc target (some child.kind) = .stay :=
    (hfork _).2 fun h => hchild (Option.some.inj h)
  rw [endsWithout_fork hop, List.head?_cons, Option.map_some, if_pos hstay]

/-- A fork that jumps exactly at children of one kind does so before such a child. -/
theorem endsWithout_fork_of_eq {target : Nat} {k : Kind}
    (hop : m.program.step? pc = some (.fork target))
    (hfork : ∀ c, m.program.choose pc target c = .stay ↔ c ≠ some k) (hchild : child.kind = k) :
    EndsWithout m P ⟨pc, consumed, child :: rest, mode⟩ ↔
      EndsWithout m P ⟨target, consumed, child :: rest, mode⟩ := by
  have hjump : m.program.choose pc target (some child.kind) ≠ .stay :=
    fun h => (hfork _).1 h (congrArg some hchild)
  rw [endsWithout_fork hop, List.head?_cons, Option.map_some, if_neg hjump]

/-- A branch reports nothing. -/
theorem endsWithout_branch {target : Nat} (hop : m.program.step? pc = some (.branch target)) :
    EndsWithout m P ⟨pc, consumed, rest, mode⟩ ↔ EndsWithout m P ⟨target, consumed, rest, mode⟩ :=
  endsWithout_of_silent hop (fun _ => List.not_mem_nil) rfl

/-- A label reports nothing. -/
theorem endsWithout_label {n : Nat} (hop : m.program.step? pc = some (.label n)) :
    EndsWithout m P ⟨pc, consumed, rest, mode⟩ ↔ EndsWithout m P ⟨pc + 1, consumed, rest, mode⟩ :=
  endsWithout_of_silent hop (fun _ => List.not_mem_nil) rfl

/-- An expectation that accepts the child reports nothing itself. -/
theorem endsWithout_expect {e : Expect} (hop : m.program.step? pc = some (.expect e))
    (haccepts : e.accepts child = true) :
    EndsWithout m P ⟨pc, consumed, child :: rest, mode⟩ ↔
      EndsWithout m P ⟨pc + 1, child :: consumed, rest, mode⟩ := by
  refine endsWithout_of_silent hop (fun g hg => ?_) (by simp [step, consume, haccepts])
  simp only [step, consume, haccepts, Bool.not_true, Bool.false_eq_true, if_false, List.mem_map,
    reduceCtorEq, and_false, exists_false] at hg

/-- An expectation of a child's own kind reports nothing itself. -/
theorem endsWithout_expect_kind {k : Kind} (hop : m.program.step? pc = some (.expect (.kind k)))
    (hchild : child.kind = k) :
    EndsWithout m P ⟨pc, consumed, child :: rest, mode⟩ ↔
      EndsWithout m P ⟨pc + 1, child :: consumed, rest, mode⟩ :=
  endsWithout_expect hop (decide_eq_true hchild)

/-- The end with no child left reports nothing. -/
theorem endsWithout_finish (hop : m.program.step? pc = some .finish) :
    EndsWithout m P ⟨pc, consumed, [], mode⟩ := by
  refine .last (.inl hop) fun g hg => ?_
  rw [logged_of_finish hop rfl, List.mem_singleton] at hg
  cases hg

/-- A layout check between two children reports what it finds, if the findings in question include
those about the layout. -/
theorem endsWithout_layout {op : LayoutOp} (hP : ∀ g : Finding, g.isLayout → P g)
    (hop : m.program.step? pc = some (.layout op)) (hne : op ≠ .endRun) :
    EndsWithout m P ⟨pc, prev :: consumed, child :: rest, mode⟩ ↔
      (applyLayout m ⟨pc, prev :: consumed, child :: rest, mode⟩ op prev child).1 = [] ∧
        EndsWithout m P ⟨pc + 1, prev :: consumed, child :: rest,
          (applyLayout m ⟨pc, prev :: consumed, child :: rest, mode⟩ op prev child).2⟩ := by
  let s : State := ⟨pc, prev :: consumed, child :: rest, mode⟩
  have hstep : step m s (.layout op) =
      ((applyLayout m s op prev child).1.map .report,
        some { s with pc := pc + 1, mode := (applyLayout m s op prev child).2 }) := by
    rw [← applyLayout_rightmost]
    simp [step, layout, hne, s, State.current, State.previous]
  have hnext : next? m s =
      some { s with pc := pc + 1, mode := (applyLayout m s op prev child).2 } := by
    unfold next?
    rw [show m.program.step? s.pc = _ from hop, Option.bind_some, hstep]
  have hlogged : ∀ g, Event.report g ∈ logged m s ↔ g ∈ (applyLayout m s op prev child).1 := by
    intro g
    unfold logged
    rw [show m.program.step? s.pc = _ from hop]
    simp [hstep]
  rw [endsWithout_of_next? hnext]
  refine and_congr_left fun _ => ?_
  -- Whatever the check finds is about the layout, so finding none of these is finding nothing.
  rw [List.eq_nil_iff_forall_not_mem]
  refine forall_congr' fun g => ?_
  rw [hlogged]
  exact ⟨fun h hg => h hg (hP g (isLayout_of_mem_applyLayout hg)), fun h hg => absurd hg h⟩

end Machine

open Machine (Task Event EndsWithout)

/-- The table holds the program that a template resolves to. Run on a node, it ends without findings
of a sort exactly if its log has no report of one. -/
theorem ProgramTable.exists_endsWithout_iff {s : LayoutSettings} {kind : ConstructKind}
    {steps : List Step} {multiple : Bool} {p : Program}
    (hauthored : Template.authored? s kind = some (steps, multiple))
    (hresolve : Program.resolve (.construct kind) steps multiple = .ok p) (cx : Context) (f : Focus)
    (hkind : f.tree.kind = .construct kind) (P : Finding → Prop) :
    ∃ table, ofSettings s = .ok table ∧ table.get? f.tree.kind = some p ∧
      ((∀ g, Event.report g ∈ Machine.run cx f p → ¬ P g) ↔
        EndsWithout (Task.of cx f p) P (.start f.tree)) := by
  obtain ⟨table, htable⟩ := exists_ofSettings s
  have hget : table.get? (.construct kind) = some p :=
    (get?_eq_some_iff htable).2 ⟨steps, multiple, hauthored, hresolve⟩
  have hhalts := haltsWithin htable (List.mem_of_find?_eq_some hget) cx f
  refine ⟨table, htable, by rw [hkind, hget], Iff.symm ?_⟩
  exact Machine.endsWithout_start_iff (Program.wellFormed_of_resolve hresolve) hhalts.halts

end TreeLayout
