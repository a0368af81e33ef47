import TreeLayout.Proofs.Machine.Steps
import Mathlib.Data.Finset.Card
import Mathlib.Data.Finset.Prod

/-!
# When runs halt

A run halts unless it gets onto a circle: a step from which control comes back to that step while
the same child is current (`Program.Circles`). A run on a circle stays there (`circles_of_after`). A
run that meets no circle never stands twice at one step with the same children left, so it takes at
most one step for each step of the program and each number of children left
(`haltsWithin_of_not_circles`).

Accepted programs may have circles. The check for empty loops looks at the steps between a branch
and its target, and not at the way that control takes through them: an optional expectation among
these steps is passed over when it does not accept the child, and a fork may jump over an
expectation or go back by itself. To halt is to meet no circle, for a run, and to reach none, for a
program (`Program.Reaches`).
-/

namespace TreeLayout

namespace Machine

variable {m : Task} {s s' : State}

/-- The run from a state comes to a step that ends it. -/
def Halts (m : Task) (s : State) : Prop :=
  ∃ n s', after m n s = some s' ∧ EndsAt m s'

/-- The run from a state ends after at most a number of steps, the last one included. -/
def HaltsWithin (m : Task) (s : State) (bound : Nat) : Prop :=
  ∃ n s', n < bound ∧ after m n s = some s' ∧ EndsAt m s'

/-- A run that ends within a bound halts. -/
theorem HaltsWithin.halts {bound : Nat} (h : HaltsWithin m s bound) : Halts m s := by
  obtain ⟨n, s', -, hafter, hends⟩ := h
  exact ⟨n, s', hafter, hends⟩

/-- A run that is on a circle stays on it. -/
theorem circles_of_after {n : Nat} (h : after m n s = some s')
    (hs : m.program.Circles s.currentKind s.pc) :
    m.program.Circles s'.currentKind s'.pc := by
  refine after_invariant (P := fun t => m.program.Circles t.currentKind t.pc) ?_ h hs
  intro t t' ht hnext
  obtain ⟨pc, hmove, hcircles⟩ := ht.move
  obtain ⟨mode, hnext'⟩ := next?_of_move hmove
  rw [hnext', Option.some.injEq] at hnext
  subst hnext
  exact hcircles

/-- A step on a circle does not end the run. -/
theorem not_endsAt_of_circles (hs : m.program.Circles s.currentKind s.pc) : ¬ EndsAt m s := by
  intro hends
  obtain ⟨pc, hmove, -⟩ := hs.move
  obtain ⟨mode, hnext⟩ := next?_of_move hmove
  rw [next?_of_endsAt hends] at hnext
  cases hnext

/-- A run that gets onto a circle never halts. -/
theorem not_halts_of_circles {n : Nat} (h : after m n s = some s')
    (hs : m.program.Circles s'.currentKind s'.pc) : ¬ Halts m s := by
  rintro ⟨k, t, hk, hends⟩
  obtain ⟨d, rfl⟩ | ⟨d, rfl⟩ : (∃ d, k = n + d) ∨ ∃ d, n = k + (d + 1) := by
    rcases Nat.lt_or_ge k n with hlt | hge
    · exact .inr ⟨n - k - 1, by omega⟩
    · exact .inl ⟨k - n, by omega⟩
  · -- The run ends after it got onto the circle.
    rw [after_add, h, Option.bind_some] at hk
    exact not_endsAt_of_circles (circles_of_after hk hs) hends
  · -- The run ended before.
    rw [after_add, hk, Option.bind_some, after, next?_of_endsAt hends] at h
    cases h

/-- Two states of a run at one step with equally many children left are on a circle. -/
theorem circles_of_repeat {i k : Nat} {t t' : State} (h : after m i s = some t)
    (h' : after m (i + (k + 1)) s = some t') (hpc : t'.pc = t.pc)
    (hlen : t'.rest.length = t.rest.length) : m.program.Circles t.currentKind t.pc := by
  rw [after_add, h, Option.bind_some] at h'
  obtain ⟨-, hmoves⟩ := after_moves h' hlen
  rw [hpc] at hmoves
  exact ⟨k, hmoves⟩

/-- A run that has not ended within a bound passes a state after each number of steps up to it. -/
theorem exists_after_of_not_haltsWithin (hp : m.program.WellFormed)
    (hs : s.pc < m.program.steps.length) {bound : Nat} (h : ¬ HaltsWithin m s bound) :
    ∀ n ≤ bound, ∃ t, after m n s = some t := by
  intro n hn
  induction n with
  | zero => exact ⟨s, rfl⟩
  | succ n ih =>
    obtain ⟨t, ht⟩ := ih (by omega)
    cases hnext : next? m t with
    | none =>
      -- The run would have ended here, within the bound.
      have hends := endsAt_of_next?_eq_none (after_pc_lt hp ht hs) hnext
      exact absurd ⟨n, t, by omega, ht, hends⟩ h
    | some t' => exact ⟨t', by rw [after_succ', ht, Option.bind_some, hnext]⟩

/-- A run of a well-formed program that meets no circle takes at most one step for each step of the
program and each number of children left. -/
theorem haltsWithin_of_not_circles (hp : m.program.WellFormed)
    (hs : s.pc < m.program.steps.length)
    (h : ∀ n t, after m n s = some t → ¬ m.program.Circles t.currentKind t.pc) :
    HaltsWithin m s (m.program.steps.length * (s.rest.length + 1)) := by
  by_contra hno
  generalize hbound : m.program.steps.length * (s.rest.length + 1) = bound at hno
  have hstate := exists_after_of_not_haltsWithin hp hs hno
  -- The run passes more states than there are pairs of a step and a number of children left.
  let place : Option State → Nat × Nat := fun t => (t.elim 0 State.pc, t.elim 0 (·.rest.length))
  have hmaps : ∀ i ∈ Finset.range (bound + 1), place (after m i s) ∈
      Finset.range m.program.steps.length ×ˢ Finset.range (s.rest.length + 1) := by
    intro i hi
    obtain ⟨t, ht⟩ := hstate i (by rw [Finset.mem_range] at hi; omega)
    rw [ht, Finset.mem_product, Finset.mem_range, Finset.mem_range]
    exact ⟨after_pc_lt hp ht hs, Nat.lt_succ_of_le (after_rest_length_le ht)⟩
  have hcard : (Finset.range m.program.steps.length ×ˢ Finset.range (s.rest.length + 1)).card <
      (Finset.range (bound + 1)).card := by
    rw [Finset.card_product, Finset.card_range, Finset.card_range, hbound, Finset.card_range]
    omega
  obtain ⟨i, hi, j, hj, hne, hplace⟩ :=
    Finset.exists_ne_map_eq_of_card_lt_of_maps_to hcard hmaps
  -- So it stands twice at one place, which is on a circle.
  wlog hlt : i < j generalizing i j
  · exact this j hj i hi hne.symm hplace.symm (by omega)
  rw [Finset.mem_range] at hi hj
  obtain ⟨t, ht⟩ := hstate i (by omega)
  obtain ⟨t', ht'⟩ := hstate j (by omega)
  rw [ht, ht'] at hplace
  obtain ⟨hpc, hlen⟩ := Prod.mk.inj hplace
  obtain ⟨k, rfl⟩ : ∃ k, j = i + (k + 1) := ⟨j - i - 1, by omega⟩
  exact h i t ht (circles_of_repeat ht ht' hpc.symm hlen.symm)

/-- A run of a well-formed program halts exactly if it meets no circle. -/
theorem halts_iff_of_wellFormed (hp : m.program.WellFormed) (hs : s.pc < m.program.steps.length) :
    Halts m s ↔ ∀ n t, after m n s = some t → ¬ m.program.Circles t.currentKind t.pc := by
  constructor
  · intro hhalts n t ht hcircles
    exact not_halts_of_circles ht hcircles hhalts
  · intro h
    exact (haltsWithin_of_not_circles hp hs h).halts

/-- A run of a well-formed program that halts at all does so within the bound. -/
theorem Halts.within (h : Halts m s) (hp : m.program.WellFormed)
    (hs : s.pc < m.program.steps.length) :
    HaltsWithin m s (m.program.steps.length * (s.rest.length + 1)) :=
  haltsWithin_of_not_circles hp hs ((halts_iff_of_wellFormed hp hs).1 h)

end Machine

/-- Control can come to a step while `child` is the kind of the current child, on some list of
children. -/
inductive Program.Reaches (p : Program) : Option Kind → Nat → Prop
  /-- The first step is reached with any child. -/
  | start (child : Option Kind) : Reaches p child 0
  /-- Control moves on while the child stays. -/
  | move {child : Option Kind} {pc pc' : Nat} :
    Reaches p child pc → p.move? child pc = some pc' → Reaches p child pc'
  /-- An accepted child is consumed, and any child may follow it. -/
  | consume {k : Kind} {pc : Nat} {e : Expect} (child : Option Kind) :
    Reaches p (some k) pc → p.step? pc = some (.expect e) → e.acceptsKind k = true →
      Reaches p child (pc + 1)

namespace Machine

variable {m : Task} {s s' : State}

/-- A run only comes to steps that the program reaches with the child that is current then. -/
theorem reaches_of_after {t : Tree} {n : Nat} (h : after m n (.start t) = some s) :
    m.program.Reaches s.currentKind s.pc := by
  refine after_invariant (P := fun t => m.program.Reaches t.currentKind t.pc) ?_ h (.start _)
  intro t t' ht hnext
  obtain ⟨hmove, -, hrest⟩ | ⟨e, child, hop, hrest, haccepts, hpc, -⟩ := next?_eq_some hnext
  · have hkind : t'.currentKind = t.currentKind := by
      rw [State.currentKind, State.current, hrest]
      rfl
    rw [hkind]
    exact ht.move hmove
  · -- The child that is consumed was the current one, and any child may be current after it.
    have hkind : t.currentKind = some child.kind := by
      rw [State.currentKind, State.current, hrest]
      rfl
    rw [hkind] at ht
    rw [hpc]
    exact ht.consume _ hop haccepts

/-- A leaf of a kind. -/
def leaf : Kind → Tree
  | .token k => .token k "" ⟨1, 0⟩
  | .construct k => .empty k ⟨1, 0⟩

/-- A leaf has its kind. -/
@[simp] theorem kind_leaf (k : Kind) : (leaf k).kind = k := by
  cases k <;> rfl

/-- Where a program reaches a step, some children lead a run there, whatever follows the current
child. -/
theorem exists_after_of_reaches {p : Program} {child : Option Kind} {pc : Nat}
    (h : p.Reaches child pc) :
    ∃ ts : List Tree, ∀ (m : Task) (rest : List Tree), m.program = p →
      rest.head?.map Tree.kind = child →
      ∃ n s, after m n ⟨0, [], ts ++ rest, .unset⟩ = some s ∧ s.pc = pc ∧ s.rest = rest := by
  induction h with
  | start child => exact ⟨[], fun m rest _ _ => ⟨0, _, rfl, rfl, rfl⟩⟩
  | @move child pc pc' _ hmove ih =>
    obtain ⟨ts, hts⟩ := ih
    refine ⟨ts, fun m rest hm hrest => ?_⟩
    obtain ⟨n, s, hafter, rfl, rfl⟩ := hts m rest hm hrest
    rw [← hrest, ← hm] at hmove
    obtain ⟨mode, hnext⟩ := next?_of_move (m := m) (s := s) hmove
    refine ⟨n + 1, { s with pc := pc', mode := mode }, ?_, rfl, rfl⟩
    rw [after_succ', hafter, Option.bind_some, hnext]
  | @consume k pc e child _ hop haccepts ih =>
    obtain ⟨ts, hts⟩ := ih
    -- A leaf of the accepted kind is put after the children that led to the expectation.
    refine ⟨ts ++ [leaf k], fun m rest hm _ => ?_⟩
    obtain ⟨n, s, hafter, rfl, hrest⟩ := hts m (leaf k :: rest) hm (by simp)
    rw [← hm] at hop
    have hnext := next?_of_accepts hop hrest (by rw [Expect.accepts, kind_leaf, haccepts])
    refine ⟨n + 1, ⟨s.pc + 1, leaf k :: s.consumed, rest, s.mode⟩, ?_, rfl, rfl⟩
    rw [List.append_assoc, List.singleton_append, after_succ', hafter, Option.bind_some, hnext]

/-- An accepted program halts on a node exactly if its run there meets no circle, and it halts on
every node exactly if no step that it reaches is on a circle with the child that is current then. -/
theorem halts_iff_never_circles {kind : Kind} {authored : List Step} {multiple : Bool}
    {p : Program} (h : Program.resolve kind authored multiple = .ok p) :
    (∀ (cx : Context) (f : Focus), Halts (Task.of cx f p) (.start f.tree) ↔
      ∀ n s, after (Task.of cx f p) n (.start f.tree) = some s →
        ¬ p.Circles s.currentKind s.pc) ∧
      ((∀ (cx : Context) (f : Focus), Halts (Task.of cx f p) (.start f.tree)) ↔
        ∀ child pc, p.Reaches child pc → ¬ p.Circles child pc) := by
  have hp := Program.wellFormed_of_resolve h
  have hrun : ∀ (cx : Context) (f : Focus), Halts (Task.of cx f p) (.start f.tree) ↔
      ∀ n s, after (Task.of cx f p) n (.start f.tree) = some s →
        ¬ p.Circles s.currentKind s.pc :=
    fun cx f => halts_iff_of_wellFormed hp hp.length_pos
  refine ⟨hrun, fun hall child pc hreaches hcircles => ?_, fun hnone cx f => ?_⟩
  · -- Children that lead to the circle make a node on which the program does not halt.
    obtain ⟨ts, hts⟩ := exists_after_of_reaches hreaches
    let cx : Context := ⟨.ofString "" 4, .default⟩
    let rest := (child.map leaf).toList
    let f : Focus := .ofRoot (.construct .block ⟨1, 0⟩ (ts ++ rest))
    have hrest : rest.head?.map Tree.kind = child := by cases child <;> simp [rest]
    obtain ⟨n, s, hafter, rfl, hs⟩ := hts (Task.of cx f p) rest rfl hrest
    have hstart : State.start f.tree = ⟨0, [], ts ++ rest, .unset⟩ := by
      simp [State.start, f, Focus.ofRoot]
    rw [← hstart] at hafter
    have hkind : s.currentKind = child := by rw [State.currentKind, State.current, hs, hrest]
    rw [← hkind] at hcircles
    exact (hrun cx f).1 (hall cx f) n s hafter hcircles
  · exact (hrun cx f).2 fun n s hafter => hnone _ _ (reaches_of_after hafter)

/-- The condition at a program that halts on an identifier, and on no node without children. -/
theorem halts_iff_never_circles_optional_commas :
    let authored : List Step :=
      [.fork 1, .label 0, .optional, .expect (.kind (.token .comma)), .branch 0,
       .label 1, .expect (.kind (.token .identifier)), .finish]
    let p : Program :=
      ⟨.construct .block,
        [.fork 6, .label 0, .optional, .expect (.kind (.token .comma)), .branch 2,
         .label 1, .expect (.kind (.token .identifier)), .finish], false⟩
    Program.resolve (.construct .block) authored false = .ok p ∧
      (∀ (cx : Context) (f : Focus), Halts (Task.of cx f p) (.start f.tree) ↔
        ∀ n s, after (Task.of cx f p) n (.start f.tree) = some s →
          ¬ p.Circles s.currentKind s.pc) ∧
        ((∀ (cx : Context) (f : Focus), Halts (Task.of cx f p) (.start f.tree)) ↔
          ∀ child pc, p.Reaches child pc → ¬ p.Circles child pc) := by
  intro authored p
  have hresolve : Program.resolve (.construct .block) authored false = .ok p := rfl
  exact ⟨hresolve, halts_iff_never_circles hresolve⟩

/-- A loop around an optional expectation is accepted, and never ends once no child is left. -/
theorem optional_loop_never_halts :
    ∃ p, Program.resolve (.construct .block)
        [.label 0, .optional, .expect .any, .branch 0, .finish] false = .ok p ∧
      ¬ Halts (Task.of ⟨.ofString "" 4, .default⟩ (.ofRoot (.empty .block ⟨1, 0⟩)) p)
        (.start (.empty .block ⟨1, 0⟩)) := by
  let p : Program :=
    ⟨.construct .block, [.label 0, .optional, .expect .any, .branch 1, .finish], false⟩
  let m := Task.of ⟨.ofString "" 4, .default⟩ (.ofRoot (.empty .block ⟨1, 0⟩)) p
  refine ⟨p, rfl, ?_⟩
  have hafter : after m 1 (.start (.empty .block ⟨1, 0⟩)) = some ⟨1, [], [], .unset⟩ := rfl
  -- The run passes over the expectation to the branch, and goes back by it.
  have hcircles : p.Circles none 1 := ⟨1, rfl⟩
  exact not_halts_of_circles hafter hcircles

end Machine

end TreeLayout
