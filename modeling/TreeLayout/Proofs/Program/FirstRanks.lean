import TreeLayout.Proofs.Program.Acceptance
import Mathlib.Logic.Relation
import Mathlib.Order.Bounds.Basic

/-!
# What a child is met with first

Looking ahead answers a question about reachability. `Program.LeadsTo` says to which steps control
may go while the current child stays: both paths of a fork, and at an optional expectation the one
that the child decides on. Among the steps that are reached in this way, those that accept the child
make up the set of ranks `Program.firstRanks`, and looking ahead finds the greatest of them
(`finds_acceptanceFrom`).

A budget that runs out hides steps and makes none up, so what is found is in the set in any case.
That nothing was hidden is known if some of the budget is left over: the second path of a fork is
looked along with what the first one left, so then neither of them ran out of it.
-/

namespace TreeLayout

namespace Program

variable {p : Program} {child : Option Kind} {pc pc' target r : Nat}

/-- Control may go from a step to another one without consuming the current child, or without there
being one. -/
def LeadsTo (p : Program) (child : Option Kind) (pc pc' : Nat) : Prop :=
  match p.step? pc with
  | some (.fork target) => pc' = pc + 1 ∨ pc' = target
  | some (.branch target) => pc' = target
  | some .optional =>
    match p.nextExpect? (pc + 1) with
    | some (i, e) => pc' = if e.acceptsCurrent child then i else i + 1
    | none => pc' = pc + 1
  | some (.label _) | some (.layout _) => pc' = pc + 1
  | some (.expect _) | some .finish | none => False

/-- A step accepts the child with a rank: an expectation with its specificity, and the end with zero
where no child is left. -/
def AcceptsAt (p : Program) (child : Option Kind) (pc r : Nat) : Prop :=
  (∃ e, p.step? pc = some (.expect e) ∧ e.acceptsCurrent child = true ∧ r = e.specificity) ∨
    (p.step? pc = some .finish ∧ child = none ∧ r = 0)

/-- The ranks with which the child is accepted by the steps that control may come to from a step
without consuming it. -/
def firstRanks (p : Program) (child : Option Kind) (pc : Nat) : Set Nat :=
  {r | ∃ pc', Relation.ReflTransGen (p.LeadsTo child) pc pc' ∧ p.AcceptsAt child pc' r}

/-- A child is accepted by the step itself or from one of the steps that it leads to. -/
theorem mem_firstRanks_iff : r ∈ p.firstRanks child pc ↔
    p.AcceptsAt child pc r ∨ ∃ pc', p.LeadsTo child pc pc' ∧ r ∈ p.firstRanks child pc' := by
  constructor
  · rintro ⟨q, hreach, haccepts⟩
    rcases hreach.cases_head with rfl | ⟨pc', hstep, hreach⟩
    · exact .inl haccepts
    · exact .inr ⟨pc', hstep, q, hreach, haccepts⟩
  · rintro (haccepts | ⟨pc', hstep, q, hreach, haccepts⟩)
    · exact ⟨pc, .refl, haccepts⟩
    · exact ⟨q, hreach.head hstep, haccepts⟩

/-- Where a step accepts nothing itself and leads to one other step, what is accepted from there is
accepted here. -/
theorem firstRanks_of_leadsTo (haccepts : ∀ r, ¬ p.AcceptsAt child pc r)
    (hstep : ∀ q, p.LeadsTo child pc q ↔ q = pc') :
    p.firstRanks child pc = p.firstRanks child pc' := by
  ext r
  rw [mem_firstRanks_iff, or_iff_right (haccepts r)]
  simp only [hstep, exists_eq_left]

/-- A fork accepts from both its paths. -/
theorem firstRanks_fork (hop : p.step? pc = some (.fork target)) :
    p.firstRanks child pc = p.firstRanks child (pc + 1) ∪ p.firstRanks child target := by
  ext r
  rw [mem_firstRanks_iff, Set.mem_union]
  simp [AcceptsAt, LeadsTo, hop, or_and_right, exists_or]

/-- An expectation accepts the child itself or does not. -/
theorem firstRanks_expect {e : Expect} (hop : p.step? pc = some (.expect e)) :
    p.firstRanks child pc = {r | e.rank? child = some r} := by
  ext r
  rw [mem_firstRanks_iff, Set.mem_ofPred_eq, Expect.rank?, Option.ite_none_right_eq_some]
  simp [AcceptsAt, LeadsTo, hop, @eq_comm Nat r]

/-- The end accepts that no child is left. -/
theorem firstRanks_finish (hop : p.step? pc = some .finish) :
    p.firstRanks child pc = {r | (if child.isNone then some 0 else none) = some r} := by
  ext r
  rw [mem_firstRanks_iff, Set.mem_ofPred_eq, Option.ite_none_right_eq_some]
  simp [AcceptsAt, LeadsTo, hop, @eq_comm Nat r]

/-- Outside of the program nothing is accepted. -/
theorem firstRanks_none (hop : p.step? pc = none) : p.firstRanks child pc = ∅ := by
  ext r
  rw [mem_firstRanks_iff]
  simp [AcceptsAt, LeadsTo, hop]

/-- An optional expectation that accepts the child is all that is met. -/
theorem firstRanks_optional {i : Nat} {e : Expect} (hop : p.step? pc = some .optional)
    (hnext : p.nextExpect? (pc + 1) = some (i, e)) (haccepts : e.acceptsCurrent child = true) :
    p.firstRanks child pc = {r | some e.specificity = some r} := by
  have hstep : p.firstRanks child pc = p.firstRanks child i :=
    firstRanks_of_leadsTo (by simp [AcceptsAt, hop]) (by simp [LeadsTo, hop, hnext, haccepts])
  rw [hstep, firstRanks_expect (nextExpect?_eq_some hnext).2, Expect.rank?, if_pos haccepts]

/-- What looking ahead finds with a budget, of which `left` is left over, among the ranks that there
are. -/
structure Finds (ranks : Set Nat) (rank : Option Nat) (left : Nat) : Prop where
  /-- What is found is there. -/
  mem : ∀ r, rank = some r → r ∈ ranks
  /-- If the budget did not run out, nothing is better than what is found. -/
  le : 0 < left → ∀ r ∈ ranks, some r ≤ rank

/-- Without a budget nothing is found. -/
theorem finds_none_zero (ranks : Set Nat) : Finds ranks none 0 where
  mem _ hr := absurd hr.symm (Option.some_ne_none _)
  le hleft := absurd hleft (Nat.lt_irrefl 0)

/-- Where there are no ranks, none is found. -/
theorem finds_empty (left : Nat) : Finds ∅ none left where
  mem _ hr := absurd hr.symm (Option.some_ne_none _)
  le _ r hr := absurd hr (Set.notMem_empty r)

/-- A rank is found among itself. -/
theorem finds_self (rank : Option Nat) (left : Nat) : Finds {r | rank = some r} rank left where
  mem _ hr := hr
  le _ r hr := by
    rw [Set.mem_ofPred_eq] at hr
    rw [hr]
    exact Option.some_le_some.2 (Nat.le_refl r)

/-- The better of two ranks is found among those of both paths, if no more is left over after the
second one than after the first one. -/
theorem Finds.union {A B : Set Nat} {here there : Option Nat} {left left' : Nat}
    (hA : Finds A here left) (hB : Finds B there left') (hle : left' ≤ left) :
    Finds (A ∪ B) (bestRank here there) left' where
  mem r hr := (eq_some_of_bestRank hr).imp (hA.mem r) (hB.mem r)
  le hleft r hr := by
    rcases hr with hr | hr
    · exact le_bestRank_of_le_left (hA.le (Nat.lt_of_lt_of_le hleft hle) r hr)
    · exact le_bestRank_of_le_right (hB.le hleft r hr)

/-- If some of the budget is left over, what is found is the greatest of the ranks, and nothing is
found only if there are none. -/
theorem Finds.isGreatest_iff {ranks : Set Nat} {rank : Option Nat} {left : Nat}
    (h : Finds ranks rank left) (hleft : 0 < left) :
    (∀ r, rank = some r ↔ IsGreatest ranks r) ∧ (rank = none ↔ ranks = ∅) := by
  have hle := h.le hleft
  cases rank with
  | none =>
    have hempty : ranks = ∅ :=
      Set.eq_empty_of_forall_notMem fun r hr => Option.not_some_le_none (hle r hr)
    subst hempty
    exact ⟨fun r => ⟨nofun, fun hr => absurd hr.1 (Set.notMem_empty r)⟩, fun _ => rfl, fun _ => rfl⟩
  | some r =>
    have hmem := h.mem r rfl
    have hgreatest : IsGreatest ranks r := ⟨hmem, fun s hs => Option.some_le_some.1 (hle s hs)⟩
    refine ⟨fun s => ⟨fun hs => ?_, fun hs => ?_⟩, nofun, fun hempty => ?_⟩
    · rwa [← Option.some.inj hs]
    · rw [hgreatest.unique hs]
    · rw [hempty] at hmem
      exact absurd hmem (Set.notMem_empty r)

/-- Looking ahead finds the best of the ranks with which the child is accepted first. -/
theorem finds_acceptanceFrom {depth budget : Nat} (hdepth : budget ≤ depth) (pc : Nat) :
    Finds (p.firstRanks child pc) (acceptanceFrom p child depth budget pc).1
      (acceptanceFrom p child depth budget pc).2 := by
  induction depth generalizing budget pc with
  | zero =>
    obtain rfl : budget = 0 := by omega
    exact finds_none_zero _
  | succ depth ih =>
    rcases Nat.eq_zero_or_pos budget with rfl | hpos
    · exact finds_none_zero _
    obtain ⟨b, rfl⟩ : ∃ b, budget = b + 1 := ⟨budget - 1, by omega⟩
    have hb : b ≤ depth := by omega
    -- Control only goes on to one other step.
    have hgo : ∀ q, (∀ r, ¬ p.AcceptsAt child pc r) → (∀ q', p.LeadsTo child pc q' ↔ q' = q) →
        Finds (p.firstRanks child pc) (acceptanceFrom p child depth b q).1
          (acceptanceFrom p child depth b q).2 := fun q haccepts hstep => by
      rw [firstRanks_of_leadsTo haccepts hstep]
      exact ih hb q
    unfold acceptanceFrom
    cases hop : p.step? pc with
    | none =>
      rw [firstRanks_none hop]
      exact finds_empty b
    | some op =>
      cases op with
      | expect e =>
        rw [firstRanks_expect hop]
        exact finds_self _ b
      | finish =>
        rw [firstRanks_finish hop]
        exact finds_self _ b
      | fork target =>
        -- The second path is looked along with what the first one left.
        have hleft := acceptanceFrom_snd_le p child depth b (pc + 1)
        rw [firstRanks_fork hop]
        exact (ih hb (pc + 1)).union (ih (hleft.trans hb) target) (acceptanceFrom_snd_le _ _ _ _ _)
      | branch target => exact hgo target (by simp [AcceptsAt, hop]) (by simp [LeadsTo, hop])
      | label _ | layout _ =>
        exact hgo (pc + 1) (by simp [AcceptsAt, hop]) (by simp [LeadsTo, hop])
      | optional =>
        cases hnext : p.nextExpect? (pc + 1) with
        | none => exact hgo (pc + 1) (by simp [AcceptsAt, hop]) (by simp [LeadsTo, hop, hnext])
        | some next =>
          obtain ⟨i, e⟩ := next
          by_cases haccepts : e.acceptsCurrent child = true
          · rw [firstRanks_optional hop hnext haccepts]
            simp only [haccepts, if_true]
            exact finds_self _ b
          · simp only [haccepts, if_false, Bool.false_eq_true]
            exact hgo (i + 1) (by simp [AcceptsAt, hop]) (by simp [LeadsTo, hop, hnext, haccepts])

/-- Looking ahead computes the first sets of a program. If some of the budget is left over, the rank
that is found is the greatest with which the child is accepted by a step that control may come to
without consuming it, and none is found exactly if there is no such step. Where the budget runs out,
what is found is still one of these ranks. A larger budget never finds less. -/
theorem acceptanceFrom_eq_max_firstRanks (p : Program) (child : Option Kind) (budget pc : Nat) :
    (0 < (acceptanceFrom p child budget budget pc).2 →
        (∀ r, (acceptanceFrom p child budget budget pc).1 = some r ↔
          IsGreatest (p.firstRanks child pc) r) ∧
        ((acceptanceFrom p child budget budget pc).1 = none ↔ p.firstRanks child pc = ∅)) ∧
      (∀ r, (acceptanceFrom p child budget budget pc).1 = some r → r ∈ p.firstRanks child pc) ∧
      ∀ budget', budget ≤ budget' →
        (acceptanceFrom p child budget budget pc).1 ≤
          (acceptanceFrom p child budget' budget' pc).1 := by
  have hfinds : Finds (p.firstRanks child pc) _ _ := finds_acceptanceFrom (Nat.le_refl budget) pc
  refine ⟨hfinds.isGreatest_iff, hfinds.mem, fun budget' hle => ?_⟩
  exact (acceptanceFrom_mono p child hle (Nat.le_refl budget) (Nat.le_refl budget') pc).1

/-- A fork between any expression and an optional identifier: the identifier is met as such, and if
no child is left the end is met behind it. With a budget of two steps only the first path of the
fork is looked along. -/
theorem acceptanceFrom_eq_max_firstRanks_optional :
    let p : Program :=
      ⟨.construct .block,
        [.fork 4, .expect .expr, .branch 8, .label 0, .optional, .layout .noWrap,
          .expect (.kind (.token .identifier)), .label 1, .finish], false⟩
    let name : Option Kind := some (.token .identifier)
    0 < (acceptanceFrom p name 9 9 0).2 ∧ IsGreatest (p.firstRanks name 0) 3 ∧
      0 < (acceptanceFrom p none 9 9 0).2 ∧ IsGreatest (p.firstRanks none 0) 0 ∧
      acceptanceFrom p name 2 2 0 = (some 2, 0) ∧ 2 ∈ p.firstRanks name 0 ∧
      some 2 ≤ (acceptanceFrom p name 9 9 0).1 := by
  intro p name
  have hname : acceptanceFrom p name 9 9 0 = (some 3, 6) := rfl
  have hnone : acceptanceFrom p none 9 9 0 = (some 0, 4) := rfl
  have hshort : acceptanceFrom p name 2 2 0 = (some 2, 0) := rfl
  have hleft : 0 < (acceptanceFrom p name 9 9 0).2 := by rw [hname]; decide
  have hleft' : 0 < (acceptanceFrom p none 9 9 0).2 := by rw [hnone]; decide
  obtain ⟨hbest, -, -⟩ := acceptanceFrom_eq_max_firstRanks p name 9 0
  obtain ⟨hbest', -, -⟩ := acceptanceFrom_eq_max_firstRanks p none 9 0
  obtain ⟨-, hmem, hmore⟩ := acceptanceFrom_eq_max_firstRanks p name 2 0
  refine ⟨hleft, ((hbest hleft).1 3).1 (by rw [hname]), hleft', ((hbest' hleft').1 0).1 (by rw [hnone]),
    hshort, hmem 2 (by rw [hshort]), ?_⟩
  have hle := hmore 9 (by decide)
  rwa [hshort] at hle

end Program

end TreeLayout
