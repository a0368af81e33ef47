import TreeLayout.Proofs.Program.Flow

/-!
# Paths that accept

Looking ahead is paid from a budget that both paths of a fork share. A larger budget never lowers
what is found, and never leaves less (`acceptanceFrom_mono`): the second path of a fork is looked
along with what the first one left, so the two facts need each other.

The machine looks ahead anew at each fork that it comes to, with the full budget. So a step from
which looking ahead finds that the current child is accepted leads to a step of that sort again
(`Sees.move`), wherever control goes, until an expectation accepts the child or the program ends
where none is left.
-/

namespace TreeLayout

variable {p : Program} {child : Option Kind} {pc pc' : Nat}

/-- The better of two ranks grows with both. -/
theorem bestRank_mono {a a' b b' : Option Nat} (ha : a ≤ a') (hb : b ≤ b') :
    bestRank a b ≤ bestRank a' b' := by
  cases a <;> cases a' <;> cases b <;> cases b' <;>
    simp only [bestRank, Option.none_le, Option.some_le_some, Option.not_some_le_none] at ha hb ⊢
      <;> omega

/-- What is no better than the first of two ranks is no better than the better of both. -/
theorem le_bestRank_of_le_left {a b c : Option Nat} (h : c ≤ a) : c ≤ bestRank a b := by
  cases a <;> cases b <;> cases c <;>
    simp only [bestRank, Option.none_le, Option.some_le_some, Option.not_some_le_none] at h ⊢
      <;> omega

/-- What is no better than the second of two ranks is no better than the better of both. -/
theorem le_bestRank_of_le_right {a b c : Option Nat} (h : c ≤ b) : c ≤ bestRank a b := by
  cases a <;> cases b <;> cases c <;>
    simp only [bestRank, Option.none_le, Option.some_le_some, Option.not_some_le_none] at h ⊢
      <;> omega

/-- Looking ahead leaves a part of its budget. -/
theorem acceptanceFrom_snd_le (p : Program) (child : Option Kind) (depth budget pc : Nat) :
    (acceptanceFrom p child depth budget pc).2 ≤ budget := by
  induction depth generalizing budget pc with
  | zero => exact Nat.le_refl budget
  | succ depth ih =>
    cases budget with
    | zero => exact Nat.le_refl 0
    | succ budget =>
      -- One step is paid here, and the others by the rest of the way.
      have hgo : ∀ pc', (acceptanceFrom p child depth budget pc').2 ≤ budget + 1 := fun pc' =>
        Nat.le_succ_of_le (ih budget pc')
      unfold acceptanceFrom
      split
      · exact Nat.le_succ budget
      · exact Nat.le_succ budget
      · exact Nat.le_succ budget
      · exact hgo _
      · exact Nat.le_trans (ih _ _) (hgo _)
      · split
        · exact hgo _
        · split
          · exact Nat.le_succ budget
          · exact hgo _
      · exact hgo _
      · exact hgo _

/-- With a larger budget looking ahead finds no less and leaves no less. -/
theorem acceptanceFrom_mono (p : Program) (child : Option Kind) {depth depth' budget budget' : Nat}
    (hle : budget ≤ budget') (hdepth : budget ≤ depth) (hdepth' : budget' ≤ depth') (pc : Nat) :
    (acceptanceFrom p child depth budget pc).1 ≤ (acceptanceFrom p child depth' budget' pc).1 ∧
      (acceptanceFrom p child depth budget pc).2 ≤
        (acceptanceFrom p child depth' budget' pc).2 := by
  induction depth generalizing depth' budget budget' pc with
  | zero =>
    obtain rfl : budget = 0 := by omega
    exact ⟨Option.none_le, Nat.zero_le _⟩
  | succ depth ih =>
    rcases Nat.eq_zero_or_pos budget with rfl | hpos
    · exact ⟨Option.none_le, Nat.zero_le _⟩
    obtain ⟨b, rfl⟩ : ∃ b, budget = b + 1 := ⟨budget - 1, by omega⟩
    obtain ⟨b', rfl⟩ : ∃ b', budget' = b' + 1 := ⟨budget' - 1, by omega⟩
    obtain ⟨d', rfl⟩ : ∃ d', depth' = d' + 1 := ⟨depth' - 1, by omega⟩
    have hgo : ∀ q, (acceptanceFrom p child depth b q).1 ≤ (acceptanceFrom p child d' b' q).1 ∧
        (acceptanceFrom p child depth b q).2 ≤ (acceptanceFrom p child d' b' q).2 :=
      ih (by omega) (by omega) (by omega)
    have hend : ∀ rank : Option Nat, rank ≤ rank ∧ b ≤ b' := by
      intro rank
      refine ⟨?_, by omega⟩
      cases rank with
      | none => exact Option.none_le
      | some r => exact Option.some_le_some.2 (Nat.le_refl r)
    unfold acceptanceFrom
    split
    · exact hend none
    · exact hend _
    · exact hend _
    · exact hgo _
    · -- The second path has what the first one left, which is no less with the larger budget.
      rename_i target _
      obtain ⟨hhere, hleft⟩ := hgo (pc + 1)
      have hspent := acceptanceFrom_snd_le p child depth b (pc + 1)
      have hspent' := acceptanceFrom_snd_le p child d' b' (pc + 1)
      have hfits : (acceptanceFrom p child d' b' (pc + 1)).2 ≤ d' := by omega
      obtain ⟨hthere, hleft'⟩ := ih hleft (by omega) hfits target
      exact ⟨bestRank_mono hhere hthere, hleft'⟩
    · split
      · exact hgo _
      · split
        · exact hend _
        · exact hgo _
    · exact hgo _
    · exact hgo _

/-- A path that accepts a child with a part of the budget accepts it with all of it. -/
theorem acceptance_ne_none {depth budget : Nat} (hdepth : budget ≤ depth)
    (hbudget : budget ≤ lookaheadLimit) (h : (acceptanceFrom p child depth budget pc).1 ≠ none) :
    acceptance p pc child ≠ none := by
  intro hnone
  obtain ⟨hle, -⟩ := acceptanceFrom_mono p child hbudget hdepth (Nat.le_refl lookaheadLimit) pc
  unfold acceptance at hnone
  rw [hnone] at hle
  cases hrank : (acceptanceFrom p child depth budget pc).1 with
  | none => exact h hrank
  | some r =>
    rw [hrank] at hle
    exact Option.not_some_le_none hle

namespace Program

/-- From a step the current child, or that there is none, is seen to be accepted: by looking ahead,
or by the next expectation if only layout checks stand before it. -/
def Sees (p : Program) (child : Option Kind) (pc : Nat) : Prop :=
  acceptance p pc child ≠ none ∨
    ∃ i e, p.nextExpect? pc = some (i, e) ∧ e.acceptsCurrent child = true

/-- The next expectation is the step itself, or the next one after it if it is a layout check. -/
theorem nextExpect?_cases {i : Nat} {e : Expect} (h : p.nextExpect? pc = some (i, e)) :
    p.step? pc = some (.expect e) ∨
      ∃ op, p.step? pc = some (.layout op) ∧ p.nextExpect? (pc + 1) = some (i, e) := by
  unfold nextExpect? at h ⊢
  rcases Nat.lt_or_ge pc p.steps.length with hlt | hge
  · have hop : p.step? pc = some p.steps[pc] := List.getElem?_eq_getElem hlt
    rw [List.drop_eq_getElem_cons hlt] at h
    rw [hop]
    generalize p.steps[pc] = step at h
    cases step with
    | expect e' =>
      cases h
      exact .inl rfl
    | layout op => exact .inr ⟨op, rfl, h⟩
    | fork _ | branch _ | label _ | optional | finish => cases h
  · rw [List.drop_eq_nil_of_le hge] at h
    cases h

/-- A fork with a path that accepts goes along a path that does. -/
theorem acceptance_ne_none_of_choose {target : Nat}
    (h : acceptance p (pc + 1) child ≠ none ∨ acceptance p target child ≠ none) :
    acceptance p (if p.choose pc target child = .stay then pc + 1 else target) child ≠ none := by
  unfold choose
  cases hthere : acceptance p target child with
  | none =>
    -- The jump is not taken.
    rw [hthere] at h
    have hstay : ForkChoice.between (acceptance p (pc + 1) child) none = .stay := by
      cases acceptance p (pc + 1) child <;> rfl
    rw [if_pos hstay]
    exact h.resolve_right fun hne => hne rfl
  | some t =>
    cases hhere : acceptance p (pc + 1) child with
    | none =>
      -- The jump is the only path that accepts.
      rw [if_neg (by simp [ForkChoice.between]), hthere]
      exact Option.some_ne_none t
    | some r =>
      split_ifs
      · rw [hhere]
        exact Option.some_ne_none r
      · rw [hthere]
        exact Option.some_ne_none t

/-- Where the child is seen to be accepted, it still is after each move of control. -/
theorem Sees.move (h : p.Sees child pc) (hmove : p.move? child pc = some pc') :
    p.Sees child pc' := by
  -- Looking ahead goes on from the next step with one less of the budget.
  have hgo : ∀ q, (acceptanceFrom p child 255 255 q).1 ≠ none → p.Sees child q := fun q hq =>
    .inl (acceptance_ne_none (Nat.le_refl 255) (by decide) hq)
  obtain haccepts | ⟨i, e, hnext, haccepts⟩ := h
  · unfold acceptance lookaheadLimit acceptanceFrom at haccepts
    obtain ⟨target, hop, rfl⟩ | hop | ⟨hop, rfl⟩ | ⟨n, hop, rfl⟩ | ⟨op, hop, rfl⟩ :=
      move?_eq_some hmove
    · -- One of the paths accepts with what there is of the budget, so it does with all of it.
      simp only [hop] at haccepts
      refine .inl (acceptance_ne_none_of_choose ?_)
      by_contra hno
      rw [not_or, not_ne_iff, not_ne_iff] at hno
      obtain ⟨hhere, hthere⟩ := hno
      have hleft := acceptanceFrom_snd_le p child 255 255 (pc + 1)
      have hhere' : (acceptanceFrom p child 255 255 (pc + 1)).1 = none := by
        by_contra hne
        exact acceptance_ne_none (Nat.le_refl 255) (by decide) hne hhere
      have hthere' : (acceptanceFrom p child 255
          (acceptanceFrom p child 255 255 (pc + 1)).2 target).1 = none := by
        by_contra hne
        exact acceptance_ne_none hleft (Nat.le_trans hleft (by decide)) hne hthere
      rw [hhere', hthere'] at haccepts
      exact haccepts rfl
    · simp only [hop] at haccepts
      exact hgo pc' haccepts
    · simp only [hop] at haccepts
      unfold Machine.afterOptional
      split
      · rename_i i e hnext
        rw [hnext] at haccepts
        by_cases he : e.acceptsCurrent child = true
        · rw [if_pos he]
          exact .inr ⟨i, e, hnext, he⟩
        · simp only [he, if_false, Bool.false_eq_true] at haccepts ⊢
          exact hgo (i + 1) haccepts
      · rename_i hnext
        rw [hnext] at haccepts
        exact hgo (pc + 1) haccepts
    · simp only [hop] at haccepts
      exact hgo (pc + 1) haccepts
    · simp only [hop] at haccepts
      exact hgo (pc + 1) haccepts
  · -- Control passes over the layout checks before the expectation.
    obtain hop | ⟨op, hop, hnext'⟩ := nextExpect?_cases hnext
    · simp [move?, hop] at hmove
    · simp only [move?, hop, Option.some.injEq] at hmove
      subst hmove
      exact .inr ⟨i, e, hnext', haccepts⟩

/-- Where the child is seen to be accepted, it still is after any number of moves. -/
theorem Sees.moves {n : Nat} (h : p.Sees child pc) (hmoves : p.moves? child n pc = some pc') :
    p.Sees child pc' := by
  induction n generalizing pc with
  | zero =>
    cases hmoves
    exact h
  | succ n ih =>
    rw [moves?, Option.bind_eq_some_iff] at hmoves
    obtain ⟨q, hmove, hrest⟩ := hmoves
    exact ih (h.move hmove) hrest

/-- Where the child is seen to be accepted and control stops, the child is accepted: by an
expectation, or by the end if there is none. -/
theorem Sees.accepts (h : p.Sees child pc) :
    (∀ e, p.step? pc = some (.expect e) → e.acceptsCurrent child = true) ∧
      (p.step? pc = some .finish → child = none) := by
  obtain haccepts | ⟨i, e, hnext, haccepts⟩ := h
  · unfold acceptance lookaheadLimit acceptanceFrom at haccepts
    constructor
    · intro e hop
      simp only [hop, Expect.rank?] at haccepts
      by_contra hno
      exact haccepts (if_neg hno)
    · intro hop
      simp only [hop] at haccepts
      by_contra hsome
      rw [if_neg (by simpa using hsome)] at haccepts
      exact haccepts rfl
  · obtain hop | ⟨op, hop, -⟩ := nextExpect?_cases hnext
    · rw [hop]
      refine ⟨fun e' he => ?_, nofun⟩
      cases he
      exact haccepts
    · rw [hop]
      exact ⟨nofun, nofun⟩

end Program

end TreeLayout
