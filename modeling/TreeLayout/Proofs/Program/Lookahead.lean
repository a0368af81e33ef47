import TreeLayout.Verify.Lookahead
import Mathlib.Tactic.SplitIfs

/-!
# One child of lookahead

A fork compares how well its two paths accept the current child. Looking along a path follows
control without consuming a child, so it depends on a budget and, at optional expectations, on the
child. Two questions about it can be answered from the steps alone: which expectations the child may
be compared with, and how many steps that takes. `Program.outlook?` answers both, and
`looks_of_outlook?` proves the answer right for every child.

Two expectations that accept a child equally well are the same one (`Expect.eq_of_rank?`). So a fork
can tell its paths apart if no expectation is in the outlook of both, which `Program.tellsApart`
checks for all forks of a program.
-/

namespace TreeLayout

/-- A child is accepted with one specificity by one expectation only. -/
theorem Expect.eq_of_rank? {e e' : Expect} {k : Kind} {r : Nat} (h : e.rank? (some k) = some r)
    (h' : e'.rank? (some k) = some r) : e = e' := by
  have hspec : ∀ {e : Expect}, e.rank? (some k) = some r →
      e.acceptsKind k = true ∧ e.specificity = r := by
    intro e he
    unfold rank? at he
    split_ifs at he with haccepts
    exact ⟨haccepts, Option.some.inj he⟩
  obtain ⟨haccepts, hr⟩ := hspec h
  obtain ⟨haccepts', hr'⟩ := hspec h'
  -- The specificity tells the three forms apart; an expectation of one kind also names the child's.
  cases e <;> cases e' <;>
    simp_all only [specificity, acceptsKind, decide_eq_true_eq] <;> omega

namespace Program

variable {p : Program} {child : Option Kind} {pc pc' target n : Nat} {rank : Option Nat}

/-- Looking ahead from a step takes `n` steps and finds a rank: whatever of the budget is beyond
these steps is left over. -/
def Looks (p : Program) (child : Option Kind) (pc n : Nat) (rank : Option Nat) : Prop :=
  ∀ depth rest, n + rest ≤ depth → acceptanceFrom p child depth (n + rest) pc = (rank, rest)

/-- Looking ahead finds what it does with the full budget, if it takes no more than that. -/
theorem Looks.acceptance_eq (h : p.Looks child pc n rank) (hn : n ≤ lookaheadLimit) :
    acceptance p pc child = rank := by
  obtain ⟨rest, hrest⟩ := Nat.exists_eq_add_of_le hn
  rw [acceptance, hrest, h _ _ (Nat.le_refl _)]

/-- Where control only goes on to another step, looking ahead takes one step more. -/
theorem Looks.succ (h : p.Looks child pc' n rank)
    (hstep : ∀ depth budget, acceptanceFrom p child (depth + 1) (budget + 1) pc =
      acceptanceFrom p child depth budget pc') :
    p.Looks child pc (n + 1) rank := by
  intro depth rest hle
  obtain ⟨depth, rfl⟩ : ∃ d, depth = d + 1 := ⟨depth - 1, by omega⟩
  rw [Nat.add_right_comm, hstep]
  exact h depth rest (by omega)

/-- Looking along both paths of a fork takes their steps and one more, and finds the better rank. -/
theorem Looks.fork {here there : Option Nat} {m : Nat} (hop : p.step? pc = some (.fork target))
    (hhere : p.Looks child (pc + 1) n here) (hthere : p.Looks child target m there) :
    p.Looks child pc (n + m + 1) (bestRank here there) := by
  intro depth rest hle
  obtain ⟨depth, rfl⟩ : ∃ d, depth = d + 1 := ⟨depth - 1, by omega⟩
  -- What the first path leaves of the budget pays for the second one.
  have hfirst := hhere depth (m + rest) (by omega)
  have hsecond := hthere depth rest (by omega)
  rw [show n + m + 1 + rest = n + (m + rest) + 1 by omega]
  simp only [acceptanceFrom, hop, hfirst, hsecond]

/-- What looking ahead from a step can come to. -/
structure Outlook where
  /-- The expectations that the child may be compared with. -/
  expects : List Expect
  /-- The most steps that are taken. -/
  steps : Nat

/-- The outlook of a step before another one, with the expectations that it adds. -/
def Outlook.before (o : Outlook) (expects : List Expect) : Outlook :=
  ⟨expects ++ o.expects, o.steps + 1⟩

/-- The outlook of a fork. -/
def Outlook.fork (here there : Outlook) : Outlook :=
  ⟨here.expects ++ there.expects, here.steps + there.steps + 1⟩

/-- The outlook from a step, if no path along which a child is looked at is longer than `depth`. -/
def outlook? (p : Program) : (depth pc : Nat) → Option Outlook
  | 0, _ => none
  | depth + 1, pc =>
    match p.step? pc with
    | none | some .finish => some ⟨[], 1⟩
    | some (.expect e) => some ⟨[e], 1⟩
    | some (.branch target) => (p.outlook? depth target).map (·.before [])
    | some (.fork target) =>
      (p.outlook? depth (pc + 1)).bind fun here => (p.outlook? depth target).map here.fork
    | some .optional =>
      match p.nextExpect? (pc + 1) with
      | none => (p.outlook? depth (pc + 1)).map (·.before [])
      | some (i, e) => (p.outlook? depth (i + 1)).map (·.before [e])
    | some (.label _) | some (.layout _) => (p.outlook? depth (pc + 1)).map (·.before [])

/-- A rank that looking ahead finds for a child is that of an expectation in the outlook. -/
def Outlook.Covers (o : Outlook) (child : Option Kind) (rank : Option Nat) : Prop :=
  ∀ r, rank = some r → child = none ∨ ∃ e ∈ o.expects, e.rank? child = some r

/-- A longer outlook covers more. -/
theorem Outlook.Covers.before {o : Outlook} (h : o.Covers child rank) (expects : List Expect) :
    (o.before expects).Covers child rank := by
  intro r hr
  obtain hnone | ⟨e, he, hrank⟩ := h r hr
  · exact .inl hnone
  · exact .inr ⟨e, List.mem_append_right _ he, hrank⟩

/-- The outlook of a fork covers the better rank of its paths. -/
theorem Outlook.Covers.fork {a b : Outlook} {here there : Option Nat} (ha : a.Covers child here)
    (hb : b.Covers child there) : (a.fork b).Covers child (bestRank here there) := by
  intro r hr
  obtain hhere | hthere := eq_some_of_bestRank hr
  · obtain hnone | ⟨e, he, hrank⟩ := ha r hhere
    · exact .inl hnone
    · exact .inr ⟨e, List.mem_append_left _ he, hrank⟩
  · obtain hnone | ⟨e, he, hrank⟩ := hb r hthere
    · exact .inl hnone
    · exact .inr ⟨e, List.mem_append_right _ he, hrank⟩

/-- Looking ahead from a step with an outlook ends, takes no more steps than the outlook says, and
compares the child with no other expectation. -/
theorem looks_of_outlook? {depth : Nat} {o : Outlook} (h : p.outlook? depth pc = some o)
    (child : Option Kind) :
    ∃ n ≤ o.steps, ∃ rank, p.Looks child pc n rank ∧ o.Covers child rank := by
  induction depth generalizing pc o with
  | zero => cases h
  | succ depth ih =>
    -- Control goes on to one other step, and the child is not looked at here.
    have hgo : ∀ {pc' o' expects}, p.outlook? depth pc' = some o' →
        (∀ depth budget, acceptanceFrom p child (depth + 1) (budget + 1) pc =
          acceptanceFrom p child depth budget pc') →
        ∃ n ≤ (o'.before expects).steps, ∃ rank,
          p.Looks child pc n rank ∧ (o'.before expects).Covers child rank := by
      intro pc' o' expects ho hstep
      obtain ⟨n, hn, rank, hlooks, hcovers⟩ := ih ho
      exact ⟨n + 1, Nat.succ_le_succ hn, rank, hlooks.succ hstep, hcovers.before expects⟩
    -- Looking ends here.
    have hend : ∀ {rank : Option Nat},
        (∀ depth budget, acceptanceFrom p child (depth + 1) (budget + 1) pc = (rank, budget)) →
        p.Looks child pc 1 rank := by
      intro rank hstep depth rest hle
      obtain ⟨depth, rfl⟩ : ∃ d, depth = d + 1 := ⟨depth - 1, by omega⟩
      rw [Nat.add_comm 1 rest, hstep]
    rw [outlook?] at h
    cases hop : p.step? pc with
    | none =>
      rw [hop] at h
      cases h
      exact ⟨1, Nat.le_refl 1, none, hend fun _ _ => by simp only [acceptanceFrom, hop], nofun⟩
    | some op =>
      rw [hop] at h
      cases op with
      | finish =>
        cases h
        refine ⟨1, Nat.le_refl 1, if child.isNone then some 0 else none,
          hend fun _ _ => by simp only [acceptanceFrom, hop], ?_⟩
        intro r hr
        cases child with
        | none => exact .inl rfl
        | some k => cases hr
      | expect e =>
        cases h
        refine ⟨1, Nat.le_refl 1, e.rank? child,
          hend fun _ _ => by simp only [acceptanceFrom, hop], ?_⟩
        intro r hr
        exact .inr ⟨e, List.mem_singleton_self e, hr⟩
      | branch target =>
        obtain ⟨o', ho, rfl⟩ := Option.map_eq_some_iff.1 h
        exact hgo ho fun _ _ => by simp only [acceptanceFrom, hop]
      | label _ | layout _ =>
        obtain ⟨o', ho, rfl⟩ := Option.map_eq_some_iff.1 h
        exact hgo ho fun _ _ => by simp only [acceptanceFrom, hop]
      | fork target =>
        obtain ⟨here, hhere, h⟩ := Option.bind_eq_some_iff.1 h
        obtain ⟨there, hthere, rfl⟩ := Option.map_eq_some_iff.1 h
        obtain ⟨n, hn, rank, hlooks, hcovers⟩ := ih hhere
        obtain ⟨m, hm, rank', hlooks', hcovers'⟩ := ih hthere
        refine ⟨n + m + 1, ?_, _, hlooks.fork hop hlooks', hcovers.fork hcovers'⟩
        exact Nat.succ_le_succ (Nat.add_le_add hn hm)
      | optional =>
        simp only at h
        cases hnext : p.nextExpect? (pc + 1) with
        | none =>
          rw [hnext] at h
          obtain ⟨o', ho, rfl⟩ := Option.map_eq_some_iff.1 h
          exact hgo ho fun _ _ => by simp only [acceptanceFrom, hop, hnext]
        | some next =>
          obtain ⟨i, e⟩ := next
          rw [hnext] at h
          obtain ⟨o', ho, rfl⟩ := Option.map_eq_some_iff.1 h
          by_cases haccepts : e.acceptsCurrent child = true
          · -- The optional expectation is the one that counts.
            refine ⟨1, Nat.succ_le_succ (Nat.zero_le _), some e.specificity,
              hend fun _ _ => by simp only [acceptanceFrom, hop, hnext, haccepts, if_true], ?_⟩
            intro r hr
            refine .inr ⟨e, List.mem_cons_self, ?_⟩
            rw [Expect.rank?, if_pos haccepts, hr]
          · exact hgo ho fun _ _ => by
              simp only [acceptanceFrom, hop, hnext, haccepts, if_false, Bool.false_eq_true]

/-- Whether looking ahead tells the paths of every fork apart: it ends within the limit on both, and
no expectation is in the outlook of both. -/
def tellsApart (p : Program) : Bool :=
  (List.range p.steps.length).all fun pc =>
    match p.step? pc with
    | some (.fork target) =>
      match p.outlook? p.steps.length (pc + 1), p.outlook? p.steps.length target with
      | some here, some there =>
        here.expects.all (fun e => decide (e ∉ there.expects))
          && decide (here.steps < lookaheadLimit) && decide (there.steps < lookaheadLimit)
      | _, _ => false
    | _ => true

/-- Looking ahead from a step ends before the limit. -/
def LooksWithinLimit (p : Program) (child : Option Kind) (pc : Nat) : Prop :=
  ∃ n < lookaheadLimit, p.Looks child pc n (acceptance p pc child)

/-- At a fork that tells its paths apart looking ahead ends on both, and no child is accepted
equally well by both. -/
theorem looks_of_tellsApart (hp : p.tellsApart = true) (hop : p.step? pc = some (.fork target)) :
    (∀ child, p.LooksWithinLimit child (pc + 1) ∧ p.LooksWithinLimit child target) ∧
      ∀ k r, acceptance p (pc + 1) (some k) = some r → acceptance p target (some k) ≠ some r := by
  have hpc : pc < p.steps.length := (List.getElem?_eq_some_iff.1 hop).1
  have hfork := List.all_eq_true.1 hp pc (List.mem_range.2 hpc)
  simp only [hop] at hfork
  split at hfork
  · rename_i here there hhere hthere
    simp only [Bool.and_eq_true, List.all_eq_true, decide_eq_true_eq] at hfork
    obtain ⟨⟨hdisjoint, hlimit⟩, hlimit'⟩ := hfork
    -- On both paths the rank is that of an expectation in the outlook.
    have hpath : ∀ {q o}, p.outlook? p.steps.length q = some o → o.steps < lookaheadLimit →
        ∀ child, p.LooksWithinLimit child q ∧ o.Covers child (acceptance p q child) := by
      intro q o ho hsteps child
      obtain ⟨n, hn, rank, hlooks, hcovers⟩ := looks_of_outlook? ho child
      rw [hlooks.acceptance_eq (by omega)]
      exact ⟨⟨n, by omega, by rwa [hlooks.acceptance_eq (by omega)]⟩, hcovers⟩
    refine ⟨fun child => ⟨(hpath hhere hlimit child).1, (hpath hthere hlimit' child).1⟩, ?_⟩
    intro k r hr hr'
    obtain hnone | ⟨e, he, hrank⟩ := (hpath hhere hlimit (some k)).2 r hr
    · cases hnone
    obtain hnone | ⟨e', he', hrank'⟩ := (hpath hthere hlimit' (some k)).2 r hr'
    · cases hnone
    rw [Expect.eq_of_rank? hrank hrank'] at he
    exact hdisjoint e' he he'
  · cases hfork

/-- A fork that tells its paths apart makes no ambiguous choice for a child. -/
theorem choose_ne_ambiguous (hp : p.tellsApart = true) (hop : p.step? pc = some (.fork target))
    (k : Kind) : p.choose pc target (some k) ≠ .ambiguous := by
  intro hchoose
  obtain ⟨-, hne⟩ := looks_of_tellsApart hp hop
  unfold choose ForkChoice.between at hchoose
  split at hchoose
  · cases hchoose
  · cases hchoose
  · rename_i h t hh ht
    split_ifs at hchoose with heq
    subst heq
    exact hne k h hh ht

end Program

end TreeLayout
