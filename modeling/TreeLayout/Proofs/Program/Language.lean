import TreeLayout.Proofs.Machine.Outcome
import Mathlib.Computability.Language

/-!
# The language of a program

A run that reports no fault has consumed all children, and which children these may be depends on
their kinds alone. `Program.Accepts` says so without the machine: the kinds that are left lead
control from a step to the end. `quiet_iff_mem_language` is the equivalence of the two.

`Program.language` is the set of the lists of kinds that are accepted from a step. Each step gives
an equation between such languages, which only the forks and the optional expectations need a
condition for: the first kinds of both paths must be told apart by looking one child ahead
(`language_fork`, `language_optional`). A loop is an equation of a language with itself, which
Arden's lemma solves (`Grammar.eq_star_mul`).
-/

namespace TreeLayout

open scoped Computability

namespace Grammar

/-- The lists of one kind with a property. -/
def one (P : Kind → Prop) : Language Kind := {ks | ∃ k, P k ∧ ks = [k]}

/-- The lists of one kind that an expectation accepts. -/
def words (e : Expect) : Language Kind := one fun k => e.acceptsKind k = true

variable {P Q : Kind → Prop} {L M N : Language Kind}

/-- What begins with one kind is that kind, followed by the rest. -/
theorem mem_one_mul {ks : List Kind} :
    ks ∈ one P * M ↔ ∃ k ks', ks = k :: ks' ∧ P k ∧ ks' ∈ M := by
  rw [Language.mem_mul]
  constructor
  · rintro ⟨-, ⟨k, hk, rfl⟩, ks', hks', rfl⟩
    exact ⟨k, ks', rfl, hk, hks'⟩
  · rintro ⟨k, ks', rfl, hk, hks'⟩
    exact ⟨[k], ⟨k, hk, rfl⟩, ks', hks', rfl⟩

/-- The first kind of a list, taken apart from the rest. -/
theorem cons_mem_one_mul {k : Kind} {ks : List Kind} :
    k :: ks ∈ one P * M ↔ P k ∧ ks ∈ M := by
  rw [mem_one_mul]
  constructor
  · rintro ⟨k', ks', h, hk, hks⟩
    cases h
    exact ⟨hk, hks⟩
  · rintro ⟨hk, hks⟩
    exact ⟨k, ks, rfl, hk, hks⟩

/-- An expectation that does not accept a kind accepts the same kinds without it. -/
theorem one_ne_eq_words {e : Expect} {k : Kind} (h : e.acceptsKind k = false) :
    one (fun k' => e.acceptsKind k' = true ∧ k' ≠ k) = words e := by
  have hne : ∀ k', e.acceptsKind k' = true → k' ≠ k := by
    rintro k' hk' rfl
    rw [h] at hk'
    cases hk'
  exact congrArg one (funext fun k' => propext ⟨And.left, fun hk' => ⟨hk', hne k' hk'⟩⟩)

/-- A loop whose rounds begin with a kind is any number of rounds, followed by what leaves it. -/
theorem eq_star_mul (h : L = one P * (M * L) + N) : L = (one P * M)∗ * N := by
  have hnil : [] ∉ one P * M := by
    rw [mem_one_mul]
    rintro ⟨k, ks, hks, -⟩
    cases hks
  rw [← mul_assoc] at h
  exact (Language.self_eq_mul_add_iff hnil).1 h

/-- A loop over one kind is any number of it, followed by what leaves the loop. -/
theorem eq_star_mul_of_one (h : L = one P * L + N) : L = (one P)∗ * N := by
  rw [← mul_one (one P)]
  exact eq_star_mul (by rwa [one_mul])

/-- The lists of a language begin with a kind that has a property, or end at once if the end has
it. -/
def StartsIn (L : Language Kind) (S : Option Kind → Prop) : Prop := ∀ ks ∈ L, S ks.head?

variable {S : Option Kind → Prop}

/-- What begins with one kind begins with that. -/
theorem startsIn_one_mul (h : ∀ k, P k → S (some k)) : StartsIn (one P * M) S := by
  intro ks hks
  obtain ⟨k, ks', rfl, hk, -⟩ := mem_one_mul.1 hks
  exact h k hk

/-- The empty list ends at once. -/
theorem startsIn_nil (h : S none) : StartsIn 1 S := by
  intro ks hks
  rw [Language.mem_one] at hks
  rwa [hks]

/-- The lists of either language begin as those of both do. -/
theorem StartsIn.add (hL : StartsIn L S) (hM : StartsIn M S) : StartsIn (L + M) S := by
  intro ks hks
  obtain hks | hks := (Language.mem_add L M ks).1 hks
  · exact hL ks hks
  · exact hM ks hks

end Grammar

open Grammar

namespace Program

/-- The kinds of the children that are left lead control from a step to the end: at an expectation
the first of them is accepted, and at every other step control moves on as it does with that kind.
-/
inductive Accepts (p : Program) : Nat → List Kind → Prop
  /-- The end, with no child left. -/
  | finish {pc : Nat} : p.step? pc = some .finish → Accepts p pc []
  /-- An expectation and the kind that it accepts. -/
  | consume {pc : Nat} {e : Expect} {k : Kind} {ks : List Kind} :
    p.step? pc = some (.expect e) → e.acceptsKind k = true → Accepts p (pc + 1) ks →
      Accepts p pc (k :: ks)
  /-- A step that consumes no child. -/
  | move {pc pc' : Nat} {ks : List Kind} :
    p.move? ks.head? pc = some pc' → Accepts p pc' ks → Accepts p pc ks

/-- The lists of kinds that are accepted from a step. -/
def language (p : Program) (pc : Nat) : Language Kind := {ks | p.Accepts pc ks}

variable {p : Program} {pc pc' target : Nat} {e : Expect} {ks : List Kind}

/-- Where control moves on, what is accepted there is accepted here. -/
theorem mem_language_of_move (h : p.move? ks.head? pc = some pc') :
    ks ∈ p.language pc ↔ ks ∈ p.language pc' := by
  refine ⟨fun hks => ?_, fun hks => .move h hks⟩
  cases hks with
  | finish hop => simp [move?, hop] at h
  | consume hop _ _ => simp [move?, hop] at h
  | move h' hks' =>
    rw [h, Option.some.injEq] at h'
    rw [h']
    exact hks'

/-- Nothing is left at the end. -/
theorem language_finish (hop : p.step? pc = some .finish) : p.language pc = 1 := by
  ext ks
  rw [Language.mem_one]
  constructor
  · intro hks
    cases hks with
    | finish _ => rfl
    | consume hop' _ _ =>
      rw [hop] at hop'
      cases hop'
    | move h _ => simp [move?, hop] at h
  · rintro rfl
    exact .finish hop

/-- An expectation begins with a kind that it accepts. -/
theorem language_expect (hop : p.step? pc = some (.expect e)) :
    p.language pc = words e * p.language (pc + 1) := by
  ext ks
  rw [words, mem_one_mul]
  constructor
  · intro hks
    cases hks with
    | finish hop' =>
      rw [hop] at hop'
      cases hop'
    | @consume _ e' k ks' hop' hk hks' =>
      rw [hop] at hop'
      cases hop'
      exact ⟨k, ks', rfl, hk, hks'⟩
    | move h _ => simp [move?, hop] at h
  · rintro ⟨k, ks', rfl, hk, hks'⟩
    exact .consume hop hk hks'

/-- A branch accepts what its target does. -/
theorem language_branch (hop : p.step? pc = some (.branch target)) :
    p.language pc = p.language target := by
  ext ks
  exact mem_language_of_move (by rw [move?, hop])

/-- A label accepts what the next step does. -/
theorem language_label {n : Nat} (hop : p.step? pc = some (.label n)) :
    p.language pc = p.language (pc + 1) := by
  ext ks
  exact mem_language_of_move (by rw [move?, hop])

/-- A layout check accepts what the next step does. -/
theorem language_layout {op : LayoutOp} (hop : p.step? pc = some (.layout op)) :
    p.language pc = p.language (pc + 1) := by
  ext ks
  exact mem_language_of_move (by rw [move?, hop])

/-- A fork accepts what the path that it chooses does. -/
theorem mem_language_fork (hop : p.step? pc = some (.fork target)) :
    ks ∈ p.language pc ↔
      if p.choose pc target ks.head? = .stay then ks ∈ p.language (pc + 1)
      else ks ∈ p.language target := by
  have hmove : p.move? ks.head? pc =
      some (if p.choose pc target ks.head? = .stay then pc + 1 else target) := by
    rw [move?, hop]
  rw [mem_language_of_move hmove]
  split_ifs <;> rfl

section Alternatives

variable {P Q : Kind → Prop} {M N : Language Kind}

/-- A fork whose next step begins with one kind accepts what begins with a kind for which the fork
stays, and what its target does, if the fork never stays for the beginning of that. -/
theorem language_fork (hop : p.step? pc = some (.fork target))
    (hhere : p.language (pc + 1) = one P * M) (hthere : p.language target = N)
    (hstay : ∀ k, Q k ↔ P k ∧ p.choose pc target (some k) = .stay)
    (hjump : StartsIn N fun c => p.choose pc target c ≠ .stay) :
    p.language pc = one Q * M + N := by
  ext ks
  rw [mem_language_fork hop, hhere, hthere, Language.mem_add]
  split_ifs with hchoose
  · -- The fork stays, and so it does not for the beginnings of the target.
    constructor
    · intro hks
      obtain ⟨k, ks', rfl, hk, hks'⟩ := mem_one_mul.1 hks
      exact .inl (cons_mem_one_mul.2 ⟨(hstay k).2 ⟨hk, hchoose⟩, hks'⟩)
    · rintro (hks | hks)
      · obtain ⟨k, ks', rfl, hk, hks'⟩ := mem_one_mul.1 hks
        exact cons_mem_one_mul.2 ⟨((hstay k).1 hk).1, hks'⟩
      · exact absurd hchoose (hjump ks hks)
  · -- The fork jumps, and so no list begins with a kind for which it stays.
    constructor
    · exact .inr
    · rintro (hks | hks)
      · obtain ⟨k, ks', rfl, hk, -⟩ := mem_one_mul.1 hks
        exact absurd ((hstay k).1 hk).2 hchoose
      · exact hks

/-- A fork accepts what both its paths do, if it stays for every beginning of the one and for none
of the other. -/
theorem language_fork_of_disjoint (hop : p.step? pc = some (.fork target))
    (hhere : p.language (pc + 1) = one P * M) (hthere : p.language target = N)
    (hstay : ∀ k, P k → p.choose pc target (some k) = .stay)
    (hjump : StartsIn N fun c => p.choose pc target c ≠ .stay) :
    p.language pc = one P * M + N :=
  language_fork hop hhere hthere (fun k => ⟨fun hk => ⟨hk, hstay k hk⟩, And.left⟩) hjump

/-- A rank is never above that of an expectation of one kind. -/
theorem rank?_le (e : Expect) (c : Option Kind) : ∀ r ∈ e.rank? c, r ≤ 3 := by
  intro r hr
  rw [Expect.rank?, Option.mem_def, Option.ite_none_right_eq_some, Option.some.injEq] at hr
  obtain ⟨-, rfl⟩ := hr
  cases e <;> simp [Expect.specificity]

/-- The better of two ranks is not above that of an expectation of one kind either. -/
theorem bestRank_le (e e' : Expect) (c : Option Kind) :
    ∀ r ∈ bestRank (e.rank? c) (e'.rank? c), r ≤ 3 := by
  intro r hr
  have hle := rank?_le e c
  have hle' := rank?_le e' c
  unfold bestRank at hr
  split at hr
  · exact hle' r hr
  · exact hle r hr
  · rename_i a b ha hb
    rw [Option.mem_def, Option.some.injEq] at hr
    rw [← hr]
    exact Nat.max_le.2 ⟨hle a ha, hle' b hb⟩

/-- Against an expectation of a single kind a fork stays exactly if that does not accept the child,
since no expectation is more specific. -/
theorem between_kind_eq_stay_iff {here : Option Nat} (hle : ∀ r ∈ here, r ≤ 3) (k : Kind)
    (c : Option Kind) :
    ForkChoice.between here ((Expect.kind k).rank? c) = .stay ↔ c ≠ some k := by
  by_cases hc : c = some k
  · subst hc
    have hthere : (Expect.kind k).rank? (some k) = some 3 := by
      simp [Expect.rank?, Expect.acceptsCurrent, Expect.acceptsKind, Expect.specificity]
    rw [hthere]
    cases here with
    | none => simp [ForkChoice.between]
    | some r =>
      -- Two expectations of the same kind tie, and a tie jumps.
      have hr : r ≤ 3 := hle r rfl
      rw [ForkChoice.between]
      split_ifs
      · simp
      · simp
      · omega
  · have hthere : (Expect.kind k).rank? c = none := by
      cases c with
      | none => rfl
      | some k' =>
        have hk : k' ≠ k := fun h => hc (by rw [h])
        simp [Expect.rank?, Expect.acceptsCurrent, Expect.acceptsKind, hk]
    simp [hthere, hc, ForkChoice.between]

/-- A fork against an expectation of a single kind accepts, on its other path, every other kind. -/
theorem language_fork_of_stay_iff {k : Kind} (hop : p.step? pc = some (.fork target))
    (hhere : p.language (pc + 1) = one P * M) (hthere : p.language target = words (.kind k) * N)
    (hstay : ∀ c, p.choose pc target c = .stay ↔ c ≠ some k) :
    p.language pc = one (fun k' => P k' ∧ k' ≠ k) * M + words (.kind k) * N := by
  refine language_fork hop hhere hthere (fun k' => ?_) (startsIn_one_mul fun k' hk' => ?_)
  · rw [hstay, ne_eq, ne_eq, Option.some.injEq]
  · rw [ne_eq, hstay, not_not, Option.some.injEq]
    exact of_decide_eq_true hk'

/-- A fork between an expectation and one of a single kind accepts, at the former, every other kind
that it accepts. -/
theorem language_fork_kind {k : Kind} (hop : p.step? pc = some (.fork target))
    (hhere : p.language (pc + 1) = words e * M) (hthere : p.language target = words (.kind k) * N)
    (hchoose : ∀ c, p.choose pc target c = .between (e.rank? c) ((Expect.kind k).rank? c)) :
    p.language pc =
      one (fun k' => e.acceptsKind k' = true ∧ k' ≠ k) * M + words (.kind k) * N := by
  refine language_fork_of_stay_iff hop hhere hthere fun c => ?_
  rw [hchoose, between_kind_eq_stay_iff (rank?_le e c)]

/-- A fork between an expectation and the end accepts what the expectation does, or nothing more. -/
theorem language_fork_finish (hop : p.step? pc = some (.fork target))
    (hhere : p.language (pc + 1) = words e * M) (hthere : p.language target = 1)
    (hchoose : ∀ c, p.choose pc target c =
      .between (e.rank? c) (if c.isNone then some 0 else none)) :
    p.language pc = words e * M + 1 := by
  refine language_fork_of_disjoint hop hhere hthere (fun k _ => ?_) (startsIn_nil ?_)
  · rw [hchoose]
    rfl
  · rw [hchoose]
    exact ForkChoice.noConfusion

/-- Layout checks before an expectation accept what it does. -/
theorem language_of_nextExpect? {i : Nat} (h : p.nextExpect? pc = some (i, e)) :
    p.language pc = words e * p.language (i + 1) := by
  unfold nextExpect? at h
  -- The induction is on the steps that are left, of which only layout checks are passed over.
  generalize hrest : p.steps.drop pc = rest at h
  induction rest generalizing pc with
  | nil => cases h
  | cons step rest ih =>
    have hop : p.step? pc = some step := by
      rw [step?, ← List.head?_drop, hrest, List.head?_cons]
    cases step with
    | expect e' =>
      cases h
      exact language_expect hop
    | layout op =>
      have hrest' : p.steps.drop (pc + 1) = rest := by
        rw [← List.tail_drop, hrest, List.tail_cons]
      rw [language_layout hop]
      exact ih hrest' h
    | fork _ | branch _ | label _ | optional | finish => cases h

/-- The step that expectations lead to from a step, one after the other, if only layout checks stand
before each. -/
def passes? (p : Program) : List Expect → Nat → Option Nat
  | [], pc => some pc
  | e :: es, pc =>
    match p.nextExpect? pc with
    | some (i, e') => if e' = e then p.passes? es (i + 1) else none
    | none => none

/-- Expectations one after the other begin with kinds that they accept, in their order. -/
theorem language_of_passes? {es : List Expect} (h : p.passes? es pc = some pc') :
    p.language pc = (es.map words).prod * p.language pc' := by
  induction es generalizing pc with
  | nil =>
    cases h
    rw [List.map_nil, List.prod_nil, one_mul]
  | cons e es ih =>
    rw [passes?] at h
    split at h
    · rename_i i e' hnext
      split_ifs at h with he
      subst he
      rw [language_of_nextExpect? hnext, ih h, List.map_cons, List.prod_cons, mul_assoc]
    · cases h

/-- An optional expectation is entered if it accepts the first kind, and passed over if it does
not. -/
theorem mem_language_optional {i : Nat} (hop : p.step? pc = some .optional)
    (hnext : p.nextExpect? (pc + 1) = some (i, e)) :
    ks ∈ p.language pc ↔
      if e.acceptsCurrent ks.head? then
        ks ∈ words e * p.language (i + 1)
      else ks ∈ p.language (i + 1) := by
  have hmove : p.move? ks.head? pc =
      some (if e.acceptsCurrent ks.head? then pc + 1 else i + 1) := by
    rw [move?, hop]
    simp only [Machine.afterOptional, hnext]
  rw [mem_language_of_move hmove, ← language_of_nextExpect? hnext]
  split_ifs <;> rfl

/-- An optional expectation may stand before what follows it, if nothing that follows begins with a
kind that it accepts. -/
theorem language_optional {i : Nat} (hop : p.step? pc = some .optional)
    (hnext : p.nextExpect? (pc + 1) = some (i, e)) (hskip : p.language (i + 1) = N)
    (hstart : StartsIn N fun c => e.acceptsCurrent c = false) :
    p.language pc = words e * N + N := by
  ext ks
  rw [mem_language_optional hop hnext, hskip, Language.mem_add]
  split_ifs with haccepts
  · refine ⟨.inl, fun hks => ?_⟩
    obtain hks | hks := hks
    · exact hks
    · rw [hstart ks hks] at haccepts
      cases haccepts
  · refine ⟨.inr, fun hks => ?_⟩
    obtain hks | hks := hks
    · obtain ⟨k, ks', rfl, hk, -⟩ := mem_one_mul.1 hks
      exact absurd hk haccepts
    · exact hks

/-- An optional expectation before one of other kinds is entered whenever it accepts the first kind,
so the latter is left the kinds that the former does not accept. -/
theorem language_optional_one {i : Nat} (hop : p.step? pc = some .optional)
    (hnext : p.nextExpect? (pc + 1) = some (i, e)) (hskip : p.language (i + 1) = one P * M) :
    p.language pc =
      words e * (one P * M) + one (fun k => P k ∧ e.acceptsKind k = false) * M := by
  ext ks
  rw [mem_language_optional hop hnext, hskip, Language.mem_add]
  split_ifs with haccepts
  · refine ⟨.inl, fun hks => hks.resolve_right fun hks => ?_⟩
    obtain ⟨k, ks', rfl, ⟨-, hk⟩, -⟩ := mem_one_mul.1 hks
    exact absurd haccepts (Bool.eq_false_iff.1 hk)
  · constructor
    · intro hks
      obtain ⟨k, ks', rfl, hk, hks'⟩ := mem_one_mul.1 hks
      exact .inr (cons_mem_one_mul.2 ⟨⟨hk, Bool.eq_false_iff.2 haccepts⟩, hks'⟩)
    · rintro (hks | hks)
      · obtain ⟨k, ks', rfl, hk, -⟩ := mem_one_mul.1 hks
        exact absurd hk haccepts
      · obtain ⟨k, ks', rfl, ⟨hk, -⟩, hks'⟩ := mem_one_mul.1 hks
        exact cons_mem_one_mul.2 ⟨hk, hks'⟩

end Alternatives

end Program

namespace Machine

variable {m : Task} {s s' : State}

/-- The kind of the next child is the first of the kinds that are left. -/
theorem head?_map_kind (s : State) : (s.rest.map Tree.kind).head? = s.currentKind := by
  rw [List.head?_map]
  rfl

/-- What is accepted after a step is accepted before it, together with the child that the step
consumed. -/
theorem accepts_of_next? (h : next? m s = some s')
    (hs : m.program.Accepts s'.pc (s'.rest.map Tree.kind)) :
    m.program.Accepts s.pc (s.rest.map Tree.kind) := by
  obtain ⟨hmove, -, hrest⟩ | ⟨e, child, hop, hrest, haccepts, hpc, -⟩ := next?_eq_some h
  · rw [hrest] at hs
    exact .move (by rw [head?_map_kind, hmove]) hs
  · rw [hpc] at hs
    rw [hrest, List.map_cons]
    exact .consume hop haccepts hs

/-- A run from which the kinds that are left lead to the end comes there, with all children
consumed. -/
theorem exists_after_of_accepts {pc : Nat} {ks : List Kind} (h : m.program.Accepts pc ks)
    (hpc : s.pc = pc) (hks : s.rest.map Tree.kind = ks) :
    ∃ n t, after m n s = some t ∧ m.program.step? t.pc = some .finish ∧ t.rest = [] := by
  induction h generalizing s with
  | finish hop =>
    exact ⟨0, s, rfl, by rw [hpc, hop], List.map_eq_nil_iff.1 hks⟩
  | @consume pc e k ks hop haccepts _ ih =>
    obtain ⟨child, rest, hrest, rfl, hrest'⟩ := List.map_eq_cons_iff.1 hks
    have hnext := next?_of_accepts (hpc ▸ hop) hrest haccepts
    obtain ⟨n, t, hafter, ht⟩ := ih (s := ⟨s.pc + 1, child :: s.consumed, rest, s.mode⟩)
      (by rw [hpc]) hrest'
    exact ⟨n + 1, t, by rw [after, hnext, Option.bind_some, hafter], ht⟩
  | @move pc pc' ks hmove _ ih =>
    rw [← hks, head?_map_kind, ← hpc] at hmove
    obtain ⟨mode, hnext⟩ := next?_of_move hmove
    obtain ⟨n, t, hafter, ht⟩ := ih (s := { s with pc := pc', mode := mode }) rfl hks
    exact ⟨n + 1, t, by rw [after, hnext, Option.bind_some, hafter], ht⟩

/-- The kinds that are left are accepted exactly if the run comes to the end with all children
consumed. -/
theorem accepts_iff_exists_after :
    m.program.Accepts s.pc (s.rest.map Tree.kind) ↔
      ∃ n t, after m n s = some t ∧ m.program.step? t.pc = some .finish ∧ t.rest = [] := by
  constructor
  · intro h
    exact exists_after_of_accepts h rfl rfl
  · rintro ⟨n, t, hafter, hop, hrest⟩
    induction n generalizing s with
    | zero =>
      cases hafter
      rw [hrest]
      exact .finish hop
    | succ n ih =>
      rw [after, Option.bind_eq_some_iff] at hafter
      obtain ⟨s', hnext, hafter'⟩ := hafter
      exact accepts_of_next? hnext (ih hafter')

/-- A run that halts reports no fault exactly if the kinds of the children are in the language of
the program. -/
theorem quiet_iff_mem_language {cx : Context} {f : Focus} {p : Program} (hp : p.WellFormed)
    (h : Halts (Task.of cx f p) (.start f.tree)) :
    (∀ ev ∈ run cx f p, ev.isFault = false) ↔ f.tree.children.map Tree.kind ∈ p.language 0 := by
  have hiff := accepts_iff_exists_after (m := Task.of cx f p) (s := .start f.tree)
  constructor
  · intro hquiet
    -- A failed run has a fault in its log, and one that succeeded came to the end.
    obtain hfailed | hok := failedLog_or_succeeded hp h
    · exact absurd hquiet hfailed.exists_isFault
    · obtain ⟨n, s, hafter, hop, hrest, -⟩ := hok.finished
      exact hiff.2 ⟨n, s, hafter, hop, hrest⟩
  · intro hmem
    obtain ⟨n, s, hafter, hop, hrest⟩ := hiff.1 hmem
    intro ev hev
    rw [run_of_endsAt hp hafter (.inl hop), logged_of_finish hop hrest, List.mem_append,
      List.mem_singleton] at hev
    obtain hev | rfl := hev
    · exact isFault_of_after hafter hev
    · rfl

end Machine

end TreeLayout
