import TreeLayout.Proofs.Table.Visits
import TreeLayout.Proofs.Variation.Checks
import TreeLayout.Proofs.Variation.Focus

/-!
# Runs on varying nodes

A program run on nodes around a hole takes the same steps for all fillings: control looks at kinds,
and the wrap mode at lines. So a property of findings that goes from checks to expressions goes to
whole runs (`Variation.run`): `Variation.step` says so for one step, which leads to states with one
program counter, one mode and children around the hole, and `Variation.runFrom` for a run.

Whether elements may share lines is the one thing of a program that may vary. `Variation.Shares` is
what the property needs for that.
-/

namespace TreeLayout

open TreeLayout.Tree (Around)

variable {ι : Type}

/-- The program with elements that share lines or not. -/
def Program.sharing (p : Program) (multiple : Bool) : Program :=
  { p with multiplePerLine := multiple }

/-- Looking ahead does not read whether elements may share lines. -/
theorem acceptanceFrom_sharing (p : Program) (multiple : Bool) (child : Option Kind)
    (depth budget pc : Nat) :
    acceptanceFrom (p.sharing multiple) child depth budget pc =
      acceptanceFrom p child depth budget pc := by
  induction depth generalizing budget pc with
  | zero => rfl
  | succ depth ih =>
    cases budget with
    | zero => rfl
    | succ budget =>
      simp only [acceptanceFrom, ih]
      rfl

/-- Forks do not ask whether elements may share lines. -/
theorem choose_sharing (p : Program) (multiple : Bool) (pc target : Nat) (child : Option Kind) :
    (p.sharing multiple).choose pc target child = p.choose pc target child := by
  simp only [Program.choose, acceptance, acceptanceFrom_sharing]

namespace Machine

/-- A layout check looks at the last leaf of what stands before the child. -/
theorem applyLayout_rightmost (m : Task) (s : State) (op : LayoutOp) (prev child : Tree) :
    applyLayout m s op prev.rightmost child = applyLayout m s op prev child := by
  have hsame : sameLine prev.rightmost child = sameLine prev child := by
    rw [sameLine, prev.rightmost_rightmost, sameLine]
  have hviolation : m.cx.sameLineViolation prev.rightmost child =
      m.cx.sameLineViolation prev child := by
    rw [Context.sameLineViolation, prev.rightmost_rightmost, Context.sameLineViolation]
  simp only [applyLayout, element, closeRun, Context.noWrap, Context.mayWrap, Context.mustWrap,
    hsame, hviolation]

/-- The tasks of running a program on a varying node; elements may share lines for some indices. -/
structure VaryingTask (ι : Type) where
  /-- The source and the settings. -/
  cx : ι → Context
  /-- The construct whose children are verified. -/
  node : ι → Tree
  /-- Its program, up to whether elements may share lines. -/
  program : Program
  /-- Whether the elements of a run may share lines. -/
  multiple : ι → Bool
  /-- The indentation that its children are measured from. -/
  base : Nat
  /-- Whether expressions among its children stay on one line. -/
  inline : Bool

/-- The task for an index. -/
def VaryingTask.pick (m : VaryingTask ι) (i : ι) : Task :=
  ⟨m.cx i, m.node i, m.program.sharing (m.multiple i), m.base, m.inline⟩

/-- A state for each index, with one program counter and one mode. -/
structure VaryingState (ι : Type) where
  /-- The index of the next step. -/
  pc : Nat
  /-- The children consumed so far, last first. -/
  consumed : List (ι → Tree)
  /-- The children that are left. -/
  rest : List (ι → Tree)
  /-- How the elements of the current run are laid out. -/
  mode : WrapMode

/-- The state for an index. -/
def VaryingState.pick (s : VaryingState ι) (i : ι) : State :=
  ⟨s.pc, s.consumed.map (· i), s.rest.map (· i), s.mode⟩

/-- A varying child that a run can meet. -/
structure Meets (cx₀ : Context) (hole : ι → Tree) (t : ι → Tree) : Prop where
  /-- The child is a tree around the hole. -/
  around : Around hole t
  /-- A case group stands in one column, since the next group is measured from it. -/
  column : (∀ i, (t i).kind.isCaseLike = true) → ∃ c, ∀ i, cx₀.column (t i) = c

/-- All children of a state are those that a run can meet. -/
structure VaryingState.Fits (cx₀ : Context) (hole : ι → Tree) (s : VaryingState ι) : Prop where
  /-- Those consumed. -/
  consumed : ∀ t ∈ s.consumed, Meets cx₀ hole t
  /-- Those left. -/
  rest : ∀ t ∈ s.rest, Meets cx₀ hole t

end Machine

namespace Variation

open Machine

variable {cx₀ : Context} {cx : ι → Context} {hole : ι → Tree} {V : (ι → List Finding) → Prop}
  {m : VaryingTask ι} {s : VaryingState ι}

/-- The property allows that elements share lines for some indices and not for others. -/
structure Shares (cx₀ : Context) (hole : ι → Tree) (V : (ι → List Finding) → Prop)
    (multiple : ι → Bool) : Prop where
  /-- An element on the line of the one before it. -/
  stay {t : ι → Tree} (indent : Nat) : Around hole t →
    V fun i => if multiple i then [] else [cx₀.mustWrapViolation (t i) indent]
  /-- An element that starts a line after one that did not. -/
  wrap {t : ι → Tree} (expected indent : Nat) : Around hole t →
    V fun i => if multiple i then cx₀.expectColumn (t i) expected
      else [cx₀.mustWrapViolation (t i) indent]

/-- The finding that a tree has to wrap is the same in all contexts, if the tree does not vary. -/
theorem mustWrapViolation_eq (h : Variation cx₀ cx hole V) (i : ι) (t : Tree) (indent : Nat) :
    (cx i).mustWrapViolation t indent = cx₀.mustWrapViolation t indent :=
  h.finding_eq i t _ _

/-- Elements that share lines for all indices or for none. -/
theorem shares_const (h : Variation cx₀ cx hole V) (multiple : Bool) :
    Shares cx₀ hole V fun _ => multiple where
  stay indent ht := by
    have hviolation := h.mustWrapViolation ht indent
    simp only [h.mustWrapViolation_eq] at hviolation
    split
    · exact h.nil
    · exact hviolation
  wrap expected indent ht := by
    have hviolation := h.mustWrapViolation ht indent
    simp only [h.mustWrapViolation_eq] at hviolation
    split
    · exact h.column expected ht
    · exact hviolation

/-! ## Layout checks -/

/-- The first case group among varying children is one varying child. -/
theorem exists_find? (h : Variation cx₀ cx hole V) {ts : List (ι → Tree)}
    (hts : ∀ t ∈ ts, Meets cx₀ hole t) :
    ∃ group : Option (ι → Tree),
      (∀ t ∈ group, Meets cx₀ hole t ∧ ∀ i, (t i).kind.isCaseLike = true) ∧
      ∀ i, (ts.map (· i)).find? (fun c => c.kind.isCaseLike) = group.map (· i) := by
  induction ts with
  | nil => exact ⟨none, by simp, fun i => rfl⟩
  | cons t ts ih =>
    obtain ⟨ht, hts⟩ := List.forall_mem_cons.1 hts
    obtain ⟨k, hk⟩ := h.exists_kind ht.around
    cases hcase : k.isCaseLike with
    | true =>
      have hfound : ∀ i, (t i).kind.isCaseLike = true := fun i => by rw [hk, hcase]
      exact ⟨some t, by simpa using ⟨ht, hfound⟩, fun i => by simp [hfound]⟩
    | false =>
      obtain ⟨group, hgroup, hfind⟩ := ih hts
      exact ⟨group, hgroup, fun i => by rw [List.map_cons, List.find?_cons, hk, hcase, hfind]⟩

/-- An element that starts a line stands in one column, or where it may stand it does. -/
theorem exists_checkIndented (h : Variation cx₀ cx hole V) (hm : m.cx = cx)
    {consumed : List (ι → Tree)} (hconsumed : ∀ t ∈ consumed, Meets cx₀ hole t) {child : ι → Tree}
    (hchild : Meets cx₀ hole child) :
    (∀ i, checkIndented (m.pick i) (consumed.map (· i)) (child i) = []) ∨
      ∃ expected, ∀ i, checkIndented (m.pick i) (consumed.map (· i)) (child i) =
        cx₀.expectColumn (child i) expected := by
  subst hm
  obtain ⟨k, hk⟩ := h.exists_kind hchild.around
  have hcolumn : ∀ i t, (m.cx i).column t = cx₀.column t := fun i t => by
    rw [Context.column, h.source, Context.column]
  have hpick : ∀ i, (m.pick i).cx = m.cx i ∧ (m.pick i).base = m.base := fun i => ⟨rfl, rfl⟩
  simp only [checkIndented, hpick, hk, h.expectColumn_eq, h.stepIn_eq, hcolumn]
  -- Only a case group is measured from another child, and only it may stand in two columns.
  cases hcase : k.isCaseLike with
  | false => exact .inr ⟨_, fun i => rfl⟩
  | true =>
    obtain ⟨group, hgroup, hfind⟩ := h.exists_find? hconsumed
    simp only [hfind, Bool.not_true, Bool.false_eq_true, if_false]
    cases group with
    | some group =>
      obtain ⟨hmeets, hlike⟩ := hgroup group rfl
      obtain ⟨c, hc⟩ := hmeets.column hlike
      exact .inr ⟨c, fun i => by simp only [Option.map_some, hc]⟩
    | none =>
      obtain ⟨c, hc⟩ := hchild.column fun i => by rw [hk, hcase]
      simp only [Option.map_none, hc]
      split
      · exact .inl fun i => rfl
      · exact .inr ⟨_, fun i => rfl⟩

/-- The property holds of what is found about the indentation of an element. -/
theorem checkIndented (h : Variation cx₀ cx hole V) (hm : m.cx = cx) {consumed : List (ι → Tree)}
    (hconsumed : ∀ t ∈ consumed, Meets cx₀ hole t) {child : ι → Tree}
    (hchild : Meets cx₀ hole child) :
    V fun i => Machine.checkIndented (m.pick i) (consumed.map (· i)) (child i) := by
  obtain hnil | ⟨expected, hexpected⟩ := h.exists_checkIndented hm hconsumed hchild
  · simpa only [hnil] using h.nil
  · simpa only [hexpected] using h.column expected hchild.around

/-- Findings of which the property holds, and one mode for all indices. -/
def Lays (V : (ι → List Finding) → Prop) (found : ι → List Finding × WrapMode) : Prop :=
  V (fun i => (found i).1) ∧ ∃ mode, ∀ i, (found i).2 = mode

/-- The first element of a run decides one mode, and the others follow it. -/
theorem lays_element (h : Variation cx₀ cx hole V) (hm : m.cx = cx)
    (hshares : Shares cx₀ hole V m.multiple) (hs : s.Fits cx₀ hole) {prev child : ι → Tree}
    (hprev : Around hole prev) (hchild : Meets cx₀ hole child) :
    Lays V fun i => element (m.pick i) (s.pick i) (prev i) (child i) := by
  obtain ⟨o, ho⟩ := hprev.exists_outline h.outline
  obtain ⟨o', ho'⟩ := hchild.around.exists_outline h.outline
  have hindented := h.checkIndented hm hs.consumed hchild
  have hstay := hshares.stay (cx₀.stepIn m.base) hchild.around
  -- After an element on the line, one that starts a line.
  have hwrap : V fun i => if m.multiple i then
      Machine.checkIndented (m.pick i) (s.consumed.map (· i)) (child i)
      else [cx₀.mustWrapViolation (child i) (cx₀.stepIn m.base)] := by
    obtain hnil | ⟨expected, hexpected⟩ := h.exists_checkIndented hm hs.consumed hchild
    · simpa only [hnil] using hstay
    · simpa only [hexpected] using hshares.wrap expected _ hchild.around
  subst hm
  have hpick : ∀ i, (m.pick i).cx = m.cx i ∧ (m.pick i).base = m.base ∧
      (m.pick i).program.multiplePerLine = m.multiple i := fun i => ⟨rfl, rfl, rfl⟩
  have hstate : ∀ i, (s.pick i).mode = s.mode ∧ (s.pick i).consumed = s.consumed.map (· i) :=
    fun i => ⟨rfl, rfl⟩
  simp only [element, hpick, hstate, sameLine_eq, ho, ho', h.mustWrapViolation_eq, h.stepIn_eq]
  cases s.mode with
  | unset =>
    cases decide (o.lastLine = o'.line) with
    | true => exact ⟨h.nil, _, fun i => rfl⟩
    | false => exact ⟨hindented, _, fun i => rfl⟩
  | sameLine =>
    cases decide (o.lastLine = o'.line) with
    | true => exact ⟨h.nil, _, fun i => rfl⟩
    | false => exact ⟨hwrap, _, fun i => rfl⟩
  | wrapped =>
    cases decide (o.lastLine = o'.line) with
    | true => exact ⟨hstay, _, fun i => rfl⟩
    | false => exact ⟨hindented, _, fun i => rfl⟩

/-- The property holds of what is found at the end of a run. -/
theorem closeRun (h : Variation cx₀ cx hole V) (hm : m.cx = cx) (mode : WrapMode)
    {prev child : ι → Tree} (hprev : Around hole prev) (hchild : Around hole child) :
    V fun i => Machine.closeRun (m.pick i) mode (prev i) (child i) := by
  subst hm
  cases mode with
  | sameLine => exact h.noWrap hprev hchild
  | wrapped => exact h.mustWrap hprev hchild m.base
  | unset => exact h.mayWrap hprev hchild m.base

/-- The child consumed last is a list of modifier keywords for all fillings or for none. -/
theorem exists_endsWithModifier (h : Variation cx₀ cx hole V) {consumed : List (ι → Tree)}
    (hconsumed : ∀ t ∈ consumed, Meets cx₀ hole t) :
    ∃ ends, ∀ i, endsWithModifier (consumed.map (· i)) = ends := by
  cases consumed with
  | nil => exact ⟨false, fun i => rfl⟩
  | cons last consumed =>
    obtain ⟨o, ho⟩ := (hconsumed last List.mem_cons_self).around.exists_outline h.outline
    have hkind : ∀ i, (last i).kind = o.kind := fun i => congrArg Tree.Outline.kind (ho i)
    have hlast : ∀ i, (last i).children.getLast?.map Tree.kind = o.lastKind :=
      fun i => congrArg Tree.Outline.lastKind (ho i)
    exact ⟨_, fun i => by rw [List.map_cons, endsWithModifier, hkind, hlast]⟩

/-- A layout check finds what has the property, and leaves one mode. -/
theorem lays_applyLayout (h : Variation cx₀ cx hole V) (hm : m.cx = cx)
    (hshares : Shares cx₀ hole V m.multiple) (hs : s.Fits cx₀ hole) (op : LayoutOp)
    {prev child : ι → Tree} (hprev : Around hole prev) (hchild : Meets cx₀ hole child) :
    Lays V fun i => applyLayout (m.pick i) (s.pick i) op (prev i) (child i) := by
  obtain ⟨o, ho⟩ := hprev.exists_outline h.outline
  obtain ⟨o', ho'⟩ := hchild.around.exists_outline h.outline
  have helement := h.lays_element hm hshares hs hprev hchild
  have hindented := h.checkIndented hm hs.consumed hchild
  have hviolation := h.mustWrapViolation hchild.around (cx₀.stepIn m.base)
  have hclose := h.closeRun hm s.mode hprev hchild.around
  subst hm
  have hno := h.noWrap hprev hchild.around
  cases op with
  | noWrap => exact ⟨hno, s.mode, fun i => rfl⟩
  | mayWrap => exact ⟨h.mayWrap hprev hchild.around m.base, s.mode, fun i => rfl⟩
  | mustWrap =>
    obtain ⟨ends, hends⟩ := h.exists_endsWithModifier hs.consumed
    have hstate : ∀ i, (s.pick i).consumed = s.consumed.map (· i) := fun i => rfl
    simp only [applyLayout, hstate, hends, sameLine_eq, ho, ho']
    split
    · exact ⟨h.nil, s.mode, fun i => rfl⟩
    · exact ⟨h.mustWrap hprev hchild.around m.base, s.mode, fun i => rfl⟩
  | unindent => exact ⟨hclose, .unset, fun i => rfl⟩
  | indentIfChildren =>
    have hchildren : ∀ i, (child i).hasChildren = o'.hasChildren :=
      fun i => congrArg Tree.Outline.hasChildren (ho' i)
    simp only [applyLayout, hchildren]
    split
    · exact helement
    · exact ⟨hno, .sameLine, fun i => rfl⟩
  | mayIndent => exact helement
  | mustIndent =>
    have hpick : ∀ i, (m.pick i).cx = m.cx i ∧ (m.pick i).base = m.base := fun i => ⟨rfl, rfl⟩
    simp only [applyLayout, sameLine_eq, ho, ho', hpick, h.stepIn_eq]
    split
    · exact ⟨hviolation, .wrapped, fun i => rfl⟩
    · exact ⟨hindented, .wrapped, fun i => rfl⟩
  | endRun => exact ⟨h.nil, .unset, fun i => rfl⟩

/-! ## Steps -/

/-- The property goes to the runs of a varying task. -/
structure Runs (cx₀ : Context) (cx : ι → Context) (hole : ι → Tree) (V : (ι → List Finding) → Prop)
    (m : VaryingTask ι) : Prop where
  /-- The task reads the contexts of the checks. -/
  cx : m.cx = cx
  /-- The construct is around the hole. -/
  node : Around hole m.node
  /-- Elements share lines as the property allows. -/
  shares : Shares cx₀ hole V m.multiple

/-- What a step logs has the property, and it leads to one varying state or ends the run. -/
def Goes (cx₀ : Context) (hole : ι → Tree) (V : (ι → List Finding) → Prop)
    (went : ι → List Event × Option State) : Prop :=
  V (fun i => findings (went i).1) ∧ ∃ next : Option (VaryingState ι),
    (∀ s ∈ next, s.Fits cx₀ hole) ∧ ∀ i, (went i).2 = next.map (·.pick i)

/-- A step that finds nothing and leaves the children as they are. -/
theorem goes_quiet (h : Variation cx₀ cx hole V) (hs : s.Fits cx₀ hole) (pc : Nat) (mode : WrapMode)
    {went : ι → List Event × Option State} (hquiet : ∀ i, findings (went i).1 = [])
    (hnext : ∀ i, (went i).2 = some ⟨pc, s.consumed.map (· i), s.rest.map (· i), mode⟩) :
    Goes cx₀ hole V went := by
  have hfits : VaryingState.Fits cx₀ hole ⟨pc, s.consumed, s.rest, mode⟩ := ⟨hs.consumed, hs.rest⟩
  exact ⟨by simpa only [hquiet] using h.nil, some ⟨pc, s.consumed, s.rest, mode⟩,
    by simpa using hfits, hnext⟩

/-- The property holds of the finding that children are missing. -/
theorem missing (h : Variation cx₀ cx hole V) (hm : Runs cx₀ cx hole V m) (hs : s.Fits cx₀ hole) :
    V fun i => [Machine.missing (m.pick i) (s.pick i)] := by
  obtain ⟨rfl, hnode, -⟩ := hm
  obtain ⟨pc, consumed, rest, mode⟩ := s
  cases consumed with
  | nil => exact h.missingFirst hnode
  | cons prev consumed =>
    have hprev := (hs.consumed prev List.mem_cons_self).around
    obtain ⟨o, ho⟩ := hprev.exists_outline h.outline
    have htext : ∀ i, (prev i).rightmost.text = o.last.text := fun i => by
      rw [← Tree.text_last_outline, ho]
    have hmissing : ∀ i, Machine.missing (m.pick i)
        (VaryingState.pick ⟨pc, prev :: consumed, rest, mode⟩ i) =
        cx₀.finding (prev i).rightmost (.missingToken o.last.text) none := fun i => by
      rw [← htext i]
      exact h.finding_eq i _ _ _
    simpa only [hmissing] using h.findingLast (.missingToken o.last.text) none hprev

/-- An expectation accepts the next child for all fillings or for none. -/
theorem goes_consume (h : Variation cx₀ cx hole V) (hm : Runs cx₀ cx hole V m)
    (hs : s.Fits cx₀ hole) (e : Expect) :
    Goes cx₀ hole V fun i => consume (m.pick i) (s.pick i) e := by
  have hmissing := h.missing hm hs
  obtain ⟨rfl, -, -⟩ := hm
  obtain ⟨pc, consumed, rest, mode⟩ := s
  cases rest with
  | nil => exact ⟨hmissing, none, by simp, fun i => rfl⟩
  | cons child rest =>
    obtain ⟨hchild, hrest⟩ := List.forall_mem_cons.1 hs.rest
    obtain ⟨k, hk⟩ := h.exists_kind hchild.around
    obtain ⟨base, hbase⟩ := h.exists_baseOf hchild.around
    have hpick : ∀ i, (m.pick i).cx = m.cx i ∧ (m.pick i).inline = m.inline := fun i => ⟨rfl, rfl⟩
    simp only [consume, VaryingState.pick, List.map_cons, Expect.accepts, hk, hpick, hbase]
    split
    · exact ⟨h.unexpected hchild.around e.expected, none, by simp, fun i => rfl⟩
    · have hnext : VaryingState.Fits cx₀ hole ⟨pc + 1, child :: consumed, rest, mode⟩ :=
        ⟨List.forall_mem_cons.2 ⟨hchild, hs.consumed⟩, hrest⟩
      refine ⟨?_, some _, by simpa using hnext, fun i => rfl⟩
      simp only [findings_map_expression]
      split
      · exact h.check hchild.around base m.inline
      · exact h.nil

/-- A layout step goes on alike for all indices, and the property holds of what it finds. -/
theorem goes_layout (h : Variation cx₀ cx hole V) (hm : Runs cx₀ cx hole V m)
    (hs : s.Fits cx₀ hole) (op : LayoutOp) :
    Goes cx₀ hole V fun i => layout (m.pick i) (s.pick i) op := by
  have hlays : ∀ prev child : ι → Tree, Around hole prev → Meets cx₀ hole child →
      Lays V fun i => applyLayout (m.pick i) (s.pick i) op (prev i) (child i) :=
    fun prev child => h.lays_applyLayout hm.cx hm.shares hs op
  obtain ⟨pc, consumed, rest, mode⟩ := s
  unfold Machine.layout
  split
  · exact h.goes_quiet hs (pc + 1) .unset (fun i => rfl) fun i => rfl
  · match consumed, rest with
    | _, [] | [], _ :: _ => exact h.goes_quiet hs (pc + 1) mode (fun i => rfl) fun i => rfl
    | prev :: consumed, child :: rest =>
      obtain ⟨hfound, mode', hmode⟩ := hlays prev child (hs.consumed prev List.mem_cons_self).around
        (hs.rest child List.mem_cons_self)
      have hnext : VaryingState.Fits cx₀ hole ⟨pc + 1, prev :: consumed, child :: rest, mode'⟩ :=
        ⟨hs.consumed, hs.rest⟩
      refine ⟨?_, some _, by simpa using hnext, fun i => ?_⟩
      · simpa only [State.current, State.previous, VaryingState.pick, List.map_cons,
          List.head?_cons, Option.map_some, applyLayout_rightmost, findings_map_report] using hfound
      · have hmode := hmode i
        simp only [VaryingState.pick, List.map_cons] at hmode
        simp only [State.current, State.previous, VaryingState.pick, List.map_cons, List.head?_cons,
          Option.map_some, applyLayout_rightmost, hmode]

/-- The next child is of one kind, or there is none. -/
theorem exists_currentKind (h : Variation cx₀ cx hole V) (hs : s.Fits cx₀ hole) :
    ∃ child, ∀ i, (s.pick i).currentKind = child := by
  obtain ⟨pc, consumed, rest, mode⟩ := s
  cases rest with
  | nil => exact ⟨none, fun i => rfl⟩
  | cons child rest =>
    obtain ⟨k, hk⟩ := h.exists_kind (hs.rest child List.mem_cons_self).around
    exact ⟨some k, fun i => congrArg some (hk i)⟩

/-- A fork goes the same way for all indices. -/
theorem goes_fork (h : Variation cx₀ cx hole V) (hs : s.Fits cx₀ hole) (target : Nat) :
    Goes cx₀ hole V fun i => fork (m.pick i) (s.pick i) target := by
  obtain ⟨child, hchild⟩ := h.exists_currentKind hs
  have hchoose : ∀ i, (m.pick i).program.choose (s.pick i).pc target (s.pick i).currentKind =
      m.program.choose s.pc target child := fun i => by
    rw [hchild]
    exact choose_sharing m.program (m.multiple i) s.pc target child
  unfold Machine.fork
  simp only [hchoose]
  split
  · exact h.goes_quiet hs (s.pc + 1) s.mode (fun i => rfl) fun i => rfl
  · exact h.goes_quiet hs target s.mode (fun i => rfl) fun i => rfl
  · refine h.goes_quiet hs target s.mode (fun i => ?_) fun i => rfl
    cases (s.pick i).current <;> rfl

/-- A step takes the same way for all fillings, and finds what has the property. -/
theorem step (h : Variation cx₀ cx hole V) (hm : Runs cx₀ cx hole V m) (hs : s.Fits cx₀ hole)
    (op : Step) : Goes cx₀ hole V fun i => Machine.step (m.pick i) (s.pick i) op := by
  cases op with
  | expect e => exact h.goes_consume hm hs e
  | fork target => exact h.goes_fork hs target
  | branch target => exact h.goes_quiet hs target s.mode (fun i => rfl) fun i => rfl
  | label n => exact h.goes_quiet hs (s.pc + 1) s.mode (fun i => rfl) fun i => rfl
  | optional =>
    -- Whether the next expectation is skipped depends on the kind of the next child.
    obtain ⟨child, hchild⟩ := h.exists_currentKind hs
    exact h.goes_quiet hs (afterOptional m.program s.pc child) s.mode (fun i => rfl) fun i => by
      rw [← hchild i]
      rfl
  | finish =>
    obtain ⟨rfl, -, -⟩ := hm
    obtain ⟨pc, consumed, rest, mode⟩ := s
    cases rest with
    | nil => exact ⟨h.nil, none, by simp, fun i => rfl⟩
    | cons child rest =>
      exact ⟨h.extra (hs.rest child List.mem_cons_self).around, none, by simp, fun i => rfl⟩
  | layout op => exact h.goes_layout hm hs op

/-! ## Runs -/

/-- The property holds of what a run finds from a varying state. -/
theorem runFrom (h : Variation cx₀ cx hole V) (hm : Runs cx₀ cx hole V m) (hs : s.Fits cx₀ hole)
    (fuel : Nat) : V fun i => findings (Machine.runFrom (m.pick i) fuel (s.pick i)) := by
  induction fuel generalizing s with
  | zero => exact h.nil
  | succ fuel ih =>
    have hstep? : ∀ i, (m.pick i).program.step? (s.pick i).pc = m.program.step? s.pc :=
      fun i => rfl
    simp only [runFrom_succ, logged, next?, hstep?, findings_append]
    cases m.program.step? s.pc with
    | none => exact h.nil
    | some op =>
      obtain ⟨hfound, next, hfits, hnext⟩ := h.step hm hs op
      have hlog : ∀ i, findings (.step (s.pick i).pc op (s.pick i).current (s.pick i).mode ::
          (Machine.step (m.pick i) (s.pick i) op).1) =
          findings (Machine.step (m.pick i) (s.pick i) op).1 := fun i => rfl
      simp only [Option.bind_some, hnext, hlog]
      -- The first step is the same for all indices, and leads to one varying state.
      refine h.append hfound ?_
      cases next with
      | none => exact h.nil
      | some s' => exact ih (hfits s' rfl)

/-- The property holds of what a program finds on a varying node outside of the hole. -/
theorem run [Nonempty ι] (h : Variation cx₀ cx hole V) {f : VaryingFocus ι} (hf : f.Outside hole)
    (hmeets : ∀ t, Around hole t → (∀ i, t i ∈ (f.tree i).children) → Meets cx₀ hole t)
    (p : Program) {multiple : ι → Bool} (hshares : Shares cx₀ hole V multiple) :
    V fun i => findings (Machine.run (cx i) (f.pick i) (p.sharing (multiple i))) := by
  obtain ⟨ts, hts, hchildren⟩ := hf.children
  -- The baseline and the inline flag do not vary, so they can be read off one index.
  obtain ⟨i₀⟩ := ‹Nonempty ι›
  let m : VaryingTask ι := ⟨cx, f.tree, p, multiple,
    cx₀.baseOf (indentationParent (f.pick i₀)).tree, keepsInline (f.pick i₀)⟩
  have hm : Runs cx₀ cx hole V m := ⟨rfl, hf.tree, hshares⟩
  have hs : VaryingState.Fits cx₀ hole ⟨0, [], ts, .unset⟩ :=
    ⟨by simp, fun t ht => hmeets t (hts t ht) fun i => by
      rw [hchildren]
      exact List.mem_map_of_mem ht⟩
  have htask : ∀ i, Task.of (cx i) (f.pick i) (p.sharing (multiple i)) = m.pick i := fun i => by
    have hline := line_indentationParent h.outline hf.toAround i i₀
    have hbase : (cx i).baseOf (indentationParent (f.pick i)).tree = m.base := by
      rw [Context.baseOf, h.source, hline, ← Context.baseOf]
    rw [Task.of, hbase, keepsInline_pick h.outline hf i i₀]
    rfl
  have hstart : ∀ i, State.start (f.pick i).tree = VaryingState.pick ⟨0, [], ts, .unset⟩ i :=
    fun i => by
      rw [State.start, VaryingFocus.pick, hchildren]
      rfl
  have hbound : ∀ i, stateBound (m.pick i) = 3 * p.steps.length * (ts.length + 1) := fun i => by
    have hnode : (m.pick i).node.children = ts.map (· i) := hchildren i
    rw [stateBound, hnode, List.length_map]
    rfl
  simp only [Machine.run, htask, hstart, hbound]
  exact h.runFrom hm hs _

end Variation

end TreeLayout
