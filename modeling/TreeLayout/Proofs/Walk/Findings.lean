import TreeLayout.Proofs.Expression.Findings
import TreeLayout.Proofs.Table.Visits
import TreeLayout.Proofs.Tree.Numbering

/-!
# What all findings of a walk have in common

A property of findings goes from single checks to all findings of a walk (`Pervades.walkFindings`).
The checks are asked about nodes with a property `good` that children have too, so every node of a
good tree is good, and about columns that are `level`: the column of a good node, the indentation of
its line, or one level more.
-/

namespace TreeLayout

/-- The property `P` of findings holds of the single checks of good nodes and level columns. -/
structure Pervades (cx : Context) (good : Tree → Prop) (level : Nat → Prop) (P : Finding → Prop) :
    Prop where
  /-- Children of good nodes are good. -/
  children {t c : Tree} : good t → c ∈ t.children → good c
  /-- The line of a good node has a level indentation, and so has the level below it. -/
  base {t : Tree} : good t → level (cx.baseOf t) ∧ level (cx.stepIn (cx.baseOf t))
  /-- The column of a good node is level. -/
  here {t : Tree} : good t → level (cx.column t)
  /-- The property holds of what is wrong with the shape of a good node. -/
  structural {t : Tree} {message : Message} : good t → message.isStructural = true →
    P (cx.finding t message none)
  /-- The property holds where a good node does not share a line. -/
  sameLine {prev next : Tree} : good next → P (cx.sameLineViolation prev next)
  /-- The property holds where a good node does not stand in a level column. -/
  column {t : Tree} {name : String} {c : Nat} : good t → level c →
    P (cx.finding t (.column name (cx.succ c) (cx.succ (cx.column t))) (some c))
  /-- The property holds where a good node does not start a line. -/
  mustWrap {t : Tree} {c : Nat} : good t → level c → P (cx.mustWrapViolation t c)

namespace Pervades

variable {cx : Context} {good : Tree → Prop} {level : Nat → Prop} {P : Finding → Prop}
  {prev next t : Tree} {c : Nat}

/-- What is found where a column is asked for has the property. -/
theorem expectColumn (h : Pervades cx good level P) (hnext : good next) (hc : level c) :
    ∀ f ∈ cx.expectColumn next c, P f := by
  simp only [Context.expectColumn]
  split
  · simp
  · simpa using h.column hnext hc

/-- What is found where a node has to wrap has the property. -/
theorem mustWrap_or_column (h : Pervades cx good level P) (hnext : good next) (hc : level c) :
    ∀ f ∈ cx.mustWrap prev next c, P f := by
  unfold Context.mustWrap
  split
  · simpa using h.mustWrap hnext hc
  · exact h.expectColumn hnext hc

/-- For expressions it does not matter which nodes are near each other. -/
theorem carries (h : Pervades cx good level P) :
    Carries cx good (fun _ _ => True) level P where
  children := h.children
  siblings _ := List.pairwise_of_forall fun _ _ => trivial
  inner _ _ := trivial
  base := h.base
  structural := h.structural
  sameLine := h.sameLine
  column := h.expectColumn
  wrap hnext _ hc := h.mustWrap_or_column hnext hc

/-! ## Nodes of a good tree -/

/-- A node of a good tree is good. -/
theorem of_rootFrom (h : Pervades cx good level P) {path : List Frame}
    (hroot : good (Focus.rootFrom t path)) : good t := by
  induction path generalizing t with
  | nil => exact hroot
  | cons frame path ih =>
    refine h.children (ih hroot) ?_
    unfold Frame.plug
    split <;> simp [Tree.children]

/-- Every node of a good tree is good. -/
theorem of_root (h : Pervades cx good level P) {f : Focus} (hroot : f.root = t) (ht : good t) :
    good f.tree := by
  subst hroot
  exact h.of_rootFrom ht

/-- The last leaf of a good tree is good. -/
theorem rightmost (h : Pervades cx good level P) (ht : good t) : good t.rightmost := by
  have hroot := Focus.root_rightmostFrom t []
  rw [← Focus.tree_rightmostFrom t []]
  exact h.of_root hroot ht

/-! ## Runs -/

section Machine

open Machine

variable {m : Task} {s : State} {child : Tree}

/-- What is found about the indentation of an element has the property. -/
theorem checkIndented (h : Pervades m.cx good level P) (hbase : level (m.cx.stepIn m.base))
    {consumed : List Tree} (hconsumed : ∀ t ∈ consumed, good t) (hchild : good child) :
    ∀ f ∈ Machine.checkIndented m consumed child, P f := by
  simp only [Machine.checkIndented]
  split
  · exact h.expectColumn hchild hbase
  · split
    · rename_i group hgroup
      exact h.expectColumn hchild (h.here (hconsumed group (List.mem_of_find?_eq_some hgroup)))
    · split
      · simp
      · exact h.expectColumn hchild hbase

/-- What is found about an element of a body has the property. -/
theorem element (h : Pervades m.cx good level P) (hbase : level (m.cx.stepIn m.base))
    (hconsumed : ∀ t ∈ s.consumed, good t) (hchild : good child) :
    ∀ f ∈ (Machine.element m s prev child).1, P f := by
  have hindented := h.checkIndented hbase hconsumed hchild
  have hviolation : ∀ f ∈ [m.cx.mustWrapViolation child (m.cx.stepIn m.base)], P f := by
    simpa using h.mustWrap hchild hbase
  simp only [Machine.element]
  split
  · simp
  · exact hindented
  · simp
  · split
    · exact hindented
    · exact hviolation
  · exact hindented
  · split
    · simp
    · exact hviolation

/-- What is found by a layout step has the property. -/
theorem applyLayout (h : Pervades m.cx good level P)
    (hbase : level m.base ∧ level (m.cx.stepIn m.base)) (hconsumed : ∀ t ∈ s.consumed, good t)
    (hchild : good child) (op : LayoutOp) :
    ∀ f ∈ (Machine.applyLayout m s op prev child).1, P f := by
  obtain ⟨hhere, hbelow⟩ := hbase
  cases op with
  | noWrap => exact h.carries.noWrap hchild
  | mayWrap => exact h.carries.mayWrap hchild hhere
  | mustWrap =>
    rw [Machine.applyLayout]
    split
    · simp
    · exact h.mustWrap_or_column hchild hhere
  | unindent =>
    simp only [Machine.applyLayout, closeRun]
    split
    · exact h.carries.noWrap hchild
    · exact h.mustWrap_or_column hchild hhere
    · exact h.carries.mayWrap hchild hhere
  | indentIfChildren =>
    rw [Machine.applyLayout]
    split
    · exact h.element hbelow hconsumed hchild
    · exact h.carries.noWrap hchild
  | mayIndent => exact h.element hbelow hconsumed hchild
  | mustIndent =>
    rw [Machine.applyLayout]
    split
    · simpa using h.mustWrap hchild hbelow
    · exact h.checkIndented hbelow hconsumed hchild
  | endRun => simp [Machine.applyLayout]

/-- What a run on a good node in a good tree looks at. -/
structure Sound (good : Tree → Prop) (level : Nat → Prop) (m : Task) (s : State) : Prop where
  /-- The node is good. -/
  node : good m.node
  /-- The baseline is level. -/
  base : level m.base ∧ level (m.cx.stepIn m.base)
  /-- The children consumed are good. -/
  consumed : ∀ t ∈ s.consumed, good t
  /-- The children that are left are good. -/
  rest : ∀ t ∈ s.rest, good t

/-- A step leads from a sound state to a sound one. -/
theorem Sound.of_next? {s' : State} (hs : Sound good level m s) (hnext : next? m s = some s') :
    Sound good level m s' := by
  obtain ⟨-, hconsumed, hrest⟩ | ⟨e, child, -, hrest, -, -, hconsumed⟩ := next?_eq_some hnext
  · exact ⟨hs.node, hs.base, hconsumed ▸ hs.consumed, hrest ▸ hs.rest⟩
  · have hall := hs.rest
    rw [hrest, List.forall_mem_cons] at hall
    refine ⟨hs.node, hs.base, ?_, hall.2⟩
    rw [hconsumed, List.forall_mem_cons]
    exact ⟨hall.1, hs.consumed⟩

/-- The finding that children are missing has the property. -/
theorem missing (h : Pervades m.cx good level P) (hs : Sound good level m s) :
    P (Machine.missing m s) := by
  unfold Machine.missing State.previous
  cases hconsumed : s.consumed with
  | nil => exact h.structural hs.node rfl
  | cons last before =>
    have hlast := hs.consumed last (by rw [hconsumed]; exact List.mem_cons_self)
    exact h.structural (h.rightmost hlast) rfl

/-- The property holds of what a step finds. -/
theorem step (h : Pervades m.cx good level P) (hs : Sound good level m s) (op : Step) :
    ∀ f ∈ findings (Machine.step m s op).1, P f := by
  have hcurrent : ∀ child, s.current = some child → good child := fun child hchild =>
    hs.rest child (List.mem_of_head? hchild)
  cases op with
  | expect e =>
    rw [Machine.step, consume]
    cases hrest : s.rest with
    | nil => simpa [findings, Event.finding?] using h.missing hs
    | cons child rest =>
      have hchild := hs.rest child (by rw [hrest]; exact List.mem_cons_self)
      simp only
      split
      · simpa [findings, Event.finding?] using h.carries.unexpected hchild e.expected
      · rw [findings_map_expression]
        split
        · exact h.carries.check hchild m.inline
        · simp
  | fork target =>
    rw [Machine.step, fork]
    split
    · simp [findings]
    · simp [findings]
    · cases s.current <;> simp [findings, Event.finding?]
  | branch | label | optional => simp [Machine.step, findings]
  | finish =>
    rw [Machine.step]
    cases hchild : s.current with
    | none => simp [findings]
    | some child => simpa [findings, Event.finding?] using h.carries.extra (hcurrent child hchild)
  | layout op =>
    rw [Machine.step, layout]
    split
    · simp [findings]
    · split
      · rename_i child prev hchild _
        simp only [findings_map_report]
        exact h.applyLayout hs.base hs.consumed (hcurrent child hchild) op
      · simp [findings]

/-- The property holds of what a run finds. -/
theorem runFrom (h : Pervades m.cx good level P) (fuel : Nat) (hs : Sound good level m s) :
    ∀ f ∈ findings (Machine.runFrom m fuel s), P f := by
  induction fuel generalizing s with
  | zero => simp [Machine.runFrom, findings]
  | succ fuel ih =>
    rw [runFrom_succ, findings_append, List.forall_mem_append]
    constructor
    · rw [findings_logged]
      cases m.program.step? s.pc with
      | none => simp
      | some op => exact h.step hs op
    · cases hnext : next? m s with
      | none => simp [findings]
      | some s' => exact ih (hs.of_next? hnext)

end Machine

/-! ## Walks -/

open Machine (findings findings_append findings_map_report)

/-- What is found on a visit to a node has the property. -/
theorem visitFindings (h : Pervades cx good level P) (table : ProgramTable) (ht : good t)
    {f : Focus} (hf : f ∈ t.foci) : ∀ g ∈ visitFindings cx table f, P g := by
  have hroot := Tree.mem_foci_iff.1 hf
  unfold TreeLayout.visitFindings visit
  cases table.get? f.tree.kind with
  | none => simp [findings]
  | some p =>
    have hnode := h.of_root hroot ht
    have hparent := h.of_root ((root_indentationParent f).trans hroot) ht
    exact h.runFrom (m := .of cx f p) _
      ⟨hnode, h.base hparent, by simp [Machine.State.start], fun c hc => h.children hnode hc⟩

/-- What is found about the alignment of a declaration has the property. -/
theorem alignDeclaration (h : Pervades cx good level P) (ht : good t) {f : Focus}
    (hf : f ∈ t.foci) (last : Option Nat) : ∀ g ∈ alignDeclaration cx last f, P g := by
  have hroot := Tree.mem_foci_iff.1 hf
  unfold TreeLayout.alignDeclaration
  split
  · simp
  · rename_i prev hprev
    split
    · have hhere := h.of_root hroot ht
      have habove := h.of_root ((Focus.root_prev? hprev).trans hroot) ht
      simp only [alignWith]
      split
      · simp
      · split
        · rename_i first second hfirst hsecond
          have hfirst := h.children habove (List.mem_of_find?_eq_some hfirst)
          have hsecond := h.children hhere (List.mem_of_find?_eq_some hsecond)
          split
          · simp
          · simpa using h.column hsecond (h.here hfirst)
        · simp
    · simp

/-- The property holds of all findings of a walk on a good tree. -/
theorem walkFindings (h : Pervades cx good level P) (table : ProgramTable) (ht : good t) :
    ∀ f ∈ walkFindings cx table t, P f := by
  have hfrom : ∀ (fs : List Focus) (last : Option Nat), (∀ f ∈ fs, f ∈ t.foci) →
      ∀ g ∈ findings (walkFrom cx table last fs), P g := by
    intro fs
    induction fs with
    | nil => simp [walkFrom, findings]
    | cons f fs ih =>
      intro last hfs
      obtain ⟨hf, hfs⟩ := List.forall_mem_cons.1 hfs
      rw [walkFrom_cons, findings_append, List.forall_mem_append]
      refine ⟨h.visitFindings table ht hf, ?_⟩
      split
      · rw [findings_append, findings_map_report, List.forall_mem_append]
        exact ⟨h.alignDeclaration ht hf last, ih _ hfs⟩
      · exact ih _ hfs
  exact hfrom t.foci none fun f hf => hf

end Pervades

end TreeLayout
