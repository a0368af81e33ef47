import Mathlib.Data.List.Chain
import TreeLayout.Proofs.Expression.Findings
import TreeLayout.Proofs.Tree.Moved
import TreeLayout.Proofs.Verdict.Walk

/-!
# Checks before a token that is moved to the next line

A tree is compared with the one that is left when the line is ended before one of its tokens: the
leaves before the token stay on their lines, and the token goes to a line where none of them stands
(`Pushed`).

In an expression a line end is asked for only before a token on the line of the leaf before it, so
no expression asks for one before the token any more (`Pushed.wraps_check`). The layout checks of
the machine have one exception: an element of a run that started on its line and whose elements may
not share lines. Where that exception applies the old tree has no finding, so a check of both trees
finds at most one thing (`Machine.verdicts_add_wraps_applyLayout_le`).
-/

namespace TreeLayout

open TreeLayout.Tree (starts mapPos)

variable {σ : Position → Position} {q : Position} {cx : Context}

/-! ## Findings that ask for a line end -/

/-- Whether a finding asks for a line end before the token at a place. -/
def Finding.wrapsAt (q : Position) (f : Finding) : Bool :=
  decide (f.message.rule = .mustWrap) && decide (Position.mk f.line f.rawColumn = q)

/-- The number of findings that ask for a line end before the token at a place. -/
def wraps (q : Position) (fs : List Finding) : Nat := fs.countP (Finding.wrapsAt q)

/-- Where nothing is found there is no wrap. -/
@[simp] theorem wraps_nil (q : Position) : wraps q [] = 0 := rfl

/-- The wraps that are found in two places add up. -/
@[simp] theorem wraps_append (q : Position) (fs gs : List Finding) :
    wraps q (fs ++ gs) = wraps q fs + wraps q gs :=
  List.countP_append

/-- Findings none of which asks for a wrap at a place ask for none there. -/
theorem wraps_eq_zero {fs : List Finding} (h : ∀ f ∈ fs, f.wrapsAt q = false) : wraps q fs = 0 :=
  List.countP_eq_zero.2 fun f hf => by simp [h f hf]

/-- No wrap is asked for at a place exactly if no finding of that rule stands there. -/
theorem wraps_eq_zero_iff {fs : List Finding} : wraps q fs = 0 ↔
    ∀ f ∈ fs, f.message.rule = .mustWrap → Position.mk f.line f.rawColumn ≠ q := by
  simp [wraps, List.countP_eq_zero, Finding.wrapsAt]

/-- To ask for a line end is a verdict about layout. -/
theorem wraps_le_verdicts (q : Position) (fs : List Finding) : wraps q fs ≤ verdicts q fs := by
  refine List.countP_mono_left fun f _ hf => ?_
  simp only [Finding.wrapsAt, Bool.and_eq_true, decide_eq_true_eq] at hf
  simp [Finding.judges, Message.isStructural, hf, Rule.isStructural]

namespace Context

/-- A finding of another rule asks for no wrap. -/
theorem wrapsAt_of_rule {t : Tree} {message : Message} {indent : Option Nat}
    (h : message.rule ≠ .mustWrap) : (cx.finding t message indent).wrapsAt q = false := by
  simp [Finding.wrapsAt, finding, h]

variable (cx) (prev next : Tree)

/-- A column that is asked for is no wrap. -/
theorem wraps_expectColumn (expected : Nat) : wraps q (cx.expectColumn next expected) = 0 := by
  simp only [expectColumn]
  split
  · rfl
  · refine wraps_eq_zero fun f hf => ?_
    obtain rfl := List.mem_singleton.1 hf
    exact wrapsAt_of_rule (by simp [Message.rule])

/-- A line that is to be shared is no wrap. -/
theorem wraps_noWrap : wraps q (cx.noWrap prev next) = 0 := by
  unfold noWrap
  split
  · rfl
  · refine wraps_eq_zero fun f hf => ?_
    obtain rfl := List.mem_singleton.1 hf
    exact wrapsAt_of_rule (by simp [Message.rule])

/-- A wrap that is allowed is not asked for. -/
theorem wraps_mayWrap (column : Nat) : wraps q (cx.mayWrap prev next column) = 0 := by
  unfold mayWrap
  split
  · rfl
  · exact cx.wraps_expectColumn next column

/-- A token that does not share its line with the one before it starts a line. -/
theorem wraps_mustWrap {prev next : Tree} (h : sameLine prev next = false) (column : Nat) :
    wraps q (cx.mustWrap prev next column) = 0 := by
  unfold mustWrap
  rw [h]
  exact cx.wraps_expectColumn next column

end Context

/-! ## Moved leaves -/

/-- Leaves in order, seen from a place `q` that `σ` takes to another line. Whether the leaf before
the place stands on its line is said by `shared`. -/
structure Pushed (σ : Position → Position) (q : Position) (shared : Prop) (leaves : List Tree) :
    Prop where
  /-- The leaves before the place keep their lines, and the place goes to none of these. -/
  before : leaves.Pairwise fun y x => x.pos = q → (σ y.pos).line = y.line ∧ y.line ≠ (σ q).line
  /-- The leaf before the place stands on its line if the line is shared. -/
  adjacent : leaves.IsChain fun y x => x.pos = q → shared → y.line = q.line
  /-- No leaf before the place stands on its line otherwise. -/
  alone : leaves.Pairwise fun y x => x.pos = q → y.line = q.line → shared
  /-- No two leaves stand at the place. -/
  once : (leaves.map Tree.pos).count q ≤ 1
  /-- No other leaf goes where the place goes. -/
  apart : ∀ x ∈ leaves, σ x.pos = σ q → x.pos = q

namespace Pushed

variable {shared : Prop} {ls ls' : List Tree}

/-- Some of the pushed leaves, in a row, are pushed. -/
theorem of_part (h : Pushed σ q shared ls) (hpart : ls' <:+: ls) : Pushed σ q shared ls' where
  before := h.before.sublist hpart.sublist
  adjacent := h.adjacent.infix hpart
  alone := h.alone.sublist hpart.sublist
  once := Nat.le_trans ((hpart.sublist.map Tree.pos).count_le q) h.once
  apart x hx := h.apart x (hpart.subset hx)

/-- The first of the pushed leaves are pushed. -/
theorem left (h : Pushed σ q shared (ls ++ ls')) : Pushed σ q shared ls :=
  h.of_part (List.prefix_append ls ls').isInfix

/-- The last of the pushed leaves are pushed. -/
theorem right (h : Pushed σ q shared (ls ++ ls')) : Pushed σ q shared ls' :=
  h.of_part (List.suffix_append ls ls').isInfix

/-- The leaves of one of several trees. -/
theorem of_mem {t : Tree} {ts : List Tree} (h : Pushed σ q shared (Tree.leavesAmong ts))
    (ht : t ∈ ts) : Pushed σ q shared t.leaves := by
  induction ts with
  | nil => cases ht
  | cons t' ts ih =>
    rw [Tree.leavesAmong] at h
    rcases List.mem_cons.1 ht with rfl | ht
    · exact h.left
    · exact ih h.right ht

/-- The leaves below the children of a node are pushed if those below the node are. -/
theorem children {t : Tree} (h : Pushed σ q shared t.leaves) :
    Pushed σ q shared (Tree.leavesAmong t.children) := by
  cases t with
  | token | empty => exact h.of_part List.nil_infix
  | node => exact h

/-- A tree right before the place ends on its line, if the line is shared, and only then. -/
theorem line_eq_iff {a b : Tree} (h : Pushed σ q shared (a.leaves ++ b.leaves)) (hq : b.pos = q) :
    a.rightmost.line = q.line ↔ shared := by
  have hleaf : b.leftmost.pos = q := b.pos_leftmost.trans hq
  constructor
  · exact (List.pairwise_append.1 h.alone).2.2 a.rightmost a.rightmost_mem_leaves b.leftmost
      b.leftmost_mem_leaves hleaf
  · exact (List.isChain_append.1 h.adjacent).2.2 a.rightmost a.getLast?_leaves b.leftmost
      b.head?_leaves hleaf

/-- A tree right before the place keeps its lines, and the place goes to none of these. -/
theorem line_ne {a b : Tree} (h : Pushed σ q shared (a.leaves ++ b.leaves)) (hq : b.pos = q) :
    (σ a.rightmost.pos).line = a.rightmost.line ∧ a.rightmost.line ≠ (σ q).line :=
  (List.pairwise_append.1 h.before).2.2 a.rightmost a.rightmost_mem_leaves b.leftmost
    b.leftmost_mem_leaves (b.pos_leftmost.trans hq)

end Pushed

/-! ## Expressions -/

/-- The leaves before a place do not stand on its line. -/
def Clear (q : Position) (t : Tree) : Prop :=
  t.leaves.Pairwise fun y x => x.pos = q → y.line ≠ q.line

/-- A clear node has clear children, and before a child at the place no leaf of an earlier one
stands on its line. -/
theorem Clear.children {t : Tree} (h : Clear q t) :
    (∀ c ∈ t.children, Clear q c) ∧
      t.children.Pairwise fun a b => b.pos = q → ∀ y ∈ a.leaves, y.line ≠ q.line := by
  have hamong : ∀ ts : List Tree,
      (Tree.leavesAmong ts).Pairwise (fun y x => x.pos = q → y.line ≠ q.line) →
      (∀ c ∈ ts, Clear q c) ∧
        ts.Pairwise fun a b => b.pos = q → ∀ y ∈ a.leaves, y.line ≠ q.line := by
    intro ts
    induction ts with
    | nil => simp
    | cons t ts ih =>
      intro hts
      rw [Tree.leavesAmong, List.pairwise_append] at hts
      obtain ⟨hhere, hlater, hacross⟩ := hts
      obtain ⟨hclear, hpairs⟩ := ih hlater
      refine ⟨List.forall_mem_cons.2 ⟨hhere, hclear⟩, List.pairwise_cons.2 ⟨?_, hpairs⟩⟩
      intro b hb hq y hy
      have hleaf : b.leftmost ∈ Tree.leavesAmong ts := by
        rw [Tree.leavesAmong_eq_flatMap]
        exact List.mem_flatMap.2 ⟨b, hb, b.leftmost_mem_leaves⟩
      exact hacross y hy b.leftmost hleaf (b.pos_leftmost.trans hq)
  cases t with
  | token | empty => simp [Tree.children]
  | node kind first rest => exact hamong (first :: rest) h

/-- In an expression no line end is asked for before a token that shares its line with nothing
before it. -/
theorem carries_clear (q : Position) (cx : Context) :
    Carries cx (Clear q) (fun a b => b.pos = q → ∀ y ∈ a.leaves, y.line ≠ q.line) (fun _ => True)
      fun f => f.wrapsAt q = false where
  children h hc := h.children.1 _ hc
  siblings h := h.children.2
  inner h hsubset hq y hy := h hq y (hsubset hy)
  base _ := ⟨trivial, trivial⟩
  structural {t message} _ hmessage := by
    refine Context.wrapsAt_of_rule fun hrule => ?_
    rw [Message.isStructural, hrule] at hmessage
    cases hmessage
  sameLine _ := Context.wrapsAt_of_rule nofun
  column {next c} _ _ := by
    have hzero := cx.wraps_expectColumn (q := q) next c
    intro f hf
    simpa using List.countP_eq_zero.1 hzero f hf
  wrap {prev next c} _ hnear _ := by
    intro f hf
    unfold Context.mustWrap at hf
    split at hf
    · rename_i hsame
      obtain rfl := List.mem_singleton.1 hf
      have hpos : Position.mk next.line next.rawColumn = next.pos := rfl
      simp only [Finding.wrapsAt, Context.mustWrapViolation, Context.finding, hpos,
        Bool.and_eq_false_iff, decide_eq_false_iff_not]
      refine .inr fun hq => hnear hq prev.rightmost prev.rightmost_mem_leaves ?_
      have hline : prev.rightmost.line = next.line := by simpa [sameLine] using hsame
      rw [hline, Tree.line, hq]
    · have hzero := cx.wraps_expectColumn (q := q) next c
      simpa using List.countP_eq_zero.1 hzero f hf

/-- In a clear expression no wrap is asked for at the place. -/
theorem Clear.wraps_check {t : Tree} (h : Clear q t) (cx : Context) (inline : Bool) :
    wraps q (Expression.check cx t (cx.baseOf t) inline) = 0 :=
  wraps_eq_zero ((carries_clear q cx).check h inline)

/-- In the new tree nothing stands before the token on its line. -/
theorem Pushed.clear_mapPos {shared : Prop} {t : Tree} (h : Pushed σ q shared t.leaves) :
    Clear (σ q) (t.mapPos σ) := by
  unfold Clear
  rw [Tree.leaves_mapPos, List.pairwise_map]
  refine h.before.imp_of_mem fun {y x} _ hx hbefore hq => ?_
  rw [Tree.pos_mapPos] at hq
  obtain ⟨hline, hne⟩ := hbefore (h.apart x hx hq)
  rw [Tree.line, Tree.pos_mapPos, hline]
  exact hne

/-- Neither does it in the old tree, if the line is not shared. -/
theorem Pushed.clear {shared : Prop} {t : Tree} (h : Pushed σ q shared t.leaves)
    (hshared : ¬ shared) : Clear q t :=
  h.alone.imp fun {_ _} halone hq hline => hshared (halone hq hline)

/-! ## Layout checks -/

namespace Machine

variable {m m' : Task} {s s' : State} {prev child prev' child' : Tree}

/-- Indentation gives no wrap. -/
theorem wraps_checkIndented (q : Position) (m : Task) (consumed : List Tree) (child : Tree) :
    wraps q (checkIndented m consumed child) = 0 := by
  simp only [checkIndented]
  split
  · exact m.cx.wraps_expectColumn child _
  · split
    · exact m.cx.wraps_expectColumn child _
    · split
      · rfl
      · exact m.cx.wraps_expectColumn child _

/-- An element that shared a line and then starts one. The old run finds nothing where the new one
asks for a line end: in a run that started on its line. -/
theorem verdicts_add_wraps_element_le (hsame : sameLine prev child = true)
    (hnew : sameLine prev' child' = false) (hmode : s'.mode = s.mode) :
    verdicts q (element m s prev child).1 + wraps (σ q) (element m' s' prev' child').1 ≤ 1 := by
  have hle := verdicts_element_le q m s prev child
  have hone : starts q child ≤ 1 := by
    unfold starts
    split <;> omega
  unfold element at hle ⊢
  rw [hsame, hnew, hmode]
  rw [hsame] at hle
  cases hm : s.mode with
  | unset => simp [wraps_checkIndented]
  | sameLine =>
    have hwraps : wraps (σ q) (if m'.program.multiplePerLine then
        checkIndented m' s'.consumed child'
        else [m'.cx.mustWrapViolation child' (m'.cx.stepIn m'.base)]) ≤ 1 := by
      split
      · rw [wraps_checkIndented]
        exact Nat.zero_le _
      · exact List.countP_le_length
    simpa using hwraps
  | wrapped =>
    rw [hm] at hle
    simp only [wraps_checkIndented, Nat.add_zero]
    exact Nat.le_trans hle hone

/-- A token that shared its line and then starts one: the checks of both find at most one thing. -/
theorem verdicts_add_wraps_applyLayout_le (op : LayoutOp) (hsame : sameLine prev child = true)
    (hnew : sameLine prev' child' = false) (hmode : s'.mode = s.mode)
    (hchildren : child'.hasChildren = child.hasChildren) :
    verdicts q (applyLayout m s op prev child).1 +
      wraps (σ q) (applyLayout m' s' op prev' child').1 ≤ 1 := by
  have hle := verdicts_applyLayout_le q m s op prev child
  have hone : starts q child ≤ 1 := by
    unfold starts
    split <;> omega
  -- Apart from the elements of a run, only a token on the line of the one before it has to wrap.
  have hquiet : wraps (σ q) (applyLayout m' s' op prev' child').1 = 0 →
      verdicts q (applyLayout m s op prev child).1 +
        wraps (σ q) (applyLayout m' s' op prev' child').1 ≤ 1 := by
    intro hzero
    omega
  cases op with
  | noWrap => exact hquiet (m'.cx.wraps_noWrap prev' child')
  | mayWrap => exact hquiet (m'.cx.wraps_mayWrap prev' child' m'.base)
  | mustWrap =>
    apply hquiet
    simp only [applyLayout, hnew, Bool.false_and, Bool.false_eq_true, if_false]
    exact m'.cx.wraps_mustWrap hnew m'.base
  | unindent =>
    apply hquiet
    simp only [applyLayout, closeRun]
    cases s'.mode with
    | sameLine => exact m'.cx.wraps_noWrap prev' child'
    | wrapped => exact m'.cx.wraps_mustWrap hnew m'.base
    | unset => exact m'.cx.wraps_mayWrap prev' child' m'.base
  | indentIfChildren =>
    cases hhas : child.hasChildren with
    | true =>
      simp only [applyLayout, hchildren, hhas, if_true]
      exact verdicts_add_wraps_element_le hsame hnew hmode
    | false =>
      apply hquiet
      simp only [applyLayout, hchildren, hhas, Bool.false_eq_true, if_false]
      exact m'.cx.wraps_noWrap prev' child'
  | mayIndent => exact verdicts_add_wraps_element_le hsame hnew hmode
  | mustIndent =>
    apply hquiet
    simp only [applyLayout, hnew, Bool.false_eq_true, if_false]
    exact wraps_checkIndented (σ q) m' s'.consumed child'
  | endRun => exact hquiet rfl

/-- A violation stands at its token. -/
theorem wraps_mustWrapViolation (cx : Context) (t : Tree) (indent : Nat) :
    wraps t.pos [cx.mustWrapViolation t indent] = 1 := by
  have hpos : Position.mk t.line t.rawColumn = t.pos := rfl
  simp [wraps, Finding.wrapsAt, Context.mustWrapViolation, Context.finding, Message.rule, hpos]

/-- A token that starts its line in both trees: both checks ask for a line end, or none. -/
theorem wraps_applyLayout_eq (op : LayoutOp) (hsame : sameLine prev child = false)
    (hnew : sameLine prev' child' = false) (hmode : s'.mode = s.mode)
    (hprogram : m'.program = m.program) (hchildren : child'.hasChildren = child.hasChildren) :
    wraps child.pos (applyLayout m s op prev child).1 =
      wraps child'.pos (applyLayout m' s' op prev' child').1 := by
  have helement : wraps child.pos (element m s prev child).1 =
      wraps child'.pos (element m' s' prev' child').1 := by
    unfold element
    rw [hsame, hnew, hmode, hprogram]
    cases s.mode with
    | unset | wrapped => simp only [wraps_checkIndented]
    | sameLine =>
      simp only
      split
      · rw [wraps_checkIndented, wraps_checkIndented]
      · rw [wraps_mustWrapViolation, wraps_mustWrapViolation]
  cases op with
  | noWrap => rw [applyLayout, applyLayout, Context.wraps_noWrap, Context.wraps_noWrap]
  | mayWrap => rw [applyLayout, applyLayout, Context.wraps_mayWrap, Context.wraps_mayWrap]
  | mustWrap =>
    simp only [applyLayout, hsame, hnew, Bool.false_and, Bool.false_eq_true, if_false]
    rw [Context.wraps_mustWrap _ hsame, Context.wraps_mustWrap _ hnew]
  | unindent =>
    simp only [applyLayout, closeRun, hmode]
    cases s.mode with
    | sameLine => rw [Context.wraps_noWrap, Context.wraps_noWrap]
    | wrapped => rw [Context.wraps_mustWrap _ hsame, Context.wraps_mustWrap _ hnew]
    | unset => rw [Context.wraps_mayWrap, Context.wraps_mayWrap]
  | indentIfChildren =>
    simp only [applyLayout, hchildren]
    split
    · exact helement
    · rw [Context.wraps_noWrap, Context.wraps_noWrap]
  | mayIndent => exact helement
  | mustIndent =>
    simp only [applyLayout, hsame, hnew, Bool.false_eq_true, if_false, wraps_checkIndented]
  | endRun => rfl

/-- The mode after a layout check depends on the mode before it, on whether the child shares a line
with what stands before it, and on whether it has children. -/
theorem mode_applyLayout_eq (op : LayoutOp) (hmode : s'.mode = s.mode)
    (hsame : sameLine prev' child' = sameLine prev child)
    (hchildren : child'.hasChildren = child.hasChildren) :
    (applyLayout m' s' op prev' child').2 = (applyLayout m s op prev child).2 := by
  have helement : (element m' s' prev' child').2 = (element m s prev child).2 := by
    simp only [element, hmode, hsame]
    cases s.mode <;> cases sameLine prev child <;> rfl
  cases op with
  | noWrap | mayWrap => exact hmode
  | mustWrap =>
    simp only [applyLayout]
    split <;> split <;> exact hmode
  | unindent | endRun => rfl
  | indentIfChildren =>
    simp only [applyLayout, hchildren]
    split
    · exact helement
    · rfl
  | mayIndent => exact helement
  | mustIndent =>
    simp only [applyLayout]
    split <;> split <;> rfl

end Machine

end TreeLayout
