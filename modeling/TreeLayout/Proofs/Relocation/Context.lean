import TreeLayout.Proofs.Relocation.Tree

/-!
# Checks of moved nodes

Two contexts are shifted against each other if they ask for the same layout and read related
columns: with trees moved by `ρ`, a column of the first context is related to `σ` of it in the second
one (`Context.Shifted`). This is asked only where the trees stand, at the positions with a property
`S`, and of the numbers that checks compute there: the columns of positions, the indentations of their
lines, and one level more (`Context.Reached`). So sums have to agree only where they are computed, and
a context can be shifted against one that counts in another arithmetic.

A check of moved nodes in the second context then finds what the check in the first one finds. The
findings stand in related columns, and so do the columns that they ask for and name
(`Finding.relocate`).
-/

namespace TreeLayout

/-- A message with the columns that it names moved. -/
def Message.shift (σ : Nat → Nat) : Message → Message
  | .column token expected actual => .column token (σ expected) (σ actual)
  | message => message

/-- A finding moved with its anchor by `ρ`, and its columns by `σ`. -/
def Finding.relocate (ρ : Nat → Nat → Nat) (σ : Nat → Nat) (f : Finding) : Finding :=
  { f with
    column := σ f.column
    rawColumn := ρ f.line f.rawColumn
    message := f.message.shift σ
    indent := f.indent.map σ }

/-- A message whose columns are not shifted stays as it is. -/
theorem Message.shift_id (m : Message) : m.shift id = m := by
  cases m <;> rfl

/-- Findings that are moved without a change of their columns keep all but their raw columns. -/
theorem Finding.relocate_id (ρ : Nat → Nat → Nat) :
    Finding.relocate ρ id = fun f => { f with rawColumn := ρ f.line f.rawColumn } := by
  funext f
  simp [relocate, Message.shift_id]

namespace Context

/-- A baseline of nodes at positions with a property: the indentation of a line. -/
def Baseline (cx : Context) (S : Position → Prop) (base : Nat) : Prop :=
  ∃ pos, S pos ∧ cx.source.indentation pos.line = base

/-- The columns that are compared and reported for nodes at positions with a property. -/
inductive Reached (cx : Context) (S : Position → Prop) : Nat → Prop
  /-- The column of a node. -/
  | column {pos : Position} : S pos → Reached cx S (cx.source.column pos.line pos.column)
  /-- A baseline. -/
  | base {base : Nat} : cx.Baseline S base → Reached cx S base
  /-- One level further in than a baseline. -/
  | stepIn {base : Nat} : cx.Baseline S base → Reached cx S (cx.stepIn base)

/-- The second context reads trees moved by `ρ` as the first one reads the trees, with all columns moved
by `σ`. This is asked at the positions with a property only. -/
structure Shifted (ρ : Nat → Nat → Nat) (σ : Nat → Nat) (S : Position → Prop) (cx cx' : Context) :
    Prop where
  /-- The same layout is asked for. -/
  settings : cx'.settings = cx.settings
  /-- Columns move with their raw columns. -/
  column {pos : Position} : S pos →
    cx'.source.column pos.line (ρ pos.line pos.column) = σ (cx.source.column pos.line pos.column)
  /-- Indentations of lines move. -/
  indentation {pos : Position} : S pos →
    cx'.source.indentation pos.line = σ (cx.source.indentation pos.line)
  /-- One level further in than a baseline is one level further in than the moved one. -/
  stepIn {base : Nat} : cx.Baseline S base → cx'.stepIn (σ base) = σ (cx.stepIn base)
  /-- Columns are counted from one alike. -/
  succ {column : Nat} : cx.Reached S column → cx'.succ (σ column) = σ (cx.succ column)
  /-- Different columns stay different. -/
  injective {m n : Nat} : cx.Reached S m → cx.Reached S n → σ m = σ n → m = n
  /-- The line after a line is the same. -/
  nextLine {pos : Position} : S pos → cx'.succ pos.line = cx.succ pos.line

variable {ρ : Nat → Nat → Nat} {σ : Nat → Nat} {S : Position → Prop} {cx cx' : Context}

/-- The column of a node is reached. -/
theorem reached_column (cx : Context) {t : Tree} (ht : t.Within S) : cx.Reached S (cx.column t) :=
  .column ht.pos

/-- The base of a node is a baseline. -/
theorem baseline_baseOf (cx : Context) {t : Tree} (ht : t.Within S) :
    cx.Baseline S (cx.baseOf t) :=
  ⟨t.pos, ht.pos, rfl⟩

namespace Shifted

variable {prev next t : Tree} {column : Nat}

/-- Two columns are equal if they are after they moved. -/
theorem eq_iff (h : Shifted ρ σ S cx cx') {m n : Nat} (hm : cx.Reached S m) (hn : cx.Reached S n) :
    σ m = σ n ↔ m = n :=
  ⟨h.injective hm hn, congrArg σ⟩

/-- A moved node stands in the shifted column. -/
theorem column_relocate (h : Shifted ρ σ S cx cx') (ht : t.Within S) :
    cx'.column (t.relocate ρ) = σ (cx.column t) := by
  rw [Context.column, Context.column, Tree.line_relocate, Tree.rawColumn_relocate]
  exact h.column ht.pos

/-- A moved node has the shifted base. -/
theorem baseOf_relocate (h : Shifted ρ σ S cx cx') (ht : t.Within S) :
    cx'.baseOf (t.relocate ρ) = σ (cx.baseOf t) := by
  rw [baseOf, baseOf, Tree.line_relocate]
  exact h.indentation ht.pos

/-- Findings move with their anchors. -/
theorem finding_relocate (h : Shifted ρ σ S cx cx') (ht : t.Within S) (message : Message)
    (indent : Option Nat) :
    cx'.finding (t.relocate ρ) (message.shift σ) (indent.map σ) =
      (cx.finding t message indent).relocate ρ σ := by
  simp only [finding, Finding.relocate, h.column_relocate ht, h.succ (cx.reached_column ht),
    Tree.line_relocate, Tree.rawColumn_relocate, Tree.leftmost_relocate, Tree.text_relocate]

/-- A shifted column is asked of a moved node as the column is of the node. -/
theorem expectColumn_relocate (h : Shifted ρ σ S cx cx') (hnext : next.Within S)
    (hcolumn : cx.Reached S column) :
    cx'.expectColumn (next.relocate ρ) (σ column) =
      (cx.expectColumn next column).map (Finding.relocate ρ σ) := by
  have hhere := cx.reached_column hnext
  have hfinding := h.finding_relocate hnext
    (.column next.leftmost.describe (cx.succ column) (cx.succ (cx.column next))) (some column)
  simp only [Message.shift, Option.map_some] at hfinding
  unfold expectColumn
  simp only [h.column_relocate hnext, h.eq_iff hhere hcolumn, h.succ hhere, h.succ hcolumn,
    Tree.leftmost_relocate, Tree.describe_relocate]
  split
  · rfl
  · rw [List.map_singleton, hfinding]

/-- The finding that a line is not shared is moved. -/
theorem sameLineViolation_relocate (h : Shifted ρ σ S cx cx') (prev : Tree) (hnext : next.Within S) :
    cx'.sameLineViolation (prev.relocate ρ) (next.relocate ρ) =
      (cx.sameLineViolation prev next).relocate ρ σ := by
  rw [sameLineViolation, sameLineViolation, Tree.rightmost_relocate, Tree.describeLast_relocate,
    Tree.leftmost_relocate, Tree.describe_relocate]
  exact h.finding_relocate hnext (.sameLine _ _) none

/-- The finding that a node has to wrap is moved. -/
theorem mustWrapViolation_relocate (h : Shifted ρ σ S cx cx') (hnext : next.Within S)
    (indent : Nat) :
    cx'.mustWrapViolation (next.relocate ρ) (σ indent) =
      (cx.mustWrapViolation next indent).relocate ρ σ := by
  rw [mustWrapViolation, mustWrapViolation, Tree.leftmost_relocate, Tree.describe_relocate]
  exact h.finding_relocate hnext (.mustWrap _) (some indent)

/-- Where moved nodes have to share a line, the findings are moved. -/
theorem noWrap_relocate (h : Shifted ρ σ S cx cx') (prev : Tree) (hnext : next.Within S) :
    cx'.noWrap (prev.relocate ρ) (next.relocate ρ) =
      (cx.noWrap prev next).map (Finding.relocate ρ σ) := by
  rw [noWrap, noWrap, sameLine_relocate, h.sameLineViolation_relocate prev hnext]
  split <;> rfl

/-- Where a moved node may wrap, the findings are moved. -/
theorem mayWrap_relocate (h : Shifted ρ σ S cx cx') (prev : Tree) (hnext : next.Within S)
    (hcolumn : cx.Reached S column) :
    cx'.mayWrap (prev.relocate ρ) (next.relocate ρ) (σ column) =
      (cx.mayWrap prev next column).map (Finding.relocate ρ σ) := by
  rw [mayWrap, mayWrap, sameLine_relocate, h.expectColumn_relocate hnext hcolumn]
  split <;> rfl

/-- Where a moved node has to wrap, the findings are moved. -/
theorem mustWrap_relocate (h : Shifted ρ σ S cx cx') (prev : Tree) (hnext : next.Within S)
    (hcolumn : cx.Reached S column) :
    cx'.mustWrap (prev.relocate ρ) (next.relocate ρ) (σ column) =
      (cx.mustWrap prev next column).map (Finding.relocate ρ σ) := by
  rw [mustWrap, mustWrap, sameLine_relocate, h.expectColumn_relocate hnext hcolumn,
    h.mustWrapViolation_relocate hnext]
  split <;> rfl

/-- What is found at a boundary moves with it, under each policy. -/
theorem boundary_relocate (h : Shifted ρ σ S cx cx') (policy : WrapPolicy) (prev : Tree)
    (hnext : next.Within S) (hcolumn : cx.Reached S column) :
    cx'.boundary policy (prev.relocate ρ) (next.relocate ρ) (σ column) =
      (cx.boundary policy prev next column).map (Finding.relocate ρ σ) := by
  cases policy with
  | no => exact h.noWrap_relocate prev hnext
  | may => exact h.mayWrap_relocate prev hnext hcolumn
  | must => exact h.mustWrap_relocate prev hnext hcolumn

/-- The finding that a child has the wrong kind is moved. -/
theorem unexpected_relocate (h : Shifted ρ σ S cx cx') (ht : t.Within S) (expected : String) :
    cx'.unexpected (t.relocate ρ) expected = (cx.unexpected t expected).relocate ρ σ := by
  rw [unexpected, unexpected, Tree.describe_relocate]
  exact h.finding_relocate ht (.unexpectedToken _ _) none

/-- The finding that a child is surplus is moved. -/
theorem extra_relocate (h : Shifted ρ σ S cx cx') (ht : t.Within S) :
    cx'.extra (t.relocate ρ) = (cx.extra t).relocate ρ σ := by
  rw [extra, extra, Tree.describe_relocate]
  exact h.finding_relocate ht (.extraToken _) none

/-- The finding that the first child is missing is moved. -/
theorem missingFirst_relocate (h : Shifted ρ σ S cx cx') (ht : t.Within S) :
    cx'.missingFirst (t.relocate ρ) = (cx.missingFirst t).relocate ρ σ := by
  rw [missingFirst, missingFirst, Tree.kind_relocate]
  exact h.finding_relocate ht (.missingToken _) none

end Shifted

end Context

end TreeLayout
