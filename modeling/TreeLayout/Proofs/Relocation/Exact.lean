import TreeLayout.Proofs.Column.Tabs
import TreeLayout.Proofs.Relocation.Walk

/-!
# Walks counted in words and walks counted exactly

A walk adds to columns, to indentations and to lines. No column is added to twice: the columns that are
expected are those of nodes, the indentation of a line, or one level more, and each is counted from one
when it is reported. So it is known from where the leaves of a tree stand which sums a walk computes,
and whether they fit (`Context.Fits`). If they do, the walk finds what it finds when all is counted
exactly (`walkFindings_exactly`): the two contexts are shifted against each other, with trees and columns
left where they are.
-/

namespace TreeLayout

/-- The source with its columns counted exactly. -/
def SourceText.exactly (s : SourceText) : SourceText :=
  { s with arithmetic := .exact, tabWidth_holds := Arithmetic.holds_exact s.tabWidth }

namespace Context

/-- The context with its columns counted exactly. -/
def exactly (cx : Context) : Context := { cx with source := cx.source.exactly }

/-- The sums that a walk computes about a leaf fit. -/
structure Fits (cx : Context) (pos : Position) : Prop where
  /-- Its column, counted from one. -/
  column : cx.source.arithmetic.Holds (cx.exactly.source.column pos.line pos.column + 1)
  /-- The indentation of its line and one level more, counted from one. -/
  indent : cx.source.arithmetic.Holds
    (cx.exactly.source.indentation pos.line + cx.settings.basicOffset + 1)
  /-- The line after it. -/
  line : cx.source.arithmetic.Holds (pos.line + 1)

instance (cx : Context) (pos : Position) : Decidable (cx.Fits pos) :=
  decidable_of_iff (cx.source.arithmetic.Holds (cx.exactly.source.column pos.line pos.column + 1) ∧
      cx.source.arithmetic.Holds
        (cx.exactly.source.indentation pos.line + cx.settings.basicOffset + 1) ∧
      cx.source.arithmetic.Holds (pos.line + 1))
    ⟨fun ⟨hcolumn, hindent, hline⟩ => ⟨hcolumn, hindent, hline⟩,
      fun ⟨hcolumn, hindent, hline⟩ => ⟨hcolumn, hindent, hline⟩⟩

/-- In exact arithmetic all sums fit. -/
theorem fits_of_exact {cx : Context} (h : cx.source.arithmetic = .exact) (pos : Position) :
    cx.Fits pos :=
  ⟨h ▸ Arithmetic.holds_exact _, h ▸ Arithmetic.holds_exact _, h ▸ Arithmetic.holds_exact _⟩

variable {cx : Context} {base n : Nat}

/-- One more than an exact number is that number. -/
theorem exactly_succ (cx : Context) (n : Nat) : cx.exactly.succ n = n + 1 :=
  Arithmetic.exact_fit _

/-- Counted exactly, the next level is the base and the offset. -/
theorem exactly_stepIn (cx : Context) (base : Nat) :
    cx.exactly.stepIn base = base + cx.settings.basicOffset :=
  Arithmetic.exact_fit _

/-- One level further in than a baseline fits, counted from one. -/
theorem Baseline.holds (h : cx.exactly.Baseline cx.Fits base) :
    cx.source.arithmetic.Holds (base + cx.settings.basicOffset + 1) := by
  obtain ⟨pos, hpos, rfl⟩ := h
  exact hpos.indent

/-- A column that is compared or reported fits, counted from one. -/
theorem Reached.holds (h : cx.exactly.Reached cx.Fits n) :
    cx.source.arithmetic.Holds (n + 1) := by
  cases h with
  | column hpos => exact hpos.column
  | base hbase => exact hbase.holds.of_le (by omega)
  | stepIn hbase =>
    rw [exactly_stepIn]
    exact hbase.holds

/-- Where all sums fit, columns are what they are when they are counted exactly. -/
theorem shifted_exactly (cx : Context) :
    cx.exactly.Shifted (fun _ raw => raw) id cx.Fits cx where
  settings := rfl
  column {pos} hpos := by
    have hexact : cx.source.column pos.line pos.column =
        cx.exactly.source.column pos.line pos.column :=
      Column.expanded_of_holds (hpos.column.of_le (Nat.le_succ _))
    exact hexact
  indentation {pos} hpos := by
    have hexact : cx.source.indentation pos.line = cx.exactly.source.indentation pos.line :=
      Column.indentation_of_holds (hpos.indent.of_le (Nat.le_add_right_of_le (Nat.le_add_right _ _)))
    exact hexact
  stepIn hbase := by
    rw [exactly_stepIn]
    exact Arithmetic.add_of_holds (hbase.holds.of_le (Nat.le_succ _))
  succ hreached := by
    rw [exactly_succ]
    exact Arithmetic.add_of_holds hreached.holds
  injective _ _ heq := heq
  nextLine hpos := by
    rw [exactly_succ]
    exact Arithmetic.add_of_holds hpos.line

end Context

/-- A tree that is moved nowhere. -/
theorem Tree.relocate_self (t : Tree) : t.relocate (fun _ raw => raw) = t := by
  induction t using Tree.children_induction with
  | token | empty => rw [relocate]; rfl
  | node kind first rest hfirst hrest =>
    have hmap : rest.map (relocate fun _ raw => raw) = rest :=
      (List.map_congr_left hrest).trans (List.map_id rest)
    rw [relocate_node, hfirst, hmap]

/-- A finding that is moved nowhere. -/
theorem Finding.relocate_self : Finding.relocate (fun _ raw => raw) id = id := by
  rw [relocate_id]
  rfl

variable {cx : Context} {t : Tree}

/-- If all sums fit, a walk finds what it finds when they are computed exactly. -/
theorem walkFindings_exactly (table : ProgramTable) (ht : t.Within cx.Fits) :
    walkFindings cx table t = walkFindings cx.exactly table t := by
  have hwalk := walkFindings_relocate cx.shifted_exactly table ht
  rwa [Tree.relocate_self, Finding.relocate_self, List.map_id] at hwalk

/-- If all sums fit, the findings in their order are those of exact sums. -/
theorem verify_exactly (table : ProgramTable) (ht : t.Within cx.Fits) :
    verify cx table t = verify cx.exactly table t := by
  rw [verify, verify, walkFindings_exactly table ht]

end TreeLayout
