import Mathlib.Order.Monotone.Basic
import TreeLayout.Proofs.Relocation.Machine
import TreeLayout.Proofs.Table.Halting

/-!
# Walks over moved trees

A walk over a moved tree finds what the walk over the tree finds, moved, in the same order
(`walkFindings_relocate`); ordered by place the findings stay in the same order too, if columns do
(`verify_relocate`). Declarations are told apart by their numbers in document order, which do not
change, and their `=` are compared by columns.
-/

namespace TreeLayout

open Machine (Event)

variable {ρ : Nat → Nat → Nat} {σ : Nat → Nat} {S : Position → Prop} {cx cx' : Context}

/-- The token of an assignment is moved with the declaration. -/
theorem assignToken?_relocate (t : Tree) :
    assignToken? (t.relocate ρ) = (assignToken? t).map (Tree.relocate ρ) := by
  rw [assignToken?, Tree.children_relocate, List.find?_map]
  simp only [Function.comp_def, Tree.kind_relocate]
  rfl

/-- The alignment of two declarations moves with them. -/
theorem alignWith_relocate (h : cx.Shifted ρ σ S cx') {above here : Tree} (habove : above.Within S)
    (hhere : here.Within S) :
    alignWith cx' (above.relocate ρ) (here.relocate ρ) =
      (alignWith cx above here).map (Finding.relocate ρ σ) := by
  have hline : cx'.succ above.rightmost.line = cx.succ above.rightmost.line :=
    h.nextLine habove.rightmost.pos
  unfold alignWith
  rw [Tree.rightmost_relocate, Tree.line_relocate, Tree.line_relocate, assignToken?_relocate,
    assignToken?_relocate, hline]
  split
  · rfl
  · cases hfirst : assignToken? above with
    | none => rfl
    | some first =>
      cases hsecond : assignToken? here with
      | none => rfl
      | some second =>
        have hfirst := habove.children first (List.mem_of_find?_eq_some hfirst)
        have hsecond := hhere.children second (List.mem_of_find?_eq_some hsecond)
        have hreached := cx.reached_column hfirst
        have hreached' := cx.reached_column hsecond
        have hfinding := h.finding_relocate hsecond
          (.column second.text (cx.succ (cx.column first)) (cx.succ (cx.column second)))
          (some (cx.column first))
        simp only [Message.shift, Option.map_some] at hfinding
        simp only [Option.map_some, h.column_relocate hfirst, h.column_relocate hsecond,
          h.eq_iff hreached hreached', h.succ hreached, h.succ hreached', Tree.text_relocate]
        split
        · rfl
        · rw [hfinding, List.map_singleton]

/-- What is found about the alignment of a moved declaration is moved. -/
theorem alignDeclaration_relocate (h : cx.Shifted ρ σ S cx') (last : Option Nat) {f : Focus}
    (hf : f.root.Within S) :
    alignDeclaration cx' last (f.relocate ρ) =
      (alignDeclaration cx last f).map (Finding.relocate ρ σ) := by
  rw [alignDeclaration, alignDeclaration, Focus.prev?_relocate]
  cases hprev : f.prev? with
  | none => rfl
  | some prev =>
    have habove := Focus.within_of_root ((Focus.root_prev? hprev).symm ▸ hf)
    simp only [Option.map_some, Focus.index_relocate, Focus.tree_relocate, Tree.kind_relocate,
      alignWith_relocate h habove (Focus.within_of_root hf)]
    split <;> rfl

/-- A visit to a moved node logs the moved events. -/
theorem visit_relocate (h : cx.Shifted ρ σ S cx') (table : ProgramTable) {f : Focus}
    (hf : f.root.Within S) :
    visit cx' table (f.relocate ρ) = (visit cx table f).map (Event.relocate ρ σ) := by
  rw [visit, visit, Focus.tree_relocate, Tree.kind_relocate]
  cases table.get? f.tree.kind with
  | none => rfl
  | some p => exact Machine.run_relocate h hf p

/-- The log of a walk over moved nodes. -/
theorem walkFrom_relocate (h : cx.Shifted ρ σ S cx') (table : ProgramTable) (last : Option Nat)
    {fs : List Focus} (hfs : ∀ f ∈ fs, f.root.Within S) :
    walkFrom cx' table last (fs.map (Focus.relocate ρ)) =
      (walkFrom cx table last fs).map (Event.relocate ρ σ) := by
  induction fs generalizing last with
  | nil => rfl
  | cons f fs ih =>
    obtain ⟨hf, hfs⟩ := List.forall_mem_cons.1 hfs
    have halign : (alignDeclaration cx' last (f.relocate ρ)).map Event.report =
        ((alignDeclaration cx last f).map Event.report).map (Event.relocate ρ σ) := by
      rw [alignDeclaration_relocate h last hf, List.map_map, List.map_map]
      rfl
    rw [List.map_cons, walkFrom_cons, walkFrom_cons, visit_relocate h table hf, halign,
      Focus.index_relocate, Focus.tree_relocate, Tree.kind_relocate, h.settings, ih _ hfs, ih _ hfs,
      List.map_append]
    split
    · rw [List.map_append]
    · rfl

/-- A walk over a moved tree finds what the walk over the tree finds, moved. -/
theorem walkFindings_relocate (h : cx.Shifted ρ σ S cx') (table : ProgramTable) {t : Tree}
    (ht : t.Within S) :
    walkFindings cx' table (t.relocate ρ) =
      (walkFindings cx table t).map (Finding.relocate ρ σ) := by
  have hfoci : ∀ f ∈ t.foci, f.root.Within S := fun f hf => (Tree.root_of_mem_foci hf).symm ▸ ht
  rw [walkFindings, walkFindings, walk, walk, Tree.foci_relocate,
    walkFrom_relocate h table none hfoci, Machine.findings_relocate]

/-- Moved findings have the order that they had, if columns do. -/
theorem Finding.le_relocate (hσ : StrictMono σ) (a b : Finding) :
    (a.relocate ρ σ).le (b.relocate ρ σ) = a.le b := by
  have hcolumn : (a.relocate ρ σ).column ≤ (b.relocate ρ σ).column ↔ a.column ≤ b.column :=
    hσ.le_iff_le
  rw [Finding.le, decide_eq_decide.2 hcolumn]
  rfl

/-- The findings in a moved tree, ordered by place. -/
theorem verify_relocate (h : cx.Shifted ρ σ S cx') (hσ : StrictMono σ) (table : ProgramTable)
    {t : Tree} (ht : t.Within S) :
    verify cx' table (t.relocate ρ) = (verify cx table t).map (Finding.relocate ρ σ) := by
  rw [verify, verify, walkFindings_relocate h table ht, List.map_mergeSort]
  exact fun a _ b _ => (Finding.le_relocate hσ a b).symm

end TreeLayout
