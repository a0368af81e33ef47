import TreeLayout.Proofs.Table.Halting

/-!
# What visits find

A walk that aligns no declarations finds what the visits of its nodes find, one after another
(`walkFindings_eq`). Only constructs with a template are visited: tokens have no program
(`ProgramTable.get?_token`), and neither have expressions other than array initializers.
-/

namespace TreeLayout

namespace Machine

/-- The findings of reports are the findings that they report. -/
@[simp] theorem findings_map_report (fs : List Finding) : findings (fs.map .report) = fs := by
  rw [findings, List.filterMap_map]
  exact List.filterMap_some

/-- The findings of events of expressions are the findings that they pass on. -/
@[simp] theorem findings_map_expression (fs : List Finding) :
    findings (fs.map .expression) = fs := by
  rw [findings, List.filterMap_map]
  exact List.filterMap_some

/-- The findings of two logs are those of both. -/
theorem findings_append (log log' : List Event) :
    findings (log ++ log') = findings log ++ findings log' :=
  List.filterMap_append

/-- What the step that is next finds. -/
theorem findings_logged (m : Task) (s : State) :
    findings (logged m s) =
      ((m.program.step? s.pc).map fun op => findings (step m s op).1).getD [] := by
  unfold logged
  cases m.program.step? s.pc <;> rfl

end Machine

open Machine (findings)

/-- What is found on one node. -/
def visitFindings (cx : Context) (table : ProgramTable) (f : Focus) : List Finding :=
  findings (visit cx table f)

/-- A walk that aligns no declarations finds what the visits find. -/
theorem findings_walkFrom {cx : Context} (hcx : cx.settings.alignDeclarations = false)
    (table : ProgramTable) (last : Option Nat) (fs : List Focus) :
    findings (walkFrom cx table last fs) = fs.flatMap (visitFindings cx table) := by
  induction fs with
  | nil => rfl
  | cons f fs ih =>
    rw [walkFrom_cons, hcx, Machine.findings_append]
    exact congrArg (visitFindings cx table f ++ ·) ih

/-- Without alignment, a walk finds what the visits to the nodes find. -/
theorem walkFindings_eq {cx : Context} (hcx : cx.settings.alignDeclarations = false)
    (table : ProgramTable) (t : Tree) :
    walkFindings cx table t = t.foci.flatMap (visitFindings cx table) :=
  findings_walkFrom hcx table none t.foci

namespace ProgramTable

variable {s : LayoutSettings} {table : ProgramTable}

/-- Tokens have no program. -/
theorem get?_token (h : ofSettings s = .ok table) (kind : TokenKind) :
    table.get? (.token kind) = none := by
  rw [get?, List.find?_eq_none]
  intro p hp
  obtain ⟨kind', steps, multiple, -, hresolve⟩ := (mem_programs_iff h).1 hp
  rw [Program.kind_of_resolve hresolve]
  exact Bool.false_ne_true

/-- A construct without a template has no program. -/
theorem get?_eq_none (h : ofSettings s = .ok table) {kind : ConstructKind}
    (hkind : Template.authored? s kind = none) : table.get? (.construct kind) = none := by
  rw [← Option.isNone_iff_eq_none, ← Option.not_isSome, isSome_get? h, hkind]
  rfl

end ProgramTable

end TreeLayout
