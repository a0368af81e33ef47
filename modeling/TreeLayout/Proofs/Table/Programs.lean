import TreeLayout.Program.Table
import TreeLayout.Proofs.Program.Forward
import TreeLayout.Proofs.Program.Lookahead

/-!
# The programs of the table

Settings choose the layout checks of a template and nothing else, so every template resolves for all
settings at once: `wrapStep_eq` and its siblings say that a policy stands for one layout check, and
after them the steps of a template are known up to these checks. `resolve_authored?` is the result
for each construct, and `ProgramTable.get?_eq_some_iff` says which program a table holds for a kind.
-/

namespace TreeLayout

namespace Template

/-- The layout check of a boundary that wraps back to the baseline. -/
def wrapOp : WrapPolicy → LayoutOp
  | .must => .mustWrap
  | .may => .mayWrap
  | .no => .noWrap

/-- The layout check of a boundary that wraps one level in. -/
def indentOp : WrapPolicy → LayoutOp
  | .must => .mustIndent
  | .may => .mayIndent
  | .no => .noWrap

/-- The layout check before the further elements of a list. -/
def restOp : WrapPolicy → LayoutOp
  | .must | .may => .mayIndent
  | .no => .noWrap

/-- The layout check before the mark that closes a list. -/
def closeOp : WrapPolicy → LayoutOp
  | .must => .unindent
  | .may => .mayWrap
  | .no => .noWrap

/-- A boundary that wraps back to the baseline is one layout check. -/
theorem wrapStep_eq (policy : WrapPolicy) : wrapStep policy = .layout (wrapOp policy) := by
  cases policy <;> rfl

/-- A boundary that wraps one level in is one layout check. -/
theorem indentStep_eq (policy : WrapPolicy) : indentStep policy = .layout (indentOp policy) := by
  cases policy <;> rfl

/-- The boundary before a further element of a list is one layout check. -/
theorem restStep_eq (policy : WrapPolicy) : restStep policy = .layout (restOp policy) := by
  cases policy <;> rfl

/-- The boundary before the mark that closes a list is one layout check. -/
theorem closeStep_eq (policy : WrapPolicy) : closeStep policy = .layout (closeOp policy) := by
  cases policy <;> rfl

/-- The template of each construct is accepted for all settings. Its program goes back only after a
child, and its forks tell their paths apart. -/
theorem resolve_authored? {s : LayoutSettings} {kind : ConstructKind} {steps : List Step}
    {multiple : Bool} (h : authored? s kind = some (steps, multiple)) :
    ∃ p, Program.resolve (.construct kind) steps multiple = .ok p ∧ p.goesForward = true ∧
      p.tellsApart = true := by
  -- With one layout check for each policy the steps are explicit, and the facts are computed.
  cases kind <;>
    simp only [authored?, modifiers, declaration, list, firstStep, statementBody, ifStatement,
      forStatement, wrapStep_eq, indentStep_eq, restStep_eq, closeStep_eq, ← apply_ite Step.layout,
      Option.some.injEq, Prod.mk.injEq, reduceCtorEq] at h
  all_goals
    obtain ⟨rfl, rfl⟩ := h
    exact ⟨_, rfl, rfl, rfl⟩

/-- All constructs have a template but the expressions, of which array initializers have one. -/
theorem isSome_authored? (s : LayoutSettings) (kind : ConstructKind) :
    (authored? s kind).isSome =
      (!(Kind.construct kind).isExpression || decide (kind = .arrayInitializer)) := by
  cases kind <;> rfl

end Template

/-- Computing on each element of a list succeeds if it does on each element. -/
theorem exists_mapM_eq_ok {α β ε : Type} {f : α → Except ε β} {as : List α}
    (h : ∀ a ∈ as, ∃ b, f a = .ok b) : ∃ bs, as.mapM f = .ok bs := by
  induction as with
  | nil => exact ⟨[], rfl⟩
  | cons a as ih =>
    obtain ⟨b, hb⟩ := h a (List.mem_cons_self)
    obtain ⟨bs, hbs⟩ := ih fun a' ha' => h a' (List.mem_cons_of_mem a ha')
    exact ⟨b :: bs, mapM_eq_ok_iff.2 (.cons hb (mapM_eq_ok_iff.1 hbs))⟩

/-- A resolved program is for the kind that it was authored for. -/
theorem Program.kind_of_resolve {kind : Kind} {authored : List Step} {multiple : Bool} {p : Program}
    (h : resolve kind authored multiple = .ok p) : p.kind = kind := by
  unfold resolve at h
  split at h
  · cases h
    rfl
  · cases h

/-- Every construct is listed. -/
theorem ConstructKind.mem_all (kind : ConstructKind) : kind ∈ ConstructKind.all := by
  cases kind <;> decide

namespace ProgramTable

/-- The templates of the constructs that have one, in the order of their kinds. -/
def rows (s : LayoutSettings) : List (ConstructKind × List Step × Bool) :=
  ConstructKind.all.filterMap fun kind =>
    (Template.authored? s kind).map fun (steps, multiple) => (kind, steps, multiple)

/-- The row of a construct is its template. -/
theorem mem_rows {s : LayoutSettings} {kind : ConstructKind} {steps : List Step}
    {multiple : Bool} :
    (kind, steps, multiple) ∈ rows s ↔ Template.authored? s kind = some (steps, multiple) := by
  simp only [rows, List.mem_filterMap, Option.map_eq_some_iff, Prod.mk.injEq, Prod.exists]
  constructor
  · rintro ⟨kind', -, steps', multiple', h, rfl, rfl, rfl⟩
    exact h
  · intro h
    exact ⟨kind, kind.mem_all, steps, multiple, h, rfl, rfl, rfl⟩

/-- The number of templates does not depend on the settings. -/
theorem length_rows (s : LayoutSettings) : (rows s).length = 38 := rfl

/-- A table holds the programs of the templates, row by row. -/
theorem ofSettings_eq_ok_iff {s : LayoutSettings} {table : ProgramTable} :
    ofSettings s = .ok table ↔
      List.Forall₂ (fun row p => Program.resolve (.construct row.1) row.2.1 row.2.2 = .ok p)
        (rows s) table.programs := by
  rw [← mapM_eq_ok_iff]
  unfold ofSettings
  change ((rows s).mapM fun row => Program.resolve (.construct row.1) row.2.1 row.2.2) >>=
    (fun programs => pure ⟨programs⟩) = .ok table ↔ _
  cases (rows s).mapM fun row => Program.resolve (.construct row.1) row.2.1 row.2.2 with
  | error e => simp [bind, Except.bind]
  | ok programs =>
    cases table
    simp [bind, Except.bind, pure, Except.pure]

variable {s : LayoutSettings} {table : ProgramTable}

/-- All settings give a table. -/
theorem exists_ofSettings (s : LayoutSettings) : ∃ table, ofSettings s = .ok table := by
  have hall : ∀ row ∈ rows s, ∃ p, Program.resolve (.construct row.1) row.2.1 row.2.2 = .ok p := by
    rintro ⟨kind, steps, multiple⟩ hrow
    obtain ⟨p, hp, -⟩ := Template.resolve_authored? (mem_rows.1 hrow)
    exact ⟨p, hp⟩
  obtain ⟨programs, hprograms⟩ := exists_mapM_eq_ok hall
  exact ⟨⟨programs⟩, ofSettings_eq_ok_iff.2 (mapM_eq_ok_iff.1 hprograms)⟩

/-- The table of settings has one program for each template. -/
theorem size_of_ofSettings (h : ofSettings s = .ok table) : table.size = 38 := by
  rw [size, ← (ofSettings_eq_ok_iff.1 h).length_eq, length_rows]

/-- The programs of a table are those of the templates. -/
theorem mem_programs_iff (h : ofSettings s = .ok table) {p : Program} :
    p ∈ table.programs ↔ ∃ kind steps multiple,
      Template.authored? s kind = some (steps, multiple) ∧
        Program.resolve (.construct kind) steps multiple = .ok p := by
  have hrows := ofSettings_eq_ok_iff.1 h
  constructor
  · intro hp
    obtain ⟨i, hi⟩ := List.mem_iff_getElem?.1 hp
    obtain ⟨⟨kind, steps, multiple⟩, hrow, hresolve⟩ := exists_getElem?_of_forall₂ hrows hi
    exact ⟨kind, steps, multiple, mem_rows.1 (List.mem_of_getElem? hrow), hresolve⟩
  · rintro ⟨kind, steps, multiple, hauthored, hresolve⟩
    obtain ⟨i, hi⟩ := List.mem_iff_getElem?.1 (mem_rows.2 hauthored)
    obtain ⟨p', hp', hresolve'⟩ := exists_getElem?_of_forall₂ hrows.flip hi
    rw [hresolve, Except.ok.injEq] at hresolve'
    rw [hresolve']
    exact List.mem_of_getElem? hp'

/-- The program that a table holds for a kind is that of its template. -/
theorem get?_eq_some_iff (h : ofSettings s = .ok table) {kind : ConstructKind} {p : Program} :
    table.get? (.construct kind) = some p ↔ ∃ steps multiple,
      Template.authored? s kind = some (steps, multiple) ∧
        Program.resolve (.construct kind) steps multiple = .ok p := by
  -- Whatever is found for the kind is the program of its template.
  have hfound : ∀ q, table.get? (.construct kind) = some q → ∃ steps multiple,
      Template.authored? s kind = some (steps, multiple) ∧
        Program.resolve (.construct kind) steps multiple = .ok q := by
    intro q hq
    obtain ⟨kind', steps, multiple, hauthored, hresolve⟩ :=
      (mem_programs_iff h).1 (List.mem_of_find?_eq_some hq)
    have hkind := Program.kind_of_resolve hresolve
    have hkind' : q.kind = .construct kind := by simpa using List.find?_some hq
    rw [hkind', Kind.construct.injEq] at hkind
    subst hkind
    exact ⟨steps, multiple, hauthored, hresolve⟩
  refine ⟨hfound p, fun ⟨steps, multiple, hauthored, hresolve⟩ => ?_⟩
  -- Something is found, since the program of the template is in the table.
  have hmem := (mem_programs_iff h).2 ⟨kind, steps, multiple, hauthored, hresolve⟩
  have hsome : (table.get? (.construct kind)).isSome = true := by
    rw [get?, List.find?_isSome]
    exact ⟨p, hmem, by simp [Program.kind_of_resolve hresolve]⟩
  obtain ⟨q, hq⟩ := Option.isSome_iff_exists.1 hsome
  obtain ⟨steps', multiple', hauthored', hresolve'⟩ := hfound q hq
  rw [hauthored, Option.some.injEq, Prod.mk.injEq] at hauthored'
  obtain ⟨rfl, rfl⟩ := hauthored'
  rw [hresolve, Except.ok.injEq] at hresolve'
  rw [hq, hresolve']

/-- A table holds a program for exactly the constructs with a template. -/
theorem isSome_get? (h : ofSettings s = .ok table) (kind : ConstructKind) :
    (table.get? (.construct kind)).isSome = (Template.authored? s kind).isSome := by
  rw [Bool.eq_iff_iff, Option.isSome_iff_exists, Option.isSome_iff_exists]
  constructor
  · rintro ⟨p, hp⟩
    obtain ⟨steps, multiple, hauthored, -⟩ := (get?_eq_some_iff h).1 hp
    exact ⟨_, hauthored⟩
  · rintro ⟨⟨steps, multiple⟩, hauthored⟩
    obtain ⟨p, hresolve, -⟩ := Template.resolve_authored? hauthored
    exact ⟨p, (get?_eq_some_iff h).2 ⟨steps, multiple, hauthored, hresolve⟩⟩

/-- The programs of a table are well formed, and go back only after a child. -/
theorem wellFormed_and_goesForward (h : ofSettings s = .ok table) {p : Program}
    (hp : p ∈ table.programs) : p.WellFormed ∧ p.goesForward = true := by
  obtain ⟨kind, steps, multiple, hauthored, hresolve⟩ := (mem_programs_iff h).1 hp
  obtain ⟨p', hresolve', hforward, -⟩ := Template.resolve_authored? hauthored
  rw [hresolve, Except.ok.injEq] at hresolve'
  subst hresolve'
  exact ⟨Program.wellFormed_of_resolve hresolve, hforward⟩

/-- The forks of the programs of a table tell their paths apart. -/
theorem tellsApart_of_mem (h : ofSettings s = .ok table) {p : Program} (hp : p ∈ table.programs) :
    p.tellsApart = true := by
  obtain ⟨kind, steps, multiple, hauthored, hresolve⟩ := (mem_programs_iff h).1 hp
  obtain ⟨p', hresolve', -, htells⟩ := Template.resolve_authored? hauthored
  rw [hresolve, Except.ok.injEq] at hresolve'
  rwa [hresolve']

end ProgramTable

end TreeLayout
