import TreeLayout.Proofs.Machine.Layout
import TreeLayout.Proofs.Table.Sequences

/-!
# The layout of bodies

A body is elements between braces, and its first element decides how the others stand. Either the
body stays on one line (`OnOneLine`), or each element starts a line one level in and the closing
brace one at the baseline (`OnLines`). Settings say whether the first form is allowed at all, and
whether elements may share lines. `BodyLaw` puts this together, and the program of a body reports
nothing exactly if the law holds.

The program has one loop over the elements. `endsWithout_bodyLoop` says what it asks for from any
element on, for both modes at once.
-/

namespace TreeLayout

/-- Whether a body may stand on one line, and whether its elements may share lines. -/
def LayoutSettings.bodyFlags? (s : LayoutSettings) : ConstructKind → Option (Bool × Bool)
  | .block => some (s.oneLine .blocks, s.shareLine .statements)
  | .classBody => some (s.oneLine .classBodies, s.shareLine .members)
  | _ => none

/-- A body with a first element and further ones that stays on one line. -/
@[mk_iff]
structure OnOneLine (cx : Context) (base : Nat) (multiple : Bool) (opening first : Tree)
    (rest : List Tree) (closing : Tree) : Prop where
  /-- The first element starts on the line of the opening brace. -/
  begins : sameLine opening first = true
  /-- Each further element starts on the line of the one before it; if elements may share lines, it
  may also stand one level in. -/
  goesOn : (first :: rest).IsChain (cx.KeepsLine multiple (cx.stepIn base))
  /-- The closing brace stands on the line of the last element. -/
  ends : sameLine ((first :: rest).getLast (List.cons_ne_nil first rest)) closing = true

/-- A body with a first element and further ones that starts a line for each. -/
@[mk_iff]
structure OnLines (cx : Context) (base : Nat) (multiple : Bool) (opening first : Tree)
    (rest : List Tree) (closing : Tree) : Prop where
  /-- The first element starts a line one level in. -/
  begins : sameLine opening first = false ∧ cx.column first = cx.stepIn base
  /-- Each further element starts a line one level in; if elements may share lines, it may also stay
  on the line of the one before it. -/
  goesOn : (first :: rest).IsChain (cx.TakesLine multiple (cx.stepIn base))
  /-- The closing brace starts a line at the baseline. -/
  ends : sameLine ((first :: rest).getLast (List.cons_ne_nil first rest)) closing = false ∧
    cx.column closing = base

/-- How a body is laid out. -/
def BodyLaw (cx : Context) (base : Nat) (one multiple : Bool) (opening : Tree)
    (elements : List Tree) (closing : Tree) : Prop :=
  match elements with
  | [] => sameLine opening closing = true ∨ cx.column closing = base
  | first :: rest =>
    one = true ∧ OnOneLine cx base multiple opening first rest closing ∨
      ¬ (one = true ∧ first.hasChildren = false) ∧
        OnLines cx base multiple opening first rest closing

/-- What may stand in a body whose layout is judged: no closing brace, which would end it, and no
case group, which is measured from the one before it. -/
def IsElement (t : Tree) : Prop := t.kind ≠ .token .rBrace ∧ t.kind ≠ .construct .switchCase

/-- Elements are no case groups. -/
theorem IsElement.isCaseLike {t : Tree} (h : IsElement t) : t.kind.isCaseLike = false := by
  unfold Kind.isCaseLike
  simp [h.2]

namespace Template

open Machine

variable {m : Task} {P : Finding → Prop} {kind : Kind} {first : LayoutOp} {multiple : Bool}
  {opening prev closing : Tree} {consumed elements : List Tree} {mode : WrapMode}

/-- Both forks of the program of a body jump exactly at a closing brace. -/
theorem choose_body (hm : m.program = bodyProgram kind .any first multiple) {pc : Nat}
    (hpc : pc = 1 ∨ pc = 5) (c : Option Kind) :
    m.program.choose pc 10 c = .stay ↔ c ≠ some (.token .rBrace) := by
  have hchoose : m.program.choose pc 10 c =
      .between (Expect.any.rank? c) ((Expect.kind (.token .rBrace)).rank? c) := by
    rw [hm]
    obtain rfl | rfl := hpc <;> rfl
  rw [hchoose, Program.between_kind_eq_stay_iff (Program.rank?_le .any c)]

/-- The closing brace closes the run as its mode says, and the program ends. -/
theorem endsWithout_bodyClose (hm : m.program = bodyProgram kind .any first multiple)
    (hP : ∀ g : Finding, g.isLayout → P g) (hclosing : closing.kind = .token .rBrace) :
    EndsWithout m P ⟨10, prev :: consumed, [closing], mode⟩ ↔ Closes m mode prev closing := by
  have h10 : m.program.step? 10 = some (.layout .unindent) := by rw [hm]; rfl
  have h11 : m.program.step? 11 = some (.expect (.kind (.token .rBrace))) := by rw [hm]; rfl
  have h12 : m.program.step? 12 = some .finish := by rw [hm]; rfl
  rw [endsWithout_layout hP h10 (by decide), endsWithout_expect_kind h11 hclosing, applyLayout,
    closeRun_eq_nil_iff]
  exact and_iff_left (endsWithout_finish h12)

/-- In one round of the loop an element follows the one before it as the mode of the run says. -/
theorem endsWithout_bodyRound (hm : m.program = bodyProgram kind .any first multiple)
    (hP : ∀ g : Finding, g.isLayout → P g) {x : Tree} {left : List Tree} (hx : IsElement x)
    (hmode : mode ≠ .unset) :
    EndsWithout m P ⟨5, prev :: consumed, x :: left, mode⟩ ↔
      Follows m mode prev x ∧ EndsWithout m P ⟨5, x :: prev :: consumed, left, mode⟩ := by
  have h5 : m.program.step? 5 = some (.fork 10) := by rw [hm]; rfl
  have h6 : m.program.step? 6 = some (.layout .mayIndent) := by rw [hm]; rfl
  have h7 : m.program.step? 7 = some (.expect .any) := by rw [hm]; rfl
  have h8 : m.program.step? 8 = some (.branch 5) := by rw [hm]; rfl
  let s : State := ⟨6, prev :: consumed, x :: left, mode⟩
  obtain ⟨hfollows, hkeeps⟩ : ((element m s prev x).1 = [] ↔ Follows m mode prev x) ∧
      (element m s prev x).2 = mode := element_further hmode hx.isCaseLike
  rw [endsWithout_fork_of_ne h5 (choose_body hm (.inr rfl)) hx.1,
    endsWithout_layout hP h6 (by decide), applyLayout, hfollows, hkeeps, endsWithout_expect h7 rfl,
    endsWithout_branch h8]

/-- From an element on, the further elements follow as the mode of the run says, and so does the
closing brace. -/
theorem endsWithout_bodyLoop (hm : m.program = bodyProgram kind .any first multiple)
    (hP : ∀ g : Finding, g.isLayout → P g) (hclosing : closing.kind = .token .rBrace)
    (helements : ∀ x ∈ elements, IsElement x) (hmode : mode ≠ .unset) :
    EndsWithout m P ⟨5, prev :: consumed, elements ++ [closing], mode⟩ ↔
      (prev :: elements).IsChain (Follows m mode) ∧
        Closes m mode ((prev :: elements).getLast (List.cons_ne_nil prev elements)) closing := by
  -- The mode stays the same, so the induction is over the elements that are left.
  induction elements generalizing prev consumed with
  | nil =>
    have h5 : m.program.step? 5 = some (.fork 10) := by rw [hm]; rfl
    rw [List.nil_append, endsWithout_fork_of_eq h5 (choose_body hm (.inr rfl)) hclosing,
      endsWithout_bodyClose hm hP hclosing]
    exact (and_iff_right (List.isChain_singleton prev)).symm
  | cons x elements ih =>
    obtain ⟨hx, helements⟩ := List.forall_mem_cons.1 helements
    have hloop : EndsWithout m P ⟨5, x :: prev :: consumed, elements ++ [closing], mode⟩ ↔ _ :=
      ih helements
    rw [List.cons_append, endsWithout_bodyRound hm hP hx hmode, hloop, List.isChain_cons_cons,
      List.getLast_cons_cons, and_assoc]

/-- The check before the first element of a body. -/
def bodyOp (one : Bool) : LayoutOp := if one then .indentIfChildren else .mustIndent

/-- The first element of a body stays on the line where that is allowed, or stands one level in
where it need not stay, and the mode of the run says which. -/
theorem applyLayout_bodyOp {one : Bool} {s : State} {Q : WrapMode → Prop} {x : Tree}
    (hmode : s.mode = .unset) (hx : x.kind.isCaseLike = false) :
    ((applyLayout m s (bodyOp one) prev x).1 = [] ∧ Q (applyLayout m s (bodyOp one) prev x).2) ↔
      one = true ∧ sameLine prev x = true ∧ Q .sameLine ∨
        ¬ (one = true ∧ x.hasChildren = false) ∧
          (sameLine prev x = false ∧ m.cx.column x = m.cx.stepIn m.base) ∧ Q .wrapped := by
  obtain ⟨hfirst, hdecides⟩ :
      ((element m s prev x).1 = [] ↔ sameLine prev x = true ∨ _) ∧ (element m s prev x).2 = _ :=
    element_first hmode hx
  cases one with
  | false =>
    unfold bodyOp applyLayout
    cases hsame : sameLine prev x <;> simp [checkIndented_eq_nil_iff hx]
  | true =>
    unfold bodyOp applyLayout
    cases hchildren : x.hasChildren with
    | false => simp [Context.noWrap_eq_nil_iff]
    | true => cases hsame : sameLine prev x <;> simp [hsame, hfirst, hdecides]

/-- The program of a body reports nothing on it exactly if its law holds. -/
theorem endsWithout_body {one : Bool} (hm : m.program = bodyProgram kind .any (bodyOp one) multiple)
    (hP : ∀ g : Finding, g.isLayout → P g) (hopening : opening.kind = .token .lBrace)
    (hclosing : closing.kind = .token .rBrace) (helements : ∀ x ∈ elements, IsElement x) :
    EndsWithout m P ⟨0, [], opening :: (elements ++ [closing]), .unset⟩ ↔
      BodyLaw m.cx m.base one multiple opening elements closing := by
  have h0 : m.program.step? 0 = some (.expect (.kind (.token .lBrace))) := by rw [hm]; rfl
  have h1 : m.program.step? 1 = some (.fork 10) := by rw [hm]; rfl
  have h2 : m.program.step? 2 = some (.layout (bodyOp one)) := by rw [hm]; rfl
  have h3 : m.program.step? 3 = some (.expect .any) := by rw [hm]; rfl
  have h4 : m.program.step? 4 = some (.label 0) := by rw [hm]; rfl
  have hop : bodyOp one ≠ .endRun := by cases one <;> decide
  have hmultiple : m.program.multiplePerLine = multiple := by rw [hm]; rfl
  rw [endsWithout_expect_kind h0 hopening]
  cases elements with
  | nil =>
    rw [List.nil_append, endsWithout_fork_of_eq h1 (choose_body hm (.inl rfl)) hclosing]
    exact endsWithout_bodyClose hm hP hclosing
  | cons first rest =>
    obtain ⟨hfirst, hrest⟩ := List.forall_mem_cons.1 helements
    -- The first element settles the mode, so the rest of the run splits into two cases.
    rw [List.cons_append, endsWithout_fork_of_ne h1 (choose_body hm (.inl rfl)) hfirst.1,
      endsWithout_layout hP h2 hop,
      applyLayout_bodyOp (Q := fun mode => EndsWithout m P ⟨3, _, _, mode⟩) rfl hfirst.isCaseLike,
      endsWithout_expect h3 rfl, endsWithout_expect h3 rfl, endsWithout_label h4,
      endsWithout_label h4, endsWithout_bodyLoop hm hP hclosing hrest (by decide),
      endsWithout_bodyLoop hm hP hclosing hrest (by decide)]
    subst hmultiple
    rw [BodyLaw, onOneLine_iff, onLines_iff]
    rfl

/-- The template of a body resolves to its program. -/
theorem exists_resolve_of_bodyFlags? {s : LayoutSettings} {kind : ConstructKind} {one : Bool}
    (h : s.bodyFlags? kind = some (one, multiple)) :
    ∃ steps, authored? s kind = some (steps, multiple) ∧
      Program.resolve (.construct kind) steps multiple =
        .ok (bodyProgram (.construct kind) .any (bodyOp one) multiple) := by
  cases kind
  case block | classBody =>
    cases h
    exact ⟨_, rfl, rfl⟩
  all_goals cases h

end Template

/-- For all settings, the program that the table holds for a block or a class body reports nothing
on elements between braces exactly if they are laid out by the law of bodies, with the two flags of
the settings and the indentation that the children of the node are measured from. -/
theorem findings_eq_nil_iff_bodyLaw (s : LayoutSettings) {kind : ConstructKind}
    {one multiple : Bool} (hflags : s.bodyFlags? kind = some (one, multiple)) (cx : Context)
    (f : Focus) (hkind : f.tree.kind = .construct kind) {opening closing : Tree}
    {elements : List Tree} (hchildren : f.tree.children = opening :: (elements ++ [closing]))
    (hopening : opening.kind = .token .lBrace) (hclosing : closing.kind = .token .rBrace)
    (helements : ∀ x ∈ elements, IsElement x) :
    ∃ table p, ProgramTable.ofSettings s = .ok table ∧ table.get? f.tree.kind = some p ∧
      (Machine.findings (Machine.run cx f p) = [] ↔
        BodyLaw cx (cx.baseOf (indentationParent f).tree) one multiple opening elements
          closing) := by
  obtain ⟨steps, hauthored, hresolve⟩ := Template.exists_resolve_of_bodyFlags? hflags
  let p := Template.bodyProgram (.construct kind) .any (Template.bodyOp one) multiple
  obtain ⟨table, htable, hget, hends⟩ :=
    ProgramTable.exists_endsWithout_iff hauthored hresolve cx f hkind fun _ => True
  have hexpr : .expect .expr ∉ p.steps := by simp [p, Template.bodyProgram]
  refine ⟨table, p, htable, hget, ?_⟩
  -- Elements may be of any kind, so the machine reports all that is found.
  rw [Machine.findings_run_eq_nil_iff hexpr, hends, Machine.State.start, hchildren]
  exact Template.endsWithout_body rfl (fun _ _ => trivial) hopening hclosing helements

/-- Nothing is wrong with a block of two statements, each on a line of its own and one level in. -/
theorem findings_eq_nil_iff_bodyLaw_statements :
    ∃ table p, ProgramTable.ofSettings .default = .ok table ∧
      table.get? (.construct .block) = some p ∧
      Machine.findings (Machine.run ⟨.ofString "\x7b\n    a;\n    b;\n\x7d" 4, .default⟩
        (.ofRoot (.node .block (.token .lBrace "\x7b" ⟨1, 0⟩)
          [.node .exprStatement (.token .identifier "a" ⟨2, 4⟩) [.token .semi ";" ⟨2, 5⟩],
            .node .exprStatement (.token .identifier "b" ⟨3, 4⟩) [.token .semi ";" ⟨3, 5⟩],
            .token .rBrace "\x7d" ⟨4, 0⟩])) p) = [] := by
  let opening : Tree := .token .lBrace "\x7b" ⟨1, 0⟩
  let a : Tree := .node .exprStatement (.token .identifier "a" ⟨2, 4⟩) [.token .semi ";" ⟨2, 5⟩]
  let b : Tree := .node .exprStatement (.token .identifier "b" ⟨3, 4⟩) [.token .semi ";" ⟨3, 5⟩]
  let closing : Tree := .token .rBrace "\x7d" ⟨4, 0⟩
  let cx : Context := ⟨.ofString "\x7b\n    a;\n    b;\n\x7d" 4, .default⟩
  have helements : ∀ x ∈ [a, b], IsElement x := by
    simp [a, b, IsElement, Tree.kind]
  have hlines : OnLines cx 0 false opening a [b] closing :=
    { begins := by decide
      goesOn := .cons_cons (.inl (by decide)) (.singleton b)
      ends := by decide }
  obtain ⟨table, p, htable, hget, hiff⟩ :=
    findings_eq_nil_iff_bodyLaw .default rfl cx (.ofRoot (.node .block opening [a, b, closing])) rfl
      rfl rfl rfl helements
  exact ⟨table, p, htable, hget, hiff.2 (.inr ⟨by decide, hlines⟩)⟩

end TreeLayout
