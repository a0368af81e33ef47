import TreeLayout.Proofs.Variation.Walk

/-!
# Elements that may share lines

Allowing elements to share lines only relaxes a layout (`walkFindings_shareLine`). The flag is read
at the elements of a run, where it decides whether a finding is reported and which one, and never
where the run goes on. So both walks take the same way, and what is found with the flag set has its
place among what is found without it (`Relaxes`).
-/

namespace TreeLayout

open Machine (findings)

/-- The findings of a check and those of a stricter one: the structural findings are the same, and a
layout finding stands at the place of a stricter one. -/
structure Relaxes (relaxed strict : List Finding) : Prop where
  /-- The structural findings are the same, in the same order. -/
  structural : relaxed.filter (·.message.isStructural) = strict.filter (·.message.isStructural)
  /-- Where the layout is wrong, it is wrong for the stricter check too. -/
  layout : ∀ f ∈ relaxed, f.message.isStructural = false →
    ∃ g ∈ strict, g.message.isStructural = false ∧ g.line = f.line ∧ g.rawColumn = f.rawColumn

namespace Relaxes

variable {relaxed strict relaxed' strict' : List Finding}

/-- Findings relax themselves. -/
theorem refl (fs : List Finding) : Relaxes fs fs where
  structural := rfl
  layout f hf hlayout := ⟨f, hf, hlayout, rfl, rfl⟩

/-- Of two lists that relax others both together relax both. -/
theorem append (h : Relaxes relaxed strict) (h' : Relaxes relaxed' strict') :
    Relaxes (relaxed ++ relaxed') (strict ++ strict') where
  structural := by rw [List.filter_append, List.filter_append, h.structural, h'.structural]
  layout f hf hlayout := by
    obtain hf | hf := List.mem_append.1 hf
    · obtain ⟨g, hg, hplace⟩ := h.layout f hf hlayout
      exact ⟨g, List.mem_append_left _ hg, hplace⟩
    · obtain ⟨g, hg, hplace⟩ := h'.layout f hf hlayout
      exact ⟨g, List.mem_append_right _ hg, hplace⟩

/-- An element that should start a line need not if elements may share lines. -/
theorem stay (cx : Context) (t : Tree) (indent : Nat) :
    Relaxes [] [cx.mustWrapViolation t indent] :=
  ⟨rfl, by simp⟩

/-- An element may start a line in its column if elements may share lines. -/
theorem wrap (cx : Context) (t : Tree) (expected indent : Nat) :
    Relaxes (cx.expectColumn t expected) [cx.mustWrapViolation t indent] := by
  simp only [Context.expectColumn]
  split
  · exact stay cx t indent
  · exact ⟨rfl, fun f hf _ => ⟨_, List.mem_singleton_self _, rfl, by
      rw [List.mem_singleton.1 hf]
      exact ⟨rfl, rfl⟩⟩⟩

end Relaxes

namespace Template

/-- The flags choose no steps, and a flag that is set for more elements is set for more templates.
-/
theorem authored?_shareLine (s : LayoutSettings) {share : ElementKind → Bool}
    (hshare : ∀ elements, s.shareLine elements = true → share elements = true)
    (kind : ConstructKind) :
    (authored? s kind = none ∧ authored? { s with shareLine := share } kind = none) ∨
      ∃ steps multiple multiple', authored? s kind = some (steps, multiple) ∧
        authored? { s with shareLine := share } kind = some (steps, multiple') ∧
        (multiple = true → multiple' = true) := by
  -- A template names a flag beside its steps, or a fixed value, or there is none.
  cases kind
  all_goals first
    | exact .inl ⟨rfl, rfl⟩
    | exact .inr ⟨_, _, _, rfl, rfl, id⟩
    | exact .inr ⟨_, _, _, rfl, rfl, hshare _⟩

end Template

/-- Steps resolve in the same way whether elements may share lines or not. -/
theorem Program.resolve_sharing {kind : Kind} {authored : List Step} {multiple : Bool} {p : Program}
    (h : resolve kind authored multiple = .ok p) (multiple' : Bool) :
    resolve kind authored multiple' = .ok (p.sharing multiple') := by
  unfold resolve at h ⊢
  split at h
  · cases h
    rfl
  · cases h

namespace ProgramTable

variable {s : LayoutSettings} {table : ProgramTable}

/-- Tables of settings that differ in which elements may share lines have the same programs, and
more elements may share lines in one of them. -/
theorem get?_shareLine {share : ElementKind → Bool}
    (hshare : ∀ elements, s.shareLine elements = true → share elements = true)
    {table' : ProgramTable} (h : ofSettings s = .ok table)
    (h' : ofSettings { s with shareLine := share } = .ok table') (kind : Kind) :
    (table.get? kind = none ∧ table'.get? kind = none) ∨
      ∃ (p : Program) (multiple multiple' : Bool), table.get? kind = some (p.sharing multiple) ∧
        table'.get? kind = some (p.sharing multiple') ∧ (multiple = true → multiple' = true) := by
  cases kind with
  | token kind => exact .inl ⟨get?_token h kind, get?_token h' kind⟩
  | construct kind =>
    obtain ⟨hnone, hnone'⟩ | ⟨steps, multiple, multiple', hauthored, hauthored', himp⟩ :=
      Template.authored?_shareLine s hshare kind
    · exact .inl ⟨get?_eq_none h hnone, get?_eq_none h' hnone'⟩
    · obtain ⟨p, hresolve, -⟩ := Template.resolve_authored? hauthored
      have hget := (get?_eq_some_iff h).2
        ⟨steps, multiple, hauthored, Program.resolve_sharing hresolve multiple⟩
      have hget' := (get?_eq_some_iff h').2
        ⟨steps, multiple', hauthored', Program.resolve_sharing hresolve multiple'⟩
      exact .inr ⟨p, multiple, multiple', hget, hget', himp⟩

end ProgramTable

/-- The property of relaxing one list of findings to another allows that more elements share lines.
-/
theorem Relaxes.shares (cx : Context) (filling : Tree) {multiple : Bool → Bool}
    (himp : multiple false = true → multiple true = true) :
    Variation.Shares cx (Function.const Bool filling) (fun F => Relaxes (F true) (F false))
      multiple where
  stay indent ht := by
    obtain ⟨u, hu⟩ := ht.exists_eq
    simp only [hu]
    split
    · split
      · exact refl []
      · exact stay cx u indent
    · rename_i hshared
      rw [if_neg (mt himp hshared)]
      exact refl _
  wrap expected indent ht := by
    obtain ⟨u, hu⟩ := ht.exists_eq
    simp only [hu]
    split
    · split
      · exact refl _
      · exact wrap cx u expected indent
    · rename_i hshared
      rw [if_neg (mt himp hshared)]
      exact refl _

variable {source : SourceText} {s : LayoutSettings} {share : ElementKind → Bool}
  {table table' : ProgramTable}

/-- What is found on a node if more elements may share lines. -/
theorem visitFindings_shareLine (source : SourceText)
    (hshare : ∀ elements, s.shareLine elements = true → share elements = true)
    (htable : ProgramTable.ofSettings s = .ok table)
    (htable' : ProgramTable.ofSettings { s with shareLine := share } = .ok table') (f : Focus) :
    Relaxes (visitFindings ⟨source, { s with shareLine := share }⟩ table' f)
      (visitFindings ⟨source, s⟩ table f) := by
  -- The tree does not vary, so it does not matter what stands in the hole.
  let filling : Tree := .empty .emptyStatement ⟨0, 0⟩
  have halike : Alike (Function.const Bool filling) := .const fun h => nomatch h
  let cx : Bool → Context := fun shared =>
    ⟨source, { s with shareLine := if shared then share else s.shareLine }⟩
  have hvariation : Variation ⟨source, s⟩ cx (Function.const Bool filling)
      fun F => Relaxes (F true) (F false) :=
    halike.variation (fun _ => rfl) (fun _ => rfl) (fun _ => rfl) Relaxes.refl Relaxes.append
  have htabled : Variation.Tabled ⟨source, s⟩ (Function.const Bool filling)
      (fun F => Relaxes (F true) (F false)) fun shared => if shared then table' else table := by
    intro kind
    obtain ⟨hnone, hnone'⟩ | ⟨p, multiple, multiple', hget, hget', himp⟩ :=
      ProgramTable.get?_shareLine hshare htable htable' kind
    · exact .inl (Bool.forall_bool.2 ⟨hnone, hnone'⟩)
    · exact .inr ⟨p, fun shared => if shared then multiple' else multiple,
        Relaxes.shares ⟨source, s⟩ filling himp, Bool.forall_bool.2 ⟨hget, hget'⟩⟩
  have hf : VaryingFocus.Outside (Function.const Bool filling) (.const f) :=
    .of_const f.tree (by simp [VaryingFrame.Around.of_const])
  have hvisit := hvariation.visit htabled hf fun t ht _ => halike.meets ht
  simp only [VaryingFocus.pick_const] at hvisit
  exact hvisit

/-- The alignment of declarations does not depend on which elements may share lines. -/
theorem alignDeclaration_shareLine (last : Option Nat) (f : Focus) :
    alignDeclaration ⟨source, { s with shareLine := share }⟩ last f =
      alignDeclaration ⟨source, s⟩ last f :=
  rfl

/-- What is found on a walk over nodes if more elements may share lines. -/
theorem walkFrom_shareLine
    (hshare : ∀ elements, s.shareLine elements = true → share elements = true)
    (htable : ProgramTable.ofSettings s = .ok table)
    (htable' : ProgramTable.ofSettings { s with shareLine := share } = .ok table')
    (last : Option Nat) (fs : List Focus) :
    Relaxes (findings (walkFrom ⟨source, { s with shareLine := share }⟩ table' last fs))
      (findings (walkFrom ⟨source, s⟩ table last fs)) := by
  induction fs generalizing last with
  | nil => exact .refl []
  | cons f fs ih =>
    have hvisit := visitFindings_shareLine source hshare htable htable' f
    simp only [walkFrom_cons, Machine.findings_append, alignDeclaration_shareLine]
    refine hvisit.append ?_
    -- The alignment of the node is the same, and the rest of the walk is the induction's.
    split
    · rw [Machine.findings_append, Machine.findings_append]
      exact (Relaxes.refl _).append (ih _)
    · exact ih _

/-- Allowing more elements to share lines only relaxes. The walk over a tree finds the same
structural mismatches, and each layout finding stands on a token that also has one where fewer
elements may share lines. -/
theorem walkFindings_shareLine (source : SourceText) (s : LayoutSettings)
    (share : ElementKind → Bool)
    (hshare : ∀ elements, s.shareLine elements = true → share elements = true)
    {table table' : ProgramTable} (htable : ProgramTable.ofSettings s = .ok table)
    (htable' : ProgramTable.ofSettings { s with shareLine := share } = .ok table') (t : Tree) :
    (walkFindings ⟨source, { s with shareLine := share }⟩ table' t).filter
          (·.message.isStructural) =
        (walkFindings ⟨source, s⟩ table t).filter (·.message.isStructural) ∧
      ∀ f ∈ walkFindings ⟨source, { s with shareLine := share }⟩ table' t,
        f.message.isStructural = false →
          ∃ g ∈ walkFindings ⟨source, s⟩ table t, g.message.isStructural = false ∧
            g.line = f.line ∧ g.rawColumn = f.rawColumn := by
  have hwalk : Relaxes (walkFindings ⟨source, { s with shareLine := share }⟩ table' t)
      (walkFindings ⟨source, s⟩ table t) :=
    walkFrom_shareLine hshare htable htable' none t.foci
  exact ⟨hwalk.structural, hwalk.layout⟩

/-- A block the second statement of which starts a line although the first one does not. If
statements may share lines, it stands in a wrong column; if not, something is wrong with it too. -/
theorem walkFindings_shareLine_block :
    ∃ table table', ProgramTable.ofSettings .default = .ok table ∧
      ProgramTable.ofSettings { LayoutSettings.default with shareLine := fun _ => true } =
        .ok table' ∧
      walkFindings ⟨.ofString "\x7b x;\ny; \x7d" 4,
          { LayoutSettings.default with shareLine := fun _ => true }⟩ table'
          (.node .block (.token .lBrace "\x7b" ⟨1, 0⟩)
            [.node .exprStatement (.token .identifier "x" ⟨1, 2⟩) [.token .semi ";" ⟨1, 3⟩],
              .node .exprStatement (.token .identifier "y" ⟨2, 0⟩) [.token .semi ";" ⟨2, 1⟩],
              .token .rBrace "\x7d" ⟨2, 3⟩]) =
        [⟨2, 1, 0, 1, .column "y" 5 1, some 4⟩] ∧
      ∃ g ∈ walkFindings ⟨.ofString "\x7b x;\ny; \x7d" 4, .default⟩ table
          (.node .block (.token .lBrace "\x7b" ⟨1, 0⟩)
            [.node .exprStatement (.token .identifier "x" ⟨1, 2⟩) [.token .semi ";" ⟨1, 3⟩],
              .node .exprStatement (.token .identifier "y" ⟨2, 0⟩) [.token .semi ";" ⟨2, 1⟩],
              .token .rBrace "\x7d" ⟨2, 3⟩]),
        g.message.isStructural = false ∧ g.line = 2 ∧ g.rawColumn = 0 := by
  obtain ⟨table, htable⟩ := ProgramTable.exists_ofSettings .default
  obtain ⟨table', htable'⟩ := ProgramTable.exists_ofSettings
    { LayoutSettings.default with shareLine := fun _ => true }
  let t : Tree := .node .block (.token .lBrace "\x7b" ⟨1, 0⟩)
    [.node .exprStatement (.token .identifier "x" ⟨1, 2⟩) [.token .semi ";" ⟨1, 3⟩],
      .node .exprStatement (.token .identifier "y" ⟨2, 0⟩) [.token .semi ";" ⟨2, 1⟩],
      .token .rBrace "\x7d" ⟨2, 3⟩]
  have hfound : (ProgramTable.ofSettings
      { LayoutSettings.default with shareLine := fun _ => true }).toOption.map (fun table' =>
        walkFindings ⟨.ofString "\x7b x;\ny; \x7d" 4,
          { LayoutSettings.default with shareLine := fun _ => true }⟩ table' t) =
      some [⟨2, 1, 0, 1, .column "y" 5 1, some 4⟩] := by
    decide +kernel
  rw [htable'] at hfound
  have hrelaxed := Option.some.inj hfound
  beta_reduce at hrelaxed
  have hstrict := (walkFindings_shareLine (.ofString "\x7b x;\ny; \x7d" 4) .default (fun _ => true)
    (fun _ _ => rfl) htable htable' t).2 ⟨2, 1, 0, 1, .column "y" 5 1, some 4⟩
    (hrelaxed ▸ List.mem_singleton_self _) rfl
  exact ⟨table, table', htable, htable', hrelaxed, hstrict⟩

end TreeLayout
