import TreeLayout.Proofs.Table.Visits
import TreeLayout.Proofs.Tree.Numbering

/-!
# Aligned declarations

A walk that aligns declarations carries the number of the declaration visited last, and compares a
declaration with its previous sibling only if that is the one. So it finds what the visits of the
nodes find, and after each visit what `alignment` says of the node; both are put together in
`walkFindings_aligned`, with `Misaligned` as the rule for two declarations that stand one above the
other.

The nodes visited before a node end with the nodes of its previous sibling, the sibling first
(`Focus.exists_foci_prev?`). The declaration visited last is the sibling exactly if no node below it
is a declaration (`lastDeclaration_eq_iff`). A declaration with another one inside, such as a field
of a class that its initial value declares, therefore hides its `=` from the declaration after it
(`nested_declaration_hides_misalignment`).
-/

namespace TreeLayout

open Machine (findings)

/-! ## The declaration visited last -/

/-- The number of the last declaration among nodes, and `last` if there is none. -/
def lastDeclaration (last : Option Nat) : List Focus → Option Nat
  | [] => last
  | f :: fs => lastDeclaration (if isDeclaration f.tree.kind then some f.index else last) fs

/-- The last declaration of two lists of nodes is that of the second one, or of the first one. -/
theorem lastDeclaration_append (last : Option Nat) (fs gs : List Focus) :
    lastDeclaration last (fs ++ gs) = lastDeclaration (lastDeclaration last fs) gs := by
  induction fs generalizing last with
  | nil => rfl
  | cons f fs ih => exact ih _

/-- Without a declaration the one before stays the last. -/
theorem lastDeclaration_eq_self {last : Option Nat} {fs : List Focus}
    (h : ∀ f ∈ fs, isDeclaration f.tree.kind = false) : lastDeclaration last fs = last := by
  induction fs with
  | nil => rfl
  | cons f fs ih =>
    obtain ⟨hf, hfs⟩ := List.forall_mem_cons.1 h
    rw [lastDeclaration, hf]
    exact ih hfs

/-- Where there is a declaration, the last is one of them. -/
theorem exists_lastDeclaration {last : Option Nat} {fs : List Focus}
    (h : ∃ f ∈ fs, isDeclaration f.tree.kind = true) :
    ∃ f ∈ fs, lastDeclaration last fs = some f.index := by
  induction fs generalizing last with
  | nil => simp at h
  | cons f fs ih =>
    by_cases hlater : ∃ g ∈ fs, isDeclaration g.tree.kind = true
    · obtain ⟨g, hg, hlast⟩ := ih hlater
      exact ⟨g, List.mem_cons_of_mem f hg, hlast⟩
    · -- No later node is a declaration, so the first one is, and it stays the last.
      have hnone : ∀ g ∈ fs, isDeclaration g.tree.kind = false := by simpa using hlater
      have hf : isDeclaration f.tree.kind = true := by
        obtain ⟨g, hg, hdeclares⟩ := h
        rcases List.mem_cons.1 hg with rfl | hg
        · exact hdeclares
        · exact absurd ⟨g, hg, hdeclares⟩ hlater
      refine ⟨f, List.mem_cons_self, ?_⟩
      rw [lastDeclaration, if_pos hf, lastDeclaration_eq_self hnone]

/-! ## Previous siblings in document order -/

namespace Focus

variable {f prev : Focus}

/-- The nodes below a node, in document order. -/
def below (f : Focus) : List Focus := f.preorder.tail

/-- A node comes before all below it. -/
theorem preorder_eq_cons (f : Focus) : f.preorder = f :: f.below := by
  obtain ⟨t, path⟩ := f
  cases t <;> rfl

/-- Whether a node below the node is a declaration. -/
def holdsDeclaration (f : Focus) : Bool := f.below.any fun g => isDeclaration g.tree.kind

/-- There are as many nodes below a node as its tree has. -/
theorem length_preorderFrom (t : Tree) (path : List Frame) :
    (preorderFrom t path).length = t.size := by
  rw [← List.length_map index, index_preorderFrom, List.length_range']

/-- A node comes right after all nodes of its previous sibling. -/
theorem index_of_prev? (h : f.prev? = some prev) : f.index = prev.index + prev.preorder.length := by
  obtain ⟨t, path⟩ := f
  rw [preorder, length_preorderFrom]
  unfold prev? at h
  split at h
  · rename_i kind above before after path' hpath
    simp only at hpath
    cases h
    simp only [index, hpath, countBefore, Tree.sizeAmong]
    omega
  · cases h

/-- The nodes before a node end with the nodes of its previous sibling. -/
theorem exists_foci_prev? {t : Tree} (hf : f ∈ t.foci) (h : f.prev? = some prev) :
    ∃ before, t.foci.take f.index = before ++ prev :: prev.below ∧
      ∀ g ∈ prev.below, prev.index < g.index := by
  have hroot : rootFrom prev.tree prev.path = t := (root_prev? h).trans (Tree.mem_foci_iff.1 hf)
  obtain ⟨before, after, hsplit⟩ := preorderFrom_infix_foci prev.tree prev.path
  have hpreorder : preorderFrom prev.tree prev.path = prev :: prev.below := preorder_eq_cons prev
  rw [hroot, hpreorder] at hsplit
  have hat : t.foci = before ++ prev :: (prev.below ++ after) := by
    rw [← hsplit]
    simp
  have hincreasing := t.pairwise_index_foci
  rw [hat] at hincreasing
  have hlater := List.pairwise_cons.1 (List.pairwise_append.1 hincreasing).2.1
  refine ⟨before, ?_, fun g hg => hlater.1 g (List.mem_append_left after hg)⟩
  have hlength : f.index = (before ++ prev :: prev.below).length := by
    rw [index_of_prev? h, Tree.index_eq_length hat, preorder_eq_cons, List.length_append]
  rw [hlength, ← hsplit, List.take_left]

end Focus

/-- The declaration visited last before a node is its previous sibling exactly if that is one and
holds no other one. -/
theorem lastDeclaration_eq_iff {t : Tree} {f prev : Focus} (hf : f ∈ t.foci)
    (h : f.prev? = some prev) (hprev : isDeclaration prev.tree.kind = true) :
    lastDeclaration none (t.foci.take f.index) = some prev.index ↔
      prev.holdsDeclaration = false := by
  obtain ⟨before, htake, hbelow⟩ := Focus.exists_foci_prev? hf h
  rw [htake, lastDeclaration_append, lastDeclaration, if_pos hprev, Focus.holdsDeclaration,
    List.any_eq_false]
  constructor
  · intro hlast g hg hdeclares
    obtain ⟨g', hg', hnumber⟩ := exists_lastDeclaration ⟨g, hg, hdeclares⟩
    have hlt := hbelow g' hg'
    rw [hnumber, Option.some.injEq] at hlast
    omega
  · intro hnone
    exact lastDeclaration_eq_self fun g hg => by simpa using hnone g hg

/-! ## Walks -/

/-- What a walk over a tree finds about the alignment of one of its nodes. -/
def alignment (cx : Context) (t : Tree) (f : Focus) : List Finding :=
  if isDeclaration f.tree.kind then
    alignDeclaration cx (lastDeclaration none (t.foci.take f.index)) f
  else []

/-- The rest of a walk over a tree, after some of the nodes. -/
theorem findings_walkFrom_aligned {cx : Context} (hcx : cx.settings.alignDeclarations = true)
    (table : ProgramTable) {t : Tree} {before fs : List Focus} (h : t.foci = before ++ fs) :
    findings (walkFrom cx table (lastDeclaration none before) fs) =
      fs.flatMap fun f => visitFindings cx table f ++ alignment cx t f := by
  induction fs generalizing before with
  | nil => rfl
  | cons f fs ih =>
    have hsplit : t.foci = (before ++ [f]) ++ fs := by
      rw [h, List.append_assoc]
      rfl
    have hlater := ih hsplit
    rw [lastDeclaration_append, lastDeclaration, lastDeclaration] at hlater
    have hbefore : t.foci.take f.index = before := by
      rw [Tree.index_eq_length h, h, List.take_left]
    rw [walkFrom_cons, hcx, Bool.true_and, List.flatMap_cons, ← hlater, Machine.findings_append,
      alignment, hbefore, List.append_assoc]
    by_cases hf : isDeclaration f.tree.kind = true
    · rw [if_pos hf, if_pos hf, if_pos hf, Machine.findings_append, Machine.findings_map_report]
      rfl
    · rw [if_neg hf, if_neg hf, if_neg hf]
      rfl

/-! ## The rule -/

/-- Two declarations one above the other, whose `=` stand in different columns. -/
structure Misaligned (cx : Context) (above here : Focus) (first second : Tree) : Prop where
  /-- The lower node is a declaration. -/
  declaration : isDeclaration here.tree.kind = true
  /-- The upper node is the sibling before it. -/
  sibling : here.prev? = some above
  /-- Both are of one kind. -/
  kind : above.tree.kind = here.tree.kind
  /-- The upper node ends on the line before the lower one. -/
  line : cx.succ above.tree.rightmost.line = here.tree.line
  /-- The first `=` of the upper node. -/
  upper : assignToken? above.tree = some first
  /-- The first `=` of the lower node. -/
  lower : assignToken? here.tree = some second
  /-- They stand in different columns. -/
  column : cx.column first ≠ cx.column second

/-- The finding that the `=` of a declaration does not stand below another one. -/
def Context.misalignment (cx : Context) (first second : Tree) : Finding :=
  cx.finding second
    (.column second.text (cx.succ (cx.column first)) (cx.succ (cx.column second)))
    (some (cx.column first))

/-- Misaligned declarations are found. -/
theorem alignWith_of_misaligned {cx : Context} {above here : Focus} {first second : Tree}
    (h : Misaligned cx above here first second) :
    alignWith cx above.tree here.tree = [cx.misalignment first second] := by
  unfold alignWith
  rw [if_neg (not_not.2 h.line), h.upper, h.lower]
  exact if_neg h.column

/-- Where something is found, the declarations are misaligned. -/
theorem exists_misaligned_of_alignWith {cx : Context} {above here : Focus}
    (hdeclares : isDeclaration here.tree.kind = true) (hsibling : here.prev? = some above)
    (hkind : above.tree.kind = here.tree.kind) (h : alignWith cx above.tree here.tree ≠ []) :
    ∃ first second, Misaligned cx above here first second := by
  unfold alignWith at h
  split at h
  · exact absurd rfl h
  · rename_i hline
    split at h
    · rename_i first second hupper hlower
      have hcolumn : cx.column first ≠ cx.column second := by
        intro heq
        exact h (if_pos heq)
      exact ⟨first, second, hdeclares, hsibling, hkind, not_not.1 hline, hupper, hlower, hcolumn⟩
    · exact absurd rfl h

/-- Of two misaligned declarations the lower one is reported exactly if the upper one holds no other
declaration. -/
theorem alignment_of_misaligned {cx : Context} {t : Tree} {above here : Focus}
    {first second : Tree} (hhere : here ∈ t.foci) (h : Misaligned cx above here first second) :
    alignment cx t here =
      if above.holdsDeclaration then [] else [cx.misalignment first second] := by
  have habove : isDeclaration above.tree.kind = true := by
    rw [h.kind]
    exact h.declaration
  have hlast := lastDeclaration_eq_iff hhere h.sibling habove
  rw [alignment, if_pos h.declaration, alignDeclaration, h.sibling]
  simp only [h.kind, alignWith_of_misaligned h, decide_true, Bool.and_true, decide_eq_true_eq,
    hlast]
  cases above.holdsDeclaration <;> rfl

/-- A declaration that is misaligned with none is not reported. -/
theorem alignment_eq_nil {cx : Context} {t : Tree} {here : Focus}
    (h : ¬ ∃ above first second, Misaligned cx above here first second) :
    alignment cx t here = [] := by
  unfold alignment alignDeclaration
  by_contra hne
  split at hne
  · rename_i hdeclares
    split at hne
    · exact hne rfl
    · rename_i above hsibling
      split at hne
      · rename_i hboth
        rw [Bool.and_eq_true, decide_eq_true_eq, decide_eq_true_eq] at hboth
        exact h ⟨above, exists_misaligned_of_alignWith hdeclares hsibling hboth.2 hne⟩
      · exact hne rfl
  · exact hne rfl

/-- What a walk that aligns declarations finds: what the visits find, and after the visit of a
declaration what `alignment` says of it. For a declaration that is misaligned with its previous
sibling this is the misalignment, unless the sibling holds another declaration; for every other node
it is nothing. So a misaligned declaration is reported, and no other node is, exactly where the
siblings hold no declarations. -/
theorem walkFindings_aligned {cx : Context} (hcx : cx.settings.alignDeclarations = true)
    (table : ProgramTable) (t : Tree) :
    (walkFindings cx table t =
      t.foci.flatMap fun f => visitFindings cx table f ++ alignment cx t f) ∧
    ∀ here ∈ t.foci,
      (∀ above first second, Misaligned cx above here first second →
        alignment cx t here =
          if above.holdsDeclaration then [] else [cx.misalignment first second]) ∧
      ((¬ ∃ above first second, Misaligned cx above here first second) →
        alignment cx t here = []) ∧
      ((alignment cx t here ≠ [] ↔ ∃ above first second, Misaligned cx above here first second) ↔
        ∀ above first second, Misaligned cx above here first second →
          above.holdsDeclaration = false) := by
  refine ⟨findings_walkFrom_aligned hcx table (List.nil_append t.foci).symm, fun here hhere =>
    ⟨fun above first second h => alignment_of_misaligned hhere h, alignment_eq_nil, ?_⟩⟩
  constructor
  · intro hreported above first second h
    have hne := hreported.2 ⟨above, first, second, h⟩
    rw [alignment_of_misaligned hhere h] at hne
    by_contra hholds
    exact hne (if_pos (by simpa using hholds))
  · intro hnone
    refine ⟨fun hne => ?_, fun ⟨above, first, second, h⟩ => ?_⟩
    · by_contra hrule
      exact hne (alignment_eq_nil hrule)
    · rw [alignment_of_misaligned hhere h, hnone above first second h]
      simp

/-! ## Two fields -/

/-- The field `Object bb = 1;` on a line. -/
def lowerField (line : Nat) : Tree :=
  .node .fieldDecl (.token .identifier "Object" ⟨line, 4⟩)
    [.token .identifier "bb" ⟨line, 11⟩, .token .assign "=" ⟨line, 14⟩,
      .token .literal "1" ⟨line, 16⟩, .token .semi ";" ⟨line, 17⟩]

/-- The field `Object a = ...;` on the second line, with its initial value and its semicolon. -/
def upperField (value semi : Tree) : Tree :=
  .node .fieldDecl (.token .identifier "Object" ⟨2, 4⟩)
    [.token .identifier "a" ⟨2, 11⟩, .token .assign "=" ⟨2, 13⟩, value, semi]

/-- A class body with two fields, the second one on a line. -/
def twoFields (upper : Tree) (line : Nat) : Tree :=
  .node .classBody (.token .lBrace "\x7b" ⟨1, 0⟩)
    [upper, lowerField line, .token .rBrace "\x7d" ⟨line + 1, 0⟩]

/-- The first field of the body as a node. -/
def upperFocus (upper : Tree) (line : Nat) : Focus :=
  ⟨upper, [⟨.classBody, [.token .lBrace "\x7b" ⟨1, 0⟩],
    [lowerField line, .token .rBrace "\x7d" ⟨line + 1, 0⟩]⟩]⟩

/-- The second field of the body as a node. -/
def lowerFocus (upper : Tree) (line : Nat) : Focus :=
  ⟨lowerField line, [⟨.classBody, [upper, .token .lBrace "\x7b" ⟨1, 0⟩],
    [.token .rBrace "\x7d" ⟨line + 1, 0⟩]⟩]⟩

/-- Two fields with plain values: the `=` of the second one is reported. -/
theorem walkFindings_aligned_fields :
    ∃ table, ProgramTable.ofSettings .strict = .ok table ∧
      ⟨3, 15, 14, 1, .column "=" 14 15, some 13⟩ ∈
        walkFindings
          ⟨.ofString "\x7b\n    Object a = 2;\n    Object bb = 1;\n\x7d" 4, .strict⟩ table
          (twoFields (upperField (.token .literal "2" ⟨2, 15⟩) (.token .semi ";" ⟨2, 16⟩)) 3) := by
  obtain ⟨table, htable⟩ := ProgramTable.exists_ofSettings .strict
  let cx : Context := ⟨.ofString "\x7b\n    Object a = 2;\n    Object bb = 1;\n\x7d" 4, .strict⟩
  let upper : Tree := upperField (.token .literal "2" ⟨2, 15⟩) (.token .semi ";" ⟨2, 16⟩)
  have hon : cx.settings.alignDeclarations = true := rfl
  have hhere : lowerFocus upper 3 ∈ (twoFields upper 3).foci := Tree.mem_foci_iff.2 rfl
  have hrule : Misaligned cx (upperFocus upper 3) (lowerFocus upper 3)
      (.token .assign "=" ⟨2, 13⟩) (.token .assign "=" ⟨3, 14⟩) :=
    ⟨rfl, rfl, rfl, by decide +kernel, rfl, rfl, by decide +kernel⟩
  obtain ⟨hwalk, halign⟩ := walkFindings_aligned hon table (twoFields upper 3)
  have hfound := (halign _ hhere).1 _ _ _ hrule
  refine ⟨table, htable, ?_⟩
  rw [hwalk, List.mem_flatMap]
  refine ⟨lowerFocus upper 3, hhere, List.mem_append_right _ ?_⟩
  rw [hfound]
  decide +kernel

/-- The initial value of the first field declares a class with a field. The `=` of the second field
stands in another column, and the walk finds nothing at all. -/
theorem nested_declaration_hides_misalignment :
    ∃ (source : SourceText) (table : ProgramTable) (t : Tree) (above here : Focus)
      (first second : Tree), LayoutSettings.strict.alignDeclarations = true ∧
      ProgramTable.ofSettings .strict = .ok table ∧ here ∈ t.foci ∧
      Misaligned ⟨source, .strict⟩ above here first second ∧
      walkFindings ⟨source, .strict⟩ table t = [] := by
  let source : SourceText := .ofString
    "\x7b\n    Object a = new T() \x7b\n        int x;\n    \x7d;\n    Object bb = 1;\n\x7d" 4
  let inner : Tree := .node .classBody (.token .lBrace "\x7b" ⟨2, 23⟩)
    [.node .fieldDecl (.token .identifier "int" ⟨3, 8⟩)
      [.token .identifier "x" ⟨3, 12⟩, .token .semi ";" ⟨3, 13⟩], .token .rBrace "\x7d" ⟨4, 4⟩]
  let value : Tree := .node .newExpr (.token .kwNew "new" ⟨2, 15⟩)
    [.token .identifier "T" ⟨2, 19⟩,
      .node .arguments (.token .lParen "(" ⟨2, 20⟩) [.token .rParen ")" ⟨2, 21⟩], inner]
  let upper : Tree := upperField value (.token .semi ";" ⟨4, 5⟩)
  obtain ⟨table, htable⟩ := ProgramTable.exists_ofSettings .strict
  have hquiet : (ProgramTable.ofSettings .strict).toOption.map (fun table =>
      decide (walkFindings ⟨source, .strict⟩ table (twoFields upper 5) = [])) = some true := by
    decide +kernel
  rw [htable] at hquiet
  exact ⟨source, table, twoFields upper 5, upperFocus upper 5, lowerFocus upper 5,
    .token .assign "=" ⟨2, 13⟩, .token .assign "=" ⟨5, 14⟩, rfl, htable, Tree.mem_foci_iff.2 rfl,
    ⟨rfl, rfl, rfl, by decide +kernel, rfl, rfl, by decide +kernel⟩, of_decide_eq_true (Option.some.inj hquiet)⟩

end TreeLayout
