import TreeLayout.Proofs.Raw.Validation
import TreeLayout.Proofs.Table.Programs
import TreeLayout.Proofs.Tree.Entries
import TreeLayout.Proofs.Tree.Placement
import TreeLayout.Verify.Walk

/-!
# Trees written in their raw form and read again

Every tree that is built can be written and read again: its leaves stand on lines from one on
(`Tree.BuiltFrom.one_le_line`), and that is all that reading asks of it. What is read has the same
nodes, but the raw form has no position for a construct without children, so such a construct comes
back at the start of the source (`Tree.reloaded`), and with it each node that starts with it. A tree
without constructs of this kind comes back as it was, and a walk finds the same
(`toTree_toRaw_of_builtFrom`). Other trees may get other findings (`reload_adds_findings`).
-/

namespace TreeLayout

namespace Tree

/-! ## The tree that is read -/

mutual
/-- A tree whose constructs without children stand at the start of the source. -/
def reloaded : Tree → Tree
  | .token kind text pos => .token kind text pos
  | .empty kind _ => .empty kind ⟨1, 0⟩
  | .node kind first rest => .node kind first.reloaded (reloadedAmong rest)

/-- Several trees whose constructs without children stand at the start of the source. -/
def reloadedAmong : List Tree → List Tree
  | [] => []
  | t :: ts => t.reloaded :: reloadedAmong ts
end

/-- Several trees are loaded again one by one. -/
theorem reloadedAmong_eq_map (ts : List Tree) : reloadedAmong ts = ts.map reloaded := by
  induction ts with
  | nil => rfl
  | cons t ts ih => rw [reloadedAmong, ih, List.map_cons]

/-- A construct with children is loaded again with its children. -/
theorem reloaded_node (kind : ConstructKind) (first : Tree) (rest : List Tree) :
    (node kind first rest).reloaded = .node kind first.reloaded (rest.map reloaded) := by
  rw [reloaded, reloadedAmong_eq_map]

/-- Loading a tree again moves some leaves and does nothing else. -/
theorem keepsNodes_reloaded : KeepsNodes reloaded where
  token _ _ pos := ⟨pos, rfl⟩
  empty _ _ := ⟨⟨1, 0⟩, rfl⟩
  node := reloaded_node

/-- A node keeps its position exactly if it starts with a token, or stands at the start already. -/
theorem pos_reloaded (t : Tree) :
    t.reloaded.pos = if t.leftmost.isToken then t.pos else ⟨1, 0⟩ := by
  induction t using children_induction with
  | token | empty => rfl
  | node kind first rest ih _ => rw [reloaded_node, pos, ih, leftmost, pos]

/-- All constructs without children stand at the start of the source. -/
def EmptyAtStart (t : Tree) : Prop :=
  ∀ leaf ∈ t.leaves, leaf.isToken = false → leaf.pos = ⟨1, 0⟩

/-- The empty constructs of a node are at the start exactly if those of its children are. -/
theorem emptyAtStart_node {kind : ConstructKind} {first : Tree} {rest : List Tree} :
    (node kind first rest).EmptyAtStart ↔ ∀ t ∈ first :: rest, t.EmptyAtStart := by
  unfold EmptyAtStart
  rw [leaves_node, leavesAmong_eq_flatMap]
  simp only [List.mem_flatMap]
  exact ⟨fun h t ht leaf hleaf => h leaf ⟨t, ht, hleaf⟩,
    fun h leaf ⟨t, ht, hleaf⟩ => h t ht leaf hleaf⟩

/-- A tree that is loaded again is the same exactly if its empty constructs are at the start. -/
theorem reloaded_eq_self_iff {t : Tree} : t.reloaded = t ↔ t.EmptyAtStart := by
  induction t using children_induction with
  | token => simp [reloaded, EmptyAtStart, leaves, isToken]
  | empty kind pos =>
    simp only [reloaded, EmptyAtStart, leaves, List.forall_mem_singleton, isToken, Tree.pos,
      empty.injEq, true_and, forall_const]
    exact eq_comm
  | node kind first rest hfirst hrest =>
    rw [reloaded_node, emptyAtStart_node, List.forall_mem_cons, ← hfirst, node.injEq]
    have hmap : rest.map reloaded = rest ↔ ∀ t ∈ rest, t.EmptyAtStart := by
      rw [← forall₂_congr hrest]
      simpa using List.map_inj_left (f := reloaded) (g := id) (l := rest)
    rw [hmap]
    exact and_iff_right rfl

/-! ## Reading what was written -/

/-- Several trees are loaded again from their raw forms if each of them is. -/
theorem toNodes_toRawAmong {ts : List Tree} (h : ∀ t ∈ ts, t.toRaw.toNode = .ok t.reloaded) :
    RawNode.toNodes (toRawAmong ts) = .ok (ts.map reloaded) := by
  induction ts with
  | nil => rfl
  | cons t ts ih =>
    obtain ⟨ht, hts⟩ := List.forall_mem_cons.1 h
    rw [toRawAmong, RawNode.toNodes, ht, ih hts]
    rfl

/-- A tree whose leaves are on lines from one on is loaded again from its raw form. -/
theorem toNode_toRaw {t : Tree} (h : ∀ leaf ∈ t.leaves, 1 ≤ leaf.line) :
    t.toRaw.toNode = .ok t.reloaded := by
  induction t using children_induction with
  | token kind text pos =>
    have hline : 1 ≤ pos.line := h (.token kind text pos) (by simp [leaves])
    have hzero : pos.line ≠ 0 := by omega
    simp [toRaw, RawNode.toNode, RawNode.tokenOf, hzero, reloaded]
  | empty => rfl
  | node kind first rest hfirst hrest =>
    rw [leaves_node, leavesAmong_eq_flatMap] at h
    have hbelow : ∀ t ∈ first :: rest, ∀ leaf ∈ t.leaves, 1 ≤ leaf.line := fun t ht leaf hleaf =>
      h leaf (List.mem_flatMap.2 ⟨t, ht, hleaf⟩)
    have hchildren : RawNode.toNodes (toRawAmong (first :: rest)) =
        .ok ((first :: rest).map reloaded) := by
      refine toNodes_toRawAmong fun t ht => ?_
      rcases List.mem_cons.1 ht with rfl | ht
      · exact hfirst (hbelow t List.mem_cons_self)
      · exact hrest t ht (hbelow t (List.mem_cons_of_mem first ht))
    rw [toRawAmong] at hchildren
    rw [toRaw, RawNode.toNode, hchildren, reloaded_node]
    rfl

end Tree

/-! ## Lines of built trees -/

/-- The leaves of a tree that is read from raw nodes stand on lines from one on. -/
theorem RawNode.one_le_line_of_toNode {raw : RawNode} {t : Tree} (h : raw.toNode = .ok t) :
    ∀ leaf ∈ t.leaves, 1 ≤ leaf.line := by
  induction raw using children_induction generalizing t with
  | node kind text line column children ih =>
    rcases toNode_eq_ok h with ⟨kind, text, line, column, -, hline, rfl⟩ |
      ⟨kind, line, column, children, ts, hraw, hline, hchildren, rfl⟩
    · simpa [Tree.leaves, Tree.line, Tree.pos] using hline
    · cases hraw
      cases ts with
      | nil =>
        have hstart : 1 ≤ line.getD 1 := by
          cases line with
          | none => exact Nat.le_refl 1
          | some n => exact hline n rfl
        simpa [Tree.construct, Tree.leaves, Tree.line, Tree.pos] using hstart
      | cons first rest =>
        intro leaf hleaf
        rw [Tree.construct, Tree.leaves_node, Tree.leavesAmong_eq_flatMap] at hleaf
        obtain ⟨t, ht, hleaf⟩ := List.mem_flatMap.1 hleaf
        obtain ⟨raw, hraw, hread⟩ := exists_toNode_of_mem hchildren ht
        exact ih raw hraw hread leaf hleaf

namespace Builder

variable {s s' : State}

/-- The cursor and all leaves so far stand on lines from one on. -/
structure Grounded (s : State) : Prop where
  /-- The cursor counts lines from one. -/
  cursor : 1 ≤ s.pos.line
  /-- So do the leaves. -/
  leaves : ∀ leaf ∈ held s, 1 ≤ leaf.line

/-- A call keeps all lines from one on. -/
theorem Grounded.step {call : BuildCall} (h : Grounded s) (hs : s.step call = .ok s') :
    Grounded s' := by
  by_cases hcall : call.Seeks
  · obtain ⟨taken, added, hadvances⟩ := advances_of_seeks hcall hs
    have hle : s.pos.Le s'.pos := by
      rw [hadvances.pos]
      exact le_advanceBy s.pos taken
    refine ⟨Nat.le_trans h.cursor hle.line_le, fun leaf hleaf => ?_⟩
    rcases List.mem_append.1 (hadvances.held.subset hleaf) with hleaf | hleaf
    · exact h.leaves leaf hleaf
    · exact Nat.le_trans h.cursor (hadvances.placed leaf (Option.mem_toList.1 hleaf)).1.line_le
  · -- The token is put at a position of its own, which is checked.
    cases call with
    | «open» | close | token => exact absurd trivial hcall
    | tokenAt kind text pos =>
      rw [State.step, State.tokenAt] at hs
      split at hs
      · cases hs
      · rename_i hline
        unfold State.attachToken at hs
        split at hs
        · obtain ⟨hheld, -, hpos⟩ := held_attach hs
          refine ⟨hpos ▸ h.cursor, fun leaf hleaf => ?_⟩
          rcases List.mem_append.1 (hheld.subset hleaf) with hleaf | hleaf
          · exact h.leaves leaf hleaf
          · obtain rfl := List.mem_singleton.1 hleaf
            exact Nat.one_le_iff_ne_zero.2 hline
        · cases hs

/-- Several calls keep all lines from one on. -/
theorem Grounded.run {calls : List BuildCall} (h : Grounded s)
    (hs : calls.foldlM State.step s = .ok s') : Grounded s' := by
  induction calls generalizing s with
  | nil =>
    cases hs
    exact h
  | cons call calls ih =>
    obtain ⟨next, hnext, hrest⟩ := foldlM_cons_eq_ok hs
    exact ih (h.step hnext) hrest

end Builder

/-- The leaves of a built tree stand on lines from one on. -/
theorem Tree.BuiltFrom.one_le_line {t : Tree} {added : List Label} (h : t.BuiltFrom added) :
    ∀ leaf ∈ t.leaves, 1 ≤ leaf.line := by
  cases h with
  | calls source calls h =>
    obtain ⟨s, hrun, hfinish⟩ := Builder.build_eq_ok h
    have hstart : Builder.Grounded (.start source) :=
      ⟨Nat.le_refl 1, by simp [Builder.held, Builder.State.start, Builder.leavesOpen]⟩
    rw [← Builder.held_of_finish hfinish]
    exact (hstart.run hrun).leaves
  | raw raw h => exact RawNode.one_le_line_of_toNode (RawNode.toTree_eq_ok h).1

/-- A construct whose leaves are on lines from one on is loaded again from its raw form. -/
theorem Tree.toTree_toRaw {t : Tree} (htoken : t.isToken = false)
    (h : ∀ leaf ∈ t.leaves, 1 ≤ leaf.line) : t.toRaw.toTree = .ok t.reloaded := by
  have hnode := toNode_toRaw h
  cases t with
  | token => cases htoken
  | empty | node => exact hnode

/-! ## What is kept -/

/-- What comes back when a tree is written in its raw form and read again. Reading succeeds, and the
table of nodes is the same. A node is back at its position if it starts with a token; if it starts
with a construct without children, it is at the start of the source. So the tree is the same exactly
if all constructs without children stand at the start, and then a walk finds the same. -/
theorem toTree_toRaw_of_builtFrom {t : Tree} {added : List Label} (h : t.BuiltFrom added) :
    ∃ t', t.toRaw.toTree = .ok t' ∧ t'.foci.map Focus.entry = t.foci.map Focus.entry ∧
      (t'.foci.map (·.tree.pos) = t.foci.map fun f =>
        if f.leftmost.tree.isToken then f.tree.pos else ⟨1, 0⟩) ∧
      (t' = t ↔ t.EmptyAtStart) ∧
      (t.EmptyAtStart → ∀ cx table, verify cx table t' = verify cx table t) := by
  refine ⟨t.reloaded, Tree.toTree_toRaw h.labels.2 h.one_le_line,
    Tree.entry_foci Tree.keepsNodes_reloaded t, ?_, Tree.reloaded_eq_self_iff, ?_⟩
  · rw [Tree.foci_map Tree.keepsNodes_reloaded, List.map_map]
    refine List.map_congr_left fun f _ => ?_
    rw [Focus.leftmost, Focus.tree_leftmostFrom]
    exact Tree.pos_reloaded f.tree
  · intro hstart cx table
    rw [Tree.reloaded_eq_self_iff.2 hstart]

/-- The calls for a block with the declaration `int x;`, which has an empty list of modifiers. -/
def plainDeclaration : List BuildCall :=
  [.open ConstructKind.block, .token TokenKind.lBrace "\x7b",
    .open ConstructKind.localVarDecl, .open ConstructKind.modifiers, .close,
    .token TokenKind.identifier "int", .token TokenKind.identifier "x",
    .token TokenKind.semi ";", .close,
    .token TokenKind.rBrace "\x7d", .close]

/-- A block with the declaration `int x;`, whose empty list of modifiers stands at `pos`. -/
def plainBlock (pos : Position) : Tree :=
  .node .block (.token .lBrace "\x7b" ⟨1, 0⟩)
    [.node .localVarDecl (.empty .modifiers pos)
        [.token .identifier "int" ⟨2, 4⟩, .token .identifier "x" ⟨2, 8⟩, .token .semi ";" ⟨2, 9⟩],
      .token .rBrace "\x7d" ⟨3, 0⟩]

/-- The empty list of modifiers comes back at the start, and so does the declaration. -/
theorem toTree_toRaw_of_builtFrom_modifiers :
    Builder.build "\x7b\n    int x;\n\x7d" plainDeclaration = .ok (plainBlock ⟨2, 4⟩) ∧
      ∃ t', (plainBlock ⟨2, 4⟩).toRaw.toTree = .ok t' ∧
        t'.foci.map Focus.entry = (plainBlock ⟨2, 4⟩).foci.map Focus.entry ∧
        t'.foci.map (·.tree.pos) =
          [⟨1, 0⟩, ⟨1, 0⟩, ⟨1, 0⟩, ⟨1, 0⟩, ⟨2, 4⟩, ⟨2, 8⟩, ⟨2, 9⟩, ⟨3, 0⟩] ∧
        t' ≠ plainBlock ⟨2, 4⟩ := by
  have hbuild : Builder.build "\x7b\n    int x;\n\x7d" plainDeclaration =
      .ok (plainBlock ⟨2, 4⟩) := rfl
  obtain ⟨t', hread, hentry, hpos, hsame, -⟩ := toTree_toRaw_of_builtFrom (.calls _ _ hbuild)
  refine ⟨hbuild, t', hread, hentry, hpos, fun heq => ?_⟩
  have hstart := hsame.1 heq (.empty .modifiers ⟨2, 4⟩) (by simp [plainBlock, Tree.leaves,
    Tree.leavesAmong]) rfl
  cases hstart

/-- A block that is in order is not any more when it is written and read again: the declaration
counts as one on the first line, so its first word and the brace after it are told to move. -/
theorem reload_adds_findings :
    ∃ table t t', ProgramTable.ofSettings .default = .ok table ∧
      Builder.build "\x7b\n    int x;\n\x7d" plainDeclaration = .ok t ∧
      t.toRaw.toTree = .ok t' ∧ t'.foci.map (·.tree.pos) ≠ t.foci.map (·.tree.pos) ∧
      verify ⟨.ofString "\x7b\n    int x;\n\x7d" 4, .default⟩ table t = [] ∧
      ⟨2, 5, 4, 3, .column "int" 1 5, some 0⟩ ∈
        verify ⟨.ofString "\x7b\n    int x;\n\x7d" 4, .default⟩ table t' := by
  obtain ⟨table, htable⟩ := ProgramTable.exists_ofSettings .default
  have hfound : (ProgramTable.ofSettings .default).toOption.map (fun table =>
      decide (walkFindings ⟨.ofString "\x7b\n    int x;\n\x7d" 4, .default⟩ table
          (plainBlock ⟨2, 4⟩) = [] ∧
        ⟨2, 5, 4, 3, .column "int" 1 5, some 0⟩ ∈
          walkFindings ⟨.ofString "\x7b\n    int x;\n\x7d" 4, .default⟩ table
            (plainBlock ⟨1, 0⟩))) = some true := by
    decide +kernel
  rw [htable] at hfound
  obtain ⟨hquiet, hfinding⟩ := of_decide_eq_true (Option.some.inj hfound)
  refine ⟨table, plainBlock ⟨2, 4⟩, plainBlock ⟨1, 0⟩, htable, rfl, rfl, by decide +kernel, ?_, ?_⟩
  · rw [verify, hquiet, List.mergeSort_nil]
  · rw [verify, List.mem_mergeSort]
    exact hfinding

end TreeLayout
