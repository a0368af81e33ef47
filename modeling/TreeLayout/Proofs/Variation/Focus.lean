import TreeLayout.Proofs.Tree.Preorder
import TreeLayout.Proofs.Variation.Tree

/-!
# Nodes around a hole

A node around a hole is given with the constructs around it, and any of their children may hold the
hole (`VaryingFocus.Around`). If the fillings of the hole have one outline, such a node is measured
from one line (`line_indentationParent`), and the same expressions among its children stay on one
line (`keepsInline_pick`).

A walk over trees around a hole visits the same nodes before the hole and after it, each of them a
node around the hole that is not in it (`exists_foci_eq`).
-/

namespace TreeLayout

variable {ι : Type}

/-! ## Constructs and nodes -/

/-- A construct with one child taken out, for each index. -/
structure VaryingFrame (ι : Type) where
  /-- The kind of the construct. -/
  kind : ConstructKind
  /-- The children before the gap, nearest first. -/
  before : List (ι → Tree)
  /-- The children after the gap. -/
  after : List (ι → Tree)

namespace VaryingFrame

/-- The construct for an index. -/
def pick (frame : VaryingFrame ι) (i : ι) : Frame :=
  ⟨frame.kind, frame.before.map (· i), frame.after.map (· i)⟩

/-- A construct that does not vary. -/
def const (frame : Frame) : VaryingFrame ι :=
  ⟨frame.kind, frame.before.map (Function.const ι), frame.after.map (Function.const ι)⟩

/-- A construct that does not vary is the same for all indices. -/
@[simp] theorem pick_const (frame : Frame) (i : ι) : (const frame).pick i = frame := by
  simp only [pick, const, Tree.map_map_const]

/-- Constructs that do not vary. -/
theorem map_pick_const (path : List Frame) (i : ι) :
    (path.map const).map (fun frame : VaryingFrame ι => frame.pick i) = path := by
  simp [Function.comp_def]

/-- The children of the construct are trees around the hole. -/
structure Around (hole : ι → Tree) (frame : VaryingFrame ι) : Prop where
  /-- Those before the gap. -/
  before : ∀ t ∈ frame.before, Tree.Around hole t
  /-- Those after the gap. -/
  after : ∀ t ∈ frame.after, Tree.Around hole t

variable {hole : ι → Tree} {frame : VaryingFrame ι}

/-- A construct that does not vary is around every hole. -/
theorem Around.of_const (frame : Frame) : Around hole (const frame : VaryingFrame ι) where
  before t ht := by
    obtain ⟨t, -, rfl⟩ := List.mem_map.1 ht
    exact .const t
  after t ht := by
    obtain ⟨t, -, rfl⟩ := List.mem_map.1 ht
    exact .const t

/-- A tree around the hole, in the gap. -/
theorem Around.plug (h : frame.Around hole) {t : ι → Tree} (ht : Tree.Around hole t) :
    Tree.Around hole fun i => (frame.pick i).plug (t i) := by
  obtain ⟨kind, before, after⟩ := frame
  simp only [Frame.plug, pick, ← List.map_reverse]
  cases hbefore : before.reverse with
  | nil => exact .node kind ht h.after
  | cons first rest =>
    have hmem : ∀ t ∈ first :: rest, Tree.Around hole t := fun t ht =>
      h.before t (List.mem_reverse.1 (hbefore ▸ ht))
    have hrest : ∀ t' ∈ rest ++ t :: after, Tree.Around hole t' := by
      simp only [List.mem_append, List.mem_cons]
      rintro t' (ht' | rfl | ht')
      · exact hmem t' (List.mem_cons_of_mem first ht')
      · exact ht
      · exact h.after t' ht'
    have hnode := Tree.Around.node kind (hmem first List.mem_cons_self) hrest
    simpa only [List.map_append, List.map_cons] using hnode

end VaryingFrame

/-- A node and the way from it to the root, for each index. -/
structure VaryingFocus (ι : Type) where
  /-- The node with everything below it. -/
  tree : ι → Tree
  /-- The constructs around it, innermost first, each without the part that contains it. -/
  path : List (VaryingFrame ι)

namespace VaryingFocus

/-- The node for an index. -/
def pick (f : VaryingFocus ι) (i : ι) : Focus := ⟨f.tree i, f.path.map (·.pick i)⟩

/-- A node that does not vary. -/
def const (f : Focus) : VaryingFocus ι := ⟨Function.const ι f.tree, f.path.map .const⟩

/-- A node that does not vary is the same for all indices. -/
@[simp] theorem pick_const (f : Focus) (i : ι) : (const f).pick i = f := by
  simp only [pick, const, VaryingFrame.map_pick_const, Function.const_apply]

/-- The node and its surroundings are around the hole. -/
structure Around (hole : ι → Tree) (f : VaryingFocus ι) : Prop where
  /-- The node is a tree around the hole. -/
  tree : Tree.Around hole f.tree
  /-- The constructs around the node have children around the hole. -/
  path : ∀ frame ∈ f.path, frame.Around hole

/-- The node is around the hole, and so are its children: it is not in the hole, unless the hole is
filled with leaves. -/
structure Outside (hole : ι → Tree) (f : VaryingFocus ι) : Prop extends Around hole f where
  /-- The children are trees around the hole. -/
  children : ∃ ts : List (ι → Tree), (∀ t ∈ ts, Tree.Around hole t) ∧
    ∀ i, (f.tree i).children = ts.map (· i)

/-- A node that does not vary, at the end of a path around the hole. -/
theorem Outside.of_const {hole : ι → Tree} (t : Tree) {path : List (VaryingFrame ι)}
    (hpath : ∀ frame ∈ path, frame.Around hole) :
    Outside hole ⟨Function.const ι t, path⟩ where
  tree := .const t
  path := hpath
  children := ⟨t.children.map (Function.const ι), by simp [Tree.Around.const],
    fun i => by rw [Tree.map_map_const]; rfl⟩

end VaryingFocus

/-! ## Baselines -/

section Baseline

variable {hole : ι → Tree}

/-- All trees around the hole start on one line, and end on one. -/
theorem Tree.Around.line_eq (hhole : ∃ o, ∀ i, (hole i).outline = o) {t : ι → Tree}
    (h : Around hole t) (i j : ι) : (t i).line = (t j).line := by
  obtain ⟨o, ho⟩ := h.exists_outline hhole
  rw [← line_outline, ← line_outline, ho, ho]

/-- A tree around a hole has one kind, if what fills the hole has one outline. -/
theorem Tree.Around.kind_eq (hhole : ∃ o, ∀ i, (hole i).outline = o) {t : ι → Tree}
    (h : Around hole t) (i j : ι) : (t i).kind = (t j).kind := by
  obtain ⟨o, ho⟩ := h.exists_outline hhole
  exact congrArg Outline.kind ((ho i).trans (ho j).symm)

/-- The kind of the child nearest to a gap, on the one side. -/
theorem VaryingFrame.Around.head_kind_eq (hhole : ∃ o, ∀ i, (hole i).outline = o)
    {frame : VaryingFrame ι} (h : frame.Around hole) (i j : ι) :
    (frame.pick i).before.head?.map Tree.kind = (frame.pick j).before.head?.map Tree.kind := by
  obtain ⟨kind, before, after⟩ := frame
  cases before with
  | nil => rfl
  | cons t before => exact congrArg some ((h.before t List.mem_cons_self).kind_eq hhole i j)

/-- The first `if` of a chain stands on one line. -/
theorem line_ifChainRoot (hhole : ∃ o, ∀ i, (hole i).outline = o) {path : List (VaryingFrame ι)}
    (hpath : ∀ frame ∈ path, frame.Around hole) {t : ι → Tree} (ht : Tree.Around hole t) (i j : ι) :
    (ifChainRoot (t i) (path.map (·.pick i))).tree.line =
      (ifChainRoot (t j) (path.map (·.pick j))).tree.line := by
  induction path generalizing t with
  | nil => exact ht.line_eq hhole i j
  | cons frame path ih =>
    obtain ⟨hframe, hpath⟩ := List.forall_mem_cons.1 hpath
    have hkind : (frame.pick i).kind = (frame.pick j).kind := rfl
    rw [List.map_cons, List.map_cons, ifChainRoot, ifChainRoot, hframe.head_kind_eq hhole i j,
      hkind]
    split
    · exact ih hpath (hframe.plug ht)
    · exact ht.line_eq hhole i j

variable {f : VaryingFocus ι}

/-- The construct around a node stands on one line. -/
theorem line_parent? (hhole : ∃ o, ∀ i, (hole i).outline = o) (hf : f.Around hole) (i j : ι) :
    (f.pick i).parent?.map (·.tree.line) = (f.pick j).parent?.map (·.tree.line) := by
  obtain ⟨t, path⟩ := f
  cases path with
  | nil => rfl
  | cons frame path =>
    have hframe := hf.path frame List.mem_cons_self
    exact congrArg some ((hframe.plug hf.tree).line_eq hhole i j)

/-- The construct that owns a body stands on one line. -/
theorem line_bodyOwner? (hhole : ∃ o, ∀ i, (hole i).outline = o) (hf : f.Around hole) (i j : ι) :
    (bodyOwner? (f.pick i)).map (·.tree.line) = (bodyOwner? (f.pick j)).map (·.tree.line) := by
  have hkind : (f.pick i).tree.kind = (f.pick j).tree.kind := hf.tree.kind_eq hhole i j
  have hparent := line_parent? hhole hf i j
  have hline := congrArg some (hf.tree.line_eq hhole i j)
  unfold bodyOwner?
  rw [hkind]
  split
  · split
    · exact hparent
    · exact hparent
    · exact congrArg some (line_ifChainRoot hhole hf.path hf.tree i j)
    all_goals first | exact hline | rfl
  · rfl

/-- What is taken in place of a node that may be missing stands on one line if both do. -/
theorem line_getD {g g' : Option Focus} {f f' : Focus}
    (hg : g.map (·.tree.line) = g'.map (·.tree.line)) (hf : f.tree.line = f'.tree.line) :
    (g.getD f).tree.line = (g'.getD f').tree.line := by
  cases g with
  | none =>
    cases g' with
    | none => exact hf
    | some _ => cases hg
  | some _ =>
    cases g' with
    | none => cases hg
    | some _ => exact Option.some.inj hg

/-- The name before a list, or else the construct around it, stands on one line. -/
theorem line_nameBefore (hhole : ∃ o, ∀ i, (hole i).outline = o) (hf : f.Around hole) (i j : ι) :
    (match (f.pick i).prev? with
      | some name => name.rightmost
      | none => (f.pick i).parent?.getD (f.pick i)).tree.line =
    (match (f.pick j).prev? with
      | some name => name.rightmost
      | none => (f.pick j).parent?.getD (f.pick j)).tree.line := by
  have hline : (f.pick i).tree.line = (f.pick j).tree.line := hf.tree.line_eq hhole i j
  have hparent := line_parent? hhole hf i j
  obtain ⟨t, path⟩ := f
  match path with
  | [] => exact hline
  | ⟨_, [], _⟩ :: _ => exact line_getD hparent hline
  | ⟨_, name :: _, _⟩ :: _ =>
    have hname := (hf.path _ List.mem_cons_self).before name List.mem_cons_self
    obtain ⟨o, ho⟩ := hname.exists_outline hhole
    have hlast : ∀ i path, (Focus.rightmost ⟨name i, path⟩).tree.line = o.lastLine :=
      fun i path => by rw [Focus.rightmost, Focus.tree_rightmostFrom, ← Tree.lastLine_outline, ho]
    exact (hlast i _).trans (hlast j _).symm

/-- A node around the hole is measured from one line. -/
theorem line_indentationParent (hhole : ∃ o, ∀ i, (hole i).outline = o) (hf : f.Around hole)
    (i j : ι) :
    (indentationParent (f.pick i)).tree.line = (indentationParent (f.pick j)).tree.line := by
  have hkind : (f.pick i).tree.kind = (f.pick j).tree.kind := hf.tree.kind_eq hhole i j
  have hline : (f.pick i).tree.line = (f.pick j).tree.line := hf.tree.line_eq hhole i j
  have hname := line_nameBefore hhole hf i j
  have hleaf : ∀ i, (f.pick i).leftmost.tree.line = (f.pick i).tree.line := fun i => by
    rw [Focus.leftmost, Focus.tree_leftmostFrom, Tree.line, Tree.pos_leftmost, Tree.line]
  -- The construct that owns a body, or else the body itself.
  have hbody : ((f.pick i).parent?.bind bodyOwner?).map (·.tree.line) =
      ((f.pick j).parent?.bind bodyOwner?).map (·.tree.line) := by
    obtain ⟨t, path⟩ := f
    cases path with
    | nil => rfl
    | cons frame path =>
      obtain ⟨hframe, hpath⟩ := List.forall_mem_cons.1 hf.path
      have howner : VaryingFocus.Around hole ⟨fun i => (frame.pick i).plug (t i), path⟩ :=
        ⟨hframe.plug hf.tree, hpath⟩
      exact line_bodyOwner? hhole howner i j
  unfold indentationParent
  rw [hkind]
  split
  · split
    · exact hname
    · exact hname
    · rw [hleaf, hleaf, hline]
    · exact line_getD hbody hline
    · exact line_getD hbody hline
    · exact hline
  · exact hline

/-- A node is an inline body for all indices or for none. -/
theorem isInlineBody_pick (hhole : ∃ o, ∀ i, (hole i).outline = o) (hf : f.Around hole) (i j : ι) :
    isInlineBody (f.pick i) = isInlineBody (f.pick j) := by
  obtain ⟨t, path⟩ := f
  obtain ⟨o, ho⟩ := hf.tree.exists_outline hhole
  simp only at ho
  match path with
  | [] | ⟨_, [], _⟩ :: _ => rfl
  | ⟨_, header :: _, _⟩ :: _ =>
    have hheader := (hf.path _ List.mem_cons_self).before header List.mem_cons_self
    obtain ⟨o', ho'⟩ := hheader.exists_outline hhole
    simp only [isInlineBody, VaryingFocus.pick, VaryingFrame.pick, List.map_cons, List.head?_cons,
      Option.map_some, sameLine_eq, ho, ho']

/-- The same expressions among the children of a node outside of the hole stay on one line. -/
theorem keepsInline_pick (hhole : ∃ o, ∀ i, (hole i).outline = o) (hf : f.Outside hole) (i j : ι) :
    keepsInline (f.pick i) = keepsInline (f.pick j) := by
  obtain ⟨ts, hts, hchildren⟩ := hf.children
  obtain ⟨kinds, hkinds⟩ := Tree.exists_map_eq (g := Tree.kind) fun t ht => by
    obtain ⟨o, ho⟩ := (hts t ht).exists_outline hhole
    exact ⟨o.kind, fun i => congrArg Tree.Outline.kind (ho i)⟩
  have hcount : ∀ i, ((f.pick i).tree.children.filter fun c => c.kind.isExpression).length =
      kinds.countP Kind.isExpression := fun i => by
    have hpick : (f.pick i).tree.children = ts.map (· i) := hchildren i
    rw [hpick, ← hkinds i, List.countP_map, List.countP_eq_length_filter]
    rfl
  have hkind : (f.pick i).tree.kind = (f.pick j).tree.kind := hf.tree.kind_eq hhole i j
  unfold keepsInline
  rw [hcount, hcount, hkind, isInlineBody_pick hhole hf.toAround i j]

end Baseline

/-! ## Walks -/

section Walk

open Focus

variable {hole : ι → Tree}

/-- The nodes of a tree without a hole are outside of the hole, at the end of each path around it.
-/
def VisitedOutside (hole : ι → Tree) (t : Tree) : Prop :=
  ∀ path : List (VaryingFrame ι), (∀ frame ∈ path, frame.Around hole) →
    ∃ fs : List (VaryingFocus ι), (∀ f ∈ fs, f.Outside hole) ∧
      ∀ i, preorderFrom t (path.map (·.pick i)) = fs.map (·.pick i)

/-- A walk over children first visits those without a hole, outside of it. -/
theorem exists_preorderFromAmong_append (kind : ConstructKind) (ts : List Tree)
    (hts : ∀ t ∈ ts, VisitedOutside hole t) (before rest : List (ι → Tree))
    (hbefore : ∀ t ∈ before, Tree.Around hole t) (hrest : ∀ t ∈ rest, Tree.Around hole t)
    {path : List (VaryingFrame ι)} (hpath : ∀ frame ∈ path, frame.Around hole) :
    ∃ fs : List (VaryingFocus ι), (∀ f ∈ fs, f.Outside hole) ∧ ∀ i,
      preorderFromAmong kind (before.map (· i)) (ts ++ rest.map (· i)) (path.map (·.pick i)) =
        fs.map (·.pick i) ++ preorderFromAmong kind (ts.reverse ++ before.map (· i))
          (rest.map (· i)) (path.map (·.pick i)) := by
  induction ts generalizing before with
  | nil => exact ⟨[], by simp, fun i => rfl⟩
  | cons t ts ih =>
    obtain ⟨ht, hts⟩ := List.forall_mem_cons.1 hts
    -- The first child, between the children before it and all that follow.
    let frame : VaryingFrame ι := ⟨kind, before, ts.map (Function.const ι) ++ rest⟩
    have hframe : frame.Around hole := by
      refine ⟨hbefore, fun t' ht' => ?_⟩
      obtain ht' | ht' := List.mem_append.1 ht'
      · obtain ⟨t', -, rfl⟩ := List.mem_map.1 ht'
        exact .const t'
      · exact hrest t' ht'
    obtain ⟨fs, hfs, hhere⟩ := ht (frame :: path) (List.forall_mem_cons.2 ⟨hframe, hpath⟩)
    have hbefore' : ∀ t' ∈ Function.const ι t :: before, Tree.Around hole t' :=
      List.forall_mem_cons.2 ⟨.const t, hbefore⟩
    obtain ⟨fs', hfs', hlater⟩ := ih hts _ hbefore'
    refine ⟨fs ++ fs', List.forall_mem_append.2 ⟨hfs, hfs'⟩, fun i => ?_⟩
    have hpick : (frame :: path).map (·.pick i) =
        ⟨kind, before.map (· i), ts ++ rest.map (· i)⟩ :: path.map (·.pick i) := by
      simp only [List.map_cons, frame, VaryingFrame.pick, List.map_append, Tree.map_map_const]
    have hhere := hhere i
    have hlater := hlater i
    simp only [List.map_cons, Function.const_apply] at hlater
    rw [hpick] at hhere
    rw [List.cons_append, preorderFromAmong, hhere, hlater, List.map_append, List.append_assoc,
      List.reverse_cons, List.append_assoc]
    rfl

/-- All nodes of a tree without a hole are outside of the hole. -/
theorem visitedOutside (hole : ι → Tree) (t : Tree) : VisitedOutside hole t := by
  induction t using Tree.children_induction with
  | token kind text pos =>
    exact fun path hpath =>
      ⟨[_], List.forall_mem_singleton.2 (.of_const (.token kind text pos) hpath), fun i => rfl⟩
  | empty kind pos =>
    exact fun path hpath =>
      ⟨[_], List.forall_mem_singleton.2 (.of_const (.empty kind pos) hpath), fun i => rfl⟩
  | node kind first rest hfirst hrest =>
    intro path hpath
    have hall : ∀ t ∈ first :: rest, VisitedOutside hole t :=
      List.forall_mem_cons.2 ⟨hfirst, hrest⟩
    obtain ⟨fs, hfs, hchildren⟩ := exists_preorderFromAmong_append kind (first :: rest)
      hall [] [] (by simp) (by simp) hpath
    refine ⟨_ :: fs, List.forall_mem_cons.2 ⟨.of_const (.node kind first rest) hpath, hfs⟩,
      fun i => ?_⟩
    have hchildren := hchildren i
    simp only [List.map_nil, List.append_nil, preorderFromAmong] at hchildren
    rw [preorderFrom_node, preorderFromAmong, hchildren]
    rfl

/-- A construct that holds the hole is outside of it. -/
theorem outside_plug (frame : Frame) (path : List Frame) {t : ι → Tree} (ht : Tree.Around hole t) :
    VaryingFocus.Outside hole ⟨fun i => frame.plug (t i), path.map .const⟩ where
  tree := by simpa using (VaryingFrame.Around.of_const frame).plug ht
  path := by simp [VaryingFrame.Around.of_const]
  children := by
    refine ⟨frame.before.reverse.map (Function.const ι) ++
      t :: frame.after.map (Function.const ι), fun t' ht' => ?_, fun i => ?_⟩
    · simp only [List.mem_append, List.mem_cons, List.mem_map] at ht'
      obtain ⟨t', -, rfl⟩ | rfl | ⟨t', -, rfl⟩ := ht'
      · exact .const t'
      · exact ht
      · exact .const t'
    · rw [children_plug, List.map_append, List.map_cons, Tree.map_map_const, Tree.map_map_const]

/-- A walk over a construct with a child in its gap: the construct, the children before the gap, the
child, and those after it. -/
theorem exists_preorderFrom_plug (frame : Frame) (path : List Frame) {t : ι → Tree}
    (ht : Tree.Around hole t) :
    ∃ before after : List (VaryingFocus ι), (∀ f ∈ before, f.Outside hole) ∧
      (∀ f ∈ after, f.Outside hole) ∧ ∀ i,
        preorderFrom (frame.plug (t i)) path = before.map (·.pick i) ++
          (preorderFrom (t i) (frame :: path) ++ after.map (·.pick i)) := by
  obtain ⟨kind, left, right⟩ := frame
  have hconst : ∀ ts : List Tree, ∀ t' ∈ ts.map (Function.const ι), Tree.Around hole t' := by
    simp [Tree.Around.const]
  have hpath : ∀ frame ∈ path.map VaryingFrame.const, frame.Around hole := by
    simp [VaryingFrame.Around.of_const]
  obtain ⟨before, hbefore, hleft⟩ := exists_preorderFromAmong_append kind left.reverse
    (fun t' _ => visitedOutside hole t') [] (t :: right.map (Function.const ι)) (by simp)
    (List.forall_mem_cons.2 ⟨ht, hconst right⟩) hpath
  obtain ⟨after, hafter, hright⟩ := exists_preorderFromAmong_append kind right
    (fun t' _ => visitedOutside hole t') (t :: left.map (Function.const ι)) []
    (List.forall_mem_cons.2 ⟨ht, hconst left⟩) (by simp) hpath
  refine ⟨_ :: before, after,
    List.forall_mem_cons.2 ⟨outside_plug ⟨kind, left, right⟩ path ht, hbefore⟩, hafter, fun i => ?_⟩
  have hleft := hleft i
  have hright := hright i
  simp only [List.map_nil, List.map_cons, List.append_nil, List.reverse_reverse,
    Tree.map_map_const, VaryingFrame.map_pick_const] at hleft
  simp only [List.map_nil, List.map_cons, List.append_nil, Tree.map_map_const,
    VaryingFrame.map_pick_const, preorderFromAmong] at hright
  rw [preorderFrom_plug, hleft, preorderFromAmong, hright, List.map_cons, List.cons_append]
  simp only [VaryingFocus.pick, VaryingFrame.map_pick_const]

/-- A walk over trees around a hole visits the same nodes outside of the hole, before it and after
it. -/
theorem exists_foci_eq (hole : ι → Tree) (path : List Frame) :
    ∃ before after : List (VaryingFocus ι), (∀ f ∈ before, f.Outside hole) ∧
      (∀ f ∈ after, f.Outside hole) ∧ ∀ i,
        (rootFrom (hole i) path).foci =
          before.map (·.pick i) ++ (preorderFrom (hole i) path ++ after.map (·.pick i)) := by
  -- The nodes are followed outwards, from the hole to the root.
  suffices hroot : ∀ t : ι → Tree, Tree.Around hole t →
      ∃ before after : List (VaryingFocus ι), (∀ f ∈ before, f.Outside hole) ∧
        (∀ f ∈ after, f.Outside hole) ∧ ∀ i,
          (rootFrom (t i) path).foci =
            before.map (·.pick i) ++ (preorderFrom (t i) path ++ after.map (·.pick i)) from
    hroot hole .hole
  induction path with
  | nil =>
    intro t _
    exact ⟨[], [], by simp, by simp, fun i => by simp [Tree.foci, preorder, rootFrom, ofRoot]⟩
  | cons frame path ih =>
    intro t ht
    have hplug : Tree.Around hole fun i => frame.plug (t i) := by
      simpa using (VaryingFrame.Around.of_const frame).plug ht
    obtain ⟨outer, outer', houter, houter', hwalk⟩ := ih _ hplug
    obtain ⟨inner, inner', hinner, hinner', hhere⟩ := exists_preorderFrom_plug frame path ht
    refine ⟨outer ++ inner, inner' ++ outer', List.forall_mem_append.2 ⟨houter, hinner⟩,
      List.forall_mem_append.2 ⟨hinner', houter'⟩, fun i => ?_⟩
    rw [rootFrom, hwalk, hhere]
    simp only [List.map_append, List.append_assoc]

end Walk

end TreeLayout
