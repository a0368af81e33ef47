import TreeLayout.Proofs.Tree.Leaves
import TreeLayout.Proofs.Tree.Numbering
import TreeLayout.Tree.Builder
import TreeLayout.Tree.Raw

/-!
# Trees from calls and from raw nodes

Each node of a tree is added by one call to the builder or stands for one raw node. The nodes of the
tree in document order are those calls, or those raw nodes, in the order in which they come
(`Builder.labels_build`, `RawNode.labels_toTree`): the builder keeps what was added so far on its
stack, and no call changes the order of it (`Builder.Holds`). With the numbers of the nodes this
gives the shape of a tree that was built (`Tree.WellIndexed`).
-/

namespace TreeLayout

/-- What a node shows by itself: its kind, and the text that only tokens have. -/
abbrev Label := Kind × Option String

namespace Tree

/-- What a node shows by itself. -/
def label : Tree → Label
  | .token kind text _ => (kind, some text)
  | .empty kind _ => (kind, none)
  | .node kind _ _ => (kind, none)

mutual
/-- What the nodes of a tree show, in document order. -/
def labels : Tree → List Label
  | .token kind text _ => [(kind, some text)]
  | .empty kind _ => [(kind, none)]
  | .node kind first rest => (.construct kind, none) :: (first.labels ++ labelsAmong rest)

/-- What the nodes of several trees show, in document order. -/
def labelsAmong : List Tree → List Label
  | [] => []
  | t :: ts => t.labels ++ labelsAmong ts
end

/-- The labels of two lists of trees are those of both. -/
theorem labelsAmong_append (ts us : List Tree) :
    labelsAmong (ts ++ us) = labelsAmong ts ++ labelsAmong us := by
  induction ts with
  | nil => rfl
  | cons t ts ih => rw [List.cons_append, labelsAmong, labelsAmong, ih, List.append_assoc]

/-- The labels of a construct are its own and those of its children. -/
@[simp] theorem labels_construct (kind : ConstructKind) (pos : Position) (ts : List Tree) :
    (construct kind pos ts).labels = (.construct kind, none) :: labelsAmong ts := by
  cases ts <;> rfl

/-- The nodes below several trees have their labels, in the order of the document, if those of each
one have. -/
theorem label_preorderFromAmong (kind : ConstructKind) {ts : List Tree}
    (h : ∀ t ∈ ts, ∀ path, (Focus.preorderFrom t path).map (·.tree.label) = t.labels)
    (before : List Tree) (path : List Frame) :
    (Focus.preorderFromAmong kind before ts path).map (·.tree.label) = labelsAmong ts := by
  induction ts generalizing before with
  | nil => rfl
  | cons t ts ih =>
    have hlater := ih (fun t' ht' => h t' (List.mem_cons_of_mem t ht')) (t :: before)
    rw [Focus.preorderFromAmong, List.map_append, h t List.mem_cons_self, hlater, labelsAmong]

/-- The nodes of a tree have its labels, in the order of the document. -/
theorem label_preorderFrom (t : Tree) (path : List Frame) :
    (Focus.preorderFrom t path).map (·.tree.label) = t.labels := by
  induction t using children_induction generalizing path with
  | token | empty => rfl
  | node kind first rest hfirst hrest =>
    have hchildren := label_preorderFromAmong kind
      (List.forall_mem_cons.2 ⟨hfirst, hrest⟩) [] path
    rw [Focus.preorderFrom_node, List.map_cons, hchildren, labels, labelsAmong]
    rfl

end Tree

/-! ## Calls to the builder -/

/-- What the node shows that a call adds. -/
def BuildCall.label? : BuildCall → Option Label
  | .open kind => some (kind, none)
  | .close => none
  | .token kind text => some (kind, some text)
  | .tokenAt kind text _ => some (kind, some text)

namespace Builder

/-- What the nodes of the open constructs show, outermost first. -/
def labelsOpen : List OpenConstruct → List Label
  | [] => []
  | c :: cs => labelsOpen cs ++ (.construct c.kind, none) :: Tree.labelsAmong c.children.reverse

/-- A tree under construction holds the nodes that were added so far, in order. While constructs are
open there is no complete tree yet. -/
structure Holds (s : State) (added : List Label) : Prop where
  /-- The nodes are those of the complete tree, if there is one, or of the open constructs. -/
  labels : labelsOpen s.stack ++ (s.root.map Tree.labels).getD [] = added
  /-- Nothing is opened after the outermost node is complete. -/
  complete : s.root.isSome → s.stack = []

variable {s s' : State} {added : List Label}

/-- A construct is opened at the cursor after blanks, unless the outermost node is complete. -/
theorem open_eq_ok {kind : Kind} (h : s.open kind = .ok s') :
    ∃ k, kind = .construct k ∧ (s.stack = [] → s.root = none) ∧
      s' = { s.skipBlanks with stack := ⟨k, s.skipBlanks.pos, []⟩ :: s.stack } := by
  unfold State.open at h
  split at h
  · cases h
  · rename_i k
    simp only at h
    split at h
    · cases h
    · rename_i hopen
      cases h
      refine ⟨k, rfl, fun hstack => ?_, rfl⟩
      cases hroot : s.root with
      | none => rfl
      | some t => exact absurd hroot (hopen t hstack)

/-- A token is taken off the text at the cursor after blanks. -/
theorem token_eq_ok {kind : Kind} {text : String} (h : s.token kind text = .ok s') :
    ∃ after, s.skipBlanks.remaining = text.toList ++ after ∧ text ≠ "" ∧
      State.attachToken { s.skipBlanks with
        remaining := after, pos := advanceBy s.skipBlanks.pos text.toList } kind text
          s.skipBlanks.pos = .ok s' := by
  unfold State.token at h
  simp only at h
  split at h
  · cases h
  · rename_i after hafter
    split at h
    · cases h
    · rename_i htext
      refine ⟨after, (Text.append_of_dropStart? hafter).symm, ?_, h⟩
      rintro rfl
      exact htext rfl

/-- One more subtree adds its labels. -/
theorem Holds.attach {t : Tree} (h : Holds s added) (hs : s.attach t = .ok s') :
    Holds s' (added ++ t.labels) := by
  obtain ⟨rfl, hcomplete⟩ := h
  unfold State.attach at hs
  split at hs
  · rename_i c cs hstack
    cases hs
    have hroot : s.root = none := by
      cases hroot : s.root with
      | none => rfl
      | some t => simp [hroot, hstack] at hcomplete
    constructor
    · simp [hroot, hstack, labelsOpen, Tree.labelsAmong_append, Tree.labelsAmong]
    · simp [hroot]
  · rename_i hstack hroot
    cases hs
    constructor
    · simp [hroot, hstack, labelsOpen]
    · exact fun _ => hstack
  · cases hs

/-- One more token adds its label. -/
theorem Holds.attachToken {kind : Kind} {text : String} {pos : Position} (h : Holds s added)
    (hs : s.attachToken kind text pos = .ok s') : Holds s' (added ++ [(kind, some text)]) := by
  unfold State.attachToken at hs
  split at hs
  · exact h.attach hs
  · cases hs

/-- What is left when the innermost construct is taken off the stack. -/
theorem Holds.pop {c : OpenConstruct} {cs : List OpenConstruct} (h : Holds s added)
    (hstack : s.stack = c :: cs) :
    ∃ before, Holds { s with stack := cs } before ∧ added = before ++ c.toTree.labels := by
  obtain ⟨rfl, hcomplete⟩ := h
  have hroot : s.root = none := by
    cases hroot : s.root with
    | none => rfl
    | some t => simp [hroot, hstack] at hcomplete
  refine ⟨labelsOpen cs, ⟨by simp [hroot], by simp [hroot]⟩, ?_⟩
  simp [hroot, hstack, labelsOpen, OpenConstruct.toTree]

/-- A call adds its node after all others, or none. -/
theorem Holds.step {call : BuildCall} (h : Holds s added) (hs : s.step call = .ok s') :
    Holds s' (added ++ call.label?.toList) := by
  cases call with
  | «open» kind =>
    obtain ⟨k, rfl, hroot, rfl⟩ := open_eq_ok hs
    have hroot : s.root = none := by
      cases hroot' : s.root with
      | none => rfl
      | some t => exact hroot' ▸ hroot (h.complete (by simp [hroot']))
    obtain ⟨rfl, -⟩ := h
    constructor
    · simp [State.skipBlanks, hroot, labelsOpen, BuildCall.label?, Tree.labelsAmong]
    · simp [State.skipBlanks, hroot]
  | close =>
    rw [State.step, State.close] at hs
    split at hs
    · cases hs
    · rename_i c cs hstack
      obtain ⟨before, hbefore, rfl⟩ := h.pop hstack
      simpa [BuildCall.label?] using hbefore.attach hs
  | token kind text =>
    obtain ⟨after, -, -, hs⟩ := token_eq_ok hs
    -- The cursor moves, and nothing else changes before the token is added.
    refine Holds.attachToken ?_ hs
    exact ⟨h.labels, h.complete⟩
  | tokenAt kind text pos =>
    rw [State.step, State.tokenAt] at hs
    split at hs
    · cases hs
    · exact h.attachToken hs

/-- The first of several calls that all succeed, and the others. -/
theorem foldlM_cons_eq_ok {call : BuildCall} {calls : List BuildCall}
    (h : (call :: calls).foldlM State.step s = .ok s') :
    ∃ next, s.step call = .ok next ∧ calls.foldlM State.step next = .ok s' := by
  rw [List.foldlM_cons] at h
  cases hstep : s.step call with
  | error e =>
    rw [hstep] at h
    cases h
  | ok next =>
    rw [hstep] at h
    exact ⟨next, rfl, h⟩

/-- Several calls add the labels of those that open a construct or add a token. -/
theorem Holds.run {calls : List BuildCall} (h : Holds s added)
    (hs : calls.foldlM State.step s = .ok s') :
    Holds s' (added ++ calls.filterMap BuildCall.label?) := by
  induction calls generalizing s added with
  | nil =>
    cases hs
    simpa using h
  | cons call calls ih =>
    obtain ⟨next, hstep, hs⟩ := foldlM_cons_eq_ok hs
    have hrest := ih (h.step hstep) hs
    cases hlabel : call.label? <;> simpa [List.filterMap_cons, hlabel] using hrest

/-- A complete tree is the only thing that is left, and it is no token. -/
theorem finish_eq_ok {t : Tree} (h : s.finish = .ok t) :
    s.stack = [] ∧ s.root = some t ∧ t.isToken = false := by
  unfold State.finish at h
  split at h
  · cases h
  · cases h
  · cases h
  · rename_i htoken hstack hroot
    cases h
    refine ⟨hstack, hroot, ?_⟩
    cases t with
    | token k text pos => exact absurd rfl (htoken k text pos)
    | empty | node => rfl

/-- A tree that is built comes from the state after all calls. -/
theorem build_eq_ok {source : String} {calls : List BuildCall} {t : Tree}
    (h : build source calls = .ok t) :
    ∃ s, calls.foldlM State.step (.start source) = .ok s ∧ s.finish = .ok t := by
  unfold build at h
  cases hrun : calls.foldlM State.step (State.start source) with
  | error e =>
    rw [hrun] at h
    cases h
  | ok s =>
    rw [hrun] at h
    exact ⟨s, rfl, h⟩

/-- The nodes of a tree in document order are those that calls added, in the order of the calls. -/
theorem labels_build {source : String} {calls : List BuildCall} {t : Tree}
    (h : build source calls = .ok t) :
    t.labels = calls.filterMap BuildCall.label? ∧ t.isToken = false := by
  obtain ⟨s, hrun, hfinish⟩ := build_eq_ok h
  obtain ⟨hstack, hroot, htoken⟩ := finish_eq_ok hfinish
  have hstart : Holds (State.start source) [] := ⟨rfl, fun _ => rfl⟩
  have hlabels := (hstart.run hrun).labels
  rw [hstack, hroot] at hlabels
  exact ⟨by simpa [labelsOpen] using hlabels, htoken⟩

end Builder

/-! ## Raw nodes -/

namespace RawNode

mutual
/-- What a raw node and those below it show, in document order. -/
def labels : RawNode → List Label
  | ⟨kind, text, _, _, children⟩ => (kind, text) :: labelsAmong children

/-- What several raw nodes and those below them show, in document order. -/
def labelsAmong : List RawNode → List Label
  | [] => []
  | raw :: raws => raw.labels ++ labelsAmong raws
end

/-- A raw token is accepted with its text, without children. -/
theorem labels_tokenOf {kind : TokenKind} {raw : RawNode} {t : Tree} (hkind : raw.kind = kind)
    (h : tokenOf kind raw = .ok t) : t.labels = raw.labels := by
  obtain ⟨_, text, line, column, children⟩ := raw
  subst hkind
  unfold tokenOf at h
  split at h
  · cases h
  · rename_i hchildren
    obtain rfl : children = [] := by simpa using hchildren
    split at h
    · rename_i htext _ _
      split at h
      · cases h
      · cases h
        simp only at htext
        subst htext
        rfl
    · cases h

/-- A construct with a text does not pass its check. -/
theorem text_of_constructPos {kind : ConstructKind} {text : Option String}
    {line column : Option Nat} {pos : Position} (h : constructPos kind text line column = .ok pos) :
    text = none := by
  unfold constructPos at h
  split at h
  · cases h
  · rename_i htext
    simpa using htext

mutual
/-- The nodes of a tree are the raw nodes that it stands for. -/
theorem labels_toNode : ∀ (raw : RawNode) {t : Tree}, raw.toNode = .ok t → t.labels = raw.labels
  | ⟨.token kind, text, line, column, children⟩, t, h => by
    rw [toNode] at h
    exact labels_tokenOf rfl h
  | ⟨.construct kind, text, line, column, children⟩, t, h => by
    rw [toNode] at h
    cases hpos : constructPos kind text line column with
    | error e =>
      rw [hpos] at h
      cases h
    | ok pos =>
      cases hchildren : toNodes children with
      | error e =>
        rw [hpos, hchildren] at h
        cases h
      | ok ts =>
        rw [hpos, hchildren] at h
        cases h
        rw [Tree.labels_construct, labelsAmong_toNodes children hchildren, labels,
          text_of_constructPos hpos]

/-- Several trees have the labels of the raw nodes that they come from. -/
theorem labelsAmong_toNodes : ∀ (raws : List RawNode) {ts : List Tree}, toNodes raws = .ok ts →
    Tree.labelsAmong ts = labelsAmong raws
  | [], ts, h => by
    cases h
    rfl
  | raw :: raws, ts, h => by
    rw [toNodes] at h
    cases hraw : raw.toNode with
    | error e =>
      rw [hraw] at h
      cases h
    | ok t =>
      cases hraws : toNodes raws with
      | error e =>
        rw [hraw, hraws] at h
        cases h
      | ok us =>
        rw [hraw, hraws] at h
        cases h
        rw [Tree.labelsAmong, labelsAmong, labels_toNode raw hraw, labelsAmong_toNodes raws hraws]
end

/-- A raw construct becomes no token. -/
theorem isToken_toNode {kind : ConstructKind} {raw : RawNode} {t : Tree} (hkind : raw.kind = kind)
    (h : raw.toNode = .ok t) : t.isToken = false := by
  obtain ⟨_, text, line, column, children⟩ := raw
  subst hkind
  rw [toNode] at h
  cases hpos : constructPos kind text line column with
  | error e =>
    rw [hpos] at h
    cases h
  | ok pos =>
    cases hchildren : toNodes children with
    | error e =>
      rw [hpos, hchildren] at h
      cases h
    | ok ts =>
      rw [hpos, hchildren] at h
      cases h
      cases ts <;> rfl

/-- A tree has the labels of the raw tree that it comes from, and is no token. -/
theorem labels_toTree {raw : RawNode} {t : Tree} (h : raw.toTree = .ok t) :
    t.labels = raw.labels ∧ t.isToken = false := by
  unfold toTree at h
  split at h
  · cases h
  · rename_i kind hkind
    exact ⟨labels_toNode raw h, isToken_toNode hkind h⟩

end RawNode

/-! ## Trees that were built -/

/-- A tree is put together from nodes that came one after another: from calls to the builder, or
from the nodes of a raw tree. -/
inductive Tree.BuiltFrom (t : Tree) : List Label → Prop
  /-- The builder accepts all calls and the tree is complete. -/
  | calls (source : String) (calls : List BuildCall) (h : Builder.build source calls = .ok t) :
    t.BuiltFrom (calls.filterMap BuildCall.label?)
  /-- The raw tree is valid. -/
  | raw (raw : RawNode) (h : raw.toTree = .ok t) : t.BuiltFrom raw.labels

/-- A tree has the labels of what it was built from, and is no token. -/
theorem Tree.BuiltFrom.labels {t : Tree} {added : List Label} (h : t.BuiltFrom added) :
    t.labels = added ∧ t.isToken = false := by
  cases h with
  | calls source calls h => exact Builder.labels_build h
  | raw raw h => exact RawNode.labels_toTree h

/-- The shape of a tree whose nodes came in the order `added`. -/
structure Tree.WellIndexed (t : Tree) (added : List Label) : Prop where
  /-- The numbers of the nodes in document order count from zero. -/
  index : t.foci.map Focus.index = List.range added.length
  /-- The nodes in document order are those that were added, in this order. -/
  label : t.foci.map (·.tree.label) = added
  /-- The outermost node is the one without a parent, and it is a construct. -/
  root : t.kind.isToken = false ∧ ∀ f ∈ t.foci, f.parent? = none ↔ f.index = 0
  /-- A child belongs to the tree, comes after its parent, and knows its parent and its place. -/
  child : ∀ p ∈ t.foci, ∀ i f, p.child? i = some f →
    f ∈ t.foci ∧ p.index < f.index ∧ f.parent? = some p ∧ f.slot = i
  /-- A parent belongs to the tree and has the child at its place. -/
  parent : ∀ f ∈ t.foci, ∀ p, f.parent? = some p → p ∈ t.foci ∧ p.child? f.slot = some f
  /-- The siblings of a node are its parent's children at the places before and after it. -/
  sibling : ∀ f ∈ t.foci, f.next? = f.parent?.bind (·.child? (f.slot + 1))
    ∧ f.prev? = if f.slot = 0 then none else f.parent?.bind (·.child? (f.slot - 1))
  /-- To go to the next sibling and to go to the one before undo each other. -/
  inverse : ∀ f ∈ t.foci, ∀ g ∈ t.foci, f.next? = some g ↔ g.prev? = some f
  /-- Tokens have a text and no children; constructs have no text. -/
  token : ∀ f ∈ t.foci, f.tree.label.2.isSome = f.tree.kind.isToken
    ∧ (f.tree.kind.isToken → f.child? 0 = none)
  /-- A construct with children stands where the first leaf below it stands. -/
  position : ∀ f ∈ t.foci, f.child? 0 ≠ none → f.leftmost ∈ t.foci ∧ f.leftmost.child? 0 = none
    ∧ f.tree.pos = f.leftmost.tree.pos

/-- The first leaf below a node has no children. -/
theorem Focus.children_leftmostFrom (t : Tree) (path : List Frame) :
    (leftmostFrom t path).tree.children = [] :=
  (isLeafOf_leftmostFrom t path).childless

/-- A node without a first child has no children. -/
theorem Focus.child?_zero_eq_none {f : Focus} : f.child? 0 = none ↔ f.tree.children = [] := by
  rw [← Option.not_isSome_iff_eq_none, isSome_child?, ← List.length_eq_zero_iff]
  omega

/-- Every tree that is built is well-indexed, its nodes numbered in the order in which they came. -/
theorem wellIndexed_of_builtFrom {t : Tree} {added : List Label} (h : t.BuiltFrom added) :
    t.WellIndexed added := by
  obtain ⟨rfl, htoken⟩ := h.labels
  have hlabel : t.foci.map (·.tree.label) = t.labels := Tree.label_preorderFrom t []
  constructor
  case index =>
    have hlength := congrArg List.length (Tree.index_foci t)
    rw [Tree.index_foci, ← hlabel, List.length_map]
    rw [List.length_map, List.length_range] at hlength
    rw [hlength]
  case label => exact hlabel
  case root =>
    refine ⟨?_, fun f _ => Focus.parent?_eq_none_iff⟩
    cases t with
    | token => cases htoken
    | empty | node => rfl
  case child =>
    intro p hp i f hf
    obtain ⟨hparent, hslot⟩ := Focus.parent?_child? hf
    have hmem := Tree.mem_foci_of_root_eq hp (Focus.root_parent? hparent).symm
    exact ⟨hmem, Focus.index_lt_of_parent? hparent, hparent, hslot⟩
  case parent =>
    intro f hf p hp
    exact ⟨Tree.mem_foci_of_root_eq hf (Focus.root_parent? hp), Focus.child?_slot hp⟩
  case sibling => exact fun f _ => ⟨f.next?_eq_child?, f.prev?_eq_child?⟩
  case inverse => exact fun f _ g _ => Focus.next?_eq_some_iff
  case token =>
    rintro ⟨t, path⟩ -
    cases t with
    | token => exact ⟨rfl, fun _ => rfl⟩
    | empty | node => exact ⟨rfl, nofun⟩
  case position =>
    intro f hf _
    refine ⟨Tree.mem_foci_of_root_eq hf (Focus.root_leftmostFrom f.tree f.path), ?_, ?_⟩
    · exact Focus.child?_zero_eq_none.2 (Focus.children_leftmostFrom f.tree f.path)
    · rw [Focus.leftmost, Focus.tree_leftmostFrom, Tree.pos_leftmost]

end TreeLayout
