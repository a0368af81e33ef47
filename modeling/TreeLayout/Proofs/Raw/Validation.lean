import Mathlib.Data.List.Forall2
import TreeLayout.Tree.Raw

/-!
# Which raw trees are accepted

What is asked of a raw node concerns that node alone (`RawNode.Valid`), and each way to fail has an
error of its own (`RawNode.Fails`). A raw tree is accepted exactly if all its nodes are valid. If
not, the error is that of the first node in document order that fails (`RawNode.FirstFails`). The
raw form of the tree that is read is the raw tree without the positions of constructs
(`RawNode.unplaced`).

A node and those below it are read in document order, so the outcome for a node is put together from
the check of the node and the outcome for its children (`RawNode.outcome_toNode`).
-/

namespace TreeLayout

/-- What holds of a raw node if it does of its children, holds of all raw nodes. -/
@[elab_as_elim]
theorem RawNode.children_induction {motive : RawNode → Prop} (raw : RawNode)
    (node : ∀ kind text line column children, (∀ raw ∈ children, motive raw) →
      motive ⟨kind, text, line, column, children⟩) : motive raw :=
  @RawNode.rec motive (fun raws => ∀ raw ∈ raws, motive raw) node (by simp)
    (fun _ _ hhead htail => by simpa using ⟨hhead, htail⟩) raw

namespace RawNode

/-! ## Nodes in document order -/

mutual
/-- A raw node and those below it, in document order. -/
def nodes : RawNode → List RawNode
  | ⟨kind, text, line, column, children⟩ =>
    ⟨kind, text, line, column, children⟩ :: nodesAmong children

/-- Several raw nodes and those below them, in document order. -/
def nodesAmong : List RawNode → List RawNode
  | [] => []
  | raw :: raws => raw.nodes ++ nodesAmong raws
end

mutual
/-- A raw node in which no construct has a line or a column. -/
def unplaced : RawNode → RawNode
  | ⟨.token kind, text, line, column, children⟩ =>
    ⟨.token kind, text, line, column, unplacedAmong children⟩
  | ⟨.construct kind, text, _, _, children⟩ =>
    ⟨.construct kind, text, none, none, unplacedAmong children⟩

/-- Several raw nodes in which no construct has a line or a column. -/
def unplacedAmong : List RawNode → List RawNode
  | [] => []
  | raw :: raws => raw.unplaced :: unplacedAmong raws
end

/-! ## Single nodes -/

/-- What is asked of a node by itself. A token has a text, a line, which is not zero, a column, and
no children. A construct has no text; if it has a line, this is not zero. -/
def Valid (raw : RawNode) : Prop :=
  match raw.kind with
  | .token _ => raw.text ≠ none ∧ (∃ line, raw.line = some line ∧ 1 ≤ line) ∧ raw.column ≠ none ∧
    raw.children = []
  | .construct _ => raw.text = none ∧ ∀ line, raw.line = some line → 1 ≤ line

/-- How a node fails by itself. Of several faults of one node, children of a token come first and
line zero comes last. -/
inductive Fails (raw : RawNode) : TreeError → Prop
  /-- A token has children. -/
  | children {kind : TokenKind} (hkind : raw.kind = kind) (h : raw.children ≠ []) :
    raw.Fails (.tokenWithChildren kind)
  /-- A token lacks its text or its position. -/
  | incomplete {kind : TokenKind} (hkind : raw.kind = kind) (hchildren : raw.children = [])
    (h : raw.text = none ∨ raw.line = none ∨ raw.column = none) :
    raw.Fails (.incompleteToken kind)
  /-- A token stands on line zero. -/
  | tokenLine {kind : TokenKind} (hkind : raw.kind = kind) (hchildren : raw.children = [])
    (htext : raw.text ≠ none) (hcolumn : raw.column ≠ none) (h : raw.line = some 0) :
    raw.Fails (.zeroLine kind)
  /-- A construct has a text. -/
  | text {kind : ConstructKind} (hkind : raw.kind = kind) (h : raw.text ≠ none) :
    raw.Fails (.textOnConstruct kind)
  /-- A construct stands on line zero. -/
  | constructLine {kind : ConstructKind} (hkind : raw.kind = kind) (htext : raw.text = none)
    (h : raw.line = some 0) : raw.Fails (.zeroLine kind)

variable {raw : RawNode} {nodes others : List RawNode} {e e' : TreeError}

/-- A raw node that fails is not valid. -/
theorem Fails.not_valid (h : raw.Fails e) : ¬ raw.Valid := by
  intro hvalid
  unfold Valid at hvalid
  cases h with
  | children hkind h =>
    rw [hkind] at hvalid
    exact h hvalid.2.2.2
  | incomplete hkind _ h =>
    rw [hkind] at hvalid
    obtain ⟨htext, ⟨line, hline, -⟩, hcolumn, -⟩ := hvalid
    simp [htext, hline, hcolumn] at h
  | tokenLine hkind _ _ _ h =>
    rw [hkind] at hvalid
    obtain ⟨-, ⟨line, hline, hpos⟩, -, -⟩ := hvalid
    rw [h] at hline
    cases hline
    omega
  | text hkind h =>
    rw [hkind] at hvalid
    exact h hvalid.1
  | constructLine hkind _ h =>
    rw [hkind] at hvalid
    have hpos := hvalid.2 0 h
    omega

/-- A node fails in one way only. -/
theorem Fails.unique (h : raw.Fails e) (h' : raw.Fails e') : e = e' := by
  cases h <;> cases h' <;> simp_all

/-- A token is read if it is valid, and its fault is reported if not. -/
theorem tokenOf_cases (raw : RawNode) {kind : TokenKind} (hkind : raw.kind = kind) :
    (∃ e, tokenOf kind raw = .error e ∧ raw.Fails e) ∨
      ∃ text line column, raw = ⟨kind, some text, some line, some column, []⟩ ∧ 1 ≤ line ∧
        tokenOf kind raw = .ok (.token kind text ⟨line, column⟩) := by
  unfold tokenOf
  split
  · rename_i hchildren
    exact .inl ⟨_, rfl, .children hkind (by simpa using hchildren)⟩
  · rename_i hchildren
    have hchildren : raw.children = [] := by simpa using hchildren
    split
    · rename_i text line column htext hline hcolumn
      split
      · rename_i hzero
        subst hzero
        exact .inl ⟨_, rfl, .tokenLine hkind hchildren (by simp [htext]) (by simp [hcolumn]) hline⟩
      · rename_i hzero
        refine .inr ⟨text, line, column, ?_, by omega, rfl⟩
        cases raw
        simp_all
    · rename_i hpart
      refine .inl ⟨_, rfl, .incomplete hkind hchildren ?_⟩
      cases htext : raw.text <;> cases hline : raw.line <;> cases hcolumn : raw.column <;> simp_all

/-- A construct is read if it is valid, and its fault is reported if not. -/
theorem constructPos_cases (kind : ConstructKind) (text : Option String) (line column : Option Nat)
    (children : List RawNode) :
    (∃ e, constructPos kind text line column = .error e ∧
        Fails ⟨kind, text, line, column, children⟩ e) ∨
      Valid ⟨kind, text, line, column, children⟩ ∧
        constructPos kind text line column = .ok ⟨line.getD 1, column.getD 0⟩ := by
  unfold constructPos
  split
  · rename_i htext
    exact .inl ⟨_, rfl, .text rfl (by simpa [Option.isSome_iff_ne_none] using htext)⟩
  · rename_i htext
    have htext : text = none := by simpa using htext
    split
    · rename_i hline
      exact .inl ⟨_, rfl, .constructLine rfl htext hline⟩
    · rename_i hline
      refine .inr ⟨⟨htext, fun n hn => ?_⟩, rfl⟩
      rcases Nat.eq_zero_or_pos n with rfl | hpos
      · exact absurd hn hline
      · exact hpos

/-! ## What is read -/

/-- Several raw nodes are read one by one. -/
theorem toNodes_eq_ok_iff {raws : List RawNode} {ts : List Tree} :
    toNodes raws = .ok ts ↔ List.Forall₂ (fun raw t => raw.toNode = .ok t) raws ts := by
  induction raws generalizing ts with
  | nil => simp [toNodes, eq_comm]
  | cons raw raws ih =>
    rw [toNodes, List.forall₂_cons_left_iff]
    constructor
    · intro h
      cases hraw : raw.toNode with
      | error e =>
        rw [hraw] at h
        cases h
      | ok t =>
        cases hraws : toNodes raws with
        | error e =>
          rw [hraw, hraws] at h
          cases h
        | ok us =>
          rw [hraw, hraws] at h
          cases h
          exact ⟨t, us, rfl, ih.1 hraws, rfl⟩
    · rintro ⟨t, us, hraw, hraws, rfl⟩
      rw [hraw, ih.2 hraws]
      rfl

/-- A tree that is read with others stands for one of the raw nodes. -/
theorem exists_toNode_of_mem {raws : List RawNode} {ts : List Tree}
    (h : List.Forall₂ (fun raw t => raw.toNode = .ok t) raws ts) {t : Tree} (ht : t ∈ ts) :
    ∃ raw ∈ raws, raw.toNode = .ok t := by
  induction h with
  | nil => cases ht
  | @cons raw u raws us hraw _ ih =>
    rcases List.mem_cons.1 ht with rfl | ht
    · exact ⟨raw, List.mem_cons_self, hraw⟩
    · obtain ⟨raw', hmem, hraw'⟩ := ih ht
      exact ⟨raw', List.mem_cons_of_mem raw hmem, hraw'⟩

/-- A raw node that is read is a token with all its parts, or a construct whose children are read. A
construct that turns out to have none stands at its own position, or else at the start. -/
theorem toNode_eq_ok {t : Tree} (h : raw.toNode = .ok t) :
    (∃ kind text line column, raw = ⟨.token kind, some text, some line, some column, []⟩ ∧
        1 ≤ line ∧ t = .token kind text ⟨line, column⟩) ∨
      ∃ kind line column children ts, raw = ⟨.construct kind, none, line, column, children⟩ ∧
        (∀ n, line = some n → 1 ≤ n) ∧
        List.Forall₂ (fun raw t => raw.toNode = .ok t) children ts ∧
        t = .construct kind ⟨line.getD 1, column.getD 0⟩ ts := by
  obtain ⟨kind, text, line, column, children⟩ := raw
  cases kind with
  | token kind =>
    rw [toNode] at h
    rcases tokenOf_cases ⟨.token kind, text, line, column, children⟩ rfl with
      ⟨e, he, -⟩ | ⟨text, line, column, hraw, hline, ht⟩
    · rw [he] at h
      cases h
    · rw [ht] at h
      cases h
      exact .inl ⟨kind, text, line, column, hraw, hline, rfl⟩
  | construct kind =>
    rw [toNode] at h
    rcases constructPos_cases kind text line column children with ⟨e, he, -⟩ | ⟨hvalid, hpos⟩
    · rw [he] at h
      cases h
    · rw [hpos] at h
      cases hchildren : toNodes children with
      | error e =>
        rw [hchildren] at h
        cases h
      | ok ts =>
        rw [hchildren] at h
        cases h
        obtain ⟨rfl, hline⟩ := hvalid
        have hread := toNodes_eq_ok_iff.1 hchildren
        exact .inr ⟨kind, line, column, children, ts, rfl, hline, hread, rfl⟩

/-- A raw tree that is read is a construct that is read. -/
theorem toTree_eq_ok {t : Tree} (h : raw.toTree = .ok t) :
    raw.toNode = .ok t ∧ ∃ kind, raw.kind = .construct kind := by
  unfold toTree at h
  split at h
  · cases h
  · exact ⟨h, _, by assumption⟩

/-! ## The first node that fails -/

/-- Of several nodes one fails, and all before it are valid. -/
def FirstFails (nodes : List RawNode) (e : TreeError) : Prop :=
  ∃ before raw after, nodes = before ++ raw :: after ∧ (∀ n ∈ before, n.Valid) ∧ raw.Fails e

/-- A raw node that fails is the first one to fail if it comes first. -/
theorem Fails.first (h : raw.Fails e) (nodes : List RawNode) : FirstFails (raw :: nodes) e :=
  ⟨[], raw, nodes, rfl, by simp, h⟩

/-- After valid raw nodes the first failure is the same. -/
theorem FirstFails.after (h : FirstFails nodes e) (hothers : ∀ n ∈ others, n.Valid) :
    FirstFails (others ++ nodes) e := by
  obtain ⟨before, raw, after, rfl, hbefore, hfails⟩ := h
  refine ⟨others ++ before, raw, after, by simp, ?_, hfails⟩
  exact List.forall_mem_append.2 ⟨hothers, hbefore⟩

/-- What comes after the first failure does not matter. -/
theorem FirstFails.before (h : FirstFails nodes e) (others : List RawNode) :
    FirstFails (nodes ++ others) e := by
  obtain ⟨before, raw, after, rfl, hbefore, hfails⟩ := h
  exact ⟨before, raw, after ++ others, by simp, hbefore, hfails⟩

/-- Where there is a first failure, not all raw nodes are valid. -/
theorem FirstFails.not_valid (h : FirstFails nodes e) : ¬ ∀ n ∈ nodes, n.Valid := by
  obtain ⟨before, raw, after, rfl, -, hfails⟩ := h
  exact fun hvalid => hfails.not_valid (hvalid raw (by simp))

/-- The first failure is that of the first raw node, or that of the others if the first one is
valid. -/
theorem firstFails_cons :
    FirstFails (raw :: nodes) e ↔ raw.Fails e ∨ raw.Valid ∧ FirstFails nodes e := by
  constructor
  · rintro ⟨_ | ⟨n, before⟩, m, after, heq, hbefore, hfails⟩
    · cases heq
      exact .inl hfails
    · cases heq
      obtain ⟨hvalid, hbefore⟩ := List.forall_mem_cons.1 hbefore
      exact .inr ⟨hvalid, before, m, after, rfl, hbefore, hfails⟩
  · rintro (hfails | ⟨hvalid, before, m, after, rfl, hbefore, hfails⟩)
    · exact hfails.first nodes
    · exact ⟨raw :: before, m, after, rfl, List.forall_mem_cons.2 ⟨hvalid, hbefore⟩, hfails⟩

/-- There is one first node that fails. -/
theorem FirstFails.unique (h : FirstFails nodes e) (h' : FirstFails nodes e') : e = e' := by
  induction nodes with
  | nil =>
    obtain ⟨before, raw, after, heq, -⟩ := h
    simp at heq
  | cons raw nodes ih =>
    rcases firstFails_cons.1 h with hfails | ⟨hvalid, hlater⟩
    · rcases firstFails_cons.1 h' with hfails' | ⟨hvalid, -⟩
      · exact hfails.unique hfails'
      · exact absurd hvalid hfails.not_valid
    · rcases firstFails_cons.1 h' with hfails' | ⟨-, hlater'⟩
      · exact absurd hvalid hfails'.not_valid
      · exact ih hlater hlater'

/-! ## Whole raw trees -/

/-- What comes of reading a raw node: if all nodes are valid, a tree of the same raw form apart from
positions of constructs, and else the error of the first node that fails. -/
def Outcome (raw : RawNode) : Except TreeError Tree → Prop
  | .ok t => (∀ n ∈ raw.nodes, n.Valid) ∧ t.toRaw = raw.unplaced
  | .error e => FirstFails raw.nodes e

/-- What comes of reading several raw nodes. -/
def OutcomeAmong (raws : List RawNode) : Except TreeError (List Tree) → Prop
  | .ok ts => (∀ n ∈ nodesAmong raws, n.Valid) ∧ Tree.toRawAmong ts = unplacedAmong raws
  | .error e => FirstFails (nodesAmong raws) e

/-- Several raw nodes come out as they should if each one does. -/
theorem outcomeAmong_toNodes {raws : List RawNode} (h : ∀ raw ∈ raws, raw.Outcome raw.toNode) :
    OutcomeAmong raws (toNodes raws) := by
  induction raws with
  | nil => exact ⟨by simp [nodesAmong], rfl⟩
  | cons raw raws ih =>
    obtain ⟨hraw, hraws⟩ := List.forall_mem_cons.1 h
    have ih := ih hraws
    rw [toNodes]
    cases hnode : raw.toNode with
    | error e =>
      rw [hnode] at hraw
      exact hraw.before _
    | ok t =>
      rw [hnode] at hraw
      cases hnodes : toNodes raws with
      | error e =>
        rw [hnodes] at ih
        exact ih.after hraw.1
      | ok ts =>
        rw [hnodes] at ih
        refine ⟨List.forall_mem_append.2 ⟨hraw.1, ih.1⟩, ?_⟩
        rw [Tree.toRawAmong, unplacedAmong, hraw.2, ih.2]

/-- The raw form of a construct has no place. -/
theorem toRaw_construct (kind : ConstructKind) (pos : Position) (ts : List Tree) :
    (Tree.construct kind pos ts).toRaw = ⟨kind, none, none, none, Tree.toRawAmong ts⟩ := by
  cases ts <;> rfl

/-- A raw node comes out as it should. -/
theorem outcome_toNode (raw : RawNode) : raw.Outcome raw.toNode := by
  induction raw using children_induction with
  | node kind text line column children ih =>
    cases kind with
    | token kind =>
      rw [toNode]
      rcases tokenOf_cases ⟨.token kind, text, line, column, children⟩ rfl with
        ⟨e, he, hfails⟩ | ⟨text, line, column, hraw, hline, ht⟩
      · rw [he]
        exact hfails.first _
      · rw [ht]
        cases hraw
        refine ⟨?_, rfl⟩
        simpa [nodes, nodesAmong, Valid] using hline
    | construct kind =>
      have hchildren := outcomeAmong_toNodes ih
      rw [toNode]
      rcases constructPos_cases kind text line column children with ⟨e, he, hfails⟩ | ⟨hvalid, hpos⟩
      · rw [he]
        exact hfails.first _
      · rw [hpos]
        cases hnodes : toNodes children with
        | error e =>
          rw [hnodes] at hchildren
          exact firstFails_cons.2 (.inr ⟨hvalid, hchildren⟩)
        | ok ts =>
          rw [hnodes] at hchildren
          refine ⟨List.forall_mem_cons.2 ⟨hvalid, hchildren.1⟩, ?_⟩
          obtain rfl : text = none := hvalid.1
          rw [toRaw_construct, hchildren.2, unplaced]

/-- Which raw trees are accepted, what the others are told, and what is read. A raw tree is accepted
exactly if its outermost node is a construct and each node is valid. If the outermost node is a
token this is the fault, and else the fault is that of the first node in document order that fails.
The tree that is read has the raw form that was read, without the positions of constructs. -/
theorem toTree_validates (raw : RawNode) :
    ((∃ t, raw.toTree = .ok t) ↔ raw.kind.isToken = false ∧ ∀ n ∈ raw.nodes, n.Valid) ∧
      (∀ e, raw.toTree = .error e ↔ (∃ kind, raw.kind = .token kind ∧ e = .tokenRoot kind) ∨
        raw.kind.isToken = false ∧ FirstFails raw.nodes e) ∧
      ∀ t, raw.toTree = .ok t → t.toRaw = raw.unplaced := by
  unfold toTree
  cases hkind : raw.kind with
  | token kind => simp [Kind.isToken, eq_comm]
  | construct kind =>
    have houtcome := outcome_toNode raw
    simp only [Kind.isToken, reduceCtorEq, false_and, exists_false, false_or, true_and]
    cases hnode : raw.toNode with
    | error e =>
      rw [hnode] at houtcome
      have hfirst : FirstFails raw.nodes e := houtcome
      refine ⟨⟨nofun, fun hvalid => absurd hvalid hfirst.not_valid⟩, fun e' => ?_, nofun⟩
      exact ⟨fun h => Except.error.inj h ▸ hfirst, fun h => by rw [hfirst.unique h]⟩
    | ok t =>
      rw [hnode] at houtcome
      obtain ⟨hvalid, hraw⟩ := houtcome
      refine ⟨⟨fun _ => hvalid, fun _ => ⟨t, rfl⟩⟩, fun e => ⟨nofun, ?_⟩, ?_⟩
      · exact fun hfirst => absurd hvalid hfirst.not_valid
      · rintro t' ⟨⟩
        exact hraw

-- The token deep in the first child stands before the second child, which has a fault as well.
example : toTree ⟨ConstructKind.block, none, none, none,
    [⟨ConstructKind.block, none, none, none, [⟨TokenKind.semi, some ";", some 0, some 0, []⟩]⟩,
      ⟨ConstructKind.block, some "x", none, none, []⟩]⟩ = .error (.zeroLine TokenKind.semi) := rfl

end RawNode

end TreeLayout
