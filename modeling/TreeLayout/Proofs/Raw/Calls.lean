import TreeLayout.Proofs.Raw.Validation
import TreeLayout.Tree.Builder

/-!
# Raw trees handed to a builder

The nodes of a raw tree are handed to a builder in document order: a construct is opened, its
children are handed over, and it is closed; a token is put at its position (`RawNode.calls`). Over
an empty source the builder then gives the tree that is read from the raw tree (`build_calls`).

Whatever the builder holds already, the calls of a raw node together add the tree that is read from
it (`Builder.foldlM_calls`): they add what one call of `Builder.State.attach` does. The cursor stays
at the start throughout, which is where a construct without children is put on both ways.
-/

namespace TreeLayout

namespace RawNode

mutual
/-- The calls that hand a raw node to a builder, in document order. A token that is valid has all
its parts, so nothing stands in for them. -/
def calls : RawNode → List BuildCall
  | ⟨.token kind, text, line, column, _⟩ =>
    [.tokenAt kind (text.getD "") ⟨line.getD 0, column.getD 0⟩]
  | ⟨.construct kind, _, _, _, children⟩ => .open kind :: (callsAmong children ++ [.close])

/-- The calls that hand several raw nodes to a builder. -/
def callsAmong : List RawNode → List BuildCall
  | [] => []
  | raw :: raws => raw.calls ++ callsAmong raws
end

/-- No construct without children has a position of its own. -/
def EmptyUnplaced (raw : RawNode) : Prop :=
  ∀ n ∈ raw.nodes, n.kind.isToken = false → n.children = [] → n.line = none ∧ n.column = none

/-- The nodes of several raw trees are those of each of them. -/
theorem mem_nodesAmong {n : RawNode} {raws : List RawNode} :
    n ∈ nodesAmong raws ↔ ∃ raw ∈ raws, n ∈ raw.nodes := by
  induction raws with
  | nil => simp [nodesAmong]
  | cons raw raws ih => simp [nodesAmong, ih]

/-- The children of a raw node have no places for empty constructs either. -/
theorem EmptyUnplaced.child {kind : Kind} {text : Option String} {line column : Option Nat}
    {children : List RawNode} (h : EmptyUnplaced ⟨kind, text, line, column, children⟩)
    {raw : RawNode} (hraw : raw ∈ children) : raw.EmptyUnplaced := fun n hn =>
  h n (List.mem_cons_of_mem _ (mem_nodesAmong.2 ⟨raw, hraw, hn⟩))

end RawNode

namespace Builder

open RawNode (calls callsAmong EmptyUnplaced)

/-- Nothing is left of the source, and the cursor stands at the start. -/
structure AtStart (s : State) : Prop where
  /-- There is no text to skip. -/
  remaining : s.remaining = []
  /-- The cursor has not moved. -/
  pos : s.pos = ⟨1, 0⟩

variable {s : State}

/-- At the start of an empty source there are no blanks to skip. -/
theorem AtStart.skipBlanks (h : AtStart s) : s.skipBlanks = s := by
  obtain ⟨remaining, pos, stack, root⟩ := s
  obtain rfl : remaining = [] := h.remaining
  rfl

/-- A construct is opened at the start, unless there is a complete tree. -/
theorem AtStart.open (h : AtStart s) (kind : ConstructKind) :
    (∃ t, s.stack = [] ∧ s.root = some t ∧ s.open kind = .error (.secondRoot kind)) ∨
      s.open kind = .ok { s with stack := ⟨kind, ⟨1, 0⟩, []⟩ :: s.stack } := by
  unfold State.open
  simp only [h.skipBlanks, h.pos]
  cases hstack : s.stack with
  | cons c cs => exact .inr rfl
  | nil =>
    cases hroot : s.root with
    | some t => exact .inl ⟨t, rfl, rfl, rfl⟩
    | none => exact .inr rfl

/-- The calls of several raw nodes add the trees that are read from them to the open construct. -/
theorem foldlM_callsAmong {raws : List RawNode} {ts : List Tree}
    (hread : List.Forall₂ (fun raw t => raw.toNode = .ok t) raws ts)
    (hcalls : ∀ raw ∈ raws, ∀ {t}, raw.toNode = .ok t → ∀ {s}, AtStart s →
      (calls raw).foldlM State.step s = s.attach t)
    {c : OpenConstruct} {cs : List OpenConstruct} (hs : AtStart s) (hstack : s.stack = c :: cs) :
    (callsAmong raws).foldlM State.step s =
      .ok { s with stack := { c with children := ts.reverse ++ c.children } :: cs } := by
  induction hread generalizing s c with
  | nil =>
    rw [callsAmong, List.foldlM_nil, List.reverse_nil, List.nil_append, ← hstack]
    rfl
  | @cons raw t raws ts hraw hraws ih =>
    obtain ⟨hhere, hlater⟩ := List.forall_mem_cons.1 hcalls
    have hattach : s.attach t =
        .ok { s with stack := { c with children := t :: c.children } :: cs } := by
      rw [State.attach, hstack]
    rw [callsAmong, List.foldlM_append, hhere hraw hs, hattach, List.reverse_cons,
      List.append_assoc]
    exact ih hlater (s := { s with stack := { c with children := t :: c.children } :: cs })
      ⟨hs.remaining, hs.pos⟩ rfl

/-- The calls of a raw node add the tree that is read from it. -/
theorem foldlM_calls {raw : RawNode} {t : Tree} (hread : raw.toNode = .ok t)
    (hempty : raw.EmptyUnplaced) (hs : AtStart s) :
    (calls raw).foldlM State.step s = s.attach t := by
  induction raw using RawNode.children_induction generalizing t s with
  | node kind text line column children ih =>
    rcases RawNode.toNode_eq_ok hread with ⟨kind, text, line, column, hraw, hline, rfl⟩ |
      ⟨kind, line, column, children, ts, hraw, -, hchildren, rfl⟩
    · cases hraw
      have hzero : line ≠ 0 := by omega
      simp only [calls, List.foldlM_cons, List.foldlM_nil, bind_pure]
      simp [State.step, State.tokenAt, State.attachToken, hzero]
    · cases hraw
      rw [calls, List.foldlM_cons, State.step]
      rcases hs.open kind with ⟨r, hstack, hroot, hopen⟩ | hopen
      · rw [hopen, State.attach, hstack, hroot, Tree.kind_construct]
        rfl
      · have hbelow := foldlM_callsAmong hchildren
          (fun raw hraw {t} hread {s} hs => ih raw hraw hread (hempty.child hraw) hs)
          (s := { s with stack := ⟨kind, ⟨1, 0⟩, []⟩ :: s.stack }) ⟨hs.remaining, hs.pos⟩ rfl
        -- Only a construct without children stands at its own position, and it has none.
        have hpos : Tree.construct kind ⟨line.getD 1, column.getD 0⟩ ts =
            Tree.construct kind ⟨1, 0⟩ ts := by
          cases hchildren with
          | nil =>
            obtain ⟨rfl, rfl⟩ := hempty _ List.mem_cons_self rfl rfl
            rfl
          | cons => rfl
        calc (s.open kind >>= fun s =>
              (callsAmong children ++ [BuildCall.close]).foldlM State.step s)
          _ = ((callsAmong children).foldlM State.step
                { s with stack := ⟨kind, ⟨1, 0⟩, []⟩ :: s.stack } >>= State.close) := by
              rw [hopen]
              change List.foldlM _ _ _ = _
              simp only [List.foldlM_append, List.foldlM_cons, List.foldlM_nil, bind_pure]
              rfl
          _ = State.close { s with stack := ⟨kind, ⟨1, 0⟩, ts.reverse ++ []⟩ :: s.stack } := by
              rw [hbelow]
              rfl
          _ = s.attach (.construct kind ⟨line.getD 1, column.getD 0⟩ ts) := by
              rw [hpos, State.close]
              simp only [OpenConstruct.toTree, List.append_nil, List.reverse_reverse]

end Builder

/-- A builder that is handed the nodes of a valid raw tree in document order, over an empty source,
gives the tree that is read from it, if no construct without children has a position of its own. -/
theorem build_calls {raw : RawNode} {t : Tree} (hread : raw.toTree = .ok t)
    (hempty : raw.EmptyUnplaced) : Builder.build "" raw.calls = .ok t := by
  obtain ⟨hnode, kind, hkind⟩ := RawNode.toTree_eq_ok hread
  have hrun : raw.calls.foldlM Builder.State.step (.start "") =
      .ok { Builder.State.start "" with root := some t } :=
    Builder.foldlM_calls hnode hempty ⟨rfl, rfl⟩
  rw [Builder.build, hrun]
  rcases RawNode.toNode_eq_ok hnode with ⟨_, _, _, _, rfl, -, -⟩ | ⟨_, _, _, _, ts, -, -, -, rfl⟩
  · cases hkind
  · cases ts <;> rfl

end TreeLayout
