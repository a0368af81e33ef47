import TreeLayout.Tree.Arena

/-!
# Filling an arena from a raw tree

Raw nodes wait on a stack, each with the number of its parent. The topmost one is checked and gets the
next row of the arena, and its children are put on the stack from the last to the first, so that the
first one comes next. The first raw node that fails its check decides the outcome.
-/

namespace TreeLayout

namespace RawNode

mutual
/-- The number of a raw node and those below it. -/
def size : RawNode → Nat
  | ⟨_, _, _, _, children⟩ => 1 + sizeAmong children

/-- The number of several raw nodes and those below them. -/
def sizeAmong : List RawNode → Nat
  | [] => 0
  | raw :: raws => raw.size + sizeAmong raws
end

/-- The text and the position of a raw node, if it passes its check. -/
def content (raw : RawNode) : Except TreeError (Option String × Position) :=
  match raw.kind with
  | .token kind => (tokenOf kind raw).map fun t => (some t.text, t.pos)
  | .construct kind => (constructPos kind raw.text raw.line raw.column).map fun pos => (none, pos)

/-- The children of a raw node, which wait for a parent. -/
def waiting (raw : RawNode) (parent : Nat) : List (RawNode × Option Nat) :=
  raw.children.map fun child => (child, some parent)

/-- The number of raw nodes that wait, with those below them. -/
def pendingSize : List (RawNode × Option Nat) → Nat
  | [] => 0
  | (raw, _) :: pending => raw.size + pendingSize pending

/-- Two stacks have the raw nodes of both. -/
theorem pendingSize_append (pending rest : List (RawNode × Option Nat)) :
    pendingSize (pending ++ rest) = pendingSize pending + pendingSize rest := by
  induction pending with
  | nil => exact (Nat.zero_add _).symm
  | cons entry pending ih =>
    rw [List.cons_append, pendingSize, ih, pendingSize, Nat.add_assoc]

/-- Where the children of a raw node wait in its place, one node less is waiting. -/
theorem pendingSize_pushAll (raw : RawNode) (parent : Nat) (pending : List (RawNode × Option Nat)) :
    pendingSize (pushAll pending (raw.waiting parent).reverse) + 1 = raw.size + pendingSize pending := by
  obtain ⟨kind, text, line, column, children⟩ := raw
  have hchildren : pendingSize (waiting ⟨kind, text, line, column, children⟩ parent) =
      sizeAmong children := by
    induction children with
    | nil => rfl
    | cons child children ih =>
      rw [waiting] at ih ⊢
      rw [List.map_cons, pendingSize, ih, sizeAmong]
  have hpushed : pushAll pending (waiting ⟨kind, text, line, column, children⟩ parent).reverse =
      waiting ⟨kind, text, line, column, children⟩ parent ++ pending := by
    simp [pushAll]
  rw [hpushed, pendingSize_append, hchildren, size]
  omega

end RawNode

namespace Arena

/-- Adds the raw nodes that wait, topmost first. -/
def load (a : Arena) (pending : List (RawNode × Option Nat)) : Except TreeError Arena :=
  match pending with
  | [] => .ok a
  | (raw, parent) :: pending =>
    match raw.content with
    | .error e => .error e
    | .ok (text, pos) =>
      (a.push raw.kind text pos parent).load (pushAll pending (raw.waiting a.size).reverse)
termination_by RawNode.pendingSize pending
decreasing_by
  have hsize := RawNode.pendingSize_pushAll raw a.size pending
  rw [RawNode.pendingSize]
  omega

end Arena

/-- The arena that a raw tree describes; its outermost node is a construct. -/
def RawNode.toArena (raw : RawNode) : Except TreeError Arena :=
  match raw.kind with
  | .token kind => .error (.tokenRoot kind)
  | .construct _ => (Arena.empty.load [(raw, none)]).map Arena.settle

end TreeLayout
