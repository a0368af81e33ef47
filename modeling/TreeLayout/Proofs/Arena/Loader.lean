import TreeLayout.Proofs.Arena.Filling
import TreeLayout.Proofs.Arena.Ways
import TreeLayout.Proofs.Raw.Validation
import TreeLayout.Tree.Arena.Loader

/-!
# Arenas of raw trees

The stack of raw nodes that wait is worked off in document order, although the children of a node are
put on it from the last to the first. What comes of the topmost raw node is what comes of reading it
by recursion (`RawNode.loads_toNode`): its tree is added to the arena before anything below it on the
stack is looked at, or its fault ends the work. So an arena is filled exactly if the raw tree can be
read, it is the arena of the tree that is read (`RawNode.toArena_eq`), and what is known of reading raw
trees is known of filling arenas (`RawNode.toArena_validates`).
-/

namespace TreeLayout

namespace RawNode

/-- What comes of the topmost raw node, if reading it has an outcome: its tree is added, and the work
goes on with those below it, or its fault is that of the whole. -/
def Loads (raw : RawNode) : Except TreeError Tree → Prop
  | .ok t => ∃ p : Placed, p.toTree = t ∧ ∀ (a : Arena) parent pending,
    a.load ((raw, parent) :: pending) = (a.add parent p).load pending
  | .error e => ∀ (a : Arena) parent pending, a.load ((raw, parent) :: pending) = .error e

/-- What comes of several raw nodes with one parent on top of the stack. -/
def LoadsAmong (raws : List RawNode) : Except TreeError (List Tree) → Prop
  | .ok ts => ∃ ps : List Placed, Placed.toTrees ps = ts ∧ ∀ (a : Arena) parent pending,
    a.load (raws.map (fun raw => (raw, some parent)) ++ pending) = (a.addAmong parent ps).load pending
  | .error e => ∀ (a : Arena) parent pending,
    a.load (raws.map (fun raw => (raw, some parent)) ++ pending) = .error e

/-- Several raw nodes with one parent come off the stack one by one. -/
theorem loadsAmong_toNodes {raws : List RawNode} (h : ∀ raw ∈ raws, raw.Loads raw.toNode) :
    LoadsAmong raws (toNodes raws) := by
  induction raws with
  | nil => exact ⟨[], rfl, fun a parent pending => rfl⟩
  | cons raw raws ih =>
    obtain ⟨hraw, hraws⟩ := List.forall_mem_cons.1 h
    have ih := ih hraws
    rw [toNodes]
    cases hnode : raw.toNode with
    | error e =>
      rw [hnode] at hraw
      exact fun a parent pending => hraw a (some parent) _
    | ok t =>
      rw [hnode] at hraw
      obtain ⟨p, hp, hadd⟩ := hraw
      cases hnodes : toNodes raws with
      | error e =>
        rw [hnodes] at ih
        intro a parent pending
        rw [List.map_cons, List.cons_append, hadd]
        exact ih _ parent pending
      | ok ts =>
        rw [hnodes] at ih
        obtain ⟨ps, hps, haddAmong⟩ := ih
        refine ⟨p :: ps, by rw [Placed.toTrees, hp, hps], fun a parent pending => ?_⟩
        rw [List.map_cons, List.cons_append, hadd, haddAmong, Arena.addAmong]

/-- A token has the content of the token that is read from it. -/
theorem content_token (kind : TokenKind) (text : Option String) (line column : Option Nat)
    (children : List RawNode) : content ⟨.token kind, text, line, column, children⟩ =
      (tokenOf kind ⟨.token kind, text, line, column, children⟩).map fun t => (some t.text, t.pos) :=
  rfl

/-- A construct has no text, and the position that is read for it. -/
theorem content_construct (kind : ConstructKind) (text : Option String) (line column : Option Nat)
    (children : List RawNode) : content ⟨.construct kind, text, line, column, children⟩ =
      (constructPos kind text line column).map fun pos => (none, pos) :=
  rfl

/-- The topmost raw node is worked off as it is read by recursion. -/
theorem loads_toNode (raw : RawNode) : raw.Loads raw.toNode := by
  induction raw using children_induction with
  | node kind text line column children ih =>
    cases kind with
    | token kind =>
      rw [toNode]
      rcases tokenOf_cases ⟨.token kind, text, line, column, children⟩ rfl with
        ⟨e, he, -⟩ | ⟨text, line, column, hraw, -, ht⟩
      · rw [he]
        intro a parent pending
        rw [Arena.load, content_token, he, Except.map]
      · rw [ht]
        cases hraw
        refine ⟨.token kind text ⟨line, column⟩, rfl, fun a parent pending => ?_⟩
        rw [Arena.load, content_token, ht, Except.map]
        rfl
    | construct kind =>
      have hchildren := loadsAmong_toNodes ih
      rw [toNode]
      rcases constructPos_cases kind text line column children with ⟨e, he, -⟩ | ⟨-, hpos⟩
      · rw [he]
        intro a parent pending
        rw [Arena.load, content_construct, he, Except.map]
      · rw [hpos]
        -- The children come on top of what was pending, in document order, and the row of the
        -- construct is their parent.
        have hload (a : Arena) (parent : Option Nat) (pending : List (RawNode × Option Nat)) :
            a.load ((⟨.construct kind, text, line, column, children⟩, parent) :: pending) =
              (a.push kind none ⟨line.getD 1, column.getD 0⟩ parent).load
                (children.map (fun raw => (raw, some a.size)) ++ pending) := by
          rw [Arena.load, content_construct, hpos, Except.map]
          simp only [pushAll_reverse]
          rfl
        cases hnodes : toNodes children with
        | error e =>
          rw [hnodes] at hchildren
          intro a parent pending
          rw [hload, hchildren]
        | ok ts =>
          rw [hnodes] at hchildren
          obtain ⟨ps, hps, hadd⟩ := hchildren
          refine ⟨.construct kind ⟨line.getD 1, column.getD 0⟩ ps, ?_, fun a parent pending => ?_⟩
          · rw [Placed.toTree, hps]
          · rw [hload, hadd, Arena.add]

/-- The arena that is filled from a raw tree is that of the tree which is read from it, and the faults
are the same. -/
theorem toArena_eq (raw : RawNode) : raw.toArena = raw.toTree.map Tree.toArena := by
  unfold toArena toTree
  cases raw.kind with
  | token kind => rfl
  | construct kind =>
    have hloads := loads_toNode raw
    cases hnode : raw.toNode with
    | error e =>
      rw [hnode] at hloads
      have hload : Arena.empty.load [(raw, none)] = .error e := hloads _ none []
      rw [hload]
      rfl
    | ok t =>
      rw [hnode] at hloads
      obtain ⟨p, rfl, hadd⟩ := hloads
      have hload : Arena.empty.load [(raw, none)] = .ok (Arena.empty.add none p) := by
        rw [hadd, Arena.load]
      rw [hload]
      exact congrArg Except.ok p.settle_add

/-- Which raw trees fill an arena, what the others are told, and what is filled in. An arena is filled
exactly if the outermost node is a construct and each node is valid. If the outermost node is a token
this is the fault, and else the fault is that of the first node in document order that fails. The raw
form of the arena is the raw tree without the positions of constructs. -/
theorem toArena_validates (raw : RawNode) :
    ((∃ a, raw.toArena = .ok a) ↔ raw.kind.isToken = false ∧ ∀ n ∈ raw.nodes, n.Valid) ∧
      (∀ e, raw.toArena = .error e ↔ (∃ kind, raw.kind = .token kind ∧ e = .tokenRoot kind) ∨
        raw.kind.isToken = false ∧ FirstFails raw.nodes e) ∧
      ∀ a, raw.toArena = .ok a → a.toRaw? = some raw.unplaced := by
  obtain ⟨hok, herror, hraw⟩ := toTree_validates raw
  rw [← hok, toArena_eq]
  simp only [← herror]
  cases htree : raw.toTree with
  | error e => simp [Except.map]
  | ok t =>
    refine ⟨by simp [Except.map], by simp [Except.map], ?_⟩
    rintro a ⟨⟩
    rw [Tree.toRaw?_toArena, hraw t htree]

end RawNode

end TreeLayout
