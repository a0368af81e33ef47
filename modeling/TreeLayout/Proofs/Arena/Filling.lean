import TreeLayout.Proofs.Arena.Rows
import TreeLayout.Proofs.Data.Traversal

/-!
# Arenas that are filled

A tree is put into an arena node by node, a construct before its children and each construct at a
position of its own (`Placed`). The rows that this adds are those of the tree but for the positions of
constructs with children (`Placed.forall₂_rowsFrom`), and these are what settling the arena puts right
(`Arena.settle_eq`): it goes through the rows from the last to the first, so the first child of a
construct has its position before the construct takes it over. What comes out is the arena of the tree
(`Placed.settle_add`).
-/

namespace TreeLayout

/-- A tree as it is put into an arena, with a position for each construct. -/
inductive Placed where
  /-- A token with its text and position. -/
  | token (kind : TokenKind) (text : String) (pos : Position)
  /-- A construct with the position at which it is added. -/
  | construct (kind : ConstructKind) (pos : Position) (children : List Placed)

namespace Placed

/-- What holds of tokens, and of a construct if it does of its children, holds of all. -/
@[elab_as_elim]
theorem children_induction {motive : Placed → Prop} (p : Placed)
    (token : ∀ kind text pos, motive (.token kind text pos))
    (construct : ∀ kind pos children, (∀ p ∈ children, motive p) →
      motive (.construct kind pos children)) : motive p :=
  @Placed.rec motive (fun ps => ∀ p ∈ ps, motive p) token construct (by simp)
    (fun _ _ hhead htail => by simpa using ⟨hhead, htail⟩) p

mutual
/-- The tree, in which only leaves have positions. -/
def toTree : Placed → Tree
  | .token kind text pos => .token kind text pos
  | .construct kind pos children => .construct kind pos (toTrees children)

/-- The trees of several ones. -/
def toTrees : List Placed → List Tree
  | [] => []
  | p :: ps => p.toTree :: toTrees ps
end

/-- The trees are taken one by one. -/
theorem toTrees_eq_map (ps : List Placed) : toTrees ps = ps.map toTree := by
  induction ps with
  | nil => rfl
  | cons p ps ih => rw [toTrees, ih, List.map_cons]

mutual
/-- The rows of a tree whose first row has a number, before it is settled. -/
def rowsFrom (parent : Option Nat) (slot start : Nat) : Placed → List Row
  | .token kind text pos => [⟨kind, some text, pos, parent, [], slot⟩]
  | .construct kind pos children =>
    ⟨kind, none, pos, parent, Tree.idsFrom (start + 1) (toTrees children), slot⟩
      :: rowsAmong start 0 (start + 1) children

/-- The rows of the children of a construct from a place on. -/
def rowsAmong (parent slot start : Nat) : List Placed → List Row
  | [] => []
  | p :: ps => rowsFrom (some parent) slot start p ++ rowsAmong parent (slot + 1) (start + p.toTree.size) ps
end

end Placed

namespace Arena

mutual
/-- Adds a tree below a parent, node by node. -/
def add (a : Arena) (parent : Option Nat) : Placed → Arena
  | .token kind text pos => a.push kind (some text) pos parent
  | .construct kind pos children => (a.push kind none pos parent).addAmong a.size children

/-- Adds the children of a construct one after the other. -/
def addAmong (a : Arena) (parent : Nat) : List Placed → Arena
  | [] => a
  | p :: ps => (a.add (some parent) p).addAmong parent ps
end

/-- The rows of an arena, with further children for one of them. -/
def gaining (a : Arena) (parent : Option Nat) (ids : List Nat) : List Row :=
  match parent with
  | none => a.rows
  | some p => a.rows.modify p fun row => { row with children := row.children ++ ids }

/-- The place of the next child. -/
def nextSlot (a : Arena) (parent : Option Nat) : Nat :=
  match parent with
  | none => 0
  | some p => (a.children p).length

end Arena

/-! ## Rows that are added -/

/-- A change in the first part of a list. -/
theorem modify_append_left {α : Type} (change : α → α) {l r : List α} {i : Nat} (h : i < l.length) :
    (l ++ r).modify i change = l.modify i change ++ r := by
  induction l generalizing i with
  | nil => cases h
  | cons a l ih =>
    cases i with
    | zero => rfl
    | succ i =>
      rw [List.cons_append, List.modify_succ_cons, List.modify_succ_cons, List.cons_append,
        ih (Nat.lt_of_succ_lt_succ h)]

/-- A change right after the first part of a list. -/
theorem modify_length_append {α : Type} (change : α → α) (l : List α) (a : α) (r : List α) :
    (l ++ a :: r).modify l.length change = l ++ change a :: r := by
  induction l with
  | nil => rfl
  | cons b l ih => rw [List.cons_append, List.length_cons, List.modify_succ_cons, ih, List.cons_append]

namespace Arena

variable {a : Arena} {parent : Option Nat}

/-- A node gets the next row, and its parent gains it as a child. -/
theorem rows_push (a : Arena) (kind : Kind) (text : Option String) (pos : Position)
    (parent : Option Nat) : (a.push kind text pos parent).rows =
      a.gaining parent [a.size] ++ [⟨kind, text, pos, parent, [], a.nextSlot parent⟩] := by
  cases parent <;> rfl

/-- Further children add no rows. -/
@[simp] theorem length_gaining (a : Arena) (parent : Option Nat) (ids : List Nat) :
    (a.gaining parent ids).length = a.size := by
  cases parent with
  | none => rfl
  | some p => rw [gaining, List.length_modify, size]

/-- The children of a node that gains some. -/
theorem children_gaining {rest : List Row} {p : Nat} (hp : p < a.size) (ids : List Nat) :
    children ⟨a.gaining (some p) ids ++ rest⟩ p = a.children p ++ ids := by
  have hlt : p < (a.gaining (some p) ids).length := by rwa [length_gaining]
  obtain ⟨row, hrow⟩ : ∃ row, a.rows[p]? = some row := ⟨_, List.getElem?_eq_getElem hp⟩
  rw [children, children, List.getElem?_append_left hlt, gaining, List.getElem?_modify, hrow]
  simp

/-- What is gained one after the other is gained together. -/
theorem gaining_gaining {rest : List Row} {p : Nat} (hp : p < a.size) (ids ids' : List Nat) :
    gaining ⟨a.gaining (some p) ids ++ rest⟩ (some p) ids' = a.gaining (some p) (ids ++ ids') ++ rest := by
  have hlt : p < (a.gaining (some p) ids).length := by rwa [length_gaining]
  rw [gaining, modify_append_left _ hlt, gaining, List.modify_modify_eq, gaining]
  simp [Function.comp_def]

end Arena

namespace Placed

open Arena (children_gaining gaining_gaining)

/-- There is a row for each node. -/
theorem length_rowsFrom (p : Placed) (parent : Option Nat) (slot start : Nat) :
    (p.rowsFrom parent slot start).length = p.toTree.size := by
  induction p using children_induction generalizing parent slot start with
  | token => rfl
  | construct kind pos children ih =>
    have hchildren : ∀ slot start', (rowsAmong start slot start' children).length =
        Tree.sizeAmong (toTrees children) := by
      induction children with
      | nil => exact fun _ _ => rfl
      | cons p ps ihps =>
        obtain ⟨hp, hps⟩ := List.forall_mem_cons.1 ih
        intro slot start'
        rw [rowsAmong, List.length_append, hp, ihps hps, toTrees, Tree.sizeAmong]
    have hsize : (Tree.construct kind pos (toTrees children)).size =
        1 + Tree.sizeAmong (toTrees children) := by
      cases toTrees children <;> rfl
    rw [rowsFrom, List.length_cons, hchildren, toTree, hsize, Nat.add_comm]

/-- To add the children of a construct adds their rows. -/
theorem rows_addAmong {ps : List Placed} (h : ∀ p ∈ ps, ∀ (a : Arena) (parent : Option Nat),
      (a.add parent p).rows =
        a.gaining parent [a.size] ++ p.rowsFrom parent (a.nextSlot parent) a.size)
    (a : Arena) {parent : Nat} (hparent : parent < a.size) :
    (a.addAmong parent ps).rows = a.gaining (some parent) (Tree.idsFrom a.size (toTrees ps)) ++
      rowsAmong parent (a.children parent).length a.size ps := by
  induction ps generalizing a with
  | nil =>
    have hsame : (fun row : Row => { row with children := row.children ++ [] }) = id := by
      funext row
      rw [List.append_nil]
      rfl
    rw [Arena.addAmong, toTrees, Tree.idsFrom, rowsAmong, List.append_nil, Arena.gaining, hsame,
      List.modify_id]
  | cons p ps ih =>
    obtain ⟨hp, hps⟩ := List.forall_mem_cons.1 h
    have hrows := hp a (some parent)
    have hadd : a.add (some parent) p = ⟨a.gaining (some parent) [a.size] ++
        p.rowsFrom (some parent) (a.children parent).length a.size⟩ := congrArg Arena.mk hrows
    have hsize : (a.add (some parent) p).size = a.size + p.toTree.size := by
      rw [Arena.size, hrows, List.length_append, Arena.length_gaining, length_rowsFrom]
    -- The parent has gained one number when the children that are left are added.
    rw [Arena.addAmong, ih hps _ (by omega), hsize, hadd, children_gaining hparent,
      gaining_gaining hparent, toTrees, Tree.idsFrom, rowsAmong, List.length_append, List.append_assoc]
    rfl

/-- To add a tree adds its rows, and its parent gains it as a child. -/
theorem rows_add (p : Placed) (a : Arena) (parent : Option Nat) : (a.add parent p).rows =
    a.gaining parent [a.size] ++ p.rowsFrom parent (a.nextSlot parent) a.size := by
  induction p using children_induction generalizing a parent with
  | token kind text pos => exact a.rows_push kind (some text) pos parent
  | construct kind pos children ih =>
    have hlength : (a.gaining parent [a.size]).length = a.size := a.length_gaining parent _
    have hpush : a.push kind none pos parent = ⟨a.gaining parent [a.size] ++
        [⟨kind, none, pos, parent, [], a.nextSlot parent⟩]⟩ :=
      congrArg Arena.mk (a.rows_push kind none pos parent)
    have hsize : (a.push kind none pos parent).size = a.size + 1 := by
      rw [hpush, Arena.size, List.length_append, hlength, List.length_singleton]
    -- The construct is the last row, so that is where its children are entered.
    have hgain (ids : List Nat) : (a.push kind none pos parent).gaining (some a.size) ids =
        a.gaining parent [a.size] ++ [⟨kind, none, pos, parent, ids, a.nextSlot parent⟩] := by
      have hmodify := modify_length_append (fun row : Row => { row with children := row.children ++ ids })
        (a.gaining parent [a.size]) ⟨kind, none, pos, parent, [], a.nextSlot parent⟩ []
      rw [hlength] at hmodify
      rw [hpush, Arena.gaining, hmodify, List.nil_append]
    have hnone : (a.push kind none pos parent).children a.size = [] := by
      rw [hpush, Arena.children, List.getElem?_append_right (Nat.le_of_eq hlength), hlength,
        Nat.sub_self]
      rfl
    rw [Arena.add, rows_addAmong ih _ (by omega), hgain, hnone, hsize, rowsFrom, List.append_assoc]
    rfl

end Placed

/-! ## Settling -/

namespace Arena

/-- What settling makes of a row: it stands where its first child comes to stand, which has a greater
number, and without children it stays where it is. -/
structure Settles (final : List Row) (i : Nat) (row settled : Row) : Prop where
  /-- Nothing but the position changes. -/
  same : settled = { row with pos := settled.pos }
  /-- Without children it stays. -/
  leaf : row.children.head? = none → settled.pos = row.pos
  /-- With children it stands where the first one stands. -/
  first : ∀ c, row.children.head? = some c → i < c ∧ (final[c]?).map Row.pos = some settled.pos

/-- The rows from a number on are settled, and the next one before them becomes so. -/
theorem settleNode_eq {rows final : List Row} {k : Nat} {row settled : Row} (hk : k < rows.length)
    (hrow : rows[k]? = some row) (hsettled : final[k]? = some settled)
    (h : Settles final k row settled) :
    settleNode ⟨rows.take (k + 1) ++ final.drop (k + 1)⟩ k = ⟨rows.take k ++ final.drop k⟩ := by
  have htake : rows.take (k + 1) = rows.take k ++ [row] := by
    rw [List.take_add_one, hrow, Option.toList_some]
  have hdrop : final.drop k = settled :: final.drop (k + 1) := by
    obtain ⟨hlt, hget⟩ := List.getElem?_eq_some_iff.1 hsettled
    rw [List.drop_eq_getElem_cons hlt, hget]
  have hbefore : (rows.take k).length = k := List.length_take_of_le (Nat.le_of_lt hk)
  have hchildren : children ⟨rows.take k ++ row :: final.drop (k + 1)⟩ k = row.children := by
    rw [children, List.getElem?_append_right (Nat.le_of_eq hbefore), hbefore, Nat.sub_self]
    rfl
  rw [htake, hdrop, List.append_assoc, List.singleton_append, settleNode, hchildren]
  cases hfirst : row.children.head? with
  | none =>
    have hsame : settled = row := by
      rw [h.same, h.leaf hfirst]
    rw [Option.bind_none, hsame]
  | some c =>
    obtain ⟨hlt, hpos⟩ := h.first c hfirst
    -- The child is among the rows that are settled.
    have hchild : (rows.take k ++ row :: final.drop (k + 1))[c]? = final[c]? := by
      obtain ⟨m, rfl⟩ := Nat.exists_eq_add_of_lt hlt
      rw [List.getElem?_append_right (by omega), hbefore]
      have hplace : k + m + 1 - k = m + 1 := by omega
      rw [hplace, List.getElem?_cons_succ, List.getElem?_drop]
      congr 1
      omega
    obtain ⟨child, hget, hchildpos⟩ := Option.map_eq_some_iff.1 hpos
    have hmodify := modify_length_append (fun row : Row => { row with pos := child.pos })
      (rows.take k) row (final.drop (k + 1))
    rw [hbefore] at hmodify
    rw [Option.bind_some, hchild, hget]
    simp only [hmodify]
    rw [hchildpos, ← h.same]

/-- An arena is settled to the rows that each row settles to. -/
theorem settle_eq {a : Arena} {final : List Row} (hlength : final.length = a.size)
    (h : ∀ i row, a.rows[i]? = some row →
      ∃ settled, final[i]? = some settled ∧ Settles final i row settled) :
    a.settle = ⟨final⟩ := by
  -- The induction is on the number of rows that are still to be settled.
  have hsweep : ∀ k ≤ a.size, (List.range k).reverse.foldl settleNode
      ⟨a.rows.take k ++ final.drop k⟩ = ⟨final⟩ := by
    intro k hk
    induction k with
    | zero => rfl
    | succ k ih =>
      obtain ⟨row, hrow⟩ : ∃ row, a.rows[k]? = some row := ⟨_, List.getElem?_eq_getElem hk⟩
      obtain ⟨settled, hsettled, hstep⟩ := h k _ hrow
      rw [List.range_succ, List.reverse_append, List.reverse_singleton, List.singleton_append,
        List.foldl_cons, settleNode_eq hk hrow hsettled hstep]
      exact ih (Nat.le_of_succ_le hk)
  have hall := hsweep a.size (Nat.le_refl _)
  have htake : a.rows.take a.size = a.rows := List.take_length
  rwa [List.drop_of_length_le (Nat.le_of_eq hlength), List.append_nil, htake] at hall

end Arena

namespace Placed

/-- The row of a node before it is settled: its position is its own only for a leaf. -/
structure IsRowOf (row : Row) (f : Focus) : Prop where
  /-- Nothing but the position is different. -/
  same : f.row = { row with pos := f.tree.pos }
  /-- A leaf is where it is. -/
  leaf : f.tree.children = [] → f.tree.pos = row.pos

/-- The rows of the children of a construct are those of the nodes below it. -/
theorem forall₂_rowsAmong (kind : ConstructKind) (path : List Frame) {ps : List Placed}
    (h : ∀ p ∈ ps, ∀ path, List.Forall₂ IsRowOf
      (p.rowsFrom ((Focus.mk p.toTree path).parent?.map Focus.index)
        (Focus.slot ⟨p.toTree, path⟩) (Focus.countBefore path))
      (Focus.preorderFrom p.toTree path)) (before : List Tree) :
    List.Forall₂ IsRowOf
      (rowsAmong (Focus.countBefore path) before.length
        (1 + Tree.sizeAmong before + Focus.countBefore path) ps)
      (Focus.preorderFromAmong kind before (toTrees ps) path) := by
  induction ps generalizing before with
  | nil => exact .nil
  | cons p ps ih =>
    obtain ⟨hp, hps⟩ := List.forall_mem_cons.1 h
    have hhere := hp (⟨kind, before, toTrees ps⟩ :: path)
    have hlater := ih hps (p.toTree :: before)
    rw [Tree.one_add_sizeAmong_cons, List.length_cons] at hlater
    exact List.rel_append hhere hlater

/-- The rows that are added for a tree are those of its nodes, before they are settled. -/
theorem forall₂_rowsFrom (p : Placed) (path : List Frame) :
    List.Forall₂ IsRowOf
      (p.rowsFrom ((Focus.mk p.toTree path).parent?.map Focus.index)
        (Focus.slot ⟨p.toTree, path⟩) (Focus.countBefore path))
      (Focus.preorderFrom p.toTree path) := by
  induction p using children_induction generalizing path with
  | token kind text pos => exact .cons ⟨rfl, fun _ => rfl⟩ .nil
  | construct kind pos children ih =>
    have hchildren := forall₂_rowsAmong kind path ih []
    rw [rowsFrom, toTree]
    cases htrees : toTrees children with
    | nil =>
      rw [toTrees_eq_map, List.map_eq_nil_iff] at htrees
      subst htrees
      exact .cons ⟨rfl, fun _ => rfl⟩ .nil
    | cons first rest =>
      rw [htrees, Tree.sizeAmong, Nat.add_zero, Nat.add_comm 1] at hchildren
      rw [Tree.construct, Focus.preorderFrom_node]
      exact .cons ⟨rfl, fun hnone => absurd hnone (List.cons_ne_nil _ _)⟩ hchildren

/-- An arena to which nothing but a tree was added is settled to the arena of the tree. -/
theorem settle_add (p : Placed) : (Arena.empty.add none p).settle = p.toTree.toArena := by
  have hrows : (Arena.empty.add none p).rows = p.rowsFrom none 0 0 := by
    rw [rows_add]
    rfl
  have hnodes : List.Forall₂ IsRowOf (Arena.empty.add none p).rows p.toTree.foci := by
    rw [hrows]
    exact p.forall₂_rowsFrom []
  have hlength : p.toTree.toArena.rows.length = (Arena.empty.add none p).size := by
    rw [Tree.toArena, List.length_map, Arena.size, hnodes.length_eq]
  refine Arena.settle_eq hlength fun i row hrow => ?_
  obtain ⟨hi, -⟩ := List.getElem?_eq_some_iff.1 hrow
  have hsize : i < p.toTree.size := by
    rw [← Tree.size_toArena, Arena.size, hlength]
    exact hi
  obtain ⟨f, hf, rfl⟩ := Tree.exists_index_eq hsize
  have hof : IsRowOf row f := by
    obtain ⟨row', hrow', hof⟩ := exists_getElem?_of_forall₂ hnodes (Tree.getElem?_foci hf)
    rw [hrow] at hrow'
    rwa [Option.some.inj hrow']
  have hchildren : row.children = Tree.idsFrom (f.index + 1) f.tree.children :=
    (congrArg Row.children hof.same).symm
  -- The links of a row are final already, so its first child is the one that the tree has.
  refine ⟨f.row, Tree.rows_toArena hf, hof.same, fun hnone => hof.leaf ?_, fun c hc => ?_⟩
  · rw [List.head?_eq_none_iff, hchildren, ← List.length_eq_zero_iff, Tree.length_idsFrom] at hnone
    exact List.length_eq_zero_iff.1 hnone
  · rw [List.head?_eq_getElem?, hchildren, ← f.index_child?] at hc
    obtain ⟨g, hg, rfl⟩ := Option.map_eq_some_iff.1 hc
    refine ⟨Focus.index_lt_of_parent? (Focus.parent?_child? hg).1, ?_⟩
    have hrow := Tree.rows_toArena (Tree.mem_foci_of_child? hf hg)
    calc (p.toTree.toArena.rows[g.index]?).map Row.pos
      _ = some g.tree.pos := by rw [hrow]; rfl
      _ = some f.row.pos := congrArg some (Focus.pos_child?_zero hg)

end Placed

end TreeLayout
