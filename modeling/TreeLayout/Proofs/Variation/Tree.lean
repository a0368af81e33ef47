import TreeLayout.Proofs.Relocation.Tree
import TreeLayout.Proofs.Tree.Leaves

/-!
# Trees around a hole

The outline of a tree is what its surroundings can see of it, apart from its column: its kind, its
first and its last leaf, whether it has children, and the kind of the last one (`Tree.outline`).

A varying tree is a tree for each index. It is a tree around a hole if its trees are the same but
for what stands in the hole (`Tree.Around`). Where the fillings of the hole have one outline, so
have the trees around it (`Around.exists_outline`); and each of its leaves at the ends is a leaf at
the end of the hole or does not vary (`Around.leftmost_cases`, `Around.rightmost_cases`).
-/

namespace TreeLayout

variable {ι : Type}

/-! ## Outlines -/

namespace Tree

/-- A tree with all its leaves in one column. -/
def inColumn (t : Tree) (column : Nat) : Tree := t.relocate fun _ _ => column

/-- What the surroundings of a tree can see of it, apart from its column. -/
structure Outline where
  /-- The kind of the tree. -/
  kind : Kind
  /-- Whether the tree has children. -/
  hasChildren : Bool
  /-- The kind of the last child. -/
  lastKind : Option Kind
  /-- The first leaf, in column zero. -/
  first : Tree
  /-- The last leaf, in column zero. -/
  last : Tree

/-- The outline of a tree. -/
def outline (t : Tree) : Outline where
  kind := t.kind
  hasChildren := t.hasChildren
  lastKind := t.children.getLast?.map Tree.kind
  first := t.leftmost.inColumn 0
  last := t.rightmost.inColumn 0

namespace Outline

/-- The line on which trees with an outline start. -/
def line (o : Outline) : Nat := o.first.line

/-- The line on which the last leaf of trees with an outline starts. -/
def lastLine (o : Outline) : Nat := o.last.line

/-- How messages name trees with an outline. -/
def describe (o : Outline) : String :=
  match o.first with
  | .token _ text _ => if text.isEmpty then o.kind.displayName else text
  | _ => o.kind.displayName

/-- How messages name the end of trees with an outline. -/
def describeLast (o : Outline) : String :=
  match o.last with
  | .token _ text _ => text
  | _ => o.describe

/-- The outline of a construct from the outlines of its children. -/
def node (kind : ConstructKind) (first : Outline) (rest : List Outline) : Outline where
  kind := kind
  hasChildren := true
  lastKind := (first :: rest).getLast?.map Outline.kind
  first := first.first
  last := (rest.getLast?.map Outline.last).getD first.last

end Outline

variable (t : Tree)

/-- An outline says on which line a tree starts. -/
theorem line_outline : t.outline.line = t.line := by
  have hline : t.outline.line = t.leftmost.line := line_relocate _ t.leftmost
  rw [hline, line, pos_leftmost, line]

/-- An outline says on which line the last leaf starts. -/
theorem lastLine_outline : t.outline.lastLine = t.rightmost.line := line_relocate _ t.rightmost

/-- An outline says how the first leaf is described. -/
theorem describe_first_outline : t.outline.first.describe = t.leftmost.describe :=
  describe_relocate _ t.leftmost

/-- An outline has the text of the last leaf. -/
theorem text_last_outline : t.outline.last.text = t.rightmost.text := text_relocate _ t.rightmost

/-- An outline says how the last leaf is described as an end. -/
theorem describeLast_last_outline : t.outline.last.describeLast = t.rightmost.describeLast :=
  describeLast_relocate _ t.rightmost

/-- An outline says how a tree is described. -/
theorem describe_outline : t.outline.describe = t.describe := by
  simp only [Outline.describe, outline, describe, inColumn]
  cases t.leftmost <;> simp

/-- An outline says how the end of a tree is described. -/
theorem describeLast_outline : t.outline.describeLast = t.describeLast := by
  have hdescribe := t.describe_outline
  simp only [Outline.describeLast, hdescribe, describeLast]
  simp only [outline, inColumn]
  cases t.rightmost <;> simp

/-- The kind of a tree says whether it is a token. -/
theorem isToken_eq_kind : t.isToken = t.kind.isToken := by
  cases t <;> rfl

/-- The surroundings of a construct see its first child, and what stands last among its children. -/
theorem outline_node (kind : ConstructKind) (first : Tree) (rest : List Tree) :
    (node kind first rest).outline = .node kind first.outline (rest.map outline) := by
  have hlastKind : (first :: rest).getLast?.map Tree.kind =
      (first.outline :: rest.map outline).getLast?.map Outline.kind := by
    rw [← List.map_cons, List.getLast?_map, Option.map_map]
    rfl
  have hlast : (node kind first rest).rightmost.inColumn 0 =
      ((rest.map outline).getLast?.map Outline.last).getD first.outline.last := by
    rw [rightmost, rightmostAmong_eq, List.getLast?_map, Option.map_map]
    cases rest.getLast? <;> rfl
  simp only [Outline.node, ← hlastKind, ← hlast]
  rfl

end Tree

/-- Outlines say whether trees share a line. -/
theorem sameLine_eq (prev next : Tree) :
    sameLine prev next = decide (prev.outline.lastLine = next.outline.line) := by
  rw [Tree.lastLine_outline, Tree.line_outline, sameLine]

/-! ## Varying trees -/

namespace Tree

/-- The trees are the same but for what stands in the hole. -/
inductive Around (hole : ι → Tree) : (ι → Tree) → Prop
  /-- The hole itself. -/
  | hole : Around hole hole
  /-- A token outside of the hole. -/
  | token (kind : TokenKind) (text : String) (pos : Position) :
    Around hole fun _ => .token kind text pos
  /-- A construct without children outside of the hole. -/
  | empty (kind : ConstructKind) (pos : Position) : Around hole fun _ => .empty kind pos
  /-- A construct the children of which may hold the hole. -/
  | node (kind : ConstructKind) {first : ι → Tree} {rest : List (ι → Tree)} :
    Around hole first → (∀ t ∈ rest, Around hole t) →
      Around hole fun i => .node kind (first i) (rest.map (· i))

variable {hole : ι → Tree}

/-- Trees that do not vary, as varying ones. -/
theorem map_map_const (ts : List Tree) (i : ι) : (ts.map (Function.const ι)).map (· i) = ts := by
  simp [Function.comp_def]

/-- A tree that does not vary has no hole. -/
theorem Around.const (t : Tree) : Around hole (Function.const ι t) := by
  induction t using children_induction with
  | token kind text pos => exact .token kind text pos
  | empty kind pos => exact .empty kind pos
  | node kind first rest hfirst hrest =>
    have hconst : ∀ t ∈ rest.map (Function.const ι), Around hole t := by simpa using hrest
    have hnode := Around.node kind hfirst hconst
    simp only [map_map_const] at hnode
    exact hnode

/-- What is the same for all fillings in each of several varying trees is so in all of them. -/
theorem exists_map_eq {α : Type} {g : Tree → α} {ts : List (ι → Tree)}
    (h : ∀ t ∈ ts, ∃ a, ∀ i, g (t i) = a) : ∃ as, ∀ i, (ts.map (· i)).map g = as := by
  induction ts with
  | nil => exact ⟨[], fun _ => rfl⟩
  | cons t ts ih =>
    obtain ⟨a, ha⟩ := h t List.mem_cons_self
    obtain ⟨as, has⟩ := ih fun t' ht' => h t' (List.mem_cons_of_mem t ht')
    exact ⟨a :: as, fun i => by rw [List.map_cons, List.map_cons, ha, has]⟩

/-- Where the fillings of the hole have one outline, the trees around it have. -/
theorem Around.exists_outline (hhole : ∃ o, ∀ i, (hole i).outline = o) {t : ι → Tree}
    (h : Around hole t) : ∃ o, ∀ i, (t i).outline = o := by
  induction h with
  | hole => exact hhole
  | token kind text pos => exact ⟨_, fun _ => rfl⟩
  | empty kind pos => exact ⟨_, fun _ => rfl⟩
  | @node kind first rest _ _ hfirst hrest =>
    obtain ⟨o, ho⟩ := hfirst
    obtain ⟨os, hos⟩ := exists_map_eq hrest
    exact ⟨.node kind o os, fun i => by rw [outline_node, ho, hos]⟩

/-- Where the hole is filled in one way, the trees around it do not vary. -/
theorem Around.exists_eq {filling : Tree} {t : ι → Tree} (h : Around (Function.const ι filling) t) :
    ∃ u, ∀ i, t i = u := by
  induction h with
  | hole => exact ⟨filling, fun _ => rfl⟩
  | token kind text pos => exact ⟨_, fun _ => rfl⟩
  | empty kind pos => exact ⟨_, fun _ => rfl⟩
  | @node kind first rest _ _ hfirst hrest =>
    obtain ⟨u, hu⟩ := hfirst
    obtain ⟨us, hus⟩ := exists_map_eq (g := id) hrest
    simp only [List.map_id] at hus
    exact ⟨.node kind u us, fun i => by simp only [hu, hus]⟩

/-- The first leaf of a tree around the hole is that of the hole, or does not vary. -/
theorem Around.leftmost_cases {t : ι → Tree} (h : Around hole t) :
    (∀ i, (t i).leftmost = (hole i).leftmost) ∨ ∃ leaf, ∀ i, (t i).leftmost = leaf := by
  induction h with
  | hole => exact .inl fun _ => rfl
  | token kind text pos => exact .inr ⟨_, fun _ => rfl⟩
  | empty kind pos => exact .inr ⟨_, fun _ => rfl⟩
  | node kind _ _ hfirst _ => exact hfirst

/-- The last leaf of a tree around the hole is that of the hole, or does not vary. -/
theorem Around.rightmost_cases {t : ι → Tree} (h : Around hole t) :
    (∀ i, (t i).rightmost = (hole i).rightmost) ∨ ∃ leaf, ∀ i, (t i).rightmost = leaf := by
  induction h with
  | hole => exact .inl fun _ => rfl
  | token kind text pos => exact .inr ⟨_, fun _ => rfl⟩
  | empty kind pos => exact .inr ⟨_, fun _ => rfl⟩
  | @node kind first rest _ _ hfirst hrest =>
    simp only [rightmost, rightmostAmong_eq, List.getLast?_map]
    cases hlast : rest.getLast? with
    | none => exact hfirst
    | some last => exact hrest last (List.mem_of_getLast? hlast)

end Tree

end TreeLayout
