import TreeLayout.Proofs.Tree.Root

/-!
# Trees moved within their lines

A relocation `ρ` gives each raw column of each line a new one. `Tree.relocate` moves all leaves of a
tree by it, and the nodes above them with it. What a tree looks like apart from its raw columns
stays the same: kinds, texts, lines, descriptions, the first and the last leaf, and the way from a
node to its surroundings. In particular the indentation parent of a moved node is the moved
indentation parent (`indentationParent_relocate`).
-/

namespace TreeLayout

/-- A position moved within its line. -/
def Position.relocate (ρ : Nat → Nat → Nat) (p : Position) : Position :=
  ⟨p.line, ρ p.line p.column⟩

namespace Tree

variable (ρ : Nat → Nat → Nat)

mutual
/-- A tree with its leaves moved within their lines. -/
def relocate : Tree → Tree
  | .token kind text pos => .token kind text (pos.relocate ρ)
  | .empty kind pos => .empty kind (pos.relocate ρ)
  | .node kind first rest => .node kind first.relocate (relocateAmong rest)

/-- Several trees with their leaves moved within their lines. -/
def relocateAmong : List Tree → List Tree
  | [] => []
  | t :: ts => t.relocate :: relocateAmong ts
end

/-- Several trees are moved one by one. -/
theorem relocateAmong_eq_map (ts : List Tree) : relocateAmong ρ ts = ts.map (relocate ρ) := by
  induction ts with
  | nil => rfl
  | cons t ts ih => rw [relocateAmong, ih, List.map_cons]

/-- A token is moved by its position. -/
@[simp] theorem relocate_token (kind : TokenKind) (text : String) (pos : Position) :
    (token kind text pos).relocate ρ = .token kind text (pos.relocate ρ) := by
  rw [relocate]

/-- A construct without children is moved by its position. -/
@[simp] theorem relocate_empty (kind : ConstructKind) (pos : Position) :
    (empty kind pos).relocate ρ = .empty kind (pos.relocate ρ) := by
  rw [relocate]

/-- A construct with children is moved by its children. -/
@[simp] theorem relocate_node (kind : ConstructKind) (first : Tree) (rest : List Tree) :
    (node kind first rest).relocate ρ =
      .node kind (first.relocate ρ) (rest.map (relocate ρ)) := by
  rw [relocate, relocateAmong_eq_map]

/-- A moved tree is of the same kind. -/
@[simp] theorem kind_relocate (t : Tree) : (t.relocate ρ).kind = t.kind := by
  cases t <;> simp [kind]

/-- A moved tree has the same text. -/
@[simp] theorem text_relocate (t : Tree) : (t.relocate ρ).text = t.text := by
  cases t <;> simp [text]

/-- The children of a moved tree are its moved children. -/
@[simp] theorem children_relocate (t : Tree) :
    (t.relocate ρ).children = t.children.map (relocate ρ) := by
  cases t <;> simp [children]

/-- A moved tree has children if the tree has. -/
@[simp] theorem hasChildren_relocate (t : Tree) : (t.relocate ρ).hasChildren = t.hasChildren := by
  cases t <;> simp [hasChildren]

/-- A moved tree is a token if the tree is. -/
@[simp] theorem isToken_relocate (t : Tree) : (t.relocate ρ).isToken = t.isToken := by
  cases t <;> simp [isToken]

/-- Kinds of children stay the same. -/
theorem kind_comp_relocate : kind ∘ relocate ρ = kind := funext (kind_relocate ρ)

/-- The first leaf moves with its tree. -/
@[simp] theorem leftmost_relocate (t : Tree) :
    (t.relocate ρ).leftmost = t.leftmost.relocate ρ := by
  induction t using children_induction with
  | token | empty => simp [leftmost]
  | node kind first rest ih _ => rw [relocate_node, leftmost, ih, leftmost]

/-- A tree moves with its first leaf. -/
@[simp] theorem pos_relocate (t : Tree) : (t.relocate ρ).pos = t.pos.relocate ρ := by
  induction t using children_induction with
  | token | empty => simp [pos]
  | node kind first rest ih _ => rw [relocate_node, pos, ih, pos]

/-- A moved tree stands on the same line. -/
@[simp] theorem line_relocate (t : Tree) : (t.relocate ρ).line = t.line := by
  rw [line, pos_relocate]
  rfl

/-- A moved tree stands in the column to which that of the tree is moved. -/
@[simp] theorem rawColumn_relocate (t : Tree) :
    (t.relocate ρ).rawColumn = ρ t.line t.rawColumn := by
  rw [rawColumn, pos_relocate]
  rfl

/-- The last leaf below the last of several moved trees, if that of each of them moves with it. -/
theorem rightmostAmong_map {ts : List Tree}
    (h : ∀ t ∈ ts, (t.relocate ρ).rightmost = t.rightmost.relocate ρ) :
    rightmostAmong (ts.map (relocate ρ)) = (rightmostAmong ts).map (relocate ρ) := by
  induction ts with
  | nil => rfl
  | cons t ts ih =>
    rw [List.map_cons, rightmostAmong, rightmostAmong,
      ih fun t' ht' => h t' (List.mem_cons_of_mem t ht'), h t List.mem_cons_self]
    cases rightmostAmong ts <;> rfl

/-- The last leaf moves with its tree. -/
@[simp] theorem rightmost_relocate (t : Tree) :
    (t.relocate ρ).rightmost = t.rightmost.relocate ρ := by
  induction t using children_induction with
  | token | empty => simp [rightmost]
  | node kind first rest hfirst hrest =>
    rw [relocate_node, rightmost, rightmost, rightmostAmong_map ρ hrest, hfirst]
    cases rightmostAmong rest <;> rfl

/-- Several moved trees have as many nodes as before, if each of them has. -/
theorem sizeAmong_map {ts : List Tree} (h : ∀ t ∈ ts, (t.relocate ρ).size = t.size) :
    sizeAmong (ts.map (relocate ρ)) = sizeAmong ts := by
  induction ts with
  | nil => rfl
  | cons t ts ih =>
    rw [List.map_cons, sizeAmong, sizeAmong, ih fun t' ht' => h t' (List.mem_cons_of_mem t ht'),
      h t List.mem_cons_self]

/-- A moved tree has as many nodes. -/
@[simp] theorem size_relocate (t : Tree) : (t.relocate ρ).size = t.size := by
  induction t using children_induction with
  | token | empty => simp [size]
  | node kind first rest hfirst hrest =>
    rw [relocate_node, size, size, hfirst, sizeAmong_map ρ hrest]

/-- A moved tree is described by the same text. -/
@[simp] theorem describe_relocate (t : Tree) : (t.relocate ρ).describe = t.describe := by
  rw [describe, describe, leftmost_relocate, kind_relocate]
  cases t.leftmost <;> simp

/-- The end of a moved tree is described by the same text. -/
@[simp] theorem describeLast_relocate (t : Tree) :
    (t.relocate ρ).describeLast = t.describeLast := by
  rw [describeLast, describeLast, rightmost_relocate, describe_relocate]
  cases t.rightmost <;> simp

end Tree

/-- Moved trees share a line if the trees do. -/
@[simp] theorem sameLine_relocate (ρ : Nat → Nat → Nat) (prev next : Tree) :
    sameLine (prev.relocate ρ) (next.relocate ρ) = sameLine prev next := by
  simp only [sameLine, Tree.rightmost_relocate, Tree.line_relocate]

/-! ## Surroundings -/

/-- The surroundings of a moved node. -/
def Frame.relocate (ρ : Nat → Nat → Nat) (frame : Frame) : Frame :=
  ⟨frame.kind, frame.before.map (Tree.relocate ρ), frame.after.map (Tree.relocate ρ)⟩

/-- A node moved together with its surroundings. -/
def Focus.relocate (ρ : Nat → Nat → Nat) (f : Focus) : Focus :=
  ⟨f.tree.relocate ρ, f.path.map (Frame.relocate ρ)⟩

/-- A moved child in a moved gap. -/
theorem Frame.plug_relocate (ρ : Nat → Nat → Nat) (frame : Frame) (t : Tree) :
    (frame.relocate ρ).plug (t.relocate ρ) = (frame.plug t).relocate ρ := by
  simp only [plug, relocate, ← List.map_reverse]
  cases frame.before.reverse <;> simp

namespace Focus

variable (ρ : Nat → Nat → Nat)

/-- The tree at a moved node is the moved tree. -/
@[simp] theorem tree_relocate (f : Focus) : (f.relocate ρ).tree = f.tree.relocate ρ := rfl

/-- The parent of a moved node is its moved parent. -/
theorem parent?_relocate (f : Focus) : (f.relocate ρ).parent? = f.parent?.map (relocate ρ) := by
  obtain ⟨t, path⟩ := f
  cases path with
  | nil => rfl
  | cons frame path => simp [parent?, relocate, Frame.plug_relocate]

/-- The node before a moved node is the moved node before it. -/
theorem prev?_relocate (f : Focus) : (f.relocate ρ).prev? = f.prev?.map (relocate ρ) := by
  obtain ⟨t, path⟩ := f
  cases path with
  | nil => rfl
  | cons frame path =>
    obtain ⟨kind, before, after⟩ := frame
    cases before <;> rfl

/-- The first leaf below a moved node is its moved first leaf. -/
theorem leftmostFrom_relocate (t : Tree) (path : List Frame) :
    leftmostFrom (t.relocate ρ) (path.map (Frame.relocate ρ)) =
      (leftmostFrom t path).relocate ρ := by
  induction t using Tree.children_induction generalizing path with
  | token | empty => simp [leftmostFrom, relocate]
  | node kind first rest ih _ =>
    rw [Tree.relocate_node, leftmostFrom, leftmostFrom, ← ih]
    rfl

/-- The first leaf of a moved node, with its surroundings. -/
theorem leftmost_relocate (f : Focus) : (f.relocate ρ).leftmost = f.leftmost.relocate ρ :=
  leftmostFrom_relocate ρ f.tree f.path

/-- The last leaf below the last of several moved children. -/
theorem rightmostFromAmong_map (kind : ConstructKind) {ts : List Tree}
    (h : ∀ t ∈ ts, ∀ path, rightmostFrom (t.relocate ρ) (path.map (Frame.relocate ρ)) =
      (rightmostFrom t path).relocate ρ) (before : List Tree) (path : List Frame) :
    rightmostFromAmong kind (before.map (Tree.relocate ρ)) (ts.map (Tree.relocate ρ))
        (path.map (Frame.relocate ρ)) =
      (rightmostFromAmong kind before ts path).map (relocate ρ) := by
  induction ts generalizing before with
  | nil => rfl
  | cons t ts ih =>
    have hlater := ih (fun t' ht' => h t' (List.mem_cons_of_mem t ht')) (t :: before)
    have hhere := h t List.mem_cons_self (⟨kind, before, []⟩ :: path)
    rw [List.map_cons] at hlater hhere ⊢
    rw [rightmostFromAmong, rightmostFromAmong, hlater]
    cases rightmostFromAmong kind (t :: before) ts path with
    | some leaf => rfl
    | none => exact congrArg some hhere

/-- The last leaf below a moved node is its moved last leaf. -/
theorem rightmostFrom_relocate (t : Tree) (path : List Frame) :
    rightmostFrom (t.relocate ρ) (path.map (Frame.relocate ρ)) =
      (rightmostFrom t path).relocate ρ := by
  induction t using Tree.children_induction generalizing path with
  | token | empty => simp [rightmostFrom, relocate]
  | node kind first rest hfirst hrest =>
    have hamong := rightmostFromAmong_map ρ kind hrest [first] path
    have hhere := hfirst (⟨kind, [], []⟩ :: path)
    rw [List.map_singleton] at hamong
    rw [Tree.relocate_node, rightmostFrom, rightmostFrom, hamong]
    cases rightmostFromAmong kind [first] rest path with
    | some leaf => rfl
    | none => exact hhere

/-- The last leaf of a moved node, with its surroundings. -/
theorem rightmost_relocate (f : Focus) : (f.relocate ρ).rightmost = f.rightmost.relocate ρ :=
  rightmostFrom_relocate ρ f.tree f.path

/-- Moved nodes keep their numbers in document order. -/
@[simp] theorem index_relocate (f : Focus) : (f.relocate ρ).index = f.index := by
  obtain ⟨t, path⟩ := f
  simp only [index, relocate]
  induction path with
  | nil => rfl
  | cons frame path ih =>
    rw [List.map_cons, countBefore, countBefore, ih, Frame.relocate,
      Tree.sizeAmong_map ρ fun t _ => Tree.size_relocate ρ t]

/-- The nodes below several moved children. -/
theorem preorderFromAmong_map (kind : ConstructKind) {ts : List Tree}
    (h : ∀ t ∈ ts, ∀ path, preorderFrom (t.relocate ρ) (path.map (Frame.relocate ρ)) =
      (preorderFrom t path).map (relocate ρ)) (before : List Tree) (path : List Frame) :
    preorderFromAmong kind (before.map (Tree.relocate ρ)) (ts.map (Tree.relocate ρ))
        (path.map (Frame.relocate ρ)) =
      (preorderFromAmong kind before ts path).map (relocate ρ) := by
  induction ts generalizing before with
  | nil => rfl
  | cons t ts ih =>
    have hlater := ih (fun t' ht' => h t' (List.mem_cons_of_mem t ht')) (t :: before)
    have hhere := h t List.mem_cons_self (⟨kind, before, ts⟩ :: path)
    rw [List.map_cons] at hlater hhere ⊢
    rw [preorderFromAmong, preorderFromAmong, List.map_append, hlater, ← hhere]
    rfl

/-- The nodes below a moved node are its moved nodes, in the same order. -/
theorem preorderFrom_relocate (t : Tree) (path : List Frame) :
    preorderFrom (t.relocate ρ) (path.map (Frame.relocate ρ)) =
      (preorderFrom t path).map (relocate ρ) := by
  induction t using Tree.children_induction generalizing path with
  | token | empty => simp [preorderFrom, relocate]
  | node kind first rest hfirst hrest =>
    have hamong := preorderFromAmong_map ρ kind hrest [first] path
    have hhere := hfirst (⟨kind, [], rest⟩ :: path)
    rw [List.map_singleton] at hamong
    rw [Tree.relocate_node, preorderFrom, preorderFrom, List.map_cons, List.map_append, hamong,
      ← hhere]
    simp [relocate, Frame.relocate]

end Focus

/-- The nodes of a moved tree are the moved nodes, in the same order. -/
theorem Tree.foci_relocate (ρ : Nat → Nat → Nat) (t : Tree) :
    (t.relocate ρ).foci = t.foci.map (Focus.relocate ρ) :=
  Focus.preorderFrom_relocate ρ t []

/-! ## Baselines -/

section Anchor

variable (ρ : Nat → Nat → Nat)

/-- A moved chain of conditional statements starts at its moved start. -/
theorem ifChainRoot_relocate (t : Tree) (path : List Frame) :
    ifChainRoot (t.relocate ρ) (path.map (Frame.relocate ρ)) = (ifChainRoot t path).relocate ρ := by
  induction path generalizing t with
  | nil => rfl
  | cons frame path ih =>
    have hhead : (frame.relocate ρ).before.head?.map Tree.kind =
        frame.before.head?.map Tree.kind := by
      rw [Frame.relocate, List.head?_map, Option.map_map, Tree.kind_comp_relocate]
    have hkind : (frame.relocate ρ).kind = frame.kind := rfl
    rw [List.map_cons, ifChainRoot, ifChainRoot, hhead, hkind]
    split
    · rw [Frame.plug_relocate, ih]
    · rfl

/-- The owner of a moved body is its moved owner. -/
theorem bodyOwner?_relocate (owner : Focus) :
    bodyOwner? (owner.relocate ρ) = (bodyOwner? owner).map (Focus.relocate ρ) := by
  unfold bodyOwner?
  rw [Focus.tree_relocate, Tree.kind_relocate]
  split
  · split
    · exact Focus.parent?_relocate ρ owner
    · exact Focus.parent?_relocate ρ owner
    · exact congrArg some (ifChainRoot_relocate ρ owner.tree owner.path)
    all_goals rfl
  · rfl

/-- The indentation parent moves with its node. -/
theorem indentationParent_relocate (f : Focus) :
    indentationParent (f.relocate ρ) = (indentationParent f).relocate ρ := by
  have hparent := Focus.parent?_relocate ρ f
  have hprev := Focus.prev?_relocate ρ f
  -- The construct around a list, where no name stands before it.
  have haround : (f.relocate ρ).parent?.getD (f.relocate ρ) = (f.parent?.getD f).relocate ρ := by
    rw [hparent]
    cases f.parent? <;> rfl
  -- The construct that owns a body, or else the body itself.
  have hbody : ((f.relocate ρ).parent?.bind bodyOwner?).getD (f.relocate ρ) =
      ((f.parent?.bind bodyOwner?).getD f).relocate ρ := by
    rw [hparent]
    cases f.parent? with
    | none => rfl
    | some owner =>
      rw [Option.map_some, Option.bind_some, Option.bind_some, bodyOwner?_relocate]
      cases bodyOwner? owner <;> rfl
  unfold indentationParent
  rw [Focus.tree_relocate, Tree.kind_relocate]
  split
  · split
    · rw [hprev, haround]
      cases f.prev? with
      | some name => exact Focus.rightmost_relocate ρ name
      | none => rfl
    · rw [hprev, haround]
      cases f.prev? with
      | some name => exact Focus.rightmost_relocate ρ name
      | none => rfl
    · exact Focus.leftmost_relocate ρ f
    · exact hbody
    · exact hbody
    · rfl
  · rfl

/-- A moved node is an inline body if the node is. -/
theorem isInlineBody_relocate (f : Focus) : isInlineBody (f.relocate ρ) = isInlineBody f := by
  obtain ⟨t, path⟩ := f
  cases path with
  | nil => rfl
  | cons frame path =>
    have hhead : ((frame.relocate ρ).before.head?.map fun header =>
        sameLine header (t.relocate ρ)) =
          frame.before.head?.map fun header => sameLine header t := by
      rw [Frame.relocate, List.head?_map, Option.map_map]
      congr 1
      exact funext fun header => sameLine_relocate ρ header t
    have hkind : (frame.relocate ρ).kind = frame.kind := rfl
    simp only [isInlineBody, Focus.relocate, List.map_cons, hkind, hhead]

/-- Moved expressions stay on one line where they did before. -/
theorem keepsInline_relocate (f : Focus) : keepsInline (f.relocate ρ) = keepsInline f := by
  have hcount : ((f.relocate ρ).tree.children.filter fun c => c.kind.isExpression).length =
      (f.tree.children.filter fun c => c.kind.isExpression).length := by
    rw [Focus.tree_relocate, Tree.children_relocate, List.filter_map, List.length_map]
    simp [Function.comp_def]
  unfold keepsInline
  rw [hcount, isInlineBody_relocate, Focus.tree_relocate, Tree.kind_relocate]

end Anchor

end TreeLayout
