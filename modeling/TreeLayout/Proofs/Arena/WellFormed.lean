import TreeLayout.Proofs.Arena.Builder

/-!
# The shape of arenas

An arena is filled by calls to a builder or from a raw tree. Both ways it is the arena of a tree
(`Arena.BuiltFrom.exists_tree`), so its rows stand in document order and its links fit together
(`Arena.WellFormed`): the numbers of children are greater than that of their parent, parents, children
and places agree, and each construct with children stands where the first leaf below it stands.
-/

namespace TreeLayout

namespace Arena

/-- An arena is filled with nodes that came one after another: from calls to the builder, or from the
nodes of a raw tree. -/
inductive BuiltFrom (a : Arena) : List Label → Prop
  /-- The builder accepts all calls and the tree is complete. -/
  | calls (source : String) (calls : List BuildCall) (h : build source calls = .ok a) :
    a.BuiltFrom (calls.filterMap BuildCall.label?)
  /-- The raw tree is valid. -/
  | raw (raw : RawNode) (h : raw.toArena = .ok a) : a.BuiltFrom raw.labels

/-- An arena that is filled is that of a tree which is built from the same nodes. -/
theorem BuiltFrom.exists_tree {a : Arena} {added : List Label} (h : a.BuiltFrom added) :
    ∃ t : Tree, a = t.toArena ∧ t.BuiltFrom added := by
  cases h with
  | calls source calls h =>
    rw [build_eq] at h
    cases htree : TreeLayout.Builder.build source calls with
    | error e =>
      rw [htree] at h
      cases h
    | ok t =>
      rw [htree] at h
      cases h
      exact ⟨t, rfl, .calls source calls htree⟩
  | raw raw h =>
    rw [RawNode.toArena_eq] at h
    cases htree : raw.toTree with
    | error e =>
      rw [htree] at h
      cases h
    | ok t =>
      rw [htree] at h
      cases h
      exact ⟨t, rfl, .raw raw htree⟩

/-- The shape of an arena whose nodes came in the order `added`. -/
structure WellFormed (a : Arena) (added : List Label) : Prop where
  /-- The rows are the nodes that were added, in this order. -/
  label : a.rows.map (fun row => (row.kind, row.text)) = added
  /-- A visit comes to the nodes from zero on, one after the other, and then ends. -/
  preorder : ∀ count, a.size ≤ count → a.visits count start = (List.range a.size, [])
  /-- The root is a construct, and the one node without a parent. -/
  root : (∃ kind, a.kind? 0 = some (.construct kind)) ∧
    ∀ i < a.size, a.parent? i = none ↔ i = 0
  /-- A child has a row after that of its parent, and knows its parent and its place. -/
  child : ∀ p k i, a.child? p k = some i →
    i < a.size ∧ p < i ∧ a.parent? i = some p ∧ a.slot i = k
  /-- A parent has the child at its place. -/
  parent : ∀ i p, a.parent? i = some p → p < a.size ∧ a.child? p (a.slot i) = some i
  /-- To go to the next sibling and to go to the one before undo each other. -/
  inverse : ∀ i < a.size, ∀ j < a.size, a.next? i = some j ↔ a.prev? j = some i
  /-- Tokens have a text and no children; constructs have no text. -/
  token : ∀ row ∈ a.rows, row.text.isSome = row.kind.isToken ∧
    (row.kind.isToken = true → row.children = [])
  /-- A construct with children stands where the first leaf below it stands. -/
  position : ∀ i < a.size, a.first? i ≠ none → a.leftmost i < a.size ∧
    a.first? (a.leftmost i) = none ∧ a.pos? i = a.pos? (a.leftmost i)

/-- A node with a child has a row. -/
theorem lt_of_child? {a : Arena} {p k i : Nat} (h : a.child? p k = some i) : p < a.size := by
  by_contra hlt
  have hnone : a.rows[p]? = none := List.getElem?_eq_none (Nat.le_of_not_lt hlt)
  rw [child?, children, hnone] at h
  cases h

/-- A node with a parent has a row. -/
theorem lt_of_parent? {a : Arena} {i p : Nat} (h : a.parent? i = some p) : i < a.size := by
  by_contra hlt
  have hnone : a.rows[i]? = none := List.getElem?_eq_none (Nat.le_of_not_lt hlt)
  rw [parent?, hnone] at h
  cases h

end Arena

namespace Tree

variable {t : Tree} {f g : Focus}

/-- Different nodes have different numbers. -/
theorem eq_of_index_eq (hf : f ∈ t.foci) (hg : g ∈ t.foci) (h : f.index = g.index) : f = g := by
  have hget := getElem?_foci hf
  rw [h, getElem?_foci hg] at hget
  exact (Option.some.inj hget).symm

/-- A node of the tree is told by its number. -/
theorem map_index_eq_some_iff {found : Option Focus} (hfound : ∀ f, found = some f → f ∈ t.foci)
    (hg : g ∈ t.foci) : found.map Focus.index = some g.index ↔ found = some g := by
  constructor
  · intro h
    obtain ⟨f, rfl, hindex⟩ := Option.map_eq_some_iff.1 h
    rw [eq_of_index_eq (hfound f rfl) hg hindex]
  · rintro rfl
    rfl

/-- The arena of a tree has the shape that the tree has. -/
theorem wellFormed_toArena {added : List Label} (h : t.WellIndexed added) :
    t.toArena.WellFormed added := by
  have hlt {f : Focus} (hf : f ∈ t.foci) : f.index < t.toArena.size :=
    (List.getElem?_eq_some_iff.1 (rows_toArena hf)).1
  have hfocus {i : Nat} (hi : i < t.toArena.size) : ∃ f ∈ t.foci, f.index = i := by
    rw [size_toArena] at hi
    exact exists_index_eq hi
  constructor
  case label =>
    have hlabel (u : Tree) : (u.kind, u.label.2) = u.label := by cases u <;> rfl
    rw [← h.label, toArena, List.map_map]
    exact List.map_congr_left fun f _ => hlabel f.tree
  case preorder =>
    intro count hcount
    rw [size_toArena] at hcount ⊢
    exact visits_toArena t hcount
  case root =>
    obtain ⟨hkind, hparent⟩ := h.root
    have hroot : Focus.ofRoot t ∈ t.foci := Focus.self_mem_preorderFrom t []
    constructor
    · have hrow : t.toArena.kind? 0 = some t.kind := by
        rw [Arena.kind?]
        exact congrArg (Option.map Row.kind) (rows_toArena hroot)
      rw [hrow]
      cases hof : t.kind with
      | token kind =>
        rw [hof] at hkind
        cases hkind
      | construct kind => exact ⟨kind, rfl⟩
    · intro i hi
      obtain ⟨f, hf, rfl⟩ := hfocus hi
      rw [parent?_toArena hf, Option.map_eq_none_iff, hparent f hf]
  case child =>
    intro p k i hchild
    obtain ⟨f, hf, rfl⟩ := hfocus (Arena.lt_of_child? hchild)
    rw [child?_toArena hf] at hchild
    obtain ⟨g, hg, rfl⟩ := Option.map_eq_some_iff.1 hchild
    obtain ⟨hmem, hless, hparent, hslot⟩ := h.child f hf k g hg
    rw [parent?_toArena hmem, slot_toArena hmem, hparent, hslot]
    exact ⟨hlt hmem, hless, rfl, rfl⟩
  case parent =>
    intro i p hparent
    obtain ⟨f, hf, rfl⟩ := hfocus (Arena.lt_of_parent? hparent)
    rw [parent?_toArena hf] at hparent
    obtain ⟨g, hg, rfl⟩ := Option.map_eq_some_iff.1 hparent
    obtain ⟨hmem, hchild⟩ := h.parent f hf g hg
    rw [slot_toArena hf, child?_toArena hmem, hchild]
    exact ⟨hlt hmem, rfl⟩
  case inverse =>
    intro i hi j hj
    obtain ⟨f, hf, rfl⟩ := hfocus hi
    obtain ⟨g, hg, rfl⟩ := hfocus hj
    have hnext : ∀ g', f.next? = some g' → g' ∈ t.foci := fun g' hnext =>
      mem_foci_of_root_eq hf (Focus.root_prev? (Focus.next?_eq_some_iff.1 hnext)).symm
    have hprev : ∀ f', g.prev? = some f' → f' ∈ t.foci := fun f' hprev =>
      mem_foci_of_root_eq hg (Focus.root_prev? hprev)
    rw [next?_toArena hf, prev?_toArena hg, map_index_eq_some_iff hnext hg,
      map_index_eq_some_iff hprev hf]
    exact h.inverse f hf g hg
  case token =>
    intro row hrow
    obtain ⟨f, hf, rfl⟩ := List.mem_map.1 hrow
    obtain ⟨htext, hchildless⟩ := h.token f hf
    refine ⟨htext, fun htoken => ?_⟩
    have hchildren := Focus.child?_zero_eq_none.1 (hchildless htoken)
    change idsFrom (f.index + 1) f.tree.children = []
    rw [hchildren, idsFrom]
  case position =>
    intro i hi hfirst
    obtain ⟨f, hf, rfl⟩ := hfocus hi
    rw [first?_toArena hf, f.first?_eq_child?, Ne, Option.map_eq_none_iff] at hfirst
    obtain ⟨hmem, hleaf, hpos⟩ := h.position f hf hfirst
    rw [leftmost_toArena hf, first?_toArena hmem, Focus.first?_eq_child?, hleaf, Arena.pos?,
      Arena.pos?, rows_toArena hf, rows_toArena hmem]
    exact ⟨hlt hmem, rfl, congrArg some hpos⟩

end Tree

namespace Arena

/-- Every arena that is filled is well-formed, its nodes numbered in the order in which they came. -/
theorem wellFormed_of_builtFrom {a : Arena} {added : List Label} (h : a.BuiltFrom added) :
    a.WellFormed added := by
  obtain ⟨t, rfl, hbuilt⟩ := h.exists_tree
  exact Tree.wellFormed_toArena (wellIndexed_of_builtFrom hbuilt)

/-- A statement in a block, with a token at a position that its text does not have. -/
theorem wellFormed_of_builtFrom_block :
    ∃ a, build "\x7b x\n\x7d" [.open ConstructKind.block, .token TokenKind.lBrace "\x7b",
        .open ConstructKind.exprStatement, .token TokenKind.identifier "x",
        .tokenAt TokenKind.semi ";" ⟨7, 3⟩, .close, .token TokenKind.rBrace "\x7d", .close] = .ok a
      ∧ a.WellFormed [(ConstructKind.block, none), (TokenKind.lBrace, some "\x7b"),
        (ConstructKind.exprStatement, none), (TokenKind.identifier, some "x"),
        (TokenKind.semi, some ";"), (TokenKind.rBrace, some "\x7d")] := by
  let a : Arena := ⟨[⟨ConstructKind.block, none, ⟨1, 0⟩, none, [1, 2, 5], 0⟩,
    ⟨TokenKind.lBrace, some "\x7b", ⟨1, 0⟩, some 0, [], 0⟩,
    ⟨ConstructKind.exprStatement, none, ⟨1, 2⟩, some 0, [3, 4], 1⟩,
    ⟨TokenKind.identifier, some "x", ⟨1, 2⟩, some 2, [], 0⟩,
    ⟨TokenKind.semi, some ";", ⟨7, 3⟩, some 2, [], 1⟩,
    ⟨TokenKind.rBrace, some "\x7d", ⟨2, 0⟩, some 0, [], 2⟩]⟩
  have hbuild : build "\x7b x\n\x7d" [.open ConstructKind.block,
      .token TokenKind.lBrace "\x7b", .open ConstructKind.exprStatement,
      .token TokenKind.identifier "x", .tokenAt TokenKind.semi ";" ⟨7, 3⟩, .close,
      .token TokenKind.rBrace "\x7d", .close] = .ok a := rfl
  exact ⟨a, hbuild, wellFormed_of_builtFrom (.calls _ _ hbuild)⟩

end Arena

end TreeLayout
