import TreeLayout.Proofs.Data.Fields

/-!
# The keys of a layout

A layout has a leaf key for each of its settings, at a path of one or two names. `LayoutKey.get` is
what a layout has at a key, and `Value.at?` what a layout section has at its path. The three ways in
which the loader goes through values agree on every key: reading a layout gives each key what its
leaf says (`decode?_of_ofValue?`), writing one gives each key a leaf that says what the layout has
(`at?_toValue`), and of two sections one of which lies over the other, each key has the leaf
of the upper one if there is one (`Value.at?_overlay`).
-/

namespace TreeLayout

/-! ## Paths through mappings -/

namespace Value

/-- The part of a value that a path of names leads to. -/
def at? : (path : List String) → Value → Option Value
  | [], v => some v
  | name :: path, v => (v.field? name).bind (at? path)

/-- Whatever stands along a path before its end is a mapping. -/
def MapsAlong : (path : List String) → Value → Prop
  | [], _ => True
  | name :: path, v =>
    (∃ fields, v = .map fields) ∧ ∀ part, v.field? name = some part → MapsAlong path part

/-- A path leads through mappings. -/
theorem exists_of_at?_cons {name : String} {path : List String} {v part : Value}
    (h : v.at? (name :: path) = some part) :
    ∃ fields first, v = .map fields ∧ fields.lookup name = some first ∧
      first.at? path = some part := by
  obtain ⟨first, hfirst, hpart⟩ := Option.bind_eq_some_iff.1 h
  cases v with
  | map fields => exact ⟨fields, first, rfl, hfirst, hpart⟩
  | _ => cases hfirst

/-- A value that lies over another one: its own leaf wins, and the leaf below shows where it has
none. The names of the upper value are distinct everywhere, as they are in `lastFields`. -/
theorem at?_overlay {path : List String} {base v leaf : Value} (hbase : base.at? path = some leaf)
    (hleaf : ∀ fields, leaf ≠ .map fields) (hmaps : v.lastFields.MapsAlong path) :
    (base.overlay v.lastFields).at? path = some ((v.lastFields.at? path).getD leaf) := by
  induction path generalizing base v with
  | nil =>
    cases hbase
    rw [overlay_of_not_map hleaf]
    rfl
  | cons name path ih =>
    obtain ⟨⟨_, hmap⟩, hparts⟩ := hmaps
    obtain ⟨old, part, rfl, hpart, hrest⟩ := exists_of_at?_cons hbase
    cases v with
    | map fields =>
      have hover : ((Value.map old).overlay (Value.map fields).lastFields).field? name =
          some (((Value.map fields).lastFields.field? name).elim part part.overlay) := by
        rw [lastFields, overlay, field?, field?,
          lookup_overlayFields (namesDistinct_lastFieldsEntries fields), hpart]
        cases (lastFieldsEntries fields).lookup name <;> rfl
      rw [at?, at?, hover]
      -- What is below the name lies over the base again and keeps its last fields too.
      cases hfield : (Value.map fields).lastFields.field? name with
      | none => exact hrest
      | some v =>
        obtain ⟨w, rfl⟩ := eq_lastFields_of_field? hfield
        exact ih hrest (hparts _ hfield)
    | _ => cases hmap

/-- What stands at a path through a known field of a record stands at the rest of the path in the
value that was read there. -/
theorem exists_of_fieldOr {α : Type} {d : Dialect} {names : List String} {name : String}
    {path : List String} {v leaf : Value} {fields : List (String × Value)} {default a : α}
    {decode? : Value → Option α} (hfields : v.record? d names = some fields)
    (h : fieldOr fields name default decode? = some a) (hname : name ∈ names)
    (hleaf : v.at? (name :: path) = some leaf) :
    ∃ first, decode? first = some a ∧ first.at? path = some leaf := by
  obtain ⟨all, first, rfl, hlookup, hrest⟩ := exists_of_at?_cons hleaf
  rw [fieldOr_of_record? hfields hname, fieldOr, hlookup] at h
  exact ⟨first, h, hrest⟩

/-- The leaf of a table at the name of a member says what the table has for the member. -/
theorem decode?_of_decodeTable? {κ α : Type} [DecidableEq κ] {d : Dialect} {all : List κ}
    {name : κ → String} {default : κ → α} {decode? : Value → Option α} {v leaf : Value} {t : κ → α}
    (h : decodeTable? d all name default decode? v = some t) {k : κ} (hk : k ∈ all)
    (hleaf : v.at? [name k] = some leaf) : decode? leaf = some (t k) := by
  obtain ⟨fields, _, rfl, hlookup, hend⟩ := exists_of_at?_cons hleaf
  cases hend
  rw [← fieldOr_of_decodeTable? h hk, fieldOr, hlookup]

end Value

/-! ## Layout keys -/

/-- The leaf keys of a layout. -/
inductive LayoutKey where
  | tabWidth
  | basicOffset
  | wrap (b : Boundary)
  | oneLine (k : BodyKind)
  | shareLine (e : ElementKind)
  | alignDeclarations

/-- What a layout may have at a key. -/
inductive LayoutValue where
  | columns (n : Nat)
  | policy (p : WrapPolicy)
  | flag (b : Bool)
  deriving DecidableEq

namespace LayoutKey

/-- Where a layout section holds a key. -/
def path : LayoutKey → List String
  | tabWidth => ["tab_width"]
  | basicOffset => ["basic_offset"]
  | wrap b => ["wrap", b.name]
  | oneLine k => ["allow_one_line", k.name]
  | shareLine e => ["multiple_per_line", e.name]
  | alignDeclarations => ["align_declarations"]

/-- What a layout has at a key. -/
def get (s : LayoutSettings) : LayoutKey → LayoutValue
  | tabWidth => .columns s.tabWidth
  | basicOffset => .columns s.basicOffset
  | wrap b => .policy (s.wrap b)
  | oneLine k => .flag (s.oneLine k)
  | shareLine e => .flag (s.shareLine e)
  | alignDeclarations => .flag s.alignDeclarations

/-- What the leaf of a key says. -/
def decode? (d : Dialect) (leaf : Value) : LayoutKey → Option LayoutValue
  | tabWidth | basicOffset => leaf.nat?.map .columns
  | wrap _ => (leaf.choice? d WrapPolicy.ofSetting?).map .policy
  | oneLine _ | shareLine _ | alignDeclarations => leaf.bool?.map .flag

/-- The leaf that is written for a key. -/
def leaf (s : LayoutSettings) : LayoutKey → Value
  | tabWidth => .nat s.tabWidth
  | basicOffset => .nat s.basicOffset
  | wrap b => .text (s.wrap b).name
  | oneLine k => .bool (s.oneLine k)
  | shareLine e => .bool (s.shareLine e)
  | alignDeclarations => .bool s.alignDeclarations

/-- The leaf that is written for a key says what the settings have there. -/
theorem decode?_leaf (d : Dialect) (s : LayoutSettings) (k : LayoutKey) :
    k.decode? d (k.leaf s) = some (k.get s) := by
  cases k with
  | wrap b =>
    rw [decode?, leaf, get]
    cases d <;> cases s.wrap b <;> rfl
  | _ => rfl

/-- No leaf is a record. -/
theorem leaf_ne_map (s : LayoutSettings) (k : LayoutKey) (fields : List (String × Value)) :
    k.leaf s ≠ .map fields := by
  cases k <;> exact nofun

/-- A written layout has the leaf of every key. -/
theorem at?_toValue (s : LayoutSettings) (k : LayoutKey) :
    s.toValue.at? k.path = some (k.leaf s) := by
  cases k with
  | wrap b => cases b <;> rfl
  | oneLine k => cases k <;> rfl
  | shareLine e => cases e <;> rfl
  | _ => rfl

/-- Where a section is read as a layout, the layout has at each key what its leaf says. -/
theorem decode?_of_ofValue? {d : Dialect} {v leaf : Value} {s : LayoutSettings} {k : LayoutKey}
    (h : LayoutSettings.ofValue? d v = some s) (hleaf : v.at? k.path = some leaf) :
    k.decode? d leaf = some (k.get s) := by
  obtain ⟨fields, hfields, h⟩ := Option.bind_eq_some_iff.1 h
  obtain ⟨tabWidth, htabWidth, h⟩ := Option.bind_eq_some_iff.1 h
  obtain ⟨basicOffset, hbasicOffset, h⟩ := Option.bind_eq_some_iff.1 h
  obtain ⟨wrap, hwrap, h⟩ := Option.bind_eq_some_iff.1 h
  obtain ⟨oneLine, honeLine, h⟩ := Option.bind_eq_some_iff.1 h
  obtain ⟨shareLine, hshareLine, h⟩ := Option.bind_eq_some_iff.1 h
  obtain ⟨alignDeclarations, halignDeclarations, h⟩ := Option.bind_eq_some_iff.1 h
  cases h
  cases k with
  | tabWidth =>
    obtain ⟨first, hfirst, hend⟩ := Value.exists_of_fieldOr hfields htabWidth (by decide) hleaf
    cases hend
    rw [decode?, hfirst]
    rfl
  | basicOffset =>
    obtain ⟨first, hfirst, hend⟩ := Value.exists_of_fieldOr hfields hbasicOffset (by decide) hleaf
    cases hend
    rw [decode?, hfirst]
    rfl
  | wrap b =>
    obtain ⟨first, hfirst, hrest⟩ := Value.exists_of_fieldOr hfields hwrap (by decide) hleaf
    rw [decode?, Value.decode?_of_decodeTable? hfirst (by cases b <;> decide) hrest]
    rfl
  | oneLine k =>
    obtain ⟨first, hfirst, hrest⟩ := Value.exists_of_fieldOr hfields honeLine (by decide) hleaf
    rw [decode?, Value.decode?_of_decodeTable? hfirst (by cases k <;> decide) hrest]
    rfl
  | shareLine e =>
    obtain ⟨first, hfirst, hrest⟩ := Value.exists_of_fieldOr hfields hshareLine (by decide) hleaf
    rw [decode?, Value.decode?_of_decodeTable? hfirst (by cases e <;> decide) hrest]
    rfl
  | alignDeclarations =>
    obtain ⟨first, hfirst, hend⟩ :=
      Value.exists_of_fieldOr hfields halignDeclarations (by decide) hleaf
    cases hend
    rw [decode?, hfirst]
    rfl

/-- A layout with a section over it: each key has what its leaf in the section says, and what the
layout below has where the section has no leaf. -/
theorem get_of_overlay {host : Host} {base layout : LayoutSettings} {v : Value} {k : LayoutKey}
    (h : base.overlay host v.lastFields = .ok layout) (hmaps : v.lastFields.MapsAlong k.path) :
    match v.lastFields.at? k.path with
    | some leaf => k.decode? .json leaf = some (k.get layout)
    | none => k.get layout = k.get base := by
  rw [LayoutSettings.overlay] at h
  split at h
  · rename_i layout' hlayout
    cases h
    -- The base is written in full, so no key is missing when the result is read, and no default of
    -- the reader gets in.
    have hover := Value.at?_overlay (at?_toValue base k) (leaf_ne_map base k) hmaps
    have hread := decode?_of_ofValue? hlayout hover
    cases hleaf : v.lastFields.at? k.path with
    | some leaf =>
      rw [hleaf] at hread
      exact hread
    | none =>
      rw [hleaf, Option.getD_none, decode?_leaf] at hread
      exact (Option.some.inj hread).symm
  · cases h

end LayoutKey

end TreeLayout
