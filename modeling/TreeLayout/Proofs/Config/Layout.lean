import TreeLayout.Proofs.Config.Keys
import TreeLayout.Proofs.Config.Loading

/-!
# The layout of files that build on others

A file that builds on others changes the keys of the layout that it sets and no others.
`Config.LayoutByKeys` says so for a file and for all files on which its layout rests: each key has
what the layout section of the file says, and where it says nothing what the configuration of the
last base has, which is a preset or the configuration of a file of which the same holds.
`layoutByKeys_of_load` gives it for every configuration that is loaded.
-/

namespace TreeLayout

/-- A layout section is a mapping, and so is every section in it that holds keys. -/
def Value.IsLayoutSection (v : Value) : Prop :=
  ∃ fields, v = .map fields ∧ ∀ name ∈ ["wrap", "allow_one_line", "multiple_per_line"],
    ∀ part, fields.lookup name = some part → ∃ keys, part = .map keys

/-- A layout has at each key what a section says, or else what the layout below has. A section is in
the form of JSON, whatever the format of its file. -/
def LayoutSettings.IsOver (layout base : LayoutSettings) (section? : Option Value) : Prop :=
  ∀ k : LayoutKey,
    match section?.bind (·.at? k.path) with
    | some leaf => k.decode? .json leaf = some (k.get layout)
    | none => k.get layout = k.get base

namespace Value.IsLayoutSection

/-- In a section of layout settings the way to each key goes over records. -/
theorem mapsAlong {v : Value} (h : v.IsLayoutSection) (k : LayoutKey) : v.MapsAlong k.path := by
  obtain ⟨fields, rfl, hparts⟩ := h
  have hsection (name : String) (hname : name ∈ ["wrap", "allow_one_line", "multiple_per_line"])
      (key : String) : (Value.map fields).MapsAlong [name, key] :=
    ⟨⟨fields, rfl⟩, fun part hpart => ⟨hparts name hname part hpart, fun _ _ => trivial⟩⟩
  cases k with
  | wrap b => exact hsection "wrap" (by decide) b.name
  | oneLine k => exact hsection "allow_one_line" (by decide) k.name
  | shareLine e => exact hsection "multiple_per_line" (by decide) e.name
  | _ => exact ⟨⟨fields, rfl⟩, fun _ _ => trivial⟩

end Value.IsLayoutSection

namespace Config

/-- A configuration that is loaded from a path, through at most `depth` files that build on each
other, has a layout that these files set key by key. -/
inductive LayoutByKeys (host : Host) (files : Files) : (depth : Nat) → (path : String) → Config → Prop
  /-- A file that builds on nothing has its own layout. -/
  | alone {depth : Nat} {path content : String} {own : Config} {section? : Option Value}
    (hread : files.read path = .ok content) (hown : ownSettings host path content = .ok (own, section?))
    (hbases : own.bases = []) : LayoutByKeys host files (depth + 1) path own
  /-- A file whose last base is a preset has its keys over those of the preset. -/
  | overPreset {depth : Nat} {path content name : String} {own base config : Config}
    {section? : Option Value} (hread : files.read path = .ok content)
    (hown : ownSettings host path content = .ok (own, section?))
    (hlast : own.bases.getLast? = some name) (hpreset : preset? name = some base)
    (hkeys : (∀ v ∈ section?, v.IsLayoutSection) → config.layout.IsOver base.layout section?) :
    LayoutByKeys host files (depth + 1) path config
  /-- A file whose last base is another file has its keys over those of that file. -/
  | overFile {depth : Nat} {path content name : String} {own base config : Config}
    {section? : Option Value} (hread : files.read path = .ok content)
    (hown : ownSettings host path content = .ok (own, section?))
    (hlast : own.bases.getLast? = some name) (hpreset : preset? name = none)
    (hload : loadWithin host files depth (basePath path name) = .ok base)
    (hbase : LayoutByKeys host files depth (basePath path name) base)
    (hkeys : (∀ v ∈ section?, v.IsLayoutSection) → config.layout.IsOver base.layout section?) :
    LayoutByKeys host files (depth + 1) path config

/-- What the loader lays over the layout of the last base are the keys of the section. -/
theorem isOver_of_overlay {host : Host} {path content : String} {own : Config} {section? : Option Value}
    {base layout : LayoutSettings} (hown : ownSettings host path content = .ok (own, section?))
    (hlayout : base.overlaySection host section? = .ok layout)
    (hsection : ∀ v ∈ section?, v.IsLayoutSection) : layout.IsOver base section? := by
  intro k
  cases section? with
  | none =>
    cases hlayout
    rfl
  | some overrides =>
    obtain ⟨v, rfl⟩ := eq_lastFields_of_ownSettings hown
    exact LayoutKey.get_of_overlay hlayout ((hsection _ rfl).mapsAlong k)

/-- However many files may build on each other, the layout of a configuration is set key by key. -/
theorem layoutByKeys_of_loadWithin {host : Host} {files : Files} {depth : Nat} {path : String}
    {config : Config} (h : loadWithin host files depth path = .ok config) :
    LayoutByKeys host files depth path config := by
  -- Each file that is one level deeper is loaded with one level less, so the induction is on the
  -- levels.
  induction depth generalizing path config with
  | zero => cases h
  | succ depth ih =>
    obtain ⟨below, content, own, section?, hdepth, hread, hown, hloaded⟩ :=
      loadedFrom_of_loadWithin h
    cases hdepth
    cases hloaded with
    | alone hbases => exact .alone hread hown hbases
    | @layered bases layout hne hbases hlayout =>
      -- Each base replaces the layout as a whole, so that only the last one counts.
      obtain ⟨before, name, hnames⟩ : ∃ before name, own.bases = before ++ [name] :=
        ⟨_, _, (List.dropLast_concat_getLast hne).symm⟩
      rw [hnames] at hbases
      obtain ⟨others, base, hbase, rfl⟩ := exists_of_mapM_concat hbases
      rw [layout_mergeAll_concat] at hlayout
      have hlast : own.bases.getLast? = some name := by
        rw [hnames, List.getLast?_concat]
      have hkeys := isOver_of_overlay hown hlayout
      cases hpreset : preset? name with
      | some preset =>
        rw [loadBase, hpreset] at hbase
        cases hbase
        exact .overPreset hread hown hlast hpreset hkeys
      | none =>
        rw [loadBase, hpreset] at hbase
        exact .overFile hread hown hlast hpreset hbase (ih hbase) hkeys

/-- The layout of a configuration is set key by key by the files on which it rests. -/
theorem layoutByKeys_of_load {host : Host} {files : Files} {path : String} {config : Config}
    (h : load host files path = .ok config) : LayoutByKeys host files maxDepth path config :=
  layoutByKeys_of_loadWithin (load_eq_ok_iff.1 h).1

/-- An explicit default wins over the preset below, and a policy that no file sets is the one of the
preset. -/
theorem layoutByKeys_twoFiles : ∃ config, load .standard twoFiles "a.json" = .ok config ∧
    LayoutByKeys .standard twoFiles maxDepth "a.json" config ∧ config.layout.alignDeclarations = false ∧
      config.layout.wrap .annotations = .must := by
  obtain ⟨config, hload, halign, hwrap, -⟩ := load_twoFiles
  exact ⟨config, hload, layoutByKeys_of_load hload, halign, hwrap⟩

end Config

end TreeLayout
