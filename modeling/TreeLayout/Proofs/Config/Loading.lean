import TreeLayout.Host.Standard
import TreeLayout.Proofs.Data.Fields
import TreeLayout.Proofs.Data.Traversal
import TreeLayout.Proofs.Files.Plain

/-!
# What loading a configuration does

`Config.LoadedFrom` says all that the loader does with one file: what the file says itself is the
configuration, unless the file builds on others; then their configurations lie over the default, one
after the other, and its own settings over them. `loadedFrom_of_loadWithin` gives it for every file
that is loaded, however many files may still build on each other, and `loadWithin_of_loadedFrom`
loads such a file. Proofs about loaded configurations start from there.
-/

namespace TreeLayout

/-- A layout with a layout section over it, if there is one. -/
def LayoutSettings.overlaySection (base : LayoutSettings) (host : Host) :
    (section? : Option Value) → Except ConfigError LayoutSettings
  | some overrides => base.overlay host overrides
  | none => .ok base

namespace Config

/-- The document in a file, in the form in which its settings are read, and the format of the file.
-/
def document? (host : Host) (path content : String) : Option (Dialect × Value) :=
  match (Path.extension? path).getD "" with
  | "yaml" | "yml" => (host.yaml content).toOption.map fun v => (.yaml, v.toValue)
  | "json" => (host.json content).toOption.map fun v => (.json, v.lastFields)
  | _ => none

/-- The configuration of a base that the file at a path names. -/
def loadBase (host : Host) (files : Files) (depth : Nat) (path name : String) :
    Except ConfigError Config :=
  match preset? name with
  | some preset => .ok preset
  | none => loadWithin host files depth (basePath path name)

/-- Configurations over the default, the later ones over the earlier ones. -/
def mergeAll (bases : List Config) : Config := bases.foldl merge default

/-- The configuration of a file that says `own` itself and has a layout section or none: all of it
is `own` if the file builds on nothing; otherwise the file lies over its bases, and its layout section
over their layout. -/
def layOver (host : Host) (files : Files) (depth : Nat) (path : String) (own : Config)
    (section? : Option Value) : Except ConfigError Config :=
  if own.bases = [] then .ok own
  else do
    let bases ← own.bases.mapM (loadBase host files depth path)
    let layout ← (mergeAll bases).layout.overlaySection host section?
    return { (mergeAll bases).merge own with layout }

/-- What a configuration has to do with the file it is loaded from, where at most `depth` files may
build on each other below it. -/
inductive LoadedFrom (host : Host) (files : Files) (depth : Nat) (path : String) (own : Config)
    (section? : Option Value) : Config → Prop
  /-- A file that builds on nothing says everything itself. -/
  | alone (hbases : own.bases = []) : LoadedFrom host files depth path own section? own
  /-- A file lies over its bases, and its layout section over their layout. -/
  | layered {bases : List Config} {layout : LayoutSettings} (hne : own.bases ≠ [])
    (hbases : own.bases.mapM (loadBase host files depth path) = .ok bases)
    (hlayout : (mergeAll bases).layout.overlaySection host section? = .ok layout) :
    LoadedFrom host files depth path own section? { (mergeAll bases).merge own with layout }

variable {host : Host} {files : Files} {depth : Nat} {path content : String} {own config : Config}
  {section? : Option Value}

/-- What the loader takes from a JSON file: the settings in it, and its layout section as it stands.
-/
theorem exists_of_ofJson (h : ofJson host content = .ok (own, section?)) :
    ∃ v, host.json content = .ok v ∧
      ofValue? .json v.lastFields = some own ∧ section? = v.lastFields.field? "layout" := by
  rw [ofJson] at h
  split at h
  · cases h
  · rename_i v hv
    dsimp only at h
    split at h
    · rename_i hown
      cases h
      exact ⟨v, hv, hown, rfl⟩
    · cases h

/-- What the loader takes from a YAML file: the settings in it, and its layout section in the form
of JSON. -/
theorem exists_of_ofYaml (h : ofYaml host content = .ok (own, section?)) :
    ∃ v, host.yaml content = .ok v ∧ ofValue? .yaml v.toValue = some own ∧
      match v.field? "layout" with
      | some layout => ∃ json, layout.toJson? = some json ∧ section? = some json.lastFields
      | none => section? = none := by
  rw [ofYaml] at h
  split at h
  · cases h
  · rename_i v hv
    refine ⟨v, hv, ?_⟩
    cases hvalue : ofValue? .yaml v.toValue with
    | none =>
      rw [hvalue] at h
      dsimp only at h
      split at h
      · cases h
      · split at h <;> cases h
    | some config =>
      rw [hvalue] at h
      cases hlayout : v.field? "layout" with
      | none =>
        rw [hlayout] at h
        cases h
        exact ⟨rfl, rfl⟩
      | some layout =>
        rw [hlayout] at h
        dsimp only at h ⊢
        split at h
        · rename_i json hjson
          cases h
          exact ⟨rfl, json, hjson, rfl⟩
        · cases h

/-- What a file says itself is read from the document in it. -/
theorem exists_document?_of_ownSettings (h : ownSettings host path content = .ok (own, section?)) :
    ∃ d v, document? host path content = some (d, v) ∧ ofValue? d v = some own := by
  rw [ownSettings] at h
  split at h
  iterate 2
    rename_i hextension
    obtain ⟨v, hv, hown, -⟩ := exists_of_ofYaml h
    refine ⟨.yaml, v.toValue, ?_, hown⟩
    simp only [document?, hextension, hv, Except.toOption, Option.map_some]
  · rename_i hextension
    obtain ⟨v, hv, hown, -⟩ := exists_of_ofJson h
    refine ⟨.json, v.lastFields, ?_, hown⟩
    simp only [document?, hextension, hv, Except.toOption, Option.map_some]
  · cases h

/-- The layout section of a file keeps the last fields everywhere. -/
theorem eq_lastFields_of_ownSettings {overrides : Value}
    (h : ownSettings host path content = .ok (own, some overrides)) :
    ∃ v : Value, overrides = v.lastFields := by
  rw [ownSettings] at h
  split at h
  iterate 2
    obtain ⟨v, -, -, hsection⟩ := exists_of_ofYaml h
    split at hsection
    · obtain ⟨json, -, hjson⟩ := hsection
      cases hjson
      exact ⟨json, rfl⟩
    · cases hsection
  · obtain ⟨v, -, -, hsection⟩ := exists_of_ofJson h
    exact Value.eq_lastFields_of_field? hsection.symm
  · cases h

/-- The layout of several configurations is the one of the last. -/
theorem layout_mergeAll_concat (bases : List Config) (last : Config) :
    (mergeAll (bases ++ [last])).layout = last.layout := by
  rw [mergeAll, List.foldl_append]
  rfl

/-- What the loader does with a file, step by step. -/
theorem loadWithin_succ (host : Host) (files : Files) (depth : Nat) (path : String) :
    loadWithin host files (depth + 1) path =
      (do
        let content ← (files.read path).mapError .file
        let (own, section?) ← ownSettings host path content
        layOver host files depth path own section?) := by
  rw [loadWithin]
  cases files.read path with
  | error e => rfl
  | ok content =>
    change (ownSettings host path content >>= _) = (ownSettings host path content >>= _)
    congr 1
    funext ⟨own, section?⟩
    dsimp only [layOver]
    by_cases hbases : own.bases = []
    -- The program loads and merges one base after the other; `layOver` loads them all first.
    · rw [if_pos hbases, if_pos (List.isEmpty_iff.2 hbases)]
      rfl
    · rw [if_neg hbases, if_neg (mt List.isEmpty_iff.1 hbases)]
      have hfold := foldlM_eq_mapM (loadBase host files depth path) merge own.bases default
      refine (congrArg (· >>= _) (Eq.trans ?_ hfold)).trans ?_
      · congr 1
        funext config name
        rw [loadBase]
        cases preset? name <;> rfl
      · cases own.bases.mapM (loadBase host files depth path) with
        | error e => rfl
        | ok bases => cases section? <;> rfl

/-- A file is laid over its bases exactly to the configuration that it is loaded to from them. -/
theorem layOver_eq_ok_iff :
    layOver host files depth path own section? = .ok config ↔
      LoadedFrom host files depth path own section? config := by
  rw [layOver]
  constructor
  · intro h
    split at h
    · rename_i hbases
      cases h
      exact .alone hbases
    · rename_i hne
      obtain ⟨bases, hbases, h⟩ := exists_of_bind_eq_ok h
      obtain ⟨layout, hlayout, h⟩ := exists_of_bind_eq_ok h
      cases h
      exact .layered hne hbases hlayout
  · rintro (hbases | ⟨hne, hbases, hlayout⟩)
    · rw [if_pos hbases]
    · simp only [if_neg hne, hbases, hlayout, bind, Except.bind]
      rfl

/-- What a loaded configuration has to do with its file, where at most `depth` files may build on
each other. -/
theorem loadedFrom_of_loadWithin (h : loadWithin host files depth path = .ok config) :
    ∃ below content own section?, depth = below + 1 ∧ files.read path = .ok content ∧
      ownSettings host path content = .ok (own, section?) ∧
      LoadedFrom host files below path own section? config := by
  cases depth with
  | zero => cases h
  | succ below =>
    rw [loadWithin_succ] at h
    obtain ⟨content, hread, h⟩ := exists_of_bind_eq_ok h
    obtain ⟨⟨own, section?⟩, hown, h⟩ := exists_of_bind_eq_ok h
    refine ⟨below, content, own, section?, rfl, ?_, hown, layOver_eq_ok_iff.1 h⟩
    cases hfile : files.read path with
    | error e =>
      rw [hfile] at hread
      cases hread
    | ok content' =>
      rw [hfile] at hread
      cases hread
      rfl

/-- A file that can be read and lies over its bases is loaded. -/
theorem loadWithin_of_loadedFrom (hread : files.read path = .ok content)
    (hown : ownSettings host path content = .ok (own, section?))
    (h : LoadedFrom host files depth path own section? config) :
    loadWithin host files (depth + 1) path = .ok config := by
  rw [loadWithin_succ, hread]
  change (ownSettings host path content >>= _) = _
  rw [hown]
  exact layOver_eq_ok_iff.2 h

/-- A configuration is loaded as a file that at most `maxDepth` files make up, and its layout can be
used. -/
theorem load_eq_ok_iff :
    load host files path = .ok config ↔
      loadWithin host files maxDepth path = .ok config ∧ config.layout.check = .ok () := by
  rw [load]
  constructor
  · intro h
    obtain ⟨loaded, hloaded, h⟩ := exists_of_bind_eq_ok h
    obtain ⟨_, hcheck, h⟩ := exists_of_bind_eq_ok h
    cases h
    exact ⟨hloaded, hcheck⟩
  · rintro ⟨hloaded, hcheck⟩
    simp only [hloaded, hcheck, bind, Except.bind]
    rfl

/-- A file with a plain name has its bases next to it. -/
theorem basePath_of_isName (h : Path.IsName path) (base : String) : basePath path base = base := by
  rw [basePath, h.parent?, Option.getD_some, Path.join, if_pos]
  exact Bool.or_true _

/-! ## Two files -/

/-- A file that builds on the next one and sets a format and an alignment that are the default. -/
def upperFile : String :=
  "\x7b\"extends\":[\"b.json\"],\"output\":\x7b\"format\":\"text\"\x7d," ++
    "\"layout\":\x7b\"align_declarations\":false\x7d\x7d"

/-- A file that builds on a preset. -/
def lowerFile : String :=
  "\x7b\"extends\":[\"strict\"],\"output\":\x7b\"format\":\"json\"\x7d\x7d"

/-- A directory with two configuration files, one of which builds on the other. -/
def twoFiles : Files := { entries := [("a.json", upperFile), ("b.json", lowerFile)] }

/-- The layout section in the upper file. -/
def upperSection : Value := .map [("align_declarations", .bool false)]

/-- The document in the upper file. -/
def upperDocument : Value :=
  .map
    [("extends", .seq [.text "b.json"]), ("output", .map [("format", .text "text")]),
     ("layout", upperSection)]

/-- The settings in the upper file. -/
def upperOwn : Config := { default with bases := ["b.json"] }

/-- The settings in the lower file. -/
def lowerOwn : Config :=
  { default with
    bases := ["strict"]
    output := { OutputSettings.default with format := .json } }

/-- The configuration of the lower file. -/
def lowerConfig : Config :=
  { (mergeAll [ofLayout .strict]).merge lowerOwn with layout := .strict }

/-- The upper file has a plain name. -/
theorem isName_upper : Path.IsName "a.json" := ⟨by decide, by decide, by decide, by decide⟩

/-- The lower file has a plain name. -/
theorem isName_lower : Path.IsName "b.json" := ⟨by decide, by decide, by decide, by decide⟩

/-- Both files have plain names. -/
theorem isName_of_mem_twoFiles : ∀ entry ∈ twoFiles.entries, Path.IsName entry.1 := by
  simp [twoFiles, isName_upper, isName_lower]

/-- The upper file is read. -/
theorem read_upper : twoFiles.read "a.json" = .ok upperFile :=
  Files.read_of_lookup isName_of_mem_twoFiles isName_upper (by decide) (by decide) rfl

/-- The lower file is read. -/
theorem read_lower : twoFiles.read "b.json" = .ok lowerFile :=
  Files.read_of_lookup isName_of_mem_twoFiles isName_lower (by decide) (by decide) rfl

/-- The upper file is read as its document. -/
theorem json_upperFile : Host.standard.json upperFile = .ok upperDocument := by
  cbv

/-- The name of the upper file says that it is JSON. -/
theorem extension?_upper : Path.extension? "a.json" = some "json" := by
  rw [isName_upper.extension?]
  cbv

/-- The document of the upper file. -/
theorem document?_upper : document? .standard "a.json" upperFile = some (.json, upperDocument) := by
  rw [document?, extension?_upper, json_upperFile]
  rfl

/-- What the upper file itself says. -/
theorem ownSettings_upper :
    ownSettings .standard "a.json" upperFile = .ok (upperOwn, some upperSection) := by
  rw [ownSettings, extension?_upper]
  change ofJson .standard upperFile = _
  rw [ofJson, json_upperFile]
  rfl

/-- What the lower file itself says. -/
theorem ownSettings_lower : ownSettings .standard "b.json" lowerFile = .ok (lowerOwn, none) := by
  have hextension : Path.extension? "b.json" = some "json" := by
    rw [isName_lower.extension?]
    cbv
  have hjson : Host.standard.json lowerFile = .ok (.map
      [("extends", .seq [.text "strict"]), ("output", .map [("format", .text "json")])]) := by
    cbv
  rw [ownSettings, hextension]
  change ofJson .standard lowerFile = _
  rw [ofJson, hjson]
  rfl

/-- The upper file keeps its own alignment, and has the policies of the preset and the format of the
lower file. -/
theorem load_twoFiles : ∃ config, load .standard twoFiles "a.json" = .ok config ∧
    config.layout.alignDeclarations = false ∧ config.layout.wrap .annotations = .must ∧
      config.output.format = .json := by
  obtain ⟨layout, hlayout, hcheck, halign, hwrap⟩ : ∃ layout,
      LayoutSettings.strict.overlay .standard upperSection = .ok layout ∧ layout.check = .ok () ∧
        layout.alignDeclarations = false ∧ layout.wrap .annotations = .must :=
    ⟨_, rfl, rfl, rfl, rfl⟩
  have hlower : loadWithin .standard twoFiles 9 "b.json" = .ok lowerConfig :=
    loadWithin_of_loadedFrom read_lower ownSettings_lower (.layered (by decide) rfl rfl)
  have hbase : loadBase .standard twoFiles 9 "a.json" "b.json" = .ok lowerConfig := by
    rw [loadBase, basePath_of_isName isName_upper, hlower]
    rfl
  have hbases :
      upperOwn.bases.mapM (loadBase .standard twoFiles 9 "a.json") = .ok [lowerConfig] := by
    change ["b.json"].mapM (loadBase .standard twoFiles 9 "a.json") = _
    rw [List.mapM_cons, hbase]
    rfl
  have hupper : loadWithin .standard twoFiles maxDepth "a.json" =
      .ok { (mergeAll [lowerConfig]).merge upperOwn with layout } :=
    loadWithin_of_loadedFrom read_upper ownSettings_upper (.layered (by decide) hbases hlayout)
  exact ⟨_, load_eq_ok_iff.2 ⟨hupper, hcheck⟩, halign, hwrap, rfl⟩

end Config

end TreeLayout
