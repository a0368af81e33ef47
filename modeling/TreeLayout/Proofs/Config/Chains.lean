import TreeLayout.Proofs.Config.Calls
import TreeLayout.Proofs.Files.Relative
import Mathlib.Logic.Relation

/-!
# Files that build on each other

A file that is loaded has all its bases loaded, with one file less that may build on others
(`exists_loadWithin_of_buildsOn`). So all the files that can be reached from it are loaded, and no
chain of them is longer than the loader allows (`length_lt_of_loadWithin`). A circle of files has
chains of every length. The paths along a circle need not come back to one that was met before,
since each of them is relative to the last one; but they come back to the same file, and from there
on the same files are met again, under other paths (`exists_sameFile_of_transGen`).
-/

namespace TreeLayout.Config

open Relation (ReflTransGen TransGen)

variable {host : Host} {files : Files} {depth depth' : Nat} {path other next : String}
  {own config config' : Config} {section? : Option Value}

/-- A file names a path on which it builds, relative to itself. -/
def BuildsOn (host : Host) (files : Files) (path next : String) : Prop :=
  ∃ own section? name, ofFile host files path = .ok (own, section?) ∧ name ∈ own.bases ∧
    preset? name = none ∧ next = basePath path name

/-- A circle of files can be reached from a path: from one path of a file a chain leads to the same
file. -/
def Circles (host : Host) (files : Files) (path : String) : Prop :=
  ∃ first last, ReflTransGen (BuildsOn host files) path first ∧ TransGen (BuildsOn host files) first last ∧
    files.SameFile first last

/-! ## The length of a chain -/

/-- A file that is loaded can be read. -/
theorem exists_ofFile_of_loadWithin (h : loadWithin host files depth path = .ok config) :
    ∃ below own section?, depth = below + 1 ∧ ofFile host files path = .ok (own, section?) := by
  cases depth with
  | zero => cases h
  | succ below =>
    cases hfile : ofFile host files path with
    | error e =>
      rw [loadWithin_of_ofFile_eq_error hfile] at h
      cases h
    | ok said => exact ⟨below, said.1, said.2, rfl, rfl⟩

/-- A file is loaded only with all the files on which it builds. -/
theorem exists_loadWithin_of_buildsOn (h : loadWithin host files depth path = .ok config)
    (hnext : BuildsOn host files path next) :
    ∃ below base, depth = below + 1 ∧ loadWithin host files below next = .ok base := by
  obtain ⟨own, section?, name, hfile, hname, hpreset, rfl⟩ := hnext
  obtain ⟨below, -, -, rfl, -⟩ := exists_ofFile_of_loadWithin h
  rw [loadWithin_of_ofFile hfile, if_neg (List.ne_nil_of_mem hname)] at h
  obtain ⟨base, hbases, -⟩ := exists_of_bind_eq_ok h
  obtain ⟨next, hnext⟩ := exists_of_mergeBases_eq_ok hbases name hname
  rw [loadBase, hpreset] at hnext
  exact ⟨below, next, rfl, hnext⟩

/-- Of the files that build on each other below a file that is loaded there are fewer than may. -/
theorem length_lt_of_loadWithin {later : List String}
    (h : loadWithin host files depth path = .ok config)
    (hchain : (path :: later).IsChain (BuildsOn host files)) : later.length < depth := by
  induction later generalizing depth path config with
  | nil =>
    obtain ⟨below, -, -, rfl, -⟩ := exists_ofFile_of_loadWithin h
    exact Nat.succ_pos below
  | cons next later ih =>
    obtain ⟨hnext, hlater⟩ := List.isChain_cons_cons.1 hchain
    obtain ⟨below, base, rfl, hbase⟩ := exists_loadWithin_of_buildsOn h hnext
    exact Nat.succ_lt_succ (ih hbase hlater)

/-- No JSON document alone is too deep a chain. -/
theorem ofJson_ne_tooDeep (host : Host) (content : String) : ofJson host content ≠ .error (.invalid .tooDeep) := by
  intro h
  rw [ofJson] at h
  split at h
  · cases h
  · dsimp only at h
    split at h <;> cases h

/-- No YAML document alone is too deep a chain. -/
theorem ofYaml_ne_tooDeep (host : Host) (content : String) : ofYaml host content ≠ .error (.invalid .tooDeep) := by
  intro h
  rw [ofYaml] at h
  split at h
  · cases h
  · rename_i v _
    cases hown : ofValue? .yaml v.toValue <;> cases hlayout : v.field? "layout" with
    | none =>
      rw [hown, hlayout] at h
      cases h
    | some layout =>
      rw [hown, hlayout] at h
      dsimp only at h
      split at h <;> cases h

/-- What a file says itself is not refused for the number of files. -/
theorem ofFile_ne_tooDeep : ofFile host files path ≠ .error (.invalid .tooDeep) := by
  intro h
  rw [ofFile] at h
  cases hread : files.read path with
  | error e =>
    rw [hread] at h
    cases h
  | ok content =>
    rw [hread] at h
    change ownSettings host path content = _ at h
    rw [ownSettings] at h
    split at h
    · exact ofYaml_ne_tooDeep host content h
    · exact ofYaml_ne_tooDeep host content h
    · exact ofJson_ne_tooDeep host content h
    · cases h

/-- A file over its bases is not refused for the number of files. -/
theorem close_ne_tooDeep (host : Host) (base own : Config) (section? : Option Value) :
    close host base own section? ≠ .error (.invalid .tooDeep) := by
  intro h
  rw [close] at h
  cases section? with
  | none => cases h
  | some overrides =>
    rw [LayoutSettings.overlaySection, LayoutSettings.overlay] at h
    split at h <;> cases h

/-- A file is refused for the number of files only if there is a chain of them that is too long. -/
theorem exists_chain_of_tooDeep (h : loadWithin host files depth path = .error (.invalid .tooDeep)) :
    ∃ later, (path :: later).IsChain (BuildsOn host files) ∧ later.length = depth := by
  induction depth generalizing path with
  | zero => exact ⟨[], .singleton path, rfl⟩
  | succ depth ih =>
    cases hfile : ofFile host files path with
    | error e =>
      rw [loadWithin_of_ofFile_eq_error hfile] at h
      cases h
      exact absurd hfile ofFile_ne_tooDeep
    | ok said =>
      obtain ⟨own, section?⟩ := said
      rw [loadWithin_of_ofFile hfile] at h
      split_ifs at h with hbases
      cases hbase : mergeBases host files depth path default own.bases with
      | ok base =>
        rw [hbase] at h
        exact absurd h (close_ne_tooDeep host base own section?)
      | error e =>
        rw [hbase] at h
        cases h
        obtain ⟨name, hname, hload⟩ := exists_of_mergeBases_eq_error hbase
        rw [loadBase] at hload
        split at hload
        · cases hload
        · rename_i hpreset
          obtain ⟨later, hchain, hlength⟩ := ih hload
          refine ⟨basePath path name :: later, ?_, congrArg (· + 1) hlength⟩
          exact hchain.cons_cons ⟨own, section?, name, hfile, hname, hpreset, rfl⟩

/-! ## Circles -/

/-- A file that is loaded has all files loaded on which it builds, within its own bound. -/
theorem exists_loadWithin_of_reflTransGen (h : loadWithin host files depth path = .ok config)
    (hreach : ReflTransGen (BuildsOn host files) path next) :
    ∃ below base, below ≤ depth ∧ loadWithin host files below next = .ok base := by
  induction hreach with
  | refl => exact ⟨depth, config, le_rfl, h⟩
  | tail _ hnext ih =>
    obtain ⟨below, base, hbelow, hbase⟩ := ih
    obtain ⟨below', base', rfl, hbase'⟩ := exists_loadWithin_of_buildsOn hbase hnext
    exact ⟨below', base', by omega, hbase'⟩

/-- A file that is loaded has all files below it loaded within a smaller bound. -/
theorem exists_loadWithin_of_transGen (h : loadWithin host files depth path = .ok config)
    (hreach : TransGen (BuildsOn host files) path next) :
    ∃ below base, below < depth ∧ loadWithin host files below next = .ok base := by
  obtain ⟨first, hfirst, hnext⟩ := Relation.TransGen.head'_iff.1 hreach
  obtain ⟨below, base, rfl, hbase⟩ := exists_loadWithin_of_buildsOn h hfirst
  obtain ⟨below', base', hle, hbase'⟩ := exists_loadWithin_of_reflTransGen hbase hnext
  exact ⟨below', base', by omega, hbase'⟩

/-- A file that can be read as a configuration has a last name, and what it says itself it says
under every path with this name. -/
theorem exists_read_of_ofFile (h : ofFile host files path = .ok (own, section?)) :
    ∃ file name, files.find path = .ok file ∧ Path.fileName? path = some name ∧
      ∀ other, Path.fileName? other = some name →
        ownSettings host other file.2 = .ok (own, section?) := by
  obtain ⟨content, hread, hown⟩ := exists_of_bind_eq_ok (f := ownSettings host path) h
  -- Without an extension the file would not be read.
  have hextension : Path.extension? path ≠ none := by
    intro hnone
    rw [ownSettings, hnone] at hown
    cases hown
  have hname : ∃ name, Path.fileName? path = some name := by
    rw [← Option.ne_none_iff_exists']
    intro hnone
    rw [Path.extension?, hnone] at hextension
    exact hextension rfl
  obtain ⟨name, hname⟩ := hname
  cases hfind : files.find path with
  | error e =>
    rw [Files.read, hfind] at hread
    cases hread
  | ok file =>
    rw [Files.read, hfind] at hread
    cases hread
    refine ⟨file, name, rfl, hname, fun other hother => ?_⟩
    rw [ownSettings, Path.extension?_congr (hother.trans hname.symm)]
    exact hown

/-- A path that is loaded leads to a file with a name. -/
theorem exists_find_of_loadWithin (h : loadWithin host files depth path = .ok config) :
    ∃ file name, files.find path = .ok file ∧ Path.fileName? path = some name := by
  obtain ⟨-, own, section?, -, hfile⟩ := exists_ofFile_of_loadWithin h
  obtain ⟨file, name, hfind, hname, -⟩ := exists_read_of_ofFile hfile
  exact ⟨file, name, hfind, hname⟩

/-- What a file builds on under one path, it builds on under another one, and there it is the same
file. -/
theorem exists_sameFile_of_buildsOn (hsame : files.SameFile path other)
    (h : loadWithin host files depth path = .ok config)
    (h' : loadWithin host files depth' other = .ok config')
    (hnext : BuildsOn host files path next) :
    ∃ next', BuildsOn host files other next' ∧ files.SameFile next next' := by
  obtain ⟨own, section?, base, hfile, hbase, hpreset, rfl⟩ := hnext
  have hnext : BuildsOn host files path (basePath path base) :=
    ⟨own, section?, base, hfile, hbase, hpreset, rfl⟩
  obtain ⟨file, name, hfind, hname, hown⟩ := exists_read_of_ofFile hfile
  obtain ⟨file', name', hfind', hname'⟩ := exists_find_of_loadWithin h'
  obtain rfl := hsame.fileName?_eq hname hname'
  -- The file is the same, so it says the same.
  have hother : ofFile host files other = .ok (own, section?) := by
    rw [ofFile, ← hsame.read_eq, Files.read, hfind]
    exact hown other hname'
  have hnext' : BuildsOn host files other (basePath other base) :=
    ⟨own, section?, base, hother, hbase, hpreset, rfl⟩
  obtain ⟨_, _, -, hload⟩ := exists_loadWithin_of_buildsOn h hnext
  obtain ⟨_, _, -, hload'⟩ := exists_loadWithin_of_buildsOn h' hnext'
  obtain ⟨below, _, hbelow, -⟩ := exists_find_of_loadWithin hload
  obtain ⟨below', _, hbelow', -⟩ := exists_find_of_loadWithin hload'
  exact ⟨_, hnext', hsame.join hname hname' hbelow hbelow'⟩

/-- A chain from one path of a file is a chain from another one, and ends at the same file. -/
theorem exists_sameFile_of_transGen (hsame : files.SameFile path other)
    (h : loadWithin host files depth path = .ok config)
    (h' : loadWithin host files depth' other = .ok config')
    (hreach : TransGen (BuildsOn host files) path next) :
    ∃ next', TransGen (BuildsOn host files) other next' ∧ files.SameFile next next' := by
  induction hreach using TransGen.head_induction_on
    generalizing other depth depth' config config' with
  | single hnext =>
    obtain ⟨next', hnext', hsame'⟩ := exists_sameFile_of_buildsOn hsame h h' hnext
    exact ⟨next', .single hnext', hsame'⟩
  | head hfirst hrest ih =>
    obtain ⟨first', hfirst', hsame'⟩ := exists_sameFile_of_buildsOn hsame h h' hfirst
    obtain ⟨_, _, -, hload⟩ := exists_loadWithin_of_buildsOn h hfirst
    obtain ⟨_, _, -, hload'⟩ := exists_loadWithin_of_buildsOn h' hfirst'
    obtain ⟨next', hnext', hsame''⟩ := ih hsame' hload hload'
    exact ⟨next', .head hfirst' hnext', hsame''⟩

/-- No file on a circle is loaded: it would be loaded again with fewer files left, and again. -/
theorem not_sameFile_of_loadWithin (h : loadWithin host files depth path = .ok config)
    (hreach : TransGen (BuildsOn host files) path next) : ¬ files.SameFile path next := by
  induction depth using Nat.strong_induction_on generalizing path next config with
  | _ depth ih =>
    intro hsame
    obtain ⟨below, base, hbelow, hload⟩ := exists_loadWithin_of_transGen h hreach
    obtain ⟨next', hreach', hsame'⟩ := exists_sameFile_of_transGen hsame h hload hreach
    exact ih below hbelow hload hreach' hsame'

/-! ## Loading -/

/-- A configuration is loaded as the outermost call returns it, and its layout is checked. -/
theorem load_eq_bind (host : Host) (files : Files) (path : String) :
    load host files path = ((Call.file 0 path).result host files).bind fun config =>
      config.layout.check.map fun _ => config := by
  rw [load]
  change loadWithin host files maxDepth path >>= _ = (loadWithin host files maxDepth path).bind _
  cases loadWithin host files maxDepth path with
  | error e => rfl
  | ok config =>
    change (config.layout.check >>= fun _ => .ok config) = config.layout.check.map _
    cases config.layout.check <;> rfl

/-- A layout is not refused for the number of files. -/
theorem check_ne_tooDeep (layout : LayoutSettings) :
    layout.check ≠ .error (.invalid .tooDeep) := by
  intro h
  rw [LayoutSettings.check] at h
  split at h <;> cases h

/-- Loading a file comes to an end, with one result. It succeeds only if no chain of files that
build on each other, from this one on, is longer than ten, and the number of files is the reason for
which it fails only if one is. If a circle of files can be reached from it, the file is not loaded.
-/
theorem load_bounds_chains (host : Host) (files : Files) (path : String) :
    (∃ r, (∀ r', (Call.file 0 path).Returns host files r' ↔ r' = r) ∧
        load host files path = r.bind fun config => config.layout.check.map fun _ => config) ∧
      (∀ config, load host files path = .ok config →
        ∀ later, (path :: later).IsChain (BuildsOn host files) → (path :: later).length ≤ 10) ∧
      (load host files path = .error (.invalid .tooDeep) →
        ∃ later, (path :: later).IsChain (BuildsOn host files) ∧ (path :: later).length = 11) ∧
      (Circles host files path → ∃ e, load host files path = .error e) := by
  refine ⟨⟨_, fun r' => Call.returns_iff, load_eq_bind host files path⟩, ?_, ?_, ?_⟩
  · intro config h later hchain
    exact length_lt_of_loadWithin (load_eq_ok_iff.1 h).1 hchain
  · intro h
    rw [load_eq_bind] at h
    cases hresult : (Call.file 0 path).result host files with
    | error e =>
      rw [hresult] at h
      cases h
      obtain ⟨later, hchain, hlength⟩ := exists_chain_of_tooDeep hresult
      exact ⟨later, hchain, congrArg (· + 1) hlength⟩
    | ok config =>
      rw [hresult] at h
      change config.layout.check.map _ = _ at h
      cases hcheck : config.layout.check with
      | error e =>
        rw [hcheck] at h
        cases h
        exact absurd hcheck (check_ne_tooDeep config.layout)
      | ok _ =>
        rw [hcheck] at h
        cases h
  · rintro ⟨first, last, hfirst, hlast, hsame⟩
    cases h : load host files path with
    | error e => exact ⟨e, rfl⟩
    | ok config =>
      -- The files on the circle would be loaded as well.
      obtain ⟨_, _, -, hbelow⟩ :=
        exists_loadWithin_of_reflTransGen (load_eq_ok_iff.1 h).1 hfirst
      exact absurd hsame (not_sameFile_of_loadWithin hbelow hlast)

/-! ## A circle of one file -/

/-- A file that builds on itself, under another path. -/
def circleFile : String := "\x7b\"extends\":[\"./a.json\"]\x7d"

/-- A directory with a file that builds on itself. -/
def circleFiles : Files := { entries := [("a.json", circleFile)] }

/-- The file is read. -/
theorem read_circleFile : circleFiles.read "a.json" = .ok circleFile := by
  refine Files.read_of_lookup ?_ isName_upper (by decide) (by decide) rfl
  simp [circleFiles, isName_upper]

/-- The file says that it builds on itself, and nothing else. -/
theorem ofFile_circleFile :
    ofFile .standard circleFiles "a.json" = .ok ({ default with bases := ["./a.json"] }, none) := by
  have hjson : Host.standard.json circleFile =
      .ok (.map [("extends", .seq [.text "./a.json"])]) := by
    cbv
  rw [ofFile, read_circleFile]
  change ownSettings .standard "a.json" circleFile = _
  rw [ownSettings, extension?_upper]
  change ofJson .standard circleFile = _
  rw [ofJson, hjson]
  rfl

/-- Both paths lead to the file. -/
theorem sameFile_circleFiles : circleFiles.SameFile "a.json" "./a.json" := by
  have hpieces : "./a.json".splitOn "/" = [".", "a.json"] := by
    rw [Text.splitOn_slash]
    decide
  have hrelative : Path.isAbsolute "./a.json" = false := by
    rw [Path.isAbsolute, Bool.eq_false_iff, ne_eq, String.startsWith_string_iff]
    decide
  have hresolve : circleFiles.resolve "./a.json" = circleFiles.resolve "a.json" := by
    rw [Files.resolve_of_isName isName_upper (by decide), Files.resolve, if_neg (by simp),
      if_neg (by decide), hrelative, hpieces]
    rfl
  have hfind : circleFiles.find "./a.json" = circleFiles.find "a.json" := by
    rw [Files.find_of_not_isAbsolute hrelative,
      Files.find_of_not_isAbsolute isName_upper.not_isAbsolute, Files.locate, hresolve, Files.locate]
  have hread := read_circleFile
  rw [Files.read] at hread
  cases hfile : circleFiles.find "a.json" with
  | error e =>
    rw [hfile] at hread
    cases hread
  | ok file => exact ⟨file, hfile, hfind.trans hfile⟩

/-- A file that builds on itself under another path is not loaded. -/
theorem load_bounds_chains_circle :
    Circles .standard circleFiles "a.json" ∧ ∃ e, load .standard circleFiles "a.json" = .error e := by
  have hnext : BuildsOn .standard circleFiles "a.json" "./a.json" :=
    ⟨_, _, "./a.json", ofFile_circleFile, List.mem_singleton_self _, by decide,
      (basePath_of_isName isName_upper _).symm⟩
  have hcircle : Circles .standard circleFiles "a.json" :=
    ⟨_, _, .refl, .single hnext, sameFile_circleFiles⟩
  exact ⟨hcircle, (load_bounds_chains .standard circleFiles "a.json").2.2.2 hcircle⟩

end TreeLayout.Config
