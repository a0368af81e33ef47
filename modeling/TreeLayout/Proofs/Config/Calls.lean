import TreeLayout.Proofs.Config.Loading

/-!
# The calls of the loader

To load a file that builds on others, the loader calls itself for each of these, with one more file
above. `Config.Call.Returns` says what a call returns by what the calls inside it return, with no
bound on their number and no order in which they are measured. A call that went on for ever would
return nothing. `Config.Call.returns_iff` says that each call returns exactly one result, and which
one it is.
-/

namespace TreeLayout.Config

variable {host : Host} {files : Files} {depth above : Nat} {path : String} {own config : Config}
  {section? : Option Value}

/-- What a file says itself: its settings and its layout section. -/
def ofFile (host : Host) (files : Files) (path : String) :
    Except ConfigError (Config × Option Value) := do
  let content ← (files.read path).mapError .file
  ownSettings host path content

/-- The configurations of bases over one that is there already, one after the other. -/
def mergeBases (host : Host) (files : Files) (depth : Nat) (path : String) :
    Config → List String → Except ConfigError Config
  | config, [] => .ok config
  | config, name :: names => do
    let next ← loadBase host files depth path name
    mergeBases host files depth path (config.merge next) names

/-- Bases are merged one after the other. -/
theorem mergeBases_eq_foldlM (config : Config) (names : List String) :
    mergeBases host files depth path config names =
      names.foldlM (fun config name => do return config.merge (← loadBase host files depth path name))
        config := by
  induction names generalizing config with
  | nil => rfl
  | cons name names ih =>
    rw [mergeBases, List.foldlM_cons]
    cases loadBase host files depth path name with
    | error e => rfl
    | ok next => exact ih (config.merge next)

/-- Bases are laid over each other only if all of them are loaded. -/
theorem exists_of_mergeBases_eq_ok {names : List String} {base : Config}
    (h : mergeBases host files depth path config names = .ok base) :
    ∀ name ∈ names, ∃ next, loadBase host files depth path name = .ok next := by
  induction names generalizing config with
  | nil => simp
  | cons name names ih =>
    rw [mergeBases] at h
    obtain ⟨next, hnext, hrest⟩ := exists_of_bind_eq_ok h
    exact List.forall_mem_cons.2 ⟨⟨next, hnext⟩, ih hrest⟩

/-- What keeps bases from being laid over each other is the error of one of them. -/
theorem exists_of_mergeBases_eq_error {names : List String} {e : ConfigError}
    (h : mergeBases host files depth path config names = .error e) :
    ∃ name ∈ names, loadBase host files depth path name = .error e := by
  induction names generalizing config with
  | nil => cases h
  | cons name names ih =>
    rw [mergeBases] at h
    cases hnext : loadBase host files depth path name with
    | error e' =>
      rw [hnext] at h
      cases h
      exact ⟨name, List.mem_cons_self, hnext⟩
    | ok next =>
      rw [hnext] at h
      obtain ⟨name', hmem, herror⟩ := ih h
      exact ⟨name', List.mem_cons_of_mem _ hmem, herror⟩

/-- A file over its bases and its layout section over their layout. -/
def close (host : Host) (base own : Config) (section? : Option Value) :
    Except ConfigError Config := do
  let layout ← base.layout.overlaySection host section?
  return { base.merge own with layout }

/-- The loader reads a file and lays it over its bases. -/
theorem loadWithin_eq_bind (host : Host) (files : Files) (depth : Nat) (path : String) :
    loadWithin host files (depth + 1) path =
      (ofFile host files path).bind fun said => layOver host files depth path said.1 said.2 := by
  rw [loadWithin_succ, ofFile]
  cases files.read path <;> rfl

/-- What the loader does with a file that can be read: it is done if the file builds on nothing, and
lays the file over its bases otherwise. -/
theorem loadWithin_of_ofFile (h : ofFile host files path = .ok (own, section?)) (depth : Nat) :
    loadWithin host files (depth + 1) path =
      if own.bases = [] then .ok own
      else
        (mergeBases host files depth path default own.bases).bind fun base =>
          close host base own section? := by
  rw [loadWithin_eq_bind, h]
  change layOver host files depth path own section? = _
  rw [layOver, mergeBases_eq_foldlM, foldlM_eq_mapM]
  cases own.bases.mapM (loadBase host files depth path) <;> rfl

/-- A file that cannot be read alone is not loaded. -/
theorem loadWithin_of_ofFile_eq_error {e : ConfigError} (h : ofFile host files path = .error e)
    (depth : Nat) : loadWithin host files (depth + 1) path = .error e := by
  rw [loadWithin_eq_bind, h]
  rfl

/-- A call of the loader. -/
inductive Call where
  /-- For a file, with a number of files above that build on it. -/
  | file (above : Nat) (path : String)
  /-- For the bases of a file that are left to be laid over a configuration, with a number of files
  above them. -/
  | bases (above : Nat) (path : String) (config : Config) (names : List String)

namespace Call

/-- What a call returns. -/
inductive Returns (host : Host) (files : Files) : Call → Except ConfigError Config → Prop
  /-- Too many files build on the file. -/
  | refused {above : Nat} {path : String} (habove : maxDepth ≤ above) :
    Returns host files (.file above path) (.error (.invalid .tooDeep))
  /-- The file cannot be read. -/
  | unreadable {above : Nat} {path : String} {e : ConfigError} (habove : above < maxDepth)
    (hfile : ofFile host files path = .error e) : Returns host files (.file above path) (.error e)
  /-- The file builds on nothing. -/
  | alone {above : Nat} {path : String} {own : Config} {section? : Option Value}
    (habove : above < maxDepth) (hfile : ofFile host files path = .ok (own, section?))
    (hbases : own.bases = []) : Returns host files (.file above path) (.ok own)
  /-- The file builds on others, which are loaded first. -/
  | layered {above : Nat} {path : String} {own : Config} {section? : Option Value}
    {r : Except ConfigError Config} (habove : above < maxDepth)
    (hfile : ofFile host files path = .ok (own, section?)) (hbases : own.bases ≠ [])
    (hbase : Returns host files (.bases (above + 1) path default own.bases) r) :
    Returns host files (.file above path) (r.bind fun base => close host base own section?)
  /-- No bases are left. -/
  | done {above : Nat} {path : String} {config : Config} :
    Returns host files (.bases above path config []) (.ok config)
  /-- The next base is a preset. -/
  | preset {above : Nat} {path name : String} {config next : Config} {names : List String}
    {r : Except ConfigError Config} (hpreset : preset? name = some next)
    (hrest : Returns host files (.bases above path (config.merge next) names) r) :
    Returns host files (.bases above path config (name :: names)) r
  /-- The next base is a file. -/
  | base {above : Nat} {path name : String} {config next : Config} {names : List String}
    {r : Except ConfigError Config} (hpreset : preset? name = none)
    (hbase : Returns host files (.file above (basePath path name)) (.ok next))
    (hrest : Returns host files (.bases above path (config.merge next) names) r) :
    Returns host files (.bases above path config (name :: names)) r
  /-- The next base is a file that is not loaded. -/
  | failed {above : Nat} {path name : String} {config : Config} {names : List String}
    {e : ConfigError} (hpreset : preset? name = none)
    (hbase : Returns host files (.file above (basePath path name)) (.error e)) :
    Returns host files (.bases above path config (name :: names)) (.error e)

/-- The result of a call. -/
def result (host : Host) (files : Files) : Call → Except ConfigError Config
  | .file above path => loadWithin host files (maxDepth - above) path
  | .bases above path config names => mergeBases host files (maxDepth - above) path config names

/-- Below the greatest depth one more level is left. -/
theorem sub_eq_succ (h : above < maxDepth) : maxDepth - above = maxDepth - (above + 1) + 1 := by
  omega

/-- A call returns nothing else than its result. -/
theorem Returns.eq_result {call : Call} {r : Except ConfigError Config}
    (h : call.Returns host files r) : r = call.result host files := by
  induction h with
  | refused habove =>
    rw [result, Nat.sub_eq_zero_of_le habove]
    rfl
  | unreadable habove hfile =>
    rw [result, sub_eq_succ habove, loadWithin_of_ofFile_eq_error hfile]
  | alone habove hfile hbases =>
    rw [result, sub_eq_succ habove, loadWithin_of_ofFile hfile, if_pos hbases]
  | layered habove hfile hbases _ ih =>
    rw [result, sub_eq_succ habove, loadWithin_of_ofFile hfile, if_neg hbases, ih]
    rfl
  | done => rfl
  | preset hpreset _ ih =>
    rw [ih, result, result, mergeBases, loadBase, hpreset]
    rfl
  | base hpreset _ _ ihbase ih =>
    rw [result] at ihbase
    rw [ih, result, result, mergeBases, loadBase, hpreset]
    dsimp only
    rw [← ihbase]
    rfl
  | failed hpreset _ ih =>
    rw [result] at ih
    rw [result, mergeBases, loadBase, hpreset]
    dsimp only
    rw [← ih]
    rfl

/-- The calls for bases return if those for the files do on which they build. -/
theorem returns_bases (hfile : ∀ path, (Call.file above path).Returns host files
      ((Call.file above path).result host files)) (path : String) (config : Config)
    (names : List String) :
    (Call.bases above path config names).Returns host files
      ((Call.bases above path config names).result host files) := by
  induction names generalizing config with
  | nil => exact .done
  | cons name names ih =>
    rw [result, mergeBases, loadBase]
    cases hpreset : preset? name with
    | some next => exact .preset hpreset (ih (config.merge next))
    | none =>
      have hbase := hfile (basePath path name)
      rw [result] at hbase
      dsimp only
      cases hnext : loadWithin host files (maxDepth - above) (basePath path name) with
      | error e => exact .failed hpreset (hnext ▸ hbase)
      | ok next => exact .base hpreset (hnext ▸ hbase) (ih (config.merge next))

/-- Every call returns: a call for a file has fewer files left above its bases. -/
theorem returns_file (host : Host) (files : Files) (above : Nat) (path : String) :
    (Call.file above path).Returns host files ((Call.file above path).result host files) := by
  induction hleft : maxDepth - above generalizing above path with
  | zero =>
    rw [result, hleft]
    exact .refused (Nat.le_of_sub_eq_zero hleft)
  | succ left ih =>
    have habove : above < maxDepth := by omega
    rw [result, sub_eq_succ habove]
    cases hfile : ofFile host files path with
    | error e =>
      rw [loadWithin_of_ofFile_eq_error hfile]
      exact .unreadable habove hfile
    | ok said =>
      obtain ⟨own, section?⟩ := said
      rw [loadWithin_of_ofFile hfile]
      split_ifs with hbases
      · exact .alone habove hfile hbases
      · exact .layered habove hfile hbases
          (returns_bases (fun path => ih (above + 1) path (by omega)) path default own.bases)

/-- A call returns its result and nothing else. -/
theorem returns_iff {call : Call} {r : Except ConfigError Config} :
    call.Returns host files r ↔ r = call.result host files := by
  refine ⟨Returns.eq_result, ?_⟩
  rintro rfl
  cases call with
  | file above path => exact returns_file host files above path
  | bases above path config names =>
    exact returns_bases (returns_file host files above) path config names

end Call

end TreeLayout.Config
