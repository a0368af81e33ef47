import Mathlib.Data.List.Induction
import TreeLayout.Proofs.Config.Loading

/-!
# Run settings of files that build on others

How a run is carried out and how its results are written does not rest on the document of a file but
on the settings that were read from it, in which a key that is not set has its default.
`RunKey.written?` is what a file itself says about a key. `RunsOver` says what comes of it. Of the
number of jobs, the format, the colours and verbosity a file changes those to which it gives a value
that is not the default, and the others stay as the bases have them. Whether files are verified at
the same time is as the file says, and by default if it says nothing. The summary is as the bases
have it, which is by default.

A key respects what files say if it has the value that is set and otherwise stays as the bases have
it (`RunKey.Respects`). That is so exactly in the cases of `RunKey.IsRespected`, which leave out a
default that is set over another value, a summary that is set to another value than the default, and
files that say nothing about verification at the same time over bases that ask for it.
`runsOver_of_load` gives it for every configuration that is loaded.
-/

namespace TreeLayout

/-- The field of a value that is read as a record with these names. -/
def Value.member? (d : Dialect) (names : List String) (name : String) (v : Value) : Option Value :=
  (v.record? d names).bind (·.lookup name)

/-- The keys of a configuration that say how a run is carried out and how its results are written. -/
inductive RunKey where
  | parallel | jobs | format | color | verbose | statistics
  deriving DecidableEq

/-- What a configuration may have at a key of a run. -/
inductive RunValue where
  | flag (b : Bool)
  | count (n : Nat)
  | format (f : OutputFormat)
  | color (m : ColorMode)
  deriving DecidableEq

namespace RunKey

/-- The section of a document that holds a key. -/
def sectionName : RunKey → String
  | parallel | jobs => "engine"
  | format | color | verbose | statistics => "output"

/-- The keys of the section that holds a key. -/
def sectionKeys : RunKey → List String
  | parallel | jobs => ["parallel", "jobs"]
  | format | color | verbose | statistics => ["format", "color", "verbose", "statistics"]

/-- The name of a key. -/
def name : RunKey → String
  | parallel => "parallel"
  | jobs => "jobs"
  | format => "format"
  | color => "color"
  | verbose => "verbose"
  | statistics => "statistics"

/-- What a configuration has at a key. -/
def get (c : Config) : RunKey → RunValue
  | parallel => .flag c.engine.parallel
  | jobs => .count c.engine.jobs
  | format => .format c.output.format
  | color => .color c.output.color
  | verbose => .flag c.output.verbose
  | statistics => .flag c.output.statistics

/-- What the leaf of a key says. -/
def decode? (d : Dialect) (leaf : Value) : RunKey → Option RunValue
  | parallel | verbose | statistics => leaf.bool?.map .flag
  | jobs => leaf.nat?.map .count
  | format => (leaf.choice? d OutputFormat.ofName?).map .format
  | color => (leaf.choice? d ColorMode.ofName?).map .color

/-- The leaf that a document has at a key, if the key is set. -/
def written? (d : Dialect) (document : Value) (k : RunKey) : Option Value :=
  (document.member? d Config.fieldNames k.sectionName).bind (·.member? d k.sectionKeys k.name)

/-- A configuration has at a key what a leaf says, or the default without a leaf. -/
def Reads (k : RunKey) (d : Dialect) (leaf? : Option Value) (a : RunValue) : Prop :=
  match leaf? with
  | some leaf => k.decode? d leaf = some a
  | none => a = k.get .default

section Reading

variable {d : Dialect} {k : RunKey}

/-- A key of a record has what is written there, or the default. -/
theorem reads_of_fieldOr {α : Type} {g : α → RunValue} {names : List String} {v : Value}
    {fields : List (String × Value)} {name : String} {default a : α} {decode? : Value → Option α}
    (hfields : v.record? d names = some fields) (h : fieldOr fields name default decode? = some a)
    (hdecode : ∀ leaf, k.decode? d leaf = (decode? leaf).map g)
    (hdefault : g default = k.get .default) : k.Reads d (v.member? d names name) (g a) := by
  rw [Value.member?, hfields, Option.bind_some]
  cases hleaf : fields.lookup name with
  | none =>
    rw [fieldOr, hleaf] at h
    cases h
    exact hdefault
  | some leaf =>
    rw [fieldOr, hleaf] at h
    exact (hdecode leaf).trans (congrArg (Option.map g) h)

/-- A key of a section that is missing has its default, as the whole section has. -/
theorem reads_of_section {σ : Type} {g : σ → RunValue} {names : List String} {v : Value}
    {fields : List (String × Value)} {name : String} {default s : σ} {ofValue? : Value → Option σ}
    (hfields : v.record? d names = some fields) (h : fieldOr fields name default ofValue? = some s)
    (hsection : ∀ part, ofValue? part = some s →
      k.Reads d (part.member? d k.sectionKeys k.name) (g s))
    (hdefault : g default = k.get .default) :
    k.Reads d ((v.member? d names name).bind (·.member? d k.sectionKeys k.name)) (g s) := by
  rw [Value.member?, hfields, Option.bind_some]
  cases hpart : fields.lookup name with
  | none =>
    rw [fieldOr, hpart] at h
    cases h
    exact hdefault
  | some part =>
    rw [fieldOr, hpart] at h
    exact hsection part h

/-- The keys of the section `engine` have what is written there, or their defaults. -/
theorem reads_of_engine {part : Value} {e : EngineSettings}
    (h : EngineSettings.ofValue? d part = some e) :
    parallel.Reads d (part.member? d parallel.sectionKeys parallel.name) (.flag e.parallel) ∧
      jobs.Reads d (part.member? d jobs.sectionKeys jobs.name) (.count e.jobs) := by
  obtain ⟨fields, hfields, h⟩ := Option.bind_eq_some_iff.1 h
  obtain ⟨parallel, hparallel, h⟩ := Option.bind_eq_some_iff.1 h
  obtain ⟨jobs, hjobs, h⟩ := Option.bind_eq_some_iff.1 h
  cases h
  exact ⟨reads_of_fieldOr hfields hparallel (fun _ => rfl) rfl,
    reads_of_fieldOr hfields hjobs (fun _ => rfl) rfl⟩

/-- The keys of the section `output` have what is written there, or their defaults. -/
theorem reads_of_output {part : Value} {o : OutputSettings}
    (h : OutputSettings.ofValue? d part = some o) :
    format.Reads d (part.member? d format.sectionKeys format.name) (.format o.format) ∧
      color.Reads d (part.member? d color.sectionKeys color.name) (.color o.color) ∧
        verbose.Reads d (part.member? d verbose.sectionKeys verbose.name) (.flag o.verbose) ∧
          statistics.Reads d (part.member? d statistics.sectionKeys statistics.name)
            (.flag o.statistics) := by
  obtain ⟨fields, hfields, h⟩ := Option.bind_eq_some_iff.1 h
  obtain ⟨format, hformat, h⟩ := Option.bind_eq_some_iff.1 h
  obtain ⟨color, hcolor, h⟩ := Option.bind_eq_some_iff.1 h
  obtain ⟨verbose, hverbose, h⟩ := Option.bind_eq_some_iff.1 h
  obtain ⟨statistics, hstatistics, h⟩ := Option.bind_eq_some_iff.1 h
  cases h
  exact ⟨reads_of_fieldOr hfields hformat (fun _ => rfl) rfl,
    reads_of_fieldOr hfields hcolor (fun _ => rfl) rfl,
    reads_of_fieldOr hfields hverbose (fun _ => rfl) rfl,
    reads_of_fieldOr hfields hstatistics (fun _ => rfl) rfl⟩

/-- The settings that are read from a document have at each key what is written there, or the
default. -/
theorem reads_of_ofValue? {document : Value} {own : Config}
    (h : Config.ofValue? d document = some own) (k : RunKey) :
    k.Reads d (k.written? d document) (k.get own) := by
  obtain ⟨fields, hfields, h⟩ := Option.bind_eq_some_iff.1 h
  obtain ⟨bases, -, h⟩ := Option.bind_eq_some_iff.1 h
  obtain ⟨engine, hengine, h⟩ := Option.bind_eq_some_iff.1 h
  obtain ⟨output, houtput, h⟩ := Option.bind_eq_some_iff.1 h
  obtain ⟨files, -, h⟩ := Option.bind_eq_some_iff.1 h
  obtain ⟨rules, -, h⟩ := Option.bind_eq_some_iff.1 h
  obtain ⟨layout, -, h⟩ := Option.bind_eq_some_iff.1 h
  cases h
  cases k with
  | parallel =>
    exact reads_of_section (g := fun e : EngineSettings => .flag e.parallel) hfields hengine
      (fun _ hpart => (reads_of_engine hpart).1) rfl
  | jobs =>
    exact reads_of_section (g := fun e : EngineSettings => .count e.jobs) hfields hengine
      (fun _ hpart => (reads_of_engine hpart).2) rfl
  | format =>
    exact reads_of_section (g := fun o : OutputSettings => .format o.format) hfields houtput
      (fun _ hpart => (reads_of_output hpart).1) rfl
  | color =>
    exact reads_of_section (g := fun o : OutputSettings => .color o.color) hfields houtput
      (fun _ hpart => (reads_of_output hpart).2.1) rfl
  | verbose =>
    exact reads_of_section (g := fun o : OutputSettings => .flag o.verbose) hfields houtput
      (fun _ hpart => (reads_of_output hpart).2.2.1) rfl
  | statistics =>
    exact reads_of_section (g := fun o : OutputSettings => .flag o.statistics) hfields houtput
      (fun _ hpart => (reads_of_output hpart).2.2.2) rfl

end Reading

/-! ## Keys of merged configurations -/

/-- The value of a key in the last configuration that has another value there than the default. -/
def lastSet (k : RunKey) (bases : List Config) : RunValue :=
  ((bases.reverse.map fun c => k.get c).find? (· ≠ k.get .default)).getD (k.get .default)

/-- What several configurations give to a key, the later ones over the earlier ones: whether files
are verified at the same time is as the last one has it, the summary is as by default, and of each
other key the last value counts that is not the default. -/
def below (k : RunKey) (bases : List Config) : RunValue :=
  match k with
  | parallel => (bases.getLast?.map parallel.get).getD (parallel.get .default)
  | statistics => statistics.get .default
  | k => k.lastSet bases

/-- What a key has if one value of it lies over another one. -/
def overlay (k : RunKey) (base a : RunValue) : RunValue :=
  match k with
  | parallel => a
  | statistics => base
  | k => if a = k.get .default then base else a

/-- A value that is chosen by whether another one is the default, as a value of a key. -/
theorem apply_ite_eq {α : Type} [DecidableEq α] {g : α → RunValue}
    (hg : ∀ {a b}, g a = g b → a = b) (base other default : α) :
    g (if other = default then base else other) =
      if g other = g default then g base else g other := by
  by_cases h : other = default
  · rw [if_pos h, if_pos (congrArg g h)]
  · rw [if_neg h, if_neg (mt hg h)]

/-- Of two configurations the values of a key lie over each other. -/
theorem get_merge (k : RunKey) (base other : Config) :
    k.get (base.merge other) = k.overlay (k.get base) (k.get other) := by
  cases k with
  | parallel | statistics => rfl
  | jobs => exact apply_ite_eq RunValue.count.inj _ _ _
  | format => exact apply_ite_eq RunValue.format.inj _ _ _
  | color => exact apply_ite_eq RunValue.color.inj _ _ _
  | verbose =>
    have hor : (base.output.verbose || other.output.verbose) =
        if other.output.verbose = false then base.output.verbose else other.output.verbose := by
      cases other.output.verbose
      · exact Bool.or_false _
      · exact Bool.or_true _
    exact (congrArg RunValue.flag hor).trans (apply_ite_eq RunValue.flag.inj _ _ _)

/-- The last value that is not the default, where one more configuration comes last. -/
theorem lastSet_concat (k : RunKey) (bases : List Config) (last : Config) :
    k.lastSet (bases ++ [last]) =
      if k.get last = k.get .default then k.lastSet bases else k.get last := by
  rw [lastSet, lastSet, List.reverse_concat, List.map_cons, List.find?_cons]
  by_cases h : k.get last = k.get .default
  · simp [h]
  · simp [h]

/-- One more configuration gives its value over what the others give. -/
theorem below_concat (k : RunKey) (bases : List Config) (last : Config) :
    k.below (bases ++ [last]) = k.overlay (k.below bases) (k.get last) := by
  cases k with
  | parallel =>
    rw [below, List.getLast?_concat]
    rfl
  | statistics => rfl
  | jobs | format | color | verbose => exact lastSet_concat _ bases last

/-- Configurations that are merged have at each key what they give to it. -/
theorem get_mergeAll (k : RunKey) (bases : List Config) :
    k.get (Config.mergeAll bases) = k.below bases := by
  induction bases using List.reverseRecOn with
  | nil => cases k <;> rfl
  | append_singleton bases last ih =>
    rw [Config.mergeAll, List.foldl_append, below_concat, ← ih]
    exact get_merge k _ last

/-- A key that is set has the value that is written, and one that is not set stays as it is below. -/
def Respects (k : RunKey) (d : Dialect) (leaf? : Option Value) (base a : RunValue) : Prop :=
  match leaf? with
  | some leaf => k.decode? d leaf = some a
  | none => a = base

/-- When a key respects what files say: whether files are verified at the same time must be set or be
as by default below, the summary must not be set to another value than the default, and another key
must not be set to the default over another value. -/
def IsRespected (k : RunKey) (d : Dialect) (leaf? : Option Value) (base : RunValue) : Prop :=
  match k, leaf? with
  | parallel, some _ => True
  | parallel, none => base = parallel.get .default
  | statistics, some leaf => statistics.decode? d leaf = some base
  | statistics, none => True
  | k, some leaf => k.decode? d leaf = some (k.get .default) → base = k.get .default
  | _, none => True

/-- A value that was read, laid over another one, respects what is written in just these cases. -/
theorem respects_overlay_iff {k : RunKey} {d : Dialect} {leaf? : Option Value} {base said : RunValue}
    (hsaid : k.Reads d leaf? said) :
    k.Respects d leaf? base (k.overlay base said) ↔ k.IsRespected d leaf? base := by
  cases leaf? with
  | some leaf =>
    have hleaf : k.decode? d leaf = some said := hsaid
    cases k with
    | parallel => exact iff_of_true hleaf trivial
    | statistics => exact Iff.rfl
    | jobs | format | color | verbose =>
      simp only [Respects, IsRespected, overlay, hleaf, Option.some.injEq]
      split_ifs with hdefault
      · rw [hdefault]
        exact ⟨fun h _ => h.symm, fun h => (h rfl).symm⟩
      · exact iff_of_true rfl fun h => absurd h hdefault
  | none =>
    have hdefault : said = k.get .default := hsaid
    cases k with
    | parallel =>
      rw [hdefault]
      exact eq_comm
    | statistics => exact iff_of_true rfl trivial
    | jobs | format | color | verbose => exact iff_of_true (if_pos hdefault) trivial

end RunKey

namespace Config

/-- A configuration has the run keys that a document sets over those of several configurations. -/
structure RunsOver (config : Config) (bases : List Config) (d : Dialect) (document : Value) :
    Prop where
  /-- A key has what the document says about it, or the default, over what the configurations give
  to it. -/
  values : ∀ k : RunKey, ∃ said, k.Reads d (k.written? d document) said ∧
    k.get config = k.overlay (k.below bases) said
  /-- It is known which keys respect what the document says. -/
  respects_iff : ∀ k : RunKey,
    k.Respects d (k.written? d document) (k.below bases) (k.get config) ↔
      k.IsRespected d (k.written? d document) (k.below bases)

/-- Settings that are read from a document have its run keys over those of the configurations under
them. -/
theorem runsOver_merge {d : Dialect} {document : Value} {own : Config}
    (h : ofValue? d document = some own) (bases : List Config) (layout : LayoutSettings) :
    RunsOver { (mergeAll bases).merge own with layout } bases d document := by
  have hget (k : RunKey) : k.get { (mergeAll bases).merge own with layout } =
      k.overlay (k.below bases) (k.get own) := by
    rw [← RunKey.get_mergeAll, ← RunKey.get_merge]
    cases k <;> rfl
  have hreads := RunKey.reads_of_ofValue? h
  exact {
    values := fun k => ⟨k.get own, hreads k, hget k⟩
    respects_iff := fun k => by
      rw [hget]
      exact RunKey.respects_overlay_iff (hreads k) }

/-- A file that builds on others has the run keys that it sets over those of its bases, however many
files may build on each other. -/
theorem runsOver_of_loadWithin {host : Host} {files : Files} {depth : Nat} {path content : String}
    {own config : Config} {section? : Option Value}
    (hload : loadWithin host files (depth + 1) path = .ok config)
    (hread : files.read path = .ok content)
    (hown : ownSettings host path content = .ok (own, section?)) (hne : own.bases ≠ []) :
    ∃ bases d document, own.bases.mapM (loadBase host files depth path) = .ok bases ∧
      document? host path content = some (d, document) ∧ RunsOver config bases d document := by
  obtain ⟨below, content', own', section', hdepth, hread', hown', hloaded⟩ :=
    loadedFrom_of_loadWithin hload
  cases hdepth
  cases hread.symm.trans hread'
  cases hown.symm.trans hown'
  obtain ⟨d, document, hdocument, hvalue⟩ := exists_document?_of_ownSettings hown
  cases hloaded with
  | alone hbases => exact absurd hbases hne
  | @layered bases layout _ hbases _ =>
    exact ⟨bases, d, document, hbases, hdocument, runsOver_merge hvalue bases layout⟩

/-- A configuration that is loaded from a file that builds on others has the run keys that the file
sets over those of its bases, and it is known for which of them what the file says is respected. -/
theorem runsOver_of_load {host : Host} {files : Files} {path content : String} {own config : Config}
    {section? : Option Value} (hload : load host files path = .ok config)
    (hread : files.read path = .ok content)
    (hown : ownSettings host path content = .ok (own, section?)) (hne : own.bases ≠ []) :
    ∃ bases d document, own.bases.mapM (loadBase host files (maxDepth - 1) path) = .ok bases ∧
      document? host path content = some (d, document) ∧ RunsOver config bases d document :=
  runsOver_of_loadWithin (load_eq_ok_iff.1 hload).1 hread hown hne

/-- The upper file sets the format to the default and gets the format of the lower file. -/
theorem runsOver_twoFiles : ∃ config, load .standard twoFiles "a.json" = .ok config ∧
    twoFiles.read "a.json" = .ok upperFile ∧
    ownSettings .standard "a.json" upperFile = .ok (upperOwn, some upperSection) ∧
    upperOwn.bases ≠ [] ∧
    ∃ bases d document,
      upperOwn.bases.mapM (loadBase .standard twoFiles (maxDepth - 1) "a.json") = .ok bases ∧
        document? .standard "a.json" upperFile = some (d, document) ∧
          RunsOver config bases d document := by
  obtain ⟨config, hload, -⟩ := load_twoFiles
  exact ⟨config, hload, read_upper, ownSettings_upper, by decide,
    runsOver_of_load hload read_upper ownSettings_upper (by decide)⟩

/-- A file that sets the format to the default does not get it if another file below sets another
format. -/
theorem load_keeps_format_below : ∃ config document leaf,
    load .standard twoFiles "a.json" = .ok config ∧
    twoFiles.read "a.json" = .ok upperFile ∧
    ownSettings .standard "a.json" upperFile = .ok (upperOwn, some upperSection) ∧
    upperOwn.bases ≠ [] ∧ document? .standard "a.json" upperFile = some (.json, document) ∧
    RunKey.format.written? .json document = some leaf ∧
    RunKey.format.decode? .json leaf ≠ some (RunKey.format.get config) := by
  obtain ⟨config, hload, -, -, hformat⟩ := load_twoFiles
  refine ⟨config, upperDocument, .text "text", hload, read_upper, ownSettings_upper, by decide,
    document?_upper, rfl, ?_⟩
  rw [RunKey.get, hformat]
  decide

end Config

end TreeLayout
