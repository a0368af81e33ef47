import TreeLayout.Config.Codec
import TreeLayout.Host

/-!
# Configuration files

A configuration file may build on presets and on other configuration files. The bases are laid over the
default one after the other and the file's own settings over them. Of the layout only those keys win
that the file sets. A chain of files has a greatest length, so that files which build on each other
are refused.
-/

namespace TreeLayout

/-- Why a configuration is refused. -/
inductive InvalidConfig where
  /-- The layout cannot be used. -/
  | settings (e : SettingsError)
  /-- Too many files build on each other. -/
  | tooDeep
  /-- The name of a file does not say how it is written. -/
  | unknownFormat (extension : String)
  deriving DecidableEq

/-- What is wrong with a configuration. -/
def InvalidConfig.message : InvalidConfig → String
  | .settings e => e.message
  | .tooDeep => "Maximum config inheritance depth exceeded"
  | .unknownFormat extension => "Unknown config file format: " ++ extension

/-- Why a configuration cannot be loaded. -/
inductive ConfigError where
  /-- A file cannot be read. -/
  | file (e : FileError)
  /-- A file is no YAML of the right shape, with what its reader says about it. -/
  | yaml (text : String)
  /-- A file is no JSON of the right shape, with what its reader says about it. -/
  | json (text : String)
  /-- The configuration is refused. -/
  | invalid (e : InvalidConfig)
  deriving DecidableEq

namespace ConfigError

/-- The text of an error. -/
def message : ConfigError → String
  | .file e => "IO error: " ++ e.message
  | .yaml text => "YAML parse error: " ++ text
  | .json text => "JSON parse error: " ++ text
  | .invalid e => "Invalid configuration: " ++ e.message

/-- The texts of an error, from the outside to the cause. -/
def causes (e : ConfigError) : List String :=
  match e with
  | .file cause => [e.message, cause.message]
  | .yaml text | .json text => [e.message, text]
  | .invalid _ => [e.message]

end ConfigError

mutual
/-- A value with another one laid over it: mappings are merged field by field, and anything else is
replaced. -/
def Value.overlay (base : Value) : Value → Value
  | .map fields =>
    match base with
    | .map old => .map (Value.overlayFields old fields)
    | _ => .map fields
  | v => v

/-- The fields of a mapping with other fields laid over them. -/
def Value.overlayFields (base : List (String × Value)) :
    List (String × Value) → List (String × Value)
  | [] => base
  | (name, v) :: rest =>
    Value.overlayFields
      (upsert name
        (fun old => match old with
          | some old => Value.overlay old v
          | none => v) base)
      rest
end

/-- A layout with the keys of a layout section laid over it. -/
def LayoutSettings.overlay (base : LayoutSettings) (host : Host) (overrides : Value) :
    Except ConfigError LayoutSettings :=
  let merged := base.toValue.overlay overrides
  match LayoutSettings.ofValue? .json merged with
  | some layout => .ok layout
  | none => .error (.json (host.describe (.layout merged)))

/-- Layout settings that can be used. -/
def LayoutSettings.check (s : LayoutSettings) : Except ConfigError Unit :=
  match s.validate with
  | .ok () => .ok ()
  | .error e => .error (.invalid (.settings e))

namespace Config

/-- What a JSON document says itself: its settings, and its layout section as it stands. The whole document
is read, also what is no setting. -/
def ofJson (host : Host) (content : String) : Except ConfigError (Config × Option Value) :=
  match host.json content with
  | .error text => .error (.json text)
  | .ok v =>
    let v := v.lastFields
    match ofValue? .json v with
    | some config => .ok (config, v.field? "layout")
    | none => .error (.json (host.describe (.config .json v)))

/-- What a YAML document says itself: its settings, and its layout section in the form of JSON, which must
have one. -/
def ofYaml (host : Host) (content : String) : Except ConfigError (Config × Option Value) :=
  match host.yaml content with
  | .error text => .error (.yaml text)
  | .ok v => do
    let section? ←
      match v.field? "layout" with
      | none => .ok none
      | some layout =>
        match layout.toJson? with
        | some json => .ok (some json.lastFields)
        | none => .error (.json (host.describe (.json layout)))
    match ofValue? .yaml v.toValue with
    | some config => return (config, section?)
    | none => .error (.yaml (host.describe (.config .yaml v.toValue)))

/-- What a configuration file says itself: its settings, and its layout section. -/
def ownSettings (host : Host) (path content : String) :
    Except ConfigError (Config × Option Value) :=
  match (Path.extension? path).getD "" with
  | "yaml" | "yml" => ofYaml host content
  | "json" => ofJson host content
  | extension => .error (.invalid (.unknownFormat extension))

/-- The path of a base that a file names, relative to the file. -/
def basePath (path base : String) : String :=
  Path.join ((Path.parent? path).getD ".") base

/-- The configuration of a file, where at most `depth` files may build on each other. -/
def loadWithin (host : Host) (files : Files) :
    (depth : Nat) → (path : String) → Except ConfigError Config
  | 0, _ => .error (.invalid .tooDeep)
  | depth + 1, path => do
    let content ←
      match files.read path with
      | .ok content => .ok content
      | .error e => .error (.file e)
    let (own, section?) ← ownSettings host path content
    if own.bases.isEmpty then return own
    else
      let base ← own.bases.foldlM
        (fun config name => do
          let next ←
            match preset? name with
            | some preset => .ok preset
            | none => loadWithin host files depth (basePath path name)
          return config.merge next)
        Config.default
      let layout ←
        match section? with
        | some overrides => base.layout.overlay host overrides
        | none => .ok base.layout
      return { base.merge own with layout }

/-- The number of files that may build on each other. -/
def maxDepth : Nat := 10

/-- The configuration of a file. -/
def load (host : Host) (files : Files) (path : String) : Except ConfigError Config := do
  let config ← loadWithin host files maxDepth path
  config.layout.check
  return config

/-- The names of the files that are looked for if none is given, in order. -/
def defaultNames : List String :=
  [".wrapcheck.yaml", ".wrapcheck.yml", ".wrapcheck.json", "wrapcheck.yaml", "wrapcheck.json"]

/-- The configuration of the first file with a default name, first in the working directory and then
in the home directory, or else the default. -/
def loadDefault (host : Host) (files home : Files) : Except ConfigError Config :=
  match defaultNames.find? files.contains with
  | some name => load host files name
  | none =>
    match defaultNames.find? home.contains with
    | some name => load host home name
    | none => .ok default

end Config

end TreeLayout
