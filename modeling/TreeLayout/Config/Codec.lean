import TreeLayout.Config
import TreeLayout.Settings.Codec

/-!
# Configurations as values

Each section of a configuration is a record in which every field may be missing and then keeps its
default.
-/

namespace TreeLayout

/-- A mapping from names to values of one type; of two values of one name the last counts. -/
def namedValues? {α : Type} (d : Dialect) (decode? : Value → Option α) (v : Value) :
    Option (List (String × α)) := do
  let fields ← v.fields? d
  fields.foldlM (fun all (name, v) => (decode? v).map fun a => upsert name (fun _ => a) all) []

/-- The value that holds a list of texts. -/
def textsValue (ss : List String) : Value := .seq (ss.map .text)

namespace EngineSettings

/-- The settings that a value holds. -/
def ofValue? (d : Dialect) (v : Value) : Option EngineSettings := do
  let fields ← v.record? d ["parallel", "jobs"]
  let parallel ← fieldOr fields "parallel" default.parallel Value.bool?
  let jobs ← fieldOr fields "jobs" default.jobs Value.nat?
  return { parallel, jobs }

/-- The value that holds settings. -/
def toValue (s : EngineSettings) : Value :=
  .map [("parallel", .bool s.parallel), ("jobs", .nat s.jobs)]

end EngineSettings

namespace OutputSettings

/-- The settings that a value holds. -/
def ofValue? (d : Dialect) (v : Value) : Option OutputSettings := do
  let fields ← v.record? d ["format", "color", "verbose", "statistics"]
  let format ← fieldOr fields "format" default.format (Value.choice? d OutputFormat.ofName?)
  let color ← fieldOr fields "color" default.color (Value.choice? d ColorMode.ofName?)
  let verbose ← fieldOr fields "verbose" default.verbose Value.bool?
  let statistics ← fieldOr fields "statistics" default.statistics Value.bool?
  return { format, color, verbose, statistics }

/-- The value that holds settings. -/
def toValue (s : OutputSettings) : Value :=
  .map
    [("format", .text s.format.name), ("color", .text s.color.name), ("verbose", .bool s.verbose),
     ("statistics", .bool s.statistics)]

end OutputSettings

namespace FileSettings

/-- The settings that a value holds. -/
def ofValue? (d : Dialect) (v : Value) : Option FileSettings := do
  let fields ← v.record? d ["include", "exclude"]
  let includes ← fieldOr fields "include" default.includes (Value.texts? d)
  let excludes ← fieldOr fields "exclude" default.excludes (Value.texts? d)
  return { includes, excludes }

/-- The value that holds settings. -/
def toValue (s : FileSettings) : Value :=
  .map [("include", textsValue s.includes), ("exclude", textsValue s.excludes)]

end FileSettings

namespace RuleSettings

/-- The settings that a value holds. -/
def ofValue? (d : Dialect) (v : Value) : Option RuleSettings := do
  let fields ← v.record? d ["disabled", "enabled", "severity", "per_file"]
  let disabled ← fieldOr fields "disabled" default.disabled (Value.texts? d)
  let enabled ← fieldOr fields "enabled" default.enabled (Value.texts? d)
  let severity ← fieldOr fields "severity" default.severity
    (namedValues? d (Value.choice? d Severity.ofName?))
  let perFile ← fieldOr fields "per_file" default.perFile (namedValues? d (Value.texts? d))
  return { disabled, enabled, severity, perFile }

/-- The value that holds settings. -/
def toValue (s : RuleSettings) : Value :=
  .map
    [("disabled", textsValue s.disabled),
     ("enabled", textsValue s.enabled),
     ("severity", .map (s.severity.map fun (rule, v) => (rule, .text v.name))),
     ("per_file", .map (s.perFile.map fun (pattern, rules) => (pattern, textsValue rules)))]

end RuleSettings

namespace Config

/-- The fields of a configuration in order. -/
def fieldNames : List String := ["extends", "engine", "output", "files", "rules", "layout"]

/-- The configuration that a value holds. -/
def ofValue? (d : Dialect) (v : Value) : Option Config := do
  let fields ← v.record? d fieldNames
  let bases ← fieldOr fields "extends" [] (Value.texts? d)
  let engine ← fieldOr fields "engine" .default (EngineSettings.ofValue? d)
  let output ← fieldOr fields "output" .default (OutputSettings.ofValue? d)
  let files ← fieldOr fields "files" .default (FileSettings.ofValue? d)
  let rules ← fieldOr fields "rules" .default (RuleSettings.ofValue? d)
  let layout ← fieldOr fields "layout" .default (LayoutSettings.ofValue? d)
  return { bases, engine, output, files, rules, layout }

/-- The value that holds a configuration. -/
def toValue (c : Config) : Value :=
  .map
    [("extends", textsValue c.bases), ("engine", c.engine.toValue), ("output", c.output.toValue),
     ("files", c.files.toValue), ("rules", c.rules.toValue), ("layout", c.layout.toValue)]

end Config

end TreeLayout
