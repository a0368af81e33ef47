import TreeLayout.Words

/-!
# Configurations

A configuration gathers the layout with what else a run needs: which files are taken, which rules are
reported and how, and how results are written. One configuration can be laid over another one.
-/

namespace TreeLayout

/-- How a run is carried out; the results do not depend on it. -/
structure EngineSettings where
  /-- Whether files are verified at the same time. -/
  parallel : Bool
  /-- How many of them; zero leaves it open. -/
  jobs : Nat

/-- When output is coloured. -/
inductive ColorMode where
  | auto | always | never
  deriving DecidableEq

namespace ColorMode

/-- The name of a colour mode. -/
def name : ColorMode → String
  | .auto => "auto"
  | .always => "always"
  | .never => "never"

/-- The colour mode with exactly this name. -/
def ofName? (s : String) : Option ColorMode :=
  [ColorMode.auto, .always, .never].find? fun m => m.name == s

end ColorMode

/-- How results are written. -/
structure OutputSettings where
  /-- The format. -/
  format : OutputFormat
  /-- When output is coloured. -/
  color : ColorMode
  /-- Whether more is told. -/
  verbose : Bool
  /-- Whether a summary closes the output. -/
  statistics : Bool

/-- Which files are taken. -/
structure FileSettings where
  /-- The patterns that find files. -/
  includes : List String
  /-- The patterns that leave files out. -/
  excludes : List String

/-- Which rules are reported. -/
structure RuleSettings where
  /-- The rules that are not reported. -/
  disabled : List String
  /-- The rules that are reported; if there are none, all are. -/
  enabled : List String
  /-- The severities of rules; each rule occurs once. -/
  severity : List (String × Severity)
  /-- The rules that are not reported for files that match a pattern; each pattern occurs once. -/
  perFile : List (String × List String)

/-- A configuration. -/
structure Config where
  /-- The presets and files that a configuration file builds on. -/
  bases : List String
  /-- How a run is carried out. -/
  engine : EngineSettings
  /-- How results are written. -/
  output : OutputSettings
  /-- Which files are taken. -/
  files : FileSettings
  /-- Which rules are reported. -/
  rules : RuleSettings
  /-- The layout that is asked for. -/
  layout : LayoutSettings

namespace EngineSettings

/-- By default files are verified one after the other. -/
def default : EngineSettings := ⟨false, 0⟩

/-- Settings under others; a number of jobs that is left open does not count. -/
def merge (base other : EngineSettings) : EngineSettings where
  parallel := other.parallel
  jobs := if other.jobs = 0 then base.jobs else other.jobs

end EngineSettings

namespace OutputSettings

/-- By default results are written as text with a summary. -/
def default : OutputSettings := ⟨.text, .auto, false, true⟩

/-- Settings under others; default values of the others do not count, and neither does their
summary. -/
def merge (base other : OutputSettings) : OutputSettings where
  format := if other.format = .text then base.format else other.format
  color := if other.color = .auto then base.color else other.color
  verbose := base.verbose || other.verbose
  statistics := base.statistics

end OutputSettings

/-- A list with those members of another one added that it lacks. -/
def addMissing (base : List String) : List String → List String
  | [] => base
  | s :: rest => addMissing (if base.contains s then base else base ++ [s]) rest

namespace FileSettings

/-- By default all tree documents are taken that do not lie in directories of build tools. -/
def default : FileSettings where
  includes := ["**/*.tree.json", "**/*.tree.yaml", "**/*.tree.yml"]
  excludes := ["**/target/**", "**/node_modules/**"]

/-- The patterns of both settings. -/
def merge (base other : FileSettings) : FileSettings where
  includes := addMissing base.includes other.includes
  excludes := addMissing base.excludes other.excludes

end FileSettings

/-- A list of named values with the value of one name changed, or added at the end. -/
def upsert {α : Type} (name : String) (change : Option α → α) :
    List (String × α) → List (String × α)
  | [] => [(name, change none)]
  | (first, a) :: rest =>
    if first == name then (first, change (some a)) :: rest
    else (first, a) :: upsert name change rest

namespace RuleSettings

/-- By default all rules are reported with their own severities. -/
def default : RuleSettings := ⟨[], [], [], []⟩

/-- Rules under others: what is not reported adds up, and other choices win where they are made. -/
def merge (base other : RuleSettings) : RuleSettings where
  disabled := base.disabled ++ other.disabled
  enabled := if other.enabled.isEmpty then base.enabled else other.enabled
  severity := other.severity.foldl (fun all (rule, s) => upsert rule (fun _ => s) all) base.severity
  perFile := other.perFile.foldl
    (fun all (pattern, rules) => upsert pattern (fun old => old.getD [] ++ rules) all) base.perFile

/-- Whether a rule is reported. -/
def isEnabled (r : RuleSettings) (rule : String) : Bool :=
  !r.disabled.contains rule && (r.enabled.isEmpty || r.enabled.contains rule)

/-- Whether a rule is not reported for a file, where `globMatches` says which patterns match it. -/
def isIgnored (r : RuleSettings) (globMatches : String → String → Bool) (rule file : String) : Bool :=
  r.perFile.any fun (pattern, rules) =>
    globMatches pattern file && rules.any fun s => s == "all" || s == rule

/-- The severity that is given to a rule. -/
def severity? (r : RuleSettings) (rule : String) : Option Severity :=
  r.severity.lookup rule

end RuleSettings

namespace Config

/-- The default configuration with a layout. -/
def ofLayout (layout : LayoutSettings) : Config :=
  ⟨[], .default, .default, .default, .default, layout⟩

/-- The default configuration. -/
def default : Config := ofLayout .default

/-- The configuration of a preset with a name. -/
def preset? (name : String) : Option Config :=
  (LayoutSettings.preset? name).map ofLayout

/-- A configuration under another one, whose layout replaces it as a whole. -/
def merge (base other : Config) : Config where
  bases := base.bases
  engine := base.engine.merge other.engine
  output := base.output.merge other.output
  files := base.files.merge other.files
  rules := base.rules.merge other.rules
  layout := other.layout

end Config

/-- What a command line may change in a configuration. -/
structure Overrides where
  /-- The format. -/
  format : Option OutputFormat
  /-- Whether more is told. -/
  verbose : Option Bool
  /-- Columns from one tab stop to the next. -/
  tabWidth : Option Nat
  /-- Columns that one indentation level adds. -/
  basicOffset : Option Nat
  /-- Further rules that are not reported. -/
  disabled : Option (List String)
  /-- The rules that are reported. -/
  enabled : Option (List String)

/-- A configuration with changes. -/
def Config.override (c : Config) (o : Overrides) : Config :=
  { c with
    output := { c.output with
      format := o.format.getD c.output.format
      verbose := o.verbose.getD c.output.verbose }
    layout := { c.layout with
      tabWidth := o.tabWidth.getD c.layout.tabWidth
      basicOffset := o.basicOffset.getD c.layout.basicOffset }
    rules := { c.rules with
      disabled := c.rules.disabled ++ o.disabled.getD []
      enabled := o.enabled.getD c.rules.enabled } }

end TreeLayout
