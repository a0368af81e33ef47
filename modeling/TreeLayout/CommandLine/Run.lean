import TreeLayout.CommandLine.Options
import TreeLayout.Discovery
import TreeLayout.Fix.Apply
import TreeLayout.Lint
import TreeLayout.Report.Compact
import TreeLayout.Report.Github
import TreeLayout.Report.Json
import TreeLayout.Report.Text

/-!
# Runs of the command line

A run is prepared first: the configuration is loaded and the documents are found. Then the documents
are linted, and at last fixes are applied and the report is written.
-/

namespace TreeLayout.CommandLine

/-- What a run leaves behind. -/
structure Outcome where
  /-- The exit code. -/
  code : Nat
  /-- The text on standard output. -/
  stdout : String
  /-- The lines on standard error. -/
  stderr : List String
  /-- The files afterwards. -/
  files : Files

/-- A run that is prepared. -/
structure Job where
  /-- The options. -/
  options : Options
  /-- The linter. -/
  linter : Linter
  /-- Whether output is styled. -/
  colored : Bool
  /-- The host. -/
  host : Host
  /-- The files. -/
  files : Files
  /-- The paths of the documents. -/
  paths : List String

/-- How the program is used. -/
def usage : String :=
  "Usage: wrapcheck [OPTIONS] [FILES]...\n\nOptions: "
    ++ ", ".intercalate (Name.all.map fun name => "--" ++ name.long) ++ "\n"

/-- The exit code of a command line that is wrong. -/
def misuseCode : Nat := 2

/-- The exit code of a run that cannot start. -/
def setupErrorCode : Nat := 3

/-- A run that cannot start. -/
def setupError (files : Files) (colored : Bool) (causes : List String) : Outcome where
  code := setupErrorCode
  stdout := ""
  stderr := [Ansi.paintIf colored .boldRed "error" ++ ": " ++ ": ".intercalate causes]
  files := files

/-- The configuration of a run, or the texts of what is wrong. -/
def configOf (o : Options) (host : Host) (files home : Files) : Except (List String) Config := do
  let config ←
    match o.config with
    | some path =>
      match Config.load host files path with
      | .ok config => .ok config
      | .error e => .error (("failed to load config " ++ path) :: e.causes)
    | none =>
      match Config.loadDefault host files home with
      | .ok config => .ok config
      | .error e => .error ("failed to load default config" :: e.causes)
  let config := config.override
    { format := o.format
      verbose := some o.verbose
      tabWidth := o.tabWidth
      basicOffset := o.offset
      disabled := o.disable
      enabled := o.select }
  match config.layout.check with
  | .ok () => .ok config
  | .error e => .error ("invalid command line settings" :: e.causes)

/-- The documents of a run, or the texts of what is wrong. -/
def pathsOf (o : Options) (config : Config) (host : Host) (files : Files) :
    Except (List String) (List String) :=
  let found :=
    if o.patterns.isEmpty then Discovery.discover host files config.files
    else Discovery.expandPatterns host files o.patterns
  match found with
  | .error e => .error e.causes
  | .ok [] => .error ["no tree documents found"]
  | .ok paths => .ok paths

/-- The programs of a linter, each with an empty line after it. -/
def listing (table : ProgramTable) : String :=
  String.join (table.programs.map fun p => p.display ++ "\n\n")

/-- A run with options: what it leaves behind if it ends at once, or a job. -/
def prepareRun (o : Options) (host : Host) (files home : Files) : Except Outcome Job :=
  match configOf o host files home with
  | .error causes => .error (setupError files false causes)
  | .ok config =>
    let colored := config.output.color = .always && !o.noColor
    match Linter.ofConfig config o.context with
    | .error e => .error (setupError files colored e.causes)
    | .ok linter =>
      if o.listPrograms then .error ⟨0, listing linter.table, [], files⟩
      else
        match pathsOf o config host files with
        | .error causes => .error (setupError files colored causes)
        | .ok paths => .ok { options := o, linter, colored, host, files, paths }

/-- A command line: what it leaves behind if it ends at once, or a job. -/
def prepare (args : List String) (host : Host) (files home : Files) : Except Outcome Job :=
  match parse args with
  | .help => .error ⟨0, usage, [], files⟩
  | .version => .error ⟨0, "wrapcheck\n", [], files⟩
  | .misuse => .error ⟨misuseCode, "", ["error: invalid arguments", usage], files⟩
  | .run o => prepareRun o host files home

namespace Job

/-- The report of the documents. -/
def report (job : Job) : Report := job.linter.lint job.host job.files job.paths

/-- How fixes are applied. -/
def fixPolicy (job : Job) : FixPolicy :=
  let policy := (FixPolicy.start (!job.options.write)).withRisky job.options.riskyFixes
  if job.options.diff then policy.withDiff else policy

/-- How many fixes were applied, in words. -/
def fixCounts (r : FixOutcome) : String :=
  "(" ++ toString r.safeApplied ++ " safe, " ++ toString r.riskyApplied ++ " unsafe)"

/-- What is told about applied fixes. -/
def fixLines (job : Job) (pending : Nat) (r : FixOutcome) : List String :=
  let label (style : Ansi.Style) (word : String) : String := Ansi.paintIf job.colored style word ++ ": "
  let done :=
    if job.options.diff then []
    else if job.fixPolicy.dryRun then
      ["Would apply " ++ toString r.applied ++ " of " ++ toString pending ++ " fixes " ++ fixCounts r,
       "Use --write to apply fixes"]
    else
      ["Applied " ++ toString r.applied ++ " fixes to " ++ toString r.filesModified ++ " files "
        ++ fixCounts r]
  let skipped :=
    if r.skipped = 0 then []
    else
      [label .blue "note" ++ toString r.skipped
        ++ " unsafe fixes skipped (use --unsafe-fixes to include)"]
  let overlapping :=
    if r.overlapping = 0 then []
    else
      [label .blue "note" ++ toString r.overlapping ++ " overlapping fixes left for another run"]
  done ++ skipped ++ overlapping ++ r.errors.map fun e => label .yellow "warning" ++ e

/-- Applies the fixes of a report, if that is asked for: what is shown, what is told, and the files
afterwards. -/
def applyReport (job : Job) (report : Report) : String × List String × Files :=
  let o := job.options
  if !o.fix && !o.diff then ("", [], job.files)
  else
    let pending := PendingFix.ofDiagnostics report.diagnostics
    if pending.isEmpty then ("", if o.verbose then ["No auto-fixes available"] else [], job.files)
    else
      let r := applyFixes job.fixPolicy job.files pending
      (if o.diff then FileDiff.renderAll r.diffs else "", job.fixLines pending.length r, r.files)

/-- A report in the format of the configuration. -/
def render (job : Job) (report : Report) : String :=
  let output := job.linter.config.output
  match output.format with
  | .text =>
    let style : TextStyle :=
      { colored := job.colored
        showSource := true
        showHelp := true
        showFixes := true
        showStats := job.options.stats || output.statistics
        showContext := decide (0 < job.options.context) }
    style.render report
  | .json => JsonStyle.render ⟨true⟩ report
  | .github => GithubStyle.render ⟨true⟩ report
  | .compact => CompactStyle.render ⟨true, true⟩ report

/-- What a run leaves behind once its documents are linted. -/
def finish (job : Job) (report : Report) : Outcome :=
  let (shown, told, files) := job.applyReport report
  let started :=
    if job.options.verbose then ["Verifying " ++ toString job.paths.length ++ " files..."] else []
  { code := report.exitCode
    stdout := shown ++ job.render report
    stderr := started ++ told
    files }

end Job

/-- What a command line leaves behind, where no time passes. -/
def run (args : List String) (host : Host) (files home : Files) : Outcome :=
  match prepare args host files home with
  | .error outcome => outcome
  | .ok job => job.finish job.report

end TreeLayout.CommandLine
