import TreeLayout.Config.Load
import TreeLayout.Document
import TreeLayout.Report.Basic
import TreeLayout.Verify.Walk

/-!
# Linting documents

Each document is loaded and verified, and the findings of the rules that are reported become
diagnostics. A document that cannot be loaded is reported as an error of its own. If the configuration
asks for it, threads of the host verify several documents at the same time; where there are no threads,
the documents are verified one after the other.
-/

namespace TreeLayout

/-- The rule under which documents that cannot be loaded are reported. -/
def loadErrorRule : String := "load-error"

/-- Why documents cannot be linted at all. -/
inductive LinterError where
  /-- The configuration cannot be used. -/
  | config (e : ConfigError)
  /-- A program cannot be used. -/
  | program (e : ProgramError)

/-- The texts of an error, from the outside to the cause. -/
def LinterError.causes : LinterError → List String
  | .config e => e.causes
  | .program e => ["invalid layout program: " ++ e.message, e.message]

/-- A configuration with the programs of its layout. -/
structure Linter where
  /-- The configuration. -/
  config : Config
  /-- The programs. -/
  table : ProgramTable
  /-- How many lines around a place are reported. -/
  contextLines : Nat

namespace Linter

/-- The linter for a configuration. -/
def ofConfig (config : Config) (contextLines : Nat) : Except LinterError Linter :=
  match config.layout.check with
  | .error e => .error (.config e)
  | .ok () =>
    match ProgramTable.ofSettings config.layout with
    | .error e => .error (.program e)
    | .ok table => .ok { config, table, contextLines }

/-- The severity under which a rule is reported. -/
def severityOf (l : Linter) (rule : Rule) : Severity :=
  (l.config.rules.severity? rule.id).getD rule.defaultSeverity

/-- Whether a finding in a file is reported. -/
def isReported (l : Linter) (host : Host) (file : String) (f : Finding) : Bool :=
  let rule := f.message.rule.id
  l.config.rules.isEnabled rule && !l.config.rules.isIgnored host.globMatches rule file

/-- A finding as a diagnostic; only a source that is a file of its own can be edited. -/
def diagnose (l : Linter) (doc : Document) (lines : List String) (f : Finding) : Diagnostic :=
  let rule := f.message.rule
  let d := Diagnostic.plain rule.id (l.severityOf rule) f.message.text
    ⟨doc.displayPath, f.line, f.column, f.length⟩
  let d :=
    match f.line with
    | 0 => d
    | n + 1 =>
      match lines[n]? with
      | none => d
      | some line => { d with sourceLine := some line }.withContext lines l.contextLines
  { d with
    help := some rule.help
    fix := if doc.sourcePath.isSome then suggestFix? f doc.source else none }

/-- The diagnostics of a document, in the order of their places. -/
def diagnosticsOf (l : Linter) (host : Host) (doc : Document) : List Diagnostic :=
  let found := verify ⟨doc.source, l.config.layout⟩ l.table doc.tree
  let lines := doc.source.lines.map fun line =>
    String.ofList (Column.expandTabs doc.source.arithmetic line doc.source.tabWidth)
  ((found.filter (l.isReported host doc.displayPath)).map (l.diagnose doc lines)).mergeSort
    Diagnostic.le

/-- What is reported about a document that cannot be loaded. -/
def loadError (path : String) (e : DocumentError) : Diagnostic :=
  .plain loadErrorRule .error e.message ⟨path, 0, 0, 0⟩

/-- The report of one file. -/
def lintFile (l : Linter) (host : Host) (files : Files) (path : String) : Report :=
  match Document.load host files path l.config.layout.tabWidth with
  | .ok doc => .ofFile (l.diagnosticsOf host doc)
  | .error e => .ofFile [loadError path e]

/-- The number of threads that a configuration asks for. -/
def jobs (l : Linter) (host : Host) : Nat :=
  if l.config.engine.jobs = 0 then host.processors else l.config.engine.jobs

/-- The threads that verify documents, if the configuration asks for them and they can be had. -/
def pool? (l : Linter) (host : Host) : Option ThreadPool :=
  if l.config.engine.parallel then host.threads? (l.jobs host) else none

/-- The reports of several files, in their order. -/
def reports (l : Linter) (host : Host) (files : Files) (paths : List String) : List Report :=
  match l.pool? host with
  | some pool => pool.map (l.lintFile host files) paths
  | none => paths.map (l.lintFile host files)

/-- The report of several files. -/
def lint (l : Linter) (host : Host) (files : Files) (paths : List String) : Report :=
  (l.reports host files paths).foldl Report.merge .empty

end Linter

end TreeLayout
