import TreeLayout.Diagnostic
import TreeLayout.Files
import TreeLayout.Fix.Diff

/-!
# Applying fixes

The fixes of one file are applied from its end to its start, so that the offsets of those to come stay
valid. A fix that does not fit the file fails, and one that touches bytes of a fix already applied is
left for another run.
-/

namespace TreeLayout

/-- A text under edit. -/
structure Edit where
  /-- The text so far. -/
  content : List Char
  /-- The fixes that were applied, last first. -/
  applied : List Fix
  /-- How many fixes touch bytes of applied ones. -/
  overlapping : Nat
  /-- How many fixes do not fit the text. -/
  misfits : Nat

namespace Edit

/-- A text before any edit. -/
def start (content : List Char) : Edit := ⟨content, [], 0, 0⟩

/-- A text after one more fix for the text `old` from which the edit started. -/
def apply (old : List Char) (e : Edit) (f : Fix) : Edit :=
  if (f.replaceIn? old).isNone then { e with misfits := e.misfits + 1 }
  else if e.applied.any (·.overlaps f) then { e with overlapping := e.overlapping + 1 }
  else
    match f.replaceIn? e.content with
    | none => { e with misfits := e.misfits + 1 }
    | some content => { e with content, applied := f :: e.applied }

/-- A text after several fixes, those of the greatest offsets first. -/
def applyAll (old : List Char) (fixes : List Fix) : Edit :=
  (fixes.mergeSort fun a b => decide (b.startOffset ≤ a.startOffset)).foldl (apply old) (start old)

end Edit

/-- Which fixes are applied, and whether files are written. -/
inductive FixMode where
  /-- Safe fixes only. -/
  | safeOnly
  /-- All fixes. -/
  | all
  /-- The changes are shown and no file is written. -/
  | diff
  deriving DecidableEq

/-- How fixes are applied. -/
structure FixPolicy where
  /-- Whether files are left as they are. -/
  dryRun : Bool
  /-- Which fixes are applied. -/
  mode : FixMode
  /-- Whether shown changes include risky fixes. -/
  includeRisky : Bool

namespace FixPolicy

/-- Safe fixes only. -/
def start (dryRun : Bool) : FixPolicy := ⟨dryRun, .safeOnly, false⟩

/-- A policy with another mode. -/
def withMode (p : FixPolicy) (mode : FixMode) : FixPolicy := { p with mode }

/-- A policy with or without risky fixes; to include them ends the restriction to safe ones. -/
def withRisky (p : FixPolicy) (include_ : Bool) : FixPolicy :=
  { p with
    includeRisky := include_
    mode := if include_ && p.mode = .safeOnly then .all else p.mode }

/-- A policy that shows changes. -/
def withDiff (p : FixPolicy) : FixPolicy := p.withMode .diff

/-- Whether a fix is applied. -/
def allows (p : FixPolicy) (f : Fix) : Bool :=
  match p.mode with
  | .all => true
  | .safeOnly => f.isSafe
  | .diff => p.includeRisky || f.isSafe

end FixPolicy

/-- A fix for a file. -/
structure PendingFix where
  /-- The path of the file. -/
  file : String
  /-- The line of the finding. -/
  line : Nat
  /-- The rule of the finding. -/
  rule : String
  /-- The fix. -/
  fix : Fix

/-- The fixes that diagnostics carry. -/
def PendingFix.ofDiagnostics (ds : List Diagnostic) : List PendingFix :=
  ds.filterMap fun d => d.fix.map fun fix => ⟨d.location.file, d.location.line, d.rule, fix⟩

/-- What applying fixes did. -/
structure FixOutcome where
  /-- How many files were changed. -/
  filesModified : Nat
  /-- How many fixes were applied. -/
  applied : Nat
  /-- How many of them are safe. -/
  safeApplied : Nat
  /-- How many of them are risky. -/
  riskyApplied : Nat
  /-- How many fixes touch bytes of applied ones. -/
  overlapping : Nat
  /-- How many fixes failed. -/
  failed : Nat
  /-- How many fixes were not allowed. -/
  skipped : Nat
  /-- The files that could not be read or written, with the reasons. -/
  errors : List String
  /-- The changes that are shown. -/
  diffs : List FileDiff
  /-- The files afterwards. -/
  files : Files

namespace FixOutcome

/-- Before any fix. -/
def start (files : Files) : FixOutcome := ⟨0, 0, 0, 0, 0, 0, 0, [], [], files⟩

/-- A file could not be read or written, so that all its fixes failed. -/
def fail (o : FixOutcome) (file : String) (fixes : Nat) (e : FileError) : FixOutcome :=
  { o with
    failed := o.failed + fixes
    errors := o.errors ++ [file ++ ": " ++ e.message] }

/-- The fixes of a file were tried out on its text. -/
def tried (o : FixOutcome) (e : Edit) : FixOutcome :=
  { o with
    safeApplied := o.safeApplied + e.applied.countP Fix.isSafe
    riskyApplied := o.riskyApplied + e.applied.countP fun f => !f.isSafe
    overlapping := o.overlapping + e.overlapping
    failed := o.failed + e.misfits }

/-- The change of a file was carried out. -/
def done (o : FixOutcome) (e : Edit) : FixOutcome :=
  if e.applied.isEmpty then o
  else
    { o with
      filesModified := o.filesModified + 1
      applied := o.applied + e.applied.length }

/-- The change of a file is shown, written or only counted. -/
def carryOut (p : FixPolicy) (file : String) (old : List Char) (e : Edit) (o : FixOutcome) :
    Except FileError FixOutcome :=
  if e.applied.isEmpty then .ok o
  else if p.mode = .diff then
    .ok { o with diffs := o.diffs ++ [FileDiff.between file old e.content] }
  else if p.dryRun then .ok o
  else (o.files.write file (String.ofList e.content)).map fun files => { o with files }

/-- The fixes of one file. -/
def applyFile (p : FixPolicy) (o : FixOutcome) (group : String × List PendingFix) : FixOutcome :=
  let (file, pending) := group
  let fixes := (pending.map (·.fix)).filter p.allows
  let o := { o with skipped := o.skipped + (pending.length - fixes.length) }
  if fixes.isEmpty then o
  else
    match o.files.read file with
    | .error e => o.fail file fixes.length e
    | .ok content =>
      let old := content.toList
      let edit := Edit.applyAll old fixes
      let o := o.tried edit
      match carryOut p file old edit o with
      | .ok o => o.done edit
      | .error e => o.fail file fixes.length e

end FixOutcome

/-- Applies fixes to files, in the order of their paths. -/
def applyFixes (p : FixPolicy) (files : Files) (pending : List PendingFix) : FixOutcome :=
  (Path.group (·.file) pending).foldl (FixOutcome.applyFile p) (.start files)

end TreeLayout
