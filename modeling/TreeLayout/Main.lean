import TreeLayout.CommandLine.Run
import TreeLayout.Host.Standard

/-!
# The program

The files below the working directory are read, the command line is run on them, and what it leaves
behind is written.
-/

namespace TreeLayout.Main

/-- How deep directories are followed. -/
def maxDepth : Nat := 64

/-- The names of the files below a directory, relative to the working directory. -/
def filesBelow : (depth : Nat) → (dir : String) → IO (List String)
  | 0, _ => return []
  | depth + 1, dir => do
    let place : IO.FS.DirEntry := ⟨dir, ""⟩
    let entries ← try place.root.readDir catch _ => pure #[]
    let found ← entries.toList.mapM fun entry => do
      let name := Path.join (if dir == "." then "" else dir) entry.fileName
      if ← entry.path.isDir then filesBelow depth name else return [name]
    return found.flatten

/-- The content of a file, if it can be read as text. -/
def contentOf? (name : String) : IO (Option String) := do
  try return some (← IO.FS.readFile name) catch _ => return none

/-- Named files with their contents, where `name` says how each is called. -/
def readAll (paths : List String) (name : String → String) : IO Files := do
  let entries ← paths.filterMapM fun path => do
    return (← contentOf? path).map fun content => (name path, content)
  return { entries }

/-- The configuration files in the home directory. -/
def homeFiles : IO Files := do
  match ← IO.getEnv "HOME" with
  | none => return { entries := [] }
  | some home =>
    let paths ← filesBelow 1 home
    let wanted := paths.filter fun path =>
      ["json", "yaml", "yml"].contains ((Path.extension? path).getD "")
    readAll wanted fun path => (Path.fileName? path).getD path

/-- Writes the files that a run changed. -/
def writeBack (before after : Files) : IO Unit :=
  (after.changedSince before).forM fun (name, content) => IO.FS.writeFile name content

end TreeLayout.Main

open TreeLayout in
/-- Runs the command line in the working directory and gives its exit code. -/
def main (args : List String) : IO UInt32 := do
  let paths ← Main.filesBelow Main.maxDepth "."
  let files ← Main.readAll paths id
  let outcome ←
    match CommandLine.prepare args .standard files (← Main.homeFiles) with
    | .error outcome => pure outcome
    | .ok job => do
      let started ← IO.monoMsNow
      let report := job.report
      let ended ← if report.filesProcessed = 0 then pure started else IO.monoMsNow
      pure (job.finish { report with durationMs := ended - started })
  outcome.stderr.forM fun line => IO.eprintln line
  IO.print outcome.stdout
  Main.writeBack files outcome.files
  return outcome.code.toUInt32
