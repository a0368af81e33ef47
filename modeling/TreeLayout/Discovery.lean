import TreeLayout.Config
import TreeLayout.Host

/-!
# Finding documents

Documents are named by search patterns. A pattern that finds no file stands for itself. Where no
patterns are given, all files are taken that an include pattern finds and no exclude pattern matches.
-/

namespace TreeLayout.Discovery

/-- Why documents cannot be looked for: a text that is no pattern, with what the host says about it. -/
inductive Error where
  /-- The text is no search pattern. -/
  | pattern (text fault : String)
  /-- The text is no search pattern, and the configuration has it among those of files to include. -/
  | includePattern (text fault : String)
  /-- The text is no pattern, and the configuration has it among those of files to leave out. -/
  | excludePattern (text fault : String)

/-- The texts of an error, from the outside to the cause. -/
def Error.causes : Error → List String
  | .pattern text fault => ["invalid pattern '" ++ text ++ "'", fault]
  | .includePattern text fault => ["invalid include pattern '" ++ text ++ "'", fault]
  | .excludePattern text fault => ["invalid glob '" ++ text ++ "'", fault]

/-- The documents that a pattern names. -/
def expandPattern (host : Host) (files : Files) (pattern : String) : Except Error (List String) :=
  match host.search files pattern with
  | .error fault => .error (.pattern pattern fault)
  | .ok paths =>
    let found := paths.filter files.isFile
    .ok (if found.isEmpty then [pattern] else found)

/-- The documents that several patterns name, in the order of the patterns. -/
def expandPatterns (host : Host) (files : Files) (patterns : List String) :
    Except Error (List String) := do
  let groups ← patterns.mapM (expandPattern host files)
  return groups.flatten

/-- The paths that an exclude pattern matches. -/
def excludes (host : Host) (pattern : String) : Except Error (String → Bool) :=
  (host.glob pattern).mapError (.excludePattern pattern)

/-- A path without a dot at its start that names the current directory. -/
def withoutDot (path : String) : String :=
  match Path.components path with
  | .current :: _ =>
    String.ofList ((path.toList.drop 1).dropWhile fun c => c = '/')
  | _ => path

/-- The files that one include pattern finds. -/
def included (host : Host) (files : Files) (pattern : String) : Except Error (List String) :=
  match host.search files (Path.join "." pattern) with
  | .ok paths => .ok (paths.filter files.isFile)
  | .error fault => .error (.includePattern pattern fault)

/-- A sorted list of paths without repetitions. -/
def dedup : List String → List String
  | a :: b :: rest =>
    if Path.same a b then dedup (a :: rest) else a :: dedup (b :: rest)
  | short => short

/-- The files that an include pattern finds and no exclude pattern matches, in the order of paths. -/
def discover (host : Host) (files : Files) (settings : FileSettings) :
    Except Error (List String) := do
  let excluded ← settings.excludes.mapM (excludes host)
  let groups ← settings.includes.mapM (included host files)
  let isExcluded (path : String) : Bool :=
    excluded.any fun isMatch => isMatch (withoutDot path) || isMatch path
  return dedup ((groups.flatten.filter fun path => !isExcluded path).mergeSort Path.le)

end TreeLayout.Discovery
