import TreeLayout.Host
import TreeLayout.SourceText
import TreeLayout.Tree.Error

/-!
# Tree documents

A tree document holds a raw tree and says which source it was parsed from: either the text itself, or a
file, named relative to the document. A document whose name ends in `.json` is read as JSON and any
other one as YAML.
-/

namespace TreeLayout

/-- Why a document cannot be loaded. -/
inductive DocumentError where
  /-- A file cannot be read. -/
  | file (path : String) (e : FileError)
  /-- The document is no YAML of the right shape, with what its reader says about it. -/
  | yaml (text : String)
  /-- The document is no JSON of the right shape, with what its reader says about it. -/
  | json (text : String)
  /-- The raw tree is no tree. -/
  | tree (e : TreeError)
  /-- The document does not say what its source is. -/
  | missingSource

/-- The text of an error. -/
def DocumentError.message : DocumentError → String
  | .file path e => "failed to read " ++ path ++ ": " ++ e.message
  | .yaml text => "invalid YAML tree document: " ++ text
  | .json text => "invalid JSON tree document: " ++ text
  | .tree e => "invalid syntax tree: " ++ e.message
  | .missingSource => "tree document names neither `source` nor `text`"

namespace TreeFile

/-- Whether a document with a name is JSON. -/
def isJson (path : String) : Bool :=
  match Path.extension? path with
  | some extension => Text.lowercase extension == "json"
  | none => false

/-- The content of a document with a name. -/
def parse (host : Host) (content path : String) : Except DocumentError TreeFile :=
  if isJson path then (host.treeJson content).mapError .json
  else (host.treeYaml content).mapError .yaml

end TreeFile

/-- A tree with the source that it was parsed from. -/
structure Document where
  /-- The path of the document. -/
  path : String
  /-- The path of the source, if it is a file of its own. -/
  sourcePath : Option String
  /-- The tree. -/
  tree : Tree
  /-- The source. -/
  source : SourceText

namespace Document

/-- The content of a file that a document needs. -/
def readFile (files : Files) (path : String) : Except DocumentError String :=
  match files.read path with
  | .ok content => .ok content
  | .error e => .error (.file path e)

/-- The text of a document's source, and its path if it is a file of its own. -/
def sourceOf (files : Files) (file : TreeFile) (path : String) :
    Except DocumentError (String × Option String) :=
  match file.text, file.source with
  | some text, _ => .ok (text, none)
  | none, some source => do
    let resolved := Path.join ((Path.parent? path).getD "") source
    let text ← readFile files resolved
    return (text, some resolved)
  | none, none => .error .missingSource

/-- A document with its source; the document's tab width wins over the given one. -/
def ofTreeFile (files : Files) (file : TreeFile) (path : String) (tabWidth : Nat) :
    Except DocumentError Document := do
  let (text, sourcePath) ← sourceOf files file path
  match file.root.toTree with
  | .error e => .error (.tree e)
  | .ok tree =>
    return { path, sourcePath, tree, source := .ofString text (file.tabWidth.getD tabWidth) }

/-- The document at a path. -/
def load (host : Host) (files : Files) (path : String) (tabWidth : Nat) :
    Except DocumentError Document := do
  let content ← readFile files path
  let file ← TreeFile.parse host content path
  ofTreeFile files file path tabWidth

/-- The file that diagnostics are reported against: the source if it is a file of its own. -/
def displayPath (doc : Document) : String := doc.sourcePath.getD doc.path

end Document

end TreeLayout
