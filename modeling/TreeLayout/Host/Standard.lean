import TreeLayout.Data.Json.Reader
import TreeLayout.Glob.Pattern
import TreeLayout.Glob.Search
import TreeLayout.Host

/-!
# The host of the program

The readers and patterns of this library, and one thread. Their faults are worded in brief: a reader says
that a text is not what it reads and nothing about where.
-/

namespace TreeLayout

/-- What a reader read, or that it could not. -/
def orFault {α : Type} (fault : String) : Option α → Except String α
  | some a => .ok a
  | none => .error fault

/-- What is wrong with the shape of a document, in brief. -/
def ShapeFault.brief : ShapeFault → String
  | .config .. => "not a configuration"
  | .layout _ => "not a layout"
  | .json _ => "not a JSON value"

/-- The readers and patterns of this library, and one thread. -/
def Host.standard : Host where
  treeJson content := orFault "not a tree document" (TreeFile.parseJson? content)
  treeYaml content := orFault "not a tree document" (TreeFile.parseYaml? content)
  json content :=
    orFault "not a JSON value" ((Json.parse? Json.documentDepth content).filter (·.isValid))
  yaml content := orFault "not a YAML value" (Yaml.Datum.parse? content)
  describe := ShapeFault.brief
  glob pattern :=
    match Glob.parse pattern with
    | .ok tokens => .ok (Glob.matchesPath tokens)
    | .error e => .error (e.message pattern)
  search files pattern := (Search.expand files pattern).mapError Search.Error.message
  processors := 1
  threads? _ := some .single

/-- A tree document is read as JSON by the reader of this library. -/
theorem Host.standard_treeJson (content : String) :
    standard.treeJson content = orFault "not a tree document" (TreeFile.parseJson? content) :=
  rfl

end TreeLayout
