import TreeLayout.Data.Decode
import TreeLayout.Data.Yaml.Datum
import TreeLayout.Files
import TreeLayout.TreeFile

/-!
# What a run takes from elsewhere

Some of the work of a run is done by others: texts are read as JSON and as YAML, patterns are matched,
files are searched for, and threads verify several documents at the same time. A host is a choice of all
that. Nothing is assumed about it but that threads finish each of their tasks once; what it says about
a fault ends up in messages as it is.
-/

namespace TreeLayout

/-! ## Threads -/

/-- Threads that share the tasks of a run. -/
structure ThreadPool where
  /-- The order in which so many tasks are finished. -/
  order : Nat → List Nat
  /-- Each task is finished once. -/
  order_perm : ∀ n, (order n).Perm (List.range n)

namespace ThreadPool

/-- The results of tasks in the order in which they are finished, each with the number of its task. -/
def finished {α β : Type} (pool : ThreadPool) (f : α → β) (as : List α) : List (Nat × β) :=
  (pool.order as.length).filterMap fun i => as[i]?.map fun a => (i, f a)

/-- The results of tasks, each at the place of its task. -/
def map {α β : Type} (pool : ThreadPool) (f : α → β) (as : List α) : List β :=
  (List.range as.length).filterMap fun i => (pool.finished f as).lookup i

/-- One thread, which takes the tasks one after the other. -/
def single : ThreadPool where
  order := List.range
  order_perm _ := .refl _

end ThreadPool

/-! ## Hosts -/

/-- Why a document that could be read does not have the shape that is wanted. -/
inductive ShapeFault where
  /-- The value is no configuration. -/
  | config (d : Dialect) (v : Value)
  /-- The value is no layout. -/
  | layout (v : Value)
  /-- The datum cannot be written as JSON. -/
  | json (v : Yaml.Datum)

/-- What a run takes from elsewhere. -/
structure Host where
  /-- The content of a tree document that is written as JSON, or what is wrong with it. -/
  treeJson : String → Except String TreeFile
  /-- The content of a tree document that is written as YAML, or what is wrong with it. -/
  treeYaml : String → Except String TreeFile
  /-- The value that a text holds as JSON, or what is wrong with the text. -/
  json : String → Except String Value
  /-- The datum that a text holds as YAML, or what is wrong with the text. -/
  yaml : String → Except String Yaml.Datum
  /-- What is wrong with the shape of a document, in words. -/
  describe : ShapeFault → String
  /-- The paths that a pattern matches, or what is wrong with the pattern. -/
  glob : String → Except String (String → Bool)
  /-- The paths that a search pattern finds among files, or what is wrong with the pattern. -/
  search : Files → String → Except String (List String)
  /-- The number of processors. -/
  processors : Nat
  /-- So many threads, if they can be had. -/
  threads? : Nat → Option ThreadPool

/-- Whether a pattern matches a file; a text that is no pattern matches none. -/
def Host.globMatches (host : Host) (pattern file : String) : Bool :=
  match host.glob pattern with
  | .ok isMatch => isMatch file
  | .error _ => false

end TreeLayout
