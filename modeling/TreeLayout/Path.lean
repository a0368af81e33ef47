/-!
# Paths

A path is a text of names between slashes. Two paths are the same if their components are: repeated
slashes, a slash at the end, and dots that are not at the start do not count. Paths are ordered by
components.
-/

namespace TreeLayout.Path

/-- One part of a path. -/
inductive Component where
  /-- The root of all files. -/
  | root
  /-- The current directory, at the start of a path. -/
  | current
  /-- The directory above. -/
  | parent
  /-- A name. -/
  | name (s : String)
  deriving DecidableEq

/-- The rank of a kind of component in the order of paths. -/
def Component.rank : Component → Nat
  | .root => 0
  | .current => 1
  | .parent => 2
  | .name _ => 3

/-- Whether a component comes before another one. -/
def Component.lt : Component → Component → Bool
  | .name a, .name b => decide (a < b)
  | a, b => decide (a.rank < b.rank)

/-- The component that a piece between slashes stands for; `start` marks the first piece. -/
def componentOf? (start : Bool) (piece : String) : Option Component :=
  if piece.isEmpty then none
  else if piece == "." then if start then some .current else none
  else if piece == ".." then some .parent
  else some (.name piece)

/-- The components of a path. -/
def components (path : String) : List Component :=
  match path.splitOn "/" with
  | [] => []
  | piece :: pieces =>
    let first :=
      if piece.isEmpty then (if pieces.isEmpty then none else some .root)
      else componentOf? true piece
    first.toList ++ pieces.filterMap (componentOf? false)

/-- Whether two paths are the same. -/
def same (a b : String) : Bool := components a = components b

/-- Whether a list of components comes before another one or is equal to it. -/
def componentsLe : List Component → List Component → Bool
  | [], _ => true
  | _ :: _, [] => false
  | a :: as, b :: bs => a.lt b || (decide (a = b) && componentsLe as bs)

/-- Whether a path comes before another one or is the same. -/
def le (a b : String) : Bool := componentsLe (components a) (components b)

/-- Whether a path starts at the root. -/
def isAbsolute (path : String) : Bool := path.startsWith "/"

/-- A path relative to a directory. -/
def join (dir path : String) : String :=
  if isAbsolute path || dir.isEmpty then path
  else if dir.endsWith "/" then dir ++ path
  else dir ++ "/" ++ path

/-- The pieces of a path, each with whether it is a component. -/
def markedPieces (path : String) : List (String × Bool) :=
  match path.splitOn "/" with
  | [] => []
  | piece :: pieces =>
    (piece, (componentOf? true piece).isSome)
      :: pieces.map fun piece => (piece, (componentOf? false piece).isSome)

/-- The pieces up to the last one that is a component. -/
def trimPieces (pieces : List (String × Bool)) : List (String × Bool) :=
  (pieces.reverse.dropWhile fun p => !p.2).reverse

/-- The directory that a path lies in; the empty path and the root lie in none. -/
def parent? (path : String) : Option String :=
  match (trimPieces (markedPieces path)).reverse with
  | [] => none
  | _ :: before =>
    let dir := "/".intercalate ((trimPieces before.reverse).map (·.1))
    if dir.isEmpty && isAbsolute path then some "/" else some dir

/-- The last name of a path. -/
def fileName? (path : String) : Option String :=
  match (components path).getLast? with
  | some (.name s) => some s
  | _ => none

/-- The part of a file name after its last dot; a dot at the start of the name does not count. -/
def extension? (path : String) : Option String := do
  let name ← fileName? path
  match (name.splitOn ".").reverse with
  | last :: before =>
    if before.isEmpty || before == [""] then none else some last
  | [] => none

/-- Puts an item into the group of its path, which keeps the spelling that was met first; a path
without a group gets one at the end. -/
def insertGroup {α : Type} (path : String) (a : α) :
    List (String × List α) → List (String × List α)
  | [] => [(path, [a])]
  | (first, items) :: rest =>
    if same first path then (first, items ++ [a]) :: rest
    else (first, items) :: insertGroup path a rest

/-- The items of a list by path: the paths in order, and under each its items in the order of the
list. -/
def group {α : Type} (path : α → String) (items : List α) : List (String × List α) :=
  (items.foldl (fun groups a => insertGroup (path a) a groups) []).mergeSort fun a b => le a.1 b.1

end TreeLayout.Path
