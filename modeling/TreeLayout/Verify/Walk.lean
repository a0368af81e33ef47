import TreeLayout.Program.Table
import TreeLayout.Verify.Machine

/-!
# Walking a tree

Every node is visited once, in document order, and the program of its kind is run on it. A structural
mismatch ends only the visit of its own node. If the settings ask for it, the `=` of a declaration is
compared with that of the declaration on the line above.
-/

namespace TreeLayout

open Machine (Event)

/-- Whether the `=` of nodes of a kind are aligned. -/
def isDeclaration (k : Kind) : Bool :=
  k = .construct .fieldDecl || k = .construct .localVarDecl

/-- The first `=` among the children of a declaration. -/
def assignToken? (t : Tree) : Option Tree :=
  t.children.find? fun c => c.kind = .token .assign

/-- The `=` of two declarations, one below the other, stand in one column. -/
def alignWith (cx : Context) (above here : Tree) : List Finding :=
  if cx.succ above.rightmost.line ≠ here.line then []
  else
    match assignToken? above, assignToken? here with
    | some first, some second =>
      let expected := cx.column first
      let actual := cx.column second
      if expected = actual then []
      else
        [cx.finding second (.column second.text (cx.succ expected) (cx.succ actual)) (some expected)]
    | _, _ => []

/-- The alignment of a declaration with its previous sibling, if that is the declaration visited last and
of the same kind. Nodes are told apart by their numbers in document order. -/
def alignDeclaration (cx : Context) (last : Option Nat) (f : Focus) : List Finding :=
  match f.prev? with
  | none => []
  | some prev =>
    if last = some prev.index && prev.tree.kind = f.tree.kind then alignWith cx prev.tree f.tree
    else []

/-- The log of visiting nodes in order, where `last` is the number of the declaration visited last. -/
def walkFrom (cx : Context) (table : ProgramTable) (last : Option Nat) : List Focus → List Event
  | [] => []
  | f :: fs =>
    let events :=
      match table.get? f.tree.kind with
      | some program => Machine.run cx f program
      | none => []
    if cx.settings.alignDeclarations && isDeclaration f.tree.kind then
      events ++ (alignDeclaration cx last f).map .report
        ++ walkFrom cx table (some f.index) fs
    else events ++ walkFrom cx table last fs

/-- The log of a whole walk. -/
def walk (cx : Context) (table : ProgramTable) (t : Tree) : List Event :=
  walkFrom cx table none t.foci

/-- Whether a finding stands no later than another one. -/
def Finding.le (a b : Finding) : Bool :=
  decide (a.line < b.line) || (decide (a.line = b.line) && decide (a.column ≤ b.column))

/-- The findings of a whole walk in the order in which they are reported. -/
def walkFindings (cx : Context) (table : ProgramTable) (t : Tree) : List Finding :=
  Machine.findings (walk cx table t)

/-- The findings of a whole walk ordered by place; findings at one place keep the order of the walk. -/
def verify (cx : Context) (table : ProgramTable) (t : Tree) : List Finding :=
  (walkFindings cx table t).mergeSort Finding.le

end TreeLayout
