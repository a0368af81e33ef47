import TreeLayout.Arithmetic

/-!
# Columns with tabs

A tab advances to the next multiple of the tab width and every other character counts one column. A
raw column counts characters; an expanded column counts the width of what stands before. A tab width
of zero is read as one. All widths are counted in a given arithmetic.
-/

namespace TreeLayout.Column

/-- The width reached after one more character. -/
def advance (a : Arithmetic) (tabWidth width : Nat) (c : Char) : Nat :=
  if c = '\t' then a.mul (a.add (width / tabWidth) 1) tabWidth else a.add width 1

/-- The width of a text that starts at column zero. -/
def width (a : Arithmetic) (tabWidth : Nat) (cs : List Char) : Nat :=
  cs.foldl (advance a tabWidth) 0

/-- The expanded column of a raw column; each position past the end of the line counts one. -/
def expanded (a : Arithmetic) (line : List Char) (raw tabWidth : Nat) : Nat :=
  a.add (width a (max tabWidth 1) (line.take raw)) (raw - line.length)

/-- The width of the spaces and tabs that open a line. -/
def indentation (a : Arithmetic) (line : List Char) (tabWidth : Nat) : Nat :=
  width a (max tabWidth 1) (line.takeWhile fun c => c = ' ' || c = '\t')

/-- A line from column `start` on, with each tab written as the spaces that it stands for. -/
def expandFrom (a : Arithmetic) (tabWidth start : Nat) : List Char → List Char
  | [] => []
  | c :: cs =>
    let next := advance a tabWidth start c
    (if c = '\t' then List.replicate (a.sub next start) ' ' else [c]) ++ expandFrom a tabWidth next cs

/-- A line with each tab written as the spaces that it stands for. -/
def expandTabs (a : Arithmetic) (line : List Char) (tabWidth : Nat) : List Char :=
  expandFrom a (max tabWidth 1) 0 line

/-- Spaces up to a column. -/
def spaces (n : Nat) : List Char :=
  List.replicate n ' '

end TreeLayout.Column
