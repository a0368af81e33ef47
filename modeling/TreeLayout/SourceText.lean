import TreeLayout.Text.Basic
import TreeLayout.Column

/-!
# Source texts

A source text is read by lines, counted from one, and raw columns, counted from zero in characters.
`lineStart?` and `offset?` give byte offsets into the whole text. Expanded columns are counted in the
arithmetic of the source; a text that is read is counted in words.
-/

namespace TreeLayout

/-- A text together with its pieces between line ends, the tab width used to read it, and the arithmetic
in which its columns are counted. -/
structure SourceText where
  /-- The whole text. -/
  text : String
  /-- Columns from one tab stop to the next. -/
  tabWidth : Nat
  /-- The pieces of the text between its line ends. -/
  segments : List (List Char)
  /-- How columns are counted. -/
  arithmetic : Arithmetic
  /-- Tab stops are apart. -/
  tabWidth_pos : 0 < tabWidth
  /-- The tab width is a number that can be counted. -/
  tabWidth_holds : arithmetic.Holds tabWidth
  /-- The pieces are those of the text. -/
  segments_eq : segments = Text.segments text.toList

namespace SourceText

/-- A text read with a tab width, where zero stands for one. The tab width and all columns are words. -/
def ofString (text : String) (tabWidth : Nat) : SourceText where
  text := text
  tabWidth := max (Arithmetic.words.fit tabWidth) 1
  segments := Text.segments text.toList
  arithmetic := .words
  tabWidth_pos := Nat.lt_of_lt_of_le Nat.zero_lt_one (Nat.le_max_right _ _)
  tabWidth_holds :=
    Arithmetic.holds_words.2 (Nat.max_lt.2 ⟨Nat.mod_lt _ (by decide), by decide⟩)
  segments_eq := rfl

/-- The number of lines; a line end that closes the text opens one more. -/
def lineCount (s : SourceText) : Nat :=
  s.segments.length

/-- The line with a number, without the carriage returns that end it; empty where there is none. -/
def line (s : SourceText) : Nat → List Char
  | 0 => []
  | n + 1 => (s.segments[n]?.map (Text.trimEnd (· = '\r'))).getD []

/-- All lines in order. -/
def lines (s : SourceText) : List (List Char) :=
  s.segments.map (Text.trimEnd (· = '\r'))

/-- The expanded column of a raw column of a line. -/
def column (s : SourceText) (line raw : Nat) : Nat :=
  Column.expanded s.arithmetic (s.line line) raw s.tabWidth

/-- The width of the spaces and tabs that open a line. -/
def indentation (s : SourceText) (line : Nat) : Nat :=
  Column.indentation s.arithmetic (s.line line) s.tabWidth

/-- The byte offset at which a line starts. -/
def lineStart? (s : SourceText) : Nat → Option Nat
  | 0 => none
  | n + 1 =>
    if n < s.segments.length then
      some (Text.linesSize (s.segments.take n))
    else none

/-- The byte offset of a raw column of a line; columns past the end of the line stop there. -/
def offset? (s : SourceText) (line raw : Nat) : Option Nat :=
  (s.lineStart? line).map (· + Text.byteSize ((s.line line).take raw))

end SourceText

end TreeLayout
