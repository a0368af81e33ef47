import TreeLayout.Data.Json.Number
import TreeLayout.Data.Yaml.Place

/-!
# Plain and quoted scalars

Scalars that flow over lines: a line end inside them is read as a blank, and further ones as line ends.
Blanks around a line end are no part of the scalar.
-/

namespace TreeLayout.Yaml

/-- What stands between two words of a flowing scalar. -/
structure Pause where
  /-- The blanks on the line, last first. -/
  blanks : List Char
  /-- Whether a line ended. -/
  broken : Bool
  /-- The first line end, unless it was escaped. -/
  first : Option Char
  /-- The further line ends, last first. -/
  further : List Char

namespace Pause

/-- Nothing between two characters. -/
def nothing : Pause := ⟨[], false, none, []⟩

/-- A line end that is escaped. -/
def escaped : Pause := ⟨[], true, none, []⟩

/-- Whether nothing was read. -/
def isNothing (p : Pause) : Bool := p.blanks.isEmpty && !p.broken

/-- A blank is read; after a line end it does not count. -/
def addBlank (p : Pause) (c : Char) : Pause :=
  if p.broken then p else { p with blanks := c :: p.blanks }

/-- A line end is read; the blanks before it do not count. -/
def addBreak (p : Pause) (c : Char) : Pause :=
  if p.broken then { p with further := c :: p.further } else ⟨[], true, some c, []⟩

/-- The characters read so far, last first, with what a pause stands for. -/
def join (p : Pause) (acc : List Char) : List Char :=
  if !p.broken then p.blanks ++ acc
  else
    match p.first with
    | some '\n' => if p.further.isEmpty then ' ' :: acc else p.further ++ acc
    | some c => p.further ++ c :: acc
    | none => p.further ++ acc

end Pause

/-- The number that hexadecimal digits write, as a character. -/
def hexChar? (cs : List Char) : Option Char := do
  let n ← cs.foldlM (fun n c => (Json.digit? c).map (n * 16 + ·)) 0
  if h : n.isValidChar then some (Char.ofNatAux n h) else none

/-- The character that a one-letter escape stands for. -/
def escape? : Char → Option Char
  | '0' => some '\x00'
  | 'a' => some '\x07'
  | 'b' => some '\x08'
  | 't' | '\t' => some '\t'
  | 'n' => some '\n'
  | 'v' => some '\x0b'
  | 'f' => some '\x0c'
  | 'r' => some '\r'
  | 'e' => some '\x1b'
  | ' ' => some ' '
  | '\x22' => some '\x22'
  | '/' => some '/'
  | '\\' => some '\\'
  | 'N' => some '\u0085'
  | '_' => some '\u00a0'
  | 'L' => some '\u2028'
  | 'P' => some '\u2029'
  | _ => none

/-- The rest of a double-quoted scalar after its opening quote. No line of it starts with the mark of a
document. -/
def doubleQuoted (acc : List Char) (pause : Pause) (index line column : Nat) :
    List Char → Option (String × Place)
  | [] => none
  | '\x22' :: cs =>
    some (String.ofList (pause.join acc).reverse, ⟨index + 1, line, column + 1, cs⟩)
  | '\\' :: 'x' :: a :: b :: cs =>
    match hexChar? [a, b] with
    | some c => doubleQuoted (c :: pause.join acc) .nothing (index + 4) line (column + 4) cs
    | none => none
  | '\\' :: 'u' :: a :: b :: c :: d :: cs =>
    match hexChar? [a, b, c, d] with
    | some c => doubleQuoted (c :: pause.join acc) .nothing (index + 6) line (column + 6) cs
    | none => none
  | '\\' :: 'U' :: a :: b :: c :: d :: e :: f :: g :: h :: cs =>
    match hexChar? [a, b, c, d, e, f, g, h] with
    | some c => doubleQuoted (c :: pause.join acc) .nothing (index + 10) line (column + 10) cs
    | none => none
  | '\\' :: c :: cs =>
    if isBreak c then
      doubleQuoted (pause.join acc) .escaped (index + 1 + c.utf8Size) (line + 1) 0 cs
    else
      match escape? c with
      | some e => doubleQuoted (e :: pause.join acc) .nothing (index + 2) line (column + 2) cs
      | none => none
  | c :: cs =>
    if isBlank c then doubleQuoted acc (pause.addBlank c) (index + 1) line (column + 1) cs
    else if isBreak c then
      doubleQuoted acc (pause.addBreak c) (index + c.utf8Size) (line + 1) 0 cs
    else if c = '\\' || (column = 0 && atDocumentMark (c :: cs)) then none
    else
      doubleQuoted (c :: pause.join acc) .nothing (index + c.utf8Size) line (column + 1) cs

/-- The rest of a single-quoted scalar after its opening quote; a quote inside it is written twice. -/
def singleQuoted (acc : List Char) (pause : Pause) (index line column : Nat) :
    List Char → Option (String × Place)
  | [] => none
  | '\x27' :: '\x27' :: cs =>
    singleQuoted ('\x27' :: pause.join acc) .nothing (index + 2) line (column + 2) cs
  | c :: cs =>
    if c = '\x27' then
      some (String.ofList (pause.join acc).reverse, ⟨index + 1, line, column + 1, cs⟩)
    else if isBlank c then singleQuoted acc (pause.addBlank c) (index + 1) line (column + 1) cs
    else if isBreak c then
      singleQuoted acc (pause.addBreak c) (index + c.utf8Size) (line + 1) 0 cs
    else if column = 0 && atDocumentMark (c :: cs) then none
    else
      singleQuoted (c :: pause.join acc) .nothing (index + c.utf8Size) line (column + 1) cs

/-- A plain scalar whose further lines are indented by at least `level`: its text, whether a line ended
after it, and the place where it stops. Blanks and line ends after it are passed over. Inside flow
collections the indentation does not count, but no tab may stand in it. -/
def plain (flow : Bool) (level : Nat) (acc : List Char) (pause : Pause) (index line column : Nat) :
    List Char → Option (String × Bool × Place)
  | [] => some (String.ofList acc.reverse, pause.broken, ⟨index, line, column, []⟩)
  | c :: cs =>
    let stop := (String.ofList acc.reverse, pause.broken, (⟨index, line, column, c :: cs⟩ : Place))
    if isBlank c then
      if pause.broken && c = '\t' && column < level then none
      else plain flow level acc (pause.addBlank c) (index + 1) line (column + 1) cs
    else if isBreak c then
      plain flow level acc (pause.addBreak c) (index + c.utf8Size) (line + 1) 0 cs
    else if !pause.isNothing
        && ((!flow && column < level) || c = '#' || (column = 0 && atDocumentMark (c :: cs))) then
      some stop
    else if c = ':' && flow && startsWith [',', '?', '[', ']', '\x7b', '\x7d'] cs then none
    else if (c = ':' && atBlank cs) || (flow && isFlowMark c) then some stop
    else plain flow level (c :: pause.join acc) .nothing (index + c.utf8Size) line (column + 1) cs

end TreeLayout.Yaml
