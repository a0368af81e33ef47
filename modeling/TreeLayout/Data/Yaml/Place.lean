import TreeLayout.Text.Basic

/-!
# Characters and places of YAML texts

A document holds no control characters other than tabs and line ends. The line ends of all systems are
read as one character; the line and the paragraph separator also end lines and are kept. A place is
where a token starts or ends: columns count characters, and the index counts bytes.
-/

namespace TreeLayout.Yaml

/-- Whether a character may stand in a document. -/
def isAllowed (c : Char) : Bool :=
  let n := c.toNat
  n = 0x09 || n = 0x0A || n = 0x0D || (0x20 ≤ n && n ≤ 0x7E) || n = 0x85
    || (0xA0 ≤ n && n ≤ 0xFFFD) || 0x10000 ≤ n

/-- A text in which a carriage return, alone or before a line feed, and a next-line character are line
feeds. -/
def unifyLineEnds : List Char → List Char
  | [] => []
  | '\r' :: '\n' :: cs => '\n' :: unifyLineEnds cs
  | c :: cs => (if c = '\r' || c = '\u0085' then '\n' else c) :: unifyLineEnds cs

/-- Whether a character ends a line. -/
def isBreak (c : Char) : Bool := c = '\n' || c = '\u2028' || c = '\u2029'

/-- Whether a character is a blank inside a line. -/
def isBlank (c : Char) : Bool := c = ' ' || c = '\t'

/-- Whether a text starts with a blank or a line end, or is at its end. -/
def atBlank (cs : List Char) : Bool :=
  match cs with
  | [] => true
  | c :: _ => isBlank c || isBreak c

/-- Whether a text starts with one of the given characters. -/
def startsWith (marks : List Char) (cs : List Char) : Bool :=
  match cs with
  | [] => false
  | c :: _ => marks.contains c

/-- The characters that structure flow collections. -/
def isFlowMark (c : Char) : Bool :=
  c = ',' || c = '[' || c = ']' || c = '\x7b' || c = '\x7d'

/-- The characters of names: letters, digits, the underscore and the dash, all ASCII. -/
def isWord (c : Char) : Bool := c.isAlphanum || c = '_' || c = '-'

/-- Whether three times the same mark stands at the start of a text with a blank after it. -/
def isTriple (mark : Char) (cs : List Char) : Bool :=
  match cs with
  | a :: b :: c :: rest => a = mark && b = mark && c = mark && atBlank rest
  | _ => false

/-- Whether a text starts with the mark that opens or closes a document. -/
def atDocumentMark (cs : List Char) : Bool := isTriple '-' cs || isTriple '.' cs

/-- A place in a document. -/
structure Place where
  /-- The number of bytes before the place. -/
  index : Nat
  /-- The number of line ends before the place. -/
  line : Nat
  /-- The number of characters before the place on its line. -/
  column : Nat
  /-- The text from the place on. -/
  rest : List Char

namespace Place

/-- The start of a text. -/
def start (cs : List Char) : Place := ⟨0, 0, 0, cs⟩

/-- The place after some characters of the line. -/
def skip (p : Place) (n : Nat) : Place :=
  let cs := p.rest.take n
  ⟨p.index + Text.byteSize cs, p.line, p.column + cs.length, p.rest.drop n⟩

/-- The place after those characters of the line that pass a test. -/
def skipWhile (p : Place) (test : Char → Bool) : Place := p.skip (p.rest.takeWhile test).length

/-- The place after blanks and a comment on the line. -/
def skipComment (p : Place) : Place :=
  let p := p.skipWhile isBlank
  if startsWith ['#'] p.rest then p.skipWhile fun c => !isBreak c else p

/-- The line end at a place, if there is one, and the place after it. -/
def skipBreak (p : Place) : Option Char × Place :=
  match p.rest with
  | [] => (none, p)
  | c :: cs => if isBreak c then (some c, ⟨p.index + c.utf8Size, p.line + 1, 0, cs⟩) else (none, p)

end Place

end TreeLayout.Yaml
