import TreeLayout.Data.Yaml.Token
import TreeLayout.Data.Yaml.Token.Block
import TreeLayout.Data.Yaml.Token.Flowing
import TreeLayout.Data.Yaml.Token.Property

/-!
# From text to tokens

Indentation starts and ends block collections. A node that stands where a key may stand is remembered,
and becomes a key if a colon follows it on the same line and not too far away; the tokens that say so
are then put before it. Where a key must stand, a missing colon is an error.
-/

namespace TreeLayout.Yaml

/-- A node that may turn out to be a key. -/
structure KeyMark where
  /-- Whether a key must stand there. -/
  required : Bool
  /-- The number of tokens before it. -/
  number : Nat
  /-- Its byte index. -/
  index : Nat
  /-- Its line. -/
  line : Nat
  /-- Its column. -/
  column : Nat

/-- The number of bytes that a key without a mark of its own may take. -/
def keyBound : Nat := 1024

/-- A possible key seen from a later place: it is given up on another line or too far away, which is an
error if a key must stand there. -/
def KeyMark.stillAt? (p : Place) : Option KeyMark → Option (Option KeyMark)
  | none => some none
  | some k =>
    if k.line < p.line || k.index + keyBound < p.index then
      if k.required then none else some none
    else some (some k)

/-- The state between two tokens. -/
structure Lexer where
  /-- The place reached. -/
  place : Place
  /-- The lowest column of the content of the current block collection, which is one more than its own,
  or zero outside of all. -/
  level : Nat
  /-- The levels of the block collections around it. -/
  outerLevels : List Nat
  /-- Whether a key may start here. -/
  keyAllowed : Bool
  /-- The possible key in the current flow collection, or outside of all. -/
  key : Option KeyMark
  /-- The possible keys in the flow collections around it. -/
  outerKeys : List (Option KeyMark)
  /-- The tokens so far, last first. -/
  tokens : List Token
  /-- The number of tokens so far. -/
  count : Nat

namespace Lexer

/-- The state before a text. -/
def start (cs : List Char) : Lexer := ⟨.start cs, 0, [], true, none, [], [], 0⟩

/-- Whether the place is inside a flow collection. -/
def inFlow (s : Lexer) : Bool := !s.outerKeys.isEmpty

/-- A token is added at the end. -/
def push (s : Lexer) (t : Token) : Lexer := { s with tokens := t :: s.tokens, count := s.count + 1 }

/-- A token is put after the first `number` ones. -/
def insert (s : Lexer) (number : Nat) (t : Token) : Lexer :=
  let after := s.count - number
  { s with tokens := s.tokens.take after ++ t :: s.tokens.drop after, count := s.count + 1 }

/-- The place moves on over characters of the line. -/
def skip (s : Lexer) (n : Nat) : Lexer := { s with place := s.place.skip n }

/-- The possible key is given up. -/
def dropKey? (s : Lexer) : Option Lexer :=
  match s.key with
  | none => some s
  | some k => if k.required then none else some { s with key := none }

/-- The place may be that of a key. A key must stand at the column of the current block collection. -/
def markKey? (s : Lexer) : Option Lexer :=
  if s.keyAllowed then do
    let p := s.place
    let s ← s.dropKey?
    let required := !s.inFlow && s.level = p.column + 1
    return { s with key := some ⟨required, s.count, p.index, p.line, p.column⟩ }
  else some s

/-- Block content at a column starts a collection if it is deeper than the current one. -/
def indent (s : Lexer) (column number : Nat) (t : Token) : Lexer :=
  if s.inFlow || column < s.level then s
  else { s.insert number t with level := column + 1, outerLevels := s.level :: s.outerLevels }

/-- Block collections end until the level is at most the given one. -/
def closeBlocks (level : Nat) : (outer : List Nat) → Lexer → Lexer
  | [], s => s
  | above :: outer, s =>
    if s.level ≤ level then s
    else closeBlocks level outer { s.push .blockEnd with level := above, outerLevels := outer }

/-- Block collections that reach deeper than the given level end, unless the place is inside a flow
collection. -/
def dedent (s : Lexer) (level : Nat) : Lexer :=
  if s.inFlow then s else closeBlocks level s.outerLevels s

/-- Blanks, comments and line ends are passed over. A new line may start a key. Tabs count as blanks
inside flow collections and after content of a block line. -/
def gap (flow allowed comment : Bool) (index line column : Nat) : List Char → Bool × Place
  | [] => (allowed, ⟨index, line, column, []⟩)
  | c :: cs =>
    if isBreak c then gap flow (allowed || !flow) false (index + c.utf8Size) (line + 1) 0 cs
    else if comment || c = ' ' || (c = '\t' && (flow || !allowed)) then
      gap flow allowed comment (index + c.utf8Size) line (column + 1) cs
    else if c = '#' then gap flow allowed true (index + 1) line (column + 1) cs
    else (allowed, ⟨index, line, column, c :: cs⟩)

/-- The start of the next token. A byte order mark may start the text. -/
def settle? (s : Lexer) : Option Lexer := do
  let p := if s.place.index = 0 && startsWith ['\ufeff'] s.place.rest then s.place.skip 1 else s.place
  let (keyAllowed, place) := gap s.inFlow s.keyAllowed false p.index p.line p.column p.rest
  let key ← KeyMark.stillAt? place s.key
  let outerKeys ← s.outerKeys.mapM (KeyMark.stillAt? place)
  return { s with place, keyAllowed, key, outerKeys }.dedent (place.column + 1)

/-- A directive: the version of the language, or a handle of tags. -/
def directive? (s : Lexer) : Option Lexer := do
  let s ← (s.dedent 0).dropKey?
  let p := s.place.skip 1
  let name := p.rest.takeWhile isWord
  let p := p.skip name.length
  let (t, p) ←
    if !atBlank p.rest then none
    else if name = "YAML".toList then
      (version? p).map fun (major, minor, p) => (Token.version major minor, p)
    else if name = "TAG".toList then
      (tagHandle? p).map fun (handle, start, p) => (Token.tagHandle handle start, p)
    else none
  let p := p.skipComment
  if !p.rest.isEmpty && p.skipBreak.1.isNone then none
  else return { s.push t with place := p.skipBreak.2, keyAllowed := false }

/-- The mark that opens or closes a document. -/
def documentMark? (s : Lexer) (t : Token) : Option Lexer := do
  let s ← (s.dedent 0).dropKey?
  return { (s.push t).skip 3 with keyAllowed := false }

/-- A bracket or brace opens a collection, which may be a key. -/
def openFlow? (s : Lexer) (t : Token) : Option Lexer := do
  let s ← s.markKey?
  return { (s.push t).skip 1 with key := none, outerKeys := s.key :: s.outerKeys, keyAllowed := true }

/-- A bracket or brace closes a collection. -/
def closeFlow? (s : Lexer) (t : Token) : Option Lexer := do
  let s ← s.dropKey?
  let s := { (s.push t).skip 1 with keyAllowed := false }
  match s.outerKeys with
  | [] => return s
  | key :: outer => return { s with key := key, outerKeys := outer }

/-- A comma. -/
def comma? (s : Lexer) : Option Lexer := do
  let s ← s.dropKey?
  return { (s.push .comma).skip 1 with keyAllowed := true }

/-- A dash before an item. It needs the start of a line, or of another item, in block collections. -/
def item? (s : Lexer) : Option Lexer := do
  if !s.inFlow && !s.keyAllowed then none
  else
    let s ← (s.indent s.place.column s.count .blockSequence).dropKey?
    return { (s.push .item).skip 1 with keyAllowed := true }

/-- A question mark before a key. -/
def key? (s : Lexer) : Option Lexer := do
  if !s.inFlow && !s.keyAllowed then none
  else
    let s ← (s.indent s.place.column s.count .blockMapping).dropKey?
    return { (s.push .key).skip 1 with keyAllowed := !s.inFlow }

/-- A colon: the possible key before it is one, or a key with a mark of its own stands before it. -/
def value? (s : Lexer) : Option Lexer :=
  match s.key with
  | some k =>
    let s := (s.insert k.number .key).indent k.column k.number .blockMapping
    some { (s.push .value).skip 1 with key := none, keyAllowed := false }
  | none =>
    if !s.inFlow && !s.keyAllowed then none
    else
      let s := s.indent s.place.column s.count .blockMapping
      some { (s.push .value).skip 1 with keyAllowed := !s.inFlow }

/-- A token that may start a key, and the place after it. -/
def content? (s : Lexer) (read? : Place → Option (Token × Place)) : Option Lexer := do
  let s ← s.markKey?
  let (t, place) ← read? s.place
  return { s.push t with place, keyAllowed := false }

/-- A block scalar. -/
def block? (s : Lexer) (folded : Bool) : Option Lexer := do
  let s ← s.dropKey?
  let (text, place) ← blockScalar folded s.level (s.place.skip 1)
  return { s.push (.scalar text (if folded then .other else .literal)) with place, keyAllowed := true }

/-- A quoted scalar. -/
def quoted? (s : Lexer)
    (read? : List Char → Pause → Nat → Nat → Nat → List Char → Option (String × Place)) :
    Option Lexer :=
  s.content? fun p =>
    let q := p.skip 1
    (read? [] .nothing q.index q.line q.column q.rest).map fun (text, p) =>
      (.scalar text .other, p)

/-- A plain scalar; if a line ended after it, a key may follow. -/
def plain? (s : Lexer) : Option Lexer := do
  let s ← s.markKey?
  let p := s.place
  let (text, broken, place) ← plain s.inFlow s.level [] .nothing p.index p.line p.column p.rest
  return { s.push (.scalar text .plain) with place, keyAllowed := broken }

/-- Whether a plain scalar may start with a character before a text. -/
def startsPlain (flow : Bool) (c : Char) (after : List Char) : Bool :=
  if c = '-' then !startsWith [' ', '\t'] after
  else if c = '?' || c = ':' then !flow && !atBlank after
  else
    !(isBlank c || isBreak c || isFlowMark c
      || ['#', '&', '*', '!', '|', '>', '\x27', '\x22', '%', '@', '\x60'].contains c)

/-- The next token, which starts with a character before a text. -/
def next? (s : Lexer) (c : Char) (after : List Char) : Option Lexer :=
  let p := s.place
  let flow := s.inFlow
  if p.column = 0 && c = '%' then s.directive?
  else if p.column = 0 && isTriple '-' p.rest then s.documentMark? .documentStart
  else if p.column = 0 && isTriple '.' p.rest then s.documentMark? .documentEnd
  else if c = '[' then s.openFlow? .openSequence
  else if c = '\x7b' then s.openFlow? .openMapping
  else if c = ']' then s.closeFlow? .closeSequence
  else if c = '\x7d' then s.closeFlow? .closeMapping
  else if c = ',' then s.comma?
  else if c = '-' && atBlank after then s.item?
  else if c = '?' && (flow || atBlank after) then s.key?
  else if c = ':' && (flow || atBlank after) then s.value?
  else if c = '*' then
    s.content? fun p => (anchorName? (p.skip 1)).map fun (name, p) => (.alias name, p)
  else if c = '&' then
    s.content? fun p => (anchorName? (p.skip 1)).map fun (name, p) => (.anchor name, p)
  else if c = '!' then
    s.content? fun p => (tag? flow p).map fun (handle, rest, p) => (.tag handle rest, p)
  else if c = '|' && !flow then s.block? false
  else if c = '>' && !flow then s.block? true
  else if c = '\x27' then s.quoted? singleQuoted
  else if c = '\x22' then s.quoted? doubleQuoted
  else if startsPlain flow c after then s.plain?
  else none

/-- All tokens, with at most `fuel` to come. At the end all block collections end. -/
def run? : (fuel : Nat) → Lexer → Option (List Token)
  | 0, _ => none
  | fuel + 1, s => do
    let s ← s.settle?
    match s.place.rest with
    | [] =>
      let s ← (s.dedent 0).dropKey?
      return s.tokens.reverse
    | c :: after =>
      let s ← s.next? c after
      run? fuel s

end Lexer

/-- The tokens of a document. -/
def tokens? (document : String) : Option (List Token) :=
  let cs := document.toList
  if cs.all isAllowed then
    let cs := unifyLineEnds cs
    (Lexer.start cs).run? (cs.length + 1)
  else none

end TreeLayout.Yaml
