import TreeLayout.Files
import TreeLayout.Glob.Pattern
import TreeLayout.Text.Basic

/-!
# Searching files by patterns

A search pattern is matched name by name from the directory downwards. `?` is one character and `*` any
characters of a name, brackets list characters, and a part `**` stands for any number of directories.
The paths that are found come in alphabetical order of their names, a directory before what lies in
it.
-/

namespace TreeLayout.Search

/-- One piece of a pattern. -/
inductive Token where
  /-- A character. -/
  | char (c : Char)
  /-- Any character. -/
  | anyChar
  /-- Any characters. -/
  | anyChars
  /-- Any directories. -/
  | directories
  /-- A character in one of several ranges, or in none of them. -/
  | ranges (negated : Bool) (ranges : List (Char × Char))
  deriving DecidableEq

/-- What is wrong with a pattern. -/
inductive Fault where
  /-- Three stars or more. -/
  | wildcards
  /-- Two stars beside something else than a slash. -/
  | recursive
  /-- A bracket without its end. -/
  | range
  deriving DecidableEq

/-- The text of a fault. -/
def Fault.message : Fault → String
  | .wildcards => "wildcards are either regular `*` or recursive `**`"
  | .recursive => "recursive wildcards must form a single path component"
  | .range => "invalid range pattern"

/-- Why a text is no search pattern. -/
structure Error where
  /-- The place of the fault, in characters. -/
  position : Nat
  /-- What is wrong there. -/
  fault : Fault
  deriving DecidableEq

/-- The text of an error. -/
def Error.message (e : Error) : String :=
  "Pattern syntax error near position " ++ toString e.position ++ ": " ++ e.fault.message

/-- The ranges that stand between brackets. -/
def rangesOf : List Char → List (Char × Char)
  | low :: '-' :: high :: rest => (low, high) :: rangesOf rest
  | c :: rest => (c, c) :: rangesOf rest
  | [] => []

/-- The content of a bracket expression, which is never empty, and the text after its end. -/
def bracketed? (body : List Char) : Option (List Char × List Char) := do
  let first ← body.head?
  let inner := body.tail.takeWhile (· ≠ ']')
  let _ :: rest := body.tail.dropWhile (· ≠ ']') | none
  return (first :: inner, rest)

/-- The tokens of a pattern from a position on; `previous` is the character before it. -/
def tokensFrom : (fuel : Nat) → Nat → Option Char → List Char → Except Error (List Token)
  | 0, _, _, _ => .ok []
  | _ + 1, _, _, [] => .ok []
  | fuel + 1, position, previous, c :: cs =>
    match c with
    | '?' => (tokensFrom fuel (position + 1) (some c) cs).map (.anyChar :: ·)
    | '*' =>
      let stars := (cs.takeWhile (· = '*')).length + 1
      let rest := cs.dropWhile (· = '*')
      if stars = 1 then (tokensFrom fuel (position + 1) (some c) rest).map (.anyChars :: ·)
      else if stars > 2 then .error ⟨position + 2, .wildcards⟩
      else if position ≠ 0 && previous ≠ some '/' then .error ⟨position - 1, .recursive⟩
      else
        match rest with
        | [] => .ok [.directories]
        | '/' :: rest => (tokensFrom fuel (position + 3) (some '/') rest).map (.directories :: ·)
        | _ :: _ => .error ⟨position + 2, .recursive⟩
    | '[' =>
      let (negated, body) :=
        match cs with
        | '!' :: body => (true, body)
        | body => (false, body)
      match bracketed? body with
      | none => .error ⟨position, .range⟩
      | some (inner, rest) =>
        (tokensFrom fuel (position + 1 + cs.length - rest.length) (some ']') rest).map
          (.ranges negated (rangesOf inner) :: ·)
    | c => (tokensFrom fuel (position + 1) (some c) cs).map (.char c :: ·)

/-- The tokens of a pattern. -/
def tokens (pattern : String) : Except Error (List Token) :=
  let cs := pattern.toList
  tokensFrom (cs.length + 1) 0 none cs

/-- Whether tokens match a name. -/
def matchesName : List Token → List Char → Bool
  | [], cs => cs.isEmpty
  | .anyChars :: ts, cs | .directories :: ts, cs => (Glob.endings cs).any (matchesName ts)
  | _ :: _, [] => false
  | .char c :: ts, d :: cs => c = d && matchesName ts cs
  | .anyChar :: ts, _ :: cs => matchesName ts cs
  | .ranges negated ranges :: ts, d :: cs =>
    (ranges.any fun (low, high) => decide (low ≤ d) && decide (d ≤ high)) != negated
      && matchesName ts cs

/-- The character that a token stands for. -/
def Token.char? : Token → Option Char
  | .char c => some c
  | _ => none

/-- The name that tokens without wildcards stand for. -/
def literal? (ts : List Token) : Option String :=
  (ts.mapM Token.char?).map String.ofList

/-- A pattern cut into the parts for the names of a path. -/
structure Plan where
  /-- Where the search starts. -/
  start : String
  /-- The tokens of each part. -/
  parts : List (List Token)
  /-- Whether only directories are wanted, as a slash at the end says. -/
  onlyDirs : Bool

/-- The number of bytes of a pattern's components with single slashes between them. -/
def plainSize (pattern : String) : Nat :=
  let pieces := (Path.components pattern).filterMap fun c => match c with
    | .root => none
    | .current => some "."
    | .parent => some ".."
    | .name s => some s
  ("/".intercalate pieces).utf8ByteSize

/-- The plan of a pattern. What slashes and dots a pattern has too many is cut off as bytes at its
start, and the search starts there. -/
def plan (pattern : String) : Except Error Plan := do
  let _ ← tokens pattern
  let surplus := pattern.utf8ByteSize - plainSize pattern
  let (before, rest) := (Text.splitAtByte? surplus pattern.toList).getD ([], pattern.toList)
  let pieces := (String.ofList rest).splitOn "/"
  let pieces := if pieces.getLast? = some "" then pieces.dropLast else pieces
  let parts ← pieces.mapM tokens
  return { start := if before.isEmpty then "." else String.ofList before
           parts := if rest.isEmpty then [[]] else parts
           onlyDirs := pattern.endsWith "/" }

/-- A path below another one; the current directory is not written. -/
def below (path name : String) : String :=
  if Path.same path "." then name else Path.join path name

/-- A path that a pattern reached at its end. -/
def found (files : Files) (onlyDirs : Bool) (path : String) : List String :=
  if onlyDirs && !files.isDir path then [] else [path]

mutual
/-- What parts of a pattern find below a path. -/
def searchBelow (files : Files) (onlyDirs : Bool) : (fuel : Nat) → List (List Token) → String →
    List String
  | 0, _, _ => []
  | _ + 1, [], _ => []
  | fuel + 1, part :: rest, path =>
    let reached (next : String) : List String :=
      if rest.isEmpty then found files onlyDirs next else searchBelow files onlyDirs fuel rest next
    match literal? part with
    | some name =>
      let next := below path name
      if name == "." || name == ".." then if files.isDir path then reached next else []
      else if files.contains next then reached next
      else []
    | none =>
      if !files.isDir path then []
      else
        let dots := if part.head? = some (.char '.') then ["..", "."] else []
        ((dots.filter fun dot => matchesName part dot.toList).flatMap fun dot =>
            reached (Path.join path dot))
          ++ (files.namesIn path).flatMap fun name =>
            visit files onlyDirs fuel (part :: rest) name (below path name)

/-- What parts of a pattern find at a path with a name, and below it. -/
def visit (files : Files) (onlyDirs : Bool) : (fuel : Nat) → List (List Token) → String → String →
    List String
  | 0, _, _, _ => []
  | fuel + 1, parts, name, path =>
    let rest := parts.dropWhile (· = [.directories])
    let own :=
      match rest with
      | [] => if files.isDir path then [path] else []
      | part :: further =>
        if !matchesName part name.toList then []
        else if further.isEmpty then found files onlyDirs path
        else searchBelow files onlyDirs fuel further path
    if rest.length < parts.length && files.isDir path then
      own ++ searchBelow files onlyDirs fuel ([.directories] :: rest) path
    else own
end

/-- The paths that a pattern finds. -/
def expand (files : Files) (pattern : String) : Except Error (List String) := do
  let p ← plan pattern
  let fuel := 4 * p.parts.length + 2 * files.depth + 4
  return searchBelow files p.onlyDirs fuel p.parts p.start

end TreeLayout.Search
