/-!
# Patterns for whole paths

A pattern matches a path as a whole. `?` is one byte and `*` any bytes, slashes included; `**` between
slashes or at an end stands for any number of directories; brackets list characters and braces list
alternatives; a backslash takes the next character as it is.
-/

namespace TreeLayout.Glob

/-- One part of a pattern. -/
inductive Token where
  /-- A character. -/
  | literal (c : Char)
  /-- Any byte. -/
  | anyByte
  /-- Any bytes. -/
  | star
  /-- Any directories before the first name. -/
  | leadingDirs
  /-- Anything below a directory. -/
  | trailingDirs
  /-- Any directories between two names. -/
  | betweenDirs
  /-- A character in one of several ranges, or in none of them. -/
  | ranges (negated : Bool) (ranges : List (Char × Char))
  /-- One of several patterns. -/
  | alternatives (branches : List (List Token))

/-- Why a text is no pattern. -/
inductive PatternError where
  /-- A bracket is not closed. -/
  | unclosedClass
  /-- A range ends before it starts. -/
  | invalidRange (first last : Char)
  /-- A closing brace without an opening one. -/
  | unopenedAlternatives
  /-- A brace is not closed. -/
  | unclosedAlternatives
  /-- A backslash at the end. -/
  | danglingEscape

/-- The text of a fault of a pattern. -/
def PatternError.message (pattern : String) (e : PatternError) : String :=
  "error parsing glob '" ++ pattern ++ "': " ++
    match e with
    | .unclosedClass => "unclosed character class; missing ']'"
    | .invalidRange first last =>
      "invalid range; '" ++ String.singleton first ++ "' > '" ++ String.singleton last ++ "'"
    | .unopenedAlternatives =>
      "unopened alternate group; missing '\x7b' (maybe escape '\x7d' with '[\x7d]'?)"
    | .unclosedAlternatives =>
      "unclosed alternate group; missing '\x7d' (maybe escape '\x7b' with '[\x7b]'?)"
    | .danglingEscape => "dangling '\\'"

/-- A bracket expression under way. -/
structure ClassState where
  /-- Whether nothing was read yet. -/
  first : Bool
  /-- Whether a dash waits for the end of a range. -/
  inRange : Bool
  /-- The ranges so far, last first. -/
  ranges : List (Char × Char)

/-- The rest of a bracket expression up to its closing bracket. -/
def classBody (s : ClassState) : List Char → Except PatternError (List (Char × Char) × List Char)
  | [] => .error .unclosedClass
  | c :: cs =>
    if c = ']' && !s.first then
      .ok ((if s.inRange then ('-', '-') :: s.ranges else s.ranges).reverse, cs)
    else if c = '-' && !s.first && !s.inRange then classBody { s with inRange := true } cs
    else
      match s.inRange, s.ranges with
      | true, (low, _) :: ranges =>
        if c < low then .error (.invalidRange low c)
        else classBody ⟨false, false, (low, c) :: ranges⟩ cs
      | _, ranges => classBody ⟨false, false, (c, c) :: ranges⟩ cs

/-- Whether the next character is a slash or missing. -/
def atSeparator (cs : List Char) : Bool :=
  match cs with
  | [] => true
  | c :: _ => c = '/'

/-- The tokens, last first, after two stars that follow `previous`, and the text after them. Only
between slashes and at the ends of a pattern or of an alternative do two stars stand for directories. -/
def doubleStar (nested : Bool) (previous : Option Char) (acc : List Token) (cs : List Char) :
    List Token × List Char :=
  let plain := (.star :: .star :: acc, cs)
  if acc.isEmpty then if atSeparator cs then ([.leadingDirs], cs.drop 1) else plain
  else if previous ≠ some '/' && !(nested && (previous = some ',' || previous = some '\x7b')) then plain
  else
    let place (atEnd : Bool) : List Token :=
      match acc with
      | .leadingDirs :: _ => acc
      | .trailingDirs :: _ => acc
      | _ :: before => (if atEnd then .trailingDirs else .betweenDirs) :: before
      | [] => []
    match cs with
    | [] => (place true, [])
    | c :: rest =>
      if nested && (c = ',' || c = '\x7d') then (place true, cs)
      else if c = '/' then (place false, rest)
      else plain

mutual
/-- The tokens of a pattern, or of one alternative up to the comma or brace after it. The character
before is `previous`, and the tokens so far stand last first. -/
def sequence (nested : Bool) : (fuel : Nat) → Option Char → List Token → List Char →
    Except PatternError (List Token × List Char)
  | 0, _, acc, cs => .ok (acc.reverse, cs)
  | _ + 1, _, acc, [] => .ok (acc.reverse, [])
  | fuel + 1, previous, acc, c :: cs =>
    match c with
    | '?' => sequence nested fuel (some c) (.anyByte :: acc) cs
    | '*' =>
      match cs with
      | '*' :: cs =>
        let (acc, rest) := doubleStar nested previous acc cs
        let last := if rest.length < cs.length then some '/' else some '*'
        sequence nested fuel last acc rest
      | _ => sequence nested fuel (some c) (.star :: acc) cs
    | '[' => do
      let (negated, body) :=
        match cs with
        | '!' :: rest | '^' :: rest => (true, rest)
        | _ => (false, cs)
      let (ranges, rest) ← classBody ⟨true, false, []⟩ body
      sequence nested fuel (some ']') (.ranges negated ranges :: acc) rest
    | '\x7b' => do
      let (branches, rest) ← alternatives fuel c cs
      sequence nested fuel (some '\x7d') (.alternatives branches :: acc) rest
    | '\x7d' => if nested then .ok (acc.reverse, c :: cs) else .error .unopenedAlternatives
    | ',' =>
      if nested then .ok (acc.reverse, c :: cs)
      else sequence nested fuel (some c) (.literal c :: acc) cs
    | '\\' =>
      match cs with
      | [] => .error .danglingEscape
      | d :: rest => sequence nested fuel (some d) (.literal d :: acc) rest
    | c => sequence nested fuel (some c) (.literal c :: acc) cs

/-- The alternatives up to the closing brace. -/
def alternatives : (fuel : Nat) → Char → List Char →
    Except PatternError (List (List Token) × List Char)
  | 0, _, _ => .error .unclosedAlternatives
  | fuel + 1, previous, cs => do
    let (branch, rest) ← sequence true fuel (some previous) [] cs
    match rest with
    | '\x7d' :: rest => return ([branch], rest)
    | ',' :: rest =>
      let (branches, rest) ← alternatives fuel ',' rest
      return (branch :: branches, rest)
    | _ => .error .unclosedAlternatives
end

/-- The tokens of a pattern. -/
def parse (pattern : String) : Except PatternError (List Token) := do
  let cs := pattern.toList
  let (tokens, _) ← sequence false (2 * cs.length + 2) none [] cs
  return tokens

/-- The bytes of a text. -/
def bytes (s : String) : List UInt8 := s.toUTF8.toList

/-- The bytes of a character. -/
def charBytes (c : Char) : List UInt8 := bytes (String.singleton c)

/-- All endings of a list, the longest first. -/
def endings {α : Type} : List α → List (List α)
  | [] => [[]]
  | a :: as => (a :: as) :: endings as

/-- What may follow after any number of directories. -/
def afterSlash : List UInt8 → List (List UInt8)
  | [] => []
  | b :: bs => if b = 0x2f then bs :: afterSlash bs else afterSlash bs

/-- Whether a byte is in a range of characters. Ranges go from the last byte of the first character to
the first byte of the last one; further bytes of both stand for themselves. -/
def inRange (b : UInt8) (range : Char × Char) : Bool :=
  let low := charBytes range.1
  let high := charBytes range.2
  if range.1 = range.2 then low.contains b
  else
    low.dropLast.contains b || (high.drop 1).contains b
      || (decide (low.getLast?.getD 0 ≤ b) && decide (b ≤ high.head?.getD 0))

/-- Endings of one text, each length once. -/
def distinctEndings (ends : List (List UInt8)) : List (List UInt8) :=
  ends.foldl (fun kept e => if kept.any (·.length = e.length) then kept else kept ++ [e]) []

mutual
/-- Whether a pattern part stands for no text at all, which drops it as an alternative. -/
def isVoid : Token → Bool
  | .alternatives branches => allVoid branches
  | _ => false

/-- Whether all parts of a pattern stand for no text at all. -/
def isVoidSequence : List Token → Bool
  | [] => true
  | t :: ts => isVoid t && isVoidSequence ts

/-- Whether all alternatives stand for no text at all. -/
def allVoid : List (List Token) → Bool
  | [] => true
  | b :: bs => isVoidSequence b && allVoid bs
end

mutual
/-- What may be left of a text after a pattern part. -/
def remainders : Token → List UInt8 → List (List UInt8)
  | .literal c, bs =>
    let cs := charBytes c
    if cs.isPrefixOf bs then [bs.drop cs.length] else []
  | .anyByte, bs => bs.tail?.toList
  | .star, bs => endings bs
  | .leadingDirs, bs =>
    bs :: ((if bs.head? = some 0x2f then [bs.drop 1] else []) ++ afterSlash bs)
  | .trailingDirs, bs => if bs.head? = some 0x2f then endings (bs.drop 1) else []
  | .betweenDirs, bs =>
    if bs.head? = some 0x2f then bs.drop 1 :: afterSlash (bs.drop 1) else []
  | .ranges negated ranges, bs =>
    match bs with
    | [] => []
    | b :: rest => if ranges.any (inRange b) != negated then [rest] else []
  | .alternatives branches, bs =>
    if allVoid branches then [bs] else branchRemainders branches bs

/-- What may be left of a text after the parts of a pattern. -/
def sequenceRemainders : List Token → List UInt8 → List (List UInt8)
  | [], bs => [bs]
  | t :: ts, bs => distinctEndings ((remainders t bs).flatMap (sequenceRemainders ts))

/-- What may be left of a text after one of several alternatives. -/
def branchRemainders : List (List Token) → List UInt8 → List (List UInt8)
  | [], _ => []
  | b :: rest, bs =>
    (if isVoidSequence b then [] else sequenceRemainders b bs) ++ branchRemainders rest bs
end

/-- Whether a pattern matches a path as a whole. -/
def matchesPath (tokens : List Token) (path : String) : Bool :=
  match tokens with
  | [.leadingDirs] => true
  | tokens => (sequenceRemainders tokens (bytes path)).any (·.isEmpty)

end TreeLayout.Glob
