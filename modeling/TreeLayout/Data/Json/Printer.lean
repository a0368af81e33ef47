import TreeLayout.Data.Value

/-!
# Writing JSON

Values are written compactly or with one item a line, indented by two spaces. In strings the quote, the
backslash and the control characters are escaped and everything else stands as it is. A tagged value is
an object whose one field is named by the tag, and an invalid one is null.
-/

namespace TreeLayout.Json

/-- A hexadecimal digit. -/
def hexDigit (n : Nat) : Char :=
  if n < 10 then Char.ofNat ('0'.toNat + n) else Char.ofNat ('a'.toNat + (n - 10))

/-- A character as it stands inside a string. -/
def escapeChar (c : Char) : List Char :=
  match c with
  | '\x22' => ['\\', '\x22']
  | '\\' => ['\\', '\\']
  | '\n' => ['\\', 'n']
  | '\r' => ['\\', 'r']
  | '\t' => ['\\', 't']
  | '\x08' => ['\\', 'b']
  | '\x0c' => ['\\', 'f']
  | c =>
    if c.toNat < 0x20 then ['\\', 'u', '0', '0', hexDigit (c.toNat / 16), hexDigit (c.toNat % 16)]
    else [c]

/-- A text as a JSON string. -/
def quote (s : String) : String :=
  "\"" ++ String.ofList (s.toList.flatMap escapeChar) ++ "\""

mutual
/-- A value without blanks. -/
def compact : Value → String
  | .null => "null"
  | .bool b => if b then "true" else "false"
  | .nat n => toString n
  | .real written => written
  | .text s => quote s
  | .tagged tag content => "\x7b" ++ quote ("!" ++ tag) ++ ":" ++ compact content ++ "\x7d"
  | .invalid => "null"
  | .seq items => "[" ++ ",".intercalate (compactItems items) ++ "]"
  | .map fields => "\x7b" ++ ",".intercalate (compactFields fields) ++ "\x7d"

/-- The items of a sequence without blanks. -/
def compactItems : List Value → List String
  | [] => []
  | v :: vs => compact v :: compactItems vs

/-- The fields of a mapping without blanks. -/
def compactFields : List (String × Value) → List String
  | [] => []
  | (name, v) :: rest => (quote name ++ ":" ++ compact v) :: compactFields rest
end

/-- The start of a line at a nesting level. -/
def newline (level : Nat) : String :=
  "\n" ++ String.ofList (List.replicate (2 * level) ' ')

/-- Items between brackets, one a line; brackets without items stay together. -/
def block (level : Nat) (opening closing : String) (items : List String) : String :=
  if items.isEmpty then opening ++ closing
  else
    opening ++ newline (level + 1) ++ ("," ++ newline (level + 1)).intercalate items
      ++ newline level ++ closing

mutual
/-- A value at a nesting level, with one item a line. -/
def prettyAt (level : Nat) : Value → String
  | .null => "null"
  | .bool b => if b then "true" else "false"
  | .nat n => toString n
  | .real written => written
  | .text s => quote s
  | .tagged tag content =>
    block level "\x7b" "\x7d" [quote ("!" ++ tag) ++ ": " ++ prettyAt (level + 1) content]
  | .invalid => "null"
  | .seq items => block level "[" "]" (prettyItems (level + 1) items)
  | .map fields => block level "\x7b" "\x7d" (prettyFields (level + 1) fields)

/-- The items of a sequence at a nesting level. -/
def prettyItems (level : Nat) : List Value → List String
  | [] => []
  | v :: vs => prettyAt level v :: prettyItems level vs

/-- The fields of a mapping at a nesting level. -/
def prettyFields (level : Nat) : List (String × Value) → List String
  | [] => []
  | (name, v) :: rest => (quote name ++ ": " ++ prettyAt level v) :: prettyFields level rest
end

/-- A value with one item a line. -/
def pretty (v : Value) : String := prettyAt 0 v

end TreeLayout.Json
