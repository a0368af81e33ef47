import TreeLayout.Data.Json.Number

/-!
# Reading JSON

The reader accepts the JSON grammar and nothing else: strings hold no raw control characters, and
nothing but blanks follows the document. What the grammar allows and no value stands for is invalid:
strings with lone surrogates, numbers out of range, and arrays and objects that are nested deeper than
the caller allows. Recursion is bounded by a count that the length of the text pays for.
-/

namespace TreeLayout.Json

/-- Blanks between the parts of a document. -/
def isBlank (c : Char) : Bool := c = ' ' || c = '\t' || c = '\n' || c = '\r'

/-- The text after blanks. -/
def skipBlanks (cs : List Char) : List Char := cs.dropWhile isBlank

/-- The number that four hexadecimal digits write. -/
def hex4? (a b c d : Char) : Option Nat := do
  let a ← digit? a
  let b ← digit? b
  let c ← digit? c
  let d ← digit? d
  return ((a * 16 + b) * 16 + c) * 16 + d

/-- The character that a one-letter escape stands for. -/
def escape? : Char → Option Char
  | '\x22' => some '\x22'
  | '\\' => some '\\'
  | '/' => some '/'
  | 'b' => some '\x08'
  | 'f' => some '\x0c'
  | 'n' => some '\n'
  | 'r' => some '\r'
  | 't' => some '\t'
  | _ => none

/-- The rest of a string after its opening quote, added to the characters read so far, last first. Only a
string that is `whole` so far, without lone surrogates, has a text. -/
def stringBody (whole : Bool) (acc : List Char) : List Char → Option (Option String × List Char)
  | [] => none
  | '\x22' :: cs => some (if whole then some (String.ofList acc.reverse) else none, cs)
  | '\\' :: 'u' :: a :: b :: c :: d :: cs =>
    match hex4? a b c d with
    | none => none
    | some n =>
      if n < 0xD800 || 0xE000 ≤ n then stringBody whole (Char.ofNat n :: acc) cs
      else if 0xDC00 ≤ n then stringBody false acc cs
      else
        match cs with
        | '\\' :: 'u' :: a :: b :: c :: d :: after =>
          match hex4? a b c d with
          | none => none
          | some m =>
            if 0xDC00 ≤ m && m < 0xE000 then
              stringBody whole (Char.ofNat (0x10000 + (n - 0xD800) * 0x400 + (m - 0xDC00)) :: acc) after
            else stringBody false acc ('\\' :: 'u' :: a :: b :: c :: d :: after)
        | cs => stringBody false acc cs
  | '\\' :: c :: cs =>
    match escape? c with
    | some e => stringBody whole (e :: acc) cs
    | none => none
  | c :: cs => if c.toNat < 0x20 || c = '\\' then none else stringBody whole (c :: acc) cs

/-- The digits at the start of a text, of which there is at least one. -/
def digits? (cs : List Char) : Option (List Char × List Char) :=
  match cs.takeWhile isDigit with
  | [] => none
  | ds => some (ds, cs.dropWhile isDigit)

/-- The digits before the point: a zero, or digits that start with another one. -/
def whole? (cs : List Char) : Option (List Char × List Char) :=
  match cs with
  | '0' :: rest =>
    match rest with
    | c :: _ => if isDigit c then none else some (['0'], rest)
    | [] => some (['0'], [])
  | _ => digits? cs

/-- The point and the digits after it, if there is a point. -/
def fraction? (cs : List Char) : Option (Option (List Char) × List Char) :=
  match cs with
  | '.' :: rest => (digits? rest).map fun (ds, rest) => (some ds, rest)
  | _ => some (none, cs)

/-- The exponent, if there is one. -/
def exponent? (cs : List Char) : Option (Option (Bool × List Char) × List Char) :=
  match cs with
  | c :: rest =>
    if c = 'e' || c = 'E' then
      match rest with
      | '-' :: rest => (digits? rest).map fun (ds, rest) => (some (true, ds), rest)
      | '+' :: rest => (digits? rest).map fun (ds, rest) => (some (false, ds), rest)
      | _ => (digits? rest).map fun (ds, rest) => (some (false, ds), rest)
    else some (none, cs)
  | [] => some (none, [])

/-- A number at the start of a text. -/
def number? (cs : List Char) : Option (Value × List Char) := do
  let (negative, unsigned) :=
    match cs with
    | '-' :: rest => (true, rest)
    | _ => (false, cs)
  let (whole, rest) ← whole? unsigned
  let (fraction, rest) ← fraction? rest
  let (exponent, rest) ← exponent? rest
  return (Numeral.value ⟨negative, whole, fraction, exponent⟩, rest)

/-- A fixed word at the start of a text. -/
def word? (w : List Char) (v : Value) (cs : List Char) : Option (Value × List Char) :=
  if w.isPrefixOf cs then some (v, cs.drop w.length) else none

/-- The object with fields, if all their names are texts. -/
def object (fields : List (Option String × Value)) : Value :=
  match fields.mapM fun (name, v) => name.map fun name => (name, v) with
  | some fields => .map fields
  | none => .invalid

mutual
/-- A value at the start of a text; arrays and objects that are nested `depth` deep or less are valid. -/
def value? : (fuel depth : Nat) → List Char → Option (Value × List Char)
  | 0, _, _ => none
  | fuel + 1, depth, cs =>
    let nested (v : Value) : Value := if depth = 0 then .invalid else v
    match skipBlanks cs with
    | [] => none
    | c :: rest =>
      if c = '\x22' then
        (stringBody true [] rest).map fun (s, rest) => ((s.map .text).getD .invalid, rest)
      else if c = '[' then
        match skipBlanks rest with
        | ']' :: rest => some (nested (.seq []), rest)
        | _ => (items? fuel (depth - 1) rest).map fun (vs, rest) => (nested (.seq vs), rest)
      else if c = '\x7b' then
        match skipBlanks rest with
        | '\x7d' :: rest => some (nested (.map []), rest)
        | _ => (fields? fuel (depth - 1) rest).map fun (fs, rest) => (nested (object fs), rest)
      else if c = 't' then word? "true".toList (.bool true) (c :: rest)
      else if c = 'f' then word? "false".toList (.bool false) (c :: rest)
      else if c = 'n' then word? "null".toList .null (c :: rest)
      else number? (c :: rest)

/-- The items of an array up to its closing bracket. -/
def items? : (fuel depth : Nat) → List Char → Option (List Value × List Char)
  | 0, _, _ => none
  | fuel + 1, depth, cs => do
    let (v, rest) ← value? fuel depth cs
    match skipBlanks rest with
    | ']' :: rest => return ([v], rest)
    | ',' :: rest =>
      let (vs, rest) ← items? fuel depth rest
      return (v :: vs, rest)
    | _ => none

/-- The fields of an object up to its closing brace. -/
def fields? : (fuel depth : Nat) → List Char → Option (List (Option String × Value) × List Char)
  | 0, _, _ => none
  | fuel + 1, depth, cs =>
    match skipBlanks cs with
    | '\x22' :: rest => do
      let (name, rest) ← stringBody true [] rest
      match skipBlanks rest with
      | ':' :: rest =>
        let (v, rest) ← value? fuel depth rest
        match skipBlanks rest with
        | '\x7d' :: rest => return ([(name, v)], rest)
        | ',' :: rest =>
          let (fs, rest) ← fields? fuel depth rest
          return ((name, v) :: fs, rest)
        | _ => none
      | _ => none
    | _ => none
end

/-- The value of a JSON document; its arrays and objects are valid if they are nested at most `depth`
deep. -/
def parse? (depth : Nat) (document : String) : Option Value :=
  let cs := document.toList
  match value? (2 * cs.length + 2) depth cs with
  | some (v, rest) => if (skipBlanks rest).isEmpty then some v else none
  | none => none

/-- Documents nest fewer than 128 arrays and objects. -/
def documentDepth : Nat := 127

end TreeLayout.Json
