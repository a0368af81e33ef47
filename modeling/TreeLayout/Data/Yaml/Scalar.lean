import TreeLayout.Data.Json.Number

/-!
# Meanings of plain scalars

What a scalar without marks means when its type is decided by its text: null, a truth value, a number,
or otherwise a text. Words such as `yes` and `no` are texts, and so are digits after a leading zero.
-/

namespace TreeLayout.Yaml

/-- Whether a text is a word for null. -/
def isNullWord (s : String) : Bool := s == "~" || s == "null" || s == "Null" || s == "NULL"

/-- Whether a scalar is written as null. -/
def isNull (s : String) : Bool := s == "" || isNullWord s

/-- The truth value that a scalar writes. -/
def bool? (s : String) : Option Bool :=
  if s == "true" || s == "True" || s == "TRUE" then some true
  else if s == "false" || s == "False" || s == "FALSE" then some false
  else none

/-- The number that digits write in a base, if there are digits and no other characters. -/
def radix? (base : Nat) (cs : List Char) : Option Nat :=
  if cs.isEmpty then none
  else
    cs.foldlM (fun n c => do
      let d ← Json.digit? c
      if d < base then some (n * base + d) else none) 0

/-- A scalar without its sign. -/
def unsigned (cs : List Char) : List Char :=
  match cs with
  | '+' :: rest | '-' :: rest => rest
  | _ => cs

/-- A zero followed by digits is a text and no number. -/
def isZeroPadded (cs : List Char) : Bool :=
  match unsigned cs with
  | '0' :: c :: rest => (c :: rest).all Json.isDigit
  | _ => false

/-- The number that a scalar without a sign writes in base ten, or in another base after `0x`, `0o` or
`0b`. -/
def magnitude? (cs : List Char) : Option Nat :=
  match cs with
  | '0' :: 'x' :: rest => radix? 16 rest
  | '0' :: 'o' :: rest => radix? 8 rest
  | '0' :: 'b' :: rest => radix? 2 rest
  | _ => if isZeroPadded cs then none else radix? 10 cs

/-- The integer that a scalar writes. -/
def int? (s : String) : Option Int :=
  match s.toList with
  | '+' :: cs => (magnitude? cs).map fun n => (n : Int)
  | '-' :: cs => (magnitude? cs).map fun n => -(n : Int)
  | cs => (magnitude? cs).map fun n => (n : Int)

/-- The natural number of at most 64 bits that a scalar writes without a minus sign. -/
def nat? (s : String) : Option Nat :=
  if s.toList.head? = some '-' then none
  else
    match int? s with
    | some n => if n < wordBound then some n.toNat else none
    | none => none

/-- The parts of a decimal numeral without its sign; digits may be missing on one side of the point. -/
def decimal? (negative : Bool) (cs : List Char) : Option Json.Numeral := do
  let whole := cs.takeWhile Json.isDigit
  let rest := cs.dropWhile Json.isDigit
  let (fraction, rest) :=
    match rest with
    | '.' :: rest => (some (rest.takeWhile Json.isDigit), rest.dropWhile Json.isDigit)
    | _ => (none, rest)
  if whole.isEmpty && (fraction.getD []).isEmpty then none
  else
    match rest with
    | [] => some ⟨negative, whole, fraction, none⟩
    | c :: rest =>
      if c = 'e' || c = 'E' then
        let digits := unsigned rest
        if digits.isEmpty || !digits.all Json.isDigit then none
        else some ⟨negative, whole, fraction, some (rest.head? == some '-', digits)⟩
      else none

/-- The 64-bit floating-point number that a scalar writes; decimal numerals write finite ones only. -/
def float? (s : String) : Option Float :=
  let cs := s.toList
  let negative := cs.head? == some '-'
  if [".inf", ".Inf", ".INF"].contains (String.ofList (unsigned cs)) then
    some (if negative then -1 / 0 else 1 / 0)
  else if [".nan", ".NaN", ".NAN"].contains s then some (0 / 0)
  else
    match decimal? negative (unsigned cs) with
    | some n =>
      let x := n.toFloat
      if x.isFinite then some x else none
    | none => none

end TreeLayout.Yaml
