import TreeLayout.Data.Value

/-!
# Numbers in documents

How a numeral is read: as a natural number if it is written as one and fits, otherwise as a number of
another kind, unless it is too large for a 64-bit floating-point number.
-/

namespace TreeLayout.Json

/-- The value of a digit in a base up to sixteen. -/
def digit? (c : Char) : Option Nat :=
  if '0' ≤ c ∧ c ≤ '9' then some (c.toNat - '0'.toNat)
  else if 'a' ≤ c ∧ c ≤ 'f' then some (c.toNat - 'a'.toNat + 10)
  else if 'A' ≤ c ∧ c ≤ 'F' then some (c.toNat - 'A'.toNat + 10)
  else none

/-- Whether a character is a decimal digit. -/
def isDigit (c : Char) : Bool := '0' ≤ c && c ≤ '9'

/-- The number that decimal digits write. -/
def ofDigits (cs : List Char) : Nat :=
  cs.foldl (fun n c => n * 10 + (c.toNat - '0'.toNat)) 0

/-- A numeral in parts. -/
structure Numeral where
  /-- Whether it has a minus sign. -/
  negative : Bool
  /-- The digits before the point. -/
  whole : List Char
  /-- The digits after the point, if there is one. -/
  fraction : Option (List Char)
  /-- The sign and the digits of the exponent, if there is one. -/
  exponent : Option (Bool × List Char)

/-- The digits of a numeral without its leading zeros. -/
def Numeral.digits (n : Numeral) : List Char :=
  (n.whole ++ n.fraction.getD []).dropWhile (· = '0')

/-- The 64-bit floating-point number nearest to a numeral. Exponents so large that they decide alone are
not worked out. -/
def Numeral.toFloat (n : Numeral) : Float :=
  let places := (n.fraction.getD []).length
  let mantissa := ofDigits n.digits
  let nearest :=
    match n.exponent with
    | none => Float.ofScientific mantissa true places
    | some (negative, ds) =>
      let e := ofDigits ds
      if n.digits.isEmpty then 0
      else if negative then
        if 400 + n.digits.length < e then 0 else Float.ofScientific mantissa true (places + e)
      else if 400 + places < e then 1 / 0
      else if e ≤ places then Float.ofScientific mantissa true (places - e)
      else Float.ofScientific mantissa false (e - places)
  if n.negative then -nearest else nearest

/-- The leading digits that fit 64 bits, and how many are left. -/
def leadingDigits (n : Nat) : List Char → Nat × List Char
  | [] => (n, [])
  | c :: cs =>
    let next := n * 10 + (c.toNat - '0'.toNat)
    if next < wordBound then leadingDigits next cs else (n, c :: cs)

/-- Whether a numeral is out of range: its leading digits and a power of ten, both as 64-bit
floating-point numbers, have no finite product. -/
def Numeral.outOfRange (n : Numeral) : Bool :=
  let (start, dropped) := leadingDigits 0 n.whole
  let fraction := n.fraction.getD []
  let (significand, ignored) := leadingDigits start fraction
  let scale : Int := (dropped.length : Int) - ((fraction.length - ignored.length : Nat) : Int)
  let (negative, exponent) := (n.exponent.map fun (negative, ds) => (negative, ofDigits ds)).getD
    (false, 0)
  if significand = 0 then false
  else
    let power := if negative then scale - exponent else scale + exponent
    if power < 0 then false
    else if 308 < power then true
    else (Float.ofNat significand * Float.ofScientific 1 false power.toNat).isInf

/-- The text of a numeral. -/
def Numeral.text (n : Numeral) : String :=
  let sign := if n.negative then "-" else ""
  let fraction := (n.fraction.map fun ds => "." ++ String.ofList ds).getD ""
  let exponent :=
    (n.exponent.map fun (negative, ds) =>
      (if negative then "e-" else "e") ++ String.ofList ds).getD ""
  sign ++ String.ofList n.whole ++ fraction ++ exponent

/-- Whether a numeral has nothing but digits. -/
def Numeral.isNatural : Numeral → Bool
  | { negative := false, fraction := none, exponent := none, .. } => true
  | _ => false

/-- The value that a numeral means. -/
def Numeral.value (n : Numeral) : Value :=
  let whole := ofDigits n.whole
  if n.isNatural && whole < wordBound then .nat whole
  else if n.outOfRange then .invalid
  else .real n.text

end TreeLayout.Json
