/-!
# Durations in seconds

A duration of milliseconds is turned into a binary number of seconds with 53 significant bits, first
the fraction and then the sum with the whole seconds, and that number is written with two places.
Every step rounds to the nearest neighbour, and a half goes to the even one.
-/

namespace TreeLayout.Seconds

/-- A quotient rounded to the nearest whole number; a half goes to the even neighbour. -/
def roundDiv (num den : Nat) : Nat :=
  let q := num / den
  let r := num % den
  if 2 * r < den || (2 * r = den && q % 2 = 0) then q else q + 1

/-- A number rounded to its 53 leading bits. -/
def leadingBits (n : Nat) : Nat :=
  if n < Nat.pow 2 53 then n
  else
    let unit := Nat.pow 2 (n.log2 - 52)
    roundDiv n unit * unit

/-- The power of two by which less than 1000 thousandths are scaled so that 53 bits stand before the
point. -/
def scaleOf (thousandths : Nat) : Nat :=
  if thousandths = 0 then 0 else 62 - (thousandths * 1024 / 1000).log2

/-- A duration in hundredths of a second. -/
def hundredths (ms : Nat) : Nat :=
  let scale := scaleOf (ms % 1000)
  let fraction := roundDiv (ms % 1000 * Nat.pow 2 scale) 1000
  let seconds := leadingBits (leadingBits (ms / 1000) * Nat.pow 2 scale + fraction)
  roundDiv (100 * seconds) (Nat.pow 2 scale)

/-- A duration as a number of seconds with two places. -/
def text (ms : Nat) : String :=
  let h := hundredths ms
  toString (h / 100) ++ "." ++ toString (h / 10 % 10) ++ toString (h % 10)

end TreeLayout.Seconds
