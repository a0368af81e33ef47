/-!
# Arithmetic in words

Lines and columns are counted in words of 64 bits: a sum or a product that does not fit starts from zero
again. In exact arithmetic every number fits. Both keep the rest of a number modulo a fixed one, which is
zero in exact arithmetic, so what holds of rests holds in both. Where all numbers fit (`Holds`) words
count as exact arithmetic does.
-/

namespace TreeLayout

/-- How lines and columns are counted. -/
inductive Arithmetic where
  /-- In words of 64 bits, where a number that does not fit starts from zero again. -/
  | words
  /-- Without a bound. -/
  | exact
  deriving DecidableEq

namespace Arithmetic

/-- How many numbers a word of 64 bits can hold. -/
def wordSize : Nat := 0x10000000000000000

/-- The number at which counting starts from zero again, and zero if there is none. -/
def modulus : Arithmetic → Nat
  | .words => wordSize
  | .exact => 0

variable (a : Arithmetic)

/-- What is kept of a number. -/
def fit (n : Nat) : Nat := n % a.modulus

/-- The sum of two numbers. -/
def add (m n : Nat) : Nat := a.fit (m + n)

/-- The product of two numbers. -/
def mul (m n : Nat) : Nat := a.fit (m * n)

/-- The difference of two numbers. Below zero, words go on from their greatest number, and exact arithmetic
stays at zero. -/
def sub (m n : Nat) : Nat := if n ≤ m then m - n else a.modulus - (n - m)

/-- A number fits. -/
def Holds (n : Nat) : Prop := a.fit n = n

instance (n : Nat) : Decidable (a.Holds n) := inferInstanceAs (Decidable (_ = _))

variable {a} {m n : Nat}

/-- Every number fits exact arithmetic. -/
theorem holds_exact (n : Nat) : exact.Holds n := Nat.mod_zero n

/-- Exact arithmetic keeps all of a number. -/
theorem exact_fit (n : Nat) : exact.fit n = n := Nat.mod_zero n

/-- A number fits if it lies below the modulus, or if there is none. -/
theorem holds_iff : a.Holds n ↔ a.modulus = 0 ∨ n < a.modulus := by
  unfold Holds fit
  obtain hzero | hpos := Nat.eq_zero_or_pos a.modulus
  · simp [hzero]
  · have hlt := Nat.mod_lt n hpos
    constructor
    · intro hn
      exact .inr (hn ▸ hlt)
    · rintro (hzero | hn)
      · exact absurd hzero (Nat.ne_of_gt hpos)
      · exact Nat.mod_eq_of_lt hn

/-- The numbers that fit words. -/
theorem holds_words : words.Holds n ↔ n < wordSize :=
  holds_iff.trans (or_iff_right (by decide))

/-- A number that fits words fits every arithmetic. -/
theorem holds_of_lt (h : n < wordSize) : a.Holds n := by
  cases a with
  | words => exact holds_words.2 h
  | exact => exact holds_exact n

/-- What is less than a number that fits, fits. -/
theorem Holds.of_le (hn : a.Holds n) (hle : m ≤ n) : a.Holds m :=
  holds_iff.2 ((holds_iff.1 hn).imp id (Nat.lt_of_le_of_lt hle))

/-- Zero fits. -/
theorem holds_zero (a : Arithmetic) : a.Holds 0 := Nat.zero_mod _

/-- Of what is kept, all is kept. -/
@[simp] theorem fit_fit (n : Nat) : a.fit (a.fit n) = a.fit n := Nat.mod_mod n _

/-- What is kept of a number fits. -/
theorem holds_fit (n : Nat) : a.Holds (a.fit n) := fit_fit n

/-- A sum is what is kept of the sum of what is kept. -/
@[simp] theorem fit_add_fit_left (m n : Nat) : a.fit (a.fit m + n) = a.fit (m + n) := by
  unfold fit
  rw [Nat.add_mod, Nat.mod_mod, ← Nat.add_mod]

/-- A sum is what is kept of the sum of what is kept, on the right as well. -/
@[simp] theorem fit_add_fit_right (m n : Nat) : a.fit (m + a.fit n) = a.fit (m + n) := by
  unfold fit
  rw [Nat.add_mod, Nat.mod_mod, ← Nat.add_mod]

/-- A product is what is kept of the product of what is kept. -/
@[simp] theorem fit_mul_fit_left (m n : Nat) : a.fit (a.fit m * n) = a.fit (m * n) := by
  unfold fit
  rw [Nat.mul_mod, Nat.mod_mod, ← Nat.mul_mod]

/-- A product is what is kept of the product of what is kept, on the right as well. -/
@[simp] theorem fit_mul_fit_right (m n : Nat) : a.fit (m * a.fit n) = a.fit (m * n) := by
  rw [Nat.mul_comm, fit_mul_fit_left, Nat.mul_comm]

/-- A sum that fits is exact. -/
theorem add_of_holds (h : a.Holds (m + n)) : a.add m n = m + n := h

/-- One more is another number. -/
theorem fit_succ_ne (a : Arithmetic) (n : Nat) : a.fit (n + 1) ≠ a.fit n := by
  cases a with
  | words =>
    have hsize : words.modulus = 0x10000000000000000 := rfl
    unfold fit
    rw [hsize]
    omega
  | exact =>
    rw [exact_fit, exact_fit]
    exact Nat.succ_ne_self n

/-- The difference from a number to a sum with it is what was added, also where the sum starts from zero
again. -/
theorem sub_fit_add (hm : a.Holds m) (hn : a.Holds n) : a.sub (a.fit (m + n)) m = n := by
  unfold sub
  obtain hzero | hpos := Nat.eq_zero_or_pos a.modulus
  · have hfit : a.fit (m + n) = m + n := by rw [fit, hzero, Nat.mod_zero]
    rw [hfit, if_pos (Nat.le_add_right m n), Nat.add_sub_cancel_left]
  · have hm := (holds_iff.1 hm).resolve_left (Nat.ne_of_gt hpos)
    have hn := (holds_iff.1 hn).resolve_left (Nat.ne_of_gt hpos)
    unfold fit
    obtain hlt | hle := Nat.lt_or_ge (m + n) a.modulus
    · rw [Nat.mod_eq_of_lt hlt, if_pos (Nat.le_add_right m n), Nat.add_sub_cancel_left]
    · have hwrap : (m + n) % a.modulus = m + n - a.modulus := by
        rw [Nat.mod_eq_sub_mod hle, Nat.mod_eq_of_lt (by omega)]
      rw [hwrap]
      split <;> omega

end Arithmetic

end TreeLayout
