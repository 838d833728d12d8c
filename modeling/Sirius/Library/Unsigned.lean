import Mathlib.Tactic

/-!
# Unsigned 32-bit arithmetic

Sums and differences of numbers below `2 ^ 32` that wrap around.
-/

namespace Sirius.Library

variable {a b : Nat}

/-- The sum of two 32-bit unsigned numbers. -/
def add32 (a b : Nat) : Nat := if a + b < 2 ^ 32 then a + b else a + b - 2 ^ 32

/-- The difference of two 32-bit unsigned numbers. -/
def sub32 (a b : Nat) : Nat := if b ≤ a then a - b else a + 2 ^ 32 - b

theorem add32_of_lt (h : a + b < 2 ^ 32) : add32 a b = a + b := if_pos h

theorem sub32_of_le (h : b ≤ a) : sub32 a b = a - b := if_pos h

/-- A difference below zero wraps around to a large number. -/
theorem sub32_of_lt (h : a < b) : sub32 a b = a + 2 ^ 32 - b := if_neg (Nat.not_le.mpr h)

theorem sub32_lt (h : a < 2 ^ 32) (b : Nat) : sub32 a b < 2 ^ 32 := by
  unfold sub32
  split <;> omega

/-- The value of a number in a 32-bit unsigned variable. -/
def wrap32 (n : Nat) : Nat := n % 2 ^ 32

theorem wrap32_of_lt {n : Nat} (h : n < 2 ^ 32) : wrap32 n = n := Nat.mod_eq_of_lt h

theorem wrap32_lt (n : Nat) : wrap32 n < 2 ^ 32 := Nat.mod_lt _ (by decide)

theorem wrap32_add (a b : Nat) : wrap32 (wrap32 a + b) = wrap32 (a + b) := Nat.mod_add_mod a _ b

end Sirius.Library
