import Mathlib.Algebra.Group.Int.Defs
import Mathlib.Algebra.Group.Nat.Defs

/-!
# Narrow — what an `int` keeps of a number

The conversion to an `int` of 32 bits is `Int.bmod`.
-/

namespace Reasoning

variable {n : Nat}

theorem narrow_of_lt (h : n < 2 ^ 31) : (n : Int).bmod (2 ^ 32) = n := by
  have hpow : ((2 ^ 32 : Nat) : Int) = 4294967296 := rfl
  rw [Int.bmod_def, hpow]
  split <;> omega

theorem narrow_le (h : 2 ^ 31 ≤ n) : (n : Int).bmod (2 ^ 32) ≤ n - 2 ^ 32 := by
  have hpow : ((2 ^ 32 : Nat) : Int) = 4294967296 := rfl
  rw [Int.bmod_def, hpow]
  split <;> omega

/-- Twice as far the number is negative. -/
theorem narrow_neg (h : 2 ^ 31 ≤ n) (hlt : n < 2 ^ 32) : (n : Int).bmod (2 ^ 32) < 0 := by
  have hle := narrow_le h
  omega

end Reasoning
