import Mathlib.Algebra.Order.Ring.Int
import Mathlib.Data.Int.Init

/-!
# C integers

The conversions between the integer types of an LP64 machine, on mathematical integers: `int` and
`unsigned int` have 32 bits, `size_t` has 64. A conversion keeps the value modulo the width.
-/

namespace CompileService.Base

/-- The value that an `int` holds after `x` is converted to it. -/
def toInt32 (x : Int) : Int := (x + 2 ^ 31) % 2 ^ 32 - 2 ^ 31

/-- The value that an `unsigned int` holds after `x` is converted to it. -/
def toUInt32 (x : Int) : Nat := (x % 2 ^ 32).toNat

/-- The value that a `size_t` holds after `x` is converted to it. -/
def toSize (x : Int) : Nat := (x % 2 ^ 64).toNat

theorem toInt32_of_range {x : Int} (hlo : -2 ^ 31 ≤ x) (hhi : x < 2 ^ 31) : toInt32 x = x := by
  unfold toInt32
  omega

/-- A value that an `int` can hold no longer, up to the next multiple of `2 ^ 32`. -/
theorem toInt32_of_large {x : Int} (hlo : 2 ^ 31 ≤ x) (hhi : x < 2 ^ 31 + 2 ^ 32) : toInt32 x = x - 2 ^ 32 := by
  unfold toInt32
  omega

theorem toInt32_range (x : Int) : -2 ^ 31 ≤ toInt32 x ∧ toInt32 x < 2 ^ 31 := by
  unfold toInt32
  omega

theorem toUInt32_of_range {x : Int} (hlo : 0 ≤ x) (hhi : x < 2 ^ 32) : toUInt32 x = x.toNat := by
  unfold toUInt32
  omega

theorem toSize_of_range {x : Int} (hlo : 0 ≤ x) (hhi : x < 2 ^ 64) : toSize x = x.toNat := by
  unfold toSize
  omega

theorem toSize_natCast {n : Nat} (h : n < 2 ^ 64) : toSize n = n := by
  rw [toSize_of_range (Int.natCast_nonneg n) (by omega), Int.toNat_natCast]

theorem toSize_of_neg {x : Int} (hlo : -2 ^ 31 ≤ x) (hneg : x < 0) : 2 ^ 63 ≤ toSize x := by
  unfold toSize
  omega

/-- A size that a block can have comes from an `int` that is not negative. -/
theorem toSize_of_lt {x : Int} (hlo : -2 ^ 31 ≤ x) (hhi : x < 2 ^ 31) (h : toSize x < 2 ^ 63) :
    0 ≤ x ∧ toSize x = x.toNat := by
  have hnonneg : 0 ≤ x := by
    by_contra hneg
    have hhuge := toSize_of_neg hlo (Int.not_le.mp hneg)
    omega
  exact ⟨hnonneg, toSize_of_range hnonneg (by omega)⟩

/-- A size that is kept in an `int` is the same size again exactly if it is below `2 ^ 31`: any other one loses a
multiple of `2 ^ 32`, or is negative and becomes a size near `2 ^ 64`. -/
theorem toSize_toInt32_eq_iff {n : Nat} (h : n < 2 ^ 63) : toSize (toInt32 n) = n ↔ n < 2 ^ 31 := by
  obtain ⟨hlo, hhi⟩ := toInt32_range n
  constructor
  · intro hsame
    by_contra hlarge
    obtain ⟨hnonneg, hsize⟩ := toSize_of_lt hlo hhi (by omega)
    omega
  · intro hlt
    rw [toInt32_of_range (by omega) (by omega), toSize_natCast (by omega)]

/-- A product in `size_t` does not depend on which of the factors were converted before. -/
theorem toSize_toSize_mul (x y : Int) : toSize (toSize x * y) = toSize (x * y) := by
  have hx : (toSize x : Int) = x % 2 ^ 64 := Int.toNat_of_nonneg (Int.emod_nonneg x (by decide))
  rw [hx]
  unfold toSize
  rw [Int.mul_emod, Int.emod_emod, ← Int.mul_emod]

end CompileService.Base
