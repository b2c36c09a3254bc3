/-
# Sums of truncated numbers

Rational numbers are truncated toward zero and added as integers.  Truncation makes no number
larger, so a bound on the absolute values bounds every partial sum of the integers too
(`abs_sum_truncate_le`), and it loses less than one unit of each number, so the sum of `n`
of them is off by less than `n` (`sum_truncate_error`).
-/
import Mathlib.Algebra.BigOperators.Ring.Finset
import Mathlib.Algebra.Order.BigOperators.Group.Finset
import Mathlib.Algebra.Order.Floor.Ring
import Mathlib.Data.Rat.Floor
import Mathlib.Tactic.Linarith

namespace NetCCL.Lib

/-- Truncation toward zero. -/
def truncate (q : ℚ) : ℤ := if 0 ≤ q then ⌊q⌋ else ⌈q⌉

theorem truncate_of_nonneg {q : ℚ} (h : 0 ≤ q) : truncate q = ⌊q⌋ := if_pos h

theorem truncate_of_neg {q : ℚ} (h : q < 0) : truncate q = ⌈q⌉ := if_neg (not_le.mpr h)

@[simp] theorem truncate_zero : truncate 0 = 0 := by
  rw [truncate_of_nonneg (le_refl 0), Int.floor_zero]

@[simp] theorem truncate_intCast (z : ℤ) : truncate z = z := by
  unfold truncate
  split
  · exact Int.floor_intCast z
  · exact Int.ceil_intCast z

/-- No number gets larger. -/
theorem abs_truncate_le (q : ℚ) : |(truncate q : ℚ)| ≤ |q| := by
  rcases le_or_gt 0 q with h | h
  · have hfloor : (0 : ℚ) ≤ ⌊q⌋ := by
      exact_mod_cast Int.floor_nonneg.mpr h
    rw [truncate_of_nonneg h, abs_of_nonneg hfloor, abs_of_nonneg h]
    exact Int.floor_le q
  · have hceil : ((⌈q⌉ : ℤ) : ℚ) ≤ 0 := by
      exact_mod_cast Int.ceil_le.mpr (by exact_mod_cast h.le)
    rw [truncate_of_neg h, abs_of_nonpos hceil, abs_of_neg h]
    exact neg_le_neg (Int.le_ceil q)

/-- Less than one unit is lost. -/
theorem truncate_error (q : ℚ) : |(truncate q : ℚ) - q| < 1 := by
  rcases le_or_gt 0 q with h | h
  · rw [truncate_of_nonneg h, abs_lt]
    have h1 := Int.floor_le q
    have h2 := Int.lt_floor_add_one q
    constructor <;> linarith
  · rw [truncate_of_neg h, abs_lt]
    have h1 := Int.le_ceil q
    have h2 := Int.ceil_lt_add_one q
    constructor <;> linarith

variable {ι : Type*} (s : Finset ι) (x : ι → ℚ)

/-- **The sum of the integers** stays within the sum of the absolute values. -/
theorem abs_sum_truncate_le : |((∑ i ∈ s, truncate (x i) : ℤ) : ℚ)| ≤ ∑ i ∈ s, |x i| := by
  rw [Int.cast_sum]
  calc |∑ i ∈ s, (truncate (x i) : ℚ)| ≤ ∑ i ∈ s, |(truncate (x i) : ℚ)| :=
        Finset.abs_sum_le_sum_abs _ _
    _ ≤ ∑ i ∈ s, |x i| := Finset.sum_le_sum fun i _ => abs_truncate_le (x i)

/-- The sum of the integers is off by at most their number. -/
theorem sum_truncate_error_le :
    |((∑ i ∈ s, truncate (x i) : ℤ) : ℚ) - ∑ i ∈ s, x i| ≤ s.card := by
  rw [Int.cast_sum, ← Finset.sum_sub_distrib]
  calc |∑ i ∈ s, ((truncate (x i) : ℚ) - x i)| ≤ ∑ i ∈ s, |(truncate (x i) : ℚ) - x i| :=
        Finset.abs_sum_le_sum_abs _ _
    _ ≤ ∑ _i ∈ s, (1 : ℚ) := Finset.sum_le_sum fun i _ => (truncate_error (x i)).le
    _ = s.card := by rw [Finset.sum_const, nsmul_eq_mul, mul_one]

/-- **The sum of the integers** is off by less than their number. -/
theorem sum_truncate_error {s : Finset ι} (hs : s.Nonempty) (x : ι → ℚ) :
    |((∑ i ∈ s, truncate (x i) : ℤ) : ℚ) - ∑ i ∈ s, x i| < s.card := by
  rw [Int.cast_sum, ← Finset.sum_sub_distrib]
  calc |∑ i ∈ s, ((truncate (x i) : ℚ) - x i)| ≤ ∑ i ∈ s, |(truncate (x i) : ℚ) - x i| :=
        Finset.abs_sum_le_sum_abs _ _
    _ < ∑ _i ∈ s, (1 : ℚ) := Finset.sum_lt_sum_of_nonempty hs fun i _ => truncate_error (x i)
    _ = s.card := by rw [Finset.sum_const, nsmul_eq_mul, mul_one]

end NetCCL.Lib
