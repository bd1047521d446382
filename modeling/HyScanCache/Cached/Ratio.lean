import HyScanCache.Cached
import HyScanCache.Lib.Rounding

/-!
# The test of `hyscan_cached_update_object`, in `gdouble`

`reallocates` compares integers where the source divides numbers of type `gdouble`.  Here the source's test is
computed with 53 binary digits, and it is shown to come to the same for all sizes (`reallocatesDouble_iff`).
-/

namespace HyScanCache.Cached

open Lib

/-- The number of binary digits of a `gdouble`. -/
def doubleDigits : ℕ := 53

/-- `(gdouble) n` -/
def toDouble (n : UInt32) : ℚ := roundTo doubleDigits (n.toNat : ℤ)

/-- `x / y`; an infinity or a NaN is not less than anything. -/
def divDouble (x y : ℚ) : Option ℚ := if y = 0 then none else some (roundTo doubleDigits (x / y))

/-- The number written `0.95`. -/
def ratioLimit : ℚ := roundTo doubleDigits (95 / 100)

/-- `object->allocated < size || ((gdouble) size / (gdouble) object->allocated) < 0.95` -/
def reallocatesDouble (allocated size : UInt32) : Prop :=
  allocated < size ∨ ∃ q ∈ divDouble (toDouble size) (toDouble allocated), q < ratioLimit

theorem toDouble_eq (n : UInt32) : toDouble n = n.toNat := by
  have hn := n.toNat_lt
  rw [toDouble, roundTo_intCast]
  · rfl
  · rw [abs_of_nonneg (by omega), doubleDigits]
    omega

/-- Ratios of sizes are equal to the limit or far from it. -/
theorem ratio_far {s a : ℕ} (hs : s ≤ a) (ha : a < 2 ^ 32) (hpos : 0 < a) :
    (s / a : ℚ) = 95 / 100 ∨ (|(s / a : ℚ)| + |(95 / 100 : ℚ)|) / 2 ^ doubleDigits < |(s / a : ℚ) - 95 / 100| := by
  have hapos : (0 : ℚ) < a := by exact_mod_cast hpos
  have hdiff : (s / a : ℚ) - 95 / 100 = (20 * s - 19 * a : ℤ) / (20 * a) := by
    push_cast
    field_simp
    ring
  by_cases heq : (20 * s - 19 * a : ℤ) = 0
  · left
    rw [heq, Int.cast_zero, zero_div] at hdiff
    linarith
  · right
    have hone : (1 : ℚ) ≤ |((20 * s - 19 * a : ℤ) : ℚ)| := by exact_mod_cast Int.one_le_abs heq
    have hratio : |(s / a : ℚ)| ≤ 1 := by
      rw [abs_of_nonneg (by positivity), div_le_one hapos]
      exact_mod_cast hs
    have hbound : (20 * a : ℚ) < 20 * 2 ^ 32 := by
      have h : (a : ℚ) < 2 ^ 32 := by exact_mod_cast ha
      linarith
    calc (|(s / a : ℚ)| + |(95 / 100 : ℚ)|) / 2 ^ doubleDigits ≤ (1 + 1) / 2 ^ doubleDigits := by
          gcongr
          norm_num [abs_of_pos]
      _ < 1 / (20 * 2 ^ 32) := by norm_num [doubleDigits]
      _ ≤ 1 / (20 * a) := one_div_le_one_div_of_le (by positivity) hbound.le
      _ ≤ |((20 * s - 19 * a : ℤ) : ℚ)| / (20 * a) := by gcongr
      _ = |(s / a : ℚ) - 95 / 100| := by rw [hdiff, abs_div, abs_of_pos (a := (20 * a : ℚ)) (by positivity)]

/-- **The test in `gdouble` is exact**, for all sizes. -/
theorem reallocatesDouble_iff (allocated size : UInt32) :
    reallocatesDouble allocated size ↔ reallocates allocated size := by
  refine or_congr_right' fun hle => ?_
  have hs : size.toNat ≤ allocated.toNat := UInt32.not_lt.1 hle
  rw [toDouble_eq, toDouble_eq, divDouble]
  by_cases h0 : allocated.toNat = 0
  · -- zero divided by zero
    simp [h0]
  · have hpos : 0 < allocated.toNat := Nat.pos_of_ne_zero h0
    have hapos : (0 : ℚ) < allocated.toNat := by exact_mod_cast hpos
    rw [if_neg hapos.ne']
    simp only [Option.mem_def, Option.some.injEq, exists_eq_left', ratioLimit]
    rw [roundTo_lt_iff (ratio_far hs allocated.toNat_lt hpos), div_lt_div_iff₀ hapos (by norm_num)]
    constructor
    · intro h
      have h' : size.toNat * 100 < 95 * allocated.toNat := by exact_mod_cast h
      omega
    · intro h
      have h' : size.toNat * 100 < 95 * allocated.toNat := by omega
      exact_mod_cast h'

end HyScanCache.Cached
