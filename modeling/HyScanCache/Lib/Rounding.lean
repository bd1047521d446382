import Mathlib.Data.Int.Log
import Mathlib.Data.Rat.Floor
import Mathlib.Tactic.Linarith
import Mathlib.Tactic.FieldSimp

/-!
# Rounding to a precision

Rational numbers are rounded to `p` binary digits, to nearest, ties to even; the range of exponents is not limited.

* `roundTo_error`: the relative error is at most `2⁻ᵖ`;
* `roundTo_intCast`: integers of at most `p` digits are not changed;
* `roundTo_lt_iff`: numbers that are equal, or further apart than their errors, compare as they did.
-/

namespace HyScanCache.Lib

/-- To the nearest integer, to the even one of two. -/
def roundEven (x : ℚ) : ℤ :=
  if x + 1 / 2 = ⌊x + 1 / 2⌋ ∧ ⌊x + 1 / 2⌋ % 2 = 1 then ⌊x + 1 / 2⌋ - 1 else ⌊x + 1 / 2⌋

theorem roundEven_intCast (n : ℤ) : roundEven n = n := by
  have hfloor : ⌊(n : ℚ) + 1 / 2⌋ = n := by
    rw [Int.floor_eq_iff]
    constructor <;> linarith
  have hne : ¬ (n : ℚ) + 1 / 2 = n := by linarith
  rw [roundEven, hfloor, if_neg fun h => hne h.1]

theorem roundEven_error (x : ℚ) : |(roundEven x : ℚ) - x| ≤ 1 / 2 := by
  have h1 := Int.floor_le (x + 1 / 2)
  have h2 := Int.lt_floor_add_one (x + 1 / 2)
  rw [abs_le, roundEven]
  split
  · next h =>
    have h3 := h.1
    push_cast
    constructor <;> linarith
  · constructor <;> linarith

variable {p : ℕ} {x y : ℚ}

/-- The distance of the numbers of `p` digits around `x`. -/
def spacing (p : ℕ) (x : ℚ) : ℚ := 2 ^ (Int.log 2 |x| + 1 - p)

/-- To `p` binary digits. -/
def roundTo (p : ℕ) (x : ℚ) : ℚ := roundEven (x / spacing p x) * spacing p x

theorem spacing_pos (p : ℕ) (x : ℚ) : 0 < spacing p x := zpow_pos (by norm_num) _

theorem spacing_le (p : ℕ) (hx : x ≠ 0) : 1 / 2 * spacing p x ≤ |x| / 2 ^ p := by
  have hlog : (2 : ℚ) ^ Int.log 2 |x| ≤ |x| := Int.zpow_log_le_self (by norm_num) (abs_pos.2 hx)
  have hsplit : 1 / 2 * spacing p x = 2 ^ Int.log 2 |x| / 2 ^ p := by
    rw [spacing, zpow_sub₀ (by norm_num), zpow_add₀ (by norm_num), zpow_one, zpow_natCast]
    ring
  rw [hsplit]
  gcongr

/-- **The relative error.** -/
theorem roundTo_error (p : ℕ) (x : ℚ) : |roundTo p x - x| ≤ |x| / 2 ^ p := by
  by_cases hx : x = 0
  · subst hx
    simp [roundTo, show roundEven 0 = 0 from roundEven_intCast 0]
  have hs := spacing_pos p x
  have heq : roundTo p x - x = (roundEven (x / spacing p x) - x / spacing p x) * spacing p x := by
    rw [roundTo]
    field_simp
  calc |roundTo p x - x| = |roundEven (x / spacing p x) - x / spacing p x| * spacing p x := by
        rw [heq, abs_mul, abs_of_pos hs]
    _ ≤ 1 / 2 * spacing p x := mul_le_mul_of_nonneg_right (roundEven_error _) hs.le
    _ ≤ |x| / 2 ^ p := spacing_le p hx

theorem roundTo_intCast {n : ℤ} (h : |n| < 2 ^ p) : roundTo p n = n := by
  by_cases hn : n = 0
  · subst hn
    simp [roundTo, show roundEven 0 = 0 from roundEven_intCast 0]
  have habs : (0 : ℚ) < |(n : ℚ)| := abs_pos.2 (by exact_mod_cast hn)
  have hlog : Int.log 2 |(n : ℚ)| < p := by
    rw [← Int.lt_zpow_iff_log_lt (by norm_num) habs]
    exact_mod_cast h
  -- the spacing divides the integer
  obtain ⟨k, hk⟩ : ∃ k : ℕ, Int.log 2 |(n : ℚ)| + 1 - p = -k := ⟨(p - 1 - Int.log 2 |(n : ℚ)|).toNat, by omega⟩
  have hs : spacing p n = 1 / 2 ^ k := by
    rw [spacing, hk, zpow_neg, zpow_natCast, one_div]
  have hdiv : (n : ℚ) / spacing p n = (n * 2 ^ k : ℤ) := by
    rw [hs]
    push_cast
    field_simp
  rw [roundTo, hdiv, roundEven_intCast, hs]
  push_cast
  field_simp

/-- **Comparing rounded numbers**, of which either is the other or is far from it. -/
theorem roundTo_lt_iff (h : x = y ∨ (|x| + |y|) / 2 ^ p < |x - y|) : roundTo p x < roundTo p y ↔ x < y := by
  rcases h with rfl | h
  · simp
  have hx := abs_le.1 (roundTo_error p x)
  have hy := abs_le.1 (roundTo_error p y)
  rw [add_div] at h
  rcases lt_abs.1 h with h | h
  · exact ⟨fun hlt => by linarith, fun hlt => by linarith⟩
  · exact ⟨fun hlt => by linarith, fun hlt => by linarith⟩

end HyScanCache.Lib
