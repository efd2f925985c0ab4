import Mathlib.Algebra.Order.Floor.Ring
import Mathlib.Data.Int.Log
import Mathlib.Data.Rat.Floor
import Mathlib.Tactic.Linarith
import Mathlib.Tactic.Positivity
import Mathlib.Tactic.Ring

/-!
Rounding to floating-point numbers of `p` significant bits: to nearest, ties to even. The
exponent is unbounded, so this is IEEE arithmetic as long as nothing overflows or gets
subnormal.
-/
namespace Mcts.Rounding

variable {K : Type*} [Field K] [LinearOrder K] [FloorRing K]

section Nearest

/-- The nearest integer; of two, the even one. -/
def nearest (x : K) : ℤ :=
  if x - ⌊x⌋ < ⌊x⌋ + 1 - x then ⌊x⌋
  else if ⌊x⌋ + 1 - x < x - ⌊x⌋ then ⌊x⌋ + 1
  else if ⌊x⌋ % 2 = 0 then ⌊x⌋
  else ⌊x⌋ + 1

variable [IsStrictOrderedRing K]

theorem nearest_int (n : ℤ) : nearest (n : K) = n := by
  have hclose : (n : K) - n < n + 1 - n := by
    rw [sub_self, add_sub_cancel_left]
    exact one_pos
  rw [nearest, Int.floor_intCast, if_pos hclose]

theorem abs_nearest_sub_le (x : K) : |(nearest x : K) - x| ≤ 1 / 2 := by
  have hfloor := Int.floor_le x
  have hceil := Int.lt_floor_add_one x
  rw [nearest, abs_le]
  split_ifs with hlow hhigh heven
  · constructor <;> linarith
  · push_cast
    constructor <;> linarith
  · constructor <;> linarith
  · push_cast
    constructor <;> linarith

end Nearest

section Float

/-- What the last of `p` bits of `x` is worth. -/
def ulp (p : ℕ) (x : K) : K := ((2 : ℕ) : K) ^ (Int.log 2 |x| + 1 - p)

def float (p : ℕ) (x : K) : K := nearest (x / ulp p x) * ulp p x

variable [IsStrictOrderedRing K] {p : ℕ} {x y : K}

theorem ulp_pos (p : ℕ) (x : K) : 0 < ulp p x := zpow_pos (Nat.cast_pos.mpr two_pos) _

theorem float_zero (p : ℕ) : float p (0 : K) = 0 := by
  have hnearest : nearest (0 : K) = 0 := by simpa using nearest_int (K := K) 0
  rw [float, zero_div, hnearest, Int.cast_zero, zero_mul]

theorem abs_float_sub_le_ulp (p : ℕ) (x : K) : |float p x - x| ≤ ulp p x / 2 := by
  have hulp := ulp_pos p x
  have hscale : float p x - x = (nearest (x / ulp p x) - x / ulp p x) * ulp p x := by
    rw [sub_mul, div_mul_cancel₀ x hulp.ne']
    rfl
  rw [hscale, abs_mul, abs_of_pos hulp]
  calc |(nearest (x / ulp p x) : K) - x / ulp p x| * ulp p x
      ≤ 1 / 2 * ulp p x := mul_le_mul_of_nonneg_right (abs_nearest_sub_le _) hulp.le
    _ = ulp p x / 2 := by ring

/-- The leading bit of a number is worth at most the number. -/
theorem ulp_le (p : ℕ) (hx : x ≠ 0) : ulp p x ≤ 2 * (2 ^ p)⁻¹ * |x| := by
  have hlog := Int.zpow_log_le_self (R := K) one_lt_two (abs_pos.mpr hx)
  rw [Nat.cast_ofNat] at hlog
  have hsplit : ulp p x = 2 * (2 ^ p)⁻¹ * 2 ^ Int.log 2 |x| := by
    rw [ulp, Nat.cast_ofNat, zpow_sub₀ two_ne_zero, zpow_add₀ two_ne_zero, zpow_one, zpow_natCast]
    ring
  rw [hsplit]
  exact mul_le_mul_of_nonneg_left hlog (by positivity)

/-- The relative error is at most half a unit in the last place. -/
theorem abs_float_sub_le (p : ℕ) (x : K) : |float p x - x| ≤ (2 ^ p)⁻¹ * |x| := by
  by_cases hx : x = 0
  · rw [hx, float_zero, sub_zero, abs_zero, mul_zero]
  · have hulp := ulp_le p hx
    have herror := abs_float_sub_le_ulp p x
    linarith

theorem float_le (p : ℕ) (hx : 0 ≤ x) : float p x ≤ (1 + (2 ^ p)⁻¹) * x := by
  have herror := abs_float_sub_le p x
  rw [abs_of_nonneg hx] at herror
  have hupper := (abs_le.mp herror).2
  linarith

theorem le_float (p : ℕ) (hx : 0 ≤ x) : (1 - (2 ^ p)⁻¹) * x ≤ float p x := by
  have herror := abs_float_sub_le p x
  rw [abs_of_nonneg hx] at herror
  have hlower := (abs_le.mp herror).1
  linarith

theorem float_nonneg (p : ℕ) (hx : 0 ≤ x) : 0 ≤ float p x := by
  have hunit : ((2 : K) ^ p)⁻¹ ≤ 1 := inv_le_one_of_one_le₀ (one_le_pow₀ one_le_two)
  exact (mul_nonneg (sub_nonneg.mpr hunit) hx).trans (le_float p hx)

/-- Two numbers that are further apart than the errors stay apart. -/
theorem float_lt_float (hx : 0 ≤ x) (hy : 0 ≤ y)
    (h : (1 + (2 ^ p)⁻¹) * x < (1 - (2 ^ p)⁻¹) * y) : float p x < float p y :=
  (float_le p hx).trans_lt (h.trans_le (le_float p hy))

end Float

section Ratios

variable [IsStrictOrderedRing K] {p w m n : ℕ}

/-- A larger denominator is noticed as long as denominators are exact to within a bit. -/
theorem float_ratio_lt (hw : 0 < w) (hm : 0 < m) (hmn : m < n) (hp : 2 * m + 1 < 2 ^ p) :
    float p ((w : K) / n) < float p ((w : K) / m) := by
  have hw' : (0 : K) < w := Nat.cast_pos.mpr hw
  have hm' : (0 : K) < m := Nat.cast_pos.mpr hm
  have hn' : (m : K) + 1 ≤ n := by exact_mod_cast hmn
  have hpos : (0 : K) < n := by linarith
  have hp' : 2 * (m : K) + 1 < 2 ^ p := by exact_mod_cast hp
  have hunit : (2 * (m : K) + 1) * (2 ^ p)⁻¹ < 1 := by
    rwa [← div_eq_mul_inv, div_lt_one (by positivity)]
  have hone : ((2 : K) ^ p)⁻¹ ≤ 1 := inv_le_one_of_one_le₀ (one_le_pow₀ one_le_two)
  apply float_lt_float (by positivity) (by positivity)
  rw [← mul_div_assoc, ← mul_div_assoc, div_lt_div_iff₀ hpos hm']
  have hsides : (1 + (2 ^ p)⁻¹) * (m : K) < (1 - (2 ^ p)⁻¹) * n :=
    calc (1 + (2 ^ p)⁻¹) * (m : K) < (1 - (2 ^ p)⁻¹) * (m + 1) := by linarith
      _ ≤ (1 - (2 ^ p)⁻¹) * n := mul_le_mul_of_nonneg_left hn' (sub_nonneg.mpr hone)
  calc (1 + (2 ^ p)⁻¹) * (w : K) * m = (1 + (2 ^ p)⁻¹) * (m : K) * w := by ring
    _ < (1 - (2 ^ p)⁻¹) * n * w := mul_lt_mul_of_pos_right hsides hw'
    _ = (1 - (2 ^ p)⁻¹) * w * n := by ring

/-- A proper fraction does not round up to 1. -/
theorem float_ratio_lt_one (hwm : w ≤ m) (hmn : m < n) (hp : m < 2 ^ p) :
    float p ((w : K) / n) < 1 := by
  have hn' : (w : K) + 1 ≤ n := by exact_mod_cast Nat.lt_of_le_of_lt hwm hmn
  have hw' : (0 : K) ≤ w := Nat.cast_nonneg w
  have hpos : (0 : K) < n := by linarith
  have hp' : (w : K) < 2 ^ p := by exact_mod_cast Nat.lt_of_le_of_lt hwm hp
  have hunit : (w : K) * (2 ^ p)⁻¹ < 1 := by
    rwa [← div_eq_mul_inv, div_lt_one (by positivity)]
  apply (float_le p (by positivity)).trans_lt
  rw [← mul_div_assoc, div_lt_one hpos]
  linarith

end Ratios

example : float 53 (3 / 10 : ℚ) = 5404319552844595 / 2 ^ 54 := by decide +kernel

end Mcts.Rounding
