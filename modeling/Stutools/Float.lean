-- Binary floating point as the rationals it denotes: a value is rounded to
-- 53 significant bits, to nearest, ties to even, after each operation. The
-- exponent is unbounded, so this is `f64` away from its subnormals and
-- infinities.
import Mathlib.Algebra.Order.Field.Power
import Mathlib.Data.Int.Log
import Mathlib.Data.Rat.Floor
import Mathlib.Tactic.Positivity

namespace float

/-- The nearest integer, ties to even. -/
def roundHalfEven (q : ℚ) : ℤ :=
  let r := q - ⌊q⌋
  if r < 1 / 2 then ⌊q⌋
  else if 1 / 2 < r then ⌊q⌋ + 1
  else if ⌊q⌋ % 2 = 0 then ⌊q⌋ else ⌊q⌋ + 1

/-- The nearest value with 53 significant bits. -/
def f64 (q : ℚ) : ℚ :=
  if q = 0 then 0
  else
    let ulp : ℚ := 2 ^ (Int.log 2 |q| - 52)
    roundHalfEven (q / ulp) * ulp

/-- `a / b` in `f64`. -/
def f64Div (a b : ℚ) : ℚ := f64 (a / b)

/-! ## Bounds -/

theorem le_roundHalfEven {q : ℚ} {n : ℤ} (h : n ≤ q) : n ≤ roundHalfEven q := by
  have hfloor : n ≤ ⌊q⌋ := Int.le_floor.mpr h
  unfold roundHalfEven
  dsimp only
  split
  · exact hfloor
  · split
    · omega
    · split <;> omega

theorem roundHalfEven_le {q : ℚ} {n : ℤ} (h : q ≤ n) : roundHalfEven q ≤ n := by
  -- an integer that is not above `q` is rounded to itself
  obtain hq | hq := h.eq_or_lt
  · subst hq
    simp [roundHalfEven]
  · have hfloor : ⌊q⌋ < n := Int.floor_lt.mpr hq
    unfold roundHalfEven
    dsimp only
    split
    · omega
    · split
      · omega
      · split <;> omega

theorem f64_of_pos {q : ℚ} (h : 0 < q) :
    f64 q = roundHalfEven (q / 2 ^ (Int.log 2 q - 52)) * 2 ^ (Int.log 2 q - 52) := by
  unfold f64
  rw [if_neg h.ne', abs_of_pos h]

theorem f64_pos {q : ℚ} (h : 0 < q) : 0 < f64 q := by
  have hulp : (0 : ℚ) < 2 ^ (Int.log 2 q - 52) := by positivity
  have hone : ((1 : ℤ) : ℚ) ≤ q / 2 ^ (Int.log 2 q - 52) := by
    rw [Int.cast_one, one_le_div hulp]
    calc (2 : ℚ) ^ (Int.log 2 q - 52) ≤ 2 ^ Int.log 2 q :=
          zpow_le_zpow_right₀ one_le_two (by omega)
      _ ≤ q := by exact_mod_cast Int.zpow_log_le_self one_lt_two h
  have hround := le_roundHalfEven hone
  rw [f64_of_pos h]
  exact mul_pos (by exact_mod_cast hround) hulp

/-- What is below an integer of 53 bits is not rounded past it. -/
theorem f64_le_natCast {q : ℚ} {n : ℕ} (h : 0 < q) (hq : q ≤ n) (hn : n < 2 ^ 53) : f64 q ≤ n := by
  have hulp : (0 : ℚ) < 2 ^ (Int.log 2 q - 52) := by positivity
  have hlog : Int.log 2 q ≤ 52 := by
    have hlt : q < 2 ^ (53 : ℤ) := hq.trans_lt (by exact_mod_cast hn)
    have hlog := (Int.lt_zpow_iff_log_lt (b := 2) (x := 53) one_lt_two h).mp (by exact_mod_cast hlt)
    omega
  obtain ⟨k, hk⟩ := Int.eq_ofNat_of_zero_le (show 0 ≤ 52 - Int.log 2 q by omega)
  have hinv : (2 : ℚ) ^ (Int.log 2 q - 52) = (2 ^ k)⁻¹ := by
    rw [show Int.log 2 q - 52 = -(k : ℤ) by omega, zpow_neg, zpow_natCast]
  have hround : roundHalfEven (q / 2 ^ (Int.log 2 q - 52)) ≤ ((n * 2 ^ k : ℕ) : ℤ) := by
    apply roundHalfEven_le
    rw [hinv, div_inv_eq_mul]
    push_cast
    exact mul_le_mul_of_nonneg_right hq (by positivity)
  rw [f64_of_pos h]
  calc (roundHalfEven (q / 2 ^ (Int.log 2 q - 52)) : ℚ) * 2 ^ (Int.log 2 q - 52)
      ≤ ((n * 2 ^ k : ℕ) : ℤ) * 2 ^ (Int.log 2 q - 52) :=
        mul_le_mul_of_nonneg_right (by exact_mod_cast hround) hulp.le
    _ = n := by
        rw [hinv]
        push_cast
        rw [mul_assoc, mul_inv_cancel₀ (by positivity), mul_one]

end float
