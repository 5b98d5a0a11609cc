-- The two roundings of the position builders (src/c/spit/utils.c): a number to a multiple of
-- the alignment, and a random value to an aligned block between two bounds.
import Mathlib.Data.Nat.Bits
import Mathlib.Algebra.Order.Ring.Nat

namespace stutools.spit

def alignedNumber (num alignment : Nat) : Nat :=
  if alignment ≠ 0 then
    let ret := num / alignment
    (if num % alignment > num / 2 then ret + 1 else ret) * alignment
  else num

/-- None when one of the two assertions fails. -/
def randomBlockSize (lowbsBytes highbsBytes alignmentbits randomValue : Nat) : Option Nat :=
  if highbsBytes = 0 then some 0
  else
    let lowbs_k := lowbsBytes / 2 ^ alignmentbits
    let highbs_k := highbsBytes / 2 ^ alignmentbits
    let randombs_k :=
      if highbs_k > lowbs_k then lowbs_k + randomValue / 2 ^ alignmentbits else lowbs_k
    let randombs := randombs_k * 2 ^ alignmentbits % 2 ^ 64
    if randombs ≥ lowbsBytes ∧ randombs ≤ highbsBytes then some randombs else none

namespace randomBlockSize

variable {lo hi bits randomValue pos : Nat}

theorem bounds (h : randomBlockSize lo hi bits randomValue = some pos) (hhi : 0 < hi) :
    lo ≤ pos ∧ pos ≤ hi := by
  unfold randomBlockSize at h
  rw [if_neg hhi.ne'] at h
  dsimp only at h
  obtain ⟨hbounds, heq⟩ := Option.ite_none_right_eq_some.mp h
  cases heq
  exact hbounds

theorem aligned (h : randomBlockSize lo hi bits randomValue = some pos) (hbits : bits ≤ 64) :
    2 ^ bits ∣ pos := by
  unfold randomBlockSize at h
  split at h
  · cases h
    exact Nat.dvd_zero _
  · dsimp only at h
    obtain ⟨-, heq⟩ := Option.ite_none_right_eq_some.mp h
    cases heq
    exact (Nat.dvd_mod_iff (Nat.pow_dvd_pow 2 hbits)).mpr (Nat.dvd_mul_left _ _)

/-- A value below the length of the range gives a block that begins before its end. -/
theorem lt (h : randomBlockSize lo hi bits randomValue = some pos) (hrange : lo < hi)
    (hvalue : randomValue < hi - lo) : pos < hi := by
  unfold randomBlockSize at h
  rw [if_neg (by omega)] at h
  dsimp only at h
  obtain ⟨-, heq⟩ := Option.ite_none_right_eq_some.mp h
  cases heq
  refine (Nat.mod_le _ _).trans_lt ?_
  split
  · calc (lo / 2 ^ bits + randomValue / 2 ^ bits) * 2 ^ bits
        = lo / 2 ^ bits * 2 ^ bits + randomValue / 2 ^ bits * 2 ^ bits := Nat.add_mul _ _ _
      _ ≤ lo + randomValue := Nat.add_le_add (Nat.div_mul_le_self _ _) (Nat.div_mul_le_self _ _)
      _ < hi := by omega
  · exact (Nat.div_mul_le_self _ _).trans_lt hrange

end randomBlockSize

end stutools.spit
