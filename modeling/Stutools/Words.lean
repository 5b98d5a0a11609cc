-- Steps of a 64-bit mixing function that lose nothing: a shift xored into its
-- word, and a product with an odd constant. Both are injective, and so is what
-- they compose to.
import Mathlib.Data.UInt
import Mathlib.Tactic.Ring
import Stutools.Bytes

namespace words

/-- A word that a shift to the right leaves as it is has no bit. -/
theorem eq_zero_of_shiftRight {d k : UInt64} (hk : 0 < k.toNat % 64) (h : d >>> k = d) : d = 0 := by
  have hnat := congrArg UInt64.toNat h
  rw [UInt64.toNat_shiftRight, Nat.shiftRight_eq_div_pow] at hnat
  have hpow : 2 ≤ 2 ^ (k.toNat % 64) := Nat.le_self_pow (by omega) 2
  have hle : d.toNat / 2 ^ (k.toNat % 64) ≤ d.toNat / 2 := Nat.div_le_div_left hpow (by decide)
  apply UInt64.toNat_inj.mp
  rw [UInt64.toNat_zero]
  omega

theorem shiftRight_xor (x y k : UInt64) : (x ^^^ y) >>> k = (x >>> k) ^^^ (y >>> k) := by
  apply UInt64.toNat_inj.mp
  simp only [UInt64.toNat_shiftRight, UInt64.toNat_xor, Nat.shiftRight_xor_distrib]

/-- Xoring a word with a shift of it to the right loses nothing. -/
theorem xorshift_injective {k : UInt64} (hk : 0 < k.toNat % 64) :
    Function.Injective fun x : UInt64 => x ^^^ (x >>> k) := by
  intro x y h
  have hxor : x ^^^ (x >>> k) = y ^^^ (y >>> k) := h
  have hshift : (x ^^^ y) >>> k = x ^^^ y := by
    calc (x ^^^ y) >>> k = (x ^^^ (x ^^^ (x >>> k))) ^^^ (y >>> k) := by
          rw [shiftRight_xor, ← UInt64.xor_assoc, UInt64.xor_self, UInt64.zero_xor]
      _ = x ^^^ y := by
          rw [hxor, UInt64.xor_assoc, UInt64.xor_assoc, UInt64.xor_self, UInt64.xor_zero]
  have hzero := eq_zero_of_shiftRight hk hshift
  exact UInt64.xor_eq_zero_iff.mp hzero

/-- A product with a word that has an inverse loses nothing. -/
theorem mul_injective {c d : UInt64} (h : c * d = 1) : Function.Injective fun x : UInt64 => x * c := by
  intro x y hxy
  have hmul := congrArg (· * d) hxy
  simp only [UInt64.mul_assoc, h, UInt64.mul_one] at hmul
  exact hmul

end words
