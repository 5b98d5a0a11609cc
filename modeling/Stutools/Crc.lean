-- A reflected 32-bit CRC, one table word for each byte. Each word is eight
-- shifts of the remainder, and a shift loses nothing when the polynomial has
-- its top bit, so a digest tells apart any two texts that differ in one byte.
import Mathlib.Data.List.Basic
import Mathlib.Logic.Function.Basic

namespace crc

section table

variable (poly : BitVec 32)

/-- One shift of the remainder. -/
def bit (c : BitVec 32) : BitVec 32 :=
  if c.getLsbD 0 then (c >>> 1) ^^^ poly else c >>> 1

def bits : Nat → BitVec 32 → BitVec 32
  | 0, c => c
  | n + 1, c => bits n (bit poly c)

/-- Eight shifts of each byte. -/
def table : List (BitVec 32) := (List.range 256).map fun i => bits poly 8 (BitVec.ofNat 32 i)

/-- The step of the loop over the bytes. -/
def byte (c : BitVec 32) (b : UInt8) : BitVec 32 :=
  (table poly).getD ((c ^^^ BitVec.ofNat 32 b.toNat) &&& 0xff#32).toNat 0 ^^^ (c >>> 8)

/-- The digest of the bytes. -/
def digest (data : List UInt8) : BitVec 32 := ~~~ (data.foldl (byte poly) (~~~ 0#32))

end table

variable {poly : BitVec 32}

/-! ## A table word is eight shifts -/

theorem bit_xor (a b : BitVec 32) : bit poly (a ^^^ b) = bit poly a ^^^ bit poly b := by
  have hdist : (a ^^^ b) >>> 1 = (a >>> 1) ^^^ (b >>> 1) := BitVec.ushiftRight_xor_distrib a b 1
  unfold bit
  rw [hdist, BitVec.getLsbD_xor]
  cases a.getLsbD 0
  · cases b.getLsbD 0
    · simp
    · simp [BitVec.xor_assoc]
  · cases b.getLsbD 0
    · simp only [Bool.xor_false, if_true, Bool.false_eq_true, if_false]
      ac_rfl
    · -- the two polynomials cancel
      have hcancel : (a >>> 1 ^^^ poly) ^^^ (b >>> 1 ^^^ poly) =
          (a >>> 1 ^^^ b >>> 1) ^^^ (poly ^^^ poly) := by ac_rfl
      simp [hcancel]

theorem bits_xor (n : Nat) (a b : BitVec 32) :
    bits poly n (a ^^^ b) = bits poly n a ^^^ bits poly n b := by
  induction n generalizing a b with
  | zero => rfl
  | succ n ih => rw [bits, bits, bits, bit_xor, ih]

/-- A remainder whose low bits are clear only moves down. -/
theorem bits_of_low_clear (n : Nat) (a : BitVec 32) (h : ∀ i, i < n → a.getLsbD i = false) :
    bits poly n a = a >>> n := by
  induction n generalizing a with
  | zero => simp [bits]
  | succ n ih =>
    have hbit : bit poly a = a >>> 1 := by
      unfold bit
      rw [h 0 (by omega), if_neg (by decide)]
    rw [bits, hbit, ih]
    · rw [Nat.add_comm, BitVec.shiftRight_add]
    · intro i hi
      rw [BitVec.getLsbD_ushiftRight]
      exact h _ (by omega)

theorem getLsbD_low_mask (i : Nat) : (0xff#32).getLsbD i = decide (i < 8) := by
  have h255 : (255 : Nat) = 2 ^ 8 - 1 := rfl
  rw [BitVec.getLsbD_ofNat, h255, Nat.testBit_two_pow_sub_one]
  by_cases h : i < 8
  · simp [h, Nat.lt_trans h (by decide : 8 < 32)]
  · simp [h]

/-- Eight shifts act on the low byte; the rest moves down. -/
theorem bits_eight (a : BitVec 32) :
    bits poly 8 a = bits poly 8 (a &&& 0xff#32) ^^^ (a >>> 8) := by
  have hsplit : a = (a &&& 0xff#32) ^^^ (a &&& ~~~ 0xff#32) := by
    apply BitVec.eq_of_getLsbD_eq
    intro i hi
    rw [BitVec.getLsbD_xor, BitVec.getLsbD_and, BitVec.getLsbD_and, BitVec.getLsbD_not]
    cases a.getLsbD i <;> cases (0xff#32).getLsbD i <;> simp [hi]
  have hhigh : bits poly 8 (a &&& ~~~ 0xff#32) = a >>> 8 := by
    rw [bits_of_low_clear]
    · apply BitVec.eq_of_getLsbD_eq
      intro i hi
      rw [BitVec.getLsbD_ushiftRight, BitVec.getLsbD_ushiftRight, BitVec.getLsbD_and,
        BitVec.getLsbD_not, getLsbD_low_mask]
      by_cases h : 8 + i < 32
      · simp [h]
      · simp [BitVec.getLsbD_of_ge a (8 + i) (by omega)]
    · intro i hi
      rw [BitVec.getLsbD_and, BitVec.getLsbD_not, getLsbD_low_mask]
      simp [hi]
  rw [← hhigh, ← bits_xor, ← hsplit]

/-- The step of the loop is eight shifts of the remainder with the byte in it. -/
theorem byte_eq (c : BitVec 32) (b : UInt8) :
    byte poly c b = bits poly 8 (c ^^^ BitVec.ofNat 32 b.toNat) := by
  have hb : BitVec.ofNat 32 b.toNat >>> 8 = 0#32 := by
    apply BitVec.eq_of_toNat_eq
    have := b.toNat_lt
    simp [Nat.shiftRight_eq_div_pow]
    omega
  have hlow : ∀ a : BitVec 32, (a &&& 0xff#32).toNat < 256 := by
    intro a
    rw [BitVec.toNat_and]
    exact Nat.lt_of_le_of_lt Nat.and_le_right (by decide)
  have hentry : ∀ i, i < 256 → (table poly).getD i 0 = bits poly 8 (BitVec.ofNat 32 i) := by
    intro i hi
    simp [table, hi]
  unfold byte
  rw [hentry _ (hlow _), BitVec.ofNat_toNat, BitVec.setWidth_eq,
    bits_eight (c ^^^ BitVec.ofNat 32 b.toNat), BitVec.ushiftRight_xor_distrib, hb, BitVec.xor_zero]

/-! ## A shift loses nothing -/

section injective

variable (hpoly : poly.getLsbD 31 = true)

include hpoly

/-- The bit that leaves the remainder is the top bit of the next one. -/
theorem bit_top (a : BitVec 32) : (bit poly a).getLsbD 31 = a.getLsbD 0 := by
  have htop : (a >>> 1).getLsbD 31 = false := by
    rw [BitVec.getLsbD_ushiftRight]
    exact BitVec.getLsbD_of_ge a 32 (by omega)
  unfold bit
  cases h : a.getLsbD 0
  · rw [if_neg (by decide)]
    exact htop
  · simp only [if_true, BitVec.getLsbD_xor, htop, hpoly, Bool.false_xor]

theorem bit_injective : Function.Injective (bit poly) := by
  intro a b h
  have h0 : a.getLsbD 0 = b.getLsbD 0 := by rw [← bit_top hpoly, ← bit_top hpoly, h]
  have hshift : a >>> 1 = b >>> 1 := by
    unfold bit at h
    rw [h0] at h
    split at h
    · exact (BitVec.xor_left_inj _).mp h
    · exact h
  apply BitVec.eq_of_getLsbD_eq
  intro i _
  cases i with
  | zero => exact h0
  | succ i =>
    have hi := congrArg (fun x => x.getLsbD i) hshift
    simpa [BitVec.getLsbD_ushiftRight, Nat.add_comm] using hi

theorem bits_injective (n : Nat) : Function.Injective (bits poly n) := by
  induction n with
  | zero => exact fun _ _ h => h
  | succ n ih => exact fun a b h => bit_injective hpoly (ih h)

theorem foldl_injective (data : List UInt8) :
    Function.Injective fun c => data.foldl (byte poly) c := by
  induction data with
  | nil => exact fun _ _ h => h
  | cons b data ih =>
    intro a c h
    have hbyte : byte poly a b = byte poly c b := ih h
    rw [byte_eq, byte_eq] at hbyte
    exact (BitVec.xor_left_inj _).mp (bits_injective hpoly 8 hbyte)

/-- Two texts that differ in one byte have different digests. -/
theorem digest_ne_of_byte_ne (before after : List UInt8) {b b' : UInt8} (hb : b ≠ b') :
    digest poly (before ++ b :: after) ≠ digest poly (before ++ b' :: after) := by
  intro h
  have hfold := BitVec.not_inj.mp h
  rw [List.foldl_append, List.foldl_append, List.foldl_cons, List.foldl_cons] at hfold
  have hbyte := foldl_injective hpoly after hfold
  rw [byte_eq, byte_eq] at hbyte
  have hxor := (BitVec.xor_right_inj _).mp (bits_injective hpoly 8 hbyte)
  have hnat := congrArg BitVec.toNat hxor
  have h1 := b.toNat_lt
  have h2 := b'.toNat_lt
  rw [BitVec.toNat_ofNat, BitVec.toNat_ofNat, Nat.mod_eq_of_lt (by omega),
    Nat.mod_eq_of_lt (by omega)] at hnat
  exact hb (UInt8.toNat_inj.mp hnat)

end injective

end crc
