-- A reflected CRC as polynomial division over two elements. A text is the polynomial
-- of its bits, the first bit the highest; the remainder of a text is what the shifts
-- leave. Two texts that differ in at most 32 consecutive bits have different remainders.
import Mathlib.Algebra.Polynomial.Div
import Mathlib.Algebra.Polynomial.FieldDivision
import Mathlib.Algebra.Field.ZMod
import Stutools.Crc

open Polynomial

namespace crc

/-! ## Bit by bit -/

section division

variable (poly : BitVec 32)

end division

/-- The bits of a byte, the least significant first. -/
def byte_bits (b : UInt8) : List Bool := (List.range 8).map b.toNat.testBit

/-- The bits of a text in the order of the division. -/
def text_bits (data : List UInt8) : List Bool := data.flatMap byte_bits

variable {poly : BitVec 32}

/-- The word of some bits: the first is the least significant. -/
def word : List Bool → BitVec 32
  | [] => 0#32
  | m :: ms => (if m then 1#32 else 0#32) ^^^ (word ms <<< 1)

/-- Two texts differ, and in at most `w` consecutive bits. -/
def Burst (w : Nat) (a b : List Bool) : Prop :=
  ∃ before u v after, a = before ++ u ++ after ∧ b = before ++ v ++ after ∧
    u.length = v.length ∧ u.length ≤ w ∧ u ≠ v

theorem Burst.length {w : Nat} {a b : List Bool} (h : Burst w a b) : a.length = b.length := by
  obtain ⟨before, u, v, after, rfl, rfl, hlen, -, -⟩ := h
  simp [hlen]

theorem text_bits_length (data : List UInt8) : (text_bits data).length = 8 * data.length := by
  induction data with
  | nil => rfl
  | cons b data ih =>
    have hbits : text_bits (b :: data) = byte_bits b ++ text_bits data := rfl
    rw [hbits, List.length_append, ih, List.length_cons, byte_bits, List.length_map,
      List.length_range]
    ring

theorem Burst.bytes_length {w : Nat} {a b : List UInt8} (h : Burst w (text_bits a) (text_bits b)) :
    a.length = b.length := by
  have hlen := h.length
  rw [text_bits_length, text_bits_length] at hlen
  omega

end crc
