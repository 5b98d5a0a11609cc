-- Byte memory: a total map from addresses to bytes, read and written in
-- extents. A read sees the last write of its bytes, and a write changes
-- nothing outside its extent.
import Mathlib.Data.List.Basic
import Mathlib.Data.List.Range

namespace memory

/-- A device, or the buffer of one slot: the byte at each address. -/
def Memory := Nat → UInt8

/-- Whether the extents `[a, a + m)` and `[b, b + n)` share a byte or, for an
empty one, whether it lies strictly inside the other. -/
def Overlap (a m b n : Nat) : Prop := a < b + n ∧ b < a + m

instance (a m b n : Nat) : Decidable (Overlap a m b n) := inferInstanceAs (Decidable (_ ∧ _))

theorem overlap_comm (a m b n : Nat) : Overlap a m b n ↔ Overlap b n a m := and_comm

namespace Memory

def zero : Memory := fun _ => 0

/-- The `len` bytes from `start` on. -/
def read (m : Memory) (start len : Nat) : List UInt8 :=
  (List.range len).map fun i => m (start + i)

/-- The memory after the bytes are stored from `start` on. -/
def write (m : Memory) (start : Nat) (bytes : List UInt8) : Memory := fun x =>
  if start ≤ x then bytes.getD (x - start) (m x) else m x

@[simp] theorem read_length (m : Memory) (start len : Nat) : (m.read start len).length = len := by
  simp [read]

theorem read_getElem? (m : Memory) (start len i : Nat) (h : i < len) :
    (m.read start len)[i]? = some (m (start + i)) := by
  simp [read, h]

theorem read_getElem (m : Memory) (start len i : Nat) (h : i < (m.read start len).length) :
    (m.read start len)[i] = m (start + i) := by
  simp [read]

theorem read_append (m : Memory) (start len len' : Nat) :
    m.read start (len + len') = m.read start len ++ m.read (start + len) len' := by
  unfold read
  rw [List.range_add, List.map_append, List.map_map]
  congr 1
  apply List.map_congr_left
  intro i _
  rw [Function.comp_apply, Nat.add_assoc]

theorem read_congr {m m' : Memory} {start len : Nat}
    (h : ∀ x, start ≤ x → x < start + len → m x = m' x) : m.read start len = m'.read start len := by
  unfold read
  apply List.map_congr_left
  intro i hi
  exact h _ (by omega) (by have := List.mem_range.mp hi; omega)

theorem write_apply_of_lt {m : Memory} {start x : Nat} {bytes : List UInt8} (h : x < start) :
    m.write start bytes x = m x := by
  simp [write, Nat.not_le.mpr h]

theorem write_apply_of_ge {m : Memory} {start x : Nat} {bytes : List UInt8}
    (h : start + bytes.length ≤ x) : m.write start bytes x = m x := by
  unfold write
  split
  · rw [List.getD_eq_getElem?_getD, List.getElem?_eq_none (by omega)]
    rfl
  · rfl

theorem write_apply_mem {m : Memory} {start i : Nat} {bytes : List UInt8}
    (h : i < bytes.length) : m.write start bytes (start + i) = bytes[i] := by
  simp [write, h]

/-- The bytes stored from the first address on. -/
theorem write_zero_apply {m : Memory} {bytes : List UInt8} {i : Nat} (h : i < bytes.length) :
    m.write 0 bytes i = bytes[i] := by
  simp [write, h]

/-- A read of the extent just written gives its bytes. -/
theorem read_write_self (m : Memory) (start : Nat) (bytes : List UInt8) :
    (m.write start bytes).read start bytes.length = bytes := by
  apply List.ext_getElem
  · simp
  · intro i h1 h2
    simp only [read, List.getElem_map, List.getElem_range]
    exact write_apply_mem h2

/-- A read of an extent that does not overlap the write sees the old bytes. -/
theorem read_write_disjoint {m : Memory} {start a len : Nat} {bytes : List UInt8}
    (h : ¬ Overlap start bytes.length a len) :
    (m.write start bytes).read a len = m.read a len := by
  apply read_congr
  intro x h1 h2
  unfold Overlap at h
  by_cases hx : x < start
  · exact write_apply_of_lt hx
  · exact write_apply_of_ge (by omega)

end Memory

end memory
