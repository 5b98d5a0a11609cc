-- The pattern of the C engine: the bytes that `generateRandomBuffer` puts into a
-- buffer for a seed. The pattern repeats every 4096 bytes, and the copies are
-- whole ones, so that a buffer of another size is written past its end.
import Mathlib.Algebra.Group.Nat.Defs
import Stutools.Memory

open memory

namespace stutools.spit

/-- `cyclic` as `generateRandomBuffer` gives it. -/
def CYCLIC : Nat := 4096

/-- One round of the generator in glibc's `rand_r`. -/
def rand_round (next : Nat) : Nat := (next * 1103515245 + 12345) % 2 ^ 32

/-- `rand_r` as glibc has it: the value drawn, and the seed left. Nothing below rests
on this generator; it is the one that runs on Linux. -/
def glibc_rand_r (seed : Nat) : Nat × Nat :=
  let first := rand_round seed
  let second := rand_round first
  let third := rand_round second
  let result := first / 65536 % 2048
  let result := (result * 1024) ^^^ (second / 65536 % 1024)
  let result := (result * 1024) ^^^ (third / 65536 % 1024)
  (result, third)

section pattern

variable (rand_r : Nat → Nat × Nat)

/-- The first byte of a cycle: a draw of `rand_r`, the value and the seed left. -/
def verystartpoint (seed : Nat) : Nat := ' '.toNat + (rand_r seed).1 % 30

def jump (seed : Nat) : Nat := (rand_r (rand_r seed).2).1 % 3 + 1

/-- `startpoint` at byte `j` of a cycle. -/
def startpoint (seed : Nat) : Nat → Nat
  | 0 => verystartpoint rand_r seed
  | j + 1 =>
    if startpoint seed j + jump rand_r seed > 'z'.toNat then verystartpoint rand_r seed
    else startpoint seed j + jump rand_r seed

/-- The first cycle of a buffer. -/
def cycle (seed cyclic : Nat) : List UInt8 :=
  (List.range cyclic).map fun j => UInt8.ofNat (startpoint rand_r seed j)

/-- The cycle at the start of the buffer, copied behind itself until `size` is reached. -/
def copy_cycles (m : Memory) (buffer size cyclic : Nat) : Memory :=
  (List.range ((size - 1) / cyclic)).foldl
    (fun m k => m.write (buffer + (k + 1) * cyclic) (m.read buffer cyclic)) m

def generateRandomBufferCyclic (m : Memory) (buffer size seed cyclic : Nat) : Memory :=
  let cyclic := if cyclic > size then size else cyclic
  copy_cycles (m.write buffer (cycle rand_r seed cyclic)) buffer size cyclic

def generateRandomBuffer (m : Memory) (buffer size seed : Nat) : Memory :=
  generateRandomBufferCyclic rand_r m buffer size seed CYCLIC

/-- The byte of a seed's pattern at an offset. -/
def pattern_byte (seed j : Nat) : UInt8 := UInt8.ofNat (startpoint rand_r seed (j % CYCLIC))

/-- The bytes of a seed's pattern from offset `start` on. -/
def pattern (seed start len : Nat) : List UInt8 :=
  (List.range len).map fun j => pattern_byte rand_r seed (start + j)

end pattern

/-- How many bytes of a buffer of `size` bytes are written. -/
def span (size : Nat) : Nat :=
  if size ≤ CYCLIC then size else ((size - 1) / CYCLIC + 1) * CYCLIC

theorem le_span (size : Nat) : size ≤ span size := by
  unfold span CYCLIC
  split <;> omega

/-- The size is one whose last cycle ends with the buffer. -/
def Whole (size : Nat) : Prop := size ≤ CYCLIC ∨ CYCLIC ∣ size

instance (size : Nat) : Decidable (Whole size) := inferInstanceAs (Decidable (_ ∨ _))

/-- The copies end with the buffer exactly for a whole size. -/
theorem span_eq_iff (size : Nat) : span size = size ↔ Whole size := by
  unfold span Whole CYCLIC
  split
  · simp [*]
  · constructor
    · intro h
      exact Or.inr ⟨(size - 1) / 4096 + 1, by omega⟩
    · rintro (h | ⟨k, rfl⟩) <;> omega

/-- A shorter buffer inside one of a whole size is written inside it. -/
theorem span_le_of_whole {len size : Nat} (h : len ≤ size) (hsize : Whole size) :
    span len ≤ size := by
  unfold span
  unfold Whole at hsize
  unfold CYCLIC at *
  split
  · exact h
  · obtain hle | ⟨k, rfl⟩ := hsize
    · omega
    · omega

/-! ## What a fill writes -/

variable (rand_r : Nat → Nat × Nat)

/-- After `k` copies the first `k + 1` cycles of the buffer are the pattern. -/
theorem foldl_copies (m : Memory) (buffer cyclic : Nat) (f : Nat → UInt8)
    (hm : ∀ j, j < cyclic → m (buffer + j) = f j) (k : Nat) (x : Nat) :
    (List.range k).foldl (fun m k => m.write (buffer + (k + 1) * cyclic) (m.read buffer cyclic)) m x =
      if buffer + cyclic ≤ x ∧ x < buffer + (k + 1) * cyclic then f ((x - buffer) % cyclic)
      else m x := by
  induction k generalizing x with
  | zero =>
    rw [if_neg (by omega)]
    rfl
  | succ k ih =>
    rw [List.range_succ, List.foldl_append]
    simp only [List.foldl_cons, List.foldl_nil]
    have hend : (k + 1 + 1) * cyclic = (k + 1) * cyclic + cyclic := Nat.succ_mul _ _
    have hstart : cyclic ≤ (k + 1) * cyclic := Nat.le_mul_of_pos_left _ (by omega)
    by_cases hlo : x < buffer + (k + 1) * cyclic
    · rw [Memory.write_apply_of_lt hlo, ih]
      congr 1
      simp only [eq_iff_iff]
      omega
    · by_cases hhi : x < buffer + (k + 1 + 1) * cyclic
      · obtain ⟨j, rfl⟩ : ∃ j, x = buffer + (k + 1) * cyclic + j :=
          ⟨x - (buffer + (k + 1) * cyclic), by omega⟩
        have hj : j < cyclic := by omega
        rw [Memory.write_apply_mem (by simpa using hj), if_pos (by omega)]
        have hmod : (buffer + (k + 1) * cyclic + j - buffer) % cyclic = j := by
          rw [show buffer + (k + 1) * cyclic + j - buffer = j + cyclic * (k + 1) by
            rw [Nat.mul_comm cyclic]; omega, Nat.add_mul_mod_self_left, Nat.mod_eq_of_lt hj]
        rw [hmod, ← hm j hj, Memory.read_getElem, ih, if_neg (by omega)]
      · rw [Memory.write_apply_of_ge (by simp; omega), ih, if_neg (by omega), if_neg (by omega)]

/-- A fill writes the seed's pattern over the span of its size, and nothing else. -/
theorem generateRandomBuffer.spec (m : Memory) (buffer size seed x : Nat) :
    generateRandomBuffer rand_r m buffer size seed x =
      if buffer ≤ x ∧ x < buffer + span size then pattern_byte rand_r seed (x - buffer) else m x := by
  unfold generateRandomBuffer generateRandomBufferCyclic copy_cycles
  generalize hc : (if CYCLIC > size then size else CYCLIC) = cyclic
  have hcyc : cyclic ≤ CYCLIC := by split at hc <;> omega
  have hlen : (cycle rand_r seed cyclic).length = cyclic := by simp [cycle]
  have hfirst : ∀ j, j < cyclic → (m.write buffer (cycle rand_r seed cyclic)) (buffer + j) =
      pattern_byte rand_r seed j := by
    intro j hj
    rw [Memory.write_apply_mem (by omega)]
    simp only [cycle, List.getElem_map, List.getElem_range, pattern_byte]
    rw [Nat.mod_eq_of_lt (by omega)]
  rw [foldl_copies _ _ _ (pattern_byte rand_r seed) hfirst]
  have hspan : span size = ((size - 1) / cyclic + 1) * cyclic := by
    unfold span
    by_cases hsize : CYCLIC < size
    · rw [if_neg (by omega)]
      rw [if_neg (by omega)] at hc
      rw [hc]
    · rw [if_pos (by omega)]
      have hceq : cyclic = size := by split at hc <;> omega
      subst hceq
      rcases Nat.eq_zero_or_pos cyclic with h0 | h0
      · rw [h0]
      · rw [Nat.div_eq_of_lt (by omega)]
        omega
  have hge : cyclic ≤ span size := by
    rw [hspan]
    exact Nat.le_mul_of_pos_left _ (Nat.succ_pos _)
  rw [← hspan]
  by_cases hx : buffer ≤ x ∧ x < buffer + span size
  · rw [if_pos hx]
    by_cases hx2 : x < buffer + cyclic
    · obtain ⟨j, rfl⟩ : ∃ j, x = buffer + j := ⟨x - buffer, by omega⟩
      rw [if_neg (by omega), hfirst j (by omega), Nat.add_sub_cancel_left]
    · rw [if_pos (by omega)]
      -- a second cycle is only there when the cycles have 4096 bytes
      have hfull : cyclic = CYCLIC := by
        unfold span at hx hspan
        split at hc
        · rw [if_pos (by omega)] at hx
          omega
        · omega
      rw [hfull]
      simp [pattern_byte]
  · rw [if_neg hx, if_neg (by omega)]
    by_cases hlo : x < buffer
    · exact Memory.write_apply_of_lt hlo
    · exact Memory.write_apply_of_ge (by omega)

end stutools.spit
