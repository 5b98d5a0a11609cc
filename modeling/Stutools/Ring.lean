-- A queue kept in a ring: a vector with a head and a tail cursor that each go
-- round its end. The entries from the head on are the queue; taking one moves
-- the head, and putting one moves the tail.
import Mathlib.Data.List.Basic
import Mathlib.Data.List.Range
import Mathlib.Data.Nat.ModEq

namespace ring

variable {α : Type} {n : Nat}

/-- The cursor one place on, round the end of a ring of `n` places. -/
def next (n i : Nat) : Nat := if i + 1 = n then 0 else i + 1

theorem next_lt {i : Nat} (h : i < n) : next n i < n := by
  unfold next
  split <;> omega

theorem next_eq_mod {i : Nat} (h : i < n) : next n i = (i + 1) % n := by
  unfold next
  split
  · rename_i hi
    rw [hi, Nat.mod_self]
  · rw [Nat.mod_eq_of_lt (by omega)]

/-- The `k` entries from `head` on, round the end; `d` stands for a missing one. -/
def window (q : List α) (d : α) (head k : Nat) : List α :=
  (List.range k).map fun i => q.getD ((head + i) % q.length) d

@[simp] theorem window_length (q : List α) (d : α) (head k : Nat) :
    (window q d head k).length = k := by
  simp [window]

/-- The queue of the whole ring, from its first place, is the vector. -/
theorem window_all (q : List α) (d : α) : window q d 0 q.length = q := by
  apply List.ext_getElem
  · simp
  · intro i h1 h2
    simp [window, Nat.mod_eq_of_lt h2, h2]

theorem add_mod_ne (head : Nat) {i j : Nat} (hij : i < j) (hj : j < n) :
    (head + i) % n ≠ (head + j) % n := by
  intro h
  have hmod : i % n = j % n := Nat.ModEq.add_left_cancel' head h
  rw [Nat.mod_eq_of_lt (by omega), Nat.mod_eq_of_lt hj] at hmod
  omega

/-- Taking the entry at the head: the rest of the queue is from the next place
on, whatever is left at the head. -/
theorem window_take {q : List α} {head k : Nat} (d x : α) (hhead : head < q.length)
    (hk : k < q.length) :
    window q d head (k + 1) =
      q.getD head d :: window (q.set head x) d (next q.length head) k := by
  unfold window
  rw [List.range_succ_eq_map, List.map_cons, List.map_map, List.length_set]
  congr 1
  · rw [Nat.add_zero, Nat.mod_eq_of_lt hhead]
  · apply List.map_congr_left
    intro i hi
    rw [List.mem_range] at hi
    have hplace : (next q.length head + i) % q.length = (head + (i + 1)) % q.length := by
      rw [next_eq_mod hhead, Nat.mod_add_mod]
      congr 1
      omega
    have hne : head ≠ (head + (i + 1)) % q.length := by
      have h := add_mod_ne head (show 0 < i + 1 by omega) (show i + 1 < q.length by omega)
      rwa [Nat.add_zero, Nat.mod_eq_of_lt hhead] at h
    rw [hplace, Function.comp_apply, List.getD_eq_getElem?_getD, List.getD_eq_getElem?_getD,
      List.getElem?_set_ne hne]

/-- Putting an entry at the tail: it is the last of the queue. -/
theorem window_put {q : List α} {head k : Nat} (d x : α) (hk : k < q.length) :
    window (q.set ((head + k) % q.length) x) d head (k + 1) = window q d head k ++ [x] := by
  have hpos : (head + k) % q.length < q.length := Nat.mod_lt _ (by omega)
  unfold window
  rw [List.range_succ, List.map_append, List.length_set]
  congr 1
  · apply List.map_congr_left
    intro i hi
    rw [List.mem_range] at hi
    have hne := add_mod_ne head hi hk
    rw [List.getD_eq_getElem?_getD, List.getD_eq_getElem?_getD, List.getElem?_set_ne hne.symm]
  · simp [hpos]

end ring
