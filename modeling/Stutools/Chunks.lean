-- A transfer cut into pieces of a limited size: how many pieces there are,
-- where each one starts and how long it is. The pieces are the transfer in
-- order, and only the last one ends where the transfer does.
import Mathlib.Data.List.Basic
import Mathlib.Tactic.Ring

namespace chunks

variable {α : Type} {total limit k n : Nat}

/-- How many pieces of at most `limit` a transfer of `total` has. -/
def count (total limit : Nat) : Nat := (total + limit - 1) / limit

/-- The length of the piece with index `k`. -/
def size (total limit k : Nat) : Nat := min (total - k * limit) limit

/-- The first `n` pieces of the `total` elements of a list from `start` on. -/
def pieces (xs : List α) (start total limit n : Nat) : List (List α) :=
  (List.range n).map fun k => (xs.drop (start + k * limit)).take (size total limit k)

/-! ## Where the pieces are -/

theorem lt_count_iff (h : 0 < limit) : k < count total limit ↔ k * limit < total := by
  unfold count
  rw [Nat.lt_div_iff_mul_lt h]
  omega

@[simp] theorem count_zero (limit : Nat) : count 0 limit = 0 := by
  unfold count
  rcases Nat.eq_zero_or_pos limit with rfl | hpos
  · rfl
  · exact Nat.div_eq_of_lt (by omega)

/-- There are no more pieces than elements. -/
theorem count_le (h : 0 < limit) : count total limit ≤ total := by
  by_contra hlt
  have hmul := (lt_count_iff h).mp (Nat.lt_of_not_le hlt)
  have := Nat.le_mul_of_pos_right total h
  omega

theorem size_le (total limit k : Nat) : size total limit k ≤ limit := Nat.min_le_right _ _

theorem end_le (h : 0 < limit) (hk : k < count total limit) :
    k * limit + size total limit k ≤ total := by
  have := (lt_count_iff h).mp hk
  unfold size
  omega

/-- Only the last piece ends where the transfer does. -/
theorem ends_iff (h : 0 < limit) (hk : k < count total limit) :
    k * limit + size total limit k = total ↔ k + 1 = count total limit := by
  have hlt := (lt_count_iff h).mp hk
  have hnext : k + 1 < count total limit ↔ (k + 1) * limit < total := lt_count_iff h
  have hmul : (k + 1) * limit = k * limit + limit := Nat.succ_mul k limit
  unfold size
  omega

/-- The last piece starts at the last multiple of the limit before the end. -/
theorem last_start (h : 0 < limit) (htotal : 0 < total) :
    (count total limit - 1) * limit = (total - 1) / limit * limit := by
  unfold count
  have : total + limit - 1 = total - 1 + limit := by omega
  rw [this, Nat.add_div_right _ h, Nat.succ_sub_one]

/-! ## What the pieces hold -/

variable {xs : List α} {start : Nat}

theorem pieces_take (h : k ≤ n) :
    (pieces xs start total limit n).take k = pieces xs start total limit k := by
  unfold pieces
  rw [← List.map_take, List.take_range, Nat.min_eq_left h]

/-- The first pieces are the first elements of the transfer. -/
theorem pieces_flatten (xs : List α) (start total limit n : Nat) :
    (pieces xs start total limit n).flatten = (xs.drop start).take (min (n * limit) total) := by
  induction n with
  | zero => simp [pieces]
  | succ n ih =>
    have hmul : (n + 1) * limit = n * limit + limit := Nat.succ_mul n limit
    have hsplit : pieces xs start total limit (n + 1) = pieces xs start total limit n ++
        [(xs.drop (start + n * limit)).take (size total limit n)] := by
      simp [pieces, List.range_succ]
    have hsize : min ((n + 1) * limit) total =
        min (n * limit) total + size total limit n := by
      unfold size
      omega
    rw [hsplit, List.flatten_append, List.flatten_singleton, ih, hsize, List.take_add,
      List.drop_drop]
    by_cases hn : n * limit ≤ total
    · rw [Nat.min_eq_left hn]
    · have hzero : size total limit n = 0 := by
        unfold size
        omega
      simp [hzero]

/-- All of the pieces are the whole transfer. -/
theorem pieces_count (h : 0 < limit) :
    (pieces xs start total limit (count total limit)).flatten = (xs.drop start).take total := by
  have hlast : ¬ count total limit < count total limit := Nat.lt_irrefl _
  rw [lt_count_iff h] at hlast
  rw [pieces_flatten, Nat.min_eq_right (Nat.le_of_not_lt hlast)]

end chunks
