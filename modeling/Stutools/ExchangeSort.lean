-- The exchange sort: each place in turn takes the least of what is behind it. It sorts by any
-- key whose order the comparison tells, and does nothing to a list that is sorted.
import Mathlib.Data.List.Basic
import Mathlib.Order.Lattice

namespace exchange_sort

variable {α κ : Type*} (gt : α → α → Bool)

/-- The inner loop: what one place holds in the end, and the places behind it. -/
def settle (x : α) : List α → α × List α
  | [] => (x, [])
  | y :: ys =>
    if gt x y then
      let (least, rest) := settle y ys
      (least, x :: rest)
    else
      let (least, rest) := settle x ys
      (least, y :: rest)

theorem settle_perm (x : α) (ys : List α) :
    ((settle gt x ys).1 :: (settle gt x ys).2).Perm (x :: ys) := by
  induction ys generalizing x with
  | nil => exact .refl _
  | cons y ys ih =>
    unfold settle
    split
    · exact (List.Perm.swap _ _ _).trans ((ih y).cons x)
    · exact (List.Perm.swap _ _ _).trans (((ih x).cons y).trans (.swap x y ys))

theorem settle_length (x : α) (ys : List α) : (settle gt x ys).2.length = ys.length :=
  Nat.succ.inj (settle_perm gt x ys).length_eq

def sort : List α → List α
  | [] => []
  | x :: xs => (settle gt x xs).1 :: sort (settle gt x xs).2
termination_by l => l.length
decreasing_by
  rw [settle_length]
  exact Nat.lt_succ_self _

theorem sort_perm (l : List α) : (sort gt l).Perm l := by
  induction l using sort.induct gt with
  | case1 =>
    rw [sort]
  | case2 x xs ih =>
    rw [sort]
    exact (ih.cons _).trans (settle_perm gt x xs)

variable {gt} [LinearOrder κ] {key : α → κ} (hgt : ∀ a b, gt a b ↔ key b < key a)
include hgt

theorem settle_least (x : α) (ys : List α) :
    ∀ y ∈ x :: ys, key (settle gt x ys).1 ≤ key y := by
  induction ys generalizing x with
  | nil => simp [settle]
  | cons y ys ih =>
    unfold settle
    split
    · rename_i hxy
      have hy := ih y
      exact List.forall_mem_cons.mpr
        ⟨le_trans (hy y List.mem_cons_self) (le_of_lt ((hgt x y).mp hxy)), hy⟩
    · rename_i hxy
      obtain ⟨hx, hys⟩ := List.forall_mem_cons.mp (ih x)
      have hle : key x ≤ key y := not_lt.mp fun h => hxy ((hgt x y).mpr h)
      exact List.forall_mem_cons.mpr ⟨hx, List.forall_mem_cons.mpr ⟨le_trans hx hle, hys⟩⟩

theorem sort_sorted (l : List α) : (sort gt l).Pairwise fun a b => key a ≤ key b := by
  induction l using sort.induct gt with
  | case1 =>
    rw [sort]
    exact .nil
  | case2 x xs ih =>
    rw [sort]
    refine List.pairwise_cons.mpr ⟨fun y hy => ?_, ih⟩
    have hmem := (settle_perm gt x xs).subset (List.mem_cons_of_mem _ ((sort_perm gt _).subset hy))
    exact settle_least hgt x xs y hmem

theorem settle_eq_self {x : α} {ys : List α} (h : ∀ y ∈ ys, key x ≤ key y) :
    settle gt x ys = (x, ys) := by
  induction ys with
  | nil => rfl
  | cons y ys ih =>
    obtain ⟨hy, hys⟩ := List.forall_mem_cons.mp h
    unfold settle
    rw [if_neg fun hlt => absurd ((hgt x y).mp hlt) (not_lt.mpr hy), ih hys]

/-- A sorted list stays as it is. -/
theorem sort_eq_self {l : List α} (h : l.Pairwise fun a b => key a ≤ key b) : sort gt l = l := by
  induction l with
  | nil => rw [sort]
  | cons x xs ih =>
    obtain ⟨hx, hxs⟩ := List.pairwise_cons.mp h
    rw [sort, settle_eq_self hgt hx, ih hxs]

theorem sort_sort (l : List α) : sort gt (sort gt l) = sort gt l :=
  sort_eq_self hgt (sort_sorted hgt l)

end exchange_sort
