-- Lists that are sorted by a key, cut into the buckets of its values: the buckets one
-- after the other are the list, and a sum over them is a sum over it.
import Mathlib.Algebra.BigOperators.Group.List.Basic
import Mathlib.Data.List.Basic

namespace buckets

variable {α : Type*}

/-- The elements of a list with one key, in the list's order. -/
def bucket (key : α → Nat) (i : Nat) (l : List α) : List α := l.filter fun a => key a = i

variable {key : α → Nat}

theorem bucket_append (i : Nat) (l m : List α) :
    bucket key i (l ++ m) = bucket key i l ++ bucket key i m := List.filter_append _ _

theorem bucket_single (a : α) : bucket key (key a) [a] = [a] := by simp [bucket]

theorem bucket_eq_nil {i : Nat} {l : List α} (h : ∀ a ∈ l, key a ≠ i) : bucket key i l = [] := by
  rw [bucket, List.filter_eq_nil_iff]
  intro a ha
  simpa using h a ha

/-- What has the greatest key comes last. -/
theorem filter_append_bucket {l : List α} {n : Nat} (hsorted : l.Pairwise fun a b => key a ≤ key b)
    (hle : ∀ a ∈ l, key a ≤ n) : (l.filter fun a => key a < n) ++ bucket key n l = l := by
  induction l with
  | nil => rfl
  | cons a l ih =>
    obtain ⟨hhead, htail⟩ := List.pairwise_cons.mp hsorted
    have hrest := ih htail fun b hb => hle b (by simp [hb])
    by_cases ha : key a < n
    · have hne : key a ≠ n := Nat.ne_of_lt ha
      simpa [bucket, ha, hne] using hrest
    · -- all that follows has the greatest key as well
      have heq : key a = n := Nat.le_antisymm (hle a (by simp)) (Nat.le_of_not_lt ha)
      have hall : ∀ b ∈ l, key b = n := fun b hb =>
        Nat.le_antisymm (hle b (by simp [hb])) (heq ▸ hhead b hb)
      have hnone : (l.filter fun b => key b < n) = [] := by
        rw [List.filter_eq_nil_iff]
        intro b hb
        simp [hall b hb]
      have hlast : bucket key n l = l := by
        rw [bucket, List.filter_eq_self]
        intro b hb
        simp [hall b hb]
      unfold bucket at hlast ⊢
      simp [heq, hnone, hlast]

/-- The buckets of a sorted list, in the order of their keys, are the list. -/
theorem flatMap_bucket {l : List α} {n : Nat} (hsorted : l.Pairwise fun a b => key a ≤ key b)
    (hlt : ∀ a ∈ l, key a < n) : ((List.range n).flatMap fun i => bucket key i l) = l := by
  induction n generalizing l with
  | zero =>
    rw [List.range_zero, List.flatMap_nil, eq_comm, List.eq_nil_iff_forall_not_mem]
    exact fun a ha => absurd (hlt a ha) (Nat.not_lt_zero _)
  | succ n ih =>
    have hsplit := filter_append_bucket hsorted fun a ha => Nat.le_of_lt_succ (hlt a ha)
    set before := l.filter fun a => key a < n with hbefore
    have hbuckets : ∀ i ∈ List.range n, bucket key i l = bucket key i before := by
      intro i hi
      have hin : i < n := List.mem_range.mp hi
      rw [hbefore, bucket, bucket, List.filter_filter]
      refine List.filter_congr fun a _ => ?_
      by_cases ha : key a = i <;> simp [ha, hin]
    rw [List.range_succ, List.flatMap_append, List.flatMap_singleton,
      List.flatMap_congr hbuckets, ih (hsorted.filter _) ?_]
    · exact hsplit
    · intro a ha
      simpa using (List.mem_filter.mp ha).2

/-- The sums of the buckets add up. -/
theorem sum_bucket {M : Type*} [AddMonoid M] (f : α → M) {l : List α} {n : Nat}
    (hsorted : l.Pairwise fun a b => key a ≤ key b) (hlt : ∀ a ∈ l, key a < n) :
    ((List.range n).map fun i => ((bucket key i l).map f).sum).sum = (l.map f).sum := by
  conv_rhs => rw [← flatMap_bucket hsorted hlt]
  rw [List.map_flatMap, List.flatMap_def, List.sum_flatten, List.map_map]
  rfl

end buckets
