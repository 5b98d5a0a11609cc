-- The operations of a growable array that move elements: `swap`, and
-- `swap_remove`, which fills the gap with the last element. Both only
-- permute, so what is counted or collected over the array stays.
import Mathlib.Data.List.Perm.Basic
import Mathlib.Data.List.Count

namespace vec

variable {α β : Type*}

/-- Exchanges the elements at `i` and `j`. -/
def swap (l : List α) (i j : Nat) : List α :=
  match l[i]?, l[j]? with
  | some a, some b => (l.set i b).set j a
  | _, _ => l

theorem swap_perm (l : List α) (i j : Nat) : (swap l i j).Perm l := by
  unfold swap
  split
  · rename_i a b ha hb
    obtain ⟨hi, rfl⟩ := List.getElem?_eq_some_iff.mp ha
    obtain ⟨hj, rfl⟩ := List.getElem?_eq_some_iff.mp hb
    exact List.set_set_perm hi hj
  · exact List.Perm.refl l

/-- Removes the element at `i` and puts the last element in its place. -/
def swapRemove (l : List α) (i : Nat) : List α :=
  match l.getLast? with
  | some x => (l.set i x).dropLast
  | none => l

theorem swapRemove_perm (l : List α) (i : Nat) (h : i < l.length) :
    (swapRemove l i).Perm (l.eraseIdx i) := by
  rcases List.eq_nil_or_concat l with rfl | ⟨xs, x, rfl⟩
  · simp at h
  · simp only [swapRemove, List.concat_eq_append, List.getLast?_append, List.getLast?_singleton,
      Option.some_or, List.length_append, List.length_singleton] at h ⊢
    by_cases hi : i < xs.length
    · rw [List.set_append_left _ _ hi, List.dropLast_concat, List.eraseIdx_append_of_lt_length hi]
      exact (List.set_perm_cons_eraseIdx hi x).trans (List.perm_append_singleton x _).symm
    · have hlast : i = xs.length := by omega
      subst hlast
      rw [List.set_append_right _ _ (Nat.le_refl _), List.eraseIdx_append_of_length_le (Nat.le_refl _)]
      simp

/-- Removing the first element that `p` accepts leaves the others. -/
theorem mem_of_swapRemove {l : List α} {i : Nat} {x : α} (h : x ∈ swapRemove l i) : x ∈ l := by
  unfold swapRemove at h
  split at h
  · rename_i y hy
    rcases List.mem_or_eq_of_mem_set (List.dropLast_subset _ h) with h | rfl
    · exact h
    · exact List.mem_of_getLast? hy
  · exact h

theorem perm_swapRemove_of_findIdx {p : α → Bool} {l : List α} {i : Nat}
    (h : l.findIdx? p = some i) : ∃ x, p x = true ∧ l.Perm (x :: swapRemove l i) := by
  obtain ⟨hi, hp, _⟩ := List.findIdx?_eq_some_iff_getElem.mp h
  refine ⟨l[i], hp, ?_⟩
  have h1 := (List.getElem_cons_eraseIdx_perm hi).symm
  exact h1.trans (List.Perm.cons _ (swapRemove_perm l i hi).symm)

theorem perm_eraseIdx_of_getElem? {l : List α} {i : Nat} {x : α} (h : l[i]? = some x) :
    l.Perm (x :: l.eraseIdx i) := by
  obtain ⟨hi, rfl⟩ := List.getElem?_eq_some_iff.mp h
  exact (List.getElem_cons_eraseIdx_perm hi).symm

end vec
