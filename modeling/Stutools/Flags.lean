-- A vector of flags as the set of its marked places: what marking and clearing
-- places does to the list of them.
import Mathlib.Data.List.Perm.Basic
import Mathlib.Data.List.Nodup
import Mathlib.Data.List.Range

namespace flags

/-- The places that are marked, in order. -/
def marked (l : List Bool) : List Nat := (List.range l.length).filter fun i => l.getD i false

theorem mem_marked {l : List Bool} {i : Nat} : i ∈ marked l ↔ l.getD i false = true := by
  unfold marked
  rw [List.mem_filter, List.mem_range, and_iff_right_iff_imp]
  intro h
  by_contra hge
  rw [List.getD_eq_getElem?_getD, List.getElem?_eq_none (by omega)] at h
  cases h

theorem lt_of_mem_marked {l : List Bool} {i : Nat} (h : i ∈ marked l) : i < l.length :=
  List.mem_range.mp (List.mem_of_mem_filter h)

theorem marked_nodup (l : List Bool) : (marked l).Nodup := List.nodup_range.filter _

theorem length_marked (l : List Bool) : (marked l).length = l.count true := by
  have hmap : (List.range l.length).map (fun i => l.getD i false) = l := by
    apply List.ext_getElem
    · simp
    · intro i h1 h2
      simp [h2]
  have hcount : l.count true = ((List.range l.length).map fun i => l.getD i false).count true := by
    rw [hmap]
  rw [hcount, List.count_eq_countP, List.countP_map, List.countP_eq_length_filter]
  unfold marked
  congr 1
  apply List.filter_congr
  intro i _
  simp

theorem marked_replicate_false (n : Nat) : marked (List.replicate n false) = [] := by
  rw [List.eq_nil_iff_forall_not_mem]
  intro i hi
  rw [mem_marked, List.getD_eq_getElem?_getD, List.getElem?_replicate] at hi
  split at hi <;> cases hi

theorem getD_set {α : Type} {l : List α} {i : Nat} {a d : α} (h : i < l.length) (j : Nat) :
    (l.set i a).getD j d = if i = j then a else l.getD j d := by
  rw [List.getD_eq_getElem?_getD, List.getD_eq_getElem?_getD, List.getElem?_set]
  split_ifs with hij
  · subst hij
    simp
  · rfl

theorem marked_set_true {l : List Bool} {i : Nat} (hi : i < l.length) (h : i ∉ marked l) :
    (marked (l.set i true)).Perm (i :: marked l) := by
  rw [List.perm_ext_iff_of_nodup (marked_nodup _) (List.nodup_cons.mpr ⟨h, marked_nodup l⟩)]
  intro j
  rw [mem_marked, getD_set hi, List.mem_cons, mem_marked]
  split
  · rename_i hij
    simp [hij]
  · rename_i hij
    simp [Ne.symm hij]

theorem mem_marked_set_false {l : List Bool} {i j : Nat} :
    j ∈ marked (l.set i false) ↔ j ∈ marked l ∧ j ≠ i := by
  by_cases hi : i < l.length
  · rw [mem_marked, getD_set hi, mem_marked]
    split
    · rename_i hij
      simp [hij]
    · rename_i hij
      simp [Ne.symm hij]
  · rw [List.set_eq_of_length_le (by omega), iff_self_and]
    rintro hj rfl
    exact hi (lt_of_mem_marked hj)

theorem marked_set_false {l : List Bool} {i : Nat} (h : i ∈ marked l) :
    (marked l).Perm (i :: marked (l.set i false)) := by
  have hnot : i ∉ marked (l.set i false) := fun hi => (mem_marked_set_false.mp hi).2 rfl
  rw [List.perm_ext_iff_of_nodup (marked_nodup l) (List.nodup_cons.mpr ⟨hnot, marked_nodup _⟩)]
  intro j
  rw [List.mem_cons, mem_marked_set_false]
  by_cases hij : j = i
  · simp [hij, h]
  · simp [hij]

/-- Clears some places. -/
def clear (l : List Bool) (places : List Nat) : List Bool :=
  places.foldl (fun l i => l.set i false) l

@[simp] theorem clear_length (l : List Bool) (places : List Nat) :
    (clear l places).length = l.length := by
  induction places generalizing l with
  | nil => rfl
  | cons i places ih => exact (ih _).trans List.length_set

theorem mem_marked_clear {l : List Bool} {places : List Nat} {j : Nat} :
    j ∈ marked (clear l places) ↔ j ∈ marked l ∧ j ∉ places := by
  induction places generalizing l with
  | nil => simp [clear]
  | cons i places ih =>
    have hcons : clear l (i :: places) = clear (l.set i false) places := rfl
    rw [hcons, ih, mem_marked_set_false, List.mem_cons]
    tauto

theorem marked_clear {l : List Bool} {places : List Nat} (hnodup : places.Nodup)
    (hsub : ∀ i ∈ places, i ∈ marked l) : (marked l).Perm (places ++ marked (clear l places)) := by
  have happend : (places ++ marked (clear l places)).Nodup := by
    refine List.nodup_append.mpr ⟨hnodup, marked_nodup _, ?_⟩
    rintro i hi j hj rfl
    exact (mem_marked_clear.mp hj).2 hi
  rw [List.perm_ext_iff_of_nodup (marked_nodup l) happend]
  intro j
  rw [List.mem_append, mem_marked_clear]
  constructor
  · intro hj
    by_cases hp : j ∈ places
    · exact Or.inl hp
    · exact Or.inr ⟨hj, hp⟩
  · rintro (hj | hj)
    · exact hsub j hj
    · exact hj.1

end flags
