-- Steps of several kinds, where steps of different kinds can change places: what a run
-- of them does is told by the order of the steps of each kind.
import Mathlib.Data.List.Basic

namespace reorders

variable {α σ κ : Type*} {kind : α → κ} {step : σ → α → σ}

/-- Two steps of different kinds do the same in either order. -/
def Independent (kind : α → κ) (step : σ → α → σ) : Prop :=
  ∀ s a b, kind a ≠ kind b → step (step s a) b = step (step s b) a

/-- A step can go before those of other kinds. -/
theorem foldl_first (hstep : Independent kind step) {a : α} {l : List α} (m : List α) (s : σ)
    (hne : ∀ b ∈ l, kind b ≠ kind a) : (l ++ a :: m).foldl step s = (a :: (l ++ m)).foldl step s := by
  induction l generalizing s with
  | nil => rfl
  | cons b l ih =>
    obtain ⟨hb, hl⟩ := List.forall_mem_cons.mp hne
    calc (b :: l ++ a :: m).foldl step s
        = (l ++ a :: m).foldl step (step s b) := rfl
      _ = (l ++ m).foldl step (step (step s b) a) := ih (step s b) hl
      _ = (l ++ m).foldl step (step (step s a) b) := by rw [hstep s b a hb]

variable [DecidableEq κ]

/-- The steps of each kind are the same, in the same order. -/
def SameOrder (kind : α → κ) (l m : List α) : Prop :=
  ∀ k, (l.filter fun a => kind a = k) = m.filter fun a => kind a = k

/-- What comes first in one order comes after steps of other kinds only in the other. -/
theorem SameOrder.split_first {a : α} {l m : List α} (h : SameOrder kind (a :: l) m) :
    ∃ before after, m = before ++ a :: after ∧ (∀ b ∈ before, kind b ≠ kind a) ∧
      SameOrder kind l (before ++ after) := by
  have hkind := h (kind a)
  rw [List.filter_cons_of_pos (by simp), eq_comm, List.filter_eq_cons_iff] at hkind
  obtain ⟨before, after, rfl, hbefore, -, hafter⟩ := hkind
  have hother : ∀ b ∈ before, kind b ≠ kind a := fun b hb => by simpa using hbefore b hb
  refine ⟨before, after, rfl, hother, fun k => ?_⟩
  by_cases hk : kind a = k
  · subst hk
    have hnone : (before.filter fun b => kind b = kind a) = [] := by
      rw [List.filter_eq_nil_iff]
      exact hbefore
    rw [List.filter_append, hnone, List.nil_append, hafter]
  · have hrest := h k
    rwa [List.filter_cons_of_neg (by simpa using hk), List.filter_append,
      List.filter_cons_of_neg (by simpa using hk), ← List.filter_append] at hrest

/-- A run is told by the order of the steps of each kind. -/
theorem foldl_eq_of_same_order (hstep : Independent kind step) {l m : List α}
    (h : SameOrder kind l m) (s : σ) : l.foldl step s = m.foldl step s := by
  induction l generalizing m s with
  | nil =>
    cases m with
    | nil => rfl
    | cons b m => simpa using h (kind b)
  | cons a l ih =>
    obtain ⟨before, after, rfl, hbefore, hrest⟩ := h.split_first
    rw [foldl_first hstep after s hbefore]
    exact ih hrest (step s a)

end reorders
