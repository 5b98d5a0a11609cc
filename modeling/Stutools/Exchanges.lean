-- Exchanges of two entries of an array. One that reaches outside the array fails, so that a run
-- of them that does not fail leaves the entries it was given, in another order.
import Stutools.Machine

namespace exchanges

variable {α : Type*}

/-- The array after two entries changed places, or none when one of them is outside. -/
def exchange (xs : Array α) (p : Nat × Nat) : Option (Array α) :=
  if h : p.1 < xs.size ∧ p.2 < xs.size then some (xs.swap p.1 p.2 h.1 h.2) else none

theorem exchange_perm {xs ys : Array α} {p : Nat × Nat} (h : exchange xs p = some ys) :
    ys.Perm xs := by
  unfold exchange at h
  split at h
  · cases h
    exact Array.swap_perm _ _
  · cases h

theorem exists_exchange {xs : Array α} {i j : Nat} (hi : i < xs.size) (hj : j < xs.size) :
    ∃ ys, exchange xs (i, j) = some ys := by
  unfold exchange
  rw [dif_pos ⟨hi, hj⟩]
  exact ⟨_, rfl⟩

theorem exchange_none {xs : Array α} {i j : Nat} (hi : xs.size ≤ i) : exchange xs (i, j) = none :=
  dif_neg fun h => absurd h.1 (Nat.not_lt.mpr hi)

/-- A run of exchanges leaves a permutation. -/
theorem run_perm {xs ys : Array α} {l : List (Nat × Nat)}
    (h : machine.run exchange xs l = some ys) : ys.Perm xs := by
  refine machine.invariant (P := fun zs : Array α => zs.Perm xs) ?_ h (.refl xs)
  exact fun zs p _ hperm hstep => (exchange_perm hstep).trans hperm

theorem run_snoc {xs ys zs : Array α} {l : List (Nat × Nat)} {p : Nat × Nat}
    (h : machine.run exchange xs l = some ys) (hp : exchange ys p = some zs) :
    machine.run exchange xs (l ++ [p]) = some zs := by
  rw [machine.run_append, h, Option.bind_some, machine.run_cons, hp]
  rfl

end exchanges
