-- Turns taken by a counter that wraps: the counter goes up by one for each turn, wraps
-- at `N`, and its rest by `p` says whose turn it is.
import Mathlib.Data.List.Nodup
import Mathlib.Data.List.Perm.Subperm
import Mathlib.Data.Nat.ModEq

namespace cycle

variable {N p x : Nat}

theorem turns_perm {f : Nat → Nat} (hp : 0 < p) (h : ∀ k < p, f k = (x + k) % p) :
    ((List.range p).map f).Perm (List.range p) := by
  have hinj : ∀ i < p, ∀ j < p, (x + i) % p = (x + j) % p → i = j := by
    intro i hi j hj hij
    have hmod : i % p = j % p := Nat.ModEq.add_left_cancel' x hij
    rwa [Nat.mod_eq_of_lt hi, Nat.mod_eq_of_lt hj] at hmod
  have hnodup : ((List.range p).map f).Nodup := by
    refine List.Nodup.map_on (fun i hi j hj hij => ?_) List.nodup_range
    rw [List.mem_range] at hi hj
    rw [h i hi, h j hj] at hij
    exact hinj i hi j hj hij
  refine (List.subperm_of_subset hnodup fun y hy => ?_).perm_of_length_le (by simp)
  obtain ⟨k, hk, rfl⟩ := List.mem_map.mp hy
  rw [List.mem_range] at hk ⊢
  rw [h k hk]
  exact Nat.mod_lt _ hp

/-- A counter that wraps at `N` gives `p` turns one each, unless it wraps in between and
`p` does not divide `N`. -/
theorem turns_iff (hp : 0 < p) (hN : p ≤ N) (hx : x < N) :
    ((List.range p).map fun k => (x + k) % N % p).Perm (List.range p) ↔ x + p ≤ N ∨ p ∣ N := by
  constructor
  · intro hperm
    by_contra hcon
    rw [not_or, Nat.not_le] at hcon
    obtain ⟨hwrap, hdvd⟩ := hcon
    have hr : 0 < N % p := Nat.pos_of_ne_zero fun h0 => hdvd (Nat.dvd_of_mod_eq_zero h0)
    have hrp : N % p < p := Nat.mod_lt _ hp
    have hdiv := Nat.div_add_mod N p
    have hinj : ∀ i < p, ∀ j < p, (x + i) % N % p = (x + j) % N % p → i = j := by
      have hnodup := hperm.nodup_iff.mpr List.nodup_range
      intro i hi j hj hij
      exact List.inj_on_of_nodup_map hnodup (List.mem_range.mpr hi) (List.mem_range.mpr hj) hij
    -- Before the wrap the values count up to the remainder, behind it from zero.
    have hbefore : ∀ d, 0 < d → d ≤ N % p → d ≤ N - x →
        (x + (N - x - d)) % N % p = N % p - d := by
      intro d hd hdr hdx
      have hlt : x + (N - x - d) = N - d := by omega
      rw [hlt, Nat.mod_eq_of_lt (show N - d < N by omega)]
      have hsub : N - d = p * (N / p) + (N % p - d) := by omega
      rw [hsub, Nat.mul_add_mod, Nat.mod_eq_of_lt (by omega)]
    have hbehind : ∀ j, j < p → (x + (N - x + j)) % N % p = j % N % p := by
      intro j _
      have hsum : x + (N - x + j) = N + j := by omega
      rw [hsum, Nat.add_mod_left]
    have hzero : ∀ j, j < p - (N - x) → (x + (N - x + j)) % N % p = j := by
      intro j hj
      rw [hbehind j (by omega), Nat.mod_eq_of_lt (show j < N by omega), Nat.mod_eq_of_lt (by omega)]
    by_cases h1 : N % p ≤ p - (N - x)
    · -- The last value before the wrap comes again behind it.
      have ha := hbefore 1 (by omega) (by omega) (by omega)
      have hb := hzero (N % p - 1) (by omega)
      have := hinj _ (by omega) _ (by omega) (ha.trans hb.symm)
      omega
    · by_cases h2 : N % p ≤ N - x
      · -- Zero comes before the wrap and behind it.
        have ha := hbefore (N % p) hr (Nat.le_refl _) h2
        have hb := hzero 0 (by omega)
        have := hinj _ (by omega) _ (by omega) ((ha.trans (Nat.sub_self _)).trans hb.symm)
        omega
      · -- The last path gets no turn.
        have hmem : p - 1 ∈ (List.range p).map fun k => (x + k) % N % p := by
          rw [hperm.mem_iff, List.mem_range]
          omega
        obtain ⟨k, hk, hval⟩ := List.mem_map.mp hmem
        rw [List.mem_range] at hk
        by_cases hkm : k < N - x
        · have ha := hbefore (N - x - k) (by omega) (by omega) (by omega)
          have hsame : N - x - (N - x - k) = k := by omega
          rw [hsame] at ha
          omega
        · have hb := hzero (k - (N - x)) (by omega)
          have hsame : N - x + (k - (N - x)) = k := by omega
          rw [hsame] at hb
          omega
  · rintro (hfit | hdvd)
    · apply turns_perm hp (x := x)
      intro k hk
      rw [Nat.mod_eq_of_lt (show x + k < N by omega)]
    · apply turns_perm hp (x := x)
      intro k _
      exact Nat.mod_mod_of_dvd _ hdvd

/-- Counted from the other end, the turns are the same. -/
theorem reversed_perm_iff {l : List Nat} (hl : ∀ y ∈ l, y < p) :
    (l.map fun y => p - 1 - y).Perm (List.range p) ↔ l.Perm (List.range p) := by
  have hrange : ((List.range p).map fun y => p - 1 - y).Perm (List.range p) := by
    have hreverse : ((List.range p).map fun y => p - 1 - y) = (List.range p).reverse := by
      rw [List.range_eq_range', List.reverse_range', ← List.range_eq_range']
      simp
    rw [hreverse]
    exact List.reverse_perm _
  constructor
  · intro h
    have hback := h.map fun y => p - 1 - y
    rw [List.map_map] at hback
    have hid : l.map ((fun y => p - 1 - y) ∘ fun y => p - 1 - y) = l := by
      refine (List.map_congr_left fun y hy => ?_).trans (List.map_id l)
      have := hl y hy
      simp only [Function.comp_apply, id_eq]
      omega
    rw [hid] at hback
    exact hback.trans hrange
  · intro h
    exact (h.map _).trans hrange

end cycle
