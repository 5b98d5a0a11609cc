-- Threads that meet at a barrier: each takes turns of its own until it waits, and when all of
-- them wait they all go on. What one turn keeps, and what the opening of the barrier keeps, holds
-- of every interleaving.
import Mathlib.Algebra.BigOperators.Fin
import Mathlib.Algebra.Order.BigOperators.Group.Finset
import Mathlib.Logic.Function.Basic
import Stutools.Machine

open Finset

namespace barrier

/-- What a thread does between the barriers, whether it waits at one, and where it goes on. -/
structure Threads (n : Nat) (σ τ ε : Type*) where
  turn : Fin n → σ → τ → ε → Option (σ × τ)
  waits : τ → Bool
  passes : τ → τ

/-- What the threads share, and where each of them is. -/
structure State (n : Nat) (σ τ : Type*) where
  shared : σ
  threads : Fin n → τ

/-- A turn of a thread, or the barrier opens. -/
inductive Event (n : Nat) (ε : Type*) where
  | turn (i : Fin n) (e : ε)
  | opens

variable {n : Nat} {σ τ ε : Type*}

def step (p : Threads n σ τ ε) (s : State n σ τ) : Event n ε → Option (State n σ τ)
  | .turn i e =>
    (p.turn i s.shared (s.threads i) e).map fun r => ⟨r.1, Function.update s.threads i r.2⟩
  | .opens =>
    if ∀ i, p.waits (s.threads i) = true then
      some { s with threads := fun i => p.passes (s.threads i) }
    else none

variable {p : Threads n σ τ ε} {s t : State n σ τ}

/-- A thread takes a turn, or all of them pass the barrier. -/
theorem step_cases {ev : Event n ε} (h : step p s ev = some t) :
    (∃ i e sh x, p.turn i s.shared (s.threads i) e = some (sh, x) ∧
      t = ⟨sh, Function.update s.threads i x⟩) ∨
    (ev = .opens ∧ (∀ i, p.waits (s.threads i) = true) ∧
      t = { s with threads := fun i => p.passes (s.threads i) }) := by
  cases ev with
  | turn i e =>
    obtain ⟨⟨sh, x⟩, hturn, rfl⟩ := Option.map_eq_some_iff.mp h
    exact .inl ⟨i, e, sh, x, hturn, rfl⟩
  | opens =>
    simp only [step] at h
    split_ifs at h with hall
    exact .inr ⟨rfl, hall, (Option.some.inj h).symm⟩

/-! ## Levels -/

/-- The level of a thread is the number of barriers it has passed. -/
structure Levels (p : Threads n σ τ ε) (level : τ → Nat) : Prop where
  turn : ∀ {i sh sh' x x' e}, p.turn i sh x e = some (sh', x') → level x' = level x
  passes : ∀ {x}, p.waits x = true → level (p.passes x) = level x + 1

/-- The threads are at one level. -/
def Level (level : τ → Nat) (s : State n σ τ) : Prop :=
  ∀ i j, level (s.threads i) = level (s.threads j)

theorem step_level {level : τ → Nat} {ev : Event n ε} (hp : Levels p level)
    (h : step p s ev = some t) (hs : Level level s) : Level level t := by
  rcases step_cases h with ⟨i, e, sh, x, hturn, rfl⟩ | ⟨-, hall, rfl⟩
  · have hsame : ∀ j, level (Function.update s.threads i x j) = level (s.threads j) := fun j => by
      by_cases hj : j = i
      · subst hj
        rw [Function.update_self, hp.turn hturn]
      · rw [Function.update_of_ne hj]
    intro j k
    simp only [hsame]
    exact hs j k
  · intro j k
    simp only [hp.passes (hall j), hp.passes (hall k), hs j k]

/-! ## Progress -/

/-- What a thread has before it. -/
structure Measured (p : Threads n σ τ ε) (rest : τ → Nat) : Prop where
  turn : ∀ {i sh sh' x x' e}, p.turn i sh x e = some (sh', x') → rest x' < rest x
  passes : ∀ {x}, p.waits x = true → rest (p.passes x) < rest x

theorem step_measured {rest : τ → Nat} {ev : Event n ε} (hp : Measured p rest) (hn : 0 < n)
    (h : step p s ev = some t) : ∑ i, rest (t.threads i) < ∑ i, rest (s.threads i) := by
  rcases step_cases h with ⟨i, e, sh, x, hturn, rfl⟩ | ⟨-, hall, rfl⟩
  · refine Finset.sum_lt_sum (fun j _ => ?_) ⟨i, mem_univ i, ?_⟩
    · by_cases hj : j = i
      · subst hj
        simpa using (hp.turn hturn).le
      · simp [hj]
    · simpa using hp.turn hturn
  · have hpos : (univ : Finset (Fin n)).Nonempty := ⟨⟨0, hn⟩, mem_univ _⟩
    exact Finset.sum_lt_sum_of_nonempty hpos fun i _ => hp.passes (hall i)

/-- Every run has an end: it is no longer than what the threads have before them. -/
theorem length_le {rest : τ → Nat} (hp : Measured p rest) (hn : 0 < n) {es : List (Event n ε)}
    (hrun : machine.run (step p) s es = some t) : es.length ≤ ∑ i, rest (s.threads i) := by
  have hok : machine.Along (step p) (fun _ _ => True) s es :=
    machine.along_of_forall _ (fun _ _ => trivial) s es
  exact machine.length_le_along (P := fun _ => True) (m := fun s => ∑ i, rest (s.threads i))
    (fun s e t _ _ h => ⟨trivial, step_measured hp hn h⟩) hrun hok trivial

/-- Where no thread is through while another waits, one of them goes on. -/
theorem exists_step {done : τ → Prop}
    (hlive : ∀ i, done (s.threads i) ∨ p.waits (s.threads i) = true ∨
      ∃ e, (p.turn i s.shared (s.threads i) e).isSome)
    (hmeet : ∀ i j, done (s.threads i) → p.waits (s.threads j) = true → False)
    (hnot : ∃ i, ¬ done (s.threads i)) : ∃ ev t, step p s ev = some t := by
  by_cases hturns : ∃ i e, (p.turn i s.shared (s.threads i) e).isSome
  · obtain ⟨i, e, hsome⟩ := hturns
    obtain ⟨r, hr⟩ := Option.isSome_iff_exists.mp hsome
    exact ⟨.turn i e, _, by rw [step, hr, Option.map_some]⟩
  · have hrest : ∀ i, done (s.threads i) ∨ p.waits (s.threads i) = true := fun i => by
      rcases hlive i with hdone | hwaits | ⟨e, he⟩
      · exact .inl hdone
      · exact .inr hwaits
      · exact absurd ⟨i, e, he⟩ hturns
    obtain ⟨i, hi⟩ := hnot
    have hwaits := (hrest i).resolve_left hi
    have hall : ∀ j, p.waits (s.threads j) = true := fun j =>
      (hrest j).resolve_left fun hdone => hmeet j i hdone hwaits
    exact ⟨.opens, _, if_pos hall⟩

/-- A run goes on to the end of every thread. -/
theorem exists_end {rest : τ → Nat} {done : τ → Prop} {P : State n σ τ → Prop}
    (hp : Measured p rest) (hn : 0 < n) (hstep : ∀ s e t, P s → step p s e = some t → P t)
    (hgoes : ∀ s, P s → (∃ i, ¬ done (s.threads i)) → ∃ ev t, step p s ev = some t) (hs : P s) :
    ∃ es t, machine.run (step p) s es = some t ∧ ∀ i, done (t.threads i) := by
  obtain ⟨es, t, hrun, hdone, -⟩ := @machine.exists_run_to _ _ (step p) P
    (fun s => ∀ i, done (s.threads i)) (fun s => ∑ i, rest (s.threads i)) (fun s hs hnot => by
      obtain ⟨ev, t, ht⟩ := hgoes s hs (not_forall.mp hnot)
      exact ⟨ev, t, ht, hstep s ev t hs ht, step_measured hp hn ht⟩) s hs
  exact ⟨es, t, hrun, hdone⟩

end barrier
