-- Runs of a machine whose step may refuse: a state, an event, and the next
-- state if the machine takes the event. One rule carries an invariant from
-- one step to every run.
import Mathlib.Logic.Basic
import Mathlib.Data.List.Basic

namespace machine

variable {σ ε : Type*} (step : σ → ε → Option σ)

/-- The state after the events, if the machine takes every one of them. -/
def run (s : σ) : List ε → Option σ
  | [] => some s
  | e :: es => (step s e).bind fun t => run t es

@[simp] theorem run_nil (s : σ) : run step s [] = some s := rfl

theorem run_cons (s : σ) (e : ε) (es : List ε) :
    run step s (e :: es) = (step s e).bind fun t => run step t es := rfl

theorem run_cons_some {s u : σ} {e : ε} {es : List ε} (h : run step s (e :: es) = some u) :
    ∃ t, step s e = some t ∧ run step t es = some u := by
  rw [run_cons] at h
  exact Option.bind_eq_some_iff.mp h

theorem run_append (s : σ) (es fs : List ε) :
    run step s (es ++ fs) = (run step s es).bind fun t => run step t fs := by
  induction es generalizing s with
  | nil => rfl
  | cons e es ih =>
    rw [List.cons_append, run_cons, run_cons]
    cases step s e with
    | none => rfl
    | some t => exact ih t

/-- Every step of the run is taken in a state where `ok` allows its event. -/
def Along (ok : σ → ε → Prop) (s : σ) : List ε → Prop
  | [] => True
  | e :: es => ok s e ∧ ∀ t, step s e = some t → Along ok t es

/-- A run on fixed inputs is followed to see whether it keeps to a condition. -/
instance Along.decidable {ok : σ → ε → Prop} [∀ s e, Decidable (ok s e)] :
    (s : σ) → (es : List ε) → Decidable (Along step ok s es)
  | _, [] => isTrue trivial
  | s, e :: es =>
    match hs : step s e with
    | none => decidable_of_iff (ok s e) ⟨fun h => ⟨h, fun t ht => by simp [hs] at ht⟩, And.left⟩
    | some t =>
      have : Decidable (Along step ok t es) := Along.decidable t es
      decidable_of_iff (ok s e ∧ Along step ok t es)
        ⟨fun h => ⟨h.1, fun u hu => Option.some.inj (hs.symm.trans hu) ▸ h.2⟩,
          fun h => ⟨h.1, h.2 t hs⟩⟩

theorem along_of_mem {ok : σ → ε → Prop} {es : List ε} (h : ∀ e ∈ es, ∀ s, ok s e) (s : σ) :
    Along step ok s es := by
  induction es generalizing s with
  | nil => trivial
  | cons e es ih =>
    have hrest : ∀ e' ∈ es, ∀ s, ok s e' := fun e' he' => h e' (List.mem_cons_of_mem e he')
    exact ⟨h e List.mem_cons_self s, fun t _ => ih hrest t⟩

theorem along_of_forall {ok : σ → ε → Prop} (h : ∀ s e, ok s e) (s : σ) (es : List ε) :
    Along step ok s es :=
  along_of_mem step (fun e _ s => h s e) s

variable {step}

theorem Along.and {ok ok' : σ → ε → Prop} {s : σ} {es : List ε} (h : Along step ok s es)
    (h' : Along step ok' s es) : Along step (fun s e => ok s e ∧ ok' s e) s es := by
  induction es generalizing s with
  | nil => trivial
  | cons e es ih => exact ⟨⟨h.1, h'.1⟩, fun t ht => ih (h.2 t ht) (h'.2 t ht)⟩

/-- The invariant rule for runs that meet a condition: what each allowed step
keeps, the whole run keeps. -/
theorem invariant_along {ok : σ → ε → Prop} {P : σ → Prop}
    (hstep : ∀ s e t, P s → ok s e → step s e = some t → P t) {s t : σ} {es : List ε}
    (hrun : run step s es = some t) (hok : Along step ok s es) (hs : P s) : P t := by
  induction es generalizing s with
  | nil => cases hrun; exact hs
  | cons e es ih =>
    obtain ⟨u, hu, hrest⟩ := run_cons_some step hrun
    exact ih hrest (hok.2 u hu) (hstep s e u hs hok.1 hu)

/-- A condition that an invariant gives for every event is met along every run. -/
theorem along_of_invariant {ok : σ → ε → Prop} {P : σ → Prop}
    (hstep : ∀ s e t, P s → step s e = some t → P t) (hok : ∀ s e, P s → ok s e) {s : σ}
    (hs : P s) (es : List ε) : Along step ok s es := by
  induction es generalizing s with
  | nil => trivial
  | cons e es ih => exact ⟨hok s e hs, fun t ht => ih (hstep s e t hs ht)⟩

/-- The rule for runs that are not refused: what each allowed step takes and keeps, the whole run
takes and keeps. -/
theorem exists_run_along {ok : σ → ε → Prop} {P : σ → Prop}
    (hstep : ∀ s e, P s → ok s e → ∃ t, step s e = some t ∧ P t) {s : σ} {es : List ε}
    (hok : Along step ok s es) (hs : P s) : ∃ t, run step s es = some t ∧ P t := by
  induction es generalizing s with
  | nil => exact ⟨s, rfl, hs⟩
  | cons e es ih =>
    obtain ⟨u, hu, hPu⟩ := hstep s e hs hok.1
    obtain ⟨t, ht, hPt⟩ := ih (hok.2 u hu) hPu
    exact ⟨t, by rw [run_cons, hu, Option.bind_some, ht], hPt⟩

/-- The rule for a condition that is exact. Where the steps that it allows are those that the machine
takes and that keep `P`, and no step gains `P`, the runs that it allows are those that the machine
takes and that keep it. -/
theorem along_iff_run {ok : σ → ε → Prop} {P : σ → Prop}
    (hstep : ∀ s e, P s → (ok s e ↔ ∃ t, step s e = some t ∧ P t))
    (hback : ∀ s e t, step s e = some t → P t → P s) {s : σ} {es : List ε} (hs : P s) :
    Along step ok s es ↔ ∃ t, run step s es = some t ∧ P t := by
  have hruns : ∀ (es : List ε) (s t : σ), run step s es = some t → P t → P s := by
    intro es
    induction es with
    | nil =>
      intro s t hrun ht
      cases hrun
      exact ht
    | cons e es ih =>
      intro s t hrun ht
      obtain ⟨u, hu, hrest⟩ := run_cons_some step hrun
      exact hback s e u hu (ih u t hrest ht)
  refine ⟨fun hok => exists_run_along (fun s e hs => (hstep s e hs).mp) hok hs, ?_⟩
  induction es generalizing s with
  | nil => exact fun _ => trivial
  | cons e es ih =>
    rintro ⟨t, hrun, ht⟩
    obtain ⟨u, hu, hrest⟩ := run_cons_some step hrun
    have hPu := hruns es u t hrest ht
    refine ⟨(hstep s e hs).mpr ⟨u, hu, hPu⟩, fun v hv => ?_⟩
    obtain rfl := Option.some.inj (hu.symm.trans hv)
    exact ih hPu ⟨t, hrest, ht⟩

/-- The invariant rule for every run. -/
theorem invariant {P : σ → Prop} (hstep : ∀ s e t, P s → step s e = some t → P t) {s t : σ}
    {es : List ε} (hrun : run step s es = some t) (hs : P s) : P t := by
  have hok : Along step (fun _ _ => True) s es := along_of_forall step (fun _ _ => trivial) s es
  exact invariant_along (fun s e t h _ => hstep s e t h) hrun hok hs

/-- The machine with a history beside its state: `note` says what a step adds to it. -/
def noted {η : Type*} (step : σ → ε → Option σ) (note : σ → ε → σ → η → η) (s : σ × η) (e : ε) :
    Option (σ × η) :=
  (step s.1 e).map fun t => (t, note s.1 e t s.2)

/-- What a run meets, it meets beside a history. -/
theorem Along.noted {η : Type*} {note : σ → ε → σ → η → η} {ok : σ → ε → Prop} {s : σ} {es : List ε}
    (h : Along step ok s es) (n : η) : Along (noted step note) (fun s e => ok s.1 e) (s, n) es := by
  induction es generalizing s n with
  | nil => trivial
  | cons e es ih =>
    refine ⟨h.1, fun t ht => ?_⟩
    obtain ⟨u, hu, rfl⟩ := Option.map_eq_some_iff.mp ht
    exact ih (h.2 u hu) _

/-- The invariant rule for a state and its history, in runs that meet a condition on both. -/
theorem noted_invariant {η : Type*} {note : σ → ε → σ → η → η} {ok : σ × η → ε → Prop}
    {P : σ → η → Prop}
    (hstep : ∀ s n e t, P s n → ok (s, n) e → step s e = some t → P t (note s e t n)) {s t : σ}
    {n : η} {es : List ε} (hrun : run step s es = some t)
    (hok : Along (noted step note) ok (s, n) es) (hs : P s n) : ∃ m, P t m := by
  induction es generalizing s n with
  | nil =>
    cases hrun
    exact ⟨n, hs⟩
  | cons e es ih =>
    obtain ⟨u, hu, hrest⟩ := run_cons_some step hrun
    have hnoted : noted step note (s, n) e = some (u, note s e u n) := by simp [noted, hu]
    exact ih hrest (hok.2 _ hnoted) (hstep s n e u hs hok.1 hu)

/-- The rule for a fault that ends a run: if a faulty step leads to a state with no step
behind it that is not good, no step of a run to a good state was faulty. -/
theorem along_of_good {fault : σ → ε → Prop} {P Good : σ → Prop}
    (hstep : ∀ s e t, P s → step s e = some t → P t)
    (hfault : ∀ s e t, P s → fault s e → step s e = some t → (∀ e', step t e' = none) ∧ ¬ Good t)
    {s t : σ} {es : List ε} (hrun : run step s es = some t) (hs : P s) (ht : Good t) :
    Along step (fun s e => ¬ fault s e) s es := by
  induction es generalizing s with
  | nil => trivial
  | cons e es ih =>
    obtain ⟨u, hu, hrest⟩ := run_cons_some step hrun
    refine ⟨fun hbad => ?_, fun u' hu' => ?_⟩
    · obtain ⟨hstuck, hnot⟩ := hfault s e u hs hbad hu
      cases es with
      | nil =>
        cases hrest
        exact hnot ht
      | cons e' es =>
        obtain ⟨v, hv, -⟩ := run_cons_some step hrest
        rw [hstuck e'] at hv
        cases hv
    · rw [hu] at hu'
      cases hu'
      exact ih hrest (hstep s e u hs hu)

/-- The rule for a measure: a run of steps that each take something off it is no
longer than it. -/
theorem length_le_along {ok : σ → ε → Prop} {P : σ → Prop} {m : σ → Nat}
    (hstep : ∀ s e t, P s → ok s e → step s e = some t → P t ∧ m t < m s) {s t : σ} {es : List ε}
    (hrun : run step s es = some t) (hok : Along step ok s es) (hs : P s) : es.length ≤ m s := by
  induction es generalizing s with
  | nil => exact Nat.zero_le _
  | cons e es ih =>
    obtain ⟨u, hu, hrest⟩ := run_cons_some step hrun
    obtain ⟨hP, hlt⟩ := hstep s e u hs hok.1 hu
    have hlen := ih hrest (hok.2 u hu) hP
    rw [List.length_cons]
    omega

/-- The rule for a measure of which only some events take something off: a run has no more of
these events than it. -/
theorem countP_le_along {ok : σ → ε → Prop} {P : σ → Prop} {m : σ → Nat} {p : ε → Bool}
    (hstep : ∀ s e t, P s → ok s e → step s e = some t → P t ∧ m t + (if p e then 1 else 0) ≤ m s)
    {s t : σ} {es : List ε} (hrun : run step s es = some t) (hok : Along step ok s es) (hs : P s) :
    es.countP p ≤ m s := by
  induction es generalizing s with
  | nil => exact Nat.zero_le _
  | cons e es ih =>
    obtain ⟨u, hu, hrest⟩ := run_cons_some step hrun
    obtain ⟨hP, hle⟩ := hstep s e u hs hok.1 hu
    have hcount := ih hrest (hok.2 u hu) hP
    rw [List.countP_cons]
    omega

/-- The rule for progress: where some step always takes something off a measure until the goal is
reached, the goal is reached in no more steps than the measure. Where the steps meet a condition,
so does the run. -/
theorem exists_run_to_along {ok : σ → ε → Prop} {P goal : σ → Prop} {m : σ → Nat}
    (hstep : ∀ s, P s → ¬ goal s → ∃ e t, ok s e ∧ step s e = some t ∧ P t ∧ m t < m s) {s : σ}
    (hs : P s) :
    ∃ es t, run step s es = some t ∧ Along step ok s es ∧ goal t ∧ P t ∧ es.length ≤ m s := by
  induction hm : m s using Nat.strongRecOn generalizing s with
  | ind n ih =>
    by_cases hgoal : goal s
    · exact ⟨[], s, rfl, trivial, hgoal, hs, Nat.zero_le _⟩
    · obtain ⟨e, t, hok, ht, hPt, hlt⟩ := hstep s hs hgoal
      obtain ⟨es, u, hrun, halong, hu, hPu, hlen⟩ := ih (m t) (hm ▸ hlt) hPt rfl
      refine ⟨e :: es, u, ?_, ⟨hok, fun t' ht' => ?_⟩, hu, hPu, ?_⟩
      · rw [run_cons, ht, Option.bind_some, hrun]
      · obtain rfl := Option.some.inj (ht.symm.trans ht')
        exact halong
      · rw [List.length_cons]
        omega

theorem exists_run_to {P goal : σ → Prop} {m : σ → Nat}
    (hstep : ∀ s, P s → ¬ goal s → ∃ e t, step s e = some t ∧ P t ∧ m t < m s) {s : σ} (hs : P s) :
    ∃ es t, run step s es = some t ∧ goal t ∧ P t ∧ es.length ≤ m s := by
  obtain ⟨es, t, hrun, -, h⟩ := @exists_run_to_along _ _ step (fun _ _ => True) P goal m
    (fun s hs hnot => by
      obtain ⟨e, t, h⟩ := hstep s hs hnot
      exact ⟨e, t, trivial, h⟩) s hs
  exact ⟨es, t, hrun, h⟩

/-- The steps of a run that `p` picks out, counted. -/
def count (step : σ → ε → Option σ) (p : σ → ε → Prop) [∀ s e, Decidable (p s e)] (s : σ) :
    List ε → Nat
  | [] => 0
  | e :: es => (if p s e then 1 else 0) + match step s e with
    | none => 0
    | some t => count step p t es

/-- The rule for a measure that idle steps may raise: a run is no longer than it and what its
idle steps add. -/
theorem length_le_idle {ok idle : σ → ε → Prop} [∀ s e, Decidable (idle s e)] {P : σ → Prop}
    {m : σ → Nat} {d : Nat}
    (hstep : ∀ s e t, P s → ok s e → step s e = some t →
      P t ∧ (m t < m s ∨ idle s e ∧ m t ≤ m s + d)) {s t : σ} {es : List ε}
    (hrun : run step s es = some t) (hok : Along step ok s es) (hs : P s) :
    es.length ≤ m s + (d + 1) * count step idle s es := by
  induction es generalizing s with
  | nil => exact Nat.zero_le _
  | cons e es ih =>
    obtain ⟨u, hu, hrest⟩ := run_cons_some step hrun
    obtain ⟨hP, hmeasure⟩ := hstep s e u hs hok.1 hu
    have hlen := ih hrest (hok.2 u hu) hP
    unfold count
    rw [hu, List.length_cons]
    dsimp only
    by_cases hidle : idle s e
    · rw [if_pos hidle, Nat.mul_add]
      omega
    · have hlt := hmeasure.resolve_right fun h => hidle h.1
      rw [if_neg hidle, Nat.zero_add]
      omega

theorem le_of_run {m : σ → Nat} (hmono : ∀ s e t, step s e = some t → m s ≤ m t) {s t : σ}
    {es : List ε} (hrun : run step s es = some t) : m s ≤ m t := by
  induction es generalizing s with
  | nil => cases hrun; exact Nat.le_refl _
  | cons e es ih =>
    obtain ⟨u, hu, hrest⟩ := run_cons_some step hrun
    exact Nat.le_trans (hmono s e u hu) (ih hrest)

/-- What only grows is small all along a run at whose end it is small. -/
theorem along_le {m : σ → Nat} (hmono : ∀ s e t, step s e = some t → m s ≤ m t) {s t : σ}
    {es : List ε} {k : Nat} (hrun : run step s es = some t) (ht : m t ≤ k) :
    Along step (fun s e => ∀ u, step s e = some u → m u ≤ k) s es := by
  induction es generalizing s with
  | nil => trivial
  | cons e es ih =>
    obtain ⟨u, hu, hrest⟩ := run_cons_some step hrun
    have hle : m u ≤ k := Nat.le_trans (le_of_run hmono hrest) ht
    refine ⟨fun v hv => ?_, fun v hv => ?_⟩
    · rwa [Option.some.inj (hv.symm.trans hu)]
    · rw [Option.some.inj (hv.symm.trans hu)]
      exact ih hrest

section log

variable {τ κ : Type*} {covers : τ → κ → Prop}

/-- The entries that a log gains cover exactly the places of `P`. -/
def Adds (covers : τ → κ → Prop) (before after : List τ) (P : κ → Prop) : Prop :=
  ∃ new, after = before ++ new ∧ ∀ k, (∃ x ∈ new, covers x k) ↔ P k

theorem Adds.nothing {before after : List τ} {P : κ → Prop} (h : after = before)
    (hP : ∀ k, ¬ P k) : Adds covers before after P :=
  ⟨[], by simp [h], fun k => by simp [hP k]⟩

theorem Adds.one {before after : List τ} {P : κ → Prop} {x : τ} (h : after = before ++ [x])
    (hP : ∀ k, covers x k ↔ P k) : Adds covers before after P :=
  ⟨[x], h, fun k => by simp [hP k]⟩

theorem Adds.trans {l m n : List τ} {P Q R : κ → Prop} (h1 : Adds covers l m P)
    (h2 : Adds covers m n Q) (h : ∀ k, P k ∨ Q k ↔ R k) : Adds covers l n R := by
  obtain ⟨new1, rfl, hcov1⟩ := h1
  obtain ⟨new2, rfl, hcov2⟩ := h2
  refine ⟨new1 ++ new2, List.append_assoc _ _ _, fun k => ?_⟩
  simp only [List.mem_append, or_and_right, exists_or, hcov1, hcov2, h]

theorem Adds.congr {l m : List τ} {P Q : κ → Prop} (h : Adds covers l m P)
    (hPQ : ∀ k, P k ↔ Q k) : Adds covers l m Q := by
  obtain ⟨new, hlog, hcov⟩ := h
  exact ⟨new, hlog, fun k => (hcov k).trans (hPQ k)⟩

/-- The rule for a log: if each step adds what its event names, a run adds what
its events name. -/
theorem run_adds {P : σ → Prop} {log : σ → List τ} {names : ε → κ → Prop}
    (hstep : ∀ s e t, P s → step s e = some t → P t ∧ Adds covers (log s) (log t) (names e))
    {s t : σ} {es : List ε} (hrun : run step s es = some t) (hs : P s) :
    Adds covers (log s) (log t) fun k => ∃ e ∈ es, names e k := by
  induction es generalizing s with
  | nil =>
    cases hrun
    exact Adds.nothing rfl (by simp)
  | cons e es ih =>
    obtain ⟨u, hu, hrest⟩ := run_cons_some step hrun
    obtain ⟨hP, hadds⟩ := hstep s e u hs hu
    exact hadds.trans (ih hrest hP) (by simp)

end log

end machine
