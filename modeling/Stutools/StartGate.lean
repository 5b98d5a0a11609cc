-- The workers of a run of the engine (src/rust/src/engine.rs): they are prepared on threads of
-- their own, meet at one gate, and either all start at one instant or none does. What they come
-- to is merged and judged.
import Mathlib.Algebra.Order.Field.Rat
import Mathlib.Tactic.DeriveFintype
import Stutools.Barriers
import Stutools.Run

namespace stutools.gate

/-- The rest of `engine::Stats`. -/
structure RunStats extends Stats where
  seconds : ℚ := 0
  allocations : Nat := 0
  submit_errors : Nat := 0
  latencies_us : List Nat := []
  inflight_max : Nat := 0
  inflight_area_ns : Nat := 0
  inflight_time_ns : Nat := 0

/-- `Outcome`, with an error of the type of `Failure`. -/
structure Outcome (φ : Type*) where
  stats : RunStats := {}
  error : Option φ := none
  retained : Bool := false

variable {φ : Type*} {n : Nat}

def Outcome.failed (error : φ) : Outcome φ := { error := some error }

def Outcome.stopped : Outcome φ := {}

/-- Where `worker` is: in `Run::prepare`, before the store of an error, at the gate, past it, in
`begin`, in the measured run, or through; a run that panics gives the text of its `JoinError`. -/
inductive Worker (φ : Type*) where
  | preparing
  | failing (e : φ)
  | waiting (e : Option φ)
  | passed (e : Option φ)
  | beginning
  | running (start : ℚ)
  | failed (e : φ)
  | stopped
  | done (start : ℚ) (outcome : Except String (Outcome φ))

/-- `StartGate` -/
structure Shared where
  failed : Bool
  start : Option ℚ

/-- What the calls of a worker come to: the error of `prepare`, the clock, and the measured run. -/
structure Answer (φ : Type*) where
  prepared : Option φ
  now : ℚ
  outcome : Except String (Outcome φ)

/-- `worker`, between the gate's two sides. -/
def turn (sh : Shared) (x : Worker φ) (a : Answer φ) : Option (Shared × Worker φ) :=
  match x with
  | .preparing => some (sh, a.prepared.elim (.waiting none) .failing)
  | .failing e => some ({ sh with failed := true }, .waiting (some e))
  | .passed (some e) => some (sh, .failed e)
  | .passed none => some (sh, if sh.failed then .stopped else .beginning)
  | .beginning =>
    let start := sh.start.getD a.now
    some ({ sh with start := some start }, .running start)
  | .running start => some (sh, .done start a.outcome)
  | _ => none

def waits : Worker φ → Bool
  | .waiting _ => true
  | _ => false

def passes : Worker φ → Worker φ
  | .waiting e => .passed e
  | x => x

/-- The workers of `execute_plans` and their gate. -/
def workers (n : Nat) (φ : Type*) : barrier.Threads n Shared (Worker φ) (Answer φ) where
  turn _ := turn
  waits := waits
  passes := passes

abbrev State (n : Nat) (φ : Type*) := barrier.State n Shared (Worker φ)

def init (n : Nat) (φ : Type*) : State n φ := ⟨⟨false, none⟩, fun _ => .preparing⟩

abbrev step (n : Nat) (φ : Type*) := barrier.step (workers n φ)

/-- What the task of a worker gives to `execute_plans` once the worker is through. -/
def Worker.outcome : Worker φ → Option (Except String (Outcome φ))
  | .failed e => some (.ok (.failed e))
  | .stopped => some (.ok .stopped)
  | .done _ outcome => some outcome
  | _ => none

/-! ## The total and the verdict -/

/-- The counters of a worker, added to the total. -/
def merge (total s : RunStats) : RunStats where
  incorrect := total.incorrect + s.incorrect
  incorrect_offsets := s.incorrect_offsets.foldl
    (fun kept offset => if kept.length < INCORRECT_SAMPLES then kept ++ [offset] else kept)
    total.incorrect_offsets
  reads := total.reads + s.reads
  writes := total.writes + s.writes
  read_bytes := total.read_bytes + s.read_bytes
  write_bytes := total.write_bytes + s.write_bytes
  verified := total.verified + s.verified
  completed_reads := total.completed_reads + s.completed_reads
  completed_writes := total.completed_writes + s.completed_writes
  seconds := max total.seconds s.seconds
  allocations := total.allocations + s.allocations
  submit_errors := total.submit_errors + s.submit_errors
  latencies_us := total.latencies_us ++ s.latencies_us
  inflight_max := max total.inflight_max s.inflight_max
  inflight_area_ns := total.inflight_area_ns + s.inflight_area_ns
  inflight_time_ns := total.inflight_time_ns + s.inflight_time_ns

/-- The error after the worker at `index`; a later one takes the place of an earlier one. -/
def error_after [ToString φ] (label : String) (index : Nat) (out : Outcome φ)
    (error : Option String) : Option String :=
  let error := match out.error with
    | some e => some s!"worker {index + 1} target {label}: {e}"
    | none => error
  if out.retained then some "I/O cleanup failed; buffers retained" else error

/-- The loop of `aggregate` from the worker at `index` on. -/
def aggregate_from [ToString φ] (label : Nat → String) (index : Nat)
    (acc : RunStats × Option String) :
    List (Except String (Outcome φ)) → Except String (RunStats × Option String)
  | [] => .ok acc
  | .error e :: _ => .error e
  | .ok out :: results =>
    aggregate_from label (index + 1)
      (merge acc.1 out.stats, error_after (label index) index out acc.2) results

/-- `label` is the path of the target that a worker has. -/
def aggregate [ToString φ] (outcomes : List (Except String (Outcome φ))) (label : Nat → String) :
    Except String (RunStats × Option String) :=
  aggregate_from label 0 ({}, none) outcomes

/-- What `report` reads of the configuration; `verify` is the option or that of any job. -/
structure Checks where
  expected : Option (Nat × Nat) := none
  verify : Bool := false
  latency_out : Option String := none

structure Summary where
  reads : Nat
  writes : Nat
  read_bytes : Nat
  write_bytes : Nat
  seconds : ℚ
  latencies_us : List Nat

/-- The error that `report` ends with, which its own checks of the counts replace. -/
def final_error (c : Checks) (total : RunStats) (error : Option String) : Option String :=
  let error := if 0 < total.submit_errors then some "submission errors: Input/output error"
    else error
  let got := (total.completed_reads, total.completed_writes)
  match c.expected with
  | some expected =>
    if expected ≠ got then some s!"operation count mismatch: expected {expected}, got {got}"
    else error
  | none => error

def summary (total : RunStats) : Summary where
  reads := total.reads
  writes := total.writes
  read_bytes := total.read_bytes
  write_bytes := total.write_bytes
  seconds := max total.seconds ((1000000000 : ℕ) : ℚ)⁻¹
  latencies_us := total.latencies_us

/-- `report`, with the error of the write of the latency file, if there is one. -/
def report (c : Checks) (total : RunStats) (error write : Option String) :
    Except String Summary :=
  match final_error c total error with
  | some e => .error e
  | none =>
    if c.verify ∧ 0 < total.incorrect then
      .error s!"verification mismatch: {total.incorrect} blocks had wrong contents"
    else if total.allocations ≠ 0 then
      .error s!"hot path allocated {total.allocations} times"
    else match c.latency_out, write with
      | some path, some e => .error s!"write latency {path}: {e}"
      | _, _ => .ok (summary total)

/-- What the run comes to, from what its workers came to. -/
def verdict [ToString φ] (c : Checks) (label : Nat → String) (write : Option String)
    (outcomes : List (Except String (Outcome φ))) : Except String Summary := do
  let (total, error) ← aggregate outcomes label
  report c total error write

namespace Worker

def level : Worker φ → Nat
  | .preparing | .failing _ | .waiting _ => 0
  | _ => 1

def rest : Worker φ → Nat
  | .preparing => 6
  | .failing _ => 5
  | .waiting _ => 4
  | .passed _ => 3
  | .beginning => 2
  | .running _ => 1
  | _ => 0

/-- The worker is through. -/
def Done : Worker φ → Prop
  | .failed _ | .stopped | .done _ _ => True
  | _ => False

/-- The worker has told that it could not be prepared. -/
def refused : Worker φ → Bool
  | .waiting (some _) | .passed (some _) | .failed _ => true
  | _ => false

/-- The worker has found the gate open for the measured run. -/
def started : Worker φ → Bool
  | .beginning | .running _ | .done _ _ => true
  | _ => false

def start : Worker φ → Option ℚ
  | .running start | .done start _ => some start
  | _ => none

end Worker

theorem workers_levels : barrier.Levels (workers n φ) Worker.level where
  turn {_ sh _ x _ a} h := by
    cases x with
    | preparing =>
      cases h
      cases ha : a.prepared <;> simp [Worker.level]
    | passed e =>
      cases e <;> cases h
      · cases sh.failed <;> simp [Worker.level]
      · simp [Worker.level]
    | _ => cases h <;> simp [Worker.level]
  passes {x} h := by
    cases x <;> simp [workers, waits] at h
    simp [workers, passes, Worker.level]

theorem workers_measured : barrier.Measured (workers n φ) Worker.rest where
  turn {_ sh _ x _ a} h := by
    cases x with
    | preparing =>
      cases h
      cases ha : a.prepared <;> simp [Worker.rest]
    | passed e =>
      cases e <;> cases h
      · cases sh.failed <;> simp [Worker.rest]
      · simp [Worker.rest]
    | _ => cases h <;> simp [Worker.rest]
  passes {x} h := by
    cases x <;> simp [workers, waits] at h
    simp [workers, passes, Worker.rest]

/-- The invariant of the gate: the flag says whether a worker refused, and what each worker found
past the gate agrees with it. -/
structure Gated (s : State n φ) : Prop where
  level : barrier.Level Worker.level s
  flag : s.shared.failed = true ↔ ∃ i, (s.threads i).refused = true
  started : ∀ i, (s.threads i).started = true → s.shared.failed = false
  stopped : ∀ i, s.threads i = .stopped → s.shared.failed = true
  start : ∀ i start, (s.threads i).start = some start → s.shared.start = some start

theorem init_gated : Gated (init n φ) := by
  refine ⟨fun i j => rfl, ?_, ?_, ?_, ?_⟩
  · simp [init, Worker.refused]
  · simp [init]
  · simp [init]
  · simp [init, Worker.start]

/-- One worker changes, and the flag stays. -/
theorem Gated.update {s : State n φ} {i : Fin n} {x : Worker φ} {t : Option ℚ} (hs : Gated s)
    (hlevel : x.level = (s.threads i).level) (hrefused : x.refused = (s.threads i).refused)
    (hstarted : x.started = true → s.shared.failed = false)
    (hstopped : x = .stopped → s.shared.failed = true)
    (hstart : ∀ j a, (s.threads j).start = some a → t = some a)
    (hx : ∀ a, x.start = some a → t = some a) :
    Gated (n := n) ⟨{ s.shared with start := t }, Function.update s.threads i x⟩ := by
  have hother : ∀ {β : Type} (f : Worker φ → β), f x = f (s.threads i) →
      ∀ j, f (Function.update s.threads i x j) = f (s.threads j) := fun f hf j => by
    by_cases hj : j = i
    · subst hj
      rw [Function.update_self, hf]
    · rw [Function.update_of_ne hj]
  refine ⟨fun j k => ?_, ?_, fun j hj => ?_, fun j hj => ?_, fun j t hj => ?_⟩
  · simp only [hother Worker.level hlevel]
    exact hs.level j k
  · simp only [hother Worker.refused hrefused]
    exact hs.flag
  · dsimp only at hj
    by_cases hji : j = i
    · subst hji
      rw [Function.update_self] at hj
      exact hstarted hj
    · rw [Function.update_of_ne hji] at hj
      exact hs.started j hj
  · dsimp only at hj
    by_cases hji : j = i
    · subst hji
      rw [Function.update_self] at hj
      exact hstopped hj
    · rw [Function.update_of_ne hji] at hj
      exact hs.stopped j hj
  · dsimp only at hj
    by_cases hji : j = i
    · subst hji
      rw [Function.update_self] at hj
      exact hx t hj
    · rw [Function.update_of_ne hji] at hj
      exact hstart j t hj

theorem turn_gated {s : State n φ} {i : Fin n} {a : Answer φ} {sh : Shared} {x : Worker φ}
    (h : turn s.shared (s.threads i) a = some (sh, x)) (hs : Gated s) :
    Gated (n := n) ⟨sh, Function.update s.threads i x⟩ := by
  cases hw : s.threads i with
  | preparing =>
    rw [hw] at h
    cases h
    refine hs.update (t := s.shared.start) ?_ ?_ ?_ ?_ hs.start ?_
    all_goals cases ha : a.prepared <;>
      simp [hw, Worker.level, Worker.refused, Worker.started, Worker.start]
  | failing e =>
    rw [hw] at h
    cases h
    -- no worker is past the gate yet
    have hlow : ∀ j, (s.threads j).level = 0 := fun j => by
      have := hs.level j i
      rwa [hw] at this
    refine ⟨fun j k => ?_, ?_, fun j hj => ?_, fun j hj => rfl, fun j t hj => ?_⟩
    · have hsame : ∀ j, (Function.update s.threads i (.waiting (some e)) j).level = 0 := fun j => by
        by_cases hj : j = i
        · subst hj
          rw [Function.update_self]
          rfl
        · rw [Function.update_of_ne hj]
          exact hlow j
      simp only [hsame]
    · refine iff_of_true rfl ⟨i, ?_⟩
      simp [Worker.refused]
    · dsimp only at hj
      by_cases hji : j = i
      · subst hji
        simp [Worker.started] at hj
      · rw [Function.update_of_ne hji] at hj
        have := hlow j
        cases hx : s.threads j <;> simp [hx, Worker.level, Worker.started] at this hj
    · dsimp only at hj
      by_cases hji : j = i
      · subst hji
        simp [Worker.start] at hj
      · rw [Function.update_of_ne hji] at hj
        exact hs.start j t hj
  | waiting e =>
    rw [hw] at h
    cases h
  | passed e =>
    rw [hw] at h
    cases e with
    | some e =>
      cases h
      refine hs.update (t := s.shared.start) ?_ ?_ ?_ ?_ hs.start ?_
      all_goals simp [hw, Worker.level, Worker.refused, Worker.started, Worker.start]
    | none =>
      cases h
      refine hs.update (t := s.shared.start) ?_ ?_ ?_ ?_ hs.start ?_
      all_goals cases hf : s.shared.failed <;>
        simp [hw, Worker.level, Worker.refused, Worker.started, Worker.start]
  | beginning =>
    rw [hw] at h
    cases h
    have hopen := hs.started i (by simp [hw, Worker.started])
    refine hs.update ?_ ?_ (fun _ => hopen) ?_ (fun j t hj => ?_) ?_
    · simp [hw, Worker.level]
    · simp [hw, Worker.refused]
    · simp
    · rw [hs.start j t hj, Option.getD_some]
    · simp [Worker.start]
  | running start =>
    rw [hw] at h
    cases h
    have hopen := hs.started i (by simp [hw, Worker.started])
    have hstart := hs.start i start (by simp [hw, Worker.start])
    refine hs.update (t := s.shared.start) ?_ ?_ (fun _ => hopen) ?_ hs.start ?_
    · simp [hw, Worker.level]
    · simp [hw, Worker.refused]
    · simp
    · simp [Worker.start, hstart]
  | _ =>
    rw [hw] at h
    cases h

theorem step_gated {s t : State n φ} {ev : barrier.Event n (Answer φ)} (h : step n φ s ev = some t)
    (hs : Gated s) : Gated t := by
  rcases barrier.step_cases h with ⟨i, a, sh, x, hturn, rfl⟩ | ⟨-, hall, rfl⟩
  · exact turn_gated hturn hs
  · have hsame : ∀ i, ((workers n φ).passes (s.threads i)).refused = (s.threads i).refused ∧
        ((workers n φ).passes (s.threads i)).started = false ∧
        (workers n φ).passes (s.threads i) ≠ .stopped ∧
        ((workers n φ).passes (s.threads i)).start = none := fun i => by
      have hwaits := hall i
      cases hx : s.threads i <;> simp [hx, workers, waits] at hwaits
      rename_i e
      cases e <;> simp [workers, passes, Worker.refused, Worker.started, Worker.start]
    refine ⟨barrier.step_level workers_levels h hs.level, ?_, fun i hi => ?_, fun i hi => ?_,
      fun i t hi => ?_⟩
    · simp only [(hsame _).1]
      exact hs.flag
    · simp [(hsame i).2.1] at hi
    · exact absurd hi (hsame i).2.2.1
    · simp [(hsame i).2.2.2] at hi

theorem run_gated {s : State n φ} {es : List (barrier.Event n (Answer φ))}
    (hrun : machine.run (step n φ) (init n φ) es = some s) : Gated s :=
  machine.invariant (fun _ _ _ hs hstep => step_gated hstep hs) hrun init_gated

/-! ## Progress -/

theorem exists_step {s : State n φ} (hs : Gated s) (hnot : ∃ i, ¬ (s.threads i).Done) :
    ∃ ev t, step n φ s ev = some t := by
  refine barrier.exists_step (fun i => ?_) (fun i j hdone hwaits => ?_) hnot
  · cases h : s.threads i with
    | waiting e => exact .inr (.inl rfl)
    | failed e | stopped | done start o => exact .inl trivial
    | passed e => cases e <;> exact .inr (.inr ⟨⟨none, 0, .error ""⟩, rfl⟩)
    | _ => exact .inr (.inr ⟨⟨none, 0, .error ""⟩, rfl⟩)
  · have hlevel := hs.level i j
    cases hi : s.threads i <;> cases hj : s.threads j <;>
      simp [hi, hj, Worker.Done, Worker.level, workers, waits] at hlevel hdone hwaits

theorem rest_le (s : State n φ) : ∑ i, (s.threads i).rest ≤ n * 6 := by
  have hle : ∀ i ∈ Finset.univ, (s.threads i).rest ≤ 6 := fun i _ => by
    cases s.threads i <;> simp [Worker.rest]
  simpa using Finset.sum_le_card_nsmul Finset.univ _ 6 hle

/-! ## The end of a run -/

/-- The workers are through when each has an outcome. -/
theorem done_of_outcome {x : Worker φ} {result : Except String (Outcome φ)}
    (h : x.outcome = some result) : x.Done := by
  cases x <;> simp [Worker.outcome, Worker.Done] at h ⊢

/-- A worker that is through was refused, was stopped by another or was started. -/
theorem done_cases {x : Worker φ} (h : x.Done) :
    (∃ e, x = .failed e) ∨ x = .stopped ∨ ∃ start o, x = .done start o := by
  cases x <;> simp [Worker.Done] at h ⊢

/-- All workers were started at one instant, or some was refused and none was started. -/
theorem Gated.together {s : State n φ} (hs : Gated s) (hn : 0 < n)
    (hdone : ∀ i, (s.threads i).Done) :
    (∃ start, ∀ i, ∃ o, s.threads i = .done start o) ∨
      (∃ i e, s.threads i = .failed e) ∧
        ∀ i, s.threads i = .stopped ∨ ∃ e, s.threads i = .failed e := by
  by_cases hflag : s.shared.failed = true
  · right
    obtain ⟨i, hi⟩ := hs.flag.mp hflag
    refine ⟨⟨i, ?_⟩, fun j => ?_⟩
    · rcases done_cases (hdone i) with h | h | ⟨start, o, h⟩
      · exact h
      · simp [h, Worker.refused] at hi
      · simp [h, Worker.refused] at hi
    · rcases done_cases (hdone j) with h | h | ⟨start, o, h⟩
      · exact .inr h
      · exact .inl h
      · have hopen := hs.started j (by simp [h, Worker.started])
        rw [hflag] at hopen
        cases hopen
  · left
    have hall : ∀ i, ∃ start o, s.threads i = .done start o := fun i => by
      rcases done_cases (hdone i) with ⟨e, h⟩ | h | h
      · exact absurd (hs.flag.mpr ⟨i, by simp [h, Worker.refused]⟩) hflag
      · exact absurd (hs.stopped i h) hflag
      · exact h
    obtain ⟨start, o, h0⟩ := hall ⟨0, hn⟩
    have hstart := hs.start _ start (by rw [h0]; rfl)
    refine ⟨start, fun i => ?_⟩
    obtain ⟨start', o', hi⟩ := hall i
    have hstart' := hs.start i start' (by rw [hi]; rfl)
    rw [hstart] at hstart'
    cases hstart'
    exact ⟨o', hi⟩

/-! ## What passes -/

theorem sum_eq_zero_iff_forall {os : List (Outcome φ)} {f : RunStats → Nat} :
    (os.map fun o => f o.stats).sum = 0 ↔ ∀ o ∈ os, f o.stats = 0 := by
  simp [List.sum_eq_zero_iff]

variable [ToString φ]

theorem error_after_eq_none {label : String} {index : Nat} {out : Outcome φ}
    {error : Option String} : error_after label index out error = none ↔
      out.error = none ∧ out.retained = false ∧ error = none := by
  unfold error_after
  cases out.error <;> cases out.retained <;> simp

theorem aggregate_from.spec {label : Nat → String} {results : List (Except String (Outcome φ))}
    {index : Nat} {acc r : RunStats × Option String}
    (h : aggregate_from label index acc results = .ok r) : ∃ os : List (Outcome φ),
      results = os.map Except.ok ∧
      (∀ f : RunStats → Nat, (∀ a b, f (merge a b) = f a + f b) →
        f r.1 = f acc.1 + (os.map fun o => f o.stats).sum) ∧
      (r.2 = none ↔ acc.2 = none ∧ ∀ o ∈ os, o.error = none ∧ o.retained = false) := by
  induction results generalizing index acc with
  | nil =>
    cases h
    exact ⟨[], rfl, fun f _ => by simp, by simp⟩
  | cons result results ih =>
    cases result with
    | error e => cases h
    | ok out =>
      obtain ⟨os, hos, hsum, hnone⟩ := ih h
      refine ⟨out :: os, by rw [hos]; rfl, fun f hf => ?_, ?_⟩
      · rw [hsum f hf, hf, List.map_cons, List.sum_cons, Nat.add_assoc]
      · simp only [hnone, error_after_eq_none, List.forall_mem_cons]
        tauto

theorem aggregate_from_ok (label : Nat → String) (index : Nat) (acc : RunStats × Option String)
    (os : List (Outcome φ)) : ∃ r, aggregate_from label index acc (os.map Except.ok) = .ok r := by
  induction os generalizing index acc with
  | nil => exact ⟨acc, rfl⟩
  | cons out os ih => exact ih _ _

theorem final_error_eq_none {c : Checks} {total : RunStats} {error : Option String} :
    final_error c total error = none ↔ error = none ∧ total.submit_errors = 0 ∧
      ∀ e, c.expected = some e → e = (total.completed_reads, total.completed_writes) := by
  unfold final_error
  have herror : (if 0 < total.submit_errors then some "submission errors: Input/output error"
      else error) = none ↔ error = none ∧ total.submit_errors = 0 := by
    by_cases h : 0 < total.submit_errors
    · simp [h, h.ne']
    · simp [Nat.eq_zero_of_not_pos h]
  cases c.expected with
  | none => simpa using herror
  | some e =>
    by_cases h : e = (total.completed_reads, total.completed_writes)
    · simpa [h] using herror
    · simp [h]

/-- A run passes when each of the checks does. -/
theorem report_ok_iff {c : Checks} {total : RunStats} {error write : Option String} :
    (∃ r, report c total error write = .ok r) ↔
      final_error c total error = none ∧ (c.verify = true → total.incorrect = 0) ∧
      total.allocations = 0 ∧ (c.latency_out.isSome = true → write = none) := by
  unfold report
  cases hfinal : final_error c total error with
  | some e => simp
  | none =>
    by_cases hverify : c.verify = true ∧ 0 < total.incorrect
    · have hpos := hverify.2.ne'
      simp [hverify, hpos]
    · have hclean : (c.verify = true → total.incorrect = 0) = True := eq_true fun h => by
        by_contra hne
        exact hverify ⟨h, Nat.pos_of_ne_zero hne⟩
      rw [if_neg hverify]
      by_cases hallocations : total.allocations = 0
      · cases c.latency_out <;> cases write <;> simp [hallocations, hclean]
      · simp [hallocations]

/-- What each worker came to for a run to pass. -/
def Passes (c : Checks) (o : Outcome φ) : Prop :=
  o.error = none ∧ o.retained = false ∧ o.stats.submit_errors = 0 ∧ o.stats.allocations = 0 ∧
    (c.verify = true → o.stats.incorrect = 0)

/-- The verdict is that of every worker, and of the counts of all of them. -/
theorem verdict_ok_iff {c : Checks} {label : Nat → String} {write : Option String}
    {results : List (Except String (Outcome φ))} :
    (∃ r, verdict c label write results = .ok r) ↔
      ∃ os : List (Outcome φ), results = os.map Except.ok ∧ (∀ o ∈ os, Passes c o) ∧
      (∀ e, c.expected = some e → e = ((os.map fun o => o.stats.completed_reads).sum,
        (os.map fun o => o.stats.completed_writes).sum)) ∧
      (c.latency_out.isSome = true → write = none) := by
  have htotal : ∀ r : RunStats × Option String, aggregate results label = .ok r →
      verdict c label write results = report c r.1 r.2 write := fun r hr => by
    rw [verdict, hr]
    rfl
  -- the judgement of the total, in terms of the workers
  have hjudge : ∀ (r : RunStats × Option String) (os : List (Outcome φ)),
      aggregate results label = .ok r → results = os.map Except.ok →
      ((∃ s, report c r.1 r.2 write = .ok s) ↔ (∀ o ∈ os, Passes c o) ∧
        (∀ e, c.expected = some e → e = ((os.map fun o => o.stats.completed_reads).sum,
          (os.map fun o => o.stats.completed_writes).sum)) ∧
        (c.latency_out.isSome = true → write = none)) := fun r os hr hos => by
    obtain ⟨os', hos', hsum, hnone⟩ := aggregate_from.spec hr
    obtain rfl : os = os' := List.map_injective_iff.mpr
      (fun _ _ h => Except.ok.inj h) (hos.symm.trans hos')
    have hadd : ∀ f : RunStats → Nat, (∀ a b, f (merge a b) = f a + f b) → f {} = 0 →
        f r.1 = (os.map fun o => f o.stats).sum := fun f hf h0 => by
      rw [hsum f hf, h0, Nat.zero_add]
    rw [report_ok_iff, final_error_eq_none, hnone,
      hadd (·.submit_errors) (fun _ _ => rfl) rfl, hadd (·.allocations) (fun _ _ => rfl) rfl,
      hadd (·.incorrect) (fun _ _ => rfl) rfl, hadd (·.completed_reads) (fun _ _ => rfl) rfl,
      hadd (·.completed_writes) (fun _ _ => rfl) rfl, sum_eq_zero_iff_forall,
      sum_eq_zero_iff_forall (f := (·.incorrect)), sum_eq_zero_iff_forall]
    constructor
    · rintro ⟨⟨⟨-, hos⟩, herrors, hexpected⟩, hverify, hallocations, hwrite⟩
      exact ⟨fun o ho => ⟨(hos o ho).1, (hos o ho).2, herrors o ho, hallocations o ho,
        fun h => hverify h o ho⟩, hexpected, hwrite⟩
    · rintro ⟨hos, hexpected, hwrite⟩
      exact ⟨⟨⟨rfl, fun o ho => ⟨(hos o ho).1, (hos o ho).2.1⟩⟩,
        fun o ho => (hos o ho).2.2.1, hexpected⟩, fun h o ho => (hos o ho).2.2.2.2 h,
        fun o ho => (hos o ho).2.2.2.1, hwrite⟩
  constructor
  · rintro ⟨r, hr⟩
    cases ha : aggregate results label with
    | error e =>
      rw [verdict, ha] at hr
      cases hr
    | ok total =>
      obtain ⟨os, hos, -⟩ := aggregate_from.spec ha
      rw [htotal total ha] at hr
      exact ⟨os, hos, (hjudge total os ha hos).mp ⟨r, hr⟩⟩
  · rintro ⟨os, hos, hpasses⟩
    obtain ⟨total, ha⟩ := aggregate_from_ok label 0 ({}, none) os
    have ha : aggregate results label = .ok total := by rw [hos]; exact ha
    rw [htotal total ha]
    exact (hjudge total os ha hos).mpr hpasses

/-! ## The whole run -/

/-- Whatever the order of the turns of the workers, and whatever their calls come to: a run of
`n` workers takes at most `6 n` steps and can always be brought to its end. At its end all
workers were started at one instant, or one was refused and none was started. It is reported
as passed exactly when all were started and each came through without an error. -/
theorem workers_start_together_or_not_at_all_and_all_must_pass (hn : 0 < n) (c : Checks)
    (label : Nat → String) (write : Option String) (es : List (barrier.Event n (Answer φ)))
    (s : State n φ) (hrun : machine.run (step n φ) (init n φ) es = some s) :
    es.length ≤ 6 * n ∧
    (∃ fs t, machine.run (step n φ) s fs = some t ∧ ∀ i, (t.threads i).Done) ∧
    ∀ results : Fin n → Except String (Outcome φ),
      (∀ i, (s.threads i).outcome = some (results i)) →
      ((∃ start, ∀ i, s.threads i = .done start (results i)) ∨
        (∃ i e, s.threads i = .failed e) ∧
          ∀ i, s.threads i = .stopped ∨ ∃ e, s.threads i = .failed e) ∧
      ((∃ r, verdict c label write (List.ofFn results) = .ok r) ↔
        ∃ (start : ℚ) (outs : Fin n → Outcome φ),
          (∀ i, s.threads i = .done start (.ok (outs i))) ∧
          (∀ i, Passes c (outs i)) ∧
          (∀ e, c.expected = some e → e = (∑ i, (outs i).stats.completed_reads,
            ∑ i, (outs i).stats.completed_writes)) ∧
          (c.latency_out.isSome = true → write = none)) := by
  have hs := run_gated hrun
  refine ⟨?_, ?_, fun results hresults => ?_⟩
  · have hlength := barrier.length_le workers_measured hn hrun
    have hle := rest_le (init n φ)
    omega
  · exact barrier.exists_end workers_measured hn (fun _ _ _ hs hstep => step_gated hstep hs)
      (fun _ hs => exists_step hs) hs
  · have htogether : (∃ start, ∀ i, s.threads i = .done start (results i)) ∨
        (∃ i e, s.threads i = .failed e) ∧
          ∀ i, s.threads i = .stopped ∨ ∃ e, s.threads i = .failed e := by
      rcases hs.together hn (fun i => done_of_outcome (hresults i)) with ⟨start, h⟩ | h
      · refine .inl ⟨start, fun i => ?_⟩
        obtain ⟨o, ho⟩ := h i
        have hresult := hresults i
        rw [ho] at hresult ⊢
        rw [Option.some.inj hresult]
      · exact .inr h
    refine ⟨htogether, ?_⟩
    rw [verdict_ok_iff]
    constructor
    · rintro ⟨os, hos, hpasses, hexpected, hwrite⟩
      have hok : ∀ i, ∃ o, results i = .ok o := fun i => by
        have hmem : results i ∈ os.map Except.ok := hos ▸ List.mem_ofFn.mpr ⟨i, rfl⟩
        obtain ⟨o, -, ho⟩ := List.mem_map.mp hmem
        exact ⟨o, ho.symm⟩
      choose outs houts using hok
      obtain rfl : List.ofFn outs = os := List.map_injective_iff.mpr
        (fun _ _ h => Except.ok.inj h) (by
          rw [← hos, List.map_ofFn]
          congr 1
          funext i
          exact (houts i).symm)
      have hpass : ∀ i, Passes c (outs i) := fun i => hpasses _ (List.mem_ofFn.mpr ⟨i, rfl⟩)
      rcases htogether with ⟨start, hstart⟩ | ⟨⟨i, e, hfailed⟩, -⟩
      · refine ⟨start, outs, fun i => by rw [hstart i, houts i], hpass, ?_, hwrite⟩
        simpa [List.map_ofFn, List.sum_ofFn, Function.comp_def] using hexpected
      · -- the outcome of a refused worker holds its error
        have hresult := hresults i
        rw [hfailed, houts i] at hresult
        have herror := (hpass i).1
        rw [← Except.ok.inj (Option.some.inj hresult)] at herror
        cases herror
    · rintro ⟨start, outs, hdone, hpasses, hexpected, hwrite⟩
      refine ⟨List.ofFn outs, ?_, ?_, ?_, hwrite⟩
      · rw [List.map_ofFn]
        congr 1
        funext i
        have hresult := hresults i
        rw [hdone i] at hresult
        exact (Option.some.inj hresult).symm
      · simpa [List.mem_ofFn] using hpasses
      · simpa [List.map_ofFn, List.sum_ofFn, Function.comp_def] using hexpected

/-- Two workers that are prepared, meet, and come through. -/
def two_workers : List (barrier.Event 2 (Answer String)) :=
  let both := [.turn ⟨0, Nat.zero_lt_two⟩ ⟨none, 0, .ok {}⟩,
    .turn ⟨1, Nat.one_lt_two⟩ ⟨none, 1, .ok {}⟩]
  both ++ [.opens] ++ both ++ both ++ both

/-- The second takes the instant of the first. -/
theorem two_workers_start_together : ∃ s, machine.run (step 2 String) (init 2 String) two_workers =
    some s ∧ ∃ start, ∀ i, s.threads i = .done start (.ok {}) := by
  obtain ⟨s, hs, houtcome⟩ : ∃ s, machine.run (step 2 String) (init 2 String) two_workers =
      some s ∧ ∀ i, (s.threads i).outcome = some (.ok {}) :=
    ⟨_, rfl, Fin.forall_fin_two.mpr ⟨rfl, rfl⟩⟩
  have h := (workers_start_together_or_not_at_all_and_all_must_pass (by decide) {} (fun _ => "")
    none two_workers s hs).2.2 (fun _ => .ok {}) houtcome
  rcases h.1 with hstart | ⟨⟨i, e, hfailed⟩, -⟩
  · exact ⟨s, hs, hstart⟩
  · have hresult := houtcome i
    rw [hfailed] at hresult
    simp [Worker.outcome, Outcome.failed] at hresult

end stutools.gate
