-- What the pool reports of its commands in flight: the counter that the progress
-- line reads, and the statistics of the stream. Both are updated by hand beside
-- `in_flight`, and a dropped connection updates only one of them.
import Stutools.PoolSlots
import Stutools.Uint

open flags

namespace stutools

/-- `progress::Counter`, its commands in flight. -/
structure Counter where
  in_flight : Nat
deriving DecidableEq

def Counter.submitted (c : Counter) (count : Nat) : Counter := ⟨c.in_flight + count⟩

/-- None when the count would go below zero. -/
def Counter.completed (c : Counter) (count : Nat) : Option Counter :=
  (uint.sub c.in_flight count).map Counter.mk

/-- `StreamStats`, less its times. -/
structure StreamStats where
  max_in_flight : Nat
  in_flight : Nat
deriving DecidableEq

/-- Moves the count by one. None when it would go below zero. -/
def StreamStats.change (s : StreamStats) (submitted : Bool) : Option StreamStats :=
  if submitted then
    some { max_in_flight := max s.max_in_flight (s.in_flight + 1), in_flight := s.in_flight + 1 }
  else (uint.sub s.in_flight 1).map fun n => { s with in_flight := n }

variable {σ : Type} {T : Transport σ}

namespace Pool

/-- The part of `disconnect` that counts: every command put back leaves the statistics. -/
def disconnect_stats (p : Pool σ) (path : Nat) (s : StreamStats) : Option StreamStats :=
  (List.range p.slot_inflight.length).foldlM (fun s slot =>
    if p.slot_inflight.getD slot false = true ∧ p.slot_path.getD slot 0 = path then s.change false
    else some s) s

/-- One path's turn of the housekeeping, with the statistics. -/
def tick_stats (ticks : Nat → Option σ) (x : Pool σ × StreamStats) (path : Nat) :
    Option (Pool σ × StreamStats) :=
  if (x.1.session path).isSome ∧ (ticks path).isNone then
    (x.1.disconnect_stats path x.2).map fun s => (x.1.tick ticks path, s)
  else some (x.1.tick ticks path, x.2)

def tick_all_stats (p : Pool σ) (ticks : Nat → Option σ) (s : StreamStats) : Option StreamStats :=
  ((List.range p.sessions.length).foldlM (tick_stats ticks) (p, s)).map Prod.snd

end Pool

/-- What is counted beside the pool. -/
structure Counts where
  counter : Counter
  stats : StreamStats
deriving DecidableEq

namespace Drive

variable (T) in
/-- The path that a step takes down because a command could not be sent or waited for. -/
def lost_path (d : Drive σ) : Input σ → Option Nat
  | .submitted none =>
    match d.phase, d.held with
    | .send, some (_, req) =>
      match choose T d.pool req with
      | (.submit path _, _) => some path
      | _ => none
    | _, _ => none
  | .polled none _ =>
    match d.phase with
    | .wait => if d.pool.in_flight = 0 then none else busy_path T d.pool
    | _ => none
  | _ => none

variable (T) in
/-- The counts after a step of `drive` that is taken. -/
def counted (d : Drive σ) (input : Input σ) (c : Counts) : Option Counts :=
  match input with
  | .ticks ticks =>
    match d.phase with
    | .tick => (d.pool.tick_all_stats ticks c.stats).map fun s => { c with stats := s }
    | _ => some c
  | .submitted (some _) =>
    match d.phase, d.held with
    | .send, some (_, req) =>
      match choose T d.pool req with
      | (.submit _ _, _) => do
        let stats ← c.stats.change true
        return { counter := c.counter.submitted 1, stats := stats }
      | _ => some c
    | _, _ => some c
  | .polled (some (_, done)) _ =>
    match d.phase with
    | .wait =>
      if d.pool.in_flight = 0 ∨ (busy_path T d.pool).isNone ∨
          d.pool.slot_inflight.length ≤ done.tag then some c
      else do
        let stats ← c.stats.change false
        let counter ← c.counter.completed 1
        return { counter := counter, stats := stats }
    | _ => some c
  | input =>
    match lost_path T d input with
    | some path => (d.pool.disconnect_stats path c.stats).map fun s => { c with stats := s }
    | none => some c

end Drive

/-- `drive` with an observer. -/
structure Observed (σ : Type) where
  drive : Drive σ
  counts : Counts

variable (T) in
/-- One step. It is refused if `drive` does not take it, or if a count goes below zero. -/
def Observed.step (o : Observed σ) (input : Input σ) : Option (Observed σ) := do
  let drive ← o.drive.step T input
  let counts ← o.drive.counted T input o.counts
  return ⟨drive, counts⟩

/-! ## Dropped connections -/

namespace Pool

variable {p : Pool σ}

theorem foldlM_change (q : Nat → Prop) [DecidablePred q] (slots : List Nat) (s : StreamStats)
    (h : (slots.filter q).length ≤ s.in_flight) :
    slots.foldlM (fun s slot => if q slot then s.change false else some s) s =
      some { s with in_flight := s.in_flight - (slots.filter q).length } := by
  induction slots generalizing s with
  | nil => rfl
  | cons slot slots ih =>
    rw [List.foldlM_cons]
    by_cases hq : q slot
    · rw [List.filter_cons_of_pos (by simpa using hq), List.length_cons] at h ⊢
      rw [if_pos hq]
      have hchange : s.change false = some { s with in_flight := s.in_flight - 1 } := by
        simp [StreamStats.change, uint.sub_eq (show 1 ≤ s.in_flight by omega)]
      rw [hchange]
      refine (ih _ (by dsimp only; omega)).trans ?_
      simp only [Option.some.injEq, StreamStats.mk.injEq, true_and]
      omega
    · rw [List.filter_cons_of_neg (by simpa using hq)] at h ⊢
      rw [if_neg hq]
      exact ih s h

theorem flying_on_eq (p : Pool σ) (path : Nat) :
    (List.range p.slot_inflight.length).filter (fun slot =>
      decide (p.slot_inflight.getD slot false = true ∧ p.slot_path.getD slot 0 = path)) =
      p.flying_on path := by
  unfold flying_on flying marked went
  rw [List.filter_filter]
  apply List.filter_congr
  intro slot _
  simp only [Bool.decide_and, Bool.decide_eq_true, Bool.and_comm]

/-- The statistics lose one for every command that is put back. -/
theorem disconnect_stats.spec (path : Nat) (s : StreamStats)
    (h : (p.flying_on path).length ≤ s.in_flight) : p.disconnect_stats path s =
      some { s with in_flight := s.in_flight - (p.flying_on path).length } := by
  unfold disconnect_stats
  rw [← flying_on_eq] at h ⊢
  exact foldlM_change _ _ s h

theorem disconnect_in_flight (p : Pool σ) (path : Nat) :
    (p.disconnect path).in_flight = p.in_flight - (p.flying_on path).length := by
  rw [disconnect_eq]
  rfl

/-- The pool counts its slots in flight. -/
def Counting (p : Pool σ) : Prop := p.in_flight = p.flying.length

theorem Counting.flying_on_le (h : p.Counting) (path : Nat) :
    (p.flying_on path).length ≤ p.in_flight := by
  rw [h]
  exact List.length_filter_le _ _

theorem Counting.disconnect (h : p.Counting) (path : Nat) : (p.disconnect path).Counting := by
  have hperm := marked_clear (flying_on_nodup p path) fun slot hslot => (mem_flying_on.mp hslot).1
  have hlen := hperm.length_eq
  rw [List.length_append] at hlen
  unfold Counting at h ⊢
  rw [disconnect_in_flight, disconnect_eq, h]
  exact Nat.sub_eq_of_eq_add (hlen.trans (Nat.add_comm _ _))

theorem Counting.tick (h : p.Counting) (ticks : Nat → Option σ) (path : Nat) :
    (p.tick ticks path).Counting := by
  unfold Pool.tick
  split
  · split
    · exact h
    · exact h.disconnect path
  · exact h

/-- The housekeeping keeps the statistics beside the pool's own count. -/
theorem tick_stats.spec {ticks : Nat → Option σ} (hp : p.Counting) {s : StreamStats}
    (hs : s.in_flight = p.in_flight) (path : Nat) :
    tick_stats ticks (p, s) path =
      some (p.tick ticks path, { s with in_flight := (p.tick ticks path).in_flight }) := by
  have hsame : s = { s with in_flight := p.in_flight } := by rw [← hs]
  unfold tick_stats Pool.tick
  by_cases hup : (p.session path).isSome = true
  · simp only [hup, true_and, if_true]
    cases hticks : ticks path with
    | some t =>
      simp only [Option.isNone_some, Bool.false_eq_true, if_false]
      rw [← hsame]
    | none =>
      simp only [Option.isNone_none, if_true]
      rw [disconnect_stats.spec path s (hs ▸ hp.flying_on_le path), disconnect_in_flight, ← hs]
      rfl
  · simp only [hup, Bool.false_eq_true, false_and, if_false]
    rw [← hsame]

theorem foldlM_tick_stats {ticks : Nat → Option σ} (paths : List Nat) (hp : p.Counting)
    {s : StreamStats} (hs : s.in_flight = p.in_flight) :
    paths.foldlM (tick_stats ticks) (p, s) =
      some (paths.foldl (tick ticks) p,
        { s with in_flight := (paths.foldl (tick ticks) p).in_flight }) := by
  induction paths generalizing p s with
  | nil =>
    have hsame : s = { s with in_flight := p.in_flight } := by rw [← hs]
    exact congrArg (fun t => some (p, t)) hsame
  | cons path paths ih =>
    rw [List.foldlM_cons, tick_stats.spec hp hs]
    exact ih (hp.tick ticks path) rfl

theorem tick_all_stats.spec {ticks : Nat → Option σ} (hp : p.Counting) {s : StreamStats}
    (hs : s.in_flight = p.in_flight) :
    p.tick_all_stats ticks s = some { s with in_flight := (p.tick_all ticks).in_flight } := by
  unfold tick_all_stats
  rw [foldlM_tick_stats _ hp hs]
  rfl

/-- The commands that the housekeeping leaves in flight. -/
theorem mem_tick_all_flying {ticks : Nat → Option σ} (paths : List Nat) (slot : Nat) :
    slot ∈ (paths.foldl (tick ticks) p).flying ↔ slot ∈ p.flying ∧
      ¬ (p.went slot ∈ paths ∧ (p.session (p.went slot)).isSome = true ∧
        ticks (p.went slot) = none) := by
  induction paths generalizing p with
  | nil => simp
  | cons path paths ih =>
    rw [List.foldl_cons, ih]
    unfold Pool.tick
    by_cases hup : (p.session path).isSome = true
    · cases hticks : ticks path with
      | some t =>
        -- the session is replaced: it is up as before
        have hsession : ∀ other, (({ p with sessions := p.sessions.set path (some t) } :
            Pool σ).session other).isSome = (p.session other).isSome := by
          intro other
          obtain ⟨s, hs⟩ := Option.isSome_iff_exists.mp hup
          by_cases he : path = other
          · subst he
            have hset : ({ p with sessions := p.sessions.set path (some t) } :
                Pool σ).session path = some t := session_set_self hs
            rw [hset, hup]
            rfl
          · exact congrArg Option.isSome (session_set_ne he)
        simp only [hup, if_true, hsession, List.mem_cons]
        show slot ∈ p.flying ∧ ¬ (p.went slot ∈ paths ∧ _) ↔ _
        constructor
        · rintro ⟨hf, hno⟩
          refine ⟨hf, ?_⟩
          rintro ⟨he | hin, hs, hn⟩
          · rw [he, hticks] at hn
            cases hn
          · exact hno ⟨hin, hs, hn⟩
        · rintro ⟨hf, hno⟩
          exact ⟨hf, fun h => hno ⟨.inr h.1, h.2⟩⟩
      | none =>
        simp only [hup, if_true, List.mem_cons]
        rw [mem_disconnect_flying, disconnect_went]
        have hsession : ((p.disconnect path).session (p.went slot)).isSome = true ↔
            p.went slot ≠ path ∧ (p.session (p.went slot)).isSome = true := by
          rw [Option.isSome_iff_exists, Option.isSome_iff_exists]
          constructor
          · rintro ⟨s, hs⟩
            obtain ⟨hne, hs⟩ := disconnect_session.mp hs
            exact ⟨hne, s, hs⟩
          · rintro ⟨hne, s, hs⟩
            exact ⟨s, disconnect_session.mpr ⟨hne, hs⟩⟩
        rw [hsession]
        constructor
        · rintro ⟨⟨hf, hne⟩, hno⟩
          refine ⟨hf, ?_⟩
          rintro ⟨he | hin, hs, hn⟩
          · exact hne he
          · exact hno ⟨hin, ⟨hne, hs⟩, hn⟩
        · rintro ⟨hf, hno⟩
          refine ⟨⟨hf, fun he => hno ⟨.inl he, by rw [he]; exact hup, by rw [he]; exact hticks⟩⟩, ?_⟩
          rintro ⟨hin, ⟨-, hs⟩, hn⟩
          exact hno ⟨.inr hin, hs, hn⟩
    · have hsame : ∀ h : p.went slot = path, (p.session (p.went slot)).isSome = true → False := by
        intro he hs
        rw [he] at hs
        exact hup hs
      simp only [hup, Bool.false_eq_true, if_false, List.mem_cons]
      tauto

theorem Counting.tick_all (h : p.Counting) (ticks : Nat → Option σ) :
    (p.tick_all ticks).Counting :=
  List.foldlRecOn _ _ h fun _ hq path _ => hq.tick ticks path

/-- The housekeeping leaves the count as it is exactly if no command was on a path it
takes down. -/
theorem tick_all_in_flight (h : p.Counting) (ticks : Nat → Option σ) :
    (p.tick_all ticks).in_flight ≤ p.in_flight ∧
    ((p.tick_all ticks).in_flight = p.in_flight ↔ ∀ slot ∈ p.flying,
      ¬ ((p.session (p.went slot)).isSome = true ∧ ticks (p.went slot) = none)) := by
  have hmem : ∀ slot, slot ∈ (p.tick_all ticks).flying ↔ slot ∈ p.flying ∧
      ¬ ((p.session (p.went slot)).isSome = true ∧ ticks (p.went slot) = none) := by
    intro slot
    refine (mem_tick_all_flying (List.range p.sessions.length) slot).trans ?_
    refine and_congr_right fun _ => not_congr ⟨fun h => h.2, fun h => ⟨?_, h⟩⟩
    obtain ⟨s, hs⟩ := Option.isSome_iff_exists.mp h.1
    exact List.mem_range.mpr (session_lt hs)
  have hnodup : p.flying.Nodup := marked_nodup _
  have hnodup' : (p.tick_all ticks).flying.Nodup := marked_nodup _
  have hsub : (p.tick_all ticks).flying ⊆ p.flying := fun slot hs => ((hmem slot).mp hs).1
  have hle := (hnodup'.subperm hsub).length_le
  rw [h.tick_all ticks, h]
  refine ⟨hle, fun heq slot hs => ?_, fun hall => ?_⟩
  · have hperm := (hnodup'.subperm hsub).perm_of_length_le (Nat.le_of_eq heq.symm)
    exact ((hmem slot).mp (hperm.mem_iff.mpr hs)).2
  · have hsub' : p.flying ⊆ (p.tick_all ticks).flying :=
      fun slot hs => (hmem slot).mpr ⟨hs, hall slot hs⟩
    exact Nat.le_antisymm hle (hnodup.subperm hsub').length_le

theorem try_reconnect_in_flight (p : Pool σ) (opens : Nat → Attempt σ) :
    (p.try_reconnect T opens).in_flight = p.in_flight := by
  refine List.foldlRecOn (motive := fun q : Pool σ => q.in_flight = p.in_flight) _ _ rfl ?_
  intro q hq path _
  unfold reconnect
  split
  · split
    · exact hq
    · exact hq
    · exact hq
  · exact hq

end Pool

namespace Drive

variable {d e : Drive σ}

/-! ## One step -/

variable (T) in
/-- The step takes the path down. -/
def TakesDown (d : Drive σ) (input : Input σ) (path : Nat) : Prop :=
  match input with
  | .ticks ticks => d.phase = .tick ∧ (d.pool.session path).isSome = true ∧ ticks path = none
  | input => lost_path T d input = some path

variable (T) in
/-- No command is in flight on a path that the step takes down. -/
def Calm (d : Drive σ) (input : Input σ) : Prop :=
  ∀ slot ∈ d.pool.flying, ¬ TakesDown T d input (d.pool.went slot)

theorem fetch_in_flight {input : Input σ} (h : d.fetch input = some e) :
    e.pool.in_flight = d.pool.in_flight := by
  unfold fetch at h
  split at h
  · cases h
    rfl
  split at h
  · cases h
    rfl
  split at h
  · split at h
    · cases h
      rfl
    · cases h
      rfl
  · split at h
    · cases h
      rfl
    · split at h
      · cases h
        rfl
      · cases h
        rfl
      · cases h
        rfl
      · cases h

theorem finish_in_flight (d : Drive σ) (path : Nat) (s : σ) (done : Done) (nanos : Nat) :
    (d.finish path s done nanos).pool.in_flight =
      if d.pool.slot_inflight.length ≤ done.tag then d.pool.in_flight else d.pool.in_flight - 1 := by
  unfold finish
  dsimp only
  split_ifs <;> rfl

/-- What a step does to the counts, beside what it does to the pool's own count. -/
structure Follows (T : Transport σ) (d : Drive σ) (input : Input σ) (e : Drive σ) (c c' : Counts) :
    Prop where
  stats : c'.stats.in_flight = e.pool.in_flight
  le : e.pool.in_flight ≤ c'.counter.in_flight
  most : c'.stats.max_in_flight = c.stats.max_in_flight ∨ e.phase = .fetch ∧
    c'.stats.max_in_flight = max c.stats.max_in_flight e.pool.in_flight
  exact : c'.counter.in_flight = e.pool.in_flight ↔
    c.counter.in_flight = d.pool.in_flight ∧ Calm T d input

section Step

variable {input : Input σ} {c : Counts} (hp : d.pool.Counting)
  (hs : c.stats.in_flight = d.pool.in_flight) (hc : d.pool.in_flight ≤ c.counter.in_flight)

include hp hs hc

omit hp in
/-- A step that takes no path down and leaves the pool's count. -/
theorem follows_same (hin : e.pool.in_flight = d.pool.in_flight) (hcalm : Calm T d input) :
    Follows T d input e c c := by
  refine ⟨by rw [hin]; exact hs, by rw [hin]; exact hc, .inl rfl, ?_⟩
  rw [hin]
  exact ⟨fun h => ⟨h, hcalm⟩, fun h => h.1⟩

/-- A step that takes a path down. -/
theorem follows_lost {path : Nat} (hlost : lost_path T d input = some path)
    (hinput : ∀ ticks, input ≠ .ticks ticks)
    (hin : e.pool.in_flight = d.pool.in_flight - (d.pool.flying_on path).length) :
    ∃ s, d.pool.disconnect_stats path c.stats = some s ∧
      Follows T d input e c { c with stats := s } := by
  have hle := hp.flying_on_le path
  refine ⟨_, Pool.disconnect_stats.spec path c.stats (hs ▸ hle), ?_, ?_, .inl rfl, ?_⟩
  · rw [hin, ← hs]
  · rw [hin]
    exact Nat.le_trans (Nat.sub_le _ _) hc
  · have hdown : ∀ other, TakesDown T d input other ↔ other = path := by
      intro other
      cases input with
      | ticks ticks => exact absurd rfl (hinput ticks)
      | _ =>
        show lost_path T d _ = some other ↔ _
        rw [hlost, Option.some.injEq]
        exact eq_comm
    have hcalm : Calm T d input ↔ (d.pool.flying_on path).length = 0 := by
      rw [List.length_eq_zero_iff, List.eq_nil_iff_forall_not_mem]
      unfold Calm
      simp only [hdown, Pool.mem_flying_on, not_and]
    rw [hcalm, hin]
    show c.counter.in_flight = _ ↔ _
    omega

/-- The housekeeping. -/
theorem follows_ticks {ticks : Nat → Option σ} (hphase : d.phase = .tick)
    (hin : e.pool = d.pool.tick_all ticks) :
    ∃ s, d.pool.tick_all_stats ticks c.stats = some s ∧
      Follows T d (.ticks ticks) e c { c with stats := s } := by
  obtain ⟨hle, hsame⟩ := Pool.tick_all_in_flight hp ticks
  refine ⟨_, Pool.tick_all_stats.spec hp hs, ?_, ?_, .inl rfl, ?_⟩
  · rw [hin]
  · rw [hin]
    exact Nat.le_trans hle hc
  · have hcalm : Calm T d (.ticks ticks) ↔
        (d.pool.tick_all ticks).in_flight = d.pool.in_flight := by
      rw [hsame]
      unfold Calm TakesDown
      simp only [hphase, true_and]
    rw [hcalm, hin]
    show c.counter.in_flight = _ ↔ _
    omega

omit hp in
/-- A command that was sent. -/
theorem follows_sent (hphase : e.phase = .fetch)
    (hin : e.pool.in_flight = d.pool.in_flight + 1) (hcalm : Calm T d input) :
    Follows T d input e c
      { counter := c.counter.submitted 1
        stats := { max_in_flight := max c.stats.max_in_flight (c.stats.in_flight + 1)
                   in_flight := c.stats.in_flight + 1 } } := by
  refine ⟨by rw [hin, ← hs], ?_, .inr ⟨hphase, by rw [hin, ← hs]⟩, ?_⟩
  · rw [hin]
    exact Nat.succ_le_succ hc
  · rw [hin]
    show c.counter.in_flight + 1 = _ ↔ _
    constructor
    · intro h
      exact ⟨by omega, hcalm⟩
    · rintro ⟨h, -⟩
      omega

omit hp in
/-- A command that has finished. -/
theorem follows_finished (hbusy : d.pool.in_flight ≠ 0)
    (hin : e.pool.in_flight = d.pool.in_flight - 1) (hcalm : Calm T d input) :
    ∃ stats counter, c.stats.change false = some stats ∧ c.counter.completed 1 = some counter ∧
      Follows T d input e c { counter := counter, stats := stats } := by
  refine ⟨{ c.stats with in_flight := c.stats.in_flight - 1 }, ⟨c.counter.in_flight - 1⟩, ?_, ?_,
    ?_, ?_, .inl rfl, ?_⟩
  · simp [StreamStats.change, uint.sub_eq (show 1 ≤ c.stats.in_flight by omega)]
  · simp [Counter.completed, uint.sub_eq (show 1 ≤ c.counter.in_flight by omega)]
  · rw [hin, ← hs]
  · rw [hin]
    exact Nat.sub_le_sub_right hc 1
  · rw [hin]
    show c.counter.in_flight - 1 = _ ↔ _
    constructor
    · intro h
      exact ⟨by omega, hcalm⟩
    · rintro ⟨h, -⟩
      omega

omit hp in
/-- A step that leaves the counts: none is sent, waited for or taken down. -/
theorem step_idle (h : d.counted T input c = some c ∧ ∀ path, ¬ TakesDown T d input path)
    (hin : e.pool.in_flight = d.pool.in_flight) :
    ∃ c', d.counted T input c = some c' ∧ Follows T d input e c c' :=
  ⟨c, h.1, follows_same hs hc hin fun _ _ => h.2 _⟩

/-- A step that takes a path down, with its counts. -/
theorem step_lost {path : Nat} (hlost : lost_path T d input = some path)
    (hinput : ∀ ticks, input ≠ .ticks ticks)
    (hin : e.pool.in_flight = d.pool.in_flight - (d.pool.flying_on path).length) :
    ∃ c', d.counted T input c = some c' ∧ Follows T d input e c c' := by
  obtain ⟨s, hstats, hfollows⟩ := follows_lost hp hs hc hlost hinput hin
  refine ⟨_, ?_, hfollows⟩
  cases input with
  | ticks ticks => exact absurd rfl (hinput ticks)
  | submitted session =>
    cases session with
    | none =>
      simp only [counted, hlost, hstats]
      rfl
    | some session => cases hlost
  | polled answer nanos =>
    cases answer with
    | none =>
      simp only [counted, hlost, hstats]
      rfl
    | some answer => cases hlost
  | _ => cases hlost

omit hp hs hc in
theorem counted_of_no_submit {slot : Nat} {req : Request} (hphase : d.phase = .send)
    (hheld : d.held = some (slot, req)) (h : ∀ path io, (choose T d.pool req).1 ≠ .submit path io) :
    d.counted T input c = some c ∧ ∀ path, ¬ TakesDown T d input path := by
  rcases hchoose : choose T d.pool req with ⟨choice, q⟩
  rw [hchoose] at h
  cases choice with
  | submit path io => exact absurd rfl (h path io)
  | _ =>
    cases input with
    | submitted session =>
      cases session <;> simp [counted, TakesDown, lost_path, hphase, hheld, hchoose]
    | polled answer nanos =>
      rcases answer with _ | ⟨_, _⟩ <;> simp [counted, TakesDown, lost_path, hphase]
    | _ => simp [counted, TakesDown, lost_path, hphase]

theorem send_follows {slot : Nat} {req : Request} (hphase : d.phase = .send)
    (hheld : d.held = some (slot, req)) (hlanes : d.pool.lanes.paths = d.pool.sessions.length)
    (h : d.send T slot req input = some e) :
    ∃ c', d.counted T input c = some c' ∧ Follows T d input e c c' := by
  unfold send at h
  rcases hchoose : choose T d.pool req with ⟨choice, q⟩
  obtain ⟨⟨lanes, rfl, -⟩, -⟩ := choose.spec hlanes hchoose
  rw [hchoose] at h
  cases choice with
  | refused err =>
    cases h
    exact step_idle hs hc (counted_of_no_submit hphase hheld (by rw [hchoose]; nofun)) rfl
  | later =>
    cases h
    exact step_idle hs hc (counted_of_no_submit hphase hheld (by rw [hchoose]; nofun)) rfl
  | sleep =>
    dsimp only at h
    split at h
    · cases h
      exact step_idle hs hc (counted_of_no_submit hphase hheld (by rw [hchoose]; nofun))
        (Pool.try_reconnect_in_flight _ _)
    · cases h
  | submit path io =>
    dsimp only at h
    split at h
    · cases h
      have hlost : lost_path T d (.submitted none) = some path := by
        simp [lost_path, hphase, hheld, hchoose]
      exact step_lost hp hs hc hlost nofun
        (Pool.disconnect_in_flight ({ d.pool with lanes } : Pool σ) path)
    · cases h
      refine ⟨_, ?_, follows_sent hs hc rfl rfl fun _ _ => nofun⟩
      simp [counted, hphase, hheld, hchoose, StreamStats.change]
    · cases h

omit hp hs hc in
theorem counted_of_no_wait (hphase : d.phase = .wait)
    (h : d.pool.in_flight = 0 ∨ busy_path T d.pool = none) :
    d.counted T input c = some c ∧ ∀ path, ¬ TakesDown T d input path := by
  have hlost : ∀ nanos, lost_path T d (.polled none nanos) = none := by
    intro nanos
    rcases h with h | h <;> simp [lost_path, hphase, h]
  cases input with
  | submitted session => cases session <;> simp [counted, TakesDown, lost_path, hphase]
  | polled answer nanos =>
    cases answer with
    | none => simp [counted, TakesDown, hlost]
    | some answer =>
      refine ⟨?_, fun path => nofun⟩
      rcases h with h | h <;> simp [counted, hphase, h]
  | _ => simp [counted, TakesDown, lost_path, hphase]

theorem wait_follows (hphase : d.phase = .wait) (h : d.wait T input = some e) :
    ∃ c', d.counted T input c = some c' ∧ Follows T d input e c c' := by
  unfold wait at h
  split at h
  · rename_i hidle
    have hnone := @counted_of_no_wait σ T d input c hphase (.inl hidle)
    split at h
    · cases h
      exact step_idle hs hc hnone rfl
    split at h
    · cases h
      exact step_idle hs hc hnone rfl
    · cases h
      exact step_idle hs hc hnone rfl
  · rename_i hbusy
    split at h
    · rename_i hnone
      cases h
      exact step_idle hs hc (counted_of_no_wait hphase (.inr hnone)) rfl
    · rename_i path hpath
      split at h
      · cases h
        have hlost : lost_path T d (.polled none ‹_›) = some path := by
          simp [lost_path, hphase, hbusy, hpath]
        exact step_lost hp hs hc hlost nofun (Pool.disconnect_in_flight d.pool path)
      · rename_i session done nanos
        cases h
        have hin := finish_in_flight d path session done nanos
        by_cases htag : d.pool.slot_inflight.length ≤ done.tag
        · rw [if_pos htag] at hin
          refine step_idle hs hc ⟨?_, fun path => nofun⟩ hin
          simp [counted, hphase, htag]
        · rw [if_neg htag] at hin
          have hcalm : Calm T d (.polled (some (session, done)) nanos) := fun _ _ => nofun
          obtain ⟨stats, counter, h1, h2, h3⟩ := follows_finished hs hc hbusy hin hcalm
          refine ⟨_, ?_, h3⟩
          have hsome : ¬ (d.pool.in_flight = 0 ∨ (busy_path T d.pool).isNone ∨
              d.pool.slot_inflight.length ≤ done.tag) := by
            simp [hbusy, hpath, htag]
          simp only [counted, hphase, if_neg hsome, h1, h2]
          rfl
      · cases h

omit hp hs hc in
theorem counted_elsewhere
    (hphase : d.phase = .top ∨ d.phase = .fetch ∨ d.phase = .send ∧ d.held = none) :
    d.counted T input c = some c ∧ ∀ path, ¬ TakesDown T d input path := by
  rcases hphase with hphase | hphase | ⟨hphase, hheld⟩
  · cases input with
    | submitted session => cases session <;> simp [counted, TakesDown, lost_path, hphase]
    | polled answer nanos =>
      rcases answer with _ | ⟨_, _⟩ <;> simp [counted, TakesDown, lost_path, hphase]
    | _ => simp [counted, TakesDown, lost_path, hphase]
  · cases input with
    | submitted session => cases session <;> simp [counted, TakesDown, lost_path, hphase]
    | polled answer nanos =>
      rcases answer with _ | ⟨_, _⟩ <;> simp [counted, TakesDown, lost_path, hphase]
    | _ => simp [counted, TakesDown, lost_path, hphase]
  · cases input with
    | submitted session => cases session <;> simp [counted, TakesDown, lost_path, hphase, hheld]
    | polled answer nanos =>
      rcases answer with _ | ⟨_, _⟩ <;> simp [counted, TakesDown, lost_path, hphase]
    | _ => simp [counted, TakesDown, lost_path, hphase]

/-- Every step of `drive` is counted: the statistics follow the pool's own count, and the
counter does unless a path with commands in flight is taken down. -/
theorem step_follows (hlanes : d.pool.lanes.paths = d.pool.sessions.length)
    (h : d.step T input = some e) :
    ∃ c', d.counted T input c = some c' ∧ Follows T d input e c c' := by
  unfold step at h
  split at h
  · rename_i hphase
    split at h
    · cases h
      exact step_idle hs hc (counted_elsewhere (.inl hphase)) (Pool.try_reconnect_in_flight _ _)
    · cases h
  · rename_i hphase
    split at h
    · rename_i ticks
      cases h
      obtain ⟨s, hstats, hfollows⟩ := @follows_ticks σ T d
        { d with pool := d.pool.tick_all ticks, phase := .fetch } c hp hs hc ticks hphase rfl
      refine ⟨_, ?_, hfollows⟩
      simp only [counted, hphase, hstats]
      rfl
    · cases h
  · rename_i hphase
    split at h
    · exact step_idle hs hc (counted_elsewhere (.inr (.inl hphase))) (fetch_in_flight h)
    · cases h
      exact step_idle hs hc (counted_elsewhere (.inr (.inl hphase))) rfl
  · rename_i hphase
    split at h
    · rename_i hheld
      cases h
      exact step_idle hs hc (counted_elsewhere (.inr (.inr ⟨hphase, hheld⟩))) rfl
    · rename_i hheld
      exact send_follows hp hs hc hphase hheld hlanes h
  · rename_i hphase
    exact wait_follows hp hs hc hphase h
  · cases h

end Step

/-! ## Every run -/

theorem run_follows (C : Contract T) {depth : Nat} {inputs : List (Input σ)} {c : Counts}
    (hd : Kept C depth d) (hrun : machine.run (Drive.step T) d inputs = some e)
    (hok : machine.Along (Drive.step T) C.Obeys d inputs)
    (hs : c.stats.in_flight = d.pool.in_flight) (hc : d.pool.in_flight ≤ c.counter.in_flight)
    (hmax : c.stats.max_in_flight ≤ depth) :
    ∃ c', machine.run (Observed.step T) ⟨d, c⟩ inputs = some ⟨e, c'⟩ ∧
      c'.stats.in_flight = e.pool.in_flight ∧ e.pool.in_flight ≤ c'.counter.in_flight ∧
      c'.stats.max_in_flight ≤ depth ∧
      (c'.counter.in_flight = e.pool.in_flight ↔ c.counter.in_flight = d.pool.in_flight ∧
        machine.Along (Drive.step T) (Calm T) d inputs) := by
  induction inputs generalizing d c with
  | nil =>
    cases hrun
    exact ⟨c, rfl, hs, hc, hmax, fun h => ⟨h, trivial⟩, fun h => h.1⟩
  | cons input inputs ih =>
    obtain ⟨u, hu, hrest⟩ := machine.run_cons_some (Drive.step T) hrun
    have hu' := step_kept hd hok.1 hu
    have hconserved : Conserved C depth d := by
      rcases hd.1 with h | ⟨done, hfailed⟩
      · exact h
      · unfold Drive.step at hu
        rw [hfailed] at hu
        cases hu
    obtain ⟨c1, hcounted, hfollows⟩ :=
      step_follows hconserved.tracked.count hs hc hconserved.fits.lanes hu
    have hmax1 : c1.stats.max_in_flight ≤ depth := by
      rcases hfollows.most with hm | ⟨hphase, hm⟩
      · rw [hm]
        exact hmax
      · have hkept : Conserved C depth u := by
          refine hu'.1.resolve_right ?_
          rintro ⟨done, hdone⟩
          rw [hphase] at hdone
          cases hdone
        rw [hm]
        exact max_le hmax hkept.in_flight_le
    obtain ⟨c2, hrun2, h1, h2, h3, h4⟩ :=
      ih hu' hrest (hok.2 u hu) hfollows.stats hfollows.le hmax1
    refine ⟨c2, ?_, h1, h2, h3, ?_⟩
    · rw [machine.run_cons]
      have hstep : Observed.step T ⟨d, c⟩ input = some ⟨u, c1⟩ := by
        unfold Observed.step
        simp only [hu, hcounted]
        rfl
      rw [hstep]
      exact hrun2
    · rw [h4, hfollows.exact]
      constructor
      · rintro ⟨⟨heq, hcalm⟩, halong⟩
        refine ⟨heq, hcalm, fun t ht => ?_⟩
        rw [hu] at ht
        cases ht
        exact halong
      · rintro ⟨heq, hcalm, halong⟩
        exact ⟨⟨heq, hcalm⟩, halong u hu⟩

/-- In every state of every call with an observer: no count goes below zero, the
statistics of the stream count the commands in flight, and their maximum is no more than
the queue depth. The progress counter counts them too exactly if no connection was
dropped with commands in flight on it. -/
theorem the_counter_is_exact_iff_no_command_is_dropped (C : Contract T) {depth : Nat} {p : Pool σ}
    {mode : Mode} {inputs : List (Input σ)} {c : Counts} (hready : p.Ready C depth mode)
    (hrun : machine.run (Drive.step T) (Drive.start p mode) inputs = some d)
    (hok : machine.Along (Drive.step T) C.Obeys (Drive.start p mode) inputs)
    (hcounter : c.counter.in_flight = 0) (hstats : c.stats.in_flight = 0)
    (hmax : c.stats.max_in_flight ≤ depth) :
    ∃ c', machine.run (Observed.step T) ⟨Drive.start p mode, c⟩ inputs = some ⟨d, c'⟩ ∧
      c'.stats.in_flight = d.pool.in_flight ∧ c'.stats.max_in_flight ≤ depth ∧
      (c'.counter.in_flight = d.pool.in_flight ↔
        machine.Along (Drive.step T) (Calm T) (Drive.start p mode) inputs) := by
  have hidle : (Drive.start p mode).pool.in_flight = 0 := hready.in_flight
  obtain ⟨c', h1, h2, -, h3, h4⟩ := run_follows C ⟨.inl (Conserved.start hready), trivial⟩ hrun hok
    (hstats.trans hidle.symm) (by rw [hidle]; exact Nat.zero_le _) hmax
  refine ⟨c', h1, h2, h3, h4.trans ?_⟩
  rw [hidle]
  exact ⟨fun h => h.2, fun h => ⟨hcounter, h⟩⟩

end Drive

/-- A read through a stream is counted in and out. -/
theorem one_read_is_counted : ∃ p d c, Pool.tagged = some p ∧
    machine.run (Observed.step .tagged) ⟨Drive.start p .stream, ⟨⟨0⟩, ⟨0, 0⟩⟩⟩ Drive.one_read =
      some ⟨d, c⟩ ∧ c.stats.in_flight = d.pool.in_flight ∧ c.stats.max_in_flight ≤ 1 := by
  obtain ⟨p, d, hp, hrun, -, -, -, hok⟩ := Drive.one_read_ends
  have hready : p.Ready Contract.tagged 1 .stream := Pool.tagged_ready hp fun _ h => by cases h
  obtain ⟨c, h1, h2, h3, -⟩ := Drive.the_counter_is_exact_iff_no_command_is_dropped
    Contract.tagged (c := ⟨⟨0⟩, ⟨0, 0⟩⟩) hready hrun hok rfl rfl (Nat.zero_le 1)
  exact ⟨p, d, c, hp, h1, h2, h3⟩

/-- A read is sent, and its connection drops while it is waited for. -/
def Drive.dropped_read : List (Input (Finset Nat)) :=
  [.reconnect fun _ => .waiting, .ticks fun _ => some ∅,
    .offer (.request { Request.default with len := 512 }), .submitted (some {0}), .go,
    .polled none 1]

/-- The read is back on the retry list and nothing is in flight, but the counter still
counts it. -/
theorem a_dropped_read_stays_counted : ∃ p o, Pool.tagged = some p ∧
    p.Ready Contract.tagged 1 .stream ∧
    machine.run (Observed.step .tagged) ⟨Drive.start p .stream, ⟨⟨0⟩, ⟨0, 0⟩⟩⟩
      Drive.dropped_read = some o ∧
    machine.Along (Drive.step .tagged) Contract.tagged.Obeys (Drive.start p .stream)
      Drive.dropped_read ∧
    o.drive.pool.retry = [0] ∧ o.drive.pool.in_flight = 0 ∧ o.counts.counter.in_flight = 1 ∧
    o.counts.stats.in_flight = 0 := by
  refine ⟨_, _, rfl, Pool.tagged_ready rfl (fun _ h => by cases h), rfl, ?_, rfl, rfl, rfl, rfl⟩
  refine ⟨nofun, fun d hd => ?_⟩
  cases hd
  refine ⟨fun path s s' hs hs' => ?_, fun d hd => ?_⟩
  · cases hs'
    cases session_one hs
    rfl
  cases hd
  refine ⟨trivial, fun d hd => ?_⟩
  cases hd
  refine ⟨fun slot req path io q s hheld hchoose hs => ?_, fun d hd => ?_⟩
  · cases hheld
    cases session_one hs
    rfl
  cases hd
  refine ⟨trivial, fun d hd => ?_⟩
  cases hd
  exact ⟨trivial, fun _ _ => trivial⟩

end stutools
