-- How much a streamed run keeps at once, and when it waits: the requests sent, owed and
-- held back fit the lists that were reserved for them, and a call answers "wait" only
-- while a request is out whose completion will wake the backend.
import Stutools.StreamRuns

namespace stutools

namespace Stream

variable {s t u v : Stream} {env : Env}

/-- The requests that are owed or held back. -/
def waiting (s : Stream) : Nat := s.due.length + s.held.length

@[simp] theorem hold_waiting (s : Stream) (r : Request) : (s.hold r).waiting = s.waiting + 1 := by
  simp [waiting, hold, Nat.add_assoc]

/-- The candidate was waiting already, unless nothing was and the plan gave it. -/
theorem candidate_waiting {r : Request} (h : s.candidate env = (some r, u)) :
    (u.hold r).waiting = s.waiting ∨ s.waiting = 0 ∧ u.waiting = 0 := by
  rw [hold_waiting]
  rcases candidate_cases h with ⟨q, held, hh, -, rfl⟩ | ⟨hh, q, due, hd, -, rfl⟩ |
    ⟨-, -, -, hq, -⟩ | ⟨hh, hd, -, hp⟩
  · left
    simp [waiting, hh, Nat.add_assoc]
  · left
    simp [waiting, hh, hd]
  · cases hq
  · right
    have hplan := (plan_request.spec hp).1
    simp [waiting, hh, hd, hplan.due, hplan.held]

theorem no_candidate_waiting (h : s.candidate env = (none, t)) : t.waiting = s.waiting := by
  rcases candidate_cases h with ⟨_, _, _, hq, _⟩ | ⟨_, _, _, _, hq, _⟩ | ⟨_, _, _, _, rfl⟩ |
    ⟨_, _, _, hp⟩
  · cases hq
  · cases hq
  · rfl
  · have hplan := (plan_request.spec hp).1
    simp [waiting, hplan.due, hplan.held]

/-- Letting an owed read-back go first changes places, not the count. -/
theorem owed_first_waiting {r q : Request} (h : u.owed_first r = (q, v)) : v.waiting = u.waiting := by
  rcases owed_first_cases h with ⟨-, i, hi, -, rfl⟩ | ⟨-, rfl, -⟩
  · have hlt := (List.getElem?_eq_some_iff.mp hi).1
    simp only [waiting, List.length_cons, List.length_eraseIdx_of_lt hlt]
    omega
  · rfl

theorem hand_out_waiting (v : Stream) (q : Request) :
    (v.hand_out q).waiting ≤ v.waiting + 1 ∧
    (v.race = false → (v.hand_out q).waiting = v.waiting) := by
  have hdue : (v.hand_out q).due =
      if v.race && q.write && v.read_back then v.due ++ [read_back_of q] else v.due := rfl
  have hheld : (v.hand_out q).held = v.held := rfl
  unfold waiting
  rw [hdue, hheld]
  split_ifs with hrace
  · simp only [List.length_append, List.length_singleton]
    refine ⟨by omega, fun hr => ?_⟩
    simp [hr] at hrace
  · exact ⟨by omega, fun _ => rfl⟩

/-! ## The bound -/

/-- What a stream keeps fits its depth. A raced write is owed its read-back while it is
itself out, so one request more is kept then, and never two. -/
structure Room (depth : Nat) (s : Stream) : Prop where
  outstanding : s.outstanding ≤ depth
  plain : s.race = false → s.outstanding + s.waiting ≤ depth
  race : s.race = true → s.waiting ≤ 1 ∧ (0 < s.waiting → 0 < depth)

theorem Room.source {depth : Nat} (h : s.Room depth) (hfree : s.outstanding < depth) {n : Next}
    (hn : s.source env = (n, t)) : t.Room depth := by
  have hframe := source_frame hn
  obtain ⟨-, hout, -⟩ := source_sent hn
  rcases source_cases hn with ⟨hc, hnext⟩ | ⟨r, u, q, v, hc, ho, hb⟩
  · have hwaiting := no_candidate_waiting hc
    have hsent := (candidate_sent hc).2.1
    refine ⟨by have := h.outstanding; omega, fun hr => ?_, fun hr => ?_⟩
    · rw [hframe.race] at hr
      have := h.plain hr
      omega
    · rw [hframe.race] at hr
      rw [hwaiting]
      exact h.race hr
  · have hv := owed_first_waiting ho
    have hu := candidate_waiting hc
    rw [hold_waiting] at hu
    have hsent : v.outstanding = s.outstanding :=
      (owed_first_sent ho).2.1.trans (candidate_sent hc).2.1
    have hvframe := (candidate_frame hc).trans (owed_first_frame ho)
    rcases hb with ⟨-, rfl, rfl⟩ | ⟨-, rfl, rfl⟩
    · have hsame : (v.hold q).outstanding = s.outstanding := hsent
      refine ⟨by omega, fun hr => ?_, fun hr => ?_⟩
      · rw [hframe.race] at hr
        have := h.plain hr
        rw [hold_waiting]
        omega
      · rw [hframe.race] at hr
        have := h.race hr
        rw [hold_waiting]
        omega
    · have hone : (v.hand_out q).outstanding = s.outstanding + 1 := hout
      obtain ⟨hle, hplain⟩ := hand_out_waiting v q
      refine ⟨by omega, fun hr => ?_, fun hr => ?_⟩
      · rw [hframe.race] at hr
        have := h.plain hr
        have := hplain (hvframe.race.trans hr)
        omega
      · rw [hframe.race] at hr
        have := h.race hr
        omega

theorem Room.finish {depth : Nat} (h : s.Room depth) (hout : 0 < s.outstanding)
    {buffer : List UInt8} {r : Request} (hf : s.finish env buffer r = some t) : t.Room depth := by
  have hfin := finish.spec hf
  have hone := hfin.outstanding
  have hdepth := h.outstanding
  refine ⟨by omega, fun hr => ?_, fun hr => ?_⟩
  · have := h.plain (hfin.race ▸ hr)
    have hdue : t.due.length ≤ s.due.length + 1 := by
      rw [hfin.due]
      split_ifs <;> simp
    simp only [waiting, hfin.held] at this ⊢
    omega
  · have hr' := hfin.race ▸ hr
    have hdue : t.due = s.due := by simp [hfin.due, hr']
    have := h.race hr'
    simpa [waiting, hdue, hfin.held] using this

/-! ## Waiting -/

/-- A request that is tried while nothing is out is not gated by an owed read-back: a
write would have let it go first, and two reads do not conflict. -/
theorem owed_first_free (hs : s.Shaped) {r q : Request} (hc : s.candidate env = (some r, u))
    (ho : u.owed_first r = (q, v)) (d : Request) (hd : d ∈ v.due) : v.gates q d = false := by
  have hshape : (v.hold q).Shaped := (hs.candidate hc).owed_first ho
  have hread : d.write = false := ((is_read_back_iff d).mp (hshape.due d hd)).2
  have hreads : q.write = false → v.gates q d = false := by
    intro hq
    unfold gates
    rw [conflict_reads hq hread, Bool.false_and]
  rcases owed_first_cases ho with ⟨-, i, hi, -, rfl⟩ | ⟨rfl, rfl, hfree⟩
  · apply hreads
    have hq := (hs.candidate hc).due q (List.mem_of_getElem? hi)
    exact ((is_read_back_iff q).mp hq).2
  · by_cases hw : q.write = true
    · exact hfree hw d hd
    · exact hreads (by simpa using hw)

/-- With nothing out, a call hands a request out or is done. -/
theorem not_wait_of_idle (hs : s.Shaped) (hout : s.outstanding = 0) (hflight : s.in_flight = [])
    (hn : s.source env = (.wait, t)) : False := by
  rcases source_cases hn with ⟨hc, hnext⟩ | ⟨r, u, q, v, hc, ho, hb⟩
  · rw [if_pos ((candidate_sent hc).2.1.trans hout)] at hnext
    cases hnext
  · rcases hb with ⟨hblocked, -, -⟩ | ⟨-, hq, -⟩
    · obtain ⟨hf, hsent, -⟩ := owed_first_sent ho
      obtain ⟨hf', hsent', -⟩ := candidate_sent hc
      have hnone : v.in_flight = [] := by rw [hf, hf', hflight]
      have hzero : v.outstanding = 0 := by rw [hsent, hsent', hout]
      have hdue : v.due.any (v.gates q) = false := by
        rw [List.any_eq_false]
        intro d hd
        rw [owed_first_free hs hc ho d hd]
        decide
      simp [blocked, overlaps, hnone, hzero, hdue] at hblocked
    · cases hq

end Stream

namespace Streaming

/-- What holds of every state of a streamed run. -/
structure Kept (s₀ : Stream) (depth : Nat) (w : Streaming) : Prop where
  tracked : Tracked s₀ w
  room : w.stream.Room depth

theorem Kept.start {s : Stream} (hs : Begun s) (depth : Nat) : Kept s depth (start s) := by
  refine ⟨Tracked.start hs, ?_⟩
  have hwaiting : s.waiting = 0 := by simp [Stream.waiting, hs.due, hs.held]
  have hout := hs.outstanding
  refine ⟨?_, fun _ => ?_, fun _ => ?_⟩
  · change s.outstanding ≤ depth
    omega
  · change s.outstanding + s.waiting ≤ depth
    omega
  · change s.waiting ≤ 1 ∧ (0 < s.waiting → 0 < depth)
    omega

theorem Kept.step {s₀ : Stream} {depth : Nat} {w u : Streaming} {e : Event} (h : Kept s₀ depth w)
    (hs : step depth w e = some u) : Kept s₀ depth u := by
  refine ⟨h.tracked.step hs, ?_⟩
  have hout := h.tracked.outstanding
  cases e with
  | source env =>
    simp only [Streaming.step] at hs
    split_ifs at hs
    cases hs
    exact h.room.source (by omega) rfl
  | finish env i state buffer =>
    simp only [Streaming.step] at hs
    split at hs
    · rename_i seq r hi
      obtain ⟨t, ht, rfl⟩ := Option.map_eq_some_iff.mp hs
      have hlt := (List.getElem?_eq_some_iff.mp hi).1
      exact h.room.finish (by omega) ht
    · cases hs

theorem Tracked.in_flight_le {s₀ : Stream} {w : Streaming} (h : Tracked s₀ w) :
    w.stream.in_flight.length ≤ w.stream.outstanding := by
  have hlen := h.in_flight.length_eq
  rw [h.outstanding]
  rw [List.length_map] at hlen
  rw [hlen]
  split_ifs
  · simp [sent]
  · exact Nat.zero_le _

/-- In every state of a streamed run of any workload, over any number of endpoints, whose
backend asks only while a slot is free: what is out, owed and held back is at most the
depth (one more under a race, with one read-back owed at most), each list keeps within
its reserved capacity, and a call answers "wait" only while a request is out. -/
theorem a_stream_keeps_to_its_depth_and_waits_only_for_a_completion {platform : Platform} {p : Plan}
    {run : Run} (hp : Run.prepare platform p = .ok run) (endpoints depth : Nat)
    {events : List Event} {w : Streaming}
    (hrun : machine.run (step depth) (start (run.stream_of endpoints)) events = some w) :
    ((run.stream_of endpoints).race = false →
      w.stream.outstanding + w.stream.due.length + w.stream.held.length ≤ depth) ∧
    ((run.stream_of endpoints).race = true →
      w.stream.outstanding + w.stream.due.length + w.stream.held.length ≤ depth + 1 ∧
      w.stream.due.length ≤ 1) ∧
    (w.stream.in_flight.length ≤ depth ∧ w.stream.due.length ≤ depth ∧
      w.stream.held.length ≤ depth) ∧
    ∀ env t, w.stream.source env = (.wait, t) → 0 < w.stream.outstanding ∧ w.out ≠ [] := by
  have hkept : Kept (run.stream_of endpoints) depth w :=
    machine.invariant (fun _ _ _ h hstep => h.step hstep) hrun
      (Kept.start (begun_of_prepare hp endpoints) depth)
  have hrace := hkept.tracked.frame.race
  have hflight := hkept.tracked.in_flight_le
  obtain ⟨hout, hplain, hraced⟩ := hkept.room
  unfold Stream.waiting at hplain hraced
  rw [hrace] at hplain hraced
  refine ⟨fun hr => ?_, fun hr => ?_, ?_, fun env t hwait => ?_⟩
  · have := hplain hr
    omega
  · have := hraced hr
    omega
  · cases hr : (run.stream_of endpoints).race with
    | false =>
      have := hplain hr
      omega
    | true =>
      have := hraced hr
      omega
  · have hpos : 0 < w.stream.outstanding := by
      apply Nat.pos_of_ne_zero
      intro hzero
      have hnone : w.stream.in_flight = [] := List.length_eq_zero_iff.mp (by omega)
      exact Stream.not_wait_of_idle hkept.tracked.shaped hzero hnone hwait
    refine ⟨hpos, fun hnil => ?_⟩
    rw [hkept.tracked.outstanding, hnil] at hpos
    exact absurd hpos (by decide)

/-- A `V` workload of one slot over two paths. -/
def racing : Workload := { Workload.pairs 8 1 none with write_verify_race := true }

/-- Its first write is out and its read-back owed, one more than the slot; the next call
waits for nothing but that. -/
theorem a_raced_write_keeps_one_more_than_its_slot : ∃ run w,
    Run.prepare .Linux (Plan.sample racing) = .ok run ∧
    machine.run (step 1) (start (run.stream_of 2)) [.source .calm] = some w ∧
    w.stream.outstanding + w.stream.due.length + w.stream.held.length = 2 ∧
    w.stream.due.length ≤ 1 := by
  have hrun : ∃ run w, Run.prepare .Linux (Plan.sample racing) = .ok run ∧
      machine.run (step 1) (start (run.stream_of 2)) [.source .calm] = some w ∧
      (run.stream_of 2).race = true ∧
      w.stream.outstanding + w.stream.due.length + w.stream.held.length = 2 :=
    ⟨_, _, rfl, rfl, rfl, by decide +kernel⟩
  obtain ⟨run, w, hp, hw, hrace, hsum⟩ := hrun
  have h := (a_stream_keeps_to_its_depth_and_waits_only_for_a_completion hp 2 1 hw).2.1 hrace
  exact ⟨run, w, hp, hw, hsum, h.2⟩

end Streaming

end stutools
