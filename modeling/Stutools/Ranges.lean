-- No request leaves its worker's range: what the plan's extents meet, every
-- request of a run meets, streamed or batched, and what the checks of a
-- target accept puts the plan's extents inside the range.
import Stutools.Batches
import Stutools.Extents
import Stutools.Jobs
import Stutools.StreamRuns

namespace stutools

/-! ## The extents a plan can ask for -/

/-- Every extent that a plan reads from its table or draws as a pair meets `Q`. -/
structure Supplies (Q : Nat → Nat → Prop) (work : Workload) (lo hi : Nat) (p : Positions) :
    Prop where
  table : p.All Q
  shift : Positions.Shiftable Q p.work p.lo p.hi
  pairs : work.write_verify = true → ∀ k, k < max ((hi - lo) / work.block) 1 →
    Q (lo + k * work.block) work.block

section

variable {Q : Nat → Nat → Prop} {work : Workload} {lo hi : Nat} {p : Positions}

theorem write_verify_index_lt (work : Workload) (blocks count : Nat) (state : UInt64)
    (h : 0 < blocks) : (write_verify_index work blocks count state).1 < blocks := by
  unfold write_verify_index
  dsimp only
  split_ifs <;> exact Nat.mod_lt _ h

theorem Supplies.pair (h : Supplies Q work lo hi p) (hw : work.write_verify = true) (count : Nat)
    (state : UInt64) : Q (write_verify_request work lo hi count state).1.offset
      (write_verify_request work lo hi count state).1.len := by
  have hpos : 0 < max ((hi - lo) / work.block) 1 := by omega
  exact h.pairs hw _ (write_verify_index_lt work _ count state hpos)

/-- Any table with the same workload and range whose entries meet `Q`. -/
theorem Supplies.of_table (h : Supplies Q work lo hi p) {q : Positions} (hq : q.All Q)
    (hw : q.work = p.work) (hlo : q.lo = p.lo) (hhi : q.hi = p.hi) : Supplies Q work lo hi q := by
  refine ⟨hq, ?_, h.pairs⟩
  rw [hw, hlo, hhi]
  exact h.shift

theorem Supplies.get (h : Supplies Q work lo hi p) (index : Nat) :
    Q (p.get index).1.offset (p.get index).1.len ∧ Supplies Q work lo hi (p.get index).2 := by
  obtain ⟨h1, h2⟩ := Positions.get_extent h.table h.shift index
  refine ⟨h1, h.of_table h2 (by simp) ?_ ?_⟩
  · exact (p.enter_pass_range _).1
  · exact (p.enter_pass_range _).2

theorem Supplies.written (h : Supplies Q work lo hi p) (index : Nat) :
    Supplies Q work lo hi (p.written index) := by
  have hf := p.written_frame index
  exact h.of_table (Positions.written_extent index h.table) hf.work hf.lo hf.hi

theorem Supplies.checked (h : Supplies Q work lo hi p) (index : Nat) :
    Supplies Q work lo hi (p.checked index) := by
  have hf := p.checked_frame index
  exact h.of_table (Positions.checked_extent index h.table) hf.work hf.lo hf.hi

theorem Supplies.plan_from {limited : Nat → Bool} {q : Positions} {i j : Nat} {o : Option Request}
    (h : Supplies Q work lo hi p) (hp : plan_from limited p i = (o, q, j)) :
    (∀ r, o = some r → Q r.offset r.len) ∧ Supplies Q work lo hi q := by
  fun_induction stutools.plan_from limited p i with
  | case1 p i hl =>
    cases hp
    exact ⟨by simp, h⟩
  | case2 p i hl hc ih => exact ih (h.get i).2 hp
  | case3 p i hl hc =>
    cases hp
    refine ⟨fun r hr => ?_, (h.get i).2⟩
    cases hr
    exact (h.get i).1

end

/-! ## Streamed runs -/

namespace Stream

variable {Q : Nat → Nat → Prop} {s t u v : Stream} {env : Env}

/-- What the stream can ask for, owes and holds meets `Q`. -/
structure Carries (Q : Nat → Nat → Prop) (s : Stream) : Prop where
  plan : Supplies Q s.work s.lo s.hi s.generated
  due : ∀ r ∈ s.due, Q r.offset r.len
  held : ∀ r ∈ s.held, Q r.offset r.len

theorem Carries.plan_request (h : s.Carries Q) {o : Option Request}
    (hp : s.plan_request = (o, t)) : (∀ r, o = some r → Q r.offset r.len) ∧ t.Carries Q := by
  have honly := (plan_request.spec hp).1
  unfold Stream.plan_request at hp
  split_ifs at hp with hw
  · simp only [Prod.mk.injEq] at hp
    obtain ⟨rfl, rfl⟩ := hp
    refine ⟨fun r hr => ?_, h.plan, h.due, h.held⟩
    cases hr
    exact h.plan.pair hw _ _
  · rcases hfrom : plan_from (fun i => limit_reached { s with index := i }) s.generated s.index
      with ⟨o', q, j⟩
    simp only [hfrom, Prod.mk.injEq] at hp
    obtain ⟨rfl, rfl⟩ := hp
    obtain ⟨h1, h2⟩ := h.plan.plan_from hfrom
    exact ⟨h1, h2, h.due, h.held⟩

theorem Carries.candidate (h : s.Carries Q) {o : Option Request}
    (hc : s.candidate env = (o, t)) : (∀ r, o = some r → Q r.offset r.len) ∧ t.Carries Q := by
  rcases candidate_cases hc with ⟨q, held, hh, rfl, rfl⟩ | ⟨_, q, due, hd, rfl, rfl⟩ |
    ⟨_, _, _, rfl, rfl⟩ | ⟨_, _, _, hp⟩
  · refine ⟨fun r hr => ?_, h.plan, h.due, fun r hr => h.held r (hh ▸ List.mem_cons_of_mem q hr)⟩
    cases hr
    exact h.held q (by simp [hh])
  · refine ⟨fun r hr => ?_, h.plan, fun r hr => h.due r (hd ▸ List.mem_cons_of_mem q hr), h.held⟩
    cases hr
    exact h.due q (by simp [hd])
  · exact ⟨by simp, h⟩
  · exact h.plan_request hp

theorem Carries.owed_first (h : u.Carries Q) {r q : Request} (hr : Q r.offset r.len)
    (ho : u.owed_first r = (q, v)) : Q q.offset q.len ∧ v.Carries Q := by
  rcases owed_first_cases ho with ⟨_, i, hi, _, rfl⟩ | ⟨rfl, rfl, _⟩
  · refine ⟨h.due q (List.mem_of_getElem? hi), h.plan,
      fun d hd => h.due d (List.mem_of_mem_eraseIdx hd), ?_⟩
    rintro d hd
    rcases List.mem_cons.mp hd with rfl | hd
    · exact hr
    · exact h.held d hd
  · exact ⟨hr, h⟩

theorem Carries.hand_out (h : v.Carries Q) {q : Request} (hq : Q q.offset q.len) :
    (v.hand_out q).Carries Q := by
  refine ⟨h.plan, fun d hd => ?_, h.held⟩
  simp only [Stream.hand_out] at hd
  split_ifs at hd
  · rcases List.mem_append.mp hd with hd | hd
    · exact h.due d hd
    · rw [List.mem_singleton.mp hd]
      exact hq
  · exact h.due d hd

/-- What a call hands out meets `Q`, and the stream after it still does. -/
theorem Carries.source (h : s.Carries Q) {n : Next} (hn : s.source env = (n, t)) :
    (∀ r ∈ n.handed, Q r.offset r.len) ∧ t.Carries Q := by
  rcases source_cases hn with ⟨hc, hnext⟩ | ⟨r, u, q, v, hc, ho, hb⟩
  · refine ⟨?_, (h.candidate hc).2⟩
    rw [hnext]
    split_ifs <;> simp [Next.handed]
  · obtain ⟨hr, hu⟩ := h.candidate hc
    obtain ⟨hq, hv⟩ := hu.owed_first (hr r rfl) ho
    rcases hb with ⟨_, rfl, rfl⟩ | ⟨_, rfl, rfl⟩
    · refine ⟨by simp [Next.handed], hv.plan, hv.due, fun d hd => ?_⟩
      rcases List.mem_cons.mp hd with rfl | hd
      · exact hq
      · exact hv.held d hd
    · exact ⟨by simpa [Next.handed] using hq, hv.hand_out hq⟩

theorem Carries.finish (h : s.Carries Q) {buffer : List UInt8} {r : Request}
    (hr : Q r.offset r.len) (hf : s.finish env buffer r = some t) : t.Carries Q := by
  have hfin := finish.spec hf
  refine ⟨?_, fun d hd => ?_, hfin.held ▸ h.held⟩
  · rw [hfin.work, hfin.lo, hfin.hi, hfin.cursors.generated]
    exact h.plan
  · rw [hfin.due, List.mem_append] at hd
    rcases hd with hd | hd
    · exact h.due d hd
    · split_ifs at hd
      · rw [List.mem_singleton.mp hd]
        exact hr
      · cases hd

end Stream

namespace Streaming

variable {Q : Nat → Nat → Prop} {depth : Nat} {w v : Streaming}

structure Carries (Q : Nat → Nat → Prop) (w : Streaming) : Prop where
  stream : w.stream.Carries Q
  out : ∀ e ∈ w.out, Q e.2.offset e.2.len
  issued : ∀ r ∈ w.issued, Q r.offset r.len

theorem Carries.step (h : w.Carries Q) {e : Event} (hs : step depth w e = some v) :
    v.Carries Q := by
  cases e with
  | source env =>
    simp only [Streaming.step] at hs
    split_ifs at hs
    cases hs
    have hn : w.stream.source env = ((w.stream.source env).1, (w.stream.source env).2) := rfl
    obtain ⟨h1, h2⟩ := h.stream.source hn
    refine ⟨h2, fun e he => ?_, fun r hr => ?_⟩
    · rcases List.mem_append.mp he with he | he
      · obtain ⟨r, hr, rfl⟩ := List.mem_map.mp he
        exact h1 r hr
      · exact h.out e he
    · rcases List.mem_append.mp hr with hr | hr
      · exact h.issued r hr
      · exact h1 r hr
  | finish env i state buffer =>
    simp only [Streaming.step] at hs
    split at hs
    · rename_i seq r hout
      obtain ⟨t, ht, rfl⟩ := Option.map_eq_some_iff.mp hs
      have hr := h.out _ (List.mem_of_getElem? hout)
      have hstream := h.stream.finish (r := { r with state := state }) hr ht
      exact ⟨hstream, fun e he => h.out e (List.mem_of_mem_eraseIdx he), h.issued⟩
    · cases hs

/-- Every request of a streamed run meets what its plan meets. -/
theorem issued_of_supplies {run : Run} {endpoints : Nat}
    (h : Supplies Q run.work run.wv_lo run.wv_hi run.generated) {es : List Event}
    (hrun : machine.run (Streaming.step depth) (Streaming.start (run.stream_of endpoints)) es =
      some w) : ∀ r ∈ w.issued, Q r.offset r.len := by
  have hstart : (Streaming.start (run.stream_of endpoints)).Carries Q :=
    ⟨⟨h, by simp [Streaming.start, Run.stream_of], by simp [Streaming.start, Run.stream_of]⟩,
      by simp [Streaming.start], by simp [Streaming.start]⟩
  exact (machine.invariant (fun _ _ _ hw hs => Carries.step hw hs) hrun hstart).issued

end Streaming

/-! ## Batched runs -/

namespace Run

variable {Q : Nat → Nat → Prop} {run : Run}

/-- What the run can ask for, and the read it has pending, meets `Q`. -/
structure Carries (Q : Nat → Nat → Prop) (run : Run) : Prop where
  plan : Supplies Q run.work run.wv_lo run.wv_hi run.generated
  pending : ∀ r, run.wv_pending = some r → Q r.offset r.len

theorem Carries.plan_next (h : run.Carries Q) (i : Nat) :
    Q (run.plan_next i).1.offset (run.plan_next i).1.len ∧ (run.plan_next i).2.Carries Q := by
  obtain ⟨h1, h2⟩ := h.plan.get (run.index + i)
  exact ⟨h1, h2, h.pending⟩

theorem Carries.wv_next (h : run.Carries Q) (hw : run.work.write_verify = true) (i : Nat) :
    Q (run.wv_next i).1.offset (run.wv_next i).1.len ∧ (run.wv_next i).2.Carries Q := by
  unfold Run.wv_next
  split
  · rename_i read hp
    exact ⟨h.pending read hp, h.plan, by simp⟩
  · have hpair := h.plan.pair hw run.wv_count run.wv_state
    refine ⟨hpair, h.plan, fun r hr => ?_⟩
    cases hr
    exact hpair

/-- The requests of a batch, and the run after it is filled. -/
theorem Carries.fill_batch (h : run.Carries Q) (limit : Nat) :
    (∀ r ∈ (run.fill_batch limit).1, Q r.offset r.len) ∧ (run.fill_batch limit).2.Carries Q := by
  obtain ⟨h1, h2, _⟩ := fill_batch_induct (P := fun _ run => run.Carries Q)
    (R := fun _ r => Q r.offset r.len) (fun i _ h _ => h.plan_next i) (fun i _ h hw => h.wv_next hw i)
    limit run h
  refine ⟨fun r hr => ?_, h2⟩
  obtain ⟨k, hk⟩ := List.mem_iff_getElem?.mp hr
  exact h1 k r hk

theorem Carries.complete (h : run.Carries Q) (requests : List Request) (report : Nat × ℚ) :
    (run.complete requests report).Carries Q := by
  refine ⟨?_, h.pending⟩
  unfold Run.complete
  dsimp only
  split_ifs
  · exact h.plan.written _
  · exact h.plan

theorem Carries.check (h : run.Carries Q) (buffer : List UInt8) (r : Request) :
    (run.check buffer r).Carries Q :=
  ⟨h.plan, h.pending⟩

theorem Carries.verify_reads (h : run.Carries Q) (slots : Slots) (requests : List Request) (i : Nat) :
    (run.verify_reads slots requests i).Carries Q := by
  induction requests generalizing i run with
  | nil => exact h
  | cons r rest ih =>
    unfold Run.verify_reads
    dsimp only
    have hcheck := h.check ((slots i).read 0 r.len) r
    split_ifs
    · exact ih hcheck (i + 1)
    · apply ih
      exact ⟨hcheck.plan.checked _, hcheck.pending⟩
    · exact ih h (i + 1)

theorem Carries.verify_all (h : run.Carries Q) (slots : Slots) (requests : List Request) (i : Nat) :
    (run.verify_all slots requests i).Carries Q := by
  induction requests generalizing i run with
  | nil => exact h
  | cons r rest ih => exact ih (h.check ((slots i).read 0 r.len) r) (i + 1)

end Run

namespace Positions

variable {Q : Nat → Nat → Prop} {work : Workload} {lo hi : Nat} {p : Positions}

/-- The checks that are taken meet `Q`, and the table after them still does. -/
theorem take_pending_extent (h : Supplies Q work lo hi p) (n cursor : Nat) :
    (∀ r ∈ (take_pending n p cursor).1, Q r.offset r.len) ∧
      Supplies Q work lo hi (take_pending n p cursor).2.2 := by
  have hone : ∀ p cursor o cursor' p', Supplies Q work lo hi p →
      p.take_pending_check cursor = (o, cursor', p') →
      (∀ r, o = some r → Q r.offset r.len) ∧ Supplies Q work lo hi p' := by
    intro p cursor o cursor' p' h ht
    have h1 := take_pending_check_extent h.table h.shift (p.entries.length - cursor) cursor
    have h2 := take_pending_check_frame (p.entries.length - cursor) p cursor
    unfold take_pending_check at ht
    rw [ht] at h1 h2
    exact ⟨h1.1, h.of_table h1.2 h2.work h2.lo h2.hi⟩
  apply take_pending_induct (P := fun p _ => Supplies Q work lo hi p) _ _ n p cursor h
  · intro p cursor cursor' p' h ht
    exact (hone _ _ _ _ _ h ht).2
  · intro p cursor r cursor' p' h ht
    obtain ⟨h1, h2⟩ := hone _ _ _ _ _ h ht
    exact ⟨h1 r rfl, h2⟩

end Positions

namespace Batches

variable {Q : Nat → Nat → Prop} {b c : Batches}

structure Carries (Q : Nat → Nat → Prop) (b : Batches) : Prop where
  run : b.run.Carries Q
  sent : ∀ e ∈ b.sent, Q e.1.offset e.1.len

theorem Carries.execute (h : b.Carries Q) {requests : List Request}
    (hr : ∀ r ∈ requests, Q r.offset r.len) (x : Execution) : (b.execute requests x).Carries Q := by
  refine ⟨h.run, fun e he => ?_⟩
  rcases List.mem_append.mp he with he | he
  · exact h.sent e he
  · obtain ⟨i, hi, rfl⟩ := List.mem_mapIdx.mp he
    exact hr _ (List.getElem_mem hi)

theorem Carries.completed (h : b.Carries Q) (requests : List Request) (x : Execution) :
    (b.completed requests x).Carries Q := by
  refine ⟨?_, h.sent⟩
  unfold Batches.completed
  have hrun := h.run
  generalize b.run = run at hrun
  dsimp only
  induction x.reports generalizing run with
  | nil => exact hrun
  | cons report reports ih => exact ih _ (hrun.complete requests report)

theorem compacted_extent {requests : List Request} (h : ∀ r ∈ requests, Q r.offset r.len) :
    ∀ r ∈ Run.compacted requests, Q r.offset r.len := by
  intro r hr
  obtain ⟨w, hw, rfl⟩ := List.mem_map.mp hr
  exact h w (List.mem_filter.mp hw).1

theorem Carries.compact (h : b.Carries Q) {requests : List Request}
    (hr : ∀ r ∈ requests, Q r.offset r.len) {y : Execution}
    (hc : b.compact requests y = some c) : c.Carries Q := by
  have hexec := h.execute (compacted_extent hr) y
  rcases compact_cases hc with ⟨rfl, _⟩ | ⟨_, _, _, ⟨_, rfl⟩ | ⟨_, rfl⟩⟩
  · exact ⟨⟨h.run.plan, h.run.pending⟩, h.sent⟩
  · exact hexec
  · have hall := hexec.run.verify_all (b.execute (Run.compacted requests) y).slots
      (Run.compacted requests) 0
    exact ⟨⟨hall.plan, hall.pending⟩, hexec.sent⟩

theorem Carries.batch (h : b.Carries Q) {x y : Execution} {flushed : Bool}
    (hb : b.batch x flushed y = some c) : c.Carries Q := by
  obtain ⟨requests, run, hfill, _, d, hd, hcases⟩ := batch_cases hb
  obtain ⟨h1, h2⟩ := h.run.fill_batch b.run.batch_limit
  rw [hfill] at h1 h2
  have hfilled : (b.filled requests run).Carries Q := ⟨h2, h.sent⟩
  have hdone : d.Carries Q := hd ▸ (hfilled.execute h1 x).completed requests x
  rcases hcases with ⟨_, rfl⟩ | ⟨_, rfl⟩ | ⟨_, hc⟩
  · exact hdone
  · exact ⟨hdone.run, hdone.sent⟩
  · have hver : (d.verified requests).Carries Q :=
      ⟨hdone.run.verify_reads d.slots requests 0, hdone.sent⟩
    exact hver.compact h1 hc

theorem Carries.verify_pending (h : b.Carries Q) {respond : Nat → List Request → Execution}
    {round cursor : Nat} (hp : verify_pending respond b round cursor = some c) : c.Carries Q := by
  fun_induction Batches.verify_pending respond b round cursor with
  | case1 b round cursor requests after hnil =>
    rw [← Option.some.inj hp]
    obtain ⟨_, h2⟩ := Positions.take_pending_extent h.run.plan b.run.work.depth cursor
    exact ⟨⟨h2, h.run.pending⟩, h.sent⟩
  | case2 b round cursor requests after hne hl hf =>
    rw [← Option.some.inj hp]
    obtain ⟨h1, h2⟩ := Positions.take_pending_extent h.run.plan b.run.work.depth cursor
    have htaken : after.Carries Q := ⟨⟨h2, h.run.pending⟩, h.sent⟩
    exact htaken.execute h1 _
  | case3 b round cursor requests after hne hl hf ih =>
    obtain ⟨h1, h2⟩ := Positions.take_pending_extent h.run.plan b.run.work.depth cursor
    have htaken : after.Carries Q := ⟨⟨h2, h.run.pending⟩, h.sent⟩
    have hexec := htaken.execute h1 (respond round requests)
    exact ih ⟨hexec.run.verify_all _ requests 0, hexec.sent⟩ hp
  | case4 => cases hp

theorem Carries.step (h : b.Carries Q) {e : Event} (hs : step b e = some c) : c.Carries Q := by
  rcases step_cases hs with ⟨_, ⟨_, _, _, _, _, _, _, hb⟩ | ⟨_, _, _, _, hf⟩⟩
  · exact h.batch hb
  · rcases finish_cases hf with ⟨_, _, _, d, hd, rfl⟩ | ⟨_, rfl⟩
    · have hp := h.verify_pending hd
      exact ⟨hp.run, hp.sent⟩
    · exact ⟨h.run, h.sent⟩

/-- Every request of a batched run meets what its plan meets. -/
theorem sent_of_supplies {run : Run} (h : Supplies Q run.work run.wv_lo run.wv_hi run.generated)
    (hp : run.wv_pending = none) {es : List Event}
    (hrun : machine.run step (start run) es = some b) : ∀ e ∈ b.sent, Q e.1.offset e.1.len := by
  have hstart : (start run).Carries Q := ⟨⟨h, by simp [start, hp]⟩, by simp [start]⟩
  exact (machine.invariant (fun _ _ _ hb hs => Carries.step hb hs) hrun hstart).sent

end Batches

/-! ## The ranges that the checks accept -/

/-- What every request of a worker should meet: it lies in the worker's range
and fits a slot of its queue. -/
def InRange (p : Plan) (offset len : Nat) : Prop :=
  p.lo ≤ offset ∧ offset + len ≤ p.hi ∧ len ≤ p.stride

/-- What the parser and the machine promise of a configuration. -/
structure Config.Parsed (c : Config) : Prop where
  jobs : ∀ w ∈ c.jobs, w.Parsed
  precondition : ∀ pre, c.precondition = some pre → pre.Parsed

/-- The share of a worker does not pass 64 bits, where the range is shared out, and a `v`
worker over loaded positions has room for one of its blocks. -/
def Roomy (w : Workload) (index lo hi : Nat) (records : List Request) : Prop :=
  let (a, b) := w.range.getD (lo, hi)
  ((!records.isEmpty || (w.shared_range && !w.split_range)) = false →
      (b - a) / w.block * (index + 1) < U64) ∧
    (w.write_verify = true → records ≠ [] → w.block ≤ b - a)

instance (w : Workload) (index lo hi : Nat) (records : List Request) :
    Decidable (Roomy w index lo hi records) := inferInstanceAs (Decidable (_ ∧ _))

theorem target_jobs_mem {c : Config} {w : Workload} {index : Nat} (h : (w, index) ∈ target_jobs c) :
    w ∈ c.jobs ∧ index < w.workers := by
  unfold target_jobs at h
  obtain ⟨v, hv, hmem⟩ := List.mem_flatMap.mp h
  obtain ⟨i, hi, heq⟩ := List.mem_map.mp hmem
  cases heq
  exact ⟨hv, List.mem_range.mp hi⟩

/-- The range of a worker whose share does not pass 64 bits lies in the target's. -/
theorem worker_range.spec {w : Workload} {index lo hi : Nat} {imported : Bool} {start stop : Nat}
    (h : worker_range w index lo hi imported = .ok (start, stop)) (hhi : hi < U64)
    (hshare : let (a, b) := w.range.getD (lo, hi)
      (imported || (w.shared_range && !w.split_range)) = false →
        (b - a) / w.block * (index + 1) < U64)
    (hindex : index < w.workers) : start ≤ stop ∧ stop < U64 ∧
      (imported = true → (start, stop) = w.range.getD (lo, hi)) := by
  unfold worker_range at h
  rcases hr : w.range.getD (lo, hi) with ⟨a, b⟩
  rw [hr] at h hshare
  dsimp only at h hshare
  split_ifs at h with h1 h2
  · cases h
    exact ⟨by omega, by omega, fun _ => rfl⟩
  · cases h
    have hshare := hshare (Bool.eq_false_iff.mpr h2)
    have hk : (b - a) / w.block * index < U64 :=
      Nat.lt_of_le_of_lt (Nat.mul_le_mul_left _ (by omega)) hshare
    rw [Nat.mod_eq_of_lt hshare, Nat.mod_eq_of_lt hk]
    have hle : (b - a) / w.block * index / w.workers ≤ (b - a) / w.block * (index + 1) / w.workers :=
      Nat.div_le_div_right (Nat.mul_le_mul_left _ (by omega))
    have hlast : (b - a) / w.block * (index + 1) / w.workers ≤ (b - a) / w.block := by
      apply Nat.div_le_of_le_mul
      rw [Nat.mul_comm w.workers]
      exact Nat.mul_le_mul_left _ (by omega)
    have hbytes := Nat.mul_le_mul_right w.block hlast
    have hspan := Nat.div_mul_le_self (b - a) w.block
    have hmono := Nat.mul_le_mul_right w.block hle
    rw [Nat.mod_eq_of_lt (by omega), Nat.mod_eq_of_lt (by omega)]
    refine ⟨by omega, by omega, fun himported => ?_⟩
    simp [himported] at h2

theorem le_page_up (n : Nat) : n ≤ page_up n := by
  unfold page_up
  omega

theorem wrapping_sub_of_le {a b : Nat} (h : b ≤ a) (ha : a < U64) : wrapping_sub a b = a - b := by
  unfold wrapping_sub
  rw [Nat.add_comm, Nat.add_sub_assoc h, Nat.add_mod_left, Nat.mod_eq_of_lt (by omega)]

theorem le_max_loaded {records : List Request} {r : Request} (h : r ∈ records) :
    r.len ≤ max_loaded records := by
  unfold max_loaded
  induction records with
  | nil => cases h
  | cons q records ih =>
    rcases List.mem_cons.mp h with rfl | h
    · exact Nat.le_max_left _ _
    · exact Nat.le_trans (ih h) (Nat.le_max_right _ _)

/-- A plan whose positions fit its range and its slots. -/
structure Plan.Fits (p : Plan) : Prop where
  block_pos : 0 < p.work.block
  block_le : p.work.block ≤ p.work.max_block
  max_block_le : p.work.max_block ≤ p.max_len
  generated : p.loaded = [] → p.work.max_block ≤ p.hi - p.lo
  loaded : ∀ r ∈ p.loaded, p.lo ≤ r.offset ∧ r.offset + r.len ≤ p.hi ∧ r.len ≤ p.max_len
  pairs : p.work.write_verify = true → p.work.block ≤ p.hi - p.lo

namespace Plan.Fits

variable {p : Plan}

theorem shiftable (p : Plan) : Positions.Shiftable (InRange p) p.work p.lo p.hi := by
  rintro offset len k ⟨h1, h2, h3⟩ hk
  have hle : k * p.work.block ≤ p.hi - p.lo - len := Nat.le_trans (Nat.mul_le_mul_right _ hk)
    (Nat.div_mul_le_self _ _)
  exact ⟨by omega, by omega, h3⟩

theorem table (h : p.Fits) {g : Positions}
    (hg : Positions.new p.work p.lo p.hi p.seed p.position_capacity p.loaded = .ok g) :
    g.All (InRange p) := by
  have hstride := le_page_up p.max_len
  by_cases hl : p.loaded = []
  · rw [hl] at hg
    intro e he
    obtain ⟨h1, h2, _, h4, _⟩ := Positions.new_placed hg h.block_pos h.block_le (h.generated hl) e he
    exact ⟨h1, h2, Nat.le_trans h4 (Nat.le_trans h.max_block_le hstride)⟩
  · refine Positions.new_loaded (Q := InRange p) hg hl fun e he => ?_
    obtain ⟨h1, h2, h3⟩ := h.loaded e he
    exact ⟨h1, h2, Nat.le_trans h3 hstride⟩

theorem pair (h : p.Fits) (hw : p.work.write_verify = true) {k : Nat}
    (hk : k < max ((p.hi - p.lo) / p.work.block) 1) :
    InRange p (p.lo + k * p.work.block) p.work.block := by
  have hroom := h.pairs hw
  have hpos := h.block_pos
  have hone : 1 ≤ (p.hi - p.lo) / p.work.block := (Nat.one_le_div_iff h.block_pos).mpr hroom
  have hle : (k + 1) * p.work.block ≤ p.hi - p.lo := Nat.le_trans
    (Nat.mul_le_mul_right _ (by omega)) (Nat.div_mul_le_self (p.hi - p.lo) p.work.block)
  rw [Nat.succ_mul] at hle
  have hlen := Nat.le_trans h.block_le (Nat.le_trans h.max_block_le (le_page_up p.max_len))
  exact ⟨by omega, by omega, hlen⟩

/-- A prepared run can ask only for requests in its range. -/
theorem supplies (h : p.Fits) {platform : Platform} {run : Run}
    (hrun : Run.prepare platform p = .ok run) :
    Supplies (InRange p) run.work run.wv_lo run.wv_hi run.generated ∧ run.wv_pending = none := by
  unfold Run.prepare at hrun
  split at hrun
  · cases hrun
  · rename_i g hg
    cases hrun
    obtain ⟨hw, hlo, hhi, _⟩ := Positions.new_cases hg
    refine ⟨⟨h.table hg, ?_, fun hv k hk => h.pair hv hk⟩, rfl⟩
    rw [hw, hlo, hhi]
    exact shiftable p

end Plan.Fits

/-- Every request that a worker hands to its backend is in range, in every
streamed and in every batched run. -/
def Stays (p : Plan) (run : Run) : Prop :=
  (∀ endpoints depth es w, machine.run (Streaming.step depth)
    (Streaming.start (run.stream_of endpoints)) es = some w →
      ∀ r ∈ w.issued, InRange p r.offset r.len) ∧
  ∀ es b, machine.run Batches.step (Batches.start run) es = some b →
    ∀ e ∈ b.sent, InRange p e.1.offset e.1.len

theorem Plan.Fits.stays {p : Plan} (h : p.Fits) {platform : Platform} {run : Run}
    (hrun : Run.prepare platform p = .ok run) : Stays p run := by
  obtain ⟨h1, h2⟩ := h.supplies hrun
  exact ⟨fun _ _ _ _ hw => Streaming.issued_of_supplies h1 hw,
    fun _ _ hb => Batches.sent_of_supplies h1 h2 hb⟩

/-- The checks of a target accept worker `index` of `w` over the range it gives. -/
def Accepts (c : Config) (w : Workload) (index : Nat) (records : List Request) (lo hi : Nat) :
    Prop :=
  ∃ path jobs, (∀ job ∈ jobs, job ∈ target_jobs c) ∧ (w, index) ∈ jobs ∧
    ((∃ info, check_target c path info jobs records = .ok (lo, hi)) ∨
      ∃ capacity block_len, check_paths c path capacity block_len jobs records = .ok (lo, hi))

theorem Accepts.job {c : Config} {w : Workload} {index lo hi : Nat} {records : List Request}
    (h : Accepts c w index records lo hi) : w ∈ c.jobs ∧ index < w.workers ∧
      ∃ path sector, check_job path sector w index lo hi records c.backend = .ok () := by
  obtain ⟨path, jobs, hjobs, hmem, hcheck⟩ := h
  obtain ⟨h1, h2⟩ := target_jobs_mem (hjobs _ hmem)
  refine ⟨h1, h2, path, ?_⟩
  rcases hcheck with ⟨info, hc⟩ | ⟨capacity, block_len, hc⟩
  · exact ⟨_, (check_target.spec hc).2.1 _ hmem⟩
  · exact ⟨_, (check_paths.spec hc).2.2 _ hmem⟩

/-- An accepted job that is roomy has a plan that fits. -/
theorem job_plan_fits {c : Config} (hc : c.Parsed) {w : Workload} {index lo hi : Nat}
    {records : List Request} (h : Accepts c w index records lo hi) (hhi : hi < U64)
    (hroom : Roomy w index lo hi records) {start stop : Nat}
    (hrange : worker_range w index lo hi (!records.isEmpty) = .ok (start, stop)) (capacity : Nat) :
    (job_plan c w start stop records capacity).Fits := by
  obtain ⟨hjob, hindex, path, sector, hcheck⟩ := h.job
  have hw := hc.jobs w hjob
  obtain ⟨start', stop', hrange', h1, h2⟩ := check_job.spec hcheck
  rw [hrange] at hrange'
  cases hrange'
  unfold Roomy at hroom
  rcases hr : w.range.getD (lo, hi) with ⟨a, b⟩
  rw [hr] at hroom
  obtain ⟨h3, h4, h5⟩ := worker_range.spec hrange hhi (by rw [hr]; exact hroom.1) hindex
  rw [wrapping_sub_of_le h3 h4] at h1
  refine ⟨hw.block_pos, hw.block_le, Nat.le_max_left _ _, h1, fun r hmem => ?_, fun hv => ?_⟩
  · obtain ⟨h6, h7⟩ := h2 r hmem
    exact ⟨h6, h7, Nat.le_trans (le_max_loaded hmem) (Nat.le_max_right _ _)⟩
  · by_cases hl : records = []
    · exact Nat.le_trans hw.block_le (h1 hl)
    · have h8 := h5 (by simpa using hl)
      rw [hr] at h8
      cases h8
      exact hroom.2 hv hl

/-- An accepted preconditioning always has one. -/
theorem precondition_plan_fits {c : Config} (hc : c.Parsed) {pre : Workload} {lo hi : Nat}
    (hpre : c.precondition = some pre)
    (h : check_precondition pre lo hi c.memory c.backend = .ok ()) (hhi : hi < U64)
    {start stop : Nat} (hrange : worker_range pre 0 lo hi false = .ok (start, stop)) :
    (precondition_plan c pre start stop).Fits := by
  have hw := hc.precondition pre hpre
  obtain ⟨start', stop', hrange', h1, h2⟩ := check_precondition.spec h
  rw [hrange] at hrange'
  cases hrange'
  have hword : let (a, b) := pre.range.getD (lo, hi)
      (false || (pre.shared_range && !pre.split_range)) = false →
        (b - a) / pre.block * (0 + 1) < U64 := by
    have hr := hrange
    unfold worker_range at hr
    rcases hg : pre.range.getD (lo, hi) with ⟨a, b⟩
    rw [hg] at hr
    dsimp only at hr ⊢
    have hle := Nat.div_le_self (b - a) pre.block
    rw [Nat.zero_add, Nat.mul_one]
    intro _
    split_ifs at hr <;> omega
  obtain ⟨h3, h4, _⟩ := worker_range.spec hrange hhi hword (by omega)
  rw [wrapping_sub_of_le h3 h4] at h2
  refine ⟨hw.block_pos, hw.block_le, Nat.le_refl _, fun _ => h2, ?_, fun _ => ?_⟩
  · intro r hr
    cases hr
  · exact Nat.le_trans hw.block_le h2

/-- Every worker that the checks of a target accept stays in its range if its
job is roomy, and the preconditioning always does. -/
theorem a_worker_stays_in_its_range_if_it_has_room {c : Config} (hc : c.Parsed) {lo hi : Nat}
    (hhi : hi < U64) :
    (∀ w index records start stop capacity platform run, Accepts c w index records lo hi →
      Roomy w index lo hi records →
      worker_range w index lo hi (!records.isEmpty) = .ok (start, stop) →
      Run.prepare platform (job_plan c w start stop records capacity) = .ok run →
      Stays (job_plan c w start stop records capacity) run) ∧
    ∀ path info jobs records pre start stop platform run,
      check_target c path info jobs records = .ok (lo, hi) → c.precondition = some pre →
      worker_range pre 0 lo hi false = .ok (start, stop) →
      Run.prepare platform (precondition_plan c pre start stop) = .ok run →
      Stays (precondition_plan c pre start stop) run := by
  refine ⟨?_, ?_⟩
  · intro w index records start stop capacity platform run haccept hroom hrange hrun
    exact (job_plan_fits hc haccept hhi hroom hrange capacity).stays hrun
  · intro path info jobs records pre start stop platform run hcheck hpre hrange hrun
    have hok := (check_target.spec hcheck).2.2 pre hpre
    exact (precondition_plan_fits hc hpre hok hhi hrange).stays hrun

/-- `-G 8k -S FILE -c vk4 -c vk16`: two `v` workloads over the pairs of the first. -/
def replay : Config :=
  { jobs := [.pairs 4096 1 none, .pairs 16384 1 none], range := some (0, 8192), memory := 1073741824 }

/-- The pairs that the first workload writes to its positions file. -/
def replayed : List Request :=
  [0, 4096].flatMap fun offset =>
    [{ Request.default with offset := offset, len := 4096, write := true },
      { Request.default with offset := offset, len := 4096 }]

theorem replay_parsed : replay.Parsed := by
  refine ⟨fun w hw => ?_, fun pre hp => ?_⟩
  · simp only [replay, List.mem_cons, List.not_mem_nil, or_false] at hw
    rcases hw with rfl | rfl
    · exact Workload.pairs_parsed 4096 none (by decide) (by decide) (by decide)
    · exact Workload.pairs_parsed 16384 none (by decide) (by decide) (by decide)
  · simp [replay] at hp

theorem replay_accepted (w : Workload) (hw : w ∈ replay.jobs) :
    Accepts replay w 0 replayed 0 8192 := by
  refine ⟨"file", target_jobs replay, fun _ h => h, ?_,
    .inl ⟨⟨false, none, true, none⟩, rfl⟩⟩
  simp only [replay, List.mem_cons, List.not_mem_nil, or_false] at hw
  rcases hw with rfl | rfl <;> decide

/-- The first of the two workers writes its first block, inside its range. -/
theorem a_replay_of_its_own_pairs_stays : ∃ run w,
    Run.prepare .Linux (job_plan replay (.pairs 4096 1 none) 0 8192 replayed 4) = .ok run ∧
    machine.run (Streaming.step 1) (Streaming.start (run.stream_of 1)) [.source .calm] = some w ∧
    w.issued ≠ [] ∧ ∀ r ∈ w.issued,
      InRange (job_plan replay (.pairs 4096 1 none) 0 8192 replayed 4) r.offset r.len := by
  refine ⟨_, _, rfl, rfl, by decide +kernel, ?_⟩
  have hstays := (a_worker_stays_in_its_range_if_it_has_room replay_parsed (by decide : 8192 < U64)).1
    (.pairs 4096 1 none) 0 replayed 0 8192 4 .Linux _ (replay_accepted _ (by decide)) (by decide)
    rfl rfl
  exact hstays.1 1 1 [.source .calm] _ rfl

/-- The second, which no check compares with its range, writes past the end of it. -/
theorem a_replay_of_larger_blocks_leaves_its_range : ∃ run w,
    Accepts replay (.pairs 16384 1 none) 0 replayed 0 8192 ∧
    worker_range (.pairs 16384 1 none) 0 0 8192 (!replayed.isEmpty) = .ok (0, 8192) ∧
    Run.prepare .Linux (job_plan replay (.pairs 16384 1 none) 0 8192 replayed 4) = .ok run ∧
    machine.run (Streaming.step 1) (Streaming.start (run.stream_of 1)) [.source .calm] = some w ∧
    ∃ r ∈ w.issued, r.write = true ∧
      ¬ InRange (job_plan replay (.pairs 16384 1 none) 0 8192 replayed 4) r.offset r.len := by
  refine ⟨_, _, replay_accepted _ (by decide), rfl, rfl, rfl, ?_⟩
  refine ⟨{ Request.default with len := 16384, write := true }, by decide +kernel, rfl, ?_⟩
  unfold InRange job_plan
  decide

end stutools
