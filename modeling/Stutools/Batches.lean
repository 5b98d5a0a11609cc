-- The batched run: fill the slots, execute them as one batch and wait for all
-- of it, check what was read, and go on. What a limit leaves unchecked is
-- read back at the end.
import Stutools.Extents
import Stutools.Machine
import Stutools.Stream

open memory

namespace stutools

/-- The buffers of a queue's slots. -/
abbrev Slots := Nat → Memory

/-- What the backend does with one call of `execute`. -/
structure Execution where
  /-- What the read in each slot brings, from the slot's first byte on. -/
  answers : Slots
  /-- The completions in their order: the slot, and the clock at that moment. -/
  reports : List (Nat × ℚ)
  failed : Bool

/-- A call reports each of its `n` slots at most once, and all of them unless it fails. -/
def Execution.Legal (x : Execution) (n : Nat) : Prop :=
  (x.reports.map Prod.fst).Nodup ∧ (∀ report ∈ x.reports, report.1 < n) ∧
    (x.failed = true ∨ x.reports.length = n)

instance (x : Execution) (n : Nat) : Decidable (x.Legal n) := inferInstanceAs (Decidable (_ ∧ _))

/-- A slot after its request: a read brings its answer. -/
def Request.landed (r : Request) (answer m : Memory) : Memory :=
  if r.write then m else m.write 0 (answer.read 0 r.len)

/-- The slots after the requests of a batch. -/
def Execution.reads (x : Execution) (requests : List Request) (slots : Slots) : Slots := fun i =>
  match requests[i]? with
  | some r => r.landed (x.answers i) (slots i)
  | none => slots i

namespace Run

/-- The slots before the run: zero, or with `reusable` the payload of offset 0. -/
def slots (run : Run) : Slots := fun i =>
  if run.reusable ∧ i < run.work.depth then
    Memory.zero.write 0 (pattern.fill (List.replicate run.work.block 0) 0 run.seed)
  else Memory.zero

/-- A slot once its request is prepared: a write has its payload there. -/
def payload (run : Run) (r : Request) (m : Memory) : Memory :=
  if r.write then
    m.write 0 (write_pattern (m.read 0 r.len) r run.work run.seed run.reusable run.template)
  else m

/-- The slots once each write of the batch has its payload. -/
def payloads (run : Run) (requests : List Request) (slots : Slots) : Slots := fun i =>
  match requests[i]? with
  | some r => run.payload r (slots i)
  | none => slots i

def out_of_work (run : Run) (env : Env) : Bool :=
  env.interrupted || run.limit.any (fun n => decide (n ≤ run.index)) ||
    run.byte_limit.any (fun n => decide (n ≤ run.stats.read_bytes + run.stats.write_bytes)) ||
    run.duration.any fun d => decide (d ≤ env.elapsed)

/-- The most requests the next batch may have: the depth, or one at a rate,
what the limit leaves, and no more than the rest of the phase. -/
def batch_limit (run : Run) : Nat :=
  let effective_depth := if run.work.rate.isSome then 1 else run.work.depth
  let batch_limit := match run.limit with
    | some n => min (n - run.index) effective_depth
    | none => effective_depth
  min batch_limit (run.generated.phase_remaining run.index)

/-- The next request of a `v` batch: the read that is pending, or the next write. -/
def wv_next (run : Run) (_ : Nat) : Request × Run :=
  match run.wv_pending with
  | some read => (read, { run with wv_pending := none })
  | none =>
    let (request, count, state) :=
      write_verify_request run.work run.wv_lo run.wv_hi run.wv_count run.wv_state
    (request,
      { run with wv_count := count, wv_state := state, wv_pending := some (read_back_of request) })

/-- The plan's request for slot `i` of the batch. -/
def plan_next (run : Run) (i : Nat) : Request × Run :=
  ((run.generated.get (run.index + i)).1,
    { run with generated := (run.generated.get (run.index + i)).2 })

/-- The filling loop: at most `n` more slots from slot `i` on, while the bytes
of the batch leave room. -/
def fill (next : Run → Nat → Request × Run) (room : Nat → Bool) :
    Nat → Nat → Nat → Run → List Request × Run
  | 0, _, _, run => ([], run)
  | n + 1, i, bytes, run =>
    if room bytes then
      let (rest, after) := fill next room n (i + 1) (bytes + (next run i).1.len) (next run i).2
      ((next run i).1 :: rest, after)
    else ([], run)

/-- `v` workloads: a write, then the read of that block, alternating. -/
def fill_write_verify (run : Run) (limit : Nat) : List Request × Run :=
  fill wv_next (fun _ => true) limit 0 0 run

/-- The requests of the next batch. Their payloads are `payloads`: each goes
into its own slot, so the order of the two does not matter. -/
def fill_batch (run : Run) (limit : Nat) : List Request × Run :=
  if run.work.write_verify then run.fill_write_verify limit
  else
    let room (bytes : Nat) : Bool := !run.byte_limit.any fun n =>
      decide (n ≤ run.stats.read_bytes + run.stats.write_bytes + bytes)
    fill plan_next room limit 0 0 run

/-- One completion of a batch. Write-verify writes its own offsets, so the
plan is not written and must not be checked back. -/
def complete (requests : List Request) (run : Run) (report : Nat × ℚ) : Run :=
  let r := requests.getD report.1 Request.default
  { run with
    generated :=
      if r.write && run.work.verify && !run.work.write_verify then
        run.generated.written (run.index + report.1)
      else run.generated
    stats := run.stats.complete r (run.duration.all fun d => decide (report.2 < d)) }

/-- Checks the bytes of one read. -/
def check (run : Run) (buffer : List UInt8) (r : Request) : Run :=
  let stats :=
    if check_pattern buffer r run.work run.seed run.template then run.stats
    else count_incorrect run.stats r.offset
  { run with stats := { stats with verified := stats.verified + 1 } }

/-- `verify_reads`: the checks of a batch, from slot `i` on. -/
def verify_reads (slots : Slots) : List Request → Nat → Run → Run
  | [], _, run => run
  | r :: rest, i, run =>
    if r.verify && !r.write then
      let run := run.check ((slots i).read 0 r.len) r
      let run :=
        if run.work.write_verify then run
        else { run with generated := run.generated.checked (run.index + i) }
      verify_reads slots rest (i + 1) run
    else verify_reads slots rest (i + 1) run

/-- Checks every request of a batch of reads, from slot `i` on. -/
def verify_all (slots : Slots) : List Request → Nat → Run → Run
  | [], _, run => run
  | r :: rest, i, run =>
    verify_all slots rest (i + 1) (run.check ((slots i).read 0 r.len) r)

theorem verify_all_generated (slots : Slots) (requests : List Request) (i : Nat) (run : Run) :
    (run.verify_all slots requests i).generated = run.generated := by
  induction requests generalizing i run with
  | nil => rfl
  | cons r rest ih =>
    unfold verify_all
    rw [ih]
    rfl

/-- `verify_compacted_writes`: the reads of the batch's writes, moved to the front. -/
def compacted (requests : List Request) : List Request :=
  (requests.filter (·.write)).map fun r => { r with write := false }

/-! ## What no part of a batch changes -/

/-- The parts of a run that no step of it changes. -/
structure Frame (a b : Run) : Prop where
  work : b.work = a.work
  seed : b.seed = a.seed
  template : b.template = a.template
  reusable : b.reusable = a.reusable
  verify : b.verify = a.verify
  duration : b.duration = a.duration
  limit : b.limit = a.limit
  byte_limit : b.byte_limit = a.byte_limit
  wv_lo : b.wv_lo = a.wv_lo
  wv_hi : b.wv_hi = a.wv_hi
  table_work : b.generated.work = a.generated.work
  table_lo : b.generated.lo = a.generated.lo
  table_hi : b.generated.hi = a.generated.hi
  table_length : b.generated.entries.length = a.generated.entries.length

theorem Frame.refl (a : Run) : Frame a a := by constructor <;> rfl

theorem Frame.trans {a b c : Run} (h1 : Frame a b) (h2 : Frame b c) : Frame a c :=
  ⟨h2.work.trans h1.work, h2.seed.trans h1.seed, h2.template.trans h1.template,
    h2.reusable.trans h1.reusable, h2.verify.trans h1.verify, h2.duration.trans h1.duration,
    h2.limit.trans h1.limit, h2.byte_limit.trans h1.byte_limit, h2.wv_lo.trans h1.wv_lo,
    h2.wv_hi.trans h1.wv_hi, h2.table_work.trans h1.table_work, h2.table_lo.trans h1.table_lo,
    h2.table_hi.trans h1.table_hi, h2.table_length.trans h1.table_length⟩

/-- A run that only has another table, marked otherwise. -/
theorem Frame.of_table {a : Run} {p : Positions} (h : Positions.Frame a.generated p) :
    Frame a { a with generated := p } :=
  ⟨rfl, rfl, rfl, rfl, rfl, rfl, rfl, rfl, rfl, rfl, h.work, h.lo, h.hi, h.length⟩

theorem wv_next_frame (run : Run) (i : Nat) : Frame run (run.wv_next i).2 := by
  unfold wv_next
  split <;> constructor <;> rfl

theorem plan_next_frame (run : Run) (i : Nat) : Frame run (run.plan_next i).2 := by
  obtain ⟨hlo, hhi⟩ := run.generated.enter_pass_range ((run.index + i) / run.generated.len)
  exact ⟨rfl, rfl, rfl, rfl, rfl, rfl, rfl, rfl, rfl, rfl, Positions.get_work _ _, hlo, hhi,
    Positions.get_length _ _⟩

theorem complete_frame (requests : List Request) (run : Run) (report : Nat × ℚ) :
    Frame run (run.complete requests report) := by
  unfold complete
  dsimp only
  split_ifs
  · have h := run.generated.written_frame (run.index + report.1)
    exact ⟨rfl, rfl, rfl, rfl, rfl, rfl, rfl, rfl, rfl, rfl, h.work, h.lo, h.hi, h.length⟩
  · constructor <;> rfl

theorem completes_frame (requests : List Request) (reports : List (Nat × ℚ)) (run : Run) :
    Frame run (reports.foldl (complete requests) run) := by
  induction reports generalizing run with
  | nil => exact Frame.refl run
  | cons report reports ih => exact (complete_frame requests run report).trans (ih _)

theorem check_frame (run : Run) (buffer : List UInt8) (r : Request) :
    Frame run (run.check buffer r) := by
  constructor <;> rfl

theorem verify_reads_frame (slots : Slots) (requests : List Request) (i : Nat) (run : Run) :
    Frame run (run.verify_reads slots requests i) := by
  induction requests generalizing i run with
  | nil => exact Frame.refl run
  | cons r rest ih =>
    unfold verify_reads
    dsimp only
    have hcheck := check_frame run ((slots i).read 0 r.len) r
    split_ifs
    · exact hcheck.trans (ih _ _)
    · exact (hcheck.trans (Frame.of_table (Positions.checked_frame _ _))).trans (ih _ _)
    · exact ih _ _

theorem verify_all_frame (slots : Slots) (requests : List Request) (i : Nat) (run : Run) :
    Frame run (run.verify_all slots requests i) := by
  induction requests generalizing i run with
  | nil => exact Frame.refl run
  | cons r rest ih => exact (check_frame run ((slots i).read 0 r.len) r).trans (ih _ _)

/-- The rule for a filling loop: what each request keeps holds after it, and
each request is what its step promises. -/
theorem fill_induct (next : Run → Nat → Request × Run) {P : Nat → Run → Prop}
    {R : Nat → Request → Prop}
    (hnext : ∀ i run, P i run → R i (next run i).1 ∧ P (i + 1) (next run i).2)
    (room : Nat → Bool) (n i bytes : Nat) (run : Run) (h : P i run) :
    (∀ k r, (fill next room n i bytes run).1[k]? = some r → R (i + k) r) ∧
      P (i + (fill next room n i bytes run).1.length) (fill next room n i bytes run).2 := by
  induction n generalizing i bytes run with
  | zero => simpa [fill] using h
  | succ n ih =>
    unfold fill
    split_ifs
    · obtain ⟨h1, h2⟩ := hnext i run h
      obtain ⟨h3, h4⟩ := ih (i + 1) (bytes + (next run i).1.len) (next run i).2 h2
      refine ⟨fun k r hk => ?_, ?_⟩
      · cases k with
        | zero =>
          cases hk
          exact h1
        | succ k =>
          have := h3 k r hk
          rwa [Nat.add_right_comm, Nat.add_assoc] at this
      · rwa [List.length_cons, Nat.add_comm _ 1, ← Nat.add_assoc]
    · simpa using h

/-- The same rule for a whole batch, of pairs or from the plan. -/
theorem fill_batch_induct {P : Nat → Run → Prop} {R : Nat → Request → Prop}
    (hplan : ∀ i run, P i run → run.work.write_verify = false →
      R i (run.plan_next i).1 ∧ P (i + 1) (run.plan_next i).2)
    (hpair : ∀ i run, P i run → run.work.write_verify = true →
      R i (run.wv_next i).1 ∧ P (i + 1) (run.wv_next i).2)
    (limit : Nat) (run : Run) (h : P 0 run) :
    (∀ k r, (run.fill_batch limit).1[k]? = some r → R k r) ∧
      P (run.fill_batch limit).1.length (run.fill_batch limit).2 ∧
      Frame run (run.fill_batch limit).2 := by
  unfold fill_batch fill_write_verify
  dsimp only
  split_ifs with hw
  · obtain ⟨h1, h2, h3⟩ := fill_induct wv_next (P := fun i a => P i a ∧ Frame run a) (R := R)
      (fun i a ha => by
        obtain ⟨h4, h5⟩ := hpair i a ha.1 (by rw [ha.2.work]; exact hw)
        exact ⟨h4, h5, ha.2.trans (wv_next_frame a i)⟩)
      (fun _ => true) limit 0 0 run ⟨h, Frame.refl run⟩
    simp only [Nat.zero_add] at h1 h2
    exact ⟨h1, h2, h3⟩
  · obtain ⟨h1, h2, h3⟩ := fill_induct plan_next (P := fun i a => P i a ∧ Frame run a) (R := R)
      (fun i a ha => by
        obtain ⟨h4, h5⟩ := hplan i a ha.1 (by rw [ha.2.work]; simpa using hw)
        exact ⟨h4, h5, ha.2.trans (plan_next_frame a i)⟩)
      _ limit 0 0 run ⟨h, Frame.refl run⟩
    simp only [Nat.zero_add] at h1 h2
    exact ⟨h1, h2, h3⟩

theorem fill_batch_frame (run : Run) (limit : Nat) : Frame run (run.fill_batch limit).2 :=
  (fill_batch_induct (P := fun _ _ => True) (R := fun _ _ => True) (fun _ _ _ _ => ⟨trivial, trivial⟩)
    (fun _ _ _ _ => ⟨trivial, trivial⟩) limit run trivial).2.2

theorem fill_length_le (next : Run → Nat → Request × Run) (room : Nat → Bool)
    (n i bytes : Nat) (run : Run) : (fill next room n i bytes run).1.length ≤ n := by
  induction n generalizing i bytes run with
  | zero => simp [fill]
  | succ n ih =>
    unfold fill
    split_ifs
    · exact Nat.succ_le_succ (ih _ _ _)
    · exact Nat.zero_le _

theorem fill_batch_length_le (run : Run) (limit : Nat) :
    (run.fill_batch limit).1.length ≤ limit := by
  unfold fill_batch fill_write_verify
  dsimp only
  split_ifs <;> exact fill_length_le _ _ _ _ _ _

theorem batch_limit_le (run : Run) (h : 0 < run.work.depth) : run.batch_limit ≤ run.work.depth := by
  unfold batch_limit
  dsimp only
  split <;> split_ifs <;> omega

end Run

namespace Positions

/-- The filling loop of `verify_pending`: at most `n` unchecked writes from the cursor on. -/
def take_pending : Nat → Positions → Nat → List Request × Nat × Positions
  | 0, p, cursor => ([], cursor, p)
  | n + 1, p, cursor =>
    match p.take_pending_check cursor with
    | (none, cursor, p) => ([], cursor, p)
    | (some r, cursor, p) =>
      let rest := take_pending n p cursor
      (r :: rest.1, rest.2)

/-- A pending check that is taken moves the cursor on, inside the table. -/
theorem take_pending_check_cursor (n : Nat) (p : Positions) (cursor : Nat) :
    cursor ≤ (take_pending_check_from n p cursor).2.1 ∧
    ((take_pending_check_from n p cursor).1.isSome = true →
      cursor < (take_pending_check_from n p cursor).2.1 ∧ cursor < p.entries.length) := by
  induction n generalizing cursor with
  | zero => simp [take_pending_check_from]
  | succ n ih =>
    unfold take_pending_check_from
    split_ifs with h1 h2
    · simp
    · exact ⟨by simp, fun _ => ⟨by simp, by omega⟩⟩
    · obtain ⟨h3, h4⟩ := ih (cursor + 1)
      refine ⟨by omega, fun hs => ?_⟩
      obtain ⟨h6, h7⟩ := h4 hs
      omega

theorem take_pending_check_frame (n : Nat) (p : Positions) (cursor : Nat) :
    Frame p (take_pending_check_from n p cursor).2.2 := by
  induction n generalizing cursor with
  | zero => exact Frame.refl p
  | succ n ih =>
    unfold take_pending_check_from
    split_ifs
    · exact Frame.refl p
    · have h := p.set_verify_frame cursor false
      exact ⟨h.work, h.lo, h.hi, h.pass, h.length⟩
    · exact ih (cursor + 1)

/-- What the filling loop of `verify_pending` does: it takes checks one by one,
and stops at the first that is not there. -/
theorem take_pending_induct {P : Positions → Nat → Prop} {R : Request → Prop}
    (hnone : ∀ p cursor cursor' p', P p cursor →
      p.take_pending_check cursor = (none, cursor', p') → P p' cursor')
    (hsome : ∀ p cursor r cursor' p', P p cursor →
      p.take_pending_check cursor = (some r, cursor', p') → R r ∧ P p' cursor')
    (n : Nat) (p : Positions) (cursor : Nat) (h : P p cursor) :
    (∀ r ∈ (take_pending n p cursor).1, R r) ∧
      P (take_pending n p cursor).2.2 (take_pending n p cursor).2.1 := by
  induction n generalizing p cursor with
  | zero => exact ⟨by simp [take_pending], h⟩
  | succ n ih =>
    unfold take_pending
    split
    · rename_i cursor' p' ht
      exact ⟨by simp, hnone _ _ _ _ h ht⟩
    · rename_i r cursor' p' ht
      obtain ⟨h1, h2⟩ := hsome _ _ _ _ _ h ht
      obtain ⟨h3, h4⟩ := ih p' cursor' h2
      refine ⟨fun q hq => ?_, h4⟩
      rcases List.mem_cons.mp hq with rfl | hq
      · exact h1
      · exact h3 q hq

theorem take_pending_frame (n : Nat) (p : Positions) (cursor : Nat) :
    Frame p (take_pending n p cursor).2.2 := by
  apply (take_pending_induct (P := fun q _ => Frame p q) (R := fun _ => True) _ _ n p cursor
    (Frame.refl p)).2
  · intro q i j q' h ht
    have hone := take_pending_check_frame (q.entries.length - i) q i
    unfold take_pending_check at ht
    rw [ht] at hone
    exact h.trans hone
  · intro q i r j q' h ht
    have hone := take_pending_check_frame (q.entries.length - i) q i
    unfold take_pending_check at ht
    rw [ht] at hone
    exact ⟨trivial, h.trans hone⟩

/-- What is taken is a read of what a write left. -/
theorem take_pending_reads (n : Nat) (p : Positions) (cursor : Nat) :
    ∀ r ∈ (take_pending n p cursor).1, is_read_back r = true := by
  have hfrom : ∀ n (q : Positions) i r, (take_pending_check_from n q i).1 = some r →
      is_read_back r = true := by
    intro n q i r h
    induction n generalizing i with
    | zero => cases h
    | succ n ih =>
      unfold take_pending_check_from at h
      split_ifs at h
      · cases h
        unfold shifted
        split_ifs <;> rfl
      · exact ih (i + 1) h
  refine (take_pending_induct (P := fun _ _ => True) (fun _ _ _ _ _ _ => trivial) ?_ n p cursor
    trivial).1
  intro q i r j q' _ ht
  refine ⟨hfrom (q.entries.length - i) q i r ?_, trivial⟩
  unfold take_pending_check at ht
  rw [ht]

theorem take_pending_cursor (n : Nat) (p : Positions) (cursor : Nat) :
    cursor ≤ (take_pending n p cursor).2.1 ∧
    ((take_pending n p cursor).1 ≠ [] →
      cursor < (take_pending n p cursor).2.1 ∧ cursor < p.entries.length) := by
  induction n generalizing p cursor with
  | zero => simp [take_pending]
  | succ n ih =>
    have hone := take_pending_check_cursor (p.entries.length - cursor) p cursor
    unfold take_pending take_pending_check
    split
    · rename_i cursor' p' h
      rw [h] at hone
      simpa using hone.1
    · rename_i r cursor' p' h
      rw [h] at hone
      obtain ⟨h1, h2⟩ := hone
      obtain ⟨h4, _⟩ := ih p' cursor'
      obtain ⟨h7, h8⟩ := h2 rfl
      dsimp only at h1 h7 ⊢
      exact ⟨by omega, fun _ => ⟨by omega, h8⟩⟩

end Positions

/-- A batched run and its record. -/
structure Batches where
  run : Run
  slots : Slots
  error : Bool
  ended : Bool
  /-- How often `execute` was called. -/
  calls : Nat
  /-- Every request handed to the backend, and the bytes of its slot then. -/
  sent : List (Request × List UInt8)
  /-- Every completion, with the number of its call. -/
  done : List (Nat × Request)
  /-- Every read that was checked, with the number of its call. -/
  checked : List (Nat × Request)

namespace Batches

inductive Event where
  | batch (env : Env) (x : Execution) (flushed : Bool) (y : Execution)
  | finish (env : Env) (respond : Nat → List Request → Execution)

def start (run : Run) : Batches :=
  { run := run, slots := run.slots, error := false, ended := false, calls := 0, sent := []
    done := [], checked := [] }

/-- The run with the batch filled and its payloads written. -/
def filled (b : Batches) (requests : List Request) (run : Run) : Batches :=
  { b with run := run, slots := run.payloads requests b.slots }

/-- `Queue::execute`. -/
def execute (b : Batches) (requests : List Request) (x : Execution) : Batches :=
  { b with
    slots := x.reads requests b.slots
    error := x.failed
    calls := b.calls + 1
    sent := b.sent ++ requests.mapIdx fun i r => (r, (b.slots i).read 0 r.len)
    done := b.done ++ x.reports.map fun report =>
      (b.calls + 1, requests.getD report.1 Request.default) }

def completed (b : Batches) (requests : List Request) (x : Execution) : Batches :=
  { b with run := x.reports.foldl (Run.complete requests) b.run }

def verified (b : Batches) (requests : List Request) : Batches :=
  { b with
    run := b.run.verify_reads b.slots requests 0
    checked := b.checked ++ (requests.filter is_read_back).map fun r => (b.calls, r) }

def rechecked (b : Batches) (requests : List Request) : Batches :=
  { b with
    run := b.run.verify_all b.slots requests 0
    checked := b.checked ++ requests.map fun r => (b.calls, r) }

def advanced (b : Batches) (count : Nat) : Batches :=
  { b with run := { b.run with index := b.run.index + count } }

/-- `verify_compacted_writes`, and the step to the next batch: with `-v`, the
writes of the batch are read back at once. -/
def compact (b : Batches) (requests : List Request) (y : Execution) : Option Batches :=
  if !b.run.verify || b.run.work.verify || (Run.compacted requests).isEmpty then
    some (b.advanced requests.length)
  else if y.Legal (Run.compacted requests).length then
    if y.failed then some (b.execute (Run.compacted requests) y)
    else
      some (((b.execute (Run.compacted requests) y).rechecked (Run.compacted requests)).advanced
        requests.length)
  else none

/-- One turn of the loop in `batches`. -/
def batch (b : Batches) (x : Execution) (flushed : Bool) (y : Execution) : Option Batches :=
  let requests := (b.run.fill_batch b.run.batch_limit).1
  let b := b.filled requests (b.run.fill_batch b.run.batch_limit).2
  if x.Legal requests.length then
    let b := (b.execute requests x).completed requests x
    if x.failed then some b
    else if b.run.work.flush && requests.any (·.write) && !flushed then some { b with error := true }
    else (b.verified requests).compact requests y
  else none

/-- The run after one round of `verify_pending` took its requests from the table. -/
def taken (b : Batches) (p : Positions) : Batches := { b with run := { b.run with generated := p } }

/-- `verify_pending`: rounds of at most `depth` unchecked writes, until none is left. -/
def verify_pending (respond : Nat → List Request → Execution) (b : Batches) (round cursor : Nat) :
    Option Batches :=
  let requests := (b.run.generated.take_pending b.run.work.depth cursor).1
  let after := b.taken (b.run.generated.take_pending b.run.work.depth cursor).2.2
  if _h : requests = [] then some after
  else if (respond round requests).Legal requests.length then
    if (respond round requests).failed then some (after.execute requests (respond round requests))
    else
      verify_pending respond
        ((after.execute requests (respond round requests)).rechecked requests)
        (round + 1) (b.run.generated.take_pending b.run.work.depth cursor).2.1
  else none
termination_by b.run.generated.entries.length - cursor
decreasing_by
  -- each round moves the cursor on, and the checks do not touch the table
  obtain ⟨_, h2⟩ := Positions.take_pending_cursor b.run.work.depth b.run.generated cursor
  have h3 := (Positions.take_pending_frame b.run.work.depth b.run.generated cursor).length
  obtain ⟨h4, h5⟩ := h2 _h
  simp only [rechecked, execute, taken, Run.verify_all_generated, h3]
  omega

/-- `finish`: completes the checks that a limit left pending. -/
def finish (b : Batches) (respond : Nat → List Request → Execution) : Option Batches :=
  if b.run.work.verify && !b.error && !b.run.work.write_verify then
    (verify_pending respond b 0 0).map fun b => { b with ended := true }
  else some { b with ended := true }

/-- The loop takes a batch while there is work, and `finish` follows it. -/
def step (b : Batches) : Event → Option Batches
  | .batch env x flushed y =>
    if b.ended || b.error || b.run.out_of_work env then none else b.batch x flushed y
  | .finish env respond =>
    if !b.ended && (b.error || b.run.out_of_work env) then b.finish respond else none

/-! ## What a step can do -/

section

variable {b c : Batches}

theorem advanced_frame (b : Batches) (count : Nat) : Run.Frame b.run (b.advanced count).run := by
  constructor <;> rfl

theorem compacted_reads {requests : List Request} {r : Request} (h : r ∈ Run.compacted requests) :
    r.write = false := by
  obtain ⟨w, _, rfl⟩ := List.mem_map.mp h
  rfl

/-- With `-v` alone the writes of a batch are read back at once; otherwise the
batch is over. -/
theorem compact_cases {requests : List Request} {y : Execution}
    (h : b.compact requests y = some c) :
    (c = b.advanced requests.length ∧
      (b.run.verify = false ∨ b.run.work.verify = true ∨ Run.compacted requests = [])) ∨
    (b.run.verify = true ∧ b.run.work.verify = false ∧ y.Legal (Run.compacted requests).length ∧
      ((y.failed = true ∧ c = b.execute (Run.compacted requests) y) ∨
        (y.failed = false ∧ c = ((b.execute (Run.compacted requests) y).rechecked
          (Run.compacted requests)).advanced requests.length))) := by
  unfold compact at h
  split_ifs at h with h1 h2 h3
  · cases h
    refine .inl ⟨rfl, ?_⟩
    simpa [or_assoc] using h1
  · cases h
    simp only [Bool.or_eq_true, Bool.not_eq_true', not_or, Bool.not_eq_false] at h1
    exact .inr ⟨h1.1.1, by simpa using h1.1.2, h2, .inl ⟨h3, rfl⟩⟩
  · cases h
    simp only [Bool.or_eq_true, Bool.not_eq_true', not_or, Bool.not_eq_false] at h1
    exact .inr ⟨h1.1.1, by simpa using h1.1.2, h2, .inr ⟨by simpa using h3, rfl⟩⟩

/-- A batch is filled and executed; it stops at a failure, or its reads are
checked and its writes compacted. -/
theorem batch_cases {x y : Execution} {flushed : Bool} (h : b.batch x flushed y = some c) :
    ∃ requests run, b.run.fill_batch b.run.batch_limit = (requests, run) ∧
      x.Legal requests.length ∧ ∃ d, d = ((b.filled requests run).execute requests x).completed
        requests x ∧
      ((x.failed = true ∧ c = d) ∨ (x.failed = false ∧ c = { d with error := true }) ∨
        (x.failed = false ∧ (d.verified requests).compact requests y = some c)) := by
  unfold batch at h
  rcases hf : b.run.fill_batch b.run.batch_limit with ⟨requests, run⟩
  simp only [hf] at h
  split_ifs at h with h1 h2 h3
  · cases h
    exact ⟨requests, run, rfl, h1, _, rfl, .inl ⟨h2, rfl⟩⟩
  · cases h
    exact ⟨requests, run, rfl, h1, _, rfl, .inr (.inl ⟨by simpa using h2, rfl⟩)⟩
  · exact ⟨requests, run, rfl, h1, _, rfl, .inr (.inr ⟨by simpa using h2, h⟩)⟩

theorem finish_cases {respond : Nat → List Request → Execution} (h : b.finish respond = some c) :
    (b.run.work.verify = true ∧ b.error = false ∧ b.run.work.write_verify = false ∧
      ∃ d, verify_pending respond b 0 0 = some d ∧ c = { d with ended := true }) ∨
    ((b.run.work.verify = false ∨ b.error = true ∨ b.run.work.write_verify = true) ∧
      c = { b with ended := true }) := by
  unfold finish at h
  split_ifs at h with h1
  · obtain ⟨d, hd, rfl⟩ := Option.map_eq_some_iff.mp h
    simp only [Bool.and_eq_true, Bool.not_eq_true'] at h1
    exact .inl ⟨h1.1.1, h1.1.2, h1.2, d, hd, rfl⟩
  · cases h
    refine .inr ⟨?_, rfl⟩
    simpa [or_assoc, Classical.or_iff_not_imp_left] using h1

theorem step_cases {e : Event} (h : step b e = some c) : b.ended = false ∧
    ((∃ env x flushed y, e = .batch env x flushed y ∧ b.error = false ∧
        b.run.out_of_work env = false ∧ b.batch x flushed y = some c) ∨
      (∃ env respond, e = .finish env respond ∧
        (b.error = true ∨ b.run.out_of_work env = true) ∧ b.finish respond = some c)) := by
  cases e with
  | batch env x flushed y =>
    simp only [step] at h
    split_ifs at h with h1
    simp only [Bool.or_eq_true, not_or, Bool.not_eq_true] at h1
    exact ⟨h1.1.1, .inl ⟨env, x, flushed, y, rfl, h1.1.2, h1.2, h⟩⟩
  | finish env respond =>
    simp only [step] at h
    split_ifs at h with h1
    simp only [Bool.and_eq_true, Bool.not_eq_true', Bool.or_eq_true] at h1
    exact ⟨h1.1, .inr ⟨env, respond, rfl, h1.2, h⟩⟩

end

end Batches

end stutools
