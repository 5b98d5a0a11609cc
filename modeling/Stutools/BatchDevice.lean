-- Batched runs over a device that performs the requests of one call in any
-- order. A check is never counted as incorrect, unless a `v` batch holds a
-- write together with its own read-back.
import Stutools.BatchChecks
import Stutools.Payloads

open memory

namespace stutools

open pattern (byte_at bytes_of template_of)

/-! ## The device -/

/-- How the device serves a call of `n` requests: the order in which it performs
them, and its reports. A request is reported after it was performed. -/
structure Serving (n : Nat) where
  order : List Nat
  reports : List (Nat × ℚ)
  failed : Bool
  once : order.Nodup
  bounded : ∀ i ∈ order, i < n
  performed : ∀ report ∈ reports, report.1 ∈ order
  reported : (reports.map Prod.fst).Nodup
  complete : failed = true ∨ reports.length = n

/-- A call that performs and reports its requests from the first to the last. -/
def Serving.in_order (n : Nat) : Serving n :=
  { order := List.range n
    reports := (List.range n).map fun i => (i, 0)
    failed := false
    once := List.nodup_range
    bounded := by simp
    performed := by simp
    reported := by simpa [Function.comp_def] using List.nodup_range
    complete := by simp }

/-- The same from the last to the first. -/
def Serving.reversed (n : Nat) : Serving n :=
  { Serving.in_order n with
    order := (List.range n).reverse
    once := List.pairwise_reverse.mpr (List.nodup_range.imp fun h => h.symm)
    bounded := by simp
    performed := by simp [in_order] }

/-- One request is performed: a write takes effect, a read brings what is there. -/
def perform (requests : List Request) (slots : Slots) (s : Memory × Slots) (i : Nat) :
    Memory × Slots :=
  match requests[i]? with
  | none => s
  | some r =>
    if r.write then (s.1.write r.offset ((slots i).read 0 r.len), s.2)
    else (s.1, Function.update s.2 i fun k => s.1 (r.offset + k))

namespace Serving

variable {n : Nat}

/-- The disk and the answers once the requests of a call are performed. -/
def outcome (k : Serving n) (requests : List Request) (slots : Slots) (disk : Memory) :
    Memory × Slots :=
  k.order.foldl (perform requests slots) (disk, fun _ => Memory.zero)

/-- What the run sees of a call. -/
def execution (k : Serving n) (requests : List Request) (slots : Slots) (disk : Memory) : Execution :=
  { answers := (k.outcome requests slots disk).2, reports := k.reports, failed := k.failed }

theorem execution_legal (k : Serving n) (requests : List Request) (slots : Slots) (disk : Memory) :
    (k.execution requests slots disk).Legal n :=
  ⟨k.reported, fun report hr => k.bounded _ (k.performed report hr), k.complete⟩

/-- Without a failure every request was performed. -/
theorem mem_order (k : Serving n) (h : k.failed = false) {i : Nat} (hi : i < n) : i ∈ k.order := by
  have hlen : k.reports.length = n := by
    rcases k.complete with hc | hc
    · rw [h] at hc
      cases hc
    · exact hc
  have hsub : k.reports.map Prod.fst ⊆ List.range n := by
    intro j hj
    obtain ⟨report, hr, rfl⟩ := List.mem_map.mp hj
    exact List.mem_range.mpr (k.bounded _ (k.performed report hr))
  have hperm := List.Subperm.perm_of_length_le (List.subperm_of_subset k.reported hsub) (by simp [hlen])
  obtain ⟨report, hr, rfl⟩ := List.mem_map.mp (hperm.mem_iff.mpr (List.mem_range.mpr hi))
  exact k.performed report hr

end Serving

/-! ## What the disk holds -/

/-- The disk holds the payload of the request over its extent. -/
def Held (run : Run) (disk : Memory) (r : Request) : Prop :=
  ∀ k < r.len, disk (r.offset + k) = byte_at (r.offset + k) (payload_seed r run.work run.seed)

/-- Every write of the batch has the seed of this request. -/
def Agree (run : Run) (requests : List Request) (r : Request) : Prop :=
  ∀ w ∈ requests, w.write = true →
    payload_seed w run.work run.seed = payload_seed r run.work run.seed

/-- The slot of every write of the batch holds its payload. -/
def Loaded (run : Run) (requests : List Request) (slots : Slots) : Prop :=
  ∀ i w, requests[i]? = some w → w.write = true →
    (slots i).read 0 w.len = payload_of run.work run.seed w

variable {run : Run} {requests : List Request} {slots : Slots}

theorem Held.congr {disk : Memory} {r w : Request} (h : Held run disk w) (hb : r.block = w.block) :
    Held run disk r := by
  simp only [Request.block, Prod.mk.injEq] at hb
  obtain ⟨h1, h2, h3⟩ := hb
  unfold Held payload_seed at *
  rw [h1, h2, h3]
  exact h

/-- The bytes of a payload that is written. -/
theorem write_payload_apply (disk : Memory) (w : Request) (x : Nat) :
    disk.write w.offset (payload_of run.work run.seed w) x =
      if w.offset ≤ x ∧ x < w.offset + w.len then
        byte_at x (payload_seed w run.work run.seed)
      else disk x := by
  rw [payload_of_eq]
  split_ifs with h
  · have hx : x = w.offset + (x - w.offset) := by omega
    rw [hx, Memory.write_apply_mem (by simp; omega), pattern.bytes_of_getElem]
  · by_cases hlt : x < w.offset
    · exact Memory.write_apply_of_lt hlt
    · exact Memory.write_apply_of_ge (by simp; omega)

theorem perform_held (hload : Loaded run requests slots) {r : Request} (ha : Agree run requests r)
    {s : Memory × Slots} (h : Held run s.1 r) (i : Nat) : Held run (perform requests slots s i).1 r := by
  unfold perform
  split
  · exact h
  · rename_i w hw
    split_ifs with hwrite
    · intro k hk
      simp only [hload i w hw hwrite, write_payload_apply]
      split_ifs
      · rw [ha w (List.mem_of_getElem? hw) hwrite]
      · exact h k hk
    · exact h

/-- What the disk holds stays there while writes of one seed are performed. -/
theorem performs_held (hload : Loaded run requests slots) {r : Request} (ha : Agree run requests r)
    (order : List Nat) {s : Memory × Slots} (h : Held run s.1 r) :
    Held run (order.foldl (perform requests slots) s).1 r := by
  induction order generalizing s with
  | nil => exact h
  | cons i order ih => exact ih (perform_held hload ha h i)

/-- A write that was performed is held. -/
theorem performs_write (hload : Loaded run requests slots) {i : Nat} {w : Request}
    (hi : requests[i]? = some w) (hw : w.write = true) (ha : Agree run requests w)
    {order : List Nat} (hmem : i ∈ order) (s : Memory × Slots) :
    Held run (order.foldl (perform requests slots) s).1 w := by
  induction order generalizing s with
  | nil => cases hmem
  | cons j order ih =>
    rcases List.mem_cons.mp hmem with rfl | hmem
    · have hdisk : (perform requests slots s i).1 =
          s.1.write w.offset (payload_of run.work run.seed w) := by
        simp only [perform, hi, hw, if_true, hload i w hi hw]
      rw [List.foldl_cons]
      refine performs_held hload ha order fun k hk => ?_
      rw [hdisk, write_payload_apply, if_pos (by omega)]
    · exact ih hmem _

theorem perform_answers_of_ne (s : Memory × Slots) {i j : Nat} (h : i ≠ j) :
    (perform requests slots s j).2 i = s.2 i := by
  unfold perform
  split
  · rfl
  · split_ifs
    · rfl
    · exact Function.update_of_ne h _ _

theorem performs_answers_of_not_mem {order : List Nat} {i : Nat} (h : i ∉ order) (s : Memory × Slots) :
    (order.foldl (perform requests slots) s).2 i = s.2 i := by
  induction order generalizing s with
  | nil => rfl
  | cons j order ih =>
    obtain ⟨h1, h2⟩ := not_or.mp (mt List.mem_cons.mpr h)
    rw [List.foldl_cons, ih h2, perform_answers_of_ne s h1]

/-- A read of what the disk holds brings it, whatever writes of the seed are
performed before it. -/
theorem performs_read (hload : Loaded run requests slots) {i : Nat} {r : Request}
    (hi : requests[i]? = some r) (hr : r.write = false) (ha : Agree run requests r)
    {order : List Nat} (hmem : i ∈ order) (honce : order.Nodup) {s : Memory × Slots}
    (h : Held run s.1 r) :
    ∀ k < r.len, (order.foldl (perform requests slots) s).2 i k =
      byte_at (r.offset + k) (payload_seed r run.work run.seed) := by
  induction order generalizing s with
  | nil => cases hmem
  | cons j order ih =>
    obtain ⟨hj, hrest⟩ := List.nodup_cons.mp honce
    rcases List.mem_cons.mp hmem with rfl | hmem
    · intro k hk
      rw [List.foldl_cons, performs_answers_of_not_mem hj]
      have hanswer : (perform requests slots s i).2 i = fun k => s.1 (r.offset + k) := by
        simp only [perform, hi, hr, Bool.false_eq_true, if_false]
        exact Function.update_self _ _ _
      rw [hanswer]
      exact h k hk
    · exact ih hmem hrest (perform_held hload ha h j)

/-! ## What a check says of it -/

/-- The answer of a read that brings the payload of its extent. -/
def Brought (run : Run) (answer : Memory) (r : Request) : Prop :=
  ∀ k < r.len, answer k = byte_at (r.offset + k) (payload_seed r run.work run.seed)

theorem Brought.check (hp : run.Prepared) {answer m : Memory} {r : Request} (hr : r.write = false)
    (h : Brought run answer r) :
    check_pattern ((r.landed answer m).read 0 r.len) r run.work run.seed run.template = true := by
  have hbytes : (r.landed answer m).read 0 r.len =
      bytes_of r.offset r.len (payload_seed r run.work run.seed) := by
    apply List.ext_getElem
    · simp
    · intro i h1 h2
      simp only [Memory.read_length] at h1
      rw [pattern.bytes_of_getElem, ← h i h1]
      simp only [Memory.read, List.getElem_map, List.getElem_range, Nat.zero_add]
      rw [Request.landed, if_neg (by simp [hr]), Memory.write_zero_apply (by simpa using h1)]
      simp [Memory.read]
  rw [hbytes]
  unfold check_pattern
  split_ifs with hu
  · rw [pattern.matches.spec, pattern.bytes_of_length, payload_seed, if_pos hu]
  · rw [hp.template, pattern.matches_cached.spec, pattern.bytes_of_length, payload_seed, if_neg hu]

/-- Where slots rely on it, such an answer leaves their body intact. -/
theorem Brought.intact (hp : run.Prepared) {answer : Memory} {r : Request}
    (hr : run.Whole r.offset r.len) (h : Brought run answer r) : run.Intact answer := by
  intro hreuse k hk h8
  obtain ⟨hoffset, hlen⟩ := hr hreuse
  have hseed : payload_seed r run.work run.seed = run.seed := by
    simp [payload_seed, hp.unique hreuse]
  rw [h k (by omega), hseed, ← pattern.byte_at_mod (r.offset + k) _ (by omega),
    ← pattern.byte_at_mod k _ (by omega)]
  congr 1
  omega

/-! ## Tables that only write -/

namespace Positions

/-- Every row of the table is a write. -/
def Writes (p : Positions) : Prop := ∀ e ∈ p.entries, e.write = true

variable {p q : Positions}

theorem Writes.row (h : p.Writes) {pos : Nat} (hpos : pos < p.entries.length) :
    (p.entries.getD pos Request.default).write = true := h _ (p.getD_mem hpos)

theorem Writes.enter_pass (h : p.Writes) (pass : Nat) : (p.enter_pass pass).Writes := fun e he =>
  h e ((p.enter_pass_perm pass).mem_iff.mp he)

theorem Writes.remarked (h : p.Writes) (hre : Remarked p q) : q.Writes := by
  intro e he
  obtain ⟨i, hi, rfl⟩ := List.mem_iff_getElem.mp he
  have hrow := (hre.fields i).2.2.1
  rw [List.getD_eq_getElem _ _ hi] at hrow
  rw [hrow]
  exact h.row (by rw [← hre.length]; exact hi)

end Positions

namespace positions

variable {work : Workload}

theorem draw_writes (lo hi : Nat) (h : work.read_probability = 0) (wanted n i cursor : Nat) (rng : UInt64) :
    ∀ e ∈ (draw work lo hi wanted n i cursor rng).1, e.write = true := by
  induction n generalizing i cursor rng with
  | zero => simp [draw]
  | succ n ih =>
    intro e he
    unfold draw at he
    dsimp only at he
    split at he
    · cases he
    · rename_i offset cursor' rng' hoff
      have hwrite : draw_write work rng' = (true, rng') := if_pos h
      rcases List.mem_cons.mp he with rfl | he
      · show (draw_write work rng').1 = true
        rw [hwrite]
      · exact ih _ _ _ e he

theorem rotated_write (block lo hi shift : Nat) (e : Request) :
    (rotated block lo hi shift e).write = e.write := rfl

theorem generated_writes (lo hi : Nat) (h : work.read_probability = 0) (seed : UInt64) (capacity : Nat) :
    ∀ e ∈ (generated work lo hi seed capacity).1, e.write = true := by
  have hdraw := draw_writes lo hi h (min (work.positions.getD capacity) capacity)
    (min (work.positions.getD capacity) capacity) 0 0 seed
  unfold generated
  dsimp only
  generalize draw work lo hi _ _ 0 0 seed = drawn at hdraw
  have hrot : ∀ e ∈ (rotate work lo hi drawn.1 drawn.2).1, e.write = true := by
    unfold rotate
    dsimp only
    split_ifs
    · exact hdraw
    · intro e he
      obtain ⟨e', he', rfl⟩ := List.mem_map.mp he
      rw [rotated_write]
      exact hdraw e' he'
  generalize rotate work lo hi drawn.1 drawn.2 = turned at hrot
  split_ifs
  · intro e he
    exact hrot e ((jumble_perm _ _ _).mem_iff.mp he)
  · exact hrot

end positions

/-- Where slots are reused, the run writes only, and never alternates. -/
theorem writes_of_reusable {platform : Platform} {p : Plan} (hrun : Run.prepare platform p = .ok run)
    (hr : run.reusable = true) : run.generated.Writes ∧ run.work.alternate = false := by
  unfold Run.prepare at hrun
  split at hrun
  · cases hrun
  · rename_i g hg
    cases hrun
    simp only [Run.reusable_of, Bool.and_eq_true, Bool.not_eq_true', List.isEmpty_iff,
      decide_eq_true_eq] at hr
    obtain ⟨⟨⟨⟨⟨⟨halt, _⟩, _⟩, hl⟩, hp⟩, _⟩, _⟩ := hr
    refine ⟨fun e he => ?_, halt⟩
    obtain ⟨_, _, _, _, _, ⟨hne, _⟩ | ⟨_, hentries⟩⟩ := Positions.new_cases hg
    · exact absurd hl hne
    · rw [hentries] at he
      obtain ⟨i, hi, rfl⟩ := List.mem_mapIdx.mp he
      have hrow := positions.generated_writes p.lo p.hi hp p.seed p.position_capacity
        _ (List.getElem_mem hi)
      exact hrow

/-! ## Runs over the device -/

/-- A batched run and the disk it writes. -/
structure Stored where
  batches : Batches
  disk : Memory

namespace Stored

/-- The events of a run, with the device's way to serve any call. -/
inductive Event where
  | batch (env : Env) (x : ∀ n, Serving n) (flushed : Bool) (y : ∀ n, Serving n)
  | finish (env : Env) (respond : Nat → ∀ n, Serving n)

def start (run : Run) (disk : Memory) : Stored := { batches := .start run, disk := disk }

/-- The requests of the next batch, and the run that has filled it. -/
def filled (s : Stored) : List Request × Run := s.batches.run.fill_batch s.batches.run.batch_limit

/-- The slots as the next batch hands them to the device. -/
def buffers (s : Stored) : Slots := s.filled.2.payloads s.filled.1 s.batches.slots

/-- The disk and the answers after the requests of the next batch. -/
def served (s : Stored) (x : ∀ n, Serving n) : Memory × Slots :=
  (x s.filled.1.length).outcome s.filled.1 s.buffers s.disk

/-- What the run sees of its next batch. -/
def execution (s : Stored) (x : ∀ n, Serving n) : Execution :=
  (x s.filled.1.length).execution s.filled.1 s.buffers s.disk

/-- What the run sees when it reads requests back. -/
def answer (disk : Memory) (slots : Slots) (y : ∀ n, Serving n) (requests : List Request) : Execution :=
  (y requests.length).execution requests slots disk

def step (s : Stored) : Event → Option Stored
  | .batch env x flushed y =>
    (s.batches.step (.batch env (s.execution x) flushed
      (answer (s.served x).1 s.buffers y (Run.compacted s.filled.1)))).map
        fun b => { batches := b, disk := (s.served x).1 }
  | .finish env respond =>
    (s.batches.step (.finish env fun round requests =>
      answer s.disk s.batches.slots (respond round) requests)).map
        fun b => { batches := b, disk := s.disk }

/-- A `v` batch does not hold a write together with its own read-back. -/
def Apart (s : Stored) : Event → Prop
  | .batch .. => s.batches.run.work.write_verify = true →
    s.batches.run.batch_limit ≤ if s.batches.run.wv_pending.isSome then 2 else 1
  | .finish .. => True

/-- What holds between two batches. -/
structure Sound (run : Run) (s : Stored) : Prop where
  accounted : s.batches.Accounted run
  counted : s.batches.run.generated.Counted
  seeded : s.batches.Seeded run
  correct : s.batches.run.stats.incorrect = 0
  due : run.work.verify = true → run.work.write_verify = false →
    ∀ i, s.batches.run.generated.Due s.batches.run.index i →
      (s.batches.run.generated.entries.getD (s.batches.run.generated.mapped i).1
        Request.default).write = true →
      Held run s.disk (s.batches.run.generated.recheck (s.batches.run.generated.mapped i).1)
  pending : run.work.write_verify = true → ∀ r, s.batches.run.wv_pending = some r →
    Held run s.disk r ∧ r.seed = 0
  writes : run.reusable = true → s.batches.run.generated.Writes

end Stored

/-! ## What a check counts -/

namespace Run

/-- A run of checks counts nothing when each buffer passes. -/
theorem verify_all_correct {slots : Slots} {requests : List Request} {i : Nat} {run : Run}
    (h : ∀ k r, requests[k]? = some r →
      check_pattern ((slots (i + k)).read 0 r.len) r run.work run.seed run.template = true) :
    (run.verify_all slots requests i).stats.incorrect = run.stats.incorrect := by
  induction requests generalizing i run with
  | nil => rfl
  | cons r rest ih =>
    have hone := h 0 r rfl
    rw [Nat.add_zero] at hone
    have hcheck : (run.check ((slots i).read 0 r.len) r).stats.incorrect = run.stats.incorrect := by
      simp only [check, hone, if_true]
    rw [← hcheck]
    refine ih fun k q hk => ?_
    have hrest := h (k + 1) q hk
    rwa [show i + (k + 1) = i + 1 + k by omega] at hrest

theorem verify_reads_correct {slots : Slots} {requests : List Request} {i : Nat} {run : Run}
    (h : ∀ k r, requests[k]? = some r → is_read_back r = true →
      check_pattern ((slots (i + k)).read 0 r.len) r run.work run.seed run.template = true) :
    (run.verify_reads slots requests i).stats.incorrect = run.stats.incorrect := by
  induction requests generalizing i run with
  | nil => rfl
  | cons r rest ih =>
    have hrest : ∀ k q, rest[k]? = some q → is_read_back q = true →
        check_pattern ((slots (i + 1 + k)).read 0 q.len) q run.work run.seed run.template = true := by
      intro k q hk hq
      have := h (k + 1) q hk hq
      rwa [show i + (k + 1) = i + 1 + k by omega] at this
    unfold verify_reads
    dsimp only
    split_ifs with hr hw
    · have hone := h 0 r rfl hr
      rw [Nat.add_zero] at hone
      have hcheck : (run.check ((slots i).read 0 r.len) r).stats.incorrect = run.stats.incorrect := by
        simp only [check, hone, if_true]
      rw [← hcheck]
      exact @ih (i + 1) (run.check ((slots i).read 0 r.len) r) hrest
    · have hone := h 0 r rfl hr
      rw [Nat.add_zero] at hone
      have hcheck : (run.check ((slots i).read 0 r.len) r).stats.incorrect = run.stats.incorrect := by
        simp only [check, hone, if_true]
      rw [← hcheck]
      exact @ih (i + 1) ({ run.check ((slots i).read 0 r.len) r with
        generated := run.generated.checked (run.index + i) }) hrest
    · exact ih hrest

theorem completes_correct (requests : List Request) (reports : List (Nat × ℚ)) (run : Run) :
    (reports.foldl (complete requests) run).stats.incorrect = run.stats.incorrect := by
  induction reports generalizing run with
  | nil => rfl
  | cons report reports ih =>
    rw [List.foldl_cons, ih]
    simp only [complete, Stats.complete]
    split_ifs <;> rfl

theorem fill_batch_correct (run : Run) (limit : Nat) :
    (run.fill_batch limit).2.stats = run.stats := by
  refine (fill_batch_induct (P := fun _ a => a.stats = run.stats) (R := fun _ _ => True) ?_ ?_ limit
    run rfl).2.1
  · exact fun i a ha _ => ⟨trivial, ha⟩
  · intro i a ha _
    refine ⟨trivial, ?_⟩
    unfold wv_next
    split <;> exact ha

/-! ## The requests of a batch -/

theorem plan_next_eq (run : Run) (i : Nat) {q : Positions}
    (hq : run.generated.enter_pass ((run.index + i) / run.generated.len) = q) :
    (run.plan_next i).1 = q.request_at (q.mapped (run.index + i)).1 (q.mapped (run.index + i)).2
      ((run.index + i) / run.generated.len) := by
  rw [← hq]
  rfl

/-- A plan that does not verify gives no check, and only writes where its table does. -/
theorem fill_batch_plain {run : Run} (hv : run.generated.work.verify = false)
    (hu : run.generated.work.unique_verify = false) (hw : run.work.write_verify = false)
    (limit : Nat) : (∀ r ∈ (run.fill_batch limit).1, r.verify = false) ∧
      (run.generated.work.alternate = false → run.generated.Writes →
        ∀ r ∈ (run.fill_batch limit).1, r.write = true) := by
  have hcheck : ∀ (q : Positions) i, q.work = run.generated.work → (q.mapped i).2 = false := by
    intro q i hq
    simp only [Positions.mapped, hq, hv, hu, Bool.false_eq_true, if_false, Bool.false_and]
  have hpass : ∀ (q : Positions) i, (q.enter_pass i).work = q.work := Positions.enter_pass_work
  refine ⟨fun r hr => ?_, fun ha hwrites r hr => ?_⟩
  · obtain ⟨k, hk⟩ := List.mem_iff_getElem?.mp hr
    refine (fill_batch_induct (P := fun _ a => a.generated.work = run.generated.work ∧
      a.work = run.work) (R := fun _ r => r.verify = false) ?_ ?_ limit run ⟨rfl, rfl⟩).1 k r hk
    · intro i a h _
      refine ⟨?_, (hpass _ _).trans h.1, h.2⟩
      rw [a.plan_next_eq i rfl, hcheck _ _ ((hpass _ _).trans h.1)]
      exact Positions.request_at_of_not_check _ _ _
    · intro i a h hwv
      rw [h.2, hw] at hwv
      cases hwv
  · obtain ⟨k, hk⟩ := List.mem_iff_getElem?.mp hr
    refine (fill_batch_induct (P := fun _ a => a.generated.work = run.generated.work ∧
      a.work = run.work ∧ a.generated.Writes) (R := fun _ r => r.write = true) ?_ ?_ limit run
      ⟨rfl, rfl, hwrites⟩).1 k r hk
    · intro i a h _
      have hnext := h.2.2.enter_pass ((a.index + i) / a.generated.len)
      refine ⟨?_, (hpass _ _).trans h.1, h.2.1, hnext⟩
      rw [a.plan_next_eq i rfl, hcheck _ _ ((hpass _ _).trans h.1),
        (Positions.request_at_flags _ (by rw [hpass, h.1]; exact ha) _ _ _).1]
      exact hnext.row (Positions.mapped_lt _ _)
    · intro i a h hwv
      rw [h.2.1, hw] at hwv
      cases hwv

/-- A `v` batch that does not hold a write with its read-back reads only what was pending. -/
theorem fill_batch_apart {run : Run} (hw : run.work.write_verify = true) {limit : Nat}
    (hlimit : limit ≤ if run.wv_pending.isSome then 2 else 1)
    (hp : ∀ r, run.wv_pending = some r → r.write = false ∧ r.seed = 0) :
    (∀ r ∈ (run.fill_batch limit).1, r.seed = 0 ∧ (r.write = false → run.wv_pending = some r)) ∧
    ∀ r, (run.fill_batch limit).2.wv_pending = some r → r.seed = 0 ∧
      (run.wv_pending = some r ∨
        ∃ w ∈ (run.fill_batch limit).1, w.write = true ∧ r = read_back_of w) := by
  have hbatch : run.fill_batch limit = fill wv_next (fun _ => true) limit 0 0 run := by
    simp only [fill_batch, hw, if_true, fill_write_verify]
  rw [hbatch]
  -- the write of a run without a pending read
  have hwrite : ∀ (a : Run) i, a.wv_pending = none → ∃ w, (a.wv_next i).1 = w ∧ w.write = true ∧
      w.seed = 0 ∧ (a.wv_next i).2.wv_pending = some (read_back_of w) := by
    intro a i ha
    simp only [wv_next, ha]
    exact ⟨_, rfl, rfl, rfl, rfl⟩
  cases hpend : run.wv_pending with
  | none =>
    rw [hpend] at hlimit
    obtain ⟨w, h1, h2, h3, h4⟩ := hwrite run 0 hpend
    obtain rfl | rfl : limit = 0 ∨ limit = 1 := Nat.le_one_iff_eq_zero_or_eq_one.mp hlimit
    · simp [fill, hpend]
    · simp only [fill, if_true, h1, List.mem_singleton, forall_eq, h4, Option.some.injEq]
      refine ⟨⟨h3, fun hc => ?_⟩, fun r hr => ?_⟩
      · rw [h2] at hc
        cases hc
      · rw [← hr]
        exact ⟨h3, .inr ⟨w, rfl, h2, rfl⟩⟩
  | some read =>
    rw [hpend] at hlimit
    obtain ⟨hread, hseed⟩ := hp read hpend
    have hnext : run.wv_next 0 = (read, { run with wv_pending := none }) := by
      simp only [wv_next, hpend]
    obtain rfl | rfl | rfl : limit = 0 ∨ limit = 1 ∨ limit = 2 := by
      have : limit ≤ 2 := hlimit
      omega
    · simp only [fill, List.not_mem_nil, false_imp_iff, implies_true, true_and, hpend]
      rintro r hr
      cases hr
      exact ⟨hseed, .inl rfl⟩
    · simp [fill, hnext, hseed]
    · obtain ⟨w, h1, h2, h3, h4⟩ := hwrite { run with wv_pending := none } 1 rfl
      simp only [fill, if_true, hnext, h1, h4, Nat.zero_add]
      refine ⟨fun r hr => ?_, fun r hr => ?_⟩
      · rcases List.mem_cons.mp hr with rfl | hr
        · exact ⟨hseed, fun _ => rfl⟩
        · rw [List.mem_singleton.mp hr]
          refine ⟨h3, fun hc => ?_⟩
          rw [h2] at hc
          cases hc
      · cases hr
        exact ⟨h3, .inr ⟨w, by simp, h2, rfl⟩⟩

/-! ## Writes stay writes -/

theorem fill_batch_writes {run : Run} (h : run.generated.Writes) (limit : Nat) :
    (run.fill_batch limit).2.generated.Writes := by
  refine (fill_batch_induct (P := fun _ a => a.generated.Writes) (R := fun _ _ => True) ?_ ?_ limit
    run h).2.1
  · exact fun i a ha _ => ⟨trivial, ha.enter_pass _⟩
  · intro i a ha _
    refine ⟨trivial, ?_⟩
    unfold wv_next
    split <;> exact ha

theorem completes_writes (requests : List Request) (reports : List (Nat × ℚ)) {run : Run}
    (h : run.generated.Writes) : (reports.foldl (complete requests) run).generated.Writes := by
  induction reports generalizing run with
  | nil => exact h
  | cons report reports ih =>
    apply ih
    unfold complete
    dsimp only
    split_ifs
    · exact h.remarked (Positions.written.spec _ _).1
    · exact h

theorem verify_reads_writes (slots : Slots) (requests : List Request) (i : Nat) {run : Run}
    (h : run.generated.Writes) : (run.verify_reads slots requests i).generated.Writes := by
  induction requests generalizing i run with
  | nil => exact h
  | cons r rest ih =>
    unfold verify_reads
    dsimp only
    split_ifs
    · exact ih (i + 1) h
    · exact ih (i + 1) (h.remarked (Positions.checked.spec _ _).1)
    · exact ih (i + 1) h

end Run

/-! ## What a batch reads and leaves -/

theorem agree_of_not_unique (h : run.work.unique = false) (r : Request) : Agree run requests r := by
  intro w _ _
  simp [payload_seed, h]

theorem agree_of_single (h : requests.length ≤ 1) {r : Request} (hr : r ∈ requests) :
    Agree run requests r := by
  intro w hw _
  by_cases he : r = w
  · rw [he]
  · have := Batches.two_le_length hr hw he
    omega

theorem agree_of_seed (h : ∀ w ∈ requests, w.seed = 0) {r : Request} (hr : r.seed = 0) :
    Agree run requests r := by
  intro w hw _
  simp [payload_seed, h w hw, hr]

theorem agree_of_reads (h : ∀ w ∈ requests, w.write = false) (r : Request) :
    Agree run requests r := by
  intro w hw hwrite
  rw [h w hw] at hwrite
  cases hwrite

/-- The slots of a filled batch hold the payloads of its writes. -/
theorem Batches.Seeded.loaded {b : Batches} (hp : run.Prepared) (hd : 0 < run.work.depth)
    (h : b.Seeded run) {a : Run} (hfill : b.run.fill_batch b.run.batch_limit = (requests, a)) :
    Loaded run requests (a.payloads requests b.slots) ∧
      ∀ r ∈ requests, run.Whole r.offset r.len := by
  obtain ⟨h1, _⟩ := h.carries.run.fill_batch b.run.batch_limit
  have hframe := b.run.fill_batch_frame b.run.batch_limit
  have hlen := b.run.fill_batch_length_le b.run.batch_limit
  have hdepth := b.run.batch_limit_le (by rw [h.frame.work]; exact hd)
  rw [h.frame.work] at hdepth
  rw [hfill] at h1 hframe hlen
  refine ⟨fun i w hi hw => ?_, h1⟩
  obtain ⟨hlt, _⟩ := List.getElem?_eq_some_iff.mp hi
  rw [Batches.payloads_apply (h.frame.trans hframe) requests b.slots hi]
  exact Run.payload_read hp hw (h1 w (List.mem_of_getElem? hi))
    (h.slots i (Nat.lt_of_lt_of_le hlt (Nat.le_trans hlen hdepth)))

namespace Stored

/-- What a call that did not fail does for the next batch. -/
structure Serves (run : Run) (s : Stored) (x : ∀ n, Serving n) : Prop where
  reads : ∀ i r, s.filled.1[i]? = some r → is_read_back r = true →
    Brought run ((s.served x).2 i) r
  brings : run.reusable = true → ∀ i r, s.filled.1[i]? = some r → r.write = false →
    Brought run ((s.served x).2 i) r
  writes : ∀ w ∈ s.filled.1, w.write = true → Held run (s.served x).1 w

variable {s t : Stored} {x : ∀ n, Serving n}

section

variable (hload : Loaded run s.filled.1 s.buffers) (hx : (x s.filled.1.length).failed = false)

include hload

theorem served_held {r : Request} (ha : Agree run s.filled.1 r) (h : Held run s.disk r) :
    Held run (s.served x).1 r := performs_held hload ha _ h

include hx

theorem served_read {i : Nat} {r : Request} (hi : s.filled.1[i]? = some r) (hr : r.write = false)
    (ha : Agree run s.filled.1 r) (h : Held run s.disk r) : Brought run ((s.served x).2 i) r := by
  obtain ⟨hlt, _⟩ := List.getElem?_eq_some_iff.mp hi
  exact performs_read hload hi hr ha ((x s.filled.1.length).mem_order hx hlt)
    (x s.filled.1.length).once h

theorem served_write {w : Request} (hmem : w ∈ s.filled.1) (hw : w.write = true)
    (ha : Agree run s.filled.1 w) : Held run (s.served x).1 w := by
  obtain ⟨i, hi⟩ := List.mem_iff_getElem?.mp hmem
  obtain ⟨hlt, _⟩ := List.getElem?_eq_some_iff.mp hi
  exact performs_write hload hi hw ha ((x s.filled.1.length).mem_order hx hlt) _

end

/-- A batch of the plan: its writes have one seed, or there is one of them. -/
theorem Sound.plan_agree {w : Workload} (hp : w.Parsed) (hw : run.work = w) (h : Sound run s)
    {r : Request} (hr : r ∈ s.filled.1) : Agree run s.filled.1 r := by
  by_cases hu : run.work.unique = true
  · have hdepth : run.work.depth = 1 := by
      rw [hw] at hu ⊢
      exact hp.depth_of_unique hu
    have hlimit := s.batches.run.batch_limit_le (by
      rw [h.accounted.frame.work, hdepth]
      exact Nat.one_pos)
    rw [h.accounted.frame.work, hdepth] at hlimit
    exact agree_of_single (Nat.le_trans (s.batches.run.fill_batch_length_le _) hlimit) hr
  · exact agree_of_not_unique (by simpa using hu) r

/-- The checks that are due are held when the batch has entered its pass. -/
theorem Sound.due_entered (h : Sound run s) (hwork : run.work = run.generated.work)
    (hv : run.work.verify = true) (hw : run.work.write_verify = false) {q : Positions}
    (hq : s.batches.run.generated.enter_pass
      (s.batches.run.index / s.batches.run.generated.len) = q)
    {i : Nat} (hi : q.Due s.batches.run.index i)
    (hrow : (q.entries.getD (q.mapped i).1 Request.default).write = true) :
    Held run s.disk (q.recheck (q.mapped i).1) := by
  have hv' : s.batches.run.generated.work.verify = true := by
    rw [h.accounted.frame.table_work, ← hwork]
    exact hv
  rcases (h.accounted.phased hv hw).enter_pass hv' with hsame | ⟨hzero, _⟩
  · rw [hq] at hsame
    rw [hsame] at hi hrow ⊢
    exact h.due hv hw i hi hrow
  · -- a pass that starts here has handed out nothing yet
    have hlen : q.len = s.batches.run.generated.len := by
      rw [← hq]
      simp [Positions.len]
    have hpass : q.pass = s.batches.run.index / q.len := by
      rw [← hq, Positions.enter_pass_pass, hq, hlen]
    have hsame := hi.pass.trans hpass
    have hbefore := hi.before
    rw [← hlen] at hzero
    have h1 := Nat.div_add_mod i q.len
    have h2 := Nat.div_add_mod s.batches.run.index q.len
    rw [hsame] at h1
    omega

theorem Sound.plan_serves {w : Workload} (hp : w.Parsed) (hww : run.work = w)
    (hwork : run.work = run.generated.work) (hv : run.work.verify = true)
    (hw : run.work.write_verify = false) (h : Sound run s)
    (hload : Loaded run s.filled.1 s.buffers) (hx : (x s.filled.1.length).failed = false) :
    Serves run s x ∧ ∀ g, Positions.Remarked s.filled.2.generated g →
      ∀ i, g.Due (s.batches.run.index + s.filled.1.length) i →
        (g.entries.getD (g.mapped i).1 Request.default).write = true →
        Held run (s.served x).1 (g.recheck (g.mapped i).1) := by
  have halt : run.work.alternate = false := by
    rw [hww] at hv ⊢
    exact hp.not_alternate hv
  have htwork := h.accounted.frame.table_work
  rw [← hwork] at htwork
  generalize hq : s.batches.run.generated.enter_pass
    (s.batches.run.index / s.batches.run.generated.len) = q
  have hqwork : q.work = run.work := by rw [← hq, Positions.enter_pass_work, htwork]
  obtain ⟨_, htable, hn, hpass, hreq⟩ := Run.fill_batch_phase (by rw [htwork]; exact hv)
    (by rw [h.accounted.frame.work]; exact hw) (Batches.batch_limit_le_phase s.batches.run)
    (show s.batches.run.fill_batch s.batches.run.batch_limit = (s.filled.1, s.filled.2) from rfl) hq
  have hflags := fun k r (hk : s.filled.1[k]? = some r) =>
    (congrArg Request.write (hreq k r hk)).trans
      (Positions.request_at_flags q (by rw [hqwork]; exact halt) _ _ _).1
  have hverify := fun k r (hk : s.filled.1[k]? = some r) =>
    (congrArg Request.verify (hreq k r hk)).trans
      (Positions.request_at_flags q (by rw [hqwork]; exact halt) _ _ _).2
  have hblock : ∀ k r, s.filled.1[k]? = some r →
      r.block = (q.recheck (q.mapped (s.batches.run.index + k)).1).block := by
    intro k r hk
    rw [hreq k r hk, Positions.request_at_block]
  have hqv : q.work.verify = true := by rw [hqwork]; exact hv
  have hwrites : ∀ w ∈ s.filled.1, w.write = true → Held run (s.served x).1 w := fun w hmem hwrite =>
    served_write hload hx hmem hwrite (h.plan_agree hp hww hmem)
  -- what is due after the batch is what was due, or what the batch wrote
  have hold : (∀ i, q.Due s.batches.run.index i → Agree run s.filled.1 (q.recheck (q.mapped i).1)) →
      ∀ i, q.Due (s.batches.run.index + s.filled.1.length) i →
        (q.entries.getD (q.mapped i).1 Request.default).write = true →
        Held run (s.served x).1 (q.recheck (q.mapped i).1) := by
    intro hagree i hi hrow
    rcases hi.of_next hqv hn with hi | ⟨hop, j, hj, rfl⟩
    · exact served_held hload (hagree i hi) (h.due_entered hwork hv hw hq hi hrow)
    · have hget := List.getElem?_eq_getElem hj
      have hwrite := hflags _ _ hget
      rw [hop, hrow] at hwrite
      exact (hwrites _ (List.getElem_mem hj) hwrite).congr (hblock _ _ hget).symm
  have hlast : (∀ i, q.Due s.batches.run.index i →
      Agree run s.filled.1 (q.recheck (q.mapped i).1)) →
      ∀ g, Positions.Remarked s.filled.2.generated g →
      ∀ i, g.Due (s.batches.run.index + s.filled.1.length) i →
        (g.entries.getD (g.mapped i).1 Request.default).write = true →
        Held run (s.served x).1 (g.recheck (g.mapped i).1) := by
    intro hagree g hg i hi hrow
    rw [hg.due_iff] at hi
    rw [(hg.fields _).2.2.1, hg.mapped_eq] at hrow
    rw [hg.recheck_eq, hg.mapped_eq]
    rcases htable with htable | ⟨hnil, htable⟩
    · rw [htable] at hi hrow ⊢
      exact hold hagree i hi hrow
    · rw [htable] at hi hrow ⊢
      rw [hnil, List.length_nil, Nat.add_zero] at hi
      refine served_held hload ?_ (h.due hv hw i hi hrow)
      rw [hnil]
      exact agree_of_reads (by simp) _
  cases hphase : (q.mapped s.batches.run.index).2 with
  | false =>
    rw [hphase] at hflags hverify
    refine ⟨⟨fun i r hi hr => ?_, fun hreuse i r hi hr => ?_, hwrites⟩, hlast fun i hi => ?_⟩
    · have hread := hverify i r hi
      rw [((is_read_back_iff r).mp hr).1] at hread
      cases hread
    · have hrows : q.Writes := by
        rw [← hq]
        exact (h.writes hreuse).enter_pass _
      have hwrite := hflags i r hi
      rw [hr, hrows.row (Positions.mapped_lt _ _)] at hwrite
      cases hwrite
    · by_cases hu : run.work.unique = true
      · -- with `U` an operation comes when nothing is due
        have huv : q.work.unique_verify = true := by
          rw [hqwork, hww]
          rw [hww] at hv hw hu
          rcases hp.verify_iff.mp hv with hc | hc | ⟨_, hc⟩
          · rw [hw] at hc
            cases hc
          · exact hc
          · rw [hu] at hc
            cases hc
        have hcheck := (Positions.check_of.spec hqv hi.op).1
        have hbefore := hi.before
        have hafter := hi.after
        simp only [Positions.check_of, huv, if_true] at hcheck hafter
        rw [show i + 1 = s.batches.run.index by omega] at hcheck
        rw [hcheck] at hphase
        cases hphase
      · exact agree_of_not_unique (by simpa using hu) _
  | true =>
    rw [hphase] at hflags hverify
    have hreads : ∀ r ∈ s.filled.1, r.write = false := by
      intro r hr
      obtain ⟨k, hk⟩ := List.mem_iff_getElem?.mp hr
      exact hflags k r hk
    have hbrought : ∀ i r, s.filled.1[i]? = some r →
        (q.entries.getD (q.mapped (s.batches.run.index + i)).1 Request.default).write = true →
        Brought run ((s.served x).2 i) r := by
      intro i r hi hrow
      obtain ⟨hlt, _⟩ := List.getElem?_eq_some_iff.mp hi
      obtain ⟨j, hdue, hpos⟩ := Positions.due_of_check hqv (Nat.lt_of_lt_of_le hlt hn) hpass hphase
      rw [← hpos] at hrow
      refine served_read hload hx hi (hflags i r hi) (agree_of_reads hreads r) ?_
      exact (h.due_entered hwork hv hw hq hdue hrow).congr (by rw [hblock i r hi, hpos])
    refine ⟨⟨fun i r hi hr => ?_, fun hreuse i r hi _ => ?_, hwrites⟩,
      hlast fun i _ => agree_of_reads hreads _⟩
    · have hrow := hverify i r hi
      rw [((is_read_back_iff r).mp hr).1, Bool.true_and] at hrow
      exact hbrought i r hi hrow.symm
    · have hrows : q.Writes := by
        rw [← hq]
        exact (h.writes hreuse).enter_pass _
      exact hbrought i r hi (hrows.row (Positions.mapped_lt _ _))

/-- A `v` batch that does not hold a write with its read-back. -/
theorem Sound.pair_serves (hw : run.work.write_verify = true) (h : Sound run s)
    (hlimit : s.batches.run.batch_limit ≤ if s.batches.run.wv_pending.isSome then 2 else 1)
    (hload : Loaded run s.filled.1 s.buffers) (hx : (x s.filled.1.length).failed = false) :
    Serves run s x ∧ ∀ r, s.filled.2.wv_pending = some r → Held run (s.served x).1 r ∧ r.seed = 0 := by
  obtain ⟨h1, h2⟩ := Run.fill_batch_apart (by rw [h.accounted.frame.work]; exact hw) hlimit
    fun r hr => ⟨h.accounted.pending r hr, (h.pending hw r hr).2⟩
  have hseeds : ∀ r ∈ s.filled.1, r.seed = 0 := fun r hr => (h1 r hr).1
  have hwrites : ∀ w ∈ s.filled.1, w.write = true → Held run (s.served x).1 w := fun w hmem hwrite =>
    served_write hload hx hmem hwrite (agree_of_seed hseeds (hseeds w hmem))
  have hbrought : ∀ i r, s.filled.1[i]? = some r → r.write = false →
      Brought run ((s.served x).2 i) r := by
    intro i r hi hr
    have hmem := List.mem_of_getElem? hi
    exact served_read hload hx hi hr (agree_of_seed hseeds (hseeds r hmem))
      (h.pending hw r ((h1 r hmem).2 hr)).1
  refine ⟨⟨fun i r hi hr => hbrought i r hi ((is_read_back_iff r).mp hr).2,
    fun _ => hbrought, hwrites⟩, fun r hr => ?_⟩
  obtain ⟨hseed, hold | ⟨w, hmem, hwrite, rfl⟩⟩ := h2 r hr
  · exact ⟨served_held hload (agree_of_seed hseeds hseed) (h.pending hw r hold).1, hseed⟩
  · exact ⟨(hwrites w hmem hwrite).congr rfl, hseed⟩

/-- A batch of a plan that does not verify. -/
theorem Sound.plain_serves {w : Workload} (hp : w.Parsed) (hww : run.work = w)
    (hwork : run.work = run.generated.work) (hv : run.work.verify = false)
    (halt : run.reusable = true → run.work.alternate = false) (h : Sound run s)
    (hload : Loaded run s.filled.1 s.buffers) (hx : (x s.filled.1.length).failed = false) :
    Serves run s x := by
  have htwork := h.accounted.frame.table_work
  rw [← hwork] at htwork
  have hmodes : run.work.unique_verify = false ∧ run.work.write_verify = false := by
    rw [hww] at hv ⊢
    have hiff := hp.verify_iff
    rw [hv] at hiff
    simp only [Bool.false_eq_true, false_iff, not_or, Bool.not_eq_true] at hiff
    exact ⟨hiff.2.1, hiff.1⟩
  obtain ⟨h1, h2⟩ := Run.fill_batch_plain (by rw [htwork]; exact hv) (by rw [htwork]; exact hmodes.1)
    (by rw [h.accounted.frame.work]; exact hmodes.2) s.batches.run.batch_limit
  refine ⟨fun i r hi hr => ?_, fun hreuse i r hi hr => ?_, fun w hmem hwrite =>
    served_write hload hx hmem hwrite (h.plan_agree hp hww hmem)⟩
  · have hread := h1 r (List.mem_of_getElem? hi)
    rw [((is_read_back_iff r).mp hr).1] at hread
    cases hread
  · have hwrite := h2 (by rw [htwork]; exact halt hreuse) (h.writes hreuse) r (List.mem_of_getElem? hi)
    rw [hr] at hwrite
    cases hwrite

theorem landed_of (x : Execution) {requests : List Request} (slots : Slots) {k : Nat} {r : Request}
    (hk : requests[k]? = some r) : x.reads requests slots k = r.landed (x.answers k) (slots k) := by
  simp only [Execution.reads, hk]

/-- The reads that compact a batch bring what its writes left. -/
theorem Serves.compacted (h : Serves run s x) {y : ∀ n, Serving n}
    (hy : (y (Run.compacted s.filled.1).length).failed = false) {i : Nat} {r : Request}
    (hi : (Run.compacted s.filled.1)[i]? = some r) :
    Brought run ((answer (s.served x).1 s.buffers y (Run.compacted s.filled.1)).answers i) r := by
  have hreads : ∀ r ∈ Run.compacted s.filled.1, r.write = false := fun r hr =>
    Batches.compacted_reads hr
  have hload : Loaded run (Run.compacted s.filled.1) s.buffers := by
    intro j w hj hw
    rw [hreads w (List.mem_of_getElem? hj)] at hw
    cases hw
  obtain ⟨hlt, _⟩ := List.getElem?_eq_some_iff.mp hi
  obtain ⟨w, hmem, rfl⟩ := List.mem_map.mp (List.mem_of_getElem? hi)
  obtain ⟨hmem, hwrite⟩ := List.mem_filter.mp hmem
  exact performs_read hload hi rfl (agree_of_reads hreads _)
    ((y (Run.compacted s.filled.1).length).mem_order hy hlt)
    (y (Run.compacted s.filled.1).length).once ((h.writes w hmem hwrite).congr rfl)

/-- Nothing that a batch checks is counted as incorrect. -/
theorem Serves.correct (hp : run.Prepared) (hframe : Run.Frame run s.batches.run)
    (h : (x s.filled.1.length).failed = false → Serves run s x) {y : ∀ n, Serving n} {flushed : Bool}
    {c : Batches}
    (hb : s.batches.batch (s.execution x) flushed
      (answer (s.served x).1 s.buffers y (Run.compacted s.filled.1)) = some c) :
    c.run.stats.incorrect = s.batches.run.stats.incorrect := by
  obtain ⟨requests, a, hfill, _, d, hd, hcases⟩ := Batches.batch_cases hb
  obtain rfl : requests = s.filled.1 := (congrArg Prod.fst hfill).symm
  obtain rfl : a = s.filled.2 := (congrArg Prod.snd hfill).symm
  have hfilled := s.batches.run.fill_batch_correct s.batches.run.batch_limit
  have haframe := hframe.trans (s.batches.run.fill_batch_frame s.batches.run.batch_limit)
  rw [hfill] at hfilled haframe
  have hcompleted := Run.completes_correct s.filled.1 (s.execution x).reports s.filled.2
  have hcframe := haframe.trans (Run.completes_frame s.filled.1 (s.execution x).reports s.filled.2)
  have hdone : d.run.stats.incorrect = s.batches.run.stats.incorrect := by
    rw [hd]
    exact hcompleted.trans (congrArg Stats.incorrect hfilled)
  rcases hcases with ⟨_, rfl⟩ | ⟨_, rfl⟩ | ⟨hx, hc⟩
  · exact hdone
  · exact hdone
  · have hserves := h hx
    have hread : (d.verified s.filled.1).run.stats.incorrect =
        s.batches.run.stats.incorrect := by
      rw [← hdone]
      refine Run.verify_reads_correct fun k r hk hr => ?_
      have hbrought := hserves.reads k r hk hr
      have hslot : d.slots (0 + k) =
          r.landed ((s.served x).2 k) ((s.batches.filled s.filled.1 s.filled.2).slots k) := by
        rw [hd, Nat.zero_add]
        exact landed_of (s.execution x) _ hk
      have hdframe : Run.Frame run d.run := by
        rw [hd]
        exact hcframe
      rw [hslot, hdframe.work, hdframe.seed, hdframe.template]
      exact hbrought.check hp ((is_read_back_iff r).mp hr).2
    rcases Batches.compact_cases hc with ⟨rfl, _⟩ | ⟨_, _, _, ⟨_, rfl⟩ | ⟨hy, rfl⟩⟩
    · exact hread
    · exact hread
    · rw [← hread]
      refine Run.verify_all_correct fun k r hk => ?_
      have hbrought := hserves.compacted hy hk
      have hslot := landed_of (answer (s.served x).1 s.buffers y (Run.compacted s.filled.1))
        (d.verified s.filled.1).slots hk
      have hdframe : Run.Frame run (d.verified s.filled.1).run := by
        rw [hd]
        exact hcframe.trans (Run.verify_reads_frame _ _ _ _)
      simp only [Batches.execute, Nat.zero_add]
      rw [hslot, hdframe.work, hdframe.seed, hdframe.template]
      exact hbrought.check hp (Batches.compacted_reads (List.mem_of_getElem? hk))

/-- The scan at the end counts nothing as incorrect if the disk holds what is pending. -/
theorem verify_pending_correct (hp : run.Prepared) {disk : Memory} {slots : Slots}
    {respond : Nat → ∀ n, Serving n} {b c : Batches} {round cursor : Nat}
    (hframe : Run.Frame run b.run) (hcount : b.run.generated.Counted)
    (hclean : b.run.generated.Clean cursor)
    (hheld : ∀ r ∈ b.run.generated.pending cursor, Held run disk r)
    (h : Batches.verify_pending (fun round requests => answer disk slots (respond round) requests)
      b round cursor = some c) : c.run.stats.incorrect = b.run.stats.incorrect := by
  generalize hrespond : (fun round requests => answer disk slots (respond round) requests) = answers
    at h
  fun_induction Batches.verify_pending answers b round cursor with
  | case1 b round cursor requests after hnil =>
    rw [← Option.some.inj h]
    rfl
  | case2 b round cursor requests after hne hl hf =>
    rw [← Option.some.inj h]
    rfl
  | case3 b round cursor requests after hne hl hf ih =>
    obtain ⟨h1, h2, h3, h4, _⟩ := Positions.take_pending.spec hcount hclean b.run.work.depth
    have hreads : ∀ r ∈ requests, r.write = false := fun r hr =>
      ((is_read_back_iff r).mp (Positions.take_pending_reads _ _ _ r hr)).2
    have hafter : Run.Frame run after.run := hframe.trans (Run.Frame.of_table h1.toFrame)
    have hnext : ((after.execute requests (answers round requests)).rechecked
        requests).run.generated = after.run.generated := Run.verify_all_generated _ _ _ _
    have hrest := ih (hafter.trans (Run.verify_all_frame _ _ _ _)) (by rw [hnext]; exact h2)
      (by rw [hnext]; exact h3) (by
        rw [hnext]
        intro r hr
        apply hheld
        rw [h4]
        exact List.mem_append_right _ hr) h
    rw [hrest]
    refine Run.verify_all_correct fun k r hk => ?_
    have hload : Loaded run requests slots := by
      intro j w hj hw
      rw [hreads w (List.mem_of_getElem? hj)] at hw
      cases hw
    have hmem := List.mem_of_getElem? hk
    obtain ⟨hlt, _⟩ := List.getElem?_eq_some_iff.mp hk
    have hserved : (answers round requests).failed = false := by simpa using hf
    have hfailed : (respond round requests.length).failed = false := by
      rw [← hrespond] at hserved
      exact hserved
    have hbrought : Brought run ((answers round requests).answers k) r := by
      rw [← hrespond]
      exact performs_read hload hk (hreads r hmem) (agree_of_reads hreads r)
        ((respond round requests.length).mem_order hfailed hlt)
        (respond round requests.length).once (hheld r (by
          rw [h4]
          exact List.mem_append_left _ hmem))
    simp only [Batches.execute, Nat.zero_add]
    rw [landed_of (answers round requests) after.slots hk, hafter.work, hafter.seed, hafter.template]
    exact hbrought.check hp (hreads r hmem)
  | case4 => cases h

variable {platform : Platform} {p : Plan}

theorem Sound.start (hp : p.Checked) (hrun : Run.prepare platform p = .ok run) (disk : Memory) :
    Sound run (start run disk) := by
  obtain ⟨hindex, hnone, _, hcount, _⟩ := Batches.prepare_start hrun
  have hzero : run.stats.incorrect = 0 := by
    unfold Run.prepare at hrun
    split at hrun
    · cases hrun
    · cases hrun
      rfl
  refine ⟨Batches.Accounted.start hrun, hcount, ?_, hzero, ?_, ?_, fun hr =>
    (writes_of_reusable hrun hr).1⟩
  · exact ⟨Run.Frame.refl run, ⟨⟨Run.supplies_whole hp hrun, by simp [Stored.start, Batches.start, hnone]⟩,
      by simp [Stored.start, Batches.start]⟩, fun i hi => run.slots_intact hi,
      by simp [Stored.start, Batches.start]⟩
  · intro _ _ i hi
    have hbefore := hi.before
    rw [show (Stored.start run disk).batches.run.index = 0 from hindex] at hbefore
    exact absurd hbefore (Nat.not_lt_zero _)
  · intro _ r hr
    rw [show (Stored.start run disk).batches.run.wv_pending = none from hnone] at hr
    cases hr

/-- The next batch of a sound run is served well unless its call fails. -/
theorem Sound.serves (hp : p.Checked) (hrun : Run.prepare platform p = .ok run) (h : Sound run s)
    (hlimit : s.batches.run.work.write_verify = true →
      s.batches.run.batch_limit ≤ if s.batches.run.wv_pending.isSome then 2 else 1)
    (hx : (x s.filled.1.length).failed = false) : Serves run s x ∧
      (run.work.verify = true → run.work.write_verify = false →
        ∀ g, Positions.Remarked s.filled.2.generated g →
        ∀ i, g.Due (s.batches.run.index + s.filled.1.length) i →
          (g.entries.getD (g.mapped i).1 Request.default).write = true →
          Held run (s.served x).1 (g.recheck (g.mapped i).1)) ∧
      (run.work.write_verify = true → ∀ r, s.filled.2.wv_pending = some r →
        Held run (s.served x).1 r ∧ r.seed = 0) := by
  obtain ⟨hww, htable⟩ := Run.prepare_work hrun
  have hwork : run.work = run.generated.work := by rw [hww, htable]
  have hdepth : 0 < run.work.depth := by
    rw [hww]
    exact hp.work.depth_pos
  obtain ⟨hload, _⟩ := h.seeded.loaded (Run.prepare_prepared hrun) hdepth
    (show s.batches.run.fill_batch s.batches.run.batch_limit = (s.filled.1, s.filled.2) from rfl)
  rw [h.accounted.frame.work] at hlimit
  by_cases hw : run.work.write_verify = true
  · obtain ⟨h1, h2⟩ := h.pair_serves hw (hlimit hw) hload hx
    exact ⟨h1, fun _ hc => absurd hc (by simp [hw]), fun _ => h2⟩
  · by_cases hv : run.work.verify = true
    · obtain ⟨h1, h2⟩ := h.plan_serves hp.work hww hwork hv (by simpa using hw) hload hx
      exact ⟨h1, fun _ _ => h2, fun hc => absurd hc hw⟩
    · refine ⟨h.plain_serves hp.work hww hwork (by simpa using hv)
        (fun hr => (writes_of_reusable hrun hr).2) hload hx, fun hc => absurd hc hv,
        fun hc => absurd hc hw⟩

/-- A batch that ends without an error leaves the run sound. -/
theorem Sound.batch (hp : p.Checked) (hrun : Run.prepare platform p = .ok run) (h : Sound run s)
    {y : ∀ n, Serving n} {flushed : Bool} {c : Batches}
    (hlimit : s.batches.run.work.write_verify = true →
      s.batches.run.batch_limit ≤ if s.batches.run.wv_pending.isSome then 2 else 1)
    (hb : s.batches.batch (s.execution x) flushed
      (answer (s.served x).1 s.buffers y (Run.compacted s.filled.1)) = some c) :
    c.run.stats.incorrect = 0 ∧
      (c.error = false → Sound run { batches := c, disk := (s.served x).1 }) := by
  obtain ⟨hww, htable⟩ := Run.prepare_work hrun
  have hprep := Run.prepare_prepared hrun
  have hdepth : 0 < run.work.depth := by
    rw [hww]
    exact hp.work.depth_pos
  have hcorrect : c.run.stats.incorrect = 0 := by
    rw [Serves.correct hprep h.accounted.frame (fun hx => (h.serves hp hrun hlimit hx).1) hb]
    exact h.correct
  refine ⟨hcorrect, fun herr => ?_⟩
  obtain ⟨requests, a, hfill, _, hx, hc⟩ := Batches.batch_ok hb herr
  obtain rfl : requests = s.filled.1 := (congrArg Prod.fst hfill).symm
  obtain rfl : a = s.filled.2 := (congrArg Prod.snd hfill).symm
  obtain ⟨hserves, hdue, hpending⟩ := h.serves hp hrun hlimit hx
  obtain ⟨hc1, hc2, hc3⟩ := Batches.compact_kept hc herr
  obtain ⟨hkept, hnext⟩ := s.batches.read_kept s.filled.1 s.filled.2 (s.execution x)
  obtain ⟨_, hindex⟩ := Run.fill_batch_kept h.accounted.pending s.batches.run.batch_limit
  obtain ⟨_, hwhole⟩ := h.seeded.loaded hprep hdepth hfill
  have hframe : Run.Frame run s.filled.2 :=
    h.accounted.frame.trans (s.batches.run.fill_batch_frame s.batches.run.batch_limit)
  have hindex' : s.filled.2.index = s.batches.run.index := hindex
  have hbrings : s.batches.Brings run (.batch Env.calm (s.execution x) flushed
      (answer (s.served x).1 s.buffers y (Run.compacted s.filled.1))) := by
    refine ⟨fun i r hi hr => ?_, fun hv hwv i r hi => ?_⟩
    · intro hreuse
      exact (hserves.brings hreuse i r hi hr).intact hprep (hwhole r (List.mem_of_getElem? hi)) hreuse
    · have hread := h.accounted.frame.trans (Batches.read_frame hfill (s.execution x))
      have hmem : r ∈ Run.compacted s.filled.1 := List.mem_of_getElem? hi
      rcases Batches.compact_ok hc herr with ⟨_, hnone⟩ | ⟨_, hy, _⟩
      · rw [hread.verify, hread.work, hv, hwv] at hnone
        rw [show Run.compacted s.filled.1 = [] by simpa using hnone] at hmem
        cases hmem
      · exact (hserves.compacted hy hi).intact hprep (Batches.compacted_extent hwhole r hmem)
  refine ⟨h.accounted.batch hp.work hrun hb herr, Batches.batch_counted h.counted hb,
    h.seeded.batch hprep hdepth hbrings hb, hcorrect, fun hv hw => ?_, fun hw r hr => ?_, fun hr => ?_⟩
  · have hre : Positions.Remarked s.filled.2.generated
        (s.batches.read s.filled.1 s.filled.2 (s.execution x)).run.generated :=
      (Run.batch_marks (by rw [hframe.work]; exact hv) (by rw [hframe.work]; exact hw) rfl).1
    rw [show ({ batches := c, disk := (s.served x).1 } : Stored).batches.run.generated =
      (s.batches.read s.filled.1 s.filled.2 (s.execution x)).run.generated from hc1,
      show ({ batches := c, disk := (s.served x).1 } : Stored).batches.run.index =
        s.batches.run.index + s.filled.1.length by rw [hc3, hnext, hindex']]
    exact hdue hv hw _ hre
  · exact hpending hw r ((hkept.symm.trans hc2.symm).trans hr)
  · show c.run.generated.Writes
    rw [hc1]
    refine Run.verify_reads_writes _ _ _ (Run.completes_writes _ _ ?_)
    have hwrites := Run.fill_batch_writes (h.writes hr) s.batches.run.batch_limit
    exact hwrites

end Stored

/-- No read that a batched run checks is counted as incorrect: with `-v`, `m`,
`U` and `v`, over every table, on a device that performs the requests of each
call in any order, as long as no `v` batch holds a write and its own read-back. -/
theorem Stored.no_check_is_counted_incorrect {platform : Platform} {p : Plan} (hp : p.Checked)
    (hrun : Run.prepare platform p = .ok run) (disk : Memory) {es : List Event} {s : Stored}
    (hs : machine.run step (start run disk) es = some s)
    (hapart : machine.Along step Apart (start run disk) es) :
    s.batches.run.stats.incorrect = 0 := by
  have hprep := Run.prepare_prepared hrun
  refine (machine.invariant_along (P := fun s : Stored => s.batches.run.stats.incorrect = 0 ∧
    (s.batches.error = false → s.batches.ended = false → Sound run s)) ?_ hs hapart
    ⟨(Sound.start hp hrun disk).correct, fun _ _ => Sound.start hp hrun disk⟩).1
  rintro s e t ⟨h1, h2⟩ hok hst
  cases e with
  | batch env x flushed y =>
    obtain ⟨c, hc, rfl⟩ := Option.map_eq_some_iff.mp hst
    obtain ⟨hended, ⟨_, _, _, _, he, herr, _, hb⟩ | ⟨_, _, he, _⟩⟩ := Batches.step_cases hc
    · cases he
      obtain ⟨h3, h4⟩ := (h2 herr hended).batch hp hrun hok hb
      exact ⟨h3, fun herr' _ => h4 herr'⟩
    · cases he
  | finish env respond =>
    obtain ⟨c, hc, rfl⟩ := Option.map_eq_some_iff.mp hst
    obtain ⟨hended, ⟨_, _, _, _, he, _⟩ | ⟨_, _, he, _, hf⟩⟩ := Batches.step_cases hc
    · cases he
    · cases he
      rcases Batches.finish_cases hf with ⟨hv, herr, hw, d, hd, rfl⟩ | ⟨_, rfl⟩
      · have hsound := h2 herr hended
        rw [hsound.accounted.frame.work] at hv hw
        refine ⟨?_, fun _ hc => by cases hc⟩
        show d.run.stats.incorrect = 0
        rw [Stored.verify_pending_correct hprep hsound.accounted.frame hsound.counted
          (Batches.clean_zero _) ?_ hd]
        · exact h1
        · intro r hr
          obtain ⟨pos, hpos, rfl⟩ := List.mem_map.mp hr
          obtain ⟨i, hdue, hmapped, hrow⟩ :=
            (hsound.accounted.phased hv hw).due pos (List.mem_filter.mp hpos).2
          rw [← hmapped] at hrow ⊢
          exact hsound.due hv hw i hdue hrow
      · exact ⟨h1, fun _ hc => by cases hc⟩

open Batches (flushedPlan)

/-- One batch, served from the last request to the first, and an interrupt. -/
def Stored.one_reversed_batch : List Stored.Event :=
  [.batch .calm Serving.reversed true Serving.reversed,
    .finish { interrupted := true, elapsed := 0 } fun _ => Serving.reversed]

/-- With `-v`, two writes that are performed in the other order are read back right. -/
theorem Stored.two_reversed_writes_are_correct : ∃ run s,
    Run.prepare .Linux (flushedPlan { read_probability := 0, depth := 2 } true) = .ok run ∧
    machine.run Stored.step (Stored.start run Memory.zero) Stored.one_reversed_batch = some s ∧
    s.batches.ended = true ∧ s.batches.checked.length = 2 ∧ s.batches.run.stats.incorrect = 0 := by
  obtain ⟨run, s, hrun, hs, hended, hlen, hw⟩ : ∃ run s,
      Run.prepare .Linux (flushedPlan { read_probability := 0, depth := 2 } true) = .ok run ∧
      machine.run Stored.step (Stored.start run Memory.zero) Stored.one_reversed_batch = some s ∧
      s.batches.ended = true ∧ s.batches.checked.length = 2 ∧ run.work.write_verify = false :=
    ⟨_, _, rfl, rfl, rfl, rfl, rfl⟩
  refine ⟨run, s, hrun, hs, hended, hlen, ?_⟩
  have hchecked : (flushedPlan { read_probability := 0, depth := 2 } true).Checked :=
    ⟨Batches.flushed_writes_parsed, fun hc => by cases hc⟩
  refine Stored.no_check_is_counted_incorrect hchecked hrun Memory.zero hs ⟨fun hc => ?_, fun t _ =>
    ⟨trivial, fun _ _ => trivial⟩⟩
  rw [show (Stored.start run Memory.zero).batches.run = run from rfl, hw] at hc
  cases hc

/-- A batch of a verifying run that is served and flushed. -/
theorem Batches.batch_of_served {b : Batches} {requests : List Request} {a : Run}
    (hfill : b.run.fill_batch b.run.batch_limit = (requests, a)) (hv : b.run.work.verify = true)
    {x : Execution} (hlegal : x.Legal requests.length) (hx : x.failed = false) (y : Execution) :
    b.batch x true y = some ((b.read requests a x).advanced requests.length) := by
  have hwork : (b.read requests a x).run.work.verify = true := by
    rw [(read_frame hfill x).work]
    exact hv
  unfold batch
  simp only [hfill, if_pos hlegal, hx, Bool.false_eq_true, if_false, Bool.not_true, Bool.and_false]
  rw [show (((b.filled requests a).execute requests x).completed requests x).verified requests =
    b.read requests a x from rfl, compact]
  simp only [hwork, Bool.or_true, Bool.true_or, if_true]

/-- A read-back of bytes that are not the pattern is counted. -/
theorem Run.verify_reads_pair {run : Run} (hw : run.work.write_verify = true) (slots : Slots)
    {w r : Request} (hwrite : w.write = true) (hr : is_read_back r = true)
    (hcheck : check_pattern ((slots 1).read 0 r.len) r run.work run.seed run.template = false) :
    (run.verify_reads slots [w, r] 0).stats.incorrect = run.stats.incorrect + 1 := by
  obtain ⟨h1, h2⟩ := (is_read_back_iff r).mp hr
  simp [verify_reads, hwrite, h1, h2, check, hcheck, hw, count_incorrect]

theorem Stored.zeros_are_not_the_pattern {run : Run} (hp : run.Prepared) (hu : run.work.unique = false)
    (hs : run.seed = 0) {m : Memory} (hm : m 8 = 0) :
    check_pattern (m.read 0 4096) (read_back_of (pairWrite 0)) run.work run.seed run.template =
      false := by
  rw [Bool.eq_false_iff]
  intro hc
  rw [check_pattern, if_neg (by simp [hu]), hp.template, pattern.matches_cached.spec] at hc
  have hbyte := congrArg (fun l : List UInt8 => l[8]?) hc
  simp only [Memory.read_length] at hbyte
  rw [Memory.read_getElem? _ _ _ _ (by decide), hm] at hbyte
  simp only [bytes_of, List.getElem?_map, hs] at hbyte
  rw [List.getElem?_range (by decide)] at hbyte
  revert hbyte
  decide
/-- A `v` batch of two over a blank disk: the read overtakes its write and is
counted as incorrect. -/
theorem Stored.a_read_that_overtakes_its_write_is_counted : ∃ run s,
    (flushedPlan (.pairs 4096 2 none) false).Checked ∧
    Run.prepare .Linux (flushedPlan (.pairs 4096 2 none) false) = .ok run ∧ run.streamed = false ∧
    machine.run Stored.step (Stored.start run Memory.zero)
      [.batch .calm Serving.reversed true Serving.reversed] = some s ∧
    s.batches.error = false ∧ s.batches.run.stats.incorrect = 1 := by
  obtain ⟨run, a, hrun, hstream, hlimit, hfill, hwork, hseed, hstats, hwv, hu⟩ : ∃ run a,
      Run.prepare .Linux (flushedPlan (.pairs 4096 2 none) false) = .ok run ∧
      run.streamed = false ∧ run.out_of_work .calm = false ∧
      run.fill_batch run.batch_limit = ([pairWrite 0, read_back_of (pairWrite 0)], a) ∧
      run.work.verify = true ∧ run.seed = 0 ∧ a.stats.incorrect = 0 ∧
      run.work.write_verify = true ∧ run.work.unique = false :=
    ⟨_, _, rfl, rfl, rfl, rfl, rfl, rfl, rfl, rfl, rfl⟩
  have hprep := Run.prepare_prepared hrun
  generalize hs : Stored.start run Memory.zero = s
  have hrun' : s.batches.run = run := by rw [← hs]; rfl
  have hfilled : s.filled = ([pairWrite 0, read_back_of (pairWrite 0)], a) := by
    rw [Stored.filled, hrun', hfill]
  have hlegal : (s.execution Serving.reversed).Legal 2 := by
    have hlen : s.filled.1.length = 2 := by rw [hfilled]; rfl
    rw [← hlen]
    exact Serving.execution_legal _ _ _ _
  have hbatch : s.batches.batch (s.execution Serving.reversed) true
      (Stored.answer (s.served Serving.reversed).1 s.buffers Serving.reversed
        (Run.compacted s.filled.1)) = some ((s.batches.read [pairWrite 0, read_back_of (pairWrite 0)]
          a (s.execution Serving.reversed)).advanced 2) :=
    Batches.batch_of_served (by rw [hrun', hfill]) (by rw [hrun']; exact hwork) hlegal rfl _
  have hstep : s.step (.batch .calm Serving.reversed true Serving.reversed) =
      some { batches := (s.batches.read [pairWrite 0, read_back_of (pairWrite 0)] a
               (s.execution Serving.reversed)).advanced 2
             disk := (s.served Serving.reversed).1 } := by
    have hopen : s.batches.ended = false ∧ s.batches.error = false := by rw [← hs]; exact ⟨rfl, rfl⟩
    simp only [Stored.step, Batches.step, hopen, hrun', hlimit, Bool.or_self, Bool.false_eq_true,
      if_false]
    rw [hbatch]
    rfl
  -- the read is performed first, and the write keeps its answer
  have hanswer : (s.execution Serving.reversed).answers 1 8 = 0 := by
    have hdisk : s.disk = Memory.zero := by rw [← hs]; rfl
    have horder : (Serving.reversed s.filled.1.length).order = [1, 0] := by rw [hfilled]; rfl
    simp only [Stored.execution, Serving.execution, Serving.outcome, horder, hfilled, hdisk]
    rfl
  have hslot : (s.execution Serving.reversed).reads [pairWrite 0, read_back_of (pairWrite 0)]
      (a.payloads [pairWrite 0, read_back_of (pairWrite 0)] s.batches.slots) 1 8 = 0 := by
    rw [Stored.landed_of _ _ (r := read_back_of (pairWrite 0)) rfl, Request.landed, if_neg (by decide),
      Memory.write_zero_apply (by simp [read_back_of, pairWrite])]
    simpa [Memory.read] using hanswer
  have hframe : Run.Frame run ((s.execution Serving.reversed).reports.foldl
      (Run.complete [pairWrite 0, read_back_of (pairWrite 0)]) a) := by
    have hfilled := run.fill_batch_frame run.batch_limit
    rw [hfill] at hfilled
    exact hfilled.trans (Run.completes_frame _ _ _)
  refine ⟨run, { batches := (s.batches.read [pairWrite 0, read_back_of (pairWrite 0)] a
      (s.execution Serving.reversed)).advanced 2, disk := (s.served Serving.reversed).1 },
    ⟨Batches.flushed_pairs_parsed, fun hc => by cases hc⟩, hrun, hstream, ?_, rfl, ?_⟩
  · rw [hs, machine.run_cons, hstep]
    rfl
  · have hcount := Run.verify_reads_pair (by rw [hframe.work]; exact hwv)
      ((s.execution Serving.reversed).reads [pairWrite 0, read_back_of (pairWrite 0)]
        (a.payloads [pairWrite 0, read_back_of (pairWrite 0)] s.batches.slots))
      (w := pairWrite 0) (r := read_back_of (pairWrite 0)) rfl rfl (by
        rw [hframe.work, hframe.seed, hframe.template]
        exact Stored.zeros_are_not_the_pattern hprep hu hseed hslot)
    rw [Run.completes_correct, hstats] at hcount
    exact hcount

end stutools
