-- From a configuration to the plans of its workers: each worker's part of the
-- range, the checks made before any target is written, and the plan itself.
import Stutools.Run

namespace stutools

/-- The 64-bit words of the range arithmetic, which wraps in a release build. -/
def U64 : Nat := 2 ^ 64

def wrapping_sub (a b : Nat) : Nat := (a + U64 - b) % U64

/-- `u64::checked_mul`. -/
def checked_mul (a b : Nat) : Option Nat := if a * b < U64 then some (a * b) else none

/-- `(n + 4095) & !4095`: whole pages. -/
def page_up (n : Nat) : Nat := (n + 4095) / 4096 * 4096

/-- `size_of::<Request>()`. -/
def REQUEST_SIZE : Nat := 24

/-- The parts of `cli::Config` that plans and their checks read. -/
structure Config where
  jobs : List Workload
  range : Option (Nat × Nat) := none
  recreate : Bool := false
  precondition : Option Workload := none
  memory : Nat
  record_latency : Bool := false
  seed : UInt64 := 0
  backend : Backend := .Uring
  duration : Option ℚ := none
  verify : Bool := false

/-- `target_specs`: every job of a target, each workload once for each of its workers. -/
def target_jobs (c : Config) : List (Workload × Nat) :=
  c.jobs.flatMap fun w => (List.range w.workers).map fun index => (w, index)

/-- What the system says of a target: none of it for a file that is not there. -/
structure Inspected where
  existing : Bool
  actual : Option Nat
  regular : Bool
  sector : Option Nat

/-- The range of one worker: all of it for shared or loaded positions, else its
share of the whole blocks. -/
def worker_range (w : Workload) (index target_lo target_hi : Nat) (imported : Bool) :
    Except String (Nat × Nat) :=
  let (lo, hi) := w.range.getD (target_lo, target_hi)
  if lo < target_lo ∨ target_hi < hi ∨ hi ≤ lo then .error "workload range outside target range"
  else if imported || (w.shared_range && !w.split_range) then .ok (lo, hi)
  else
    let blocks := (hi - lo) / w.block
    let first := blocks * index % U64 / w.workers
    let last := blocks * (index + 1) % U64 / w.workers
    .ok ((lo + first * w.block) % U64, (lo + last * w.block) % U64)

/-- The loaded positions against the worker's range, one after the other. -/
def check_records (start stop : Nat) (backend : Backend) : List Request → Except String Unit
  | [] => .ok ()
  | r :: records =>
    if r.offset < start ∨ U64 ≤ r.offset + r.len ∨ stop < r.offset + r.len then
      .error "loaded position outside range"
    else if backend ≠ .Pagecache ∧ (r.offset % 512 ≠ 0 ∨ r.len % 512 ≠ 0) then
      .error "unaligned loaded position"
    else check_records start stop backend records

/-- Whether a raw Windows device refuses the worker's offsets or lengths. -/
def off_sector (sector : Nat) (w : Workload) (start : Nat) (records : List Request) : Bool :=
  start % sector != 0 || w.block % sector != 0 || w.max_block % sector != 0 ||
    records.any fun r => r.offset % sector != 0 || r.len % sector != 0

/-- Checks one worker's range, alignment and operation limits against its target. -/
def check_job (path : String) (sector : Option Nat) (w : Workload) (index lo hi : Nat)
    (records : List Request) (backend : Backend) : Except String Unit :=
  match worker_range w index lo hi (!records.isEmpty) with
  | .error e => .error e
  | .ok (start, stop) =>
    if sector.any fun n => off_sector n w start records then
      .error s!"{path}: raw Windows I/O requires offsets and lengths in multiples of {sector.getD 0} bytes; worker start={start}, block={w.block}, maximum block={w.max_block}; adjust -G, k/M or -S positions"
    else
      let count :=
        if records.isEmpty then w.positions.getD (wrapping_sub stop start / w.block)
        else records.length
      match checked_mul count (if w.verify then 2 else 1) with
      | none => .error "operation limit overflow"
      | some count =>
        if (w.passes.any fun n => (checked_mul n count).isNone) ∨
            (w.range_passes.any fun n => (checked_mul n (wrapping_sub stop start)).isNone) then
          .error "operation limit overflow"
        else if records.isEmpty ∧ wrapping_sub stop start < w.max_block then
          .error "block is larger than worker range"
        else if backend ≠ .Pagecache ∧
            (start % 512 ≠ 0 ∨ w.block % 512 ≠ 0 ∨ w.max_block % 512 ≠ 0) then
          .error "direct I/O requires sector-aligned offsets and lengths"
        else check_records start stop backend records

/-- Checks the preconditioning workload against the range of its target. -/
def check_precondition (pre : Workload) (lo hi memory : Nat) (backend : Backend) :
    Except String Unit :=
  match worker_range pre 0 lo hi false with
  | .error e => .error e
  | .ok (start, stop) =>
    if pre.workers ≠ 1 ∨ wrapping_sub stop start < pre.max_block ∨
        (backend ≠ .Pagecache ∧
          (start % 512 ≠ 0 ∨ pre.block % 512 ≠ 0 ∨ pre.max_block % 512 ≠ 0)) then
      .error "invalid preconditioning block/range"
    else
      match checked_mul (page_up pre.max_block + 128) pre.depth with
      | none => .error "preconditioning memory overflow"
      | some required =>
        if memory < required + REQUEST_SIZE then .error "preconditioning exceeds memory budget"
        else .ok ()

/-- The checks of all jobs of a target, up to the first that fails. -/
def check_jobs (path : String) (sector : Option Nat) (lo hi : Nat) (records : List Request)
    (backend : Backend) : List (Workload × Nat) → Except String Unit
  | [] => .ok ()
  | (w, index) :: jobs =>
    match check_job path sector w index lo hi records backend with
    | .error e => .error e
    | .ok () => check_jobs path sector lo hi records backend jobs

/-- Whether a run may write to its target. -/
def target_write (c : Config) (jobs : List (Workload × Nat)) (records : List Request) : Bool :=
  (if records.isEmpty then
    jobs.any fun (w, _) => decide (w.read_probability < 1) || w.alternate
  else records.any (·.write)) || c.precondition.isSome

/-- `check_target` once the target is inspected: the range that the run may use. -/
def check_target (c : Config) (path : String) (info : Inspected) (jobs : List (Workload × Nat))
    (records : List Request) : Except String (Nat × Nat) :=
  let write := target_write c jobs records
  if !info.existing && !write then
    .error s!"read target does not exist: {path}; -F is a file prefix and reads require initialized PREFIX.0001, PREFIX.0002, ... files. Create disposable test files first with the same -F PREFIX, -G SIZE and j worker count using -c ws1x1, then read with -c rs0. Writes overwrite data; choose a new test prefix"
  else
    match c.range.or (info.actual.map fun n => (0, n)) with
    | none => .error "new/unsized targets need -G"
    | some (lo, hi) =>
      if hi ≤ lo then .error "empty range"
      else if (info.actual.any fun n => decide (n < hi)) &&
          !(info.regular && write && c.recreate) then
        .error "refusing I/O: range exceeds target size; writable regular files require --recreate to enlarge"
      else
        match c.precondition.map fun pre => check_precondition pre lo hi c.memory c.backend with
        | some (.error e) => .error e
        | _ =>
          match check_jobs path info.sector lo hi records c.backend jobs with
          | .error e => .error e
          | .ok () => .ok (lo, hi)

/-- `check_paths` once the paths are probed: the checks of a target of iSCSI or NVMe paths. -/
def check_paths (c : Config) (path : String) (capacity block_len : Nat)
    (jobs : List (Workload × Nat)) (records : List Request) : Except String (Nat × Nat) :=
  if c.precondition.isSome then
    .error "preconditioning is not supported over iSCSI or NVMe-oF yet"
  else
    let (lo, hi) := c.range.getD (0, capacity)
    if hi ≤ lo then .error "empty range"
    else if capacity < hi then .error s!"range exceeds the LUN size of {capacity} bytes"
    else
      match check_jobs path (some block_len) lo hi records c.backend jobs with
      | .error e => .error e
      | .ok () => .ok (lo, hi)

/-- The longest loaded record. -/
def max_loaded (records : List Request) : Nat := (records.map Request.len).foldr max 0

/-- `build_plans`: the plan of one worker. -/
def job_plan (c : Config) (w : Workload) (start stop : Nat) (records : List Request)
    (table_capacity : Nat) : Plan :=
  { record_latency := c.record_latency
    work := w
    lo := start
    hi := stop
    loaded := records
    seed := w.seed.getD c.seed
    backend := c.backend
    duration := c.duration
    verify := c.verify || w.verify
    max_len := max w.max_block (max_loaded records)
    position_capacity :=
      if records.isEmpty then
        min (w.positions.getD (wrapping_sub stop start / w.block)) table_capacity
      else records.length }

/-- `run_precondition`: the plan of the preconditioning worker. -/
def precondition_plan (c : Config) (pre : Workload) (start stop : Nat) : Plan :=
  { record_latency := c.record_latency
    work := pre
    lo := start
    hi := stop
    loaded := []
    seed := pre.seed.getD c.seed
    backend := c.backend
    duration := none
    verify := c.verify
    max_len := pre.max_block
    position_capacity := min ((c.memory - (page_up pre.max_block + 128) * pre.depth) / REQUEST_SIZE)
      (wrapping_sub stop start / pre.block) }

/-- `Queue::new`: the bytes of one slot's buffer. -/
def Plan.stride (p : Plan) : Nat := page_up p.max_len

/-! ## What the checks promise -/

theorem check_records.spec {start stop : Nat} {backend : Backend} {records : List Request}
    (h : check_records start stop backend records = .ok ()) :
    ∀ r ∈ records, start ≤ r.offset ∧ r.offset + r.len ≤ stop := by
  induction records with
  | nil => simp
  | cons r records ih =>
    unfold check_records at h
    split_ifs at h with h1 h2
    simp only [not_or, Nat.not_lt] at h1
    intro q hq
    rcases List.mem_cons.mp hq with rfl | hq
    · exact ⟨h1.1, h1.2.2⟩
    · exact ih h q hq

/-- A job that passes: generated positions fit its range, and loaded ones lie in it. -/
theorem check_job.spec {path : String} {sector : Option Nat} {w : Workload} {index lo hi : Nat}
    {records : List Request} {backend : Backend}
    (h : check_job path sector w index lo hi records backend = .ok ()) :
    ∃ start stop, worker_range w index lo hi (!records.isEmpty) = .ok (start, stop) ∧
      (records = [] → w.max_block ≤ wrapping_sub stop start) ∧
      ∀ r ∈ records, start ≤ r.offset ∧ r.offset + r.len ≤ stop := by
  unfold check_job at h
  split at h
  · cases h
  · rename_i start stop hrange
    refine ⟨start, stop, hrange, ?_⟩
    by_cases h1 : sector.any fun n => off_sector n w start records
    · rw [if_pos h1] at h
      cases h
    rw [if_neg h1] at h
    dsimp only at h
    generalize checked_mul _ (if w.verify = true then 2 else 1) = counted at h
    cases counted with
    | none => cases h
    | some count =>
      dsimp only at h
      split_ifs at h with h2 h3 h4
      refine ⟨fun hempty => ?_, check_records.spec h⟩
      rw [not_and, Nat.not_lt] at h3
      exact h3 (by simp [hempty])

theorem check_precondition.spec {pre : Workload} {lo hi memory : Nat} {backend : Backend}
    (h : check_precondition pre lo hi memory backend = .ok ()) :
    ∃ start stop, worker_range pre 0 lo hi false = .ok (start, stop) ∧ pre.workers = 1 ∧
      pre.max_block ≤ wrapping_sub stop start := by
  unfold check_precondition at h
  split at h
  · cases h
  · rename_i start stop hrange
    split_ifs at h with h1
    simp only [not_or, not_not, Nat.not_lt] at h1
    exact ⟨start, stop, hrange, h1.1, h1.2.1⟩

theorem check_jobs.spec {path : String} {sector : Option Nat} {lo hi : Nat}
    {records : List Request} {backend : Backend} {jobs : List (Workload × Nat)}
    (h : check_jobs path sector lo hi records backend jobs = .ok ()) :
    ∀ job ∈ jobs, check_job path sector job.1 job.2 lo hi records backend = .ok () := by
  induction jobs with
  | nil => simp
  | cons job jobs ih =>
    unfold check_jobs at h
    split at h
    · cases h
    · rename_i hjob
      intro q hq
      rcases List.mem_cons.mp hq with rfl | hq
      · exact hjob
      · exact ih h q hq

/-- A target that passes: its range is not empty, and every job and the
preconditioning pass over it. -/
theorem check_target.spec {c : Config} {path : String} {info : Inspected}
    {jobs : List (Workload × Nat)} {records : List Request} {lo hi : Nat}
    (h : check_target c path info jobs records = .ok (lo, hi)) :
    lo < hi ∧ (∀ job ∈ jobs, check_job path info.sector job.1 job.2 lo hi records c.backend = .ok ()) ∧
      ∀ pre, c.precondition = some pre → check_precondition pre lo hi c.memory c.backend = .ok () := by
  unfold check_target at h
  dsimp only at h
  split_ifs at h with h1
  split at h
  · cases h
  · split_ifs at h with h2 h3
    split at h
    · cases h
    · rename_i hpre
      split at h
      · cases h
      · rename_i hjobs
        cases h
        refine ⟨by omega, check_jobs.spec hjobs, fun pre hp => ?_⟩
        cases hc : check_precondition pre lo hi c.memory c.backend with
        | error e => exact absurd (by simp [hp, hc]) (hpre e)
        | ok u => rfl

theorem check_paths.spec {c : Config} {path : String} {capacity block_len : Nat}
    {jobs : List (Workload × Nat)} {records : List Request} {lo hi : Nat}
    (h : check_paths c path capacity block_len jobs records = .ok (lo, hi)) :
    c.precondition = none ∧ lo < hi ∧
      ∀ job ∈ jobs, check_job path (some block_len) job.1 job.2 lo hi records c.backend = .ok () := by
  unfold check_paths at h
  rcases c.range.getD (0, capacity) with ⟨a, b⟩
  dsimp only at h
  split_ifs at h with h1 h2 h3
  split at h
  · cases h
  · rename_i hjobs
    cases h
    exact ⟨by simpa using h1, by omega, check_jobs.spec hjobs⟩

end stutools
