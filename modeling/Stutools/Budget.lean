-- The memory of a run: what its pools need, what is left for the position tables, and
-- the plans that share it. Each function is written over the arithmetic of its words, so
-- that one text says what a release build computes and what a debug build refuses.
import Stutools.Uint
import Stutools.Ranges
import Stutools.Shares
import Mathlib.Algebra.Order.BigOperators.Group.List

namespace stutools

/-- How words are computed with. None is a panic. A division by zero always is one. -/
structure Arith where
  add : Nat → Nat → Option Nat
  sub : Nat → Nat → Option Nat
  mul : Nat → Nat → Option Nat

namespace Arith

/-- A release build wraps. -/
def release : Arith :=
  { add := fun a b => some ((a + b) % U64)
    sub := fun a b => some (wrapping_sub a b)
    mul := fun a b => some (a * b % U64) }

/-- A debug build panics at the first value that does not fit. -/
def debug : Arith := { add := uint.add 64, sub := uint.sub, mul := uint.mul 64 }

/-- What both do while everything fits. -/
structure Exact (A : Arith) : Prop where
  add : ∀ {a b : Nat}, a + b < U64 → A.add a b = some (a + b)
  sub : ∀ {a b : Nat}, b ≤ a → a < U64 → A.sub a b = some (a - b)
  mul : ∀ {a b : Nat}, a * b < U64 → A.mul a b = some (a * b)

theorem release_exact : Exact release := by
  refine ⟨fun h => ?_, fun h ha => ?_, fun h => ?_⟩
  · exact congrArg some (Nat.mod_eq_of_lt h)
  · exact congrArg some (wrapping_sub_of_le h ha)
  · exact congrArg some (Nat.mod_eq_of_lt h)

theorem debug_exact : Exact debug :=
  ⟨fun h => uint.add_eq h, fun h _ => uint.sub_eq h, fun h => uint.mul_eq h⟩

end Arith

/-! ## The targets -/

/-- `engine::Target`: a file, or the paths of one. -/
structure Target where
  path : String
  jobs : List (Workload × Nat)
  paths : Bool

/-- The number of a file made from a prefix: four digits at least. -/
def sequence_suffix (n : Nat) : String :=
  "." ++ "".pushn '0' (4 - (toString n).length) ++ toString n

/-- The targets of a run: its paths as one target, or each file with all jobs, and one
new file a job for each prefix. -/
def target_specs (c : Config) (files stems : List String) (paths : Bool) : List Target :=
  if paths then [{ path := "paths", jobs := target_jobs c, paths := true }]
  else
    (files.map fun path => { path := path, jobs := target_jobs c, paths := false }) ++
      (stems.flatMap fun stem => (target_jobs c).map fun job => (stem, job)).mapIdx fun i (stem, job) =>
        { path := stem ++ sequence_suffix (i + 1), jobs := [job], paths := false }

/-- What the system says of the targets: of a file by its name, and of the paths the
size of the unit and of its blocks. -/
structure System where
  inspect : String → Inspected
  capacity : Nat
  block_len : Nat

/-- `engine::Checked`: a target with the range its run may use. -/
structure Checked where
  target : Target
  lo : Nat
  hi : Nat

/-- `check_target` of one target, of either kind. -/
def check_spec (c : Config) (sys : System) (target : Target) (records : List Request) :
    Except String Checked :=
  let range :=
    if target.paths then check_paths c target.path sys.capacity sys.block_len target.jobs records
    else check_target c target.path (sys.inspect target.path) target.jobs records
  match range with
  | .error e => .error e
  | .ok (lo, hi) => .ok { target := target, lo := lo, hi := hi }

/-- Validates every target, up to the first that fails. -/
def check_targets (c : Config) (sys : System) (records : List Request) :
    List Target → Except String (List Checked)
  | [] => .ok []
  | target :: targets =>
    match check_spec c sys target records with
    | .error e => .error e
    | .ok checked =>
      match check_targets c sys records targets with
      | .error e => .error e
      | .ok rest => .ok (checked :: rest)

/-- The product of blocks and workers up to this one, if the range is shared out. -/
def SharesFit (w : Workload) (index lo hi : Nat) (imported : Bool) : Prop :=
  (imported || (w.shared_range && !w.split_range)) = false →
    ((w.range.getD (lo, hi)).2 - (w.range.getD (lo, hi)).1) / w.block * (index + 1) < U64

instance (w : Workload) (index lo hi : Nat) (imported : Bool) :
    Decidable (SharesFit w index lo hi imported) := inferInstanceAs (Decidable (_ → _))

/-! ## The pools -/

/-- Memory the fixed I/O pools need, before any position tables are sized. -/
structure Budget where
  pool_bytes : Nat
  worker_count : Nat
deriving DecidableEq

/-- `memory::error`. -/
def memory_error (required permitted : Nat) (reason : String) : String :=
  let (amount, unit) :=
    if 2 ^ 30 ≤ required then ((required + 2 ^ 30 - 1) / 2 ^ 30, "GiB")
    else (max ((required + 2 ^ 20 - 1) / 2 ^ 20) 1, "MiB")
  s!"{reason} need {required} bytes; --memory permits {permitted}. To keep these block/queue/worker settings, try --memory {amount}{unit} (or reduce q, j or block size)"

namespace Arith

variable (A : Arith)

/-- `(n + 4095) & !4095`. -/
def page (n : Nat) : Option Nat := (A.add n 4095).map fun n => n / 4096 * 4096

/-- The bytes of a slot: its buffer, and its descriptor, control block, pointer and event. -/
def slot_bytes (max_len : Nat) : Option Nat := (A.page max_len).bind fun stride => A.add stride 128

/-- The pools of all jobs. The inner none is a total past 64 bits. -/
def pool_total (max_loaded : Nat) : List (Workload × Nat) → Nat → Option (Option Nat)
  | [], total => some (some total)
  | (w, _) :: jobs, total =>
    (A.slot_bytes (max w.max_block max_loaded)).bind fun bytes =>
      match checked_mul bytes w.depth with
      | none => some none
      | some pool =>
        if total + pool < U64 then pool_total max_loaded jobs (total + pool) else some none

def memory_budget (c : Config) (targets : List Target) (records : List Request) :
    Option (Except String Budget) :=
  let jobs := targets.flatMap Target.jobs
  (A.pool_total (max_loaded records) jobs 0).bind fun total =>
    match total with
    | none => some (.error "memory budget overflow")
    | some total =>
      (A.mul records.length REQUEST_SIZE).bind fun loaded =>
        if U64 ≤ total + loaded then some (.error "memory budget overflow")
        else
          (A.mul jobs.length REQUEST_SIZE).bind fun tables =>
            -- `saturating_add`.
            let minimum := min (total + loaded + tables) (U64 - 1)
            if c.memory < minimum then
              some (.error (memory_error minimum c.memory "I/O pools and minimum position tables"))
            else some (.ok { pool_bytes := total + loaded, worker_count := jobs.length })

/-- Position tables get whatever memory the pools leave, split evenly between workers. -/
def table_capacity (c : Config) (budget : Budget) (record_count : Nat) :
    Option (Except String Nat) :=
  (A.sub c.memory budget.pool_bytes).bind fun left =>
    (uint.div left budget.worker_count).bind fun share =>
      let capacity := share / REQUEST_SIZE
      if capacity = 0 then some (.error "no memory left for fixed position tables")
      else if capacity < record_count ∨ c.jobs.any (fun w => w.positions.any (capacity < ·)) then
        some (.error "requested positions exceed fixed memory budget")
      else some (.ok capacity)

/-! ## The plans -/

def worker_range (w : Workload) (index target_lo target_hi : Nat) (imported : Bool) :
    Option (Except String (Nat × Nat)) :=
  let (lo, hi) := w.range.getD (target_lo, target_hi)
  if lo < target_lo ∨ target_hi < hi ∨ hi ≤ lo then
    some (.error "workload range outside target range")
  else if imported || (w.shared_range && !w.split_range) then some (.ok (lo, hi))
  else
    (A.sub hi lo).bind fun span =>
    (uint.div span w.block).bind fun blocks =>
    (A.mul blocks index).bind fun before =>
    (uint.div before w.workers).bind fun first =>
    (A.mul blocks (index + 1)).bind fun through =>
    (uint.div through w.workers).bind fun last =>
    (A.mul first w.block).bind fun skipped =>
    (A.add lo skipped).bind fun start =>
    (A.mul last w.block).bind fun reached =>
    (A.add lo reached).map fun stop => .ok (start, stop)

def check_precondition (pre : Workload) (lo hi memory : Nat) (backend : Backend) :
    Option (Except String Unit) :=
  (A.worker_range pre 0 lo hi false).bind fun range =>
    match range with
    | .error e => some (.error e)
    | .ok (start, stop) =>
      if pre.workers ≠ 1 then some (.error "invalid preconditioning block/range")
      else
        (A.sub stop start).bind fun span =>
          if span < pre.max_block ∨ (backend ≠ .Pagecache ∧
              (start % 512 ≠ 0 ∨ pre.block % 512 ≠ 0 ∨ pre.max_block % 512 ≠ 0)) then
            some (.error "invalid preconditioning block/range")
          else
            (A.slot_bytes pre.max_block).bind fun bytes =>
              match checked_mul bytes pre.depth with
              | none => some (.error "preconditioning memory overflow")
              | some required =>
                (A.add required REQUEST_SIZE).map fun required =>
                  if memory < required then .error "preconditioning exceeds memory budget"
                  else .ok ()

/-- The plan of the preconditioning worker, less the run of it. -/
def run_precondition (c : Config) (pre : Workload) (lo hi : Nat) : Option (Except String Plan) :=
  (A.worker_range pre 0 lo hi false).bind fun range =>
    match range with
    | .error e => some (.error e)
    | .ok (start, stop) =>
      (A.slot_bytes pre.max_block).bind fun bytes =>
      (A.mul bytes pre.depth).bind fun pool =>
      (A.sub c.memory pool).bind fun left =>
      (A.sub stop start).bind fun span =>
      (uint.div span pre.block).map fun blocks =>
        .ok { precondition_plan c pre start stop with
              position_capacity := min (left / REQUEST_SIZE) blocks }

/-- The plan of one worker. -/
def build_plan (c : Config) (records : List Request) (table_capacity lo hi : Nat)
    (job : Workload × Nat) : Option (Except String Plan) :=
  (A.worker_range job.1 job.2 lo hi (!records.isEmpty)).bind fun range =>
    match range with
    | .error e => some (.error e)
    | .ok (start, stop) =>
      if records.isEmpty then
        (A.sub stop start).bind fun span =>
        (uint.div span job.1.block).map fun blocks =>
          .ok { job_plan c job.1 start stop records table_capacity with
                position_capacity := min (job.1.positions.getD blocks) table_capacity }
      else
        some (.ok { job_plan c job.1 start stop records table_capacity with
                    position_capacity := records.length })

/-- One after the other, up to the first error. -/
def each {α β : Type} (f : α → Option (Except String β)) :
    List α → Option (Except String (List β))
  | [] => some (.ok [])
  | a :: as =>
    (f a).bind fun result =>
      match result with
      | .error e => some (.error e)
      | .ok b =>
        (each f as).map fun rest =>
          match rest with
          | .error e => .error e
          | .ok bs => .ok (b :: bs)

/-- The plans of one target's workers. A file is preconditioned first. -/
def build_target (c : Config) (records : List Request) (table_capacity : Nat) (t : Checked) :
    Option (Except String (List Plan)) :=
  (each (fun pre => A.run_precondition c pre t.lo t.hi)
      (if t.target.paths then [] else c.precondition.toList)).bind fun preconditioned =>
    match preconditioned with
    | .error e => some (.error e)
    | .ok _ => each (A.build_plan c records table_capacity t.lo t.hi) t.target.jobs

def build_plans (c : Config) (checked : List Checked) (records : List Request)
    (table_capacity : Nat) : Option (Except String (List Plan)) :=
  (each (A.build_target c records table_capacity) checked).map fun plans =>
    match plans with
    | .error e => .error e
    | .ok plans => .ok plans.flatten

variable {A}

theorem each_ok {α β : Type} {f : α → Option (Except String β)} {g : α → β} {l : List α}
    (h : ∀ a ∈ l, f a = some (.ok (g a))) : each f l = some (.ok (l.map g)) := by
  induction l with
  | nil => rfl
  | cons a l ih =>
    have hrest := ih fun b hb => h b (List.mem_cons_of_mem a hb)
    simp [each, h a List.mem_cons_self, hrest]

theorem each_mem {α β : Type} {f : α → Option (Except String β)} {l : List α} {bs : List β}
    (h : each f l = some (.ok bs)) : ∀ a ∈ l, ∃ b, f a = some (.ok b) := by
  induction l generalizing bs with
  | nil => simp
  | cons a l ih =>
    unfold each at h
    obtain ⟨result, hresult, h⟩ := Option.bind_eq_some_iff.mp h
    cases result with
    | error e => cases h
    | ok b =>
      obtain ⟨rest, hrest, h⟩ := Option.map_eq_some_iff.mp h
      cases rest with
      | error e => cases h
      | ok bs' =>
        intro x hx
        rcases List.mem_cons.mp hx with rfl | hx
        · exact ⟨b, hresult⟩
        · exact ih hrest x hx

/-! ## What fits is exact -/

/-- The share of a preconditioning worker always fits. -/
theorem shares_fit_first {w : Workload} {lo hi : Nat} (hhi : hi < U64) {start stop : Nat}
    (h : stutools.worker_range w 0 lo hi false = .ok (start, stop)) : SharesFit w 0 lo hi false := by
  unfold stutools.worker_range at h
  unfold SharesFit
  rcases hr : w.range.getD (lo, hi) with ⟨a, b⟩
  rw [hr] at h
  dsimp only at h ⊢
  intro hown
  have hle := Nat.div_le_self (b - a) w.block
  split_ifs at h with h1 h2
  · simp [hown] at h2
  · rw [Nat.zero_add, Nat.mul_one]
    omega

/-- The range of a worker whose share fits is not reversed. -/
theorem worker_range_le {w : Workload} {index lo hi : Nat} {imported : Bool} {start stop : Nat}
    (h : stutools.worker_range w index lo hi imported = .ok (start, stop)) (hhi : hi < U64)
    (hfit : SharesFit w index lo hi imported) (hindex : index < w.workers) :
    start ≤ stop ∧ stop < U64 := by
  obtain ⟨h1, h2, -⟩ := worker_range.spec h hhi hfit hindex
  exact ⟨h1, h2⟩

/-- The pool of a workload is far from the largest word. -/
theorem pool_bound {pre : Workload} (hpre : pre.Parsed) :
    (page_up pre.max_block + 128) * pre.depth + REQUEST_SIZE < U64 := by
  have hslot : page_up pre.max_block + 128 ≤ 2 ^ 32 := by
    have := hpre.max_block_le
    unfold page_up
    omega
  have hmul := Nat.mul_le_mul hslot hpre.depth_le
  have hU : U64 = 2 ^ 64 := rfl
  unfold REQUEST_SIZE
  omega

/-- What the checks of a preconditioning leave for its table. -/
theorem precondition_memory {pre : Workload} (hpre : pre.Parsed) {lo hi memory : Nat}
    {backend : Backend} (h : stutools.check_precondition pre lo hi memory backend = .ok ()) :
    (page_up pre.max_block + 128) * pre.depth + REQUEST_SIZE ≤ memory := by
  unfold stutools.check_precondition at h
  split at h
  · cases h
  · split_ifs at h
    have hbound := pool_bound hpre
    have hmul : checked_mul (page_up pre.max_block + 128) pre.depth =
        some ((page_up pre.max_block + 128) * pre.depth) := if_pos (by omega)
    rw [hmul] at h
    dsimp only at h
    split_ifs at h with h2
    omega

section

variable (hA : A.Exact)
include hA

theorem slot_bytes_exact {n : Nat} (h : n ≤ 2 ^ 62) : A.slot_bytes n = some (page_up n + 128) := by
  have hU : U64 = 2 ^ 64 := rfl
  have hpage : A.page n = some (page_up n) := by
    unfold page page_up
    rw [hA.add (by omega)]
    rfl
  unfold slot_bytes
  rw [hpage]
  exact hA.add (by unfold page_up; omega)

/-- The largest slot that a workload or a loaded position can ask for. -/
theorem slot_of_job {w : Workload} (hw : w.max_block ≤ 0x7ffff000) {n : Nat} (hn : n ≤ 2 ^ 26) :
    A.slot_bytes (max w.max_block n) = some (page_up (max w.max_block n) + 128) :=
  slot_bytes_exact hA (by omega)

theorem pool_total_exact {B : Arith} (hB : B.Exact) {n : Nat} (hn : n ≤ 2 ^ 26)
    {jobs : List (Workload × Nat)} (hjobs : ∀ job ∈ jobs, job.1.max_block ≤ 0x7ffff000)
    (total : Nat) : A.pool_total n jobs total = B.pool_total n jobs total := by
  induction jobs generalizing total with
  | nil => rfl
  | cons job jobs ih =>
    obtain ⟨w, index⟩ := job
    have hw := hjobs (w, index) List.mem_cons_self
    have hrest := ih fun job hjob => hjobs job (List.mem_cons_of_mem _ hjob)
    unfold pool_total
    rw [slot_of_job hA hw hn, slot_of_job hB hw hn]
    simp only [Option.bind_some, hrest]

/-- Every job adds at least the descriptors of one slot. -/
theorem pool_total_le {n : Nat} (hn : n ≤ 2 ^ 26) {jobs : List (Workload × Nat)}
    (hjobs : ∀ job ∈ jobs, job.1.max_block ≤ 0x7ffff000 ∧ 0 < job.1.depth) {total sum : Nat}
    (hsum : A.pool_total n jobs total = some (some sum)) (htotal : total < U64) :
    sum < U64 ∧ total + 128 * jobs.length ≤ sum := by
  induction jobs generalizing total with
  | nil =>
    unfold pool_total at hsum
    cases hsum
    exact ⟨htotal, by simp⟩
  | cons job jobs ih =>
    obtain ⟨w, index⟩ := job
    obtain ⟨hw, hdepth⟩ := hjobs (w, index) List.mem_cons_self
    dsimp only at hw hdepth
    unfold pool_total at hsum
    rw [slot_of_job hA hw hn, Option.bind_some] at hsum
    unfold checked_mul at hsum
    split_ifs at hsum with h1
    · dsimp only at hsum
      split_ifs at hsum with h2
      · obtain ⟨h3, h4⟩ := ih (fun job hjob => hjobs job (List.mem_cons_of_mem _ hjob)) hsum h2
        refine ⟨h3, ?_⟩
        have h5 := Nat.le_mul_of_pos_right (page_up (max w.max_block n) + 128) hdepth
        rw [List.length_cons]
        omega
      · cases hsum
    · cases hsum

/-- A budget that is granted: the pools and one position a worker fit the memory. -/
theorem memory_budget.spec {c : Config} {targets : List Target} {records : List Request}
    (hloaded : max_loaded records ≤ 2 ^ 26) (hrecords : records.length * REQUEST_SIZE < U64)
    (hjobs : ∀ job ∈ targets.flatMap Target.jobs, job.1.max_block ≤ 0x7ffff000 ∧ 0 < job.1.depth)
    (hmemory : c.memory ≤ I64_MAX) {budget : Budget}
    (h : A.memory_budget c targets records = some (.ok budget)) :
    budget.worker_count = (targets.flatMap Target.jobs).length ∧
      budget.pool_bytes + budget.worker_count * REQUEST_SIZE ≤ c.memory ∧
      ∀ {B : Arith}, B.Exact → B.memory_budget c targets records = some (.ok budget) := by
  have hsame : ∀ {B : Arith}, B.Exact →
      B.memory_budget c targets records = A.memory_budget c targets records := by
    intro B hB
    unfold memory_budget
    dsimp only
    rw [pool_total_exact hB hA hloaded (fun job hjob => (hjobs job hjob).1) 0]
    cases htotal : A.pool_total (max_loaded records) (targets.flatMap Target.jobs) 0 with
    | none => rfl
    | some total =>
      cases total with
      | none => rfl
      | some total =>
        obtain ⟨-, hle⟩ := pool_total_le hA hloaded hjobs htotal (by decide)
        simp only [Option.bind_some, hA.mul hrecords, hB.mul hrecords]
        split_ifs with h1
        · rfl
        · have hcount : (targets.flatMap Target.jobs).length * REQUEST_SIZE < U64 := by
            unfold REQUEST_SIZE
            omega
          rw [hA.mul hcount, hB.mul hcount]
  have hbudget := h
  unfold memory_budget at h
  dsimp only at h
  obtain ⟨total, htotal, h⟩ := Option.bind_eq_some_iff.mp h
  cases total with
  | none => cases h
  | some total =>
    obtain ⟨hlt, hle⟩ := pool_total_le hA hloaded hjobs htotal (by decide)
    simp only [hA.mul hrecords, Option.bind_some] at h
    split_ifs at h with h1
    · cases h
    · have hcount : (targets.flatMap Target.jobs).length * REQUEST_SIZE < U64 := by
        unfold REQUEST_SIZE
        omega
      rw [hA.mul hcount, Option.bind_some] at h
      split_ifs at h with h2
      · cases h
      · cases h
        refine ⟨rfl, ?_, fun hB => (hsame hB).trans hbudget⟩
        have hmax : I64_MAX < U64 - 1 := by decide
        dsimp only
        omega

/-- A table size that is granted: it is at least one, and all tables fit beside the pools. -/
theorem table_capacity.spec {c : Config} {budget : Budget} {record_count capacity : Nat}
    (hpool : budget.pool_bytes ≤ c.memory) (hmemory : c.memory ≤ I64_MAX)
    (h : A.table_capacity c budget record_count = some (.ok capacity)) :
    0 < capacity ∧ record_count ≤ capacity ∧
      budget.pool_bytes + budget.worker_count * capacity * REQUEST_SIZE ≤ c.memory ∧
      ∀ {B : Arith}, B.Exact → B.table_capacity c budget record_count = some (.ok capacity) := by
  have hword : c.memory < U64 := Nat.lt_of_le_of_lt hmemory (by decide)
  have hsame : ∀ {B : Arith}, B.Exact →
      B.table_capacity c budget record_count = A.table_capacity c budget record_count := by
    intro B hB
    unfold table_capacity
    rw [hA.sub hpool hword, hB.sub hpool hword]
  have hcapacity := h
  unfold table_capacity at h
  rw [hA.sub hpool hword, Option.bind_some] at h
  obtain ⟨share, hshare, h⟩ := Option.bind_eq_some_iff.mp h
  unfold uint.div at hshare
  split_ifs at hshare with hzero
  cases hshare
  dsimp only at h
  split_ifs at h with h1 h2
  · cases h
  · cases h
  · cases h
    simp only [not_or, Nat.not_lt] at h2
    refine ⟨Nat.pos_of_ne_zero h1, h2.1, ?_, fun hB => (hsame hB).trans hcapacity⟩
    rw [Nat.div_div_eq_div_mul]
    have hdiv := Nat.mul_div_le (c.memory - budget.pool_bytes) (budget.worker_count * REQUEST_SIZE)
    rw [Nat.mul_right_comm] at hdiv
    omega

/-- A share that fits is what the range functions say. -/
theorem worker_range_exact {w : Workload} {index lo hi : Nat} {imported : Bool} (hhi : hi < U64)
    (hblock : 0 < w.block) (hindex : index < w.workers) (hfit : SharesFit w index lo hi imported) :
    A.worker_range w index lo hi imported = some (stutools.worker_range w index lo hi imported) := by
  unfold worker_range stutools.worker_range
  unfold SharesFit at hfit
  rcases hr : w.range.getD (lo, hi) with ⟨a, b⟩
  rw [hr] at hfit
  dsimp only at hfit ⊢
  by_cases h1 : a < lo ∨ hi < b ∨ b ≤ a
  · rw [if_pos h1, if_pos h1]
  by_cases h2 : (imported || (w.shared_range && !w.split_range)) = true
  · rw [if_neg h1, if_neg h1, if_pos h2, if_pos h2]
  rw [if_neg h1, if_neg h1, if_neg h2, if_neg h2]
  have hshare := hfit (by simpa using h2)
  have hprod : (b - a) / w.block * index < U64 :=
    Nat.lt_of_le_of_lt (Nat.mul_le_mul_left _ (by omega)) hshare
  have hword : ∀ j ≤ w.workers, (b - a) / w.block * j / w.workers * w.block ≤ b - a := by
    intro j hj
    have hle : (b - a) / w.block * j / w.workers ≤ (b - a) / w.block := by
      apply Nat.div_le_of_le_mul
      rw [Nat.mul_comm w.workers]
      exact Nat.mul_le_mul_left _ hj
    exact Nat.le_trans (Nat.mul_le_mul_right _ hle) (Nat.div_mul_le_self _ _)
  have hfirst := hword index (by omega)
  have hlast := hword (index + 1) hindex
  have hworkers : 0 < w.workers := by omega
  rw [Nat.mod_eq_of_lt hprod, Nat.mod_eq_of_lt hshare, Nat.mod_eq_of_lt (by omega),
    Nat.mod_eq_of_lt (by omega)]
  rw [hA.sub (by omega) (by omega), Option.bind_some, uint.div_eq hblock, Option.bind_some,
    hA.mul hprod, Option.bind_some, uint.div_eq hworkers, Option.bind_some, hA.mul hshare,
    Option.bind_some, uint.div_eq hworkers, Option.bind_some, hA.mul (by omega), Option.bind_some,
    hA.add (by omega), Option.bind_some, hA.mul (by omega), Option.bind_some, hA.add (by omega)]
  rfl

/-- The checks of a preconditioning compute with nothing that does not fit. -/
theorem check_precondition_exact {pre : Workload} (hpre : pre.Parsed) {lo hi : Nat} (hhi : hi < U64)
    {memory : Nat} {backend : Backend}
    (h : stutools.check_precondition pre lo hi memory backend = .ok ()) :
    A.check_precondition pre lo hi memory backend = some (.ok ()) := by
  obtain ⟨start, stop, hrange, hworkers, hblock⟩ := check_precondition.spec h
  have hfit := shares_fit_first hhi hrange
  have hbound := pool_bound hpre
  obtain ⟨hle, hlt⟩ := worker_range_le hrange hhi hfit (by omega)
  unfold check_precondition
  unfold stutools.check_precondition at h
  rw [worker_range_exact hA hhi hpre.block_pos (by omega) hfit, hrange]
  rw [hrange] at h
  dsimp only at h
  rw [Option.bind_some]
  dsimp only
  rw [if_neg (by omega), hA.sub hle hlt, Option.bind_some]
  rw [wrapping_sub_of_le hle hlt] at h
  split_ifs at h with h1
  simp only [not_or] at h1
  rw [if_neg (by simp only [not_or]; exact h1.2),
    slot_bytes_exact hA (by have := hpre.max_block_le; omega), Option.bind_some]
  have hmul : checked_mul (page_up pre.max_block + 128) pre.depth =
      some ((page_up pre.max_block + 128) * pre.depth) := if_pos (by omega)
  rw [hmul] at h ⊢
  dsimp only at h ⊢
  rw [hA.add hbound, Option.map_some]
  split_ifs at h with h2
  rw [if_neg h2]

/-- So does its plan. -/
theorem run_precondition_exact {c : Config} {pre : Workload} (hpre : pre.Parsed) {lo hi : Nat}
    (hhi : hi < U64) (hmemory : c.memory ≤ I64_MAX)
    (h : stutools.check_precondition pre lo hi c.memory c.backend = .ok ()) {start stop : Nat}
    (hrange : stutools.worker_range pre 0 lo hi false = .ok (start, stop)) :
    A.run_precondition c pre lo hi = some (.ok (precondition_plan c pre start stop)) := by
  obtain ⟨start', stop', hrange', hworkers, hblock⟩ := check_precondition.spec h
  rw [hrange] at hrange'
  cases hrange'
  have hfit := shares_fit_first hhi hrange
  have hbound := pool_bound hpre
  have hword : c.memory < U64 := Nat.lt_of_le_of_lt hmemory (by decide)
  obtain ⟨hle, hlt⟩ := worker_range_le hrange hhi hfit (by omega)
  have hroom := precondition_memory hpre h
  unfold run_precondition precondition_plan
  rw [worker_range_exact hA hhi hpre.block_pos (by omega) hfit, hrange, Option.bind_some]
  dsimp only
  rw [slot_bytes_exact hA (by have := hpre.max_block_le; omega), Option.bind_some,
    hA.mul (by omega), Option.bind_some, hA.sub (by omega) hword, Option.bind_some,
    hA.sub hle hlt, Option.bind_some, uint.div_eq hpre.block_pos, wrapping_sub_of_le hle hlt]
  rfl

theorem build_plan_exact {c : Config} {w : Workload} (hw : w.Parsed) {index lo hi : Nat}
    (hindex : index < w.workers) (hhi : hi < U64) {records : List Request}
    (hfit : SharesFit w index lo hi (!records.isEmpty)) {start stop : Nat}
    (hrange : stutools.worker_range w index lo hi (!records.isEmpty) = .ok (start, stop))
    (capacity : Nat) : A.build_plan c records capacity lo hi (w, index) =
      some (.ok (job_plan c w start stop records capacity)) := by
  obtain ⟨hle, hlt⟩ := worker_range_le hrange hhi hfit hindex
  unfold build_plan job_plan
  dsimp only
  rw [worker_range_exact hA hhi hw.block_pos hindex hfit, hrange, Option.bind_some]
  dsimp only
  split_ifs
  · rw [hA.sub hle hlt, Option.bind_some, uint.div_eq hw.block_pos, wrapping_sub_of_le hle hlt]
    rfl
  · rfl

end

/-- A debug build that gets through the shares computed with nothing that does not fit. -/
theorem shares_fit_of_debug {w : Workload} {index lo hi : Nat} {imported : Bool}
    {range : Nat × Nat} (h : debug.worker_range w index lo hi imported = some (.ok range)) :
    SharesFit w index lo hi imported := by
  unfold worker_range at h
  unfold SharesFit
  rcases hr : w.range.getD (lo, hi) with ⟨a, b⟩
  rw [hr] at h
  dsimp only at h ⊢
  intro hown
  by_cases h1 : a < lo ∨ hi < b ∨ b ≤ a
  · rw [if_pos h1] at h
    cases h
  rw [if_neg h1, if_neg (by simp [hown])] at h
  obtain ⟨span, hspan, h⟩ := Option.bind_eq_some_iff.mp h
  obtain ⟨blocks, hblocks, h⟩ := Option.bind_eq_some_iff.mp h
  obtain ⟨_, _, h⟩ := Option.bind_eq_some_iff.mp h
  obtain ⟨_, _, h⟩ := Option.bind_eq_some_iff.mp h
  obtain ⟨through, hthrough, -⟩ := Option.bind_eq_some_iff.mp h
  unfold debug uint.sub at hspan
  unfold uint.div at hblocks
  unfold debug uint.mul at hthrough
  dsimp only at hspan hblocks hthrough
  split_ifs at hspan hblocks hthrough with h3 h4 h5
  cases hspan
  cases hblocks
  exact h5

end Arith

/-! ## The limits of a run -/

/-- The operation limit as a product without bounds. -/
def exact_limit (work : Workload) (len : Nat) : Option Nat :=
  match work.passes.map (· * len), work.operation_limit with
  | some a, some b => some (min a b)
  | a, b => a.or b

/-- The limits that `Run::prepare` computes are the exact products. -/
def LimitsExact (p : Plan) : Prop :=
  ∀ platform run, Run.prepare platform p = .ok run →
    run.byte_limit = p.work.range_passes.map (· * (p.hi - p.lo)) ∧
    run.limit = exact_limit p.work run.generated.len

theorem limits_exact {p : Plan}
    (hbytes : ∀ n, p.work.range_passes = some n → n * (p.hi - p.lo) < U64)
    (hpasses : ∀ n, p.work.passes = some n → ∀ g, Positions.new p.work p.lo p.hi p.seed
      p.position_capacity p.loaded = .ok g → n * g.len < U64) : LimitsExact p := by
  intro platform run hrun
  unfold Run.prepare at hrun
  split at hrun
  · cases hrun
  · rename_i g hg
    cases hrun
    dsimp only
    constructor
    · cases hr : p.work.range_passes with
      | none => rfl
      | some n => exact congrArg some (Nat.mod_eq_of_lt (hbytes n hr))
    · unfold Run.limit_of exact_limit
      dsimp only
      cases hp : p.work.passes with
      | none => rfl
      | some n =>
        have hlt : n * g.len < 2 ^ 64 := hpasses n hp g hg
        rw [Option.bind_some, if_pos hlt]
        cases p.work.operation_limit <;> rfl

/-- The table of a run is no longer than its plan allows. -/
theorem table_length_le {p : Plan} {g : Positions}
    (h : Positions.new p.work p.lo p.hi p.seed p.position_capacity p.loaded = .ok g) :
    g.work = p.work ∧ g.entries.length ≤ p.position_capacity := by
  obtain ⟨hwork, _, _, _, _, hentries⟩ := Positions.new_cases h
  refine ⟨hwork, ?_⟩
  rcases hentries with ⟨-, hle, hentries⟩ | ⟨-, hentries⟩
  · rw [hentries]
    simpa [positions.numbered] using hle
  · rw [hentries]
    simpa [positions.numbered] using
      positions.generated_length_le p.work p.lo p.hi p.seed p.position_capacity

theorem checked_mul_some {a b n : Nat} (h : checked_mul a b = some n) : n = a * b := by
  unfold checked_mul at h
  split at h
  · cases h
    rfl
  · cases h

theorem lt_of_checked_mul {a b : Nat} (h : ¬ (checked_mul a b).isNone = true) : a * b < U64 := by
  by_contra hlt
  apply h
  unfold checked_mul
  rw [if_neg hlt]
  rfl

/-- What a job's checks say of its limits. -/
theorem check_job_limits {path : String} {sector : Option Nat} {w : Workload} {index lo hi : Nat}
    {records : List Request} {backend : Backend}
    (h : check_job path sector w index lo hi records backend = .ok ()) {start stop : Nat}
    (hrange : worker_range w index lo hi (!records.isEmpty) = .ok (start, stop)) :
    (∀ n, w.range_passes = some n → n * wrapping_sub stop start < U64) ∧
    ∀ n, w.passes = some n →
      n * ((if records.isEmpty then w.positions.getD (wrapping_sub stop start / w.block)
        else records.length) * if w.verify then 2 else 1) < U64 := by
  unfold check_job at h
  rw [hrange] at h
  dsimp only at h
  by_cases h1 : sector.any fun n => off_sector n w start records
  · rw [if_pos h1] at h
    cases h
  rw [if_neg h1] at h
  generalize (if records.isEmpty = true then w.positions.getD (wrapping_sub stop start / w.block)
    else records.length) = count at h ⊢
  cases hcount : checked_mul count (if w.verify = true then 2 else 1) with
  | none =>
    rw [hcount] at h
    cases h
  | some product =>
    rw [hcount] at h
    dsimp only at h
    rw [← checked_mul_some hcount]
    split at h
    · cases h
    · rename_i hfits
      rw [not_or] at hfits
      refine ⟨fun n hn => ?_, fun n hn => ?_⟩
      · have hbytes := hfits.2
        rw [hn, Option.any_some] at hbytes
        exact lt_of_checked_mul hbytes
      · have hops := hfits.1
        rw [hn, Option.any_some] at hops
        exact lt_of_checked_mul hops

/-! ## What the checks leave -/

/-- What the parser and the loader promise, and the width of the words. -/
structure Given (c : Config) (sys : System) (records : List Request) : Prop where
  parsed : c.Parsed
  memory : c.memory ≤ I64_MAX
  range : ∀ lo hi, c.range = some (lo, hi) → hi < U64
  actual : ∀ path n, (sys.inspect path).actual = some n → n < U64
  capacity : sys.capacity < U64
  /-- The text of `-p` is read behind `ws1x1`. -/
  passes : ∀ pre, c.precondition = some pre → pre.range_passes.isSome = true
  loaded : ∀ r ∈ records, r.len ≤ 2 ^ 26
  count : records.length * REQUEST_SIZE ≤ c.memory / 2

/-- A target that passed. -/
structure Passed (c : Config) (records : List Request) (t : Checked) : Prop where
  hi : t.hi < U64
  jobs : ∀ job ∈ t.target.jobs, ∃ path sector,
    check_job path sector job.1 job.2 t.lo t.hi records c.backend = .ok ()
  precondition : ∀ pre, c.precondition = some pre → t.target.paths = false ∧
    check_precondition pre t.lo t.hi c.memory c.backend = .ok ()

variable {c : Config} {sys : System} {records : List Request}

theorem check_target_hi {path : String} {info : Inspected} {jobs : List (Workload × Nat)} {lo hi : Nat}
    (h : check_target c path info jobs records = .ok (lo, hi))
    (hrange : ∀ lo hi, c.range = some (lo, hi) → hi < U64)
    (hactual : ∀ n, info.actual = some n → n < U64) : hi < U64 := by
  unfold check_target at h
  dsimp only at h
  split at h
  · cases h
  · split at h
    · cases h
    · rename_i lo' hi' hor
      have hhi : hi' < U64 := by
        cases hr : c.range with
        | some range =>
          rw [hr, Option.some_or, Option.some.injEq] at hor
          exact hrange lo' hi' (hr.trans (congrArg some hor))
        | none =>
          rw [hr, Option.none_or] at hor
          obtain ⟨n, hn, heq⟩ := Option.map_eq_some_iff.mp hor
          cases heq
          exact hactual _ hn
      split at h
      · cases h
      · split at h
        · cases h
        · split at h
          · cases h
          · split at h
            · cases h
            · cases h
              exact hhi

theorem check_paths_hi {path : String} {capacity block_len : Nat} {jobs : List (Workload × Nat)}
    {lo hi : Nat} (h : check_paths c path capacity block_len jobs records = .ok (lo, hi)) :
    hi ≤ capacity := by
  unfold check_paths at h
  rcases c.range.getD (0, capacity) with ⟨a, b⟩
  dsimp only at h
  split_ifs at h with h1 h2 h3
  split at h
  · cases h
  · cases h
    omega

theorem check_spec.spec (hg : Given c sys records) {target : Target} {t : Checked}
    (h : check_spec c sys target records = .ok t) : t.target = target ∧ Passed c records t := by
  unfold check_spec at h
  dsimp only at h
  by_cases hpaths : target.paths = true
  · rw [if_pos hpaths] at h
    split at h
    · cases h
    · rename_i lo hi hok
      cases h
      obtain ⟨hnone, -, hjobs⟩ := check_paths.spec hok
      have hle := check_paths_hi hok
      refine ⟨rfl, Nat.lt_of_le_of_lt hle hg.capacity, fun job hjob => ⟨_, _, hjobs job hjob⟩,
        fun pre hpre => ?_⟩
      rw [hnone] at hpre
      cases hpre
  · rw [if_neg hpaths] at h
    split at h
    · cases h
    · rename_i lo hi hok
      cases h
      obtain ⟨-, hjobs, hpre⟩ := check_target.spec hok
      have hlt := check_target_hi hok hg.range fun n hn => hg.actual _ n hn
      exact ⟨rfl, hlt, fun job hjob => ⟨_, _, hjobs job hjob⟩,
        fun pre hp => ⟨by simpa using hpaths, hpre pre hp⟩⟩

theorem check_targets.spec (hg : Given c sys records) {targets : List Target}
    {checked : List Checked} (h : check_targets c sys records targets = .ok checked) :
    checked.map Checked.target = targets ∧ ∀ t ∈ checked, Passed c records t := by
  induction targets generalizing checked with
  | nil =>
    cases h
    simp
  | cons target targets ih =>
    unfold check_targets at h
    split at h
    · cases h
    · rename_i t ht
      split at h
      · cases h
      · rename_i rest hrest
        cases h
        obtain ⟨htarget, hpassed⟩ := check_spec.spec hg ht
        obtain ⟨hmap, hall⟩ := ih hrest
        refine ⟨by rw [List.map_cons, htarget, hmap], fun u hu => ?_⟩
        rcases List.mem_cons.mp hu with rfl | hu
        · exact hpassed
        · exact hall u hu

theorem target_specs_jobs {files stems : List String} {paths : Bool} {target : Target}
    (h : target ∈ target_specs c files stems paths) : ∀ job ∈ target.jobs, job ∈ target_jobs c := by
  unfold target_specs at h
  split_ifs at h
  · rw [List.mem_singleton] at h
    rw [h]
    exact fun _ hjob => hjob
  · rcases List.mem_append.mp h with h | h
    · obtain ⟨path, -, rfl⟩ := List.mem_map.mp h
      exact fun _ hjob => hjob
    · obtain ⟨i, hi, rfl⟩ := List.mem_mapIdx.mp h
      intro job hjob
      dsimp only at hjob
      rw [List.mem_singleton] at hjob
      obtain ⟨stem, -, hpair⟩ := List.mem_flatMap.mp (List.getElem_mem hi)
      obtain ⟨job', hjob', heq⟩ := List.mem_map.mp hpair
      rw [hjob, ← heq]
      exact hjob'

theorem max_loaded_le {n : Nat} (h : ∀ r ∈ records, r.len ≤ n) : max_loaded records ≤ n := by
  unfold max_loaded
  induction records with
  | nil => exact Nat.zero_le n
  | cons r records ih =>
    have hr := h r List.mem_cons_self
    have hrest := ih fun q hq => h q (List.mem_cons_of_mem r hq)
    simp only [List.map_cons, List.foldr_cons]
    omega

/-- The plan of one worker of a checked target. -/
def Checked.plan (c : Config) (records : List Request) (capacity : Nat) (t : Checked)
    (job : Workload × Nat) : Plan :=
  match worker_range job.1 job.2 t.lo t.hi (!records.isEmpty) with
  | .ok (start, stop) => job_plan c job.1 start stop records capacity
  | .error _ => job_plan c job.1 t.lo t.hi records capacity

/-- What is promised of every plan. -/
structure Planned (capacity : Nat) (p : Plan) : Prop where
  some : 0 < p.position_capacity
  le : p.position_capacity ≤ capacity
  limits : LimitsExact p

theorem job_plan_planned {w : Workload} (hw : w.Parsed) {path : String} {sector : Option Nat}
    {index lo hi : Nat} (hcheck : check_job path sector w index lo hi records c.backend = .ok ())
    {start stop : Nat} (hrange : worker_range w index lo hi (!records.isEmpty) = .ok (start, stop))
    (hle : start ≤ stop) (hlt : stop < U64) {capacity : Nat} (hcapacity : 0 < capacity)
    (hcount : records.length ≤ capacity) :
    Planned capacity (job_plan c w start stop records capacity) := by
  obtain ⟨start', stop', hrange', hroom, -⟩ := check_job.spec hcheck
  rw [hrange] at hrange'
  cases hrange'
  obtain ⟨hbytes, hpasses⟩ := check_job_limits hcheck hrange
  rw [wrapping_sub_of_le hle hlt] at hroom hbytes hpasses
  have hposition : (job_plan c w start stop records capacity).position_capacity =
      if records.isEmpty then min (w.positions.getD ((stop - start) / w.block)) capacity
      else records.length := by
    unfold job_plan
    rw [wrapping_sub_of_le hle hlt]
  refine ⟨?_, ?_, limits_exact (fun n hn => hbytes n hn) fun n hn g hg => ?_⟩
  · rw [hposition]
    split_ifs with hempty
    · have hpositions : 0 < w.positions.getD ((stop - start) / w.block) := by
        cases hp : w.positions with
        | none =>
          have hblock := Nat.le_trans hw.block_le (hroom (by simpa using hempty))
          exact Nat.div_pos hblock hw.block_pos
        | some n =>
          have hne := hw.positions_ne_zero
          rw [hp, ne_eq, Option.some.injEq] at hne
          exact Nat.pos_of_ne_zero hne
      omega
    · exact List.length_pos_of_ne_nil (by simpa using hempty)
  · rw [hposition]
    split_ifs
    · exact Nat.min_le_right _ _
    · exact hcount
  · obtain ⟨hwork, hlen⟩ := table_length_le hg
    have hentries : g.entries.length ≤ if records.isEmpty then
        w.positions.getD ((stop - start) / w.block) else records.length := by
      refine Nat.le_trans hlen ?_
      rw [hposition]
      split_ifs
      · exact Nat.min_le_left _ _
      · exact Nat.le_refl _
    have hwork' : g.work = w := hwork
    unfold Positions.len
    rw [hwork']
    exact Nat.lt_of_le_of_lt
      (Nat.mul_le_mul_left n (Nat.mul_le_mul_right _ hentries)) (hpasses n hn)

theorem Passed.job {t : Checked} (hpassed : Passed c records t) (hparsed : c.Parsed)
    {job : Workload × Nat} (hjob : job ∈ t.target.jobs) (hmem : job ∈ target_jobs c)
    (hfit : SharesFit job.1 job.2 t.lo t.hi (!records.isEmpty)) {capacity : Nat}
    (hcapacity : 0 < capacity) (hcount : records.length ≤ capacity) :
    (∀ {A : Arith}, A.Exact → A.build_plan c records capacity t.lo t.hi job =
      some (.ok (t.plan c records capacity job))) ∧
    Planned capacity (t.plan c records capacity job) := by
  obtain ⟨w, index⟩ := job
  obtain ⟨hw, hindex⟩ := target_jobs_mem hmem
  obtain ⟨path, sector, hcheck⟩ := hpassed.jobs (w, index) hjob
  obtain ⟨start, stop, hrange, -⟩ := check_job.spec hcheck
  have hplan : t.plan c records capacity (w, index) = job_plan c w start stop records capacity := by
    unfold Checked.plan
    rw [hrange]
  obtain ⟨hle, hlt⟩ := Arith.worker_range_le hrange hpassed.hi hfit hindex
  rw [hplan]
  exact ⟨fun hA => Arith.build_plan_exact hA (hparsed.jobs w hw) hindex hpassed.hi hfit hrange _,
    job_plan_planned (hparsed.jobs w hw) hcheck hrange hle hlt hcapacity hcount⟩

/-- What is promised of a preconditioning plan. -/
theorem Passed.pre {t : Checked} (hpassed : Passed c records t) (hg : Given c sys records)
    {pre : Workload} (hpre : c.precondition = some pre) :
    ∃ start stop, worker_range pre 0 t.lo t.hi false = .ok (start, stop) ∧ start ≤ stop ∧
      stop < U64 ∧ pre.max_block ≤ stop - start ∧
      0 < (precondition_plan c pre start stop).position_capacity ∧
      (∀ {A : Arith}, A.Exact →
        A.check_precondition pre t.lo t.hi c.memory c.backend = some (.ok ()) ∧
        A.run_precondition c pre t.lo t.hi = some (.ok (precondition_plan c pre start stop))) := by
  have hparsed := hg.parsed.precondition pre hpre
  obtain ⟨-, hok⟩ := hpassed.precondition pre hpre
  obtain ⟨start, stop, hrange, hworkers, hroom⟩ := check_precondition.spec hok
  obtain ⟨hle, hlt⟩ := Arith.worker_range_le hrange hpassed.hi
    (Arith.shares_fit_first hpassed.hi hrange) (by omega)
  rw [wrapping_sub_of_le hle hlt] at hroom
  refine ⟨start, stop, hrange, hle, hlt, hroom, ?_, fun hA =>
    ⟨Arith.check_precondition_exact hA hparsed hpassed.hi hok,
      Arith.run_precondition_exact hA hparsed hpassed.hi hg.memory hok hrange⟩⟩
  have hmemory := Arith.precondition_memory hparsed hok
  have hblocks : 0 < (stop - start) / pre.block :=
    Nat.div_pos (Nat.le_trans hparsed.block_le hroom) hparsed.block_pos
  unfold precondition_plan
  dsimp only
  rw [wrapping_sub_of_le hle hlt]
  have htable : 0 < (c.memory - (page_up pre.max_block + 128) * pre.depth) / REQUEST_SIZE :=
    Nat.div_pos (by omega) (by decide)
  omega

/-- A preconditioning plan can always be run. -/
theorem precondition_prepares {pre : Workload} (hpre : pre.Parsed) {start stop : Nat}
    (hroom : pre.max_block ≤ stop - start)
    (hposition : 0 < (precondition_plan c pre start stop).position_capacity) :
    ∃ run, Run.prepare .Linux (precondition_plan c pre start stop) = .ok run := by
  have hne := positions.generated_ne_nil hpre.block_pos hpre.block_le hroom hposition
    hpre.positions_ne_zero (pre.seed.getD c.seed)
  have hnew : ∃ g, Positions.new pre start stop (pre.seed.getD c.seed)
      (precondition_plan c pre start stop).position_capacity [] = .ok g := by
    unfold Positions.new
    rw [if_neg (by simp)]
    rcases hgen : positions.generated pre start stop (pre.seed.getD c.seed)
      (precondition_plan c pre start stop).position_capacity with ⟨entries, rng⟩
    rw [hgen] at hne
    dsimp only at hne ⊢
    rw [dif_neg hne]
    exact ⟨_, rfl⟩
  obtain ⟨g, hg⟩ := hnew
  unfold Run.prepare
  have hplan : Positions.new (precondition_plan c pre start stop).work
      (precondition_plan c pre start stop).lo (precondition_plan c pre start stop).hi
      (precondition_plan c pre start stop).seed
      (precondition_plan c pre start stop).position_capacity
      (precondition_plan c pre start stop).loaded = .ok g := hg
  rw [hplan]
  exact ⟨_, rfl⟩

/-! ## The budget law -/

/-- The budget is respected: what a debug build computes is what a release build does, so
nothing wraps, the pools and all tables fit the memory, every table has an entry, and the
limits of every run are the exact products. -/
structure Respected (c : Config) (targets : List Target) (records : List Request) (budget : Budget)
    (checked : List Checked) (capacity : Nat) : Prop where
  memory_budget : Arith.debug.memory_budget c targets records =
    Arith.release.memory_budget c targets records
  table_capacity : Arith.debug.table_capacity c budget records.length =
    Arith.release.table_capacity c budget records.length
  build_plans : Arith.debug.build_plans c checked records capacity =
    Arith.release.build_plans c checked records capacity
  plans : ∃ plans, Arith.release.build_plans c checked records capacity = some (.ok plans) ∧
    plans.length = budget.worker_count ∧
    budget.pool_bytes + (plans.map fun p => p.position_capacity * REQUEST_SIZE).sum ≤ c.memory ∧
    ∀ p ∈ plans, 0 < p.position_capacity ∧ LimitsExact p
  precondition : ∀ pre, c.precondition = some pre → ∀ t ∈ checked,
    Arith.debug.check_precondition pre t.lo t.hi c.memory c.backend =
      Arith.release.check_precondition pre t.lo t.hi c.memory c.backend ∧
    Arith.debug.run_precondition c pre t.lo t.hi = Arith.release.run_precondition c pre t.lo t.hi ∧
    ∃ p, Arith.release.run_precondition c pre t.lo t.hi = some (.ok p) ∧
      0 < p.position_capacity ∧ LimitsExact p

/-- The products that no check bounds: each worker's share of the blocks, and the bytes of
all passes of the preconditioning. -/
def ProductsFit (c : Config) (records : List Request) (checked : List Checked) : Prop :=
  (∀ t ∈ checked, ∀ job ∈ t.target.jobs, SharesFit job.1 job.2 t.lo t.hi (!records.isEmpty)) ∧
  ∀ pre, c.precondition = some pre → ∀ t ∈ checked, ∀ n start stop, pre.range_passes = some n →
    worker_range pre 0 t.lo t.hi false = .ok (start, stop) → n * (stop - start) < U64

theorem sum_map_le {α : Type} {l : List α} {f : α → Nat} {b : Nat} (h : ∀ a ∈ l, f a ≤ b) :
    (l.map f).sum ≤ l.length * b := by
  have hle := List.sum_le_card_nsmul (l.map f) b (by simpa using h)
  simpa using hle

theorem precondition_limits {pre : Workload} (hparsed : pre.Parsed)
    (hpasses : pre.range_passes.isSome = true) {start stop : Nat}
    (hfit : ∀ n, pre.range_passes = some n → n * (stop - start) < U64) :
    LimitsExact (precondition_plan c pre start stop) := by
  refine limits_exact (fun n hn => hfit n hn) fun n hn => ?_
  have hnone : pre.passes = some n := hn
  rw [hparsed.passes_of_range_passes hpasses] at hnone
  cases hnone

theorem products_of_respected (hg : Given c sys records) {targets : List Target} {budget : Budget}
    {checked : List Checked} {capacity : Nat}
    (hchecked : check_targets c sys records targets = .ok checked)
    (h : Respected c targets records budget checked capacity) : ProductsFit c records checked := by
  obtain ⟨-, hpassed⟩ := check_targets.spec hg hchecked
  refine ⟨fun t ht job hjob => ?_, fun pre hpre t ht n start stop hn hrange => ?_⟩
  · obtain ⟨plans, hplans, -⟩ := h.plans
    rw [← h.build_plans] at hplans
    unfold Arith.build_plans at hplans
    obtain ⟨all, hall, heq⟩ := Option.map_eq_some_iff.mp hplans
    cases all with
    | error e => cases heq
    | ok all =>
      obtain ⟨targetplans, htarget⟩ := Arith.each_mem hall t ht
      unfold Arith.build_target at htarget
      obtain ⟨pres, -, htarget⟩ := Option.bind_eq_some_iff.mp htarget
      cases pres with
      | error e => cases htarget
      | ok pres =>
        obtain ⟨plan, hplan⟩ := Arith.each_mem htarget job hjob
        unfold Arith.build_plan at hplan
        obtain ⟨range, hrange, hplan⟩ := Option.bind_eq_some_iff.mp hplan
        cases range with
        | error e => cases hplan
        | ok range => exact Arith.shares_fit_of_debug hrange
  · obtain ⟨start', stop', hrange', -, -, hroom, hposition, hexact⟩ := (hpassed t ht).pre hg hpre
    rw [hrange] at hrange'
    cases hrange'
    obtain ⟨-, -, p, hp, -, hlimits⟩ := h.precondition pre hpre t ht
    rw [(hexact Arith.release_exact).2] at hp
    cases hp
    obtain ⟨run, hrun⟩ := precondition_prepares (c := c) (hg.parsed.precondition pre hpre) hroom
      hposition
    have hbytes := (hlimits .Linux run hrun).1
    unfold Run.prepare at hrun
    split at hrun
    · cases hrun
    · cases hrun
      have hn' : (precondition_plan c pre start stop).work.range_passes = some n := hn
      rw [hn', Option.map_some, Option.map_some, Option.some.injEq] at hbytes
      have hspan : n * (stop - start) % U64 = n * (stop - start) := hbytes
      rw [← hspan]
      exact Nat.mod_lt _ (by decide)

theorem respected_of_products (hg : Given c sys records) {files stems : List String} {paths : Bool}
    {budget : Budget} {checked : List Checked} {capacity : Nat}
    (hbudget : Arith.release.memory_budget c (target_specs c files stems paths) records =
      some (.ok budget))
    (hchecked : check_targets c sys records (target_specs c files stems paths) = .ok checked)
    (hcapacity : Arith.release.table_capacity c budget records.length = some (.ok capacity))
    (hfit : ProductsFit c records checked) :
    Respected c (target_specs c files stems paths) records budget checked capacity := by
  obtain ⟨hmap, hpassed⟩ := check_targets.spec hg hchecked
  have hmem : ∀ t ∈ checked, ∀ job ∈ t.target.jobs, job ∈ target_jobs c := by
    intro t ht
    have hspec : t.target ∈ target_specs c files stems paths := by
      rw [← hmap]
      exact List.mem_map_of_mem ht
    exact target_specs_jobs hspec
  have hjobs : ∀ job ∈ (target_specs c files stems paths).flatMap Target.jobs,
      job.1.max_block ≤ 0x7ffff000 ∧ 0 < job.1.depth := by
    intro job hjob
    obtain ⟨target, htarget, hjob⟩ := List.mem_flatMap.mp hjob
    have hparsed := hg.parsed.jobs _ (target_jobs_mem (target_specs_jobs htarget job hjob)).1
    exact ⟨hparsed.max_block_le, hparsed.depth_pos⟩
  have hword : c.memory < U64 := Nat.lt_of_le_of_lt hg.memory (by decide)
  have hcount := hg.count
  obtain ⟨hworkers, hroom, hsame⟩ := Arith.memory_budget.spec Arith.release_exact
    (max_loaded_le hg.loaded) (by omega) hjobs hg.memory hbudget
  obtain ⟨hpos, hrecords, htables, hsame'⟩ := Arith.table_capacity.spec Arith.release_exact
    (by omega) hg.memory hcapacity
  -- The plans are the same in every build.
  have htarget : ∀ {A : Arith}, A.Exact → ∀ t ∈ checked, A.build_target c records capacity t =
      some (.ok (t.target.jobs.map (t.plan c records capacity))) := by
    intro A hA t ht
    have hpres : ∃ pres, Arith.each (fun pre => A.run_precondition c pre t.lo t.hi)
        (if t.target.paths then [] else c.precondition.toList) = some (.ok pres) := by
      split_ifs
      · exact ⟨[], rfl⟩
      · cases hpre : c.precondition with
        | none => exact ⟨[], rfl⟩
        | some pre =>
          obtain ⟨start, stop, -, -, -, -, -, hexact⟩ := (hpassed t ht).pre hg hpre
          refine ⟨[precondition_plan c pre start stop], ?_⟩
          simp [Arith.each, (hexact hA).2]
    obtain ⟨pres, hpres⟩ := hpres
    unfold Arith.build_target
    rw [hpres, Option.bind_some]
    exact Arith.each_ok fun job hjob => ((hpassed t ht).job hg.parsed hjob (hmem t ht job hjob)
      (hfit.1 t ht job hjob) hpos hrecords).1 hA
  have hplans : ∀ {A : Arith}, A.Exact → A.build_plans c checked records capacity =
      some (.ok (checked.map fun t => t.target.jobs.map (t.plan c records capacity)).flatten) := by
    intro A hA
    unfold Arith.build_plans
    rw [Arith.each_ok (htarget hA), Option.map_some]
  have hplanned : ∀ p ∈ (checked.map fun t => t.target.jobs.map (t.plan c records capacity)).flatten,
      Planned capacity p := by
    intro p hp
    obtain ⟨l, hl, hp⟩ := List.mem_flatten.mp hp
    obtain ⟨t, ht, rfl⟩ := List.mem_map.mp hl
    obtain ⟨job, hjob, rfl⟩ := List.mem_map.mp hp
    exact ((hpassed t ht).job hg.parsed hjob (hmem t ht job hjob) (hfit.1 t ht job hjob) hpos
      hrecords).2
  have hlength : (checked.map fun t => t.target.jobs.map (t.plan c records capacity)).flatten.length =
      budget.worker_count := by
    rw [hworkers, ← hmap]
    simp [List.length_flatten, List.length_flatMap, List.map_map, Function.comp_def]
  refine ⟨?_, ?_, ?_, ⟨_, hplans Arith.release_exact, hlength, ?_, fun p hp => ?_⟩, ?_⟩
  · rw [hsame Arith.debug_exact, hsame Arith.release_exact]
  · rw [hsame' Arith.debug_exact, hsame' Arith.release_exact]
  · rw [hplans Arith.debug_exact, hplans Arith.release_exact]
  · have hsum := sum_map_le (b := capacity * REQUEST_SIZE)
      fun p hp => Nat.mul_le_mul_right REQUEST_SIZE (hplanned p hp).le
    rw [hlength, ← Nat.mul_assoc] at hsum
    omega
  · exact ⟨(hplanned p hp).some, (hplanned p hp).limits⟩
  · intro pre hpre t ht
    obtain ⟨start, stop, hrange, -, -, -, hposition, hexact⟩ := (hpassed t ht).pre hg hpre
    obtain ⟨hcheck, hrun⟩ := hexact Arith.debug_exact
    obtain ⟨hcheck', hrun'⟩ := hexact Arith.release_exact
    refine ⟨hcheck.trans hcheck'.symm, hrun.trans hrun'.symm, _, hrun', hposition, ?_⟩
    exact precondition_limits (hg.parsed.precondition pre hpre) (hg.passes pre hpre)
      fun n hn => hfit.2 pre hpre t ht n start stop hn hrange

/-- For every configuration, every list of files, prefixes or paths and all loaded positions
for which the budget, the checks and the table size are granted: the budget is respected
exactly if each worker's share of the blocks and the bytes of all preconditioning passes
fit 64 bits. -/
theorem the_budget_is_respected_iff_the_products_fit (hg : Given c sys records)
    {files stems : List String} {paths : Bool} {budget : Budget} {checked : List Checked}
    {capacity : Nat}
    (hbudget : Arith.release.memory_budget c (target_specs c files stems paths) records =
      some (.ok budget))
    (hchecked : check_targets c sys records (target_specs c files stems paths) = .ok checked)
    (hcapacity : Arith.release.table_capacity c budget records.length = some (.ok capacity)) :
    Respected c (target_specs c files stems paths) records budget checked capacity ↔
      ProductsFit c records checked :=
  ⟨products_of_respected hg hchecked, respected_of_products hg hbudget hchecked hcapacity⟩

/-- Writes over a file that is written through before, so many times. -/
def preconditioned (passes : Nat) : Config :=
  { jobs := [{ read_probability := 0 }]
    precondition := some { read_probability := 0, range_passes := some passes }
    memory := 2 ^ 30 }

/-- A file of 4 GiB. -/
def four_gib : System :=
  { inspect := fun _ => { existing := true, actual := some (2 ^ 32), regular := true, sector := none }
    capacity := 0
    block_len := 512 }

theorem preconditioned_given {passes : Nat} (h : passes ≠ 0) :
    Given (preconditioned passes) four_gib [] := by
  have hjob : ({ read_probability := 0 } : Workload).Parsed :=
    ⟨{ probability := some 0 }, ⟨by decide, by decide, by decide, by decide, by decide, by decide,
      by decide, by decide, by decide⟩, rfl⟩
  have hpre : ({ read_probability := 0, range_passes := some passes } : Workload).Parsed := by
    refine ⟨{ w := { range_passes := some passes }, probability := some 0 }, ⟨by simp, by simp,
      by simp, by simp, by simp, by simp, by simp, by simp, by simp⟩, ?_⟩
    simp [Tokens.workload, Tokens.combined, Tokens.apply_metadata, Tokens.apply_write_verify,
      Tokens.read_probability, h]
  refine ⟨⟨?_, ?_⟩, ?_, ?_, ?_, by decide, ?_, ?_, ?_⟩
  · simpa [preconditioned] using hjob
  · intro pre hp
    cases hp
    exact hpre
  · simp [preconditioned, I64_MAX]
  · intro lo hi hr
    cases hr
  · intro path n hn
    cases hn
    decide
  · intro pre hp
    cases hp
    rfl
  · intro r hr
    cases hr
  · simp

/-- The file as its checks leave it. -/
def four_gib_checked (passes : Nat) : List Checked :=
  [{ target := { path := "file", jobs := target_jobs (preconditioned passes), paths := false }
     lo := 0
     hi := 2 ^ 32 }]

/-- A preconditioning of any number of passes is granted. -/
theorem preconditioned_granted (passes : Nat) :
    Arith.release.memory_budget (preconditioned passes)
      (target_specs (preconditioned passes) ["file"] [] false) [] = some (.ok ⟨270336, 1⟩) ∧
    check_targets (preconditioned passes) four_gib []
      (target_specs (preconditioned passes) ["file"] [] false) = .ok (four_gib_checked passes) ∧
    Arith.release.table_capacity (preconditioned passes) ⟨270336, 1⟩ 0 = some (.ok 44727978) := by
  have hcapacity : Arith.release.table_capacity (preconditioned passes) ⟨270336, 1⟩ 0 =
      some (.ok 44727978) := by
    simp [Arith.table_capacity, Arith.release, wrapping_sub, U64, preconditioned, uint.div,
      REQUEST_SIZE]
  refine ⟨by rfl, ?_, hcapacity⟩
  have hcheck : check_target (preconditioned passes) "file" (four_gib.inspect "file")
      (target_jobs (preconditioned passes)) [] = .ok (0, 2 ^ 32) := by
    simp [check_target, preconditioned, four_gib, target_write, check_precondition, worker_range,
      wrapping_sub, U64, checked_mul, page_up, REQUEST_SIZE, target_jobs, check_jobs, check_job,
      check_records]
  have htargets : target_specs (preconditioned passes) ["file"] [] false =
      [{ path := "file", jobs := target_jobs (preconditioned passes), paths := false }] := rfl
  rw [htargets]
  unfold check_targets check_targets check_spec
  rw [if_neg (by simp), hcheck]
  rfl

theorem a_preconditioned_file_respects_its_budget :
    ProductsFit (preconditioned 1) [] (four_gib_checked 1) ∧
    Respected (preconditioned 1) (target_specs (preconditioned 1) ["file"] [] false) []
      ⟨270336, 1⟩ (four_gib_checked 1) 44727978 := by
  obtain ⟨hbudget, hchecked, hcapacity⟩ := preconditioned_granted 1
  have hfit : ProductsFit (preconditioned 1) [] (four_gib_checked 1) := by
    refine ⟨by decide, fun pre hpre t ht n start stop hn hrange => ?_⟩
    cases hpre
    cases hn
    rw [four_gib_checked, List.mem_singleton] at ht
    have hwhole : worker_range { read_probability := 0, range_passes := some 1 } 0 0 (2 ^ 32) false =
        .ok (0, 2 ^ 32) := by rfl
    rw [ht, hwhole] at hrange
    cases hrange
    decide
  exact ⟨hfit, (the_budget_is_respected_iff_the_products_fit (preconditioned_given (by decide)) hbudget
    hchecked hcapacity).mpr hfit⟩

/-- With 2³² passes the byte limit of the preconditioning wraps to zero: no check of it
compares the product, as the check of a job does. -/
theorem the_byte_limit_of_a_preconditioning_wraps :
    Given (preconditioned (2 ^ 32)) four_gib [] ∧
    Arith.release.memory_budget (preconditioned (2 ^ 32))
      (target_specs (preconditioned (2 ^ 32)) ["file"] [] false) [] = some (.ok ⟨270336, 1⟩) ∧
    check_targets (preconditioned (2 ^ 32)) four_gib []
      (target_specs (preconditioned (2 ^ 32)) ["file"] [] false) = .ok (four_gib_checked (2 ^ 32)) ∧
    Arith.release.table_capacity (preconditioned (2 ^ 32)) ⟨270336, 1⟩ 0 = some (.ok 44727978) ∧
    ¬ Respected (preconditioned (2 ^ 32)) (target_specs (preconditioned (2 ^ 32)) ["file"] [] false) []
      ⟨270336, 1⟩ (four_gib_checked (2 ^ 32)) 44727978 := by
  obtain ⟨hbudget, hchecked, hcapacity⟩ := preconditioned_granted (2 ^ 32)
  have hg : Given (preconditioned (2 ^ 32)) four_gib [] := preconditioned_given (by decide)
  refine ⟨hg, hbudget, hchecked, hcapacity, fun h => ?_⟩
  have hwhole : worker_range { read_probability := 0, range_passes := some (2 ^ 32) } 0 0 (2 ^ 32)
      false = .ok (0, 2 ^ 32) := by rfl
  have hfit := (products_of_respected hg hchecked h).2 _ rfl _ List.mem_cons_self (2 ^ 32) 0 (2 ^ 32)
    rfl hwhole
  exact absurd hfit (by decide)

end stutools
