-- One worker's run: what `prepare` sets up before the start gate, and the
-- parts that the streamed and the batched run share.
import Stutools.Positions

namespace stutools

/-- How many wrong offsets a worker keeps for the report. -/
def INCORRECT_SAMPLES : Nat := 16

/-- `engine::Stats`, the counts of one worker. -/
structure Stats where
  incorrect : Nat := 0
  incorrect_offsets : List Nat := []
  reads : Nat := 0
  writes : Nat := 0
  read_bytes : Nat := 0
  write_bytes : Nat := 0
  verified : Nat := 0
  completed_reads : Nat := 0
  completed_writes : Nat := 0

/-- Counts one operation, and its bytes if it completed in the measured time. -/
def Stats.complete (s : Stats) (request : Request) (measured : Bool) : Stats :=
  let s :=
    if request.write then { s with completed_writes := s.completed_writes + 1 }
    else { s with completed_reads := s.completed_reads + 1 }
  if measured then
    if request.write then
      { s with writes := s.writes + 1, write_bytes := s.write_bytes + request.len }
    else { s with reads := s.reads + 1, read_bytes := s.read_bytes + request.len }
  else s

/-- Counts a block whose contents are wrong and keeps the first few offsets. -/
def count_incorrect (s : Stats) (offset : Nat) : Stats :=
  { s with
    incorrect := s.incorrect + 1
    incorrect_offsets :=
      if s.incorrect_offsets.length < INCORRECT_SAMPLES then s.incorrect_offsets ++ [offset]
      else s.incorrect_offsets }

/-- The next block for write-verify, in order when `sequential`, else a
xorshift draw. Gives the block, the count and the generator state. -/
def write_verify_index (work : Workload) (blocks count : Nat) (state : UInt64) :
    Nat × Nat × UInt64 :=
  if 1 ≤ work.sequential then (count % blocks, count + 1, state)
  else
    let state := state ^^^ (state <<< 13)
    let state := state ^^^ (state >>> 7)
    let state := state ^^^ (state <<< 17)
    (state.toNat % blocks, count + 1, state)

/-- The next write of a `v` workload. -/
def write_verify_request (work : Workload) (lo hi count : Nat) (state : UInt64) :
    Request × Nat × UInt64 :=
  let blocks := max ((hi - lo) / work.block) 1
  let (index, count, state) := write_verify_index work blocks count state
  ({ offset := lo + index * work.block, len := work.block, write := true, verify := false,
     seed := 0, state := 0 }, count, state)

/-- The first `n` writes of a `v` workload, and the generator after them. -/
def write_verify_requests (work : Workload) (lo hi count : Nat) (state : UInt64) :
    Nat → List Request × Nat × UInt64
  | 0 => ([], count, state)
  | n + 1 =>
    let (before, count, state) := write_verify_requests work lo hi count state n
    let (r, count, state) := write_verify_request work lo hi count state
    (before ++ [r], count, state)

/-- The seed of a request's payload: its own with `u`, else the worker's. -/
def payload_seed (request : Request) (work : Workload) (seed : UInt64) : UInt64 :=
  if work.unique then request.seed.toUInt64 else seed

/-- Writes a request's payload into its slot's buffer. -/
def write_pattern (buffer : List UInt8) (request : Request) (work : Workload) (seed : UInt64)
    (reusable : Bool) (template : List UInt8) : List UInt8 :=
  let seed := payload_seed request work seed
  if reusable then pattern.stamp buffer request.offset seed
  else if work.unique then pattern.fill buffer request.offset seed
  else pattern.fill_cached buffer request.offset seed template

/-- Whether a buffer holds the payload of the request. -/
def check_pattern (buffer : List UInt8) (request : Request) (work : Workload) (seed : UInt64)
    (template : List UInt8) : Bool :=
  if work.unique then pattern.matches buffer request.offset request.seed.toUInt64
  else pattern.matches_cached buffer request.offset seed template

/-- A run without its own time limit takes the configured one. -/
def work_duration (work : Workload) (fallback : Option ℚ) : Option ℚ :=
  if work.passes.isSome || work.range_passes.isSome then none else work.duration.or fallback

/-- The system the program was built for. -/
inductive Platform where
  | Linux
  | Windows
  | Macos
  | Freebsd
  | Other
deriving DecidableEq

/-- `engine::Plan`, less the files, connections and timeouts of its queue. -/
structure Plan where
  record_latency : Bool
  work : Workload
  lo : Nat
  hi : Nat
  loaded : List Request
  seed : UInt64
  backend : Backend
  duration : Option ℚ
  verify : Bool
  max_len : Nat
  position_capacity : Nat

/-- A plan over two blocks and a loaded table of one write. -/
def Plan.sample (work : Workload) : Plan :=
  { record_latency := false
    work := work
    lo := 0
    hi := 2 * work.block
    loaded := [{ Request.default with len := work.block, write := true }]
    seed := 0
    backend := .Uring
    duration := none
    verify := false
    max_len := work.block
    position_capacity := 1 }

/-- `engine::Run`, less its queue and its clock. -/
structure Run where
  generated : Positions
  wv_count : Nat
  wv_state : UInt64
  wv_pending : Option Request
  wv_lo : Nat
  wv_hi : Nat
  template : List UInt8
  work : Workload
  seed : UInt64
  reusable : Bool
  verify : Bool
  record_latency : Bool
  duration : Option ℚ
  limit : Option Nat
  byte_limit : Option Nat
  streamed : Bool
  stats : Stats
  index : Nat

namespace Run

/-- Whether a slot's payload can be prepared once and only stamped later. -/
def reusable_of (p : Plan) : Bool :=
  !p.work.alternate && !p.work.unique && p.work.block == p.work.max_block && p.loaded.isEmpty &&
    decide (p.work.read_probability = 0) && p.work.block % 4096 == 0 && p.lo % 4096 == 0

/-- The operation limit: the passes over the plan or `X`'s count, whichever is
less. A product past 64 bits is no limit. -/
def limit_of (work : Workload) (len : Nat) : Option Nat :=
  let passes := work.passes.bind fun n => if n * len < 2 ^ 64 then some (n * len) else none
  match passes, work.operation_limit with
  | some a, some b => some (min a b)
  | a, b => a.or b

/-- `Run::prepare`, without opening the queue. -/
def prepare (platform : Platform) (p : Plan) : Except String Run :=
  match Positions.new p.work p.lo p.hi p.seed p.position_capacity p.loaded with
  | .error e => .error e
  | .ok generated =>
    -- A flush is a barrier, the only reason left for a batch.
    let batch_only := p.work.flush
    let needs_stream := p.verify || p.work.verify || p.work.write_verify || p.work.alternate ||
      p.work.rate.isSome || p.work.duty.isSome
    let platform_streams := match platform with
      | .Linux => !p.record_latency && (p.backend == .Libaio || p.backend == .Uring)
      | .Windows | .Macos | .Freebsd => true
      | .Other => false
    .ok
      { generated := generated
        wv_count := 0
        wv_state := max p.seed 1
        wv_pending := none
        wv_lo := p.lo
        wv_hi := p.hi
        template := pattern.fill (List.replicate 4096 0) 0 p.seed
        work := p.work
        seed := p.seed
        reusable := reusable_of p
        verify := p.verify
        record_latency := p.record_latency
        duration := work_duration p.work p.duration
        limit := limit_of p.work generated.len
        byte_limit := p.work.range_passes.map fun n => n * (p.hi - p.lo) % 2 ^ 64
        streamed := (platform_streams || needs_stream) && !batch_only
        stats := {}
        index := 0 }

/-- A prepared run keeps the plan's workload, also in its table. -/
theorem prepare_work {platform : Platform} {p : Plan} {run : Run}
    (h : prepare platform p = .ok run) : run.work = p.work ∧ run.generated.work = p.work := by
  unfold prepare at h
  split at h
  · cases h
  · rename_i g hg
    cases h
    exact ⟨rfl, Positions.new_work hg⟩

end Run

end stutools
