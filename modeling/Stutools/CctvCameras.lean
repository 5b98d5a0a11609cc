-- The threads of a run of the cameras (src/rust/src/cctv.rs): a camera for each stream, the
-- allocator that prepares the next file of each ahead of time, the closers, and the main
-- thread. One event is one access of a thread to what they share, or one call of the system.
-- Times are exact; the counters are taken not to overflow.
import Mathlib.Data.Fintype.Basic
import Mathlib.Logic.Function.Basic
import Stutools.CctvFrames
import Stutools.CctvRetention
import Stutools.CctvStats
import Stutools.Machine

namespace stutools.cctv

/-- The settings of a run, as `Settings::validate` has checked them, with its name on the disk. -/
structure Setup where
  sizes : Sizes
  count : Nat
  mbps : ℚ
  mbps_pos : 0 < mbps
  drop_after : ℚ
  duration : Option ℚ
  seed : UInt64
  ns : Namespace

/-- `rate::bytes_per_second` -/
def bytes_per_second (mbps : ℚ) : ℚ := mbps * (1000000 : ℕ) / (8 : ℕ)

namespace Setup

def period (c : Setup) : ℚ := c.sizes.block / bytes_per_second c.mbps

theorem period_pos (c : Setup) : 0 < c.period := by
  have hblock : (0 : ℚ) < c.sizes.block := by
    have := c.sizes.block_le
    exact_mod_cast (by omega : 0 < c.sizes.block)
  have hmbps := c.mbps_pos
  unfold period bytes_per_second
  positivity

/-- The cameras start one after the other, over one period. -/
def clock (c : Setup) (i : Fin c.count) : Clock where
  first := c.period * (1 + (i.val : ℚ) / (c.count : ℚ))
  period := c.period
  period_pos := c.period_pos

/-- The state that `fill` of a camera starts from. -/
def random (c : Setup) (i : Fin c.count) : UInt64 :=
  (c.seed ^^^ (UInt64.ofNat (i.val + 1) * 0x9e3779b97f4a7c15)) ||| 1

/-- The header of a recording. -/
def head (c : Setup) (i : Fin c.count) (sequence : Nat) : List UInt8 :=
  header c.ns.owner (i.val + 1) c.ns.run sequence

end Setup

/-! ## What is written -/

/-- One turn of the loop of `fill`. -/
def xorshift (state : UInt64) : UInt64 :=
  let state := state ^^^ (state <<< 13)
  let state := state ^^^ (state >>> 7)
  state ^^^ (state <<< 17)

/-- `fill`, over so many chunks of at most eight bytes. -/
def fill_chunks : Nat → Nat → UInt64 → List UInt8 × UInt64
  | 0, _, state => ([], state)
  | chunks + 1, len, state =>
    let state := xorshift state
    let rest := fill_chunks chunks (len - 8) state
    ((bytes.le 8 state.toNat).take len ++ rest.1, rest.2)

/-- `fill`: the bytes of a buffer, and the state after them. -/
def fill (len : Nat) (state : UInt64) : List UInt8 × UInt64 := fill_chunks ((len + 7) / 8) len state

theorem fill_chunks_length {chunks len : Nat} (h : len ≤ chunks * 8) (state : UInt64) :
    (fill_chunks chunks len state).1.length = len := by
  induction chunks generalizing len state with
  | zero => simp [fill_chunks]; omega
  | succ chunks ih =>
    have hrest := ih (by omega : len - 8 ≤ chunks * 8) (xorshift state)
    simp [fill_chunks, hrest]
    omega

@[simp] theorem fill_length (len : Nat) (state : UInt64) : (fill len state).1.length = len :=
  fill_chunks_length (by omega) state

/-! ## What is recorded -/

/-- A sample with no write. -/
def unwritten (m : Metrics) (h : m.writes = 0 ∧ m.max_write_ns = 0 ∧ m.max_write_tag = {}) : Sample :=
  ⟨m, fun _ => h.2⟩

/-- What a call of the system comes to: whether it succeeds, the time of day, and how long it
took; a write that fails may have stored some of its bytes. Of the files that are dropped, those of
some cameras may not be removed. -/
structure Io where
  ok : Bool := true
  unremoved : List Nat := []
  utc : Nat := 0
  ns : Nat := 0
  gen_ns : Nat := 0
  submitted_ns : Nat := 0
  completed_ns : Nat := 0
  stored : Nat := 0

/-- Whether a file of the camera that is dropped is removed. -/
def Io.removes (io : Io) (camera : Nat) : Bool := !io.unremoved.contains camera

def rotation_sample (waited : Bool) (io : Io) : Sample :=
  unwritten
    { rotations := 1
      preallocation_waits := if waited then 1 else 0
      preallocation_wait_ns := if waited then io.ns else 0
      max_preallocation_wait_ns := if waited then io.ns else 0 } ⟨rfl, rfl, rfl⟩

def allocation_sample (io : Io) : Sample :=
  unwritten { allocations := 1, allocation_ns := io.ns, max_allocation_ns := io.ns } ⟨rfl, rfl, rfl⟩

def close_sample (io : Io) : Sample :=
  unwritten { closes := 1, close_ns := io.ns, max_close_ns := io.ns } ⟨rfl, rfl, rfl⟩

def queue_sample (depth : Nat) : Sample := unwritten { max_close_queue := depth } ⟨rfl, rfl, rfl⟩

def deleted_sample (deleted : Nat) : Sample := unwritten { deleted } ⟨rfl, rfl, rfl⟩

def write_metrics (block camera sequence offset : Nat) (io : Io) : Metrics :=
  { writes := 1
    bytes := block
    gen_ns := io.gen_ns
    max_gen_ns := io.gen_ns
    write_ns := io.ns
    max_write_ns := io.ns
    max_write_tag :=
      { camera, sequence, offset, submitted_ns := io.submitted_ns, completed_ns := io.completed_ns }
    writes_over_200ms := if 200000000 < io.ns then 1 else 0 }

theorem write_metrics_sound (block camera sequence offset : Nat) (io : Io) :
    (write_metrics block camera sequence offset io).Sound := by
  intro h
  simp [write_metrics] at h

def write_sample (block camera sequence offset : Nat) (io : Io) : Sample :=
  ⟨write_metrics block camera sequence offset io, write_metrics_sound block camera sequence offset io⟩

/-! ## A camera -/

/-- A frame, and when the camera came to it. -/
structure Fetched where
  generated_at : ℚ
  seen : ℚ

inductive Kind where
  | written
  | dropped
  | abandoned
deriving DecidableEq

/-- What became of a frame. -/
structure Fate extends Fetched where
  kind : Kind

/-- Where `camera` is: in its first `take`, counted as ready, waiting for the start, without one;
at the top of its loop; in `take` and in the record of the rotation; before the second look at the
end; in `write_all` and in the record of the write; in `close` of a recording that is full or the
last; past the loop. -/
inductive Pc where
  | first
  | counted
  | waiting
  | unstarted
  | top
  | rotating (f : Fetched) (waited : Bool)
  | rotated (f : Fetched) (waited : Bool)
  | ready (f : Fetched)
  | writing (f : Fetched)
  | measuring
  | closing (last : Bool)
  | recording (last : Bool) (depth : Nat)
  | sending (last : Bool)
  | leaving
  | ended (ok : Bool)

/-- What belongs to one camera: its slot, the files that the allocator counts and those on the
disk by their sequence, its thread, and what became of its frames so far. -/
structure Lane where
  need : Bool
  value : Option Nat
  sequence : Nat
  files : Nat → Option Recording
  pc : Pc
  current : Option Nat
  offset : Nat
  frames : Frames
  random : UInt64
  fates : List Fate

/-- A recording that is to be closed. -/
structure Closing (n : Nat) where
  camera : Fin n
  sequence : Nat
  written : Nat

/-- What a camera reads of the shared state. -/
structure View where
  stopping : Bool
  started : Bool
  elapsed : ℚ
  past_end : Bool
  refused : Bool
  closing : Nat
  closer : Bool

/-- What a turn of a camera adds to the shared state. -/
structure Effect (n : Nat) where
  ready : Nat := 0
  generated : Nat := 0
  dropped : Nat := 0
  late : Nat := 0
  written : Nat := 0
  closing : Nat := 0
  sample : Option Sample := none
  sends : Option (Closing n) := none
  stop : Bool := false

/-- What `Shared::record` comes to. -/
inductive Recorded where
  | measured
  | late
  | refused

def View.record (v : View) : Recorded :=
  if v.past_end then .late else if v.refused then .refused else .measured

/-- The sample of a record that is not a write. -/
def Recorded.effect {n : Nat} (r : Recorded) (sample : Sample) : Effect n :=
  match r with
  | .measured => { sample := some sample }
  | _ => {}

namespace Lane

/-- The end of the thread, which stops the run. -/
def ends {n : Nat} (l : Lane) (ok : Bool) : Lane × Effect n :=
  ({ l with pc := .ended ok, current := none }, { stop := true })

/-- The end of the thread with an error, the frame `f` being lost. -/
def fails {n : Nat} (l : Lane) (f : Fetched) : Lane × Effect n :=
  ends { l with fates := l.fates ++ [⟨f, .abandoned⟩] } false

/-- The camera takes its next file, and asks for another. -/
def takes (l : Lane) (q : Nat) (pc : Pc) : Lane :=
  { l with value := none, need := true, current := some q, offset := 0, pc }

/-- `finish(0)`, as the last thing that the camera does. -/
def removes {n : Nat} (l : Lane) (q : Nat) (io : Io) : Lane × Effect n :=
  if io.ok then ends { l with files := Function.update l.files q none } true else l.ends false

/-- The top of the loop: the pass over the frames. -/
def passes {n : Nat} (l : Lane) (c : Clock) (drop_after elapsed : ℚ) : Lane × Effect n :=
  let p := l.frames.pass c drop_after elapsed
  let fetch : ℚ → Fetched := fun g => ⟨g, elapsed⟩
  let pc := match p.fetched with
    | none => .top
    | some g => if l.current.isNone then .rotating (fetch g) false else .ready (fetch g)
  ({ l with
      frames := p.frames
      fates := l.fates ++ p.dropped.map fun g => Fate.mk (fetch g) .dropped
      pc },
    { generated := p.generated, dropped := p.dropped.length })

/-- The next block of the camera: the first one of a recording begins with the header. -/
def block (l : Lane) (c : Setup) (i : Fin c.count) (q : Nat) : List UInt8 :=
  let buffer := (fill c.sizes.block l.random).1
  if l.offset = 0 then c.head i q ++ buffer.drop 64 else buffer

/-- A file with `v` stored where the camera writes. -/
def stores (l : Lane) (q : Nat) (v : List UInt8) (now : Nat) (stage : Stage) : Nat → Option Recording :=
  Function.update l.files q <| (l.files q).map fun r =>
    { r with content := bytes.patch r.content l.offset v, modified := now, stage }

/-- `fill` and `write_all` -/
def writes (l : Lane) (c : Setup) (i : Fin c.count) (q : Nat) (f : Fetched) (io : Io) :
    Lane × Effect c.count :=
  let v := l.block c i q
  let l' := { l with random := (fill c.sizes.block l.random).2 }
  if io.ok then
    ({ l' with
        files := l.stores q v io.utc (.writing (l.offset + c.sizes.block))
        fates := l.fates ++ [⟨f, .written⟩]
        pc := .measuring }, {})
  else
    fails { l' with files := l.stores q (v.take io.stored) io.utc (.writing l.offset) } f

/-- The record of a write, and the end of the turn. -/
def measures (l : Lane) (c : Setup) (i : Fin c.count) (q : Nat) (v : View) (io : Io) :
    Lane × Effect c.count :=
  let offset := l.offset + c.sizes.block
  let l' := { l with
    offset
    pc := if offset = c.sizes.file_size then .closing false else .top }
  match v.record with
  | .measured =>
    (l',
      { sample := some (write_sample c.sizes.block (i.val + 1) q l.offset io)
        written := c.sizes.block })
  | .late => (l', { late := 1 })
  | .refused => l.ends false

/-- The closers get the recording. -/
def sends {n : Nat} (l : Lane) (i : Fin n) (q : Nat) (last : Bool) : Lane × Effect n :=
  let l' := { l with current := none, offset := 0, pc := if last then .ended true else .top }
  (l', { sends := some ⟨i, q, l.offset⟩, stop := last })

/-- A turn of the camera that holds the file `q`. -/
def turn_with (c : Setup) (i : Fin c.count) (q : Nat) (v : View) (io : Io) (l : Lane) :
    Option (Lane × Effect c.count) :=
  match l.pc with
  | .counted => some ({ l with pc := .waiting }, { ready := 1 })
  | .waiting =>
    let pc := if v.started then .top else if v.stopping then .unstarted else .waiting
    some ({ l with pc }, {})
  | .unstarted => some (if v.started then ({ l with pc := .top }, {}) else l.removes q io)
  | .rotated f waited =>
    match v.record with
    | .refused => some (l.fails f)
    | r => some ({ l with pc := .ready f }, r.effect (rotation_sample waited io))
  | .ready f =>
    if v.stopping ∨ v.past_end then
      some ({ l with pc := .leaving, fates := l.fates ++ [⟨f, .abandoned⟩] }, {})
    else some ({ l with pc := .writing f }, {})
  | .writing f => some (l.writes c i q f io)
  | .measuring => some (l.measures c i q v io)
  | .closing last => some ({ l with pc := .recording last (v.closing + 1) }, { closing := 1 })
  | .recording last depth =>
    match v.record with
    | .refused => some (l.ends false)
    | r => some ({ l with pc := .sending last }, r.effect (queue_sample depth))
  | .sending last => some (if v.closer then l.sends i q last else l.ends false)
  | .leaving => some (if l.offset = 0 then l.removes q io else ({ l with pc := .closing true }, {}))
  | _ => none

/-- A turn of the camera that holds no file. -/
def turn_without {n : Nat} (v : View) (l : Lane) : Option (Lane × Effect n) :=
  match l.pc with
  | .first =>
    if v.stopping then some (l.ends true)
    else match l.value with
      | some q => some (l.takes q .counted, {})
      | none => some (l, {})
  | .rotating f waited =>
    if v.stopping then
      some ({ l with pc := .leaving, fates := l.fates ++ [⟨f, .abandoned⟩] }, {})
    else match l.value with
      | some q => some (l.takes q (.rotated f waited), {})
      | none => some ({ l with pc := .rotating f true }, {})
  | .leaving => some (l.ends true)
  | _ => none

/-- `camera`: its next access or call. -/
def turn (c : Setup) (i : Fin c.count) (v : View) (io : Io) (l : Lane) :
    Option (Lane × Effect c.count) :=
  match l.pc with
  | .top =>
    if v.stopping ∨ v.past_end then some ({ l with pc := .leaving }, {})
    else some (l.passes (c.clock i) c.drop_after v.elapsed)
  | _ =>
    match l.current with
    | some q => l.turn_with c i q v io
    | none => l.turn_without v

end Lane

/-! ## The other threads -/

namespace Lane

/-- What `prepare` makes: a file of the size of the settings, which begins with its header when
it is not written in whole blocks. -/
def prepared (c : Setup) (i : Fin c.count) (q now : Nat) : Recording where
  stamp := now
  pending := true
  content :=
    let zeroes := bytes.resize [] c.sizes.file_size
    if c.ns.direct then zeroes else bytes.patch zeroes 0 (c.head i q)
  modified := now
  stage := .writing 0

/-- The allocator answers the request of the camera with the next number. -/
def requested (l : Lane) : Lane := { l with need := false, sequence := l.sequence + 1 }

def prepares (l : Lane) (c : Setup) (i : Fin c.count) (now : Nat) : Lane :=
  { l with files := Function.update l.files l.sequence (some (prepared c i l.sequence now)) }

/-- What is there of a file when `prepare` fails after `stored` bytes, those of the header being
the last. -/
def unfinished (c : Setup) (i : Fin c.count) (q now stored : Nat) : Recording where
  stamp := now
  pending := true
  content :=
    let zeroes := bytes.resize [] (min stored c.sizes.file_size)
    if c.ns.direct then zeroes
    else bytes.patch zeroes 0 ((c.head i q).take (stored - c.sizes.file_size))
  modified := now
  stage := .reserving

/-- `Prepared::drop` of a file that no camera took: an error of `remove_file` is ignored. -/
def discards (l : Lane) (q : Nat) (removed : Bool) : Lane :=
  if removed then { l with files := Function.update l.files q none } else l

/-- `prepare` fails: the file that it made is dropped, or it has made none. -/
def gives_up (l : Lane) (c : Setup) (i : Fin c.count) (io : Io) (removed : Bool) : Lane :=
  if removed then l
  else { l with
    files := Function.update l.files l.sequence (some (unfinished c i l.sequence io.utc io.stored)) }

/-- The file is put in the slot; one that was there is dropped. -/
def placed (l : Lane) (removed : Bool) : Lane :=
  { l.value.elim l fun q => l.discards q removed with value := some l.sequence }

/-- `finish` of a closer, for a recording with bytes in it. -/
def closed (l : Lane) (q now : Nat) : Lane :=
  { l with
    files := Function.update l.files q <| (l.files q).map fun r =>
      { r with stamp := now, pending := false, stage := .closed } }

/-- `prune` of the main thread. -/
def pruned (l : Lane) (q : Nat) : Lane :=
  { l with files := Function.update l.files q ((l.files q).filter Recording.pending) }

/-- The slot is dropped with the file in it. -/
def dropped (l : Lane) (removed : Bool) : Lane :=
  { l.value.elim l fun q => l.discards q removed with value := none }

end Lane

/-- Where `allocate` is: at a slot of its loop, or past the last; preparing a file for a camera,
recording it, and looking at the end once more before the file is put in the slot. -/
inductive Allocator (n : Nat) where
  | scan (index : Nat)
  | preparing (i : Fin n)
  | recording (i : Fin n)
  | placing (i : Fin n)
  | storing (i : Fin n)
  | ended (ok : Bool)

/-- Where `closer` is. -/
inductive Closer (n : Nat) where
  | idle
  | finishing (cl : Closing n)
  | counting (ok : Bool)
  | reporting (ok : Bool)
  | ended

/-- Where `run_inner` is: before the start, in the measured run, waiting for the cameras and the
allocator, waiting for the closers, and through. -/
inductive Main where
  | preparing
  | measuring
  | joining
  | closing
  | ended
deriving DecidableEq

def CLOSERS : Nat := 4

/-- `Shared`, with the threads and the clock. -/
structure State (n : Nat) where
  now : ℚ
  interrupted : Bool
  start : Option ℚ
  ready : Nat
  stop : Bool
  metrics : MetricsStore
  late : Nat
  generated : Nat
  dropped : Nat
  written : Nat
  closer : Bool
  queue : List (Closing n)
  closing : Nat
  close_error : Bool
  lanes : Fin n → Lane
  allocator : Allocator n
  closers : List (Closer n)
  main : Main

namespace State

variable {n : Nat}

def stopping (s : State n) : Bool := s.stop || s.interrupted

/-- `Shared::elapsed` -/
def elapsed (s : State n) : ℚ := s.start.elim 0 fun start => s.now - start

def past_end (s : State n) (c : Setup) : Bool := c.duration.any fun limit => limit ≤ s.elapsed

/-- Whether the slot of the minute is held by another. -/
def refused (s : State n) : Bool :=
  (s.metrics.slots (slot_of (minute_of s.elapsed))).any fun slot => slot.1 ≠ minute_of s.elapsed

def view (s : State n) (c : Setup) : View where
  stopping := s.stopping
  started := s.start.isSome
  elapsed := s.elapsed
  past_end := s.past_end c
  refused := s.refused
  closing := s.closing
  closer := s.closer

/-- `MetricsStore::record`, now. -/
def merge (s : State n) (sample : Sample) : MetricsStore :=
  match s.metrics.record s.elapsed sample with
  | .ok store => store
  | .error _ => s.metrics

def lane (s : State n) (i : Fin n) (l : Lane) : State n :=
  { s with lanes := Function.update s.lanes i l }

/-- What a turn of a camera does to the shared state. -/
def apply (s : State n) (e : Effect n) : State n :=
  { s with
    ready := s.ready + e.ready
    generated := s.generated + e.generated
    dropped := s.dropped + e.dropped
    late := s.late + e.late
    written := s.written + e.written
    closing := s.closing + e.closing
    metrics := e.sample.elim s.metrics s.merge
    queue := s.queue ++ e.sends.toList
    stop := s.stop || e.stop }

/-- `camera` of stream `i` -/
def camera_turn (c : Setup) (s : State c.count) (i : Fin c.count) (io : Io) : Option (State c.count) :=
  ((s.lanes i).turn c i (s.view c) io).map fun r => (s.lane i r.1).apply r.2

/-- The allocator ends, which stops the run. -/
def allocator_ends (s : State n) (ok : Bool) : State n :=
  { s with allocator := .ended ok, stop := true }

/-- `allocate` -/
def allocator_turn (c : Setup) (s : State c.count) (io : Io) : Option (State c.count) :=
  match s.allocator with
  | .scan index =>
    if h : index < c.count then
      let i : Fin c.count := ⟨index, h⟩
      -- `break` leaves the loop over the slots
      if s.stopping then some { s with allocator := .scan c.count }
      else if (s.lanes i).need then
        some { s.lane i (s.lanes i).requested with allocator := .preparing i }
      else some { s with allocator := .scan (index + 1) }
    -- past the last slot it may wait, and looks at the end before it goes on with the first
    else if s.stopping then some (s.allocator_ends true)
    else some { s with allocator := .scan 0 }
  | .preparing i =>
    if io.ok then some { s.lane i ((s.lanes i).prepares c i io.utc) with allocator := .recording i }
    else some ((s.lane i ((s.lanes i).gives_up c i io (io.removes i))).allocator_ends false)
  | .recording i =>
    if ¬ s.past_end c ∧ s.refused then
      some ((s.lane i ((s.lanes i).discards (s.lanes i).sequence (io.removes i))).allocator_ends false)
    else
      some { s with
        metrics := if s.past_end c then s.metrics else s.merge (allocation_sample io)
        allocator := .placing i }
  | .placing i =>
    if s.stopping then
      some
        { s.lane i ((s.lanes i).discards (s.lanes i).sequence (io.removes i)) with
          allocator := .scan c.count }
    else some { s with allocator := .storing i }
  | .storing i =>
    some { s.lane i ((s.lanes i).placed (io.removes i)) with allocator := .scan (i.val + 1) }
  | .ended _ => none

def closer_at (s : State n) (k : Nat) (pc : Closer n) : State n :=
  { s with closers := s.closers.set k pc }

/-- `closer` -/
def closer_turn (c : Setup) (s : State c.count) (k : Nat) (io : Io) : Option (State c.count) :=
  (s.closers[k]?).bind fun
    | .idle =>
      match s.queue with
      | cl :: queue => some ({ s with queue }.closer_at k (.finishing cl))
      | [] => some (if s.closer then s else s.closer_at k .ended)
    | .finishing cl =>
      if io.ok then
        some ((s.lane cl.camera ((s.lanes cl.camera).closed cl.sequence io.utc)).closer_at k
          (.counting true))
      else some (s.closer_at k (.counting false))
    | .counting ok => some ({ s with closing := s.closing - 1 }.closer_at k (.reporting ok))
    | .reporting ok =>
      if ok ∧ (s.past_end c ∨ ¬ s.refused) then
        some ({ s with
          metrics := if s.past_end c then s.metrics else s.merge (close_sample io) }.closer_at k .idle)
      else some ({ s with close_error := true, stop := true }.closer_at k .idle)
    | .ended => none

/-- Every camera has its first file, and the next one is in its slot. -/
def all_ready (s : State n) : Prop := n ≤ s.ready ∧ ∀ i, (s.lanes i).value.isSome

instance (s : State n) : Decidable s.all_ready := inferInstanceAs (Decidable (_ ∧ ∀ _, _))

def all_joined (s : State n) : Prop :=
  (∀ i, (s.lanes i).pc matches .ended _) ∧ s.allocator matches .ended _

instance (s : State n) : Decidable s.all_joined := inferInstanceAs (Decidable ((∀ _, _) ∧ _))

/-- `run_inner`, whose measured run also ends when it finds an error. -/
def main_turn (c : Setup) (s : State c.count) (io : Io) : Option (State c.count) :=
  match s.main with
  | .preparing =>
    if s.stopping ∨ s.all_ready then some { s with start := some s.now, main := .measuring } else some s
  | .measuring =>
    if s.stopping ∨ s.past_end c ∨ ¬ io.ok then some { s with stop := true, main := .joining } else some s
  | .joining => if s.all_joined then some { s with closer := false, main := .closing } else some s
  | .closing =>
    if s.closers.all fun pc => pc matches .ended then
      some { s with lanes := fun i => (s.lanes i).dropped (io.removes i), main := .ended }
    else some s
  | .ended => none

end State

/-- A thread goes on, the clock does, or a signal comes in; the main thread writes the logs of the
minutes that are over, and removes recordings that have expired. -/
inductive Event (n : Nat) where
  | tick (now : ℚ)
  | interrupt
  | camera (i : Fin n) (io : Io)
  | allocator (io : Io)
  | closer (k : Nat) (io : Io)
  | main (io : Io)
  | advance
  | prune (i : Fin n) (q : Nat)
  | deleted (count : Nat)

def init (c : Setup) : State c.count where
  now := 0
  interrupted := false
  start := none
  ready := 0
  stop := false
  metrics := {}
  late := 0
  generated := 0
  dropped := 0
  written := 0
  closer := true
  queue := []
  closing := 0
  close_error := false
  lanes := fun i =>
    { need := true
      value := none
      sequence := 0
      files := fun _ => none
      pc := .first
      current := none
      offset := 0
      frames := Frames.start (c.clock i)
      random := c.random i
      fates := [] }
  allocator := .scan 0
  closers := List.replicate CLOSERS .idle
  main := .preparing

def step (c : Setup) (s : State c.count) : Event c.count → Option (State c.count)
  | .tick now => if s.now ≤ now then some { s with now } else none
  | .interrupt => some { s with interrupted := true }
  | .camera i io => s.camera_turn c i io
  | .allocator io => s.allocator_turn c io
  | .closer k io => s.closer_turn c k io
  | .main io => s.main_turn c io
  | .advance =>
    let capped := c.duration.elim s.elapsed fun limit => min s.elapsed limit
    if s.main = .measuring then some { s with metrics := (s.metrics.drain capped false).2 } else none
  | .prune i q => if s.main = .measuring then some (s.lane i ((s.lanes i).pruned q)) else none
  | .deleted count =>
    if (s.main = .preparing ∨ s.main = .measuring) ∧ ¬ s.past_end c ∧ ¬ s.refused then
      some { s with metrics := s.merge (deleted_sample count) }
    else none

end stutools.cctv
