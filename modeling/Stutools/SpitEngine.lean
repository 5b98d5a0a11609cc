-- `aioMultiplePositions` of the C engine as a machine: one step is one turn of its
-- submit loop, one `io_getevents` with all it returns, or one request that the
-- device performs. The clock, the kernel and the device choose the inputs.
import Stutools.Bytes
import Stutools.Flags
import Stutools.Machine
import Stutools.Ring
import Stutools.SpitBuffer
import Stutools.SpitPositions

open memory

namespace stutools.spit

/-- The arguments of `aioMultiplePositions` that its control flow reads. -/
structure Arguments where
  /-- Whether a finish time in the future is set. -/
  checkTime : Bool
  byteLimit : Nat
  QDmin : Nat
  QDmax : Nat
  alignment : Nat
  rounds : Nat
  posStart : Nat
  posLimit : Nat
  exitOnErrors : Nat
  fd : Int
  discard_max_bytes : Nat
  posIncrement : Nat
  alternateEvery : Nat
  stringcompare : Bool
deriving DecidableEq

namespace Arguments

/-- `if (posIncrement < 1) posIncrement = 1`. -/
def increment (c : Arguments) : Nat := if c.posIncrement < 1 then 1 else c.posIncrement

/-- `if (!alignment) alignment = 512`. -/
def align (c : Arguments) : Nat := if c.alignment = 0 then 512 else c.alignment

end Arguments

inductive Opcode where
  | none
  | pread
  | pwrite
  | fsync
deriving DecidableEq

/-- A control block. The buffer is an address in `readdata` for a read and in
`data` for a write, and `data` is the index of the position. -/
structure iocb where
  opcode : Opcode
  buf : Nat
  nbytes : Nat
  offset : Nat
  data : Nat
deriving DecidableEq

instance : Inhabited iocb := ⟨⟨.none, 0, 0, 0, 0⟩⟩

/-- A request that the kernel has accepted and not reported: the control block it
was given, by its slot, with its contents at that time. -/
structure Request where
  obj : Nat
  cb : iocb
  performed : Bool
  /-- The positions as they were when the request was submitted. -/
  seen : List positionType

/-- An `io_event`, its control block named by the slot. -/
structure io_event where
  obj : Nat
  res : Int
  res2 : Int
deriving DecidableEq

/-- One completion that has been handled: the position and the slot found for it,
the request, and the outcome of the comparison if there was one (whether it
found a mismatch). -/
structure Check where
  index : Nat
  q : Nat
  request : Request
  mismatch : Option Bool

inductive Phase where
  | loop
  | submit
  | poll
  | drain
  | returned
  | aborted
deriving DecidableEq

/-- The locals of `aioMultiplePositions` and what they point to, with the kernel
and the device below it. -/
structure Engine where
  positions : List positionType
  QD : Nat
  maxSize : Nat
  inFlight : Nat
  pos : Nat
  submitted : Nat
  received : Nat
  submitthisround : Nat
  freeQueue : List Nat
  headOfQueue : Nat
  tailOfQueue : Nat
  cbs : List iocb
  data : Memory
  readdata : Memory
  dataseed : List Nat
  totalWriteSubmit : Nat
  totalReadSubmit : Nat
  ioerrors : Nat
  writtenBytes : Nat
  writtenIOs : Nat
  readBytes : Nat
  readIOs : Nat
  UUID : Nat
  count : Nat
  phase : Phase
  kernel : List Request
  device : Memory
  checks : List Check

namespace Engine

variable (rand_r : Nat → Nat × Nat) (c : Arguments) (s : Engine)

/-- `positions[i]`. -/
def position (i : Nat) : positionType := s.positions.getD i default

def put (i : Nat) (p : positionType) : Engine := { s with positions := s.positions.set i p }

/-- The address of `data[i]` in `data[0]`, and of `readdata[i]` in `readdata[0]`. -/
def buffer (i : Nat) : Nat := s.maxSize * i

/-! ## The submit loop -/

/-- `nextpos:`. -/
def nextpos : Engine :=
  let pos := (s.pos + c.increment) % 2 ^ 64
  let s := { s with pos := if pos ≥ s.positions.length then 0 else pos }
  if c.posLimit ≠ 0 ∧ s.submitted ≥ c.posLimit * c.rounds % 2 ^ 64 then { s with phase := .drain }
  else s

/-- A trim is done at once; it leaves what it leaves in its extent of the device. -/
def trim (now done : ℚ≥0) (left : List UInt8) : Engine :=
  if c.discard_max_bytes ≥ c.align then
    let p := s.position s.pos
    let s := { s with device := s.device.write p.pos (left.take p.len),
                      writtenIOs := s.writtenIOs + 1 }
    s.put s.pos { p with submitTime := now, finishTime := done }
  else s

/-- The swap of reads and writes after each pass. -/
def alternate (p : positionType) : positionType :=
  if c.alternateEvery ≠ 0 ∧ s.submitted ≥ c.alternateEvery then
    if p.action = 'R' then { p with action := 'W', verify := 0 }
    else if p.action = 'W' then { p with action := 'R', verify := 1 }
    else p
  else p

/-- The slot's buffer gets the pattern of the position's seed, for the position's
length, unless the last fill of the slot was for the same seed. -/
def refill (qdIndex : Nat) (p : positionType) : Engine :=
  if p.seed ≠ s.dataseed.getD qdIndex 0 then
    { s with data := generateRandomBuffer rand_r s.data (s.buffer qdIndex) p.len p.seed,
             dataseed := s.dataseed.set qdIndex p.seed }
  else s

/-- The position and the UUID at the start of the slot's buffer. -/
def encode (qdIndex pos : Nat) : Engine :=
  let data := s.data.write (s.buffer qdIndex) (bytes.le 8 pos)
  { s with data := data.write (s.buffer qdIndex + 8) (bytes.le 8 s.UUID) }

/-- A write whose verified position has not finished forgets it. -/
def forget (i : Nat) : Engine :=
  let p := s.position i
  if p.verify ≠ 0 ∧ (s.position p.verify).finishTime = 0 then s.put i { p with verify := 0 } else s

/-- `io_prep_pread`, `io_prep_pwrite` and `io_prep_fsync`. -/
def prep (qdIndex : Nat) (cb : iocb) : Engine := { s with cbs := s.cbs.set qdIndex cb }

/-- Whether a request of `len` bytes goes past the byte limit. -/
def past_limit (len : Nat) : Bool :=
  c.byteLimit ≠ 0 ∧ s.totalWriteSubmit + s.totalReadSubmit + len > c.byteLimit

/-- Where the preparation of a request goes on. -/
inductive Prepared where
  | abort
  | endoffunction (s : Engine)
  | nextpos (s : Engine)
  | io_submit (s : Engine)

/-- The request for the position at `pos` is set up on the slot at the head of the queue. -/
def prepare : Prepared :=
  let i := s.pos
  let qdIndex := s.freeQueue.getD s.headOfQueue 0
  let p := s.alternate c { s.position i with q := qdIndex }
  let s := s.put i p
  if p.action = 'D' then .abort
  else if p.action = 'R' then
    let s := if c.stringcompare then s.refill rand_r qdIndex p else s
    let s := s.prep qdIndex ⟨.pread, s.buffer qdIndex, p.len, p.pos, i⟩
    if s.past_limit c p.len then .endoffunction s else .io_submit s
  else if p.action = 'F' then .io_submit (s.prep qdIndex ⟨.fsync, 0, 0, 0, i⟩)
  else if p.action = 'W' then
    let s := s.refill rand_r qdIndex p
    let s := s.encode qdIndex p.pos
    let s := s.forget i
    let s := s.prep qdIndex ⟨.pwrite, s.buffer qdIndex, p.len, p.pos, i⟩
    if s.past_limit c p.len then .endoffunction s else .io_submit s
  else if p.action = 'P' then
    -- a pause is repeated while something is in flight
    if s.inFlight > 0 then .nextpos { s with pos := (s.pos + (2 ^ 64 - 1)) % 2 ^ 64 }
    else .nextpos s
  else .nextpos s

/-- `io_submit` has taken the request: the slot leaves the queue. -/
def accepted (now : ℚ≥0) : Engine :=
  let i := s.pos
  let qdIndex := s.freeQueue.getD s.headOfQueue 0
  let p := { s.position i with submitTime := now, finishTime := 0, inFlight := true }
  { s with positions := s.positions.set i p,
           totalReadSubmit := if p.action = 'R' then s.totalReadSubmit + p.len
             else s.totalReadSubmit,
           totalWriteSubmit := if p.action = 'W' then s.totalWriteSubmit + p.len
             else s.totalWriteSubmit,
           freeQueue := s.freeQueue.set s.headOfQueue (2 ^ 16 - 1),
           headOfQueue := ring.next s.QD s.headOfQueue,
           inFlight := s.inFlight + 1,
           submitted := s.submitted + 1,
           kernel := s.kernel ++ [⟨qdIndex, s.cbs.getD qdIndex default, false, s.positions⟩] }

/-- `io_submit` has failed: no request owns the position or the slot. -/
def refused : Engine :=
  let p := { s.position s.pos with submitTime := 0, finishTime := 0, inFlight := false, success := 2 }
  { s with positions := s.positions.set s.pos p, ioerrors := s.ioerrors + 1 }

/-- Whether the errors so far end the run. -/
def too_many_errors : Bool := c.exitOnErrors ≠ 0 ∧ s.ioerrors ≥ c.exitOnErrors

/-- What the clock and the kernel answer in one turn of the submit loop: Control-C
or not, whether the finish time is past, the times read, what a trim leaves, and
what `io_submit` returns. -/
structure Answers where
  keepRunning : Bool
  late : Bool
  now : ℚ≥0
  done : ℚ≥0
  left : List UInt8
  ret : Int

/-- One turn of the submit loop. -/
def submit_turn (a : Answers) : Engine :=
  if ¬ (s.inFlight < s.QD ∧ a.keepRunning) then { s with phase := .poll }
  else if c.checkTime ∧ a.late then { s with phase := .drain }
  else if (s.position s.pos).inFlight then s.nextpos c
  else
    let s := { s with submitthisround := s.submitthisround + 1 }
    if s.submitthisround > c.QDmin then { s with phase := .poll }
    else if (s.position s.pos).action = 'S' then s.nextpos c
    else if (s.position s.pos).action = 'T' then (s.trim c a.now a.done a.left).nextpos c
    else if c.fd < 0 then s.nextpos c
    else
      match s.prepare rand_r c with
      | .abort => { s with phase := .aborted }
      | .endoffunction s => { s with phase := .drain }
      | .nextpos s => s.nextpos c
      | .io_submit s =>
        if a.ret = 1 then (s.accepted a.now).nextpos c
        else if s.refused.too_many_errors c then { s.refused with phase := .drain }
        else s.refused.nextpos c

/-! ## Completions -/

/-- Whether a transfer moved every byte of its position. -/
def transferred (e : io_event) (pp : positionType) : Bool :=
  e.res ≥ 0 ∧ e.res2 = 0 ∧ e.res.toNat = pp.len

/-- `completeTransfer` on the position at index `i`. -/
def completeTransfer (i : Nat) (e : io_event) : Engine :=
  let pp := s.position i
  let success := transferred e pp
  let count := if success then 1 else 0
  let read := pp.action = 'R'
  let write := pp.action = 'W'
  { s with positions := s.positions.set i { pp with success := if success then 1 else 2 },
           readBytes := if read then s.readBytes + e.res.toNat else s.readBytes,
           readIOs := if read then s.readIOs + count else s.readIOs,
           writtenBytes := if write then s.writtenBytes + e.res.toNat else s.writtenBytes,
           writtenIOs := if write then s.writtenIOs + count else s.writtenIOs,
           ioerrors := if success then s.ioerrors else s.ioerrors + 1 }

def headerSize : Nat := 16

/-- The comparison of `verifyCompletedRead`: none when it returns before it, else
whether there is a mismatch. -/
def comparison (i : Nat) : Option Bool :=
  let pp := s.position i
  let actual := s.buffer pp.q
  if pp.verify = 0 ∨ pp.action ≠ 'R' then none
  else if pp.verify ≥ s.positions.length ∨ (s.position pp.verify).finishTime = 0 then none
  else if pp.len < headerSize then some true
  else
    let wrong_position : Bool := bytes.of_le (s.readdata.read actual 8) ≠ pp.pos
    let wrong_data : Bool := s.readdata.read (actual + headerSize) (pp.len - headerSize) ≠
      s.data.read (actual + headerSize) (pp.len - headerSize)
    some (wrong_position || (c.stringcompare && wrong_data))

/-- `verifyCompletedRead` on the position at index `i`. -/
def verifyCompletedRead (i : Nat) : Engine :=
  match s.comparison c i with
  | some true =>
    let s := s.put i { s.position i with success := 2 }
    { s with ioerrors := s.ioerrors + 1, readIOs := s.readIOs - 1 }
  | _ => s

/-- The slot of a position goes to the tail of the queue. -/
def give_back (q : Nat) : Engine :=
  { s with freeQueue := s.freeQueue.set s.tailOfQueue q,
           tailOfQueue := ring.next s.QD s.tailOfQueue }

/-- What both completion paths do with one event. None for an event that is not of
a request the kernel has accepted. -/
def complete (now : ℚ≥0) (e : io_event) : Option Engine :=
  match s.kernel.find? fun r => r.obj = e.obj with
  | none => none
  | some r =>
    let i := (s.cbs.getD e.obj default).data
    let q := (s.position i).q
    let success := transferred e (s.position i)
    let t := s.completeTransfer i e
    let mismatch := if success then t.comparison c i else none
    let t := if success then t.verifyCompletedRead c i else t
    let t := t.put i { t.position i with finishTime := now, inFlight := false }
    let t := { t with received := t.received + 1,
                      kernel := t.kernel.eraseP fun r => r.obj = e.obj,
                      checks := t.checks ++ [Check.mk i q r mismatch] }
    some (t.give_back q)

/-- One event in the main loop. -/
def receive (now : ℚ≥0) (e : io_event) : Option Engine :=
  (s.complete c now e).map fun t => { t with inFlight := t.inFlight - 1 }

/-- The events that `io_getevents` returns in the main loop. -/
def receive_all (now : ℚ≥0) (events : List io_event) : Option Engine := do
  let t ← events.foldlM (fun s e => receive c s now e) s
  if events ≠ [] ∧ t.too_many_errors c then return { t with phase := .drain }
  return { t with phase := .loop }

/-- The events of one turn of the drain, which counts them at its end. -/
def drain_all (now : ℚ≥0) (events : List io_event) : Option Engine := do
  let t ← events.foldlM (fun s e => complete c s now e) s
  return { t with inFlight := t.inFlight - events.length }

/-- One turn of the drain. It gives up after 3600 of them. -/
def drain_turn (now : ℚ≥0) (events : List io_event) : Option Engine :=
  if s.inFlight = 0 then some { s with phase := .returned }
  else
    let s := { s with count := s.count + 1 }
    if s.count > 3600 then some { s with ioerrors := s.ioerrors + 1, phase := .returned }
    else s.drain_all c now events

/-! ## The machine -/

/-- The device performs the request on a slot, once. -/
def perform (obj : Nat) : Option Engine :=
  match s.kernel.find? fun r => r.obj = obj ∧ r.performed = false with
  | none => none
  | some r =>
    let s := { s with kernel := s.kernel.map fun r =>
      if r.obj = obj then { r with performed := true } else r }
    match r.cb.opcode with
    | .pread =>
      some { s with readdata := s.readdata.write r.cb.buf (s.device.read r.cb.offset r.cb.nbytes) }
    | .pwrite =>
      some { s with device := s.device.write r.cb.offset (s.data.read r.cb.buf r.cb.nbytes) }
    | _ => some s

inductive Input where
  /-- The head of the outer loop: Control-C or not, and whether the position is due. -/
  | turn (keepRunning due : Bool)
  | submit (a : Answers)
  | events (now : ℚ≥0) (events : List io_event)
  | perform (obj : Nat)

/-- One step. None for an input that the machine does not wait for. -/
def step (input : Input) : Option Engine :=
  match input, s.phase with
  | .turn keepRunning due, .loop =>
    if keepRunning then
      if due then some { s with phase := .submit, submitthisround := 0 }
      else some { s with phase := .poll }
    else some { s with phase := .drain }
  | .submit a, .submit => some (s.submit_turn rand_r c a)
  | .events now events, .poll => s.receive_all c now events
  | .events now events, .drain => s.drain_turn c now events
  | .perform obj, _ => s.perform obj
  | _, _ => none

end Engine

/-! ## The start -/

/-- `maxSize`: the longest length. -/
def longest (positions : List positionType) : Nat :=
  positions.foldl (fun maxSize p => if p.len > maxSize then p.len else maxSize) 0

/-- `data[0]` gets the pattern of the first seed, and each other slot a copy of it. -/
def first_fill (rand_r : Nat → Nat × Nat) (QD maxSize firstseed : Nat) : Memory :=
  let data := generateRandomBuffer rand_r Memory.zero 0 maxSize firstseed
  (List.range QD).foldl
    (fun data i => if i > 0 then data.write (maxSize * i) (data.read 0 maxSize) else data) data

/-- The positions at the start of a run: cleared if it is the first one over them. -/
def cleared (c : Arguments) (positions : List positionType) : List positionType :=
  if c.posStart = 0 then
    positions.map fun p =>
      { p with inFlight := false, submitTime := 0, finishTime := 0, success := 0 }
  else positions

/-- `aioMultiplePositions` up to its loop. None when it returns or exits before. -/
def Engine.start (rand_r : Nat → Nat × Nat) (c : Arguments) (pc : positionContainer)
    (ioerrors : Nat) (device : Memory) : Option Engine :=
  let sz := pc.positions.length
  let QD := min c.QDmax sz
  let maxSize := longest pc.positions
  let firstseed := (pc.positions.getD 0 default).seed
  if sz = 0 ∨ QD = 0 ∨ maxSize = 0 then none
  else some
    { positions := cleared c pc.positions,
      QD := QD, maxSize := maxSize,
      inFlight := 0, pos := c.posStart % sz, submitted := 0, received := 0, submitthisround := 0,
      freeQueue := (List.range QD).map (· % 2 ^ 16), headOfQueue := 0, tailOfQueue := 0,
      cbs := List.replicate QD default,
      data := first_fill rand_r QD maxSize firstseed,
      readdata := first_fill rand_r QD maxSize firstseed,
      dataseed := List.replicate QD firstseed,
      totalWriteSubmit := 0, totalReadSubmit := 0, ioerrors := ioerrors,
      writtenBytes := pc.writtenBytes, writtenIOs := pc.writtenIOs,
      readBytes := pc.readBytes, readIOs := pc.readIOs, UUID := pc.UUID, count := 0,
      phase := .loop, kernel := [], device := device, checks := [] }

end stutools.spit
