-- The pool of paths that a queue runs over. `drive` is a machine here: it
-- takes one step at a time, and what it asks for outside (a request, a sent
-- command, a finished one, a connection) comes with the step, so every order
-- of answers is a run.
import Stutools.Addressing
import Stutools.Lanes
import Stutools.Machine

namespace stutools

/-- `Transport`, the questions that change nothing. What its other calls do to a
session comes with the steps of `drive`. -/
structure Transport (σ : Type) where
  can_submit : σ → Bool
  inflight : σ → Nat
  tier : σ → Option Nat
  check : σ → Io → Bool

/-- `Pool`, less its labels, clocks and statistics. A vector that is used as a
stack has its top first. -/
structure Pool (σ : Type) where
  sessions : List (Option σ)
  /-- Whether `down_at` holds a time. -/
  down : List Bool
  geometry : Geometry
  /-- What opening each path reported the last time it went well. The pool keeps
  no such record; it is here for what is said about it. -/
  reported : List Geometry
  lanes : Lanes
  /-- Whether a read-back may be sent while its write is still in flight. -/
  race : Bool
  slot_inflight : List Bool
  slot_req : List Request
  slot_path : List Nat
  free : List Nat
  retry : List Nat
  in_flight : Nat
  last_write_path : Option Nat

/-- How an attempt to connect a path goes: its wait is not over, it fails, or it
gives a session. -/
inductive Attempt (σ : Type) where
  | waiting
  | failed
  | opened (session : σ) (geometry : Geometry)

namespace Pool

variable {σ : Type} (T : Transport σ)

/-- `Pool::open`: opens every path and checks that they all name one namespace.
`found` is what opening each path gives. -/
def «open» (found : List (Option (σ × Geometry))) (policy : Policy) (seed : UInt64) :
    Option (Pool σ) := do
  let opened ← found.mapM id
  let geometry ← opened.head?.map Prod.snd
  if opened.all fun path => path.2 = geometry then
    let lanes ← Lanes.new opened.length policy seed
    return {
      sessions := opened.map fun path => some path.1
      down := opened.map fun _ => false
      geometry
      reported := opened.map Prod.snd
      lanes := { lanes with tier := opened.map fun path => (T.tier path.1).getD TIER_OPTIMIZED }
      race := false
      slot_inflight := []
      slot_req := []
      slot_path := []
      free := []
      retry := []
      in_flight := 0
      last_write_path := none }
  else none

/-- Reserves the state of `depth` slots. -/
def reserve (p : Pool σ) (depth : Nat) : Pool σ :=
  { p with
    slot_req := List.replicate depth Request.default
    slot_path := List.replicate depth 0
    slot_inflight := List.replicate depth false
    free := List.range depth
    retry := [] }

def set_race (p : Pool σ) (on : Bool) : Pool σ := { p with race := on }

/-- The session of a path, if it is up. -/
def session (p : Pool σ) (path : Nat) : Option σ := p.sessions[path]?.join

/-- The path for the next request: the policy's choice if it has room, otherwise
the next one that does. A verify read avoids the path that last wrote. -/
def path_with_room (p : Pool σ) (verify_read : Bool) : Option Nat × Pool σ :=
  let (first, lanes) :=
    if verify_read then p.lanes.pick_available_avoiding (p.last_write_path.getD (2 ^ 64 - 1))
    else p.lanes.pick_available
  (first.bind fun first => (around p.sessions.length first).find? fun path =>
      lanes.is_usable path && (p.session path).any T.can_submit,
    { p with lanes })

/-- Puts a slot on the retry list if its command is in flight on the path. -/
def requeue (path : Nat) (p : Pool σ) (slot : Nat) : Pool σ :=
  if p.slot_inflight.getD slot false = true ∧ p.slot_path.getD slot 0 = path then
    { p with
      slot_inflight := p.slot_inflight.set slot false
      in_flight := p.in_flight - 1
      retry := slot :: p.retry }
  else p

/-- Takes a path down after its connection dropped. Its commands in flight go back
on the retry list. -/
def disconnect (p : Pool σ) (path : Nat) : Pool σ :=
  (List.range p.slot_inflight.length).foldl (requeue path)
    { p with
      sessions := p.sessions.set path none
      down := p.down.set path true
      lanes := p.lanes.mark_unavailable path }

/-- Whether a request overlaps one still in flight, where at least one of the two
writes. With `race`, a read-back does not wait for a write. -/
def overlaps_in_flight (p : Pool σ) (req : Request) : Bool :=
  (List.range p.slot_inflight.length).any fun slot =>
    p.slot_inflight.getD slot false &&
      let other := p.slot_req.getD slot Request.default
      let own_read_back := p.race && req.verify && !req.write && other.write
      !own_read_back && conflict other req

def any_down (p : Pool σ) : Bool := p.sessions.any Option.isNone

/-- Connects a down path again, if its wait is over. -/
def reconnect (opens : Nat → Attempt σ) (p : Pool σ) (path : Nat) : Pool σ :=
  if p.down.getD path false then
    match opens path with
    | .waiting => p
    | .failed => p
    | .opened session geometry =>
      { p with
        lanes := (p.lanes.set_tier path ((T.tier session).getD TIER_OPTIMIZED)).mark_available path
        sessions := p.sessions.set path (some session)
        reported := p.reported.set path geometry
        down := p.down.set path false }
  else p

/-- Connects again every down path whose wait is over. -/
def try_reconnect (p : Pool σ) (opens : Nat → Attempt σ) : Pool σ :=
  (List.range p.sessions.length).foldl (reconnect T opens) p

/-- One path's turn of the housekeeping, with the session after it; none when it fails. -/
def tick (ticks : Nat → Option σ) (p : Pool σ) (path : Nat) : Pool σ :=
  if (p.session path).isSome then
    match ticks path with
    | some session => { p with sessions := p.sessions.set path (some session) }
    | none => p.disconnect path
  else p

/-- The housekeeping of every path. -/
def tick_all (p : Pool σ) (ticks : Nat → Option σ) : Pool σ :=
  (List.range p.sessions.length).foldl (tick ticks) p

end Pool

/-! ## The drive loop -/

/-- How `drive` is called: `execute` names the slot of each of its requests, and
`stream` takes them from its source. -/
inductive Mode where
  | execute (requests : List Request)
  | stream
deriving DecidableEq

/-- Why `drive` returns an error. -/
inductive DriveError where
  /-- "request at {offset} of {len} bytes is not aligned to the {block}-byte block
  size", or a transfer beyond the 32-bit block count. -/
  | not_blocks (req : Request)
  /-- "no path can take I/O: each is standby, unavailable or transitioning" -/
  | no_path
  /-- The transport cannot express the request. -/
  | check (io : Io)
  /-- "no path has room for a request" -/
  | no_room
  /-- "requests in flight on no path" -/
  | on_no_path
  /-- A command finished with an error. -/
  | status (done : Done)
  /-- A completion for a slot that is not there: an index out of range. -/
  | panic (tag : Nat)
deriving DecidableEq

/-- Where `drive` is: at the top of its loop, at the housekeeping, taking a request
in the send loop, sending the held one, waiting for a command, or done. -/
inductive Phase where
  | top
  | tick
  | fetch
  | send
  | wait
  | finished (result : Except DriveError Unit)

/-- A call of `drive`. The record of what it was offered and what it completed
is not in the code. -/
structure Drive (σ : Type) where
  pool : Pool σ
  mode : Mode
  held : Option (Nat × Request)
  exhausted : Bool
  phase : Phase
  /-- The requests the source offered, in order. -/
  offered : List Request
  /-- The place of each slot's request among them. -/
  slot_offer : List Nat
  /-- The calls of `complete`, each with the place of its request. -/
  completed : List (Nat × Nat × Request)

/-- What comes from outside with a step. -/
inductive Input (σ : Type) where
  /-- Nothing. -/
  | go
  /-- How connecting each path goes. -/
  | reconnect (opens : Nat → Attempt σ)
  /-- How each path's housekeeping goes. -/
  | ticks (ticks : Nat → Option σ)
  /-- What the source of a stream answers. -/
  | offer (next : Next)
  /-- The session after sending a command, if that went well. -/
  | submitted (session : Option σ)
  /-- The session after waiting and the command that finished, if that went well,
  and how long the command took. -/
  | polled (answer : Option (σ × Done)) (nanos : Nat)

/-- What the send loop makes of the held request. -/
inductive Choice where
  | refused (e : DriveError)
  /-- It waits for one in flight, or for room on a path. -/
  | later
  /-- No path is usable: sleep, and connect again. -/
  | sleep
  | submit (path : Nat) (io : Io)

namespace Drive

variable {σ : Type} (T : Transport σ)

def start (pool : Pool σ) (mode : Mode) : Drive σ :=
  { pool, mode, held := none, exhausted := false, phase := .top, offered := []
    slot_offer := List.replicate pool.slot_req.length 0, completed := [] }

/-- What becomes of a request in the send loop, and the pool after asking the
policy. -/
def choose (p : Pool σ) (req : Request) : Choice × Pool σ :=
  match drive_io req p.geometry.block_len.toNat with
  | none => (.refused (.not_blocks req), p)
  | some io =>
    if p.overlaps_in_flight req then (.later, p)
    else
      match p.path_with_room T (req.verify && !req.write) with
      | (none, p) =>
        if p.any_down then (.sleep, p)
        else if p.lanes.pick_available.1.isNone then
          (.refused .no_path, { p with lanes := p.lanes.pick_available.2 })
        else (.later, { p with lanes := p.lanes.pick_available.2 })
      | (some path, p) =>
        if (p.session path).all (T.check · io) then (.submit path io, p)
        else (.refused (.check io), p)

/-- Takes the next request of the source into a slot. -/
def take (d : Drive σ) (slot : Nat) (req : Request) : Drive σ :=
  { d with
    pool := { d.pool with slot_req := d.pool.slot_req.set slot req }
    held := some (slot, req)
    phase := .send
    offered := d.offered ++ [req]
    slot_offer := d.slot_offer.set slot d.offered.length }

/-- The send loop with nothing held: a request to send again, or the next of the
source. -/
def fetch (d : Drive σ) (input : Input σ) : Option (Drive σ) :=
  match d.pool.retry with
  | slot :: retry =>
    some { d with
      pool := { d.pool with retry }
      held := some (slot, d.pool.slot_req.getD slot Request.default)
      phase := .send }
  | [] =>
    if d.exhausted then some { d with phase := .wait }
    else
      match d.mode with
      | .execute requests =>
        match requests[d.offered.length]? with
        | some req => some (d.take d.offered.length req)
        | none => some { d with exhausted := true }
      | .stream =>
        match d.pool.free with
        | [] => some { d with phase := .wait }
        | slot :: free =>
          match input with
          | .offer (.request req) => some ({ d with pool := { d.pool with free } }.take slot req)
          | .offer .wait => some { d with phase := .wait }
          | .offer .done => some { d with exhausted := true }
          | _ => none

/-- The pool once a command is in flight. -/
def launched (p : Pool σ) (slot path : Nat) (session : σ) : Pool σ :=
  { p with
    sessions := p.sessions.set path (some session)
    slot_inflight := p.slot_inflight.set slot true
    slot_path := p.slot_path.set slot path
    in_flight := p.in_flight + 1 }

/-- The send loop with a request held. -/
def send (d : Drive σ) (slot : Nat) (req : Request) (input : Input σ) : Option (Drive σ) :=
  match choose T d.pool req with
  | (.refused e, pool) => some { d with pool, phase := .finished (.error e) }
  | (.later, pool) => some { d with pool, phase := .wait }
  | (.sleep, pool) =>
    match input with
    | .reconnect opens => some { d with pool := pool.try_reconnect T opens }
    | _ => none
  | (.submit path _, pool) =>
    match input with
    | .submitted none => some { d with pool := pool.disconnect path }
    | .submitted (some session) =>
      some { d with pool := launched pool slot path session, held := none, phase := .fetch }
    | _ => none

/-- The first path with a command in flight. -/
def busy_path (p : Pool σ) : Option Nat :=
  (List.range p.sessions.length).find? fun path =>
    (p.session path).any fun s => decide (0 < T.inflight s)

/-- A finished command: its request is complete, goes back on the retry list, or
fails the run. -/
def finish (d : Drive σ) (path : Nat) (session : σ) (done : Done) (nanos : Nat) : Drive σ :=
  let slot := done.tag
  let p : Pool σ := { d.pool with sessions := d.pool.sessions.set path (some session) }
  if p.slot_inflight.length ≤ slot then
    { d with pool := p, phase := .finished (.error (.panic slot)) }
  else
    let p := { p with
      slot_inflight := p.slot_inflight.set slot false
      in_flight := p.in_flight - 1 }
    let req := p.slot_req.getD slot Request.default
    if done.status = 0 then
      { d with
        pool := { p with
          lanes := p.lanes.record path nanos
          last_write_path := if req.write then some path else p.last_write_path
          free := if d.mode = .stream then slot :: p.free else p.free }
        phase := .top
        completed := d.completed ++ [(d.slot_offer.getD slot 0, slot, req)] }
    else if done.unavailable then
      { d with
        pool := { p with
          lanes := p.lanes.mark_unavailable path
          retry := slot :: p.retry }
        phase := .top }
    else { d with pool := p, phase := .finished (.error (.status done)) }

/-- After the send loop: done, or waiting for a command. -/
def wait (d : Drive σ) (input : Input σ) : Option (Drive σ) :=
  if d.pool.in_flight = 0 then
    if d.exhausted ∧ d.pool.retry = [] then some { d with phase := .finished (.ok ()) }
    else if d.held.isSome then some { d with phase := .finished (.error .no_room) }
    else some { d with phase := .top }
  else
    match busy_path T d.pool with
    | none => some { d with phase := .finished (.error .on_no_path) }
    | some path =>
      match input with
      | .polled none _ => some { d with pool := d.pool.disconnect path, phase := .top }
      | .polled (some (session, done)) nanos => some (d.finish path session done nanos)
      | _ => none

/-- One step of `drive`, if the input is what the step asks for. -/
def step (d : Drive σ) (input : Input σ) : Option (Drive σ) :=
  match d.phase with
  | .top =>
    match input with
    | .reconnect opens => some { d with pool := d.pool.try_reconnect T opens, phase := .tick }
    | _ => none
  | .tick =>
    match input with
    | .ticks ticks => some { d with pool := d.pool.tick_all ticks, phase := .fetch }
    | _ => none
  | .fetch =>
    match d.held with
    | none => d.fetch input
    | some _ => some { d with phase := .send }
  | .send =>
    match d.held with
    | none => some { d with phase := .fetch }
    | some (slot, req) => d.send T slot req input
  | .wait => d.wait T input
  | .finished _ => none

end Drive

end stutools
