-- The turns of the C engine's submit loop: what a request is when it is set up, all
-- that one turn can come to, and what every turn leaves alone, namely the
-- positions, slots and control blocks of the requests in flight.
import Mathlib.Data.List.GetD
import Stutools.SpitEngine

open memory

namespace stutools.spit.Engine

variable {rand_r : Nat → Nat × Nat} {c : Arguments} {s t u : Engine}

/-- The indices of the positions in flight. -/
def in_flight (s : Engine) : List Nat := flags.marked (s.positions.map (·.inFlight))

/-- The buffer of a control block is the one of the slot. -/
def Owns (s : Engine) (slot : Nat) (cb : iocb) : Prop :=
  cb.opcode = .pread ∨ cb.opcode = .pwrite → cb.buf = s.buffer slot ∧ cb.nbytes ≤ s.maxSize

/-- The control block asks for what the position says. -/
structure Describes (cb : iocb) (p : positionType) : Prop where
  read : cb.opcode = .pread ↔ p.action = 'R'
  write : cb.opcode = .pwrite ↔ p.action = 'W'
  extent : cb.opcode = .pread ∨ cb.opcode = .pwrite → cb.nbytes = p.len ∧ cb.offset = p.pos

/-! ## Positions -/

theorem position_put_self {i : Nat} {p : positionType} (h : i < s.positions.length) :
    (s.put i p).position i = p := by
  simp [position, put, h]

theorem position_put_ne {i j : Nat} {p : positionType} (h : i ≠ j) :
    (s.put i p).position j = s.position j := by
  unfold position put
  rw [List.getD_eq_getElem?_getD, List.getD_eq_getElem?_getD, List.getElem?_set_ne h]

theorem put_of_length_le {i : Nat} {p : positionType} (h : s.positions.length ≤ i) :
    s.put i p = s := by
  unfold put
  rw [List.set_eq_of_length_le h]

theorem position_eq_getElem {i : Nat} (h : i < s.positions.length) :
    s.position i = s.positions[i] :=
  List.getD_eq_getElem _ _ h

theorem position_mem {i : Nat} (h : i < s.positions.length) : s.position i ∈ s.positions := by
  rw [position_eq_getElem h]
  exact List.getElem_mem h

theorem mem_in_flight {i : Nat} : i ∈ s.in_flight ↔ (s.position i).inFlight = true := by
  unfold in_flight position
  rw [flags.mem_marked, List.getD_eq_getElem?_getD, List.getD_eq_getElem?_getD, List.getElem?_map]
  cases s.positions[i]? with
  | none => simp [default, positionType.zero]
  | some p => simp

theorem in_flight_put (s : Engine) (i : Nat) (p : positionType) :
    (s.put i p).in_flight = flags.marked ((s.positions.map (·.inFlight)).set i p.inFlight) := by
  unfold in_flight put
  rw [List.map_set]

theorem lt_of_in_flight {i : Nat} (h : (s.position i).inFlight = true) :
    i < s.positions.length := by
  have hlt := flags.lt_of_mem_marked (mem_in_flight.mpr h)
  simpa using hlt

/-! ## Steps that leave the requests alone -/

/-- What a run does not change in a position. Its action changes only between a read
and a write, in an alternating run. -/
structure Same (c : Arguments) (p p' : positionType) : Prop where
  pos : p'.pos = p.pos
  len : p'.len = p.len
  seed : p'.seed = p.seed
  action : p'.action = p.action ∨ c.alternateEvery ≠ 0 ∧ (p.action = 'R' ∨ p.action = 'W') ∧
    (p'.action = 'R' ∨ p'.action = 'W')
  verify : c.alternateEvery = 0 → p'.action = 'R' → p'.verify = p.verify

theorem Same.refl (c : Arguments) (p : positionType) : Same c p p :=
  ⟨rfl, rfl, rfl, Or.inl rfl, fun _ _ => rfl⟩

theorem Same.trans {p p' p'' : positionType} (h1 : Same c p p') (h2 : Same c p' p'') :
    Same c p p'' := by
  refine ⟨h2.pos.trans h1.pos, h2.len.trans h1.len, h2.seed.trans h1.seed, ?_, ?_⟩
  · obtain h2 | ⟨hc, hp', hp''⟩ := h2.action
    · rw [h2]
      exact h1.action
    · obtain h1 | ⟨-, hp, -⟩ := h1.action
      · rw [h1] at hp'
        exact Or.inr ⟨hc, hp', hp''⟩
      · exact Or.inr ⟨hc, hp, hp''⟩
  · intro hc hR
    obtain h2a | ⟨hne, -⟩ := h2.action
    · rw [h2.verify hc hR, h1.verify hc (h2a ▸ hR)]
    · exact absurd hc hne

/-- The engine has gone on without submitting or completing a request: what is in
flight is as it was. -/
structure Quiet (c : Arguments) (s t : Engine) : Prop where
  QD : t.QD = s.QD
  maxSize : t.maxSize = s.maxSize
  freeQueue : t.freeQueue = s.freeQueue
  headOfQueue : t.headOfQueue = s.headOfQueue
  tailOfQueue : t.tailOfQueue = s.tailOfQueue
  kernel : t.kernel = s.kernel
  submitted : t.submitted = s.submitted
  received : t.received = s.received
  inFlight : t.inFlight = s.inFlight
  checks : t.checks = s.checks
  readdata : t.readdata = s.readdata
  UUID : t.UUID = s.UUID
  length : t.positions.length = s.positions.length
  same : ∀ i, Same c (s.position i) (t.position i)
  flags : ∀ i, (t.position i).inFlight = (s.position i).inFlight
  flying : ∀ i, (s.position i).inFlight = true → t.position i = s.position i
  cbs_length : t.cbs.length = s.cbs.length
  cbs : ∀ r ∈ s.kernel, t.cbs.getD r.obj default = s.cbs.getD r.obj default

theorem Quiet.refl (c : Arguments) (s : Engine) : Quiet c s s :=
  ⟨rfl, rfl, rfl, rfl, rfl, rfl, rfl, rfl, rfl, rfl, rfl, rfl, rfl, fun _ => Same.refl c _,
    fun _ => rfl, fun _ _ => rfl, rfl, fun _ _ => rfl⟩

theorem Quiet.trans (h1 : Quiet c s t) (h2 : Quiet c t u) : Quiet c s u where
  QD := h2.QD.trans h1.QD
  maxSize := h2.maxSize.trans h1.maxSize
  freeQueue := h2.freeQueue.trans h1.freeQueue
  headOfQueue := h2.headOfQueue.trans h1.headOfQueue
  tailOfQueue := h2.tailOfQueue.trans h1.tailOfQueue
  kernel := h2.kernel.trans h1.kernel
  submitted := h2.submitted.trans h1.submitted
  received := h2.received.trans h1.received
  inFlight := h2.inFlight.trans h1.inFlight
  checks := h2.checks.trans h1.checks
  readdata := h2.readdata.trans h1.readdata
  UUID := h2.UUID.trans h1.UUID
  length := h2.length.trans h1.length
  same := fun i => (h1.same i).trans (h2.same i)
  flags := fun i => (h2.flags i).trans (h1.flags i)
  flying := fun i hi => (h2.flying i ((h1.flags i).trans hi)).trans (h1.flying i hi)
  cbs_length := h2.cbs_length.trans h1.cbs_length
  cbs := fun r hr => (h2.cbs r (h1.kernel ▸ hr)).trans (h1.cbs r hr)

theorem Quiet.in_flight (h : Quiet c s t) : t.in_flight = s.in_flight := by
  have hlen := h.length
  unfold Engine.in_flight
  congr 1
  apply List.ext_getElem
  · simpa using hlen
  · intro i h1 h2
    have hi := h.flags i
    rw [List.length_map] at h1 h2
    rw [position_eq_getElem h1, position_eq_getElem h2] at hi
    simpa using hi

/-- A position that is not in flight may change, but for what a run does not change. -/
theorem quiet_put {i : Nat} {p : positionType} (hi : (s.position i).inFlight = false)
    (hp : p.inFlight = false) (hsame : Same c (s.position i) p) : Quiet c s (s.put i p) := by
  by_cases hlt : i < s.positions.length
  · refine ⟨rfl, rfl, rfl, rfl, rfl, rfl, rfl, rfl, rfl, rfl, rfl, rfl, ?_, ?_, ?_, ?_, rfl,
      fun _ _ => rfl⟩
    · simp [put]
    · intro j
      by_cases hij : i = j
      · rw [← hij, position_put_self hlt]
        exact hsame
      · rw [position_put_ne hij]
        exact Same.refl c _
    · intro j
      by_cases hij : i = j
      · rw [← hij, position_put_self hlt, hp, hi]
      · rw [position_put_ne hij]
    · intro j hj
      refine position_put_ne fun hij => ?_
      rw [← hij, hi] at hj
      cases hj
  · rw [put_of_length_le (by omega)]
    exact Quiet.refl c s

/-- A field that has no part in the slots may change. -/
theorem quiet_of_eq (c : Arguments) (hpos : t.positions = s.positions) (hQD : t.QD = s.QD)
    (hmax : t.maxSize = s.maxSize) (hq : t.freeQueue = s.freeQueue)
    (hh : t.headOfQueue = s.headOfQueue) (ht : t.tailOfQueue = s.tailOfQueue)
    (hk : t.kernel = s.kernel) (hsub : t.submitted = s.submitted) (hrec : t.received = s.received)
    (hin : t.inFlight = s.inFlight) (hch : t.checks = s.checks) (hcbs : t.cbs = s.cbs)
    (hread : t.readdata = s.readdata) (huuid : t.UUID = s.UUID) : Quiet c s t := by
  have hat : ∀ i, t.position i = s.position i := fun i => by unfold position; rw [hpos]
  exact ⟨hQD, hmax, hq, hh, ht, hk, hsub, hrec, hin, hch, hread, huuid, by rw [hpos],
    fun i => by rw [hat i]; exact Same.refl c _, fun i => by rw [hat i], fun i _ => hat i,
    by rw [hcbs], fun _ _ => by rw [hcbs]⟩

theorem quiet_counters (c : Arguments) (s : Engine) (n : Nat) (phase : Phase)
    (count errors pos : Nat) : Quiet c s { s with
      submitthisround := n, phase := phase, count := count, ioerrors := errors, pos := pos } :=
  quiet_of_eq c rfl rfl rfl rfl rfl rfl rfl rfl rfl rfl rfl rfl rfl rfl

theorem quiet_prep {qdIndex : Nat} {cb : iocb} (h : ∀ r ∈ s.kernel, r.obj ≠ qdIndex) :
    Quiet c s (s.prep qdIndex cb) := by
  refine ⟨rfl, rfl, rfl, rfl, rfl, rfl, rfl, rfl, rfl, rfl, rfl, rfl, rfl, fun _ => Same.refl c _,
    fun _ => rfl, fun _ _ => rfl, by simp [prep], ?_⟩
  intro r hr
  unfold prep
  rw [List.getD_eq_getElem?_getD, List.getD_eq_getElem?_getD, List.getElem?_set_ne (h r hr).symm]

/-- Going on changes where the engine is, and nothing else. -/
theorem nextpos_eq (c : Arguments) (s : Engine) :
    ∃ pos phase, s.nextpos c = { s with pos := pos, phase := phase } := by
  unfold nextpos
  dsimp only
  split
  · exact ⟨_, _, rfl⟩
  · exact ⟨_, s.phase, rfl⟩

theorem quiet_nextpos (c : Arguments) (s : Engine) : Quiet c s (s.nextpos c) := by
  unfold nextpos
  dsimp only
  split <;> exact quiet_counters c _ _ _ _ _ _

theorem nextpos_pos (hs : 0 < s.positions.length) :
    (s.nextpos c).pos < (s.nextpos c).positions.length := by
  unfold nextpos
  dsimp only
  split <;> dsimp only <;> split <;> omega

theorem quiet_refill (qdIndex : Nat) (p : positionType) : Quiet c s (s.refill rand_r qdIndex p) := by
  unfold refill
  split
  · exact quiet_of_eq c rfl rfl rfl rfl rfl rfl rfl rfl rfl rfl rfl rfl rfl rfl
  · exact Quiet.refl c s

theorem quiet_encode (qdIndex pos : Nat) : Quiet c s (s.encode qdIndex pos) :=
  quiet_of_eq c rfl rfl rfl rfl rfl rfl rfl rfl rfl rfl rfl rfl rfl rfl

theorem quiet_forget {i : Nat} (hi : (s.position i).inFlight = false)
    (hW : (s.position i).action = 'W') : Quiet c s (s.forget i) := by
  unfold forget
  dsimp only
  split
  · refine quiet_put hi hi ⟨rfl, rfl, rfl, Or.inl rfl, fun _ hR => ?_⟩
    rw [hW] at hR
    cases hR
  · exact Quiet.refl c s

theorem quiet_trim (now done : ℚ≥0) (left : List UInt8)
    (h : (s.position s.pos).inFlight = false) : Quiet c s (s.trim c now done left) := by
  unfold trim
  split
  · have hdevice : Quiet c s { s with
        device := s.device.write (s.position s.pos).pos (left.take (s.position s.pos).len),
        writtenIOs := s.writtenIOs + 1 } :=
      quiet_of_eq c rfl rfl rfl rfl rfl rfl rfl rfl rfl rfl rfl rfl rfl rfl
    exact hdevice.trans (quiet_put h h ⟨rfl, rfl, rfl, Or.inl rfl, fun _ _ => rfl⟩)
  · exact Quiet.refl c s

/-! ## The set up of a request -/

/-- The slot at the head of the free queue. -/
def head_slot (s : Engine) : Nat := s.freeQueue.getD s.headOfQueue 0

variable (c) in
/-- The position that is set up, with its slot and after the swap of its action. -/
def taken (s : Engine) : positionType := s.alternate c { s.position s.pos with q := s.head_slot }

variable (c) in
def taken_put (s : Engine) : Engine := s.put s.pos (s.taken c)

variable (rand_r c) in
/-- The engine with a read set up. -/
def read_ready (s : Engine) : Engine :=
  let t := s.taken_put c
  let t := if c.stringcompare then t.refill rand_r s.head_slot (s.taken c) else t
  t.prep s.head_slot
    ⟨.pread, t.buffer s.head_slot, (s.taken c).len, (s.taken c).pos, s.pos⟩

variable (c) in
def flush_ready (s : Engine) : Engine :=
  (s.taken_put c).prep s.head_slot ⟨.fsync, 0, 0, 0, s.pos⟩

variable (rand_r c) in
/-- The engine with a write set up. -/
def write_ready (s : Engine) : Engine :=
  let t := (s.taken_put c).refill rand_r s.head_slot (s.taken c)
  let t := (t.encode s.head_slot (s.taken c).pos).forget s.pos
  t.prep s.head_slot
    ⟨.pwrite, t.buffer s.head_slot, (s.taken c).len, (s.taken c).pos, s.pos⟩

/-- A request that is set up: a read, a flush or a write. -/
inductive Ready (rand_r : Nat → Nat × Nat) (c : Arguments) (s : Engine) : Engine → Prop
  | read : (s.taken c).action = 'R' → Ready rand_r c s (s.read_ready rand_r c)
  | flush : (s.taken c).action = 'F' → Ready rand_r c s (s.flush_ready c)
  | write : (s.taken c).action = 'W' → Ready rand_r c s (s.write_ready rand_r c)

theorem prepare_eq (rand_r : Nat → Nat × Nat) (c : Arguments) (s : Engine) :
    s.prepare rand_r c =
      if (s.taken c).action = 'D' then .abort
      else if (s.taken c).action = 'R' then
        if (s.read_ready rand_r c).past_limit c (s.taken c).len then
          .endoffunction (s.read_ready rand_r c)
        else .io_submit (s.read_ready rand_r c)
      else if (s.taken c).action = 'F' then .io_submit (s.flush_ready c)
      else if (s.taken c).action = 'W' then
        if (s.write_ready rand_r c).past_limit c (s.taken c).len then
          .endoffunction (s.write_ready rand_r c)
        else .io_submit (s.write_ready rand_r c)
      else if (s.taken c).action = 'P' then
        if s.inFlight > 0 then
          .nextpos { s.taken_put c with pos := (s.pos + (2 ^ 64 - 1)) % 2 ^ 64 }
        else .nextpos (s.taken_put c)
      else .nextpos (s.taken_put c) := rfl

/-- An action that asks for no request. -/
def Skipped (action : Char) : Prop := action ≠ 'R' ∧ action ≠ 'F' ∧ action ≠ 'W'

theorem past_limit_congr (htotal : t.totalWriteSubmit = s.totalWriteSubmit)
    (htotal' : t.totalReadSubmit = s.totalReadSubmit) (len : Nat) :
    t.past_limit c len = s.past_limit c len := by
  unfold past_limit
  rw [htotal, htotal']

theorem read_ready_past_limit (rand_r : Nat → Nat × Nat) (c : Arguments) (s : Engine) (len : Nat) :
    (s.read_ready rand_r c).past_limit c len = s.past_limit c len := by
  unfold read_ready refill
  dsimp only
  split
  · split <;> exact past_limit_congr rfl rfl len
  · exact past_limit_congr rfl rfl len

theorem write_ready_past_limit (rand_r : Nat → Nat × Nat) (c : Arguments) (s : Engine) (len : Nat) :
    (s.write_ready rand_r c).past_limit c len = s.past_limit c len := by
  unfold write_ready forget refill
  dsimp only
  split <;> split <;> exact past_limit_congr rfl rfl len

/-- All that a preparation can come to. -/
theorem prepare_cases (rand_r : Nat → Nat × Nat) (c : Arguments) (s : Engine) :
    s.prepare rand_r c = .abort ∨
    (∃ t, s.prepare rand_r c = .endoffunction t ∧ Ready rand_r c s t) ∨
    (∃ pos, s.prepare rand_r c = .nextpos { s.taken_put c with pos := pos } ∧
      Skipped (s.taken c).action ∧ (pos = s.pos ∨ s.inFlight > 0)) ∨
    ∃ t, s.prepare rand_r c = .io_submit t ∧ Ready rand_r c s t ∧
      ((s.taken c).action ≠ 'F' → s.past_limit c (s.taken c).len = false) := by
  have hread := @Ready.read rand_r c s
  have hflush := @Ready.flush rand_r c s
  have hwrite := @Ready.write rand_r c s
  have hrlimit := read_ready_past_limit rand_r c s (s.taken c).len
  have hwlimit := write_ready_past_limit rand_r c s (s.taken c).len
  rw [prepare_eq]
  -- the three engines are only named below, so that the branches stay small
  generalize s.read_ready rand_r c = r at hread hrlimit ⊢
  generalize s.flush_ready c = f at hflush ⊢
  generalize s.write_ready rand_r c = w at hwrite hwlimit ⊢
  generalize (s.taken c).action = action at hread hflush hwrite ⊢
  by_cases hD : action = 'D'
  · exact Or.inl (if_pos hD)
  rw [if_neg hD]
  by_cases hR : action = 'R'
  · rw [if_pos hR]
    by_cases hpast : r.past_limit c (s.taken c).len
    · exact Or.inr (Or.inl ⟨r, if_pos hpast, hread hR⟩)
    · refine Or.inr (Or.inr (Or.inr ⟨r, if_neg hpast, hread hR, fun _ => ?_⟩))
      rw [← hrlimit]
      simpa using hpast
  rw [if_neg hR]
  by_cases hF : action = 'F'
  · exact Or.inr (Or.inr (Or.inr ⟨f, if_pos hF, hflush hF, fun hne => absurd hF hne⟩))
  rw [if_neg hF]
  by_cases hW : action = 'W'
  · rw [if_pos hW]
    by_cases hpast : w.past_limit c (s.taken c).len
    · exact Or.inr (Or.inl ⟨w, if_pos hpast, hwrite hW⟩)
    · refine Or.inr (Or.inr (Or.inr ⟨w, if_neg hpast, hwrite hW, fun _ => ?_⟩))
      rw [← hwlimit]
      simpa using hpast
  rw [if_neg hW]
  refine Or.inr (Or.inr (Or.inl ?_))
  by_cases hP : action = 'P'
  · rw [if_pos hP]
    by_cases hfly : s.inFlight > 0
    · exact ⟨_, if_pos hfly, ⟨hR, hF, hW⟩, Or.inr hfly⟩
    · exact ⟨s.pos, if_neg hfly, ⟨hR, hF, hW⟩, Or.inl rfl⟩
  · exact ⟨s.pos, if_neg hP, ⟨hR, hF, hW⟩, Or.inl rfl⟩

/-- The engine once it has counted the position of a turn. -/
def begun (s : Engine) : Engine := { s with submitthisround := s.submitthisround + 1 }

/-- A turn may go on to a request: a slot is free, and the position is not in flight. -/
structure Open (s : Engine) : Prop where
  free : s.inFlight < s.QD
  idle : (s.position s.pos).inFlight = false

/-- The turn goes on to a request for the position at hand. -/
def Prepares (c : Arguments) (a : Answers) (s : Engine) : Prop :=
  (s.inFlight < s.QD ∧ a.keepRunning = true) ∧ ¬ (c.checkTime = true ∧ a.late = true) ∧
    (s.position s.pos).inFlight = false ∧ s.submitthisround + 1 ≤ c.QDmin ∧
    (s.position s.pos).action ≠ 'S' ∧ (s.position s.pos).action ≠ 'T' ∧ 0 ≤ c.fd

instance (c : Arguments) (a : Answers) (s : Engine) : Decidable (s.Prepares c a) :=
  inferInstanceAs (Decidable (_ ∧ _))

/-- The request of the turn, if there is one, is submitted. -/
def Submits (c : Arguments) (a : Answers) (s : Engine) : Prop :=
  s.Prepares c a ∧ ((s.taken c).action ≠ 'F' → s.past_limit c (s.taken c).len = false) ∧ a.ret = 1

instance (c : Arguments) (a : Answers) (s : Engine) : Decidable (s.Submits c a) :=
  inferInstanceAs (Decidable (_ ∧ _))

/-- All that one turn of the submit loop can come to. -/
inductive Turn (rand_r : Nat → Nat × Nat) (c : Arguments) (a : Answers) (s : Engine) :
    Engine → Prop
  | stop (n : Nat) (phase : Phase) :
      Turn rand_r c a s { s with submitthisround := n, phase := phase }
  | pass (n : Nat) : (s.position s.pos).inFlight = true ∨ (s.position s.pos).action = 'S' ∨ c.fd < 0 →
      Turn rand_r c a s (nextpos c { s with submitthisround := n })
  | trim : s.Open → (s.position s.pos).action = 'T' →
      Turn rand_r c a s ((s.begun.trim c a.now a.done a.left).nextpos c)
  | skip (pos : Nat) : s.Open → Skipped (s.taken c).action → pos = s.pos ∨ s.inFlight > 0 →
      Turn rand_r c a s (nextpos c { s.begun.taken_put c with pos := pos })
  | limit {u : Engine} : s.Open → Ready rand_r c s.begun u → s.Prepares c a →
      Turn rand_r c a s { u with phase := .drain }
  | refuse {u : Engine} : s.Open → Ready rand_r c s.begun u → a.ret ≠ 1 → s.Prepares c a →
      Turn rand_r c a s (u.refused.nextpos c)
  | give_up {u : Engine} : s.Open → Ready rand_r c s.begun u → a.ret ≠ 1 → s.Prepares c a →
      Turn rand_r c a s { u.refused with phase := .drain }
  | accept {u : Engine} : s.Open → Ready rand_r c s.begun u → s.Submits c a →
      Turn rand_r c a s ((u.accepted a.now).nextpos c)

/-- The end of a turn that has gone on to a request. -/
def finish_turn (c : Arguments) (a : Answers) (s : Engine) : Prepared → Engine
  | .abort => { s with phase := .aborted }
  | .endoffunction u => { u with phase := .drain }
  | .nextpos u => u.nextpos c
  | .io_submit u =>
    if a.ret = 1 then (u.accepted a.now).nextpos c
    else if u.refused.too_many_errors c then { u.refused with phase := .drain }
    else u.refused.nextpos c

theorem submit_turn_eq (rand_r : Nat → Nat × Nat) (c : Arguments) (s : Engine) (a : Answers) :
    s.submit_turn rand_r c a =
      if ¬ (s.inFlight < s.QD ∧ a.keepRunning) then { s with phase := .poll }
      else if c.checkTime ∧ a.late then { s with phase := .drain }
      else if (s.position s.pos).inFlight then s.nextpos c
      else if s.submitthisround + 1 > c.QDmin then { s.begun with phase := .poll }
      else if (s.position s.pos).action = 'S' then s.begun.nextpos c
      else if (s.position s.pos).action = 'T' then
        (s.begun.trim c a.now a.done a.left).nextpos c
      else if c.fd < 0 then s.begun.nextpos c
      else finish_turn c a s.begun (s.begun.prepare rand_r c) := by
  unfold submit_turn finish_turn
  rfl

theorem finish_turn_cases {a : Answers} (hopen : s.Open) (hprepares : s.Prepares c a) :
    Turn rand_r c a s (finish_turn c a s.begun (s.begun.prepare rand_r c)) := by
  obtain h | ⟨u, h, hu⟩ | ⟨pos, h, hskip, hpos⟩ | ⟨u, h, hu, hlimit⟩ := prepare_cases rand_r c s.begun
  · rw [h]
    exact .stop (s.submitthisround + 1) .aborted
  · rw [h]
    exact .limit hopen hu hprepares
  · rw [h]
    exact .skip pos hopen hskip hpos
  · rw [h]
    unfold finish_turn
    dsimp only
    split
    · rename_i hret
      exact .accept hopen hu ⟨hprepares, hlimit, hret⟩
    · rename_i hret
      split
      · exact .give_up hopen hu hret hprepares
      · exact .refuse hopen hu hret hprepares

theorem submit_turn_cases (rand_r : Nat → Nat × Nat) (c : Arguments) (s : Engine) (a : Answers) :
    Turn rand_r c a s (s.submit_turn rand_r c a) := by
  have hfinish := fun hopen => @finish_turn_cases rand_r c s a hopen
  rw [submit_turn_eq]
  by_cases hgo : s.inFlight < s.QD ∧ a.keepRunning
  · rw [if_neg (not_not_intro hgo)]
    by_cases hlate : c.checkTime ∧ a.late
    · rw [if_pos hlate]
      exact .stop s.submitthisround .drain
    rw [if_neg hlate]
    by_cases hfly : (s.position s.pos).inFlight
    · rw [if_pos hfly]
      exact .pass s.submitthisround (Or.inl hfly)
    rw [if_neg hfly]
    have hopen : s.Open := ⟨hgo.1, by simpa using hfly⟩
    by_cases hround : s.submitthisround + 1 > c.QDmin
    · rw [if_pos hround]
      exact .stop (s.submitthisround + 1) .poll
    rw [if_neg hround]
    by_cases hS : (s.position s.pos).action = 'S'
    · rw [if_pos hS]
      exact .pass (s.submitthisround + 1) (Or.inr (Or.inl hS))
    rw [if_neg hS]
    by_cases hT : (s.position s.pos).action = 'T'
    · rw [if_pos hT]
      exact .trim hopen hT
    rw [if_neg hT]
    by_cases hfd : c.fd < 0
    · rw [if_pos hfd]
      exact .pass (s.submitthisround + 1) (Or.inr (Or.inr hfd))
    · rw [if_neg hfd]
      have hidle : (s.position s.pos).inFlight = false := by simpa using hfly
      exact hfinish hopen ⟨hgo, hlate, hidle, by omega, hS, hT, by omega⟩
  · rw [if_pos hgo]
    exact .stop s.submitthisround .poll

/-- All that one step can come to. -/
inductive Moves (rand_r : Nat → Nat × Nat) (c : Arguments) (s : Engine) : Input → Engine → Prop
  | turn (keepRunning due : Bool) (n : Nat) (phase : Phase) :
      Moves rand_r c s (.turn keepRunning due) { s with submitthisround := n, phase := phase }
  | submit {a : Answers} {t : Engine} : Turn rand_r c a s t → Moves rand_r c s (.submit a) t
  | receive {now : ℚ≥0} {events : List io_event} {t : Engine} :
      s.receive_all c now events = some t → Moves rand_r c s (.events now events) t
  | drain {now : ℚ≥0} {events : List io_event} {t : Engine} :
      s.drain_turn c now events = some t → Moves rand_r c s (.events now events) t
  | perform {obj : Nat} {t : Engine} : s.perform obj = some t → Moves rand_r c s (.perform obj) t

theorem step_moves {input : Input} (h : s.step rand_r c input = some t) :
    Moves rand_r c s input t := by
  unfold step at h
  split at h
  · rename_i keepRunning due _
    split at h
    · split at h
      · obtain rfl := Option.some.inj h
        exact .turn keepRunning due 0 .submit
      · obtain rfl := Option.some.inj h
        exact .turn keepRunning due s.submitthisround .poll
    · obtain rfl := Option.some.inj h
      exact .turn keepRunning due s.submitthisround .drain
  · rename_i a _
    obtain rfl := Option.some.inj h
    exact .submit (submit_turn_cases rand_r c s a)
  · exact .receive h
  · exact .drain h
  · exact .perform h
  · cases h

/-! ## What a set up request is -/

/-- The swap changes the action and what is verified, and nothing else. -/
theorem alternate_eq (c : Arguments) (s : Engine) (p : positionType) :
    ∃ action verify, s.alternate c p = { p with action := action, verify := verify } := by
  unfold alternate
  split
  · split
    · exact ⟨_, _, rfl⟩
    · split
      · exact ⟨_, _, rfl⟩
      · exact ⟨_, _, rfl⟩
  · exact ⟨_, _, rfl⟩

theorem taken_eq (c : Arguments) (s : Engine) : ∃ action verify, s.taken c =
    { s.position s.pos with q := s.head_slot, action := action, verify := verify } :=
  alternate_eq c s _

theorem alternate_same (c : Arguments) (s : Engine) (p : positionType) :
    Same c p (s.alternate c p) := by
  unfold alternate
  split
  · rename_i hc
    split
    · rename_i hR
      exact ⟨rfl, rfl, rfl, Or.inr ⟨hc.1, Or.inl hR, Or.inr rfl⟩, fun h => absurd h hc.1⟩
    · split
      · rename_i hW
        exact ⟨rfl, rfl, rfl, Or.inr ⟨hc.1, Or.inr hW, Or.inl rfl⟩, fun h => absurd h hc.1⟩
      · exact Same.refl c p
  · exact Same.refl c p

theorem taken_same (c : Arguments) (s : Engine) : Same c (s.position s.pos) (s.taken c) :=
  @Same.trans c _ { s.position s.pos with q := s.head_slot } _
    ⟨rfl, rfl, rfl, Or.inl rfl, fun _ _ => rfl⟩ (alternate_same c s _)

theorem taken_inFlight (c : Arguments) (s : Engine) :
    (s.taken c).inFlight = (s.position s.pos).inFlight := by
  obtain ⟨_, _, h⟩ := taken_eq c s
  rw [h]

theorem taken_q (c : Arguments) (s : Engine) : (s.taken c).q = s.head_slot := by
  obtain ⟨_, _, h⟩ := taken_eq c s
  rw [h]

theorem quiet_begun (s : Engine) : Quiet c s s.begun :=
  quiet_counters c _ _ _ _ _ _

theorem quiet_taken_put (h : (s.position s.pos).inFlight = false) : Quiet c s (s.taken_put c) :=
  quiet_put h ((taken_inFlight c s).trans h) (taken_same c s)

namespace Ready

theorem refill_pos (s : Engine) (qdIndex : Nat) (p : positionType) :
    (s.refill rand_r qdIndex p).pos = s.pos := by
  unfold refill
  split <;> rfl

theorem refill_positions (s : Engine) (qdIndex : Nat) (p : positionType) :
    (s.refill rand_r qdIndex p).positions = s.positions := by
  unfold refill
  split <;> rfl

/-- The position set up is the one taken. -/
theorem refill_position (hpos : s.pos < s.positions.length) :
    ((s.taken_put c).refill rand_r s.head_slot (s.taken c)).position s.pos = s.taken c := by
  have hput : (s.taken_put c).position s.pos = s.taken c := position_put_self hpos
  unfold position at hput ⊢
  rw [refill_positions]
  exact hput

theorem quiet (hu : Ready rand_r c s u) (hpos : s.pos < s.positions.length)
    (hidle : (s.position s.pos).inFlight = false)
    (hfree : ∀ r ∈ s.kernel, r.obj ≠ s.head_slot) : Quiet c s u := by
  have hput : Quiet c s (s.taken_put c) := quiet_taken_put hidle
  have hfill : Quiet c s ((s.taken_put c).refill rand_r s.head_slot (s.taken c)) :=
    hput.trans (quiet_refill _ _)
  cases hu with
  | read =>
    have ht : Quiet c s (if c.stringcompare then
        (s.taken_put c).refill rand_r s.head_slot (s.taken c) else s.taken_put c) := by
      split
      · exact hfill
      · exact hput
    exact ht.trans (quiet_prep fun r hr => hfree r (ht.kernel ▸ hr))
  | flush => exact hput.trans (quiet_prep fun r hr => hfree r hr)
  | write hW =>
    have hencode := hfill.trans (quiet_encode s.head_slot (s.taken c).pos)
    have haction : (((s.taken_put c).refill rand_r s.head_slot (s.taken c)).position s.pos).action =
        'W' := by
      rw [refill_position hpos]
      exact hW
    have ht := hencode.trans (quiet_forget ((hencode.flags s.pos).trans hidle) haction)
    exact ht.trans (quiet_prep fun r hr => hfree r (ht.kernel ▸ hr))

theorem forget_pos (s : Engine) (i : Nat) : (s.forget i).pos = s.pos := by
  unfold forget
  dsimp only
  split <;> rfl

theorem pos (hu : Ready rand_r c s u) : u.pos = s.pos := by
  cases hu with
  | read =>
    change Engine.pos (if c.stringcompare then
      (s.taken_put c).refill rand_r s.head_slot (s.taken c) else s.taken_put c) = s.pos
    split
    · exact refill_pos _ _ _
    · rfl
  | flush => rfl
  | write => exact (forget_pos _ _).trans (refill_pos _ _ _)

/-- The position set up is the one taken, but that a write may forget what it verifies. -/
theorem position (hu : Ready rand_r c s u) (hpos : s.pos < s.positions.length) :
    ∃ verify, u.position s.pos = { s.taken c with verify := verify } := by
  have hput : (s.taken_put c).position s.pos = s.taken c := position_put_self hpos
  have hfill := @refill_position rand_r c s hpos
  cases hu with
  | read =>
    change ∃ verify, (if c.stringcompare then (s.taken_put c).refill rand_r s.head_slot (s.taken c)
      else s.taken_put c).position s.pos = { s.taken c with verify := verify }
    split
    · exact ⟨_, hfill⟩
    · exact ⟨_, hput⟩
  | flush => exact ⟨_, hput⟩
  | write =>
    change ∃ verify, (forget (encode _ s.head_slot (s.taken c).pos) s.pos).position s.pos =
      { s.taken c with verify := verify }
    have hencode : (encode ((s.taken_put c).refill rand_r s.head_slot (s.taken c)) s.head_slot
        (s.taken c).pos).position s.pos = s.taken c := hfill
    unfold forget
    dsimp only
    rw [hencode]
    split
    · refine ⟨0, position_put_self ?_⟩
      change s.pos < (refill rand_r _ _ _).positions.length
      rw [refill_positions]
      simpa [taken_put, put] using hpos
    · exact ⟨_, hencode⟩

/-- A request that is set up changes one position, and nothing of the device. -/
theorem rest (hu : Ready rand_r c s u) :
    (∃ p, u.positions = s.positions.set s.pos p) ∧ u.device = s.device := by
  have hrefill : ((s.taken_put c).refill rand_r s.head_slot (s.taken c)).positions =
      s.positions.set s.pos (s.taken c) := refill_positions _ _ _
  have hdevice : ((s.taken_put c).refill rand_r s.head_slot (s.taken c)).device = s.device := by
    unfold refill
    split <;> rfl
  cases hu with
  | read =>
    change (∃ p, Engine.positions (if c.stringcompare then
        (s.taken_put c).refill rand_r s.head_slot (s.taken c) else s.taken_put c) = _) ∧
      Engine.device (if c.stringcompare then
        (s.taken_put c).refill rand_r s.head_slot (s.taken c) else s.taken_put c) = _
    split
    · exact ⟨⟨_, hrefill⟩, hdevice⟩
    · exact ⟨⟨_, rfl⟩, rfl⟩
  | flush => exact ⟨⟨_, rfl⟩, rfl⟩
  | write =>
    change (∃ p, (forget (encode _ s.head_slot (s.taken c).pos) s.pos).positions = _) ∧
      (forget (encode _ s.head_slot (s.taken c).pos) s.pos).device = _
    unfold forget
    dsimp only
    split
    · have hset : ∀ p, ((s.taken_put c).refill rand_r s.head_slot (s.taken c)).positions.set s.pos p =
          s.positions.set s.pos p := by
        intro p
        rw [hrefill, List.set_set]
      exact ⟨⟨_, hset _⟩, hdevice⟩
    · exact ⟨⟨_, hrefill⟩, hdevice⟩

theorem position_ne (hu : Ready rand_r c s u) {i : Nat} (hi : s.pos ≠ i) :
    u.position i = s.position i := by
  obtain ⟨⟨p, hp⟩, -⟩ := hu.rest
  have hput : u.position i = (s.put s.pos p).position i := congrArg (fun l => l.getD i default) hp
  rw [hput, position_put_ne hi]

theorem finishTime (hu : Ready rand_r c s u) (hpos : s.pos < s.positions.length) (i : Nat) :
    (u.position i).finishTime = (s.position i).finishTime := by
  by_cases hi : s.pos = i
  · subst hi
    obtain ⟨verify, h⟩ := hu.position hpos
    obtain ⟨action, verify', htaken⟩ := taken_eq c s
    rw [h, htaken]
  · rw [hu.position_ne hi]

/-- The position set up names the slot. -/
theorem q (hu : Ready rand_r c s u) (hpos : s.pos < s.positions.length) :
    (u.position s.pos).q = s.head_slot := by
  obtain ⟨verify, h⟩ := hu.position hpos
  rw [h]
  exact taken_q c s

/-- The control block of the slot is the position's. -/
theorem block (hu : Ready rand_r c s u) (hpos : s.pos < s.positions.length)
    (hslot : s.head_slot < s.cbs.length) (hcbs : u.cbs.length = s.cbs.length)
    (hmax : u.maxSize = s.maxSize) (hlen : (s.position s.pos).len ≤ s.maxSize) :
    (u.cbs.getD s.head_slot default).data = s.pos ∧
      Describes (u.cbs.getD s.head_slot default) (u.position s.pos) ∧
      u.Owns s.head_slot (u.cbs.getD s.head_slot default) := by
  have hset : ∀ (t : Engine) (cb : iocb), (t.prep s.head_slot cb).cbs.length = s.cbs.length →
      (t.prep s.head_slot cb).cbs.getD s.head_slot default = cb := by
    intro t cb hlen
    unfold prep at hlen ⊢
    rw [List.length_set] at hlen
    simp [hlen, hslot]
  have hnbytes : (s.taken c).len ≤ u.maxSize := by
    rw [(taken_same c s).len, hmax]
    exact hlen
  obtain ⟨verify, hposition⟩ := hu.position hpos
  rw [hposition]
  clear hposition
  cases hu with
  | read hR =>
    unfold read_ready at hcbs hnbytes ⊢
    dsimp only at hcbs hnbytes ⊢
    rw [hset _ _ hcbs]
    exact ⟨rfl, ⟨by simp [hR], by simp [hR], fun _ => ⟨rfl, rfl⟩⟩, fun _ => ⟨rfl, hnbytes⟩⟩
  | flush hF =>
    unfold flush_ready at hcbs ⊢
    rw [hset _ _ hcbs]
    exact ⟨rfl, ⟨by simp [hF], by simp [hF], fun hop => by simp at hop⟩, fun hop => by simp at hop⟩
  | write hW =>
    unfold write_ready at hcbs hnbytes ⊢
    dsimp only at hcbs hnbytes ⊢
    rw [hset _ _ hcbs]
    exact ⟨rfl, ⟨by simp [hW], by simp [hW], fun _ => ⟨rfl, rfl⟩⟩, fun _ => ⟨rfl, hnbytes⟩⟩

end Ready

end stutools.spit.Engine
