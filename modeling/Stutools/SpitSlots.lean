-- The slots of the C engine: each one is free, in the ring that is the free
-- queue, or held by the one position in flight that names it. A request keeps its
-- control block and its buffers until its completion has been handled.
import Stutools.SpitTurns

open memory

namespace stutools.spit.Engine

variable {rand_r : Nat → Nat × Nat} {c : Arguments} {s t u : Engine}

/-- The segment of the free queue from its head on, as long as there are slots that
no request holds. -/
def free_slots (s : Engine) : List Nat :=
  ring.window s.freeQueue 0 s.headOfQueue (s.QD - s.kernel.length)

/-- What holds of the slots whenever no completion is half handled. -/
structure Held (s : Engine) : Prop where
  queue : s.freeQueue.length = s.QD
  blocks : s.cbs.length = s.QD
  fits : ∀ p ∈ s.positions, p.len ≤ s.maxSize
  head : s.headOfQueue < s.QD
  tail : s.tailOfQueue = (s.headOfQueue + (s.QD - s.kernel.length)) % s.QD
  slots : (s.free_slots ++ s.kernel.map Request.obj).Perm (List.range s.QD)
  flagged : s.in_flight.Perm (s.kernel.map fun r => r.cb.data)
  named : ∀ r ∈ s.kernel, (s.position r.cb.data).q = r.obj
  described : ∀ r ∈ s.kernel, Describes r.cb (s.position r.cb.data)
  kept : ∀ r ∈ s.kernel, s.cbs.getD r.obj default = r.cb
  buffers : ∀ r ∈ s.kernel, s.Owns r.obj r.cb
  counted : s.submitted = s.received + s.kernel.length
  checked : ∀ k ∈ s.checks, k.index = k.request.cb.data ∧ k.q = k.request.obj ∧
    s.Owns k.q k.request.cb

theorem Held.quiet (hs : s.Held) (h : Quiet c s t) : t.Held where
  queue := by rw [h.freeQueue, h.QD]; exact hs.queue
  blocks := by rw [h.cbs_length, h.QD]; exact hs.blocks
  fits := by
    intro p hp
    obtain ⟨i, hi, rfl⟩ := List.getElem_of_mem hp
    have hlens := (h.same i).len
    have hi' : i < s.positions.length := h.length ▸ hi
    rw [position_eq_getElem hi, position_eq_getElem hi'] at hlens
    rw [hlens, h.maxSize]
    exact hs.fits _ (List.getElem_mem hi')
  head := by rw [h.headOfQueue, h.QD]; exact hs.head
  tail := by rw [h.tailOfQueue, h.headOfQueue, h.QD, h.kernel]; exact hs.tail
  slots := by
    unfold free_slots
    rw [h.freeQueue, h.headOfQueue, h.QD, h.kernel]
    exact hs.slots
  flagged := by rw [h.in_flight, h.kernel]; exact hs.flagged
  named := by
    intro r hr
    rw [h.kernel] at hr
    have hfly : r.cb.data ∈ s.in_flight := hs.flagged.mem_iff.mpr (List.mem_map_of_mem hr)
    rw [h.flying _ (mem_in_flight.mp hfly)]
    exact hs.named r hr
  described := by
    intro r hr
    rw [h.kernel] at hr
    have hfly : r.cb.data ∈ s.in_flight := hs.flagged.mem_iff.mpr (List.mem_map_of_mem hr)
    rw [h.flying _ (mem_in_flight.mp hfly)]
    exact hs.described r hr
  kept := by
    intro r hr
    rw [h.kernel] at hr
    rw [h.cbs r hr]
    exact hs.kept r hr
  buffers := by
    intro r hr hop
    rw [h.kernel] at hr
    unfold buffer
    rw [h.maxSize]
    exact hs.buffers r hr hop
  counted := by rw [h.submitted, h.received, h.kernel]; exact hs.counted
  checked := by
    intro k hk
    rw [h.checks] at hk
    obtain ⟨h1, h2, h3⟩ := hs.checked k hk
    refine ⟨h1, h2, fun hop => ?_⟩
    unfold buffer
    rw [h.maxSize]
    exact h3 hop

/-! ## Submission -/

theorem Held.length_le (hs : s.Held) : s.kernel.length ≤ s.QD := by
  have h := hs.slots.length_eq
  rw [List.length_append, List.length_map, List.length_range] at h
  omega

/-- With a slot to spare, the slot at the head of the queue is held by no request. -/
theorem Held.head_free (hs : s.Held) (h : s.kernel.length < s.QD) :
    s.head_slot < s.QD ∧ ∀ r ∈ s.kernel, r.obj ≠ s.head_slot := by
  obtain ⟨k, hk⟩ : ∃ k, s.QD - s.kernel.length = k + 1 := ⟨s.QD - s.kernel.length - 1, by omega⟩
  have hwin : s.free_slots = s.head_slot ::
      ring.window (s.freeQueue.set s.headOfQueue 0) 0 (ring.next s.freeQueue.length s.headOfQueue) k := by
    unfold free_slots
    rw [hk, ring.window_take 0 0 (by rw [hs.queue]; exact hs.head) (by rw [hs.queue]; omega)]
    rfl
  have hslots := hs.slots
  rw [hwin, List.cons_append] at hslots
  have hnodup := hslots.nodup_iff.mpr List.nodup_range
  constructor
  · exact List.mem_range.mp (hslots.subset List.mem_cons_self)
  · intro r hr heq
    have hnot := (List.nodup_cons.mp hnodup).1
    exact hnot (List.mem_append_right _ (heq ▸ List.mem_map_of_mem hr))

/-- A request that the kernel accepts takes the slot at the head of the queue. -/
theorem Held.accepted (hs : s.Held) (now : ℚ≥0) (hk : s.kernel.length < s.QD)
    (hpos : s.pos < s.positions.length) (hidle : (s.position s.pos).inFlight = false)
    (hq : (s.position s.pos).q = s.head_slot)
    (hdata : (s.cbs.getD s.head_slot default).data = s.pos)
    (hdescribes : Describes (s.cbs.getD s.head_slot default) (s.position s.pos))
    (howns : s.Owns s.head_slot (s.cbs.getD s.head_slot default)) : (s.accepted now).Held := by
  obtain ⟨k, hkk⟩ : ∃ k, s.QD - s.kernel.length = k + 1 := ⟨s.QD - s.kernel.length - 1, by omega⟩
  have hkk' : s.QD - (s.kernel.length + 1) = k := by omega
  have hne : ∀ r ∈ s.kernel, s.pos ≠ r.cb.data := by
    intro r hr heq
    have hfly := mem_in_flight.mp (hs.flagged.mem_iff.mpr (List.mem_map_of_mem hr))
    rw [← heq, hidle] at hfly
    cases hfly
  have hold : ∀ r ∈ s.kernel, (s.accepted now).position r.cb.data = s.position r.cb.data :=
    fun r hr => position_put_ne (hne r hr)
  have hnew : (s.accepted now).position s.pos =
      { s.position s.pos with submitTime := now, finishTime := 0, inFlight := true } :=
    position_put_self hpos
  refine
    { queue := ?_, blocks := hs.blocks, fits := ?_, head := ring.next_lt hs.head, tail := ?_,
      slots := ?_, flagged := ?_, named := ?_, described := ?_, kept := ?_, buffers := ?_,
      counted := ?_, checked := hs.checked }
  · change (s.freeQueue.set _ _).length = s.QD
    rw [List.length_set]
    exact hs.queue
  · intro p hp
    obtain hp | rfl := List.mem_or_eq_of_mem_set hp
    · exact hs.fits p hp
    · have hlen := hs.fits _ (position_mem hpos)
      exact hlen
  · change s.tailOfQueue = (ring.next s.QD s.headOfQueue + (s.QD - (s.kernel ++ [_]).length)) % s.QD
    rw [hs.tail, List.length_append, List.length_singleton, hkk, hkk', ring.next_eq_mod hs.head,
      Nat.mod_add_mod]
    congr 1
    omega
  · have hslots := hs.slots
    unfold free_slots at hslots ⊢
    change (ring.window (s.freeQueue.set s.headOfQueue (2 ^ 16 - 1)) 0
      (ring.next s.QD s.headOfQueue) (s.QD - (s.kernel ++ [_]).length) ++
      (s.kernel ++ [_]).map Request.obj).Perm (List.range s.QD)
    rw [hkk, ring.window_take 0 (2 ^ 16 - 1) (by rw [hs.queue]; exact hs.head)
      (by rw [hs.queue]; omega), hs.queue] at hslots
    rw [List.length_append, List.length_singleton, hkk', List.map_append, ← List.append_assoc]
    exact List.perm_append_comm.trans hslots
  · have hflag : (s.accepted now).in_flight = flags.marked
        ((s.positions.map (·.inFlight)).set s.pos true) := in_flight_put s s.pos _
    have hnot : s.pos ∉ flags.marked (s.positions.map (·.inFlight)) := by
      intro hmem
      rw [mem_in_flight.mp hmem] at hidle
      cases hidle
    rw [hflag]
    refine (flags.marked_set_true (by simpa using hpos) hnot).trans ?_
    change (s.pos :: s.in_flight).Perm ((s.kernel ++ [_]).map fun r : Request => r.cb.data)
    rw [List.map_append]
    refine (hs.flagged.cons s.pos).trans ?_
    rw [List.map_singleton]
    dsimp only
    change (s.pos :: _).Perm (_ ++ [(s.cbs.getD s.head_slot default).data])
    rw [hdata]
    exact (List.perm_append_singleton _ _).symm
  · intro r hr
    obtain hr | hr := List.mem_append.mp hr
    · rw [hold r hr]
      exact hs.named r hr
    · rw [List.mem_singleton.mp hr]
      dsimp only
      change ((s.accepted now).position (s.cbs.getD s.head_slot default).data).q = s.head_slot
      rw [hdata, hnew]
      exact hq
  · intro r hr
    obtain hr | hr := List.mem_append.mp hr
    · rw [hold r hr]
      exact hs.described r hr
    · rw [List.mem_singleton.mp hr]
      dsimp only
      change Describes _ ((s.accepted now).position (s.cbs.getD s.head_slot default).data)
      rw [hdata, hnew]
      exact ⟨hdescribes.read, hdescribes.write, hdescribes.extent⟩
  · intro r hr
    obtain hr | hr := List.mem_append.mp hr
    · exact hs.kept r hr
    · rw [List.mem_singleton.mp hr]
      rfl
  · intro r hr
    obtain hr | hr := List.mem_append.mp hr
    · exact hs.buffers r hr
    · rw [List.mem_singleton.mp hr]
      exact howns
  · change s.submitted + 1 = s.received + (s.kernel ++ [_]).length
    rw [hs.counted, List.length_append, List.length_singleton]
    omega

theorem quiet_refused (h : (s.position s.pos).inFlight = false) : Quiet c s s.refused := by
  have hput : Quiet c s (s.put s.pos { s.position s.pos with
      submitTime := 0, finishTime := 0, inFlight := false, success := 2 }) :=
    quiet_put h rfl ⟨rfl, rfl, rfl, Or.inl rfl, fun _ _ => rfl⟩
  exact hput.trans (quiet_counters c _ _ _ _ _ _)

/-! ## Completion -/

/-- What is done with the completion of a request. -/
structure Completed (c : Arguments) (s : Engine) (now : ℚ≥0) (e : io_event) (r : Request)
    (t : Engine) : Prop where
  mem : r ∈ s.kernel
  obj : r.obj = e.obj
  kernel : t.kernel = s.kernel.eraseP fun r => r.obj = e.obj
  positions : ∃ success, t.positions = s.positions.set r.cb.data
    { s.position r.cb.data with success := success, finishTime := now, inFlight := false }
  freeQueue : t.freeQueue = s.freeQueue.set s.tailOfQueue r.obj
  tailOfQueue : t.tailOfQueue = ring.next s.QD s.tailOfQueue
  received : t.received = s.received + 1
  checks : t.checks = s.checks ++ [⟨r.cb.data, r.obj, r,
    if transferred e (s.position r.cb.data) then s.comparison c r.cb.data else none⟩]
  QD : t.QD = s.QD
  maxSize : t.maxSize = s.maxSize
  headOfQueue : t.headOfQueue = s.headOfQueue
  submitted : t.submitted = s.submitted
  inFlight : t.inFlight = s.inFlight
  cbs : t.cbs = s.cbs
  pos : t.pos = s.pos
  phase : t.phase = s.phase
  UUID : t.UUID = s.UUID
  data : t.data = s.data
  readdata : t.readdata = s.readdata
  dataseed : t.dataseed = s.dataseed
  device : t.device = s.device

/-- The comparison does not read whether the position has succeeded. -/
theorem comparison_put_success {i : Nat} (success : Nat) (h : i < s.positions.length) :
    (s.put i { s.position i with success := success }).comparison c i = s.comparison c i := by
  have hself : (s.put i { s.position i with success := success }).position i =
      { s.position i with success := success } := position_put_self h
  have hfinish : ∀ j, ((s.put i { s.position i with success := success }).position j).finishTime =
      (s.position j).finishTime := by
    intro j
    by_cases hij : i = j
    · subst hij
      rw [hself]
    · rw [position_put_ne hij]
  have hlen : (s.put i { s.position i with success := success }).positions.length =
      s.positions.length := by simp [put]
  unfold comparison
  rw [hself]
  simp only [hfinish, hlen]
  rfl

/-- Transfer and verification change the counters and whether the position has succeeded. -/
theorem transfer_eq (c : Arguments) (e : io_event) {i : Nat} (h : i < s.positions.length) :
    ∃ errors rb ri wb wi success,
      (if transferred e (s.position i) then (s.completeTransfer i e).verifyCompletedRead c i
        else s.completeTransfer i e) =
      { s.put i { s.position i with success := success } with
        ioerrors := errors, readBytes := rb, readIOs := ri, writtenBytes := wb, writtenIOs := wi } := by
  split
  · unfold verifyCompletedRead
    split
    · have hself : (s.completeTransfer i e).position i = { s.position i with
          success := if transferred e (s.position i) then 1 else 2 } := position_put_self h
      rw [hself]
      refine ⟨(s.completeTransfer i e).ioerrors + 1, (s.completeTransfer i e).readBytes,
        (s.completeTransfer i e).readIOs - 1, (s.completeTransfer i e).writtenBytes,
        (s.completeTransfer i e).writtenIOs, 2, ?_⟩
      simp only [put, completeTransfer, List.set_set]
    · exact ⟨_, _, _, _, _, _, rfl⟩
  · exact ⟨_, _, _, _, _, _, rfl⟩

/-- What one completion does, when the slots are as they should be. -/
theorem complete_cases {now : ℚ≥0} {e : io_event} (hs : s.Held) (h : s.complete c now e = some t) :
    ∃ r, Completed c s now e r t := by
  unfold complete at h
  split at h
  · cases h
  · rename_i r hr
    have hmem : r ∈ s.kernel := List.mem_of_find?_eq_some hr
    have hobj : r.obj = e.obj := by simpa using List.find?_some hr
    have hdata : (s.cbs.getD e.obj default).data = r.cb.data := by
      rw [← hobj, hs.kept r hmem]
    have hq : (s.position r.cb.data).q = r.obj := hs.named r hmem
    have hlt : r.cb.data < s.positions.length :=
      lt_of_in_flight (mem_in_flight.mp (hs.flagged.mem_iff.mpr (List.mem_map_of_mem hmem)))
    have hcomp : (s.completeTransfer r.cb.data e).comparison c r.cb.data =
        s.comparison c r.cb.data := comparison_put_success _ hlt
    obtain ⟨errors, rb, ri, wb, wi, success, htransfer⟩ := transfer_eq c e hlt
    rw [hdata] at h
    dsimp only at h
    rw [hq, hcomp, htransfer] at h
    obtain rfl := Option.some.inj h
    refine ⟨r, hmem, hobj, rfl, ⟨success, ?_⟩, rfl, rfl, rfl, rfl, rfl, rfl, rfl, rfl, rfl, rfl, rfl,
      rfl, rfl, rfl, rfl, rfl, rfl⟩
    have hself : (s.put r.cb.data { s.position r.cb.data with success := success }).position
        r.cb.data = { s.position r.cb.data with success := success } := position_put_self hlt
    change (s.positions.set _ _).set r.cb.data { (s.put r.cb.data _).position r.cb.data with
      finishTime := now, inFlight := false } = _
    rw [List.set_set, hself]

theorem Held.slots_nodup (hs : s.Held) : (s.kernel.map Request.obj).Nodup := by
  have h := hs.slots.nodup_iff.mpr List.nodup_range
  exact (List.nodup_append.mp h).2.1

theorem Held.indices_nodup (hs : s.Held) : (s.kernel.map fun r => r.cb.data).Nodup :=
  hs.flagged.nodup_iff.mp (flags.marked_nodup _)

/-- The request leaves the kernel's list, and no other does. -/
theorem Completed.perm {now : ℚ≥0} {e : io_event} {r : Request} (hs : s.Held)
    (h : Completed c s now e r t) : s.kernel.Perm (r :: t.kernel) := by
  obtain ⟨r', l1, l2, -, hr', heq, herase⟩ :=
    List.exists_of_eraseP (p := fun r => decide (r.obj = e.obj)) h.mem (by simp [h.obj])
  have hobj' : r'.obj = e.obj := by simpa using hr'
  have hsame : r = r' := by
    have hnodup := hs.slots_nodup
    have hmem' : r' ∈ s.kernel := by simp [heq]
    exact List.inj_on_of_nodup_map hnodup h.mem hmem' (h.obj.trans hobj'.symm)
  subst hsame
  rw [h.kernel, herase, heq]
  exact List.perm_middle

theorem Completed.length {now : ℚ≥0} {e : io_event} {r : Request} (hs : s.Held)
    (h : Completed c s now e r t) : s.kernel.length = t.kernel.length + 1 :=
  (h.perm hs).length_eq

/-- A completion changes no position but its own. -/
theorem Completed.position_ne {now : ℚ≥0} {e : io_event} {r : Request}
    (h : Completed c s now e r t) {i : Nat} (hi : r.cb.data ≠ i) :
    t.position i = s.position i := by
  obtain ⟨success, hpositions⟩ := h.positions
  have hput : t.position i = (s.put r.cb.data { s.position r.cb.data with
      success := success, finishTime := now, inFlight := false }).position i :=
    congrArg (fun l => l.getD i default) hpositions
  rw [hput, position_put_ne hi]

theorem Completed.position_self {now : ℚ≥0} {e : io_event} {r : Request}
    (h : Completed c s now e r t) (hlt : r.cb.data < s.positions.length) :
    ∃ success, t.position r.cb.data = { s.position r.cb.data with
      success := success, finishTime := now, inFlight := false } := by
  obtain ⟨success, hpositions⟩ := h.positions
  have hput : t.position r.cb.data = (s.put r.cb.data { s.position r.cb.data with
      success := success, finishTime := now, inFlight := false }).position r.cb.data :=
    congrArg (fun l => l.getD r.cb.data default) hpositions
  exact ⟨success, hput.trans (position_put_self hlt)⟩

theorem Completed.same {now : ℚ≥0} {e : io_event} {r : Request} (hs : s.Held)
    (h : Completed c s now e r t) (i : Nat) : Same c (s.position i) (t.position i) := by
  by_cases hi : r.cb.data = i
  · subst hi
    have hlt : r.cb.data < s.positions.length :=
      lt_of_in_flight (mem_in_flight.mp (hs.flagged.mem_iff.mpr (List.mem_map_of_mem h.mem)))
    obtain ⟨success, hself⟩ := h.position_self hlt
    rw [hself]
    exact ⟨rfl, rfl, rfl, Or.inl rfl, fun _ _ => rfl⟩
  · rw [h.position_ne hi]
    exact Same.refl c _

/-- Two requests in flight are of two positions. -/
theorem Completed.data_ne {now : ℚ≥0} {e : io_event} {r r' : Request} (hs : s.Held)
    (h : Completed c s now e r t) (hr' : r' ∈ t.kernel) : r.cb.data ≠ r'.cb.data := by
  have hnodup := ((h.perm hs).map fun r => r.cb.data).nodup_iff.mp hs.indices_nodup
  intro heq
  apply (List.nodup_cons.mp hnodup).1
  change r.cb.data ∈ _
  rw [heq]
  exact List.mem_map_of_mem hr'

theorem Completed.held {now : ℚ≥0} {e : io_event} {r : Request} (hs : s.Held)
    (h : Completed c s now e r t) : t.Held := by
  have hperm := h.perm hs
  have hlen := h.length hs
  have hle := hs.length_le
  obtain ⟨success, hpositions⟩ := h.positions
  have hother : ∀ r' ∈ t.kernel, t.position r'.cb.data = s.position r'.cb.data :=
    fun r' hr' => h.position_ne (h.data_ne hs hr')
  have hmem : ∀ r' ∈ t.kernel, r' ∈ s.kernel := fun r' hr' => hperm.mem_iff.mpr (by simp [hr'])
  have hlt : r.cb.data < s.positions.length :=
    lt_of_in_flight (mem_in_flight.mp (hs.flagged.mem_iff.mpr (List.mem_map_of_mem h.mem)))
  have hpos : 0 < s.QD := Nat.zero_lt_of_lt hs.head
  have hkk : s.QD - t.kernel.length = (s.QD - s.kernel.length) + 1 := by omega
  have hbuffer : ∀ i, t.buffer i = s.buffer i := fun i => by unfold buffer; rw [h.maxSize]
  refine
    { queue := ?_, blocks := ?_, fits := ?_, head := ?_, tail := ?_, slots := ?_, flagged := ?_,
      named := ?_, described := ?_, kept := ?_, buffers := ?_, counted := ?_, checked := ?_ }
  · rw [h.freeQueue, List.length_set, h.QD]
    exact hs.queue
  · rw [h.cbs, h.QD]
    exact hs.blocks
  · intro p hp
    rw [hpositions] at hp
    rw [h.maxSize]
    obtain hp | rfl := List.mem_or_eq_of_mem_set hp
    · exact hs.fits p hp
    · have hfits := hs.fits _ (position_mem hlt)
      exact hfits
  · rw [h.headOfQueue, h.QD]
    exact hs.head
  · have htail : s.tailOfQueue < s.QD := by
      rw [hs.tail]
      exact Nat.mod_lt _ hpos
    rw [h.tailOfQueue, h.headOfQueue, h.QD, hkk, ring.next_eq_mod htail, hs.tail, Nat.mod_add_mod]
    congr 1
  · have hwin : t.free_slots = s.free_slots ++ [r.obj] := by
      have hput := @ring.window_put _ s.freeQueue s.headOfQueue (s.QD - s.kernel.length) 0 r.obj
        (by rw [hs.queue]; omega)
      rw [hs.queue, ← hs.tail] at hput
      unfold free_slots
      rw [h.freeQueue, h.headOfQueue, h.QD, hkk]
      exact hput
    rw [hwin, h.QD, List.append_assoc]
    refine ((hperm.map Request.obj).symm.append_left _).trans ?_
    exact hs.slots
  · have hflag : t.in_flight = flags.marked ((s.positions.map (·.inFlight)).set r.cb.data false) := by
      unfold in_flight
      rw [hpositions, List.map_set]
    have hfly : r.cb.data ∈ flags.marked (s.positions.map (·.inFlight)) :=
      hs.flagged.mem_iff.mpr (List.mem_map_of_mem h.mem)
    rw [hflag]
    have hcons := (flags.marked_set_false hfly).symm.trans
      (hs.flagged.trans (hperm.map fun r => r.cb.data))
    exact hcons.cons_inv
  · intro r' hr'
    rw [hother r' hr']
    exact hs.named r' (hmem r' hr')
  · intro r' hr'
    rw [hother r' hr']
    exact hs.described r' (hmem r' hr')
  · intro r' hr'
    rw [h.cbs]
    exact hs.kept r' (hmem r' hr')
  · intro r' hr' hop
    rw [hbuffer, h.maxSize]
    exact hs.buffers r' (hmem r' hr') hop
  · rw [h.submitted, h.received, hs.counted, hlen]
    omega
  · intro k hk
    rw [h.checks] at hk
    unfold Owns
    rw [hbuffer, h.maxSize]
    obtain hk | hk := List.mem_append.mp hk
    · exact hs.checked k hk
    · rw [List.mem_singleton.mp hk]
      exact ⟨rfl, rfl, hs.buffers r h.mem⟩

/-! ## The device -/

/-- A list of requests with the ones on a slot marked as performed. -/
def marked_performed (obj : Nat) (kernel : List Request) : List Request :=
  kernel.map fun r => if r.obj = obj then { r with performed := true } else r

/-- What the device does when it performs a request. -/
theorem perform_cases {obj : Nat} (h : s.perform obj = some t) :
    ∃ r ∈ s.kernel, r.obj = obj ∧ r.performed = false ∧ ∃ device readdata,
      t = { s with kernel := marked_performed obj s.kernel, device := device, readdata := readdata } ∧
      device = (if r.cb.opcode = .pwrite then
        s.device.write r.cb.offset (s.data.read r.cb.buf r.cb.nbytes) else s.device) ∧
      readdata = if r.cb.opcode = .pread then
        s.readdata.write r.cb.buf (s.device.read r.cb.offset r.cb.nbytes) else s.readdata := by
  unfold perform at h
  split at h
  · cases h
  · rename_i r hr
    have hmem : r ∈ s.kernel := List.mem_of_find?_eq_some hr
    obtain ⟨hobj, hperf⟩ : r.obj = obj ∧ r.performed = false := by
      simpa using List.find?_some hr
    refine ⟨r, hmem, hobj, hperf, t.device, t.readdata, ?_⟩
    dsimp only at h
    split at h
    · rename_i hop
      obtain rfl := Option.some.inj h
      simp [hop, marked_performed]
    · rename_i hop
      obtain rfl := Option.some.inj h
      simp [hop, marked_performed]
    · rename_i hread hwrite
      obtain rfl := Option.some.inj h
      exact ⟨rfl, (if_neg hwrite).symm, (if_neg hread).symm⟩

theorem marked_performed_map {α : Type} {f : Request → α} (obj : Nat) (kernel : List Request)
    (h : ∀ r : Request, f { r with performed := true } = f r) :
    (marked_performed obj kernel).map f = kernel.map f := by
  unfold marked_performed
  rw [List.map_map]
  apply List.map_congr_left
  intro r _
  rw [Function.comp_apply]
  split
  · exact h r
  · rfl

theorem mem_marked_performed {obj : Nat} {kernel : List Request} {r : Request}
    (h : r ∈ marked_performed obj kernel) : ∃ r' ∈ kernel, r.obj = r'.obj ∧ r.cb = r'.cb ∧
      r.seen = r'.seen ∧ (r.performed = true ↔ r'.performed = true ∨ r'.obj = obj) := by
  obtain ⟨r', hr', rfl⟩ := List.mem_map.mp h
  refine ⟨r', hr', ?_⟩
  split
  · rename_i hobj
    simp [hobj]
  · rename_i hobj
    simp [hobj]

theorem Held.perform (hs : s.Held) {obj : Nat} (device readdata : Memory) :
    Held { s with kernel := marked_performed obj s.kernel, device := device, readdata := readdata } := by
  have hobjs := marked_performed_map (f := Request.obj) obj s.kernel fun _ => rfl
  have hdata := marked_performed_map (f := fun r => r.cb.data) obj s.kernel fun _ => rfl
  have hlen : (marked_performed obj s.kernel).length = s.kernel.length := by simp [marked_performed]
  refine
    { queue := hs.queue, blocks := hs.blocks, fits := hs.fits, head := hs.head, tail := ?_,
      slots := ?_, flagged := ?_, named := ?_, described := ?_, kept := ?_, buffers := ?_,
      counted := ?_, checked := hs.checked }
  · dsimp only
    rw [hlen]
    exact hs.tail
  · unfold free_slots
    dsimp only
    rw [hlen, hobjs]
    exact hs.slots
  · dsimp only
    rw [hdata]
    exact hs.flagged
  · intro r hr
    obtain ⟨r', hr', hobj, hcb, -⟩ := mem_marked_performed hr
    rw [hobj, hcb]
    exact hs.named r' hr'
  · intro r hr
    obtain ⟨r', hr', -, hcb, -⟩ := mem_marked_performed hr
    rw [hcb]
    exact hs.described r' hr'
  · intro r hr
    obtain ⟨r', hr', hobj, hcb, -⟩ := mem_marked_performed hr
    rw [hobj, hcb]
    exact hs.kept r' hr'
  · intro r hr
    obtain ⟨r', hr', hobj, hcb, -⟩ := mem_marked_performed hr
    rw [hobj, hcb]
    exact hs.buffers r' hr'
  · dsimp only
    rw [hlen]
    exact hs.counted

/-! ## Every run -/

/-- What holds of the slots between two steps. -/
structure Conserved (s : Engine) : Prop where
  held : s.Held
  pos : s.pos < s.positions.length
  inFlight : s.inFlight = s.kernel.length

theorem Conserved.open (hs : s.Conserved) (h : s.Open) : s.kernel.length < s.QD := by
  rw [← hs.inFlight]
  exact h.free

/-- A step that leaves the requests alone. -/
theorem Conserved.quiet (hs : s.Conserved) (h : Quiet c s t) (hpos : t.pos < t.positions.length) :
    t.Conserved :=
  ⟨hs.held.quiet h, hpos, by rw [h.inFlight, h.kernel]; exact hs.inFlight⟩

theorem Conserved.quiet_nextpos (hs : s.Conserved) (h : Quiet c s t) : (t.nextpos c).Conserved := by
  refine hs.quiet (h.trans (Engine.quiet_nextpos c t)) (nextpos_pos ?_)
  rw [h.length]
  exact Nat.zero_lt_of_lt hs.pos

/-- A request set up on an open turn: the engine is as it was but for the position
and the slot at the head of the queue. -/
theorem Conserved.ready (hs : s.Conserved) (hopen : s.Open) (hu : Ready rand_r c s.begun u) :
    Quiet c s u ∧ u.pos = s.pos ∧ u.pos < u.positions.length := by
  have hfree := (hs.held.head_free (hs.open hopen)).2
  have hquiet : Quiet c s u := (quiet_begun s).trans (hu.quiet hs.pos hopen.idle hfree)
  have hpos : u.pos = s.pos := hu.pos
  exact ⟨hquiet, hpos, by rw [hpos, hquiet.length]; exact hs.pos⟩

theorem Conserved.ready_idle (hs : s.Conserved) (hopen : s.Open)
    (hu : Ready rand_r c s.begun u) : (u.position u.pos).inFlight = false := by
  obtain ⟨hquiet, hpos, -⟩ := hs.ready hopen hu
  rw [hpos, hquiet.flags]
  exact hopen.idle

theorem Conserved.block (hs : s.Conserved) (hopen : s.Open) (hu : Ready rand_r c s.begun u) :
    u.head_slot = s.head_slot ∧ (u.cbs.getD u.head_slot default).data = u.pos ∧
      Describes (u.cbs.getD u.head_slot default) (u.position u.pos) ∧
      u.Owns u.head_slot (u.cbs.getD u.head_slot default) := by
  obtain ⟨hquiet, hpos, -⟩ := hs.ready hopen hu
  have hslot : u.head_slot = s.head_slot := by
    unfold head_slot
    rw [hquiet.freeQueue, hquiet.headOfQueue]
  have hlen : (s.position s.pos).len ≤ s.maxSize := hs.held.fits _ (position_mem hs.pos)
  have hcbs : s.head_slot < s.cbs.length := by
    rw [hs.held.blocks]
    exact (hs.held.head_free (hs.open hopen)).1
  rw [hslot, hpos]
  exact ⟨rfl, hu.block hs.pos hcbs hquiet.cbs_length hquiet.maxSize hlen⟩

theorem Conserved.accept (hs : s.Conserved) (hopen : s.Open) (hu : Ready rand_r c s.begun u)
    (now : ℚ≥0) : (u.accepted now).Conserved := by
  obtain ⟨hquiet, hpos, hlt⟩ := hs.ready hopen hu
  obtain ⟨hslot, hdata, hdescribes, howns⟩ := hs.block hopen hu
  have hidle := hs.ready_idle hopen hu
  have hk : u.kernel.length < u.QD := by
    rw [hquiet.kernel, hquiet.QD]
    exact hs.open hopen
  have hq : (u.position u.pos).q = u.head_slot := by
    rw [hpos, hslot]
    exact hu.q hs.pos
  refine ⟨(hs.held.quiet hquiet).accepted now hk hlt hidle hq hdata hdescribes howns, ?_, ?_⟩
  · change u.pos < (u.positions.set _ _).length
    rw [List.length_set]
    exact hlt
  · change u.inFlight + 1 = (u.kernel ++ [_]).length
    rw [hquiet.inFlight, hquiet.kernel, hs.inFlight]
    simp

/-- A request that is accepted changes only its own position. -/
theorem accepted_same (now : ℚ≥0) (hlt : s.pos < s.positions.length) (i : Nat) :
    Same c (s.position i) ((s.accepted now).position i) := by
  by_cases hi : s.pos = i
  · subst hi
    have hself : (s.accepted now).position s.pos = { s.position s.pos with
        submitTime := now, finishTime := 0, inFlight := true } := position_put_self hlt
    rw [hself]
    exact ⟨rfl, rfl, rfl, Or.inl rfl, fun _ _ => rfl⟩
  · have hne : (s.accepted now).position i = s.position i := position_put_ne hi
    rw [hne]
    exact Same.refl c _

theorem Conserved.turn (hs : s.Conserved) {a : Answers} (h : Turn rand_r c a s t) :
    t.Conserved := by
  cases h with
  | stop n phase =>
    exact hs.quiet (quiet_counters c _ _ _ _ _ _) hs.pos
  | pass n => exact hs.quiet_nextpos (quiet_counters c _ _ _ _ _ _)
  | trim hopen =>
    exact hs.quiet_nextpos ((quiet_begun s).trans (quiet_trim a.now a.done a.left hopen.idle))
  | skip pos hopen =>
    have hput := (quiet_begun s).trans (quiet_taken_put (c := c) hopen.idle)
    exact hs.quiet_nextpos
      (hput.trans (quiet_counters c _ _ _ _ _ _))
  | limit hopen hu =>
    obtain ⟨hquiet, -, hlt⟩ := hs.ready hopen hu
    exact hs.quiet
      (hquiet.trans (quiet_counters c _ _ _ _ _ _)) hlt
  | @refuse u hopen hu =>
    obtain ⟨hquiet, -, -⟩ := hs.ready hopen hu
    exact hs.quiet_nextpos (hquiet.trans (quiet_refused (hs.ready_idle hopen hu)))
  | @give_up u hopen hu =>
    obtain ⟨hquiet, -, hlt⟩ := hs.ready hopen hu
    have hrefused := hquiet.trans (quiet_refused (hs.ready_idle hopen hu))
    refine hs.quiet
      (hrefused.trans (quiet_counters c _ _ _ _ _ _)) ?_
    change u.pos < u.refused.positions.length
    rw [hrefused.length, ← hquiet.length]
    exact hlt
  | accept hopen hu => exact (hs.accept hopen hu a.now).quiet_nextpos (Quiet.refl c _)

theorem Completed.positions_length {now : ℚ≥0} {e : io_event} {r : Request}
    (h : Completed c s now e r t) : t.positions.length = s.positions.length := by
  obtain ⟨success, hpositions⟩ := h.positions
  rw [hpositions, List.length_set]

/-- The count in flight has no part in who holds a slot. -/
theorem Held.recount (hs : s.Held) (n : Nat) : Held { s with inFlight := n } :=
  ⟨hs.queue, hs.blocks, hs.fits, hs.head, hs.tail, hs.slots, hs.flagged, hs.named,
    hs.described, hs.kept, hs.buffers, hs.counted, hs.checked⟩

theorem Conserved.receive (hs : s.Conserved) {now : ℚ≥0} {e : io_event}
    (h : s.receive c now e = some t) : t.Conserved := by
  obtain ⟨u, hu, rfl⟩ := Option.map_eq_some_iff.mp h
  obtain ⟨r, hr⟩ := complete_cases hs.held hu
  refine ⟨(hr.held hs.held).recount _, ?_, ?_⟩
  · change u.pos < u.positions.length
    rw [hr.pos, hr.positions_length]
    exact hs.pos
  · change u.inFlight - 1 = u.kernel.length
    rw [hr.inFlight, hs.inFlight, hr.length hs.held, Nat.add_sub_cancel]

theorem Conserved.receive_fold (hs : s.Conserved) {now : ℚ≥0} {events : List io_event}
    (h : events.foldlM (fun s e => Engine.receive c s now e) s = some t) : t.Conserved := by
  induction events generalizing s with
  | nil =>
    obtain rfl := Option.some.inj h
    exact hs
  | cons e events ih =>
    rw [List.foldlM_cons] at h
    obtain ⟨u, hu, hrest⟩ := Option.bind_eq_some_iff.mp h
    exact ih (hs.receive hu) hrest

/-- In the drain the requests go one by one, and the count at the end. -/
theorem Held.drain_fold (hs : s.Held) {now : ℚ≥0} {events : List io_event}
    (h : events.foldlM (fun s e => Engine.complete c s now e) s = some t) :
    t.Held ∧ s.kernel.length = t.kernel.length + events.length ∧ t.inFlight = s.inFlight ∧
      t.pos = s.pos ∧ t.positions.length = s.positions.length := by
  induction events generalizing s with
  | nil =>
    obtain rfl := Option.some.inj h
    exact ⟨hs, rfl, rfl, rfl, rfl⟩
  | cons e events ih =>
    rw [List.foldlM_cons] at h
    obtain ⟨u, hu, hrest⟩ := Option.bind_eq_some_iff.mp h
    obtain ⟨r, hr⟩ := complete_cases hs hu
    obtain ⟨hheld, hlen, hcount, hpos, hsz⟩ := ih (hr.held hs) hrest
    refine ⟨hheld, ?_, hcount.trans hr.inFlight, hpos.trans hr.pos, hsz.trans hr.positions_length⟩
    rw [hr.length hs, hlen, List.length_cons]
    omega

theorem Conserved.drain (hs : s.Conserved) {now : ℚ≥0} {events : List io_event}
    (h : s.drain_turn c now events = some t) : t.Conserved := by
  unfold drain_turn at h
  split at h
  · obtain rfl := Option.some.inj h
    exact hs.quiet (quiet_counters c _ _ _ _ _ _) hs.pos
  · dsimp only at h
    split at h
    · obtain rfl := Option.some.inj h
      exact hs.quiet (quiet_counters c _ _ _ _ _ _) hs.pos
    · have hcount : Conserved { s with count := s.count + 1 } :=
        hs.quiet (quiet_counters c _ _ _ _ _ _) hs.pos
      obtain ⟨u, hu, hsome⟩ := Option.bind_eq_some_iff.mp h
      obtain rfl := Option.some.inj hsome
      obtain ⟨hheld, hlen, hin, hpos, hsz⟩ := hcount.held.drain_fold hu
      refine ⟨hheld.recount _, ?_, ?_⟩
      · change u.pos < u.positions.length
        rw [hpos, hsz]
        exact hcount.pos
      · change u.inFlight - events.length = u.kernel.length
        rw [hin, hcount.inFlight, hlen, Nat.add_sub_cancel]

theorem Conserved.receive_all (hs : s.Conserved) {now : ℚ≥0} {events : List io_event}
    (h : s.receive_all c now events = some t) : t.Conserved := by
  obtain ⟨u, hu, hsome⟩ := Option.bind_eq_some_iff.mp h
  have hcons := hs.receive_fold hu
  split at hsome
  · obtain rfl := Option.some.inj hsome
    exact hcons.quiet (quiet_counters c _ _ _ _ _ _) hcons.pos
  · obtain rfl := Option.some.inj hsome
    exact hcons.quiet (quiet_counters c _ _ _ _ _ _) hcons.pos

theorem Conserved.perform (hs : s.Conserved) {obj : Nat} (h : s.perform obj = some t) :
    t.Conserved := by
  obtain ⟨r, -, -, -, device, readdata, rfl, -⟩ := perform_cases h
  refine ⟨hs.held.perform device readdata, hs.pos, ?_⟩
  dsimp only
  rw [hs.inFlight]
  simp [marked_performed]

theorem Conserved.step (hs : s.Conserved) {input : Input} (h : s.step rand_r c input = some t) :
    t.Conserved := by
  cases step_moves h with
  | turn keepRunning due n phase =>
    exact hs.quiet (quiet_counters c _ _ _ _ _ _) hs.pos
  | submit hturn => exact hs.turn hturn
  | receive hall => exact hs.receive_all hall
  | drain hdrain => exact hs.drain hdrain
  | perform hperform => exact hs.perform hperform

/-! ## The start -/

theorem le_longest {positions : List positionType} {p : positionType} (h : p ∈ positions) :
    p.len ≤ longest positions := by
  have hfold : ∀ (l : List positionType) (m : Nat), m ≤ l.foldl
      (fun maxSize p => if p.len > maxSize then p.len else maxSize) m ∧
      ∀ p ∈ l, p.len ≤ l.foldl (fun maxSize p => if p.len > maxSize then p.len else maxSize) m := by
    intro l
    induction l with
    | nil => intro m; simp
    | cons q l ih =>
      intro m
      obtain ⟨h1, h2⟩ := ih (if q.len > m then q.len else m)
      rw [List.foldl_cons]
      have hm : m ≤ (if q.len > m then q.len else m) ∧ q.len ≤ if q.len > m then q.len else m := by
        split <;> omega
      refine ⟨le_trans hm.1 h1, ?_⟩
      intro p hp
      obtain rfl | hp := List.mem_cons.mp hp
      · exact le_trans hm.2 h1
      · exact h2 p hp
  exact (hfold positions 0).2 p h

theorem mem_cleared {positions : List positionType} {p : positionType}
    (h : p ∈ cleared c positions) : ∃ q ∈ positions, p.len = q.len ∧ p.seed = q.seed ∧
      p.pos = q.pos ∧ p.action = q.action ∧
      (p.inFlight = false ∨ c.posStart ≠ 0 ∧ p.inFlight = q.inFlight) := by
  unfold cleared at h
  split at h
  · obtain ⟨q, hq, rfl⟩ := List.mem_map.mp h
    exact ⟨q, hq, rfl, rfl, rfl, rfl, Or.inl rfl⟩
  · rename_i hstart
    exact ⟨p, h, rfl, rfl, rfl, rfl, Or.inr ⟨hstart, rfl⟩⟩

theorem cleared_length (c : Arguments) (positions : List positionType) :
    (cleared c positions).length = positions.length := by
  unfold cleared
  split
  · simp
  · rfl

theorem cleared_getD_same (c : Arguments) (positions : List positionType) (i : Nat) :
    Same c (positions.getD i default) ((cleared c positions).getD i default) := by
  unfold cleared
  split
  · rw [List.getD_eq_getElem?_getD, List.getD_eq_getElem?_getD, List.getElem?_map]
    cases positions[i]? with
    | none => exact Same.refl c _
    | some p => exact ⟨rfl, rfl, rfl, Or.inl rfl, fun _ _ => rfl⟩
  · exact Same.refl c _

theorem in_flight_eq_nil (h : ∀ p ∈ s.positions, p.inFlight = false) : s.in_flight = [] := by
  rw [List.eq_nil_iff_forall_not_mem]
  intro i hi
  have hfly := mem_in_flight.mp hi
  rw [h _ (position_mem (lt_of_in_flight hfly))] at hfly
  cases hfly

/-- The slots at the start, when each has a number of its own in the queue. -/
theorem start_conserved_of_room {pc : positionContainer} {ioerrors : Nat} {device : Memory}
    (hQD : min c.QDmax pc.positions.length ≤ 2 ^ 16) (hclear : c.posStart ≠ 0 → ∀ p ∈ pc.positions, p.inFlight = false)
    (h : start rand_r c pc ioerrors device = some s) : s.Conserved := by
  unfold start at h
  dsimp only at h
  split at h
  · cases h
  · rename_i hne
    obtain rfl := Option.some.inj h
    have hqueue : (List.range (min c.QDmax pc.positions.length)).map (· % 2 ^ 16) =
        List.range (min c.QDmax pc.positions.length) := by
      conv_rhs => rw [← List.map_id (List.range _)]
      apply List.map_congr_left
      intro i hi
      rw [List.mem_range] at hi
      exact Nat.mod_eq_of_lt (by omega)
    have hidle : ∀ p ∈ cleared c pc.positions, p.inFlight = false := by
      intro p hp
      obtain ⟨q, hq, -, -, -, -, hf | ⟨hstart, hf⟩⟩ := mem_cleared hp
      · exact hf
      · exact hf.trans (hclear hstart q hq)
    refine ⟨?_, ?_, rfl⟩
    · refine
        { queue := by simp, blocks := by simp, fits := ?_, head := by dsimp only; omega,
          tail := by simp, slots := ?_, flagged := ?_, named := by simp, described := by simp,
          kept := by simp, buffers := by simp, counted := rfl, checked := by simp }
      · intro p hp
        obtain ⟨q, hq, hlen, -⟩ := mem_cleared hp
        rw [hlen]
        exact le_longest hq
      · unfold free_slots
        dsimp only
        rw [hqueue, List.length_nil, Nat.sub_zero, List.map_nil, List.append_nil]
        have hall := ring.window_all (List.range (min c.QDmax pc.positions.length)) 0
        rw [List.length_range] at hall
        rw [hall]
      · rw [in_flight_eq_nil hidle]
        exact List.Perm.nil
    · change c.posStart % pc.positions.length < (cleared c pc.positions).length
      rw [cleared_length]
      exact Nat.mod_lt _ (by omega)

theorem start_conserved {pc : positionContainer} {ioerrors : Nat} {device : Memory}
    (hQD : c.QDmax ≤ 65535) (hclear : c.posStart ≠ 0 → ∀ p ∈ pc.positions, p.inFlight = false)
    (h : start rand_r c pc ioerrors device = some s) : s.Conserved :=
  start_conserved_of_room (by omega) hclear h

/-! ## Where a request comes from -/

/-- The rule for a fold over events: what each of them keeps, with those before it known. -/
theorem foldlM_prefix_rule {f : Engine → io_event → Option Engine}
    {P : List io_event → Engine → Prop} {events : List io_event}
    (hstep : ∀ before e after s t, events = before ++ e :: after → P before s → f s e = some t →
      P (before ++ [e]) t)
    (hP : P [] s) (h : events.foldlM f s = some t) : P events t := by
  have hrest : ∀ (l before : List io_event) (s : Engine), events = before ++ l → P before s →
      l.foldlM f s = some t → P events t := by
    intro l
    induction l with
    | nil =>
      intro before s hl hP h
      obtain rfl := Option.some.inj h
      rw [hl, List.append_nil]
      exact hP
    | cons e l ih =>
      intro before s hl hP h
      rw [List.foldlM_cons] at h
      obtain ⟨u, hu, hrest⟩ := Option.bind_eq_some_iff.mp h
      exact ih (before ++ [e]) u (by simp [hl]) (hstep before e l s u hl hP hu) hrest
  exact hrest events [] s rfl hP h

/-- The rule for the events of one step, with those that have been handled: what each completion
keeps, and the counters do not touch, the step keeps. -/
theorem events_prefix_rule {P : List io_event → Engine → Prop} {now : ℚ≥0} {events : List io_event}
    (hcomplete : ∀ before e after s t r, events = before ++ e :: after → s.Held → P before s →
      Completed c s now e r t → P (before ++ [e]) t)
    (hcounters : ∀ before (s : Engine) (n : Nat) (phase : Phase) (count errors : Nat), P before s →
      P before { s with inFlight := n, phase := phase, count := count, ioerrors := errors })
    (hs : s.Held) (hP : P [] s)
    (h : s.receive_all c now events = some t ∨ s.drain_turn c now events = some t) :
    ∃ handled, P handled t := by
  have hreceive : ∀ {s t : Engine}, s.Held → P [] s →
      events.foldlM (fun s e => Engine.receive c s now e) s = some t → P events t := by
    intro s t hs hP h
    refine (foldlM_prefix_rule (P := fun before s => s.Held ∧ P before s) ?_ ⟨hs, hP⟩ h).2
    rintro before e after s t hl ⟨hs, hP⟩ ht
    obtain ⟨v, hv, rfl⟩ := Option.map_eq_some_iff.mp ht
    obtain ⟨r, hr⟩ := complete_cases hs hv
    have hkept := hcomplete before e after s v r hl hs hP hr
    exact ⟨(hr.held hs).recount _, hcounters _ v _ v.phase v.count v.ioerrors hkept⟩
  have hdrain : ∀ {s t : Engine}, s.Held → P [] s →
      events.foldlM (fun s e => Engine.complete c s now e) s = some t → P events t := by
    intro s t hs hP h
    refine (foldlM_prefix_rule (P := fun before s => s.Held ∧ P before s) ?_ ⟨hs, hP⟩ h).2
    rintro before e after s t hl ⟨hs, hP⟩ ht
    obtain ⟨r, hr⟩ := complete_cases hs ht
    exact ⟨hr.held hs, hcomplete before e after s t r hl hs hP hr⟩
  obtain h | h := h
  · obtain ⟨u, hu, hsome⟩ := Option.bind_eq_some_iff.mp h
    have hu := hreceive hs hP hu
    split at hsome
    · obtain rfl := Option.some.inj hsome
      exact ⟨events, hcounters events u u.inFlight _ u.count u.ioerrors hu⟩
    · obtain rfl := Option.some.inj hsome
      exact ⟨events, hcounters events u u.inFlight _ u.count u.ioerrors hu⟩
  · unfold drain_turn at h
    split at h
    · obtain rfl := Option.some.inj h
      exact ⟨[], hcounters [] s s.inFlight _ s.count s.ioerrors hP⟩
    · dsimp only at h
      split at h
      · obtain rfl := Option.some.inj h
        exact ⟨[], hcounters [] s s.inFlight _ _ _ hP⟩
      · obtain ⟨u, hu, hsome⟩ := Option.bind_eq_some_iff.mp h
        obtain rfl := Option.some.inj hsome
        have hcount : P [] { s with count := s.count + 1 } :=
          hcounters [] s s.inFlight s.phase _ s.ioerrors hP
        have hheld : Held { s with count := s.count + 1 } :=
          hs.quiet (quiet_counters c _ _ _ _ _ _)
        have hu := hdrain hheld hcount hu
        exact ⟨events, hcounters events u _ u.phase u.count u.ioerrors hu⟩

/-- The rule where it does not matter which events have been handled. -/
theorem events_rule {P : Engine → Prop} {now : ℚ≥0} {events : List io_event}
    (hcomplete : ∀ s t e r, e ∈ events → s.Held → P s → Completed c s now e r t → P t)
    (hcounters : ∀ (s : Engine) (n : Nat) (phase : Phase) (count errors : Nat), P s →
      P { s with inFlight := n, phase := phase, count := count, ioerrors := errors })
    (hs : s.Held) (hP : P s)
    (h : s.receive_all c now events = some t ∨ s.drain_turn c now events = some t) : P t := by
  obtain ⟨-, ht⟩ := events_prefix_rule (P := fun _ => P)
    (fun before e after s t r hevents => hcomplete s t e r (by simp [hevents]))
    (fun _ => hcounters) hs hP h
  exact ht

/-- A request of the later state is one of the earlier state, or is on a slot that
no request held. -/
def Origin (s t : Engine) : Prop :=
  ∀ r ∈ t.kernel, (∃ r' ∈ s.kernel, r'.obj = r.obj ∧ r'.cb = r.cb) ∨ ∀ r' ∈ s.kernel, r'.obj ≠ r.obj

theorem Origin.of_subset (h : ∀ r ∈ t.kernel, r ∈ s.kernel) : Origin s t :=
  fun r hr => Or.inl ⟨r, h r hr, rfl, rfl⟩

theorem Origin.quiet (h : Quiet c s t) : Origin s t := Origin.of_subset fun _ hr => h.kernel ▸ hr

theorem Origin.nextpos (h : Origin s t) : Origin s (t.nextpos c) := by
  intro r hr
  rw [(quiet_nextpos c t).kernel] at hr
  exact h r hr

theorem Origin.accept (hs : s.Conserved) (hopen : s.Open) (hu : Ready rand_r c s.begun u)
    (now : ℚ≥0) : Origin s (u.accepted now) := by
  obtain ⟨hquiet, -, -⟩ := hs.ready hopen hu
  intro r hr
  obtain hr | hr := List.mem_append.mp hr
  · exact Or.inl ⟨r, hquiet.kernel ▸ hr, rfl, rfl⟩
  · rw [List.mem_singleton.mp hr]
    dsimp only
    rw [hquiet.freeQueue, hquiet.headOfQueue]
    exact Or.inr (hs.held.head_free (hs.open hopen)).2

theorem Origin.turn (hs : s.Conserved) {a : Answers} (h : Turn rand_r c a s t) : Origin s t := by
  cases h with
  | stop n phase => exact Origin.of_subset fun _ hr => hr
  | pass n => exact Origin.nextpos (Origin.of_subset fun _ hr => hr)
  | trim hopen =>
    exact Origin.nextpos (Origin.quiet
      ((quiet_begun s).trans (quiet_trim a.now a.done a.left hopen.idle)))
  | skip pos hopen => exact Origin.nextpos (Origin.of_subset fun _ hr => hr)
  | limit hopen hu => exact Origin.of_subset fun _ hr => (hs.ready hopen hu).1.kernel ▸ hr
  | refuse hopen hu =>
    exact Origin.nextpos (Origin.of_subset fun _ hr => (hs.ready hopen hu).1.kernel ▸ hr)
  | give_up hopen hu => exact Origin.of_subset fun _ hr => (hs.ready hopen hu).1.kernel ▸ hr
  | accept hopen hu => exact Origin.nextpos (Origin.accept hs hopen hu a.now)

theorem Origin.events (hs : s.Held) {now : ℚ≥0} {events : List io_event}
    (h : s.receive_all c now events = some t ∨ s.drain_turn c now events = some t) :
    Origin s t := by
  refine Origin.of_subset (events_rule (P := fun t => ∀ r ∈ t.kernel, r ∈ s.kernel) ?_ ?_ hs
    (fun _ hr => hr) h)
  · intro u v e r' _ hu hsub hr' r hr
    exact hsub r ((hr'.perm hu).mem_iff.mpr (List.mem_cons_of_mem _ hr))
  · intro u n phase count errors hsub
    exact hsub

theorem Origin.step (hs : s.Conserved) {input : Input} (h : s.step rand_r c input = some t) :
    Origin s t := by
  cases step_moves h with
  | turn keepRunning due n phase => exact Origin.of_subset fun _ hr => hr
  | submit hturn => exact Origin.turn hs hturn
  | receive hall => exact Origin.events hs.held (Or.inl hall)
  | drain hdrain => exact Origin.events hs.held (Or.inr hdrain)
  | perform hperform =>
    obtain ⟨r', -, -, -, device, readdata, rfl, -⟩ := perform_cases hperform
    intro r hr
    obtain ⟨r'', hr'', hobj, hcb, -⟩ := mem_marked_performed hr
    exact Or.inl ⟨r'', hr'', hobj.symm, hcb.symm⟩

/-! ## The law of the slots -/

/-- What the slots keep to, in every state that a run reaches. -/
structure SlotLaw (rand_r : Nat → Nat × Nat) (c : Arguments) (s : Engine) : Prop where
  /-- Each slot is in the free segment, or is named by one position in flight. -/
  slots : (ring.window s.freeQueue 0 s.headOfQueue (s.QD - s.inFlight) ++
    s.in_flight.map fun i => (s.position i).q).Perm (List.range s.QD)
  segment : s.tailOfQueue = (s.headOfQueue + (s.QD - s.inFlight)) % s.QD
  flags : s.inFlight = s.in_flight.length
  balance : s.submitted = s.received + s.inFlight
  /-- The requests of the kernel are the positions in flight, each on the slot that
  its position names and with the control block that it was submitted with. -/
  requests : s.in_flight.Perm (s.kernel.map fun r => r.cb.data)
  blocks : ∀ r ∈ s.kernel, (s.position r.cb.data).q = r.obj ∧
    s.cbs.getD r.obj default = r.cb ∧ s.Owns r.obj r.cb
  apart : s.kernel.Pairwise fun r r' => r.obj ≠ r'.obj ∧
    ¬ Overlap (s.buffer r.obj) s.maxSize (s.buffer r'.obj) s.maxSize
  /-- A request that a step adds is on a slot that no request held. -/
  submission : ∀ input t, s.step rand_r c input = some t → Origin s t
  /-- A completion has been handled on the position, the slot and the buffers of its
  own request. -/
  checked : ∀ k ∈ s.checks, k.index = k.request.cb.data ∧ k.q = k.request.obj ∧
    s.Owns k.q k.request.cb

theorem buffer_apart {i j : Nat} (h : i ≠ j) :
    ¬ Overlap (s.buffer i) s.maxSize (s.buffer j) s.maxSize := by
  rintro ⟨h1, h2⟩
  unfold buffer at h1 h2
  rw [← Nat.mul_succ] at h1 h2
  have h1 := Nat.lt_of_mul_lt_mul_left h1
  have h2 := Nat.lt_of_mul_lt_mul_left h2
  omega

theorem Conserved.slot_law (hs : s.Conserved) : s.SlotLaw rand_r c := by
  have hcount := hs.held.counted
  have hin := hs.inFlight
  refine
    { slots := ?_, segment := ?_, flags := ?_, balance := by omega, requests := hs.held.flagged,
      blocks := fun r hr => ⟨hs.held.named r hr, hs.held.kept r hr, hs.held.buffers r hr⟩,
      apart := ?_, submission := fun input t h => Origin.step hs h, checked := hs.held.checked }
  · have hq : (s.in_flight.map fun i => (s.position i).q).Perm (s.kernel.map Request.obj) := by
      refine (hs.held.flagged.map fun i => (s.position i).q).trans ?_
      rw [List.map_map]
      apply List.Perm.of_eq
      apply List.map_congr_left
      exact hs.held.named
    rw [hin]
    exact (hq.append_left _).trans hs.held.slots
  · rw [hin]
    exact hs.held.tail
  · rw [hin, hs.held.flagged.length_eq, List.length_map]
  · exact (List.pairwise_map.mp hs.held.slots_nodup).imp fun h => ⟨h, buffer_apart h⟩

/-- Every slot is free or in flight, once, in every state of every run; and whoever
holds a slot holds its control block and buffers. -/
theorem every_slot_is_free_or_held_by_one_request (rand_r : Nat → Nat × Nat) (c : Arguments)
    (pc : positionContainer) (ioerrors : Nat) (device : Memory) (hQD : c.QDmax ≤ 65535)
    (hclear : c.posStart ≠ 0 → ∀ p ∈ pc.positions, p.inFlight = false) {s t : Engine}
    {inputs : List Input} (hstart : start rand_r c pc ioerrors device = some s)
    (hrun : machine.run (step rand_r c) s inputs = some t) : t.SlotLaw rand_r c := by
  have hs : s.Conserved := start_conserved hQD hclear hstart
  have ht : t.Conserved := machine.invariant (fun s input t hs h => hs.step h) hrun hs
  exact ht.slot_law

/-- A write and a read of 16 bytes, both of which fit into flight. -/
def write_and_read : positionContainer :=
  { positions := [{ positionType.zero with len := 16, seed := 7, action := 'W' },
      { positionType.zero with pos := 4096, len := 16, seed := 7, action := 'R' }],
    maxbs := 16, writtenBytes := 0, writtenIOs := 0, readBytes := 0, readIOs := 0, UUID := 5 }

/-- Two slots, and one pass over the positions. -/
def two_slots : Arguments :=
  { checkTime := false, byteLimit := 0, QDmin := 2, QDmax := 2, alignment := 512, rounds := 1,
    posStart := 0, posLimit := 2, exitOnErrors := 1, fd := 3, discard_max_bytes := 0,
    posIncrement := 1, alternateEvery := 0, stringcompare := false }

def accepting : Answers :=
  { keepRunning := true, late := false, now := 1, done := 1, left := [], ret := 1 }

/-- Both requests are submitted, and the read completes first. -/
def read_first : List Input :=
  [.turn true true, .submit accepting, .submit accepting, .perform 1, .events (2 : ℕ) [⟨1, 16, 0⟩]]

theorem a_write_and_a_read_share_two_slots : ∃ s t, two_slots.QDmax ≤ 65535 ∧
    start glibc_rand_r two_slots write_and_read 0 Memory.zero = some s ∧
    machine.run (step glibc_rand_r two_slots) s read_first = some t ∧
    t.inFlight = 1 ∧ t.SlotLaw glibc_rand_r two_slots := by
  have hrun : ∃ s t, start glibc_rand_r two_slots write_and_read 0 Memory.zero = some s ∧
      machine.run (step glibc_rand_r two_slots) s read_first = some t ∧ t.inFlight = 1 :=
    ⟨_, _, rfl, rfl, rfl⟩
  obtain ⟨s, t, hs, ht, hcount⟩ := hrun
  refine ⟨s, t, by decide, hs, ht, hcount, ?_⟩
  exact every_slot_is_free_or_held_by_one_request glibc_rand_r two_slots write_and_read 0
    Memory.zero (by decide) (fun h => absurd rfl h) hs ht

end stutools.spit.Engine
