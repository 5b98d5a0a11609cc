-- `uring_stream`, one step at a time: what it asks `next`, the kernel and the clock comes
-- with the step, so every pattern of answers, partial submissions and completions is a run.
import Stutools.LinuxSlots

open ledger

namespace stutools

namespace uring

/-- What a call is given: the bytes of a slot's buffer, the submit batch, the entries of the
submission queue, and whether the ring can wait with a timeout. -/
structure Config where
  stride : Nat
  submit_batch : Nat
  entries : Nat
  ext_arg : Bool

/-- Where the loop is. Behind `turn`, `batch`, `flush` and `resubmit` stands a call of
`uring_submit`. -/
inductive Phase where
  | top
  | fill (slot : Nat)
  | turn (slot : Nat)
  | push (slot : Nat)
  | batch (slot : Nat)
  | flush
  | check
  | reap
  | idle
  | resubmit
  | wait
  | finished (result : Except Failure Unit)
  /-- The assertion on a request's length failed. -/
  | panicked

structure State where
  table : Table
  /-- Entries that were pushed and not accepted. -/
  sq : List Entry
  /-- Entries that were accepted and are not complete. -/
  kernel : List Entry
  /-- A request taken and not pushed. -/
  held : Option Request
  direction : Option Bool
  group : Nat
  completed : Nat
  phase : Phase

/-- What comes from outside with a step. -/
inductive Input where
  | go
  | next (n : Next)
  /-- How many entries `uring_submit` got accepted, or its error. -/
  | submitted (n : Except Int Nat)
  /-- A completion of one of the entries that the kernel has. -/
  | completion (k : Nat) (result : Int)
  /-- The completion queue is empty. -/
  | drained
  | clock (expired : Bool)
  /-- The error of the wait, if it has one. -/
  | waited (error : Option Int)

def start (requests : List Request) : State :=
  { table := .start requests, sq := [], kernel := [], held := none, direction := none, group := 0
    completed := 0, phase := .top }

def ETIME : Int := 62

def EINTR : Int := 4

/-- `uring_submit`: the kernel accepts the first entries of the submission queue. -/
def submit (s : State) (phase : Phase) : Input → Option State
  | .submitted (.ok n) =>
    if n ≤ s.sq.length then
      let ids := (s.sq.take n).map fun e => s.table.id_of e.user_data
      some { s with
        table := { s.table with ledger := s.table.ledger.accept ids }
        sq := s.sq.drop n
        kernel := s.kernel ++ s.sq.take n
        phase }
    else none
  | .submitted (.error code) => some { s with phase := .finished (.error (.System (.os code))) }
  | _ => none

/-- The entry of a request, for a slot. -/
def entry_of (slot : Nat) (r : Request) : Entry :=
  { user_data := slot, write := r.write, offset := r.offset, len := r.len % 2 ^ 32 }

/-- The turn of one slot in the loop over the slots. -/
def fill (cfg : Config) (s : State) (slot : Nat) (input : Input) : Option State :=
  if s.table.requests.length ≤ slot then some { s with phase := .flush }
  else if s.table.state_of slot ≠ 0 then some { s with phase := .fill (slot + 1) }
  else
    match input with
    | .next .wait => some { s with phase := .flush }
    | .next .done => some { s with table := { s.table with finished := true }, phase := .flush }
    | .next (.request r) =>
      let s := { s with table := s.table.take r, held := some r }
      if r.len ≤ cfg.stride then
        if s.direction.any (· != r.write) then some { s with phase := .turn slot }
        else some { s with phase := .push slot }
      else some { s with phase := .panicked }
    | _ => none

/-- Pushes the held request's entry and marks its slot. -/
def push (cfg : Config) (s : State) (slot : Nat) (r : Request) : State :=
  if s.sq.length < cfg.entries then
    { s with
      table := { s.table.put slot r 2 with pending := s.table.pending + 1 }
      sq := s.sq ++ [entry_of slot r]
      held := none
      direction := some r.write
      group := s.group + 1
      phase := if s.group + 1 = cfg.submit_batch then .batch slot else .fill (slot + 1) }
  else { s with phase := .finished (.error (.System (.other "submission queue full"))) }

/-- One completion of the queue. -/
def reap (s : State) (k : Nat) (result : Int) : Option State :=
  match s.kernel[k]? with
  | none => none
  | some e =>
    match s.table.complete e.user_data result 0 with
    | .error e => some { s with
        kernel := s.kernel.eraseIdx k
        phase := .finished (.error (.System e)) }
    | .ok table => some { s with
        table
        kernel := s.kernel.eraseIdx k
        completed := s.completed + 1 }

/-- One step, if the input is what the step asks for. -/
def step (cfg : Config) (s : State) (input : Input) : Option State :=
  match s.phase with
  | .top => some { s with
      direction := none
      group := 0
      phase := if s.table.finished then .flush else .fill 0 }
  | .fill slot => fill cfg s slot input
  | .turn slot => submit { s with group := 0 } (.push slot) input
  | .push slot =>
    match s.held with
    | some r => some (push cfg s slot r)
    | none => none
  | .batch slot => submit { s with group := 0 } (.fill (slot + 1)) input
  | .flush => if s.sq = [] then some { s with phase := .check } else submit s .check input
  | .check =>
    if s.table.finished ∧ s.table.pending = 0 then
      some { s with phase := .finished (s.table.failure.elim (.ok ()) .error) }
    else some { s with completed := 0, phase := .reap }
  | .reap =>
    match input with
    | .completion k result => reap s k result
    | .drained => some { s with phase := if 0 < s.completed then .top else .idle }
    | _ => none
  | .idle =>
    match input with
    | .clock true => some { s with phase := .finished (.error .Timeout) }
    | .clock false => some { s with
        phase := if cfg.ext_arg then (if s.sq = [] then .wait else .resubmit) else .top }
    | _ => none
  | .resubmit => submit s .top input
  | .wait =>
    match input with
    | .waited none => some { s with phase := .top }
    | .waited (some code) =>
      if code = ETIME ∨ code = EINTR then some { s with phase := .top }
      else some { s with phase := .finished (.error (.System (.os code))) }
    | _ => none
  | .finished _ => none
  | .panicked => none

/-! ## What a run keeps -/

/-- The number of the held request. -/
def held_ids (s : State) : List Nat :=
  if s.held.isSome then [s.table.ledger.taken.length - 1] else []

/-- What holds where the loop is. -/
def At (cfg : Config) (s : State) : Phase → Prop
  | .turn slot | .push slot => slot < s.table.requests.length ∧ s.table.state_of slot = 0 ∧
    ∃ r, s.held = some r ∧ r.len ≤ cfg.stride ∧
      s.table.ledger.taken[s.table.ledger.taken.length - 1]? = some r
  | .finished result => (result = .ok () ∨ ∃ n r, result = .error (.Incomplete n r)) →
    s.held = none ∧ s.table.pending = 0 ∧ result = s.table.failure.elim (.ok ()) .error
  | .panicked => True
  | _ => s.held = none

structure Sound (cfg : Config) (s : State) : Prop where
  table : s.table.Sound cfg.stride [] (slots_of s.sq ++ slots_of s.kernel)
  told : s.table.Told
  pending : s.table.pending = (slots_of s.sq ++ slots_of s.kernel).length
  ledger : ledger.Sound s.table.ledger (held_ids s ++ (slots_of s.sq).map s.table.id_of)
    ((slots_of s.kernel).map s.table.id_of)
  at_phase : At cfg s s.phase

variable {cfg : Config} {s t : State}

theorem start_sound {requests : List Request} (h : ∀ r ∈ requests, r.state = 0) :
    Sound cfg (start requests) :=
  ⟨Table.start_sound h, Table.start_told requests, rfl, ledger.Sound.empty, rfl⟩

/-- An error of the system says nothing of a full transfer. -/
theorem at_system (s : State) (e : IoError) : At cfg s (.finished (.error (.System e))) := by
  rintro (h | ⟨n, r, h⟩)
  · cases h
  · cases h

/-- A change of the phase alone. -/
theorem Sound.goes (h : Sound cfg s) {phase : Phase} (hat : At cfg { s with phase } phase) :
    Sound cfg { s with phase } :=
  ⟨h.table, h.told, h.pending, h.ledger, hat⟩

theorem Sound.submit (h : Sound cfg s) {phase : Phase} {input : Input}
    (hat : ∀ table sq kernel, table.requests = s.table.requests → table.ledger.taken =
      s.table.ledger.taken → At cfg { s with table, sq, kernel, phase } phase)
    (hstep : submit s phase input = some t) : Sound cfg t := by
  unfold uring.submit at hstep
  split at hstep
  · rename_i n
    split_ifs at hstep
    cases hstep
    have hsplit : slots_of s.sq = slots_of (s.sq.take n) ++ slots_of (s.sq.drop n) := by
      unfold slots_of
      rw [← List.map_append, List.take_append_drop]
    have hslots : (slots_of (s.sq.drop n) ++ slots_of (s.kernel ++ s.sq.take n)).Perm
        (slots_of s.sq ++ slots_of s.kernel) := by
      rw [hsplit]
      unfold slots_of
      rw [List.map_append, ← List.append_assoc]
      refine List.perm_append_comm.trans ?_
      rw [List.append_assoc]
    refine ⟨?_, ⟨h.told.outcomes, h.told.passed, h.told.failure⟩, ?_, ?_, hat _ _ _ rfl rfl⟩
    · obtain ⟨h1, h2, h3, h4, h5⟩ := h.table.perm (List.Perm.refl _) hslots
      exact ⟨h1, h2, h3, h4, h5⟩
    · rw [hslots.length_eq]
      exact h.pending
    · -- what was waiting in the submission queue is with the kernel now
      have hledger := h.ledger
      rw [hsplit, List.map_append] at hledger
      have hfirst : ((slots_of (s.sq.take n)).map s.table.id_of ++
          (held_ids s ++ (slots_of (s.sq.drop n)).map s.table.id_of)).Perm (held_ids s ++
            ((slots_of (s.sq.take n)).map s.table.id_of ++
              (slots_of (s.sq.drop n)).map s.table.id_of)) := by
        rw [← List.append_assoc, ← List.append_assoc]
        exact List.perm_append_comm.append_right _
      have haccept := ledger.Sound.accept (ledger.Sound.perm hledger hfirst (List.Perm.refl _))
      have hkernel : (slots_of (s.kernel ++ s.sq.take n)).map s.table.id_of =
          (slots_of s.kernel).map s.table.id_of ++ (slots_of (s.sq.take n)).map s.table.id_of := by
        unfold slots_of
        rw [List.map_append, List.map_append]
      dsimp only
      rw [← map_slots_of]
      exact hkernel ▸ haccept
  · cases hstep
    exact h.goes (at_system _ _)
  · cases hstep

theorem Sound.fill {slot : Nat} {input : Input} (h : Sound cfg s) (hphase : s.phase = .fill slot)
    (hstep : fill cfg s slot input = some t) : Sound cfg t := by
  have hheld : s.held = none := by
    have hat := h.at_phase
    rw [hphase] at hat
    exact hat
  unfold uring.fill at hstep
  split_ifs at hstep with hlen hstate
  · cases hstep
    exact h.goes hheld
  · cases hstep
    exact h.goes hheld
  rw [not_not] at hstate
  split at hstep
  · cases hstep
    exact h.goes hheld
  · cases hstep
    refine ⟨?_, ⟨h.told.outcomes, h.told.passed, h.told.failure⟩, h.pending, h.ledger, hheld⟩
    obtain ⟨h1, h2, h3, h4, h5⟩ := h.table
    exact ⟨h1, h2, h3, h4, h5⟩
  · rename_i r
    -- the request is held until its entry is pushed
    have htaken : ∀ phase, At cfg { s with table := s.table.take r, held := some r, phase } phase →
        Sound cfg { s with table := s.table.take r, held := some r, phase } := by
      intro phase hat
      refine ⟨h.table.take r, h.told.take r, h.pending, ?_, hat⟩
      have hledger := ledger.Sound.take h.ledger r
      unfold held_ids at hledger
      rw [hheld, Option.isSome_none, if_neg Bool.false_ne_true, List.nil_append] at hledger
      have hids : held_ids { s with table := s.table.take r, held := some r, phase } =
          [s.table.ledger.taken.length] := by
        unfold held_ids Table.take Ledger.take
        simp
      rw [hids]
      exact hledger
    have hlast : (s.table.take r).ledger.taken[(s.table.take r).ledger.taken.length - 1]? =
        some r := by
      unfold Table.take Ledger.take
      simp
    have hslot : ∀ phase, phase = .turn slot ∨ phase = .push slot → r.len ≤ cfg.stride →
        At cfg { s with table := s.table.take r, held := some r, phase } phase := by
      rintro phase (rfl | rfl) hr
      · exact ⟨Nat.not_le.mp hlen, hstate, r, rfl, hr, hlast⟩
      · exact ⟨Nat.not_le.mp hlen, hstate, r, rfl, hr, hlast⟩
    dsimp only at hstep
    split_ifs at hstep with hr hturn
    · cases hstep
      exact htaken _ (hslot _ (.inl rfl) hr)
    · cases hstep
      exact htaken _ (hslot _ (.inr rfl) hr)
    · cases hstep
      exact htaken _ trivial
  · cases hstep

theorem Sound.push {slot : Nat} {r : Request} (h : Sound cfg s) (hphase : s.phase = .push slot)
    (hheld : s.held = some r) : Sound cfg (push cfg s slot r) := by
  have hat := h.at_phase
  rw [hphase] at hat
  obtain ⟨hlt, hzero, r', hr', hlen, hlast⟩ := hat
  rw [hheld] at hr'
  cases hr'
  have hfree := (h.table.free hlt hzero).2
  have hid := Table.id_of_put hlt r 2 h.table.ids
  have hsame : ∀ i ∈ slots_of s.sq ++ slots_of s.kernel,
      (s.table.put slot r 2).id_of i = s.table.id_of i := by
    intro i hi
    rw [hid, if_neg fun he : slot = i => hfree (he ▸ hi)]
  have hpushed : ∀ phase group, (∀ u : State, u.held = none → At cfg u phase) →
      Sound cfg { s with
        table := { s.table.put slot r 2 with pending := s.table.pending + 1 }
        sq := s.sq ++ [entry_of slot r]
        held := none
        direction := some r.write
        group
        phase } := by
    intro phase group hat
    have hslots : (slots_of (s.sq ++ [entry_of slot r]) ++ slots_of s.kernel).Perm
        (slot :: (slots_of s.sq ++ slots_of s.kernel)) := by
      unfold slots_of
      rw [List.map_append, List.append_assoc]
      exact List.perm_middle
    refine ⟨?_, ⟨h.told.outcomes, h.told.passed, h.told.failure⟩, ?_, ?_, hat _ rfl⟩
    · obtain ⟨h1, h2, h3, h4, h5⟩ := (h.table.push hlt r hzero hlast hlen).perm
        (List.Perm.refl _) hslots
      exact ⟨h1, h2, h3, h4, h5⟩
    · rw [hslots.length_eq, List.length_cons, ← h.pending]
    · have hledger := h.ledger
      unfold held_ids at hledger ⊢
      rw [hheld, Option.isSome_some, if_pos rfl] at hledger
      have hsq : (slots_of (s.sq ++ [entry_of slot r])).map (s.table.put slot r 2).id_of =
          (slots_of s.sq).map s.table.id_of ++ [s.table.ledger.taken.length - 1] := by
        unfold slots_of
        rw [List.map_append, List.map_append]
        congr 1
        · exact List.map_congr_left fun i hi => hsame i (List.mem_append_left _ hi)
        · have hown := hid slot
          rw [if_pos rfl] at hown
          exact congrArg (fun n => [n]) hown
      have hkernel : (slots_of s.kernel).map (s.table.put slot r 2).id_of =
          (slots_of s.kernel).map s.table.id_of :=
        List.map_congr_left fun i hi => hsame i (List.mem_append_right _ hi)
      refine ledger.Sound.perm (l := s.table.ledger) hledger ?_ (List.Perm.of_eq hkernel)
      exact (List.Perm.of_eq hsq).trans List.perm_append_comm
  unfold uring.push
  split_ifs with hroom hbatch
  · exact hpushed _ _ fun _ hu => hu
  · exact hpushed _ _ fun _ hu => hu
  · exact h.goes (at_system _ _)

theorem Sound.reap {k : Nat} {result : Int} (h : Sound cfg s) (hphase : s.phase = .reap)
    (hstride : cfg.stride < 2 ^ 63) (hstep : reap s k result = some t) : Sound cfg t := by
  have hheld : s.held = none := by
    have hat := h.at_phase
    rw [hphase] at hat
    exact hat
  unfold uring.reap at hstep
  split at hstep
  · cases hstep
  rename_i e he
  obtain ⟨u, hu, hsound, htold, hpending, hid, -, hledger⟩ :=
    h.table.complete_at h.told h.pending hstride he result 0
  rw [hu] at hstep
  cases hstep
  refine ⟨hsound, htold, hpending, ?_, ?_⟩
  · have hsettled := hledger _ h.ledger
    unfold held_ids at hsettled ⊢
    rw [hheld, Option.isSome_none, if_neg Bool.false_ne_true] at hsettled ⊢
    rw [List.map_congr_left fun i _ => hid i, List.map_congr_left fun i _ => hid i]
    exact hsettled
  · dsimp only
    rw [hphase]
    exact hheld

theorem Sound.step {input : Input} (h : Sound cfg s) (hstride : cfg.stride < 2 ^ 63)
    (hstep : step cfg s input = some t) : Sound cfg t := by
  have hat := h.at_phase
  unfold uring.step at hstep
  split at hstep
  · rename_i hphase
    rw [hphase] at hat
    cases hstep
    refine ⟨h.table, h.told, h.pending, h.ledger, ?_⟩
    dsimp only
    split_ifs
    · exact hat
    · exact hat
  · rename_i hphase
    exact h.fill hphase hstep
  · rename_i hphase
    rw [hphase] at hat
    have hgroup : Sound cfg { s with group := 0 } :=
      ⟨h.table, h.told, h.pending, h.ledger, by dsimp only; rw [hphase]; exact hat⟩
    refine hgroup.submit (fun table sq kernel hrequests htaken => ?_) hstep
    obtain ⟨hlt, hzero, r, hr, hlen, hlast⟩ := hat
    refine ⟨hrequests ▸ hlt, ?_, r, hr, hlen, htaken ▸ hlast⟩
    unfold Table.state_of Table.request_of at hzero ⊢
    dsimp only
    rw [hrequests]
    exact hzero
  · rename_i hphase
    split at hstep
    · rename_i r hheld
      cases hstep
      exact h.push hphase hheld
    · cases hstep
  · rename_i hphase
    rw [hphase] at hat
    have hgroup : Sound cfg { s with group := 0 } :=
      ⟨h.table, h.told, h.pending, h.ledger, by dsimp only; rw [hphase]; exact hat⟩
    refine hgroup.submit (fun _ _ _ _ _ => ?_) hstep
    exact hat
  · rename_i hphase
    rw [hphase] at hat
    split_ifs at hstep
    · cases hstep
      exact h.goes hat
    · refine h.submit (fun _ _ _ _ _ => ?_) hstep
      exact hat
  · rename_i hphase
    rw [hphase] at hat
    split_ifs at hstep with hdone
    · cases hstep
      exact h.goes fun _ => ⟨hat, hdone.2, rfl⟩
    · cases hstep
      exact ⟨h.table, h.told, h.pending, h.ledger, hat⟩
  · rename_i hphase
    rw [hphase] at hat
    split at hstep
    · exact h.reap hphase hstride hstep
    · cases hstep
      refine h.goes ?_
      split_ifs
      · exact hat
      · exact hat
    · cases hstep
  · rename_i hphase
    rw [hphase] at hat
    split at hstep
    · cases hstep
      refine h.goes ?_
      rintro (hend | ⟨n, r, hend⟩)
      · cases hend
      · cases hend
    · cases hstep
      refine h.goes ?_
      split_ifs
      · exact hat
      · exact hat
      · exact hat
    · cases hstep
  · rename_i hphase
    rw [hphase] at hat
    refine h.submit (fun _ _ _ _ _ => ?_) hstep
    exact hat
  · rename_i hphase
    rw [hphase] at hat
    split at hstep
    · cases hstep
      exact h.goes hat
    · split_ifs at hstep
      · cases hstep
        exact h.goes hat
      · cases hstep
        exact h.goes (at_system _ _)
    · cases hstep
  · cases hstep
  · cases hstep

/-- What the loop returned, if it returned. -/
def ended (s : State) : Option (Except Failure Unit) :=
  match s.phase with
  | .finished result => some result
  | _ => none

theorem Sound.contract (h : Sound cfg s) : s.table.Contract (held_ids s) (ended s) := by
  refine Table.Contract.of h.table h.told h.ledger (List.Perm.refl _) h.pending ?_
  intro result hresult hkind
  have hat := h.at_phase
  unfold ended at hresult
  split at hresult
  · rename_i hphase
    cases hresult
    rw [hphase] at hat
    obtain ⟨hheld, hpending, hend⟩ := hat hkind
    have hnil : slots_of s.sq ++ slots_of s.kernel = [] := by
      rw [← List.length_eq_zero_iff, ← h.pending, hpending]
    refine ⟨rfl, hnil, ?_, hend⟩
    unfold held_ids
    rw [hheld]
    rfl
  · cases hresult

/-- In every run of the loop, from any free slots. -/
theorem contract_of_run {requests : List Request} (hfree : ∀ r ∈ requests, r.state = 0)
    (hstride : cfg.stride < 2 ^ 63) {inputs : List Input}
    (hrun : machine.run (step cfg) (start requests) inputs = some s) :
    s.table.Contract (held_ids s) (ended s) :=
  Sound.contract (machine.invariant (P := Sound cfg) (fun _ _ _ h hstep => h.step hstride hstep) hrun
    (start_sound hfree))

end uring

end stutools
