-- `Aio::execute_stream`, one step at a time like `uring_stream`: prepared requests wait in
-- an array of pointers, and a group that was accepted in part goes on from its head.
import Stutools.Uring

open ledger

namespace stutools

namespace libaio

/-- What a call is given: the bytes of a slot's buffer, the submit batch and the limit on
errors, zero for the default one. -/
structure Config where
  stride : Nat
  submit_batch : Nat
  error_limit : Nat

/-- Where the loop is. `events` counts the events that are still to be looked at. -/
inductive Phase where
  | top
  | fill (slot : Nat)
  | submit
  | check
  | getevents
  | events (left : Nat)
  | clock
  | finished (result : Except Failure Unit)
  /-- The assertion on a request's length failed. -/
  | panicked

structure State where
  table : Table
  /-- One control block for each slot. -/
  cbs : List Entry
  /-- The part of `pointers` that is in use: its length is `ready`. A pointer is the place
  of its control block. -/
  pointers : List Nat
  head : Nat
  /-- Entries that were accepted and are not complete. -/
  kernel : List Entry
  errors : Nat
  phase : Phase

/-- What comes from outside with a step. -/
inductive Input where
  | go
  | next (n : Next)
  /-- What `io_submit` returns. -/
  | submitted (ret : Int)
  /-- What `io_getevents` returns. -/
  | got (ret : Int)
  /-- An event for one of the entries that the kernel has. -/
  | event (k : Nat) (result result2 : Int)
  | clock (expired : Bool)

def start (requests : List Request) (errors : Nat) : State :=
  { table := .start requests, cbs := List.replicate requests.length default, pointers := []
    head := 0, kernel := [], errors, phase := .top }

def EAGAIN : Int := 11

def EINTR : Int := 4

/-- The control block behind a pointer. -/
def cb_of (s : State) (pointer : Nat) : Entry := s.cbs.getD pointer default

/-- The pointers that are not submitted. -/
def waiting (s : State) : List Nat := s.pointers.drop s.head

/-- How many pointers go into the next submission: the first one, and those behind it of the
same direction, up to the batch. -/
def count (cfg : Config) (s : State) : Nat :=
  match waiting s with
  | [] => 0
  | first :: rest => 1 + ((rest.take (cfg.submit_batch - 1)).takeWhile fun p =>
      (cb_of s p).write == (cb_of s first).write).length

/-- The turn of one slot in the loop over the slots. -/
def fill (cfg : Config) (s : State) (slot : Nat) (input : Input) : Option State :=
  if s.table.requests.length ≤ slot then some { s with phase := .submit }
  else if s.table.state_of slot ≠ 0 then some { s with phase := .fill (slot + 1) }
  else
    match input with
    | .next .wait => some { s with phase := .submit }
    | .next .done => some { s with table := { s.table with finished := true }, phase := .submit }
    | .next (.request r) =>
      if r.len ≤ cfg.stride then
        some { s with
          table := (s.table.take r).put slot r 1
          cbs := s.cbs.set slot
            { user_data := slot, write := r.write, offset := r.offset, len := r.len }
          pointers := s.pointers ++ [slot]
          phase := .fill (slot + 1) }
      else some { s with table := s.table.take r, phase := .panicked }
    | _ => none

/-- The kernel took the first `n` entries that wait. -/
def accept (s : State) (n : Nat) : State :=
  let taken := ((waiting s).take n).map (cb_of s)
  let table := taken.foldl (fun t e => t.own e.user_data) s.table
  let ids := taken.map fun e => s.table.id_of e.user_data
  { s with
    table := { table with pending := table.pending + n, ledger := table.ledger.accept ids }
    head := s.head + n
    kernel := s.kernel ++ taken }

/-- What the loop makes of the value of `io_submit`. It takes at most what it was given. -/
def submit (cfg : Config) (s : State) (ret : Int) : Option State :=
  if 0 < ret then
    if ret.toNat ≤ count cfg s then some (accept s ret.toNat) else none
  else if ret = 0 ∨ ret = -EAGAIN ∨ ret = -EINTR then some { s with phase := .check }
  else
    let s := { s with errors := s.errors + 1 }
    if (cfg.error_limit ≠ 0 ∧ cfg.error_limit ≤ s.errors) ∨ 1024 ≤ s.errors then
      some { s with phase := .finished (.error (.System (.os (-ret)))) }
    else some s

/-- One event. -/
def event (s : State) (left k : Nat) (result result2 : Int) : Option State :=
  match s.kernel[k]? with
  | none => none
  | some e =>
    match s.table.complete e.user_data result result2 with
    | .error e => some { s with
        kernel := s.kernel.eraseIdx k
        phase := .finished (.error (.System e)) }
    | .ok table => some { s with
        table
        kernel := s.kernel.eraseIdx k
        phase := .events left }

/-- One step, if the input is what the step asks for. -/
def step (cfg : Config) (s : State) (input : Input) : Option State :=
  match s.phase with
  | .top =>
    if s.head = s.pointers.length then
      some { s with
        pointers := []
        head := 0
        phase := if s.table.finished then .submit else .fill 0 }
    else some { s with phase := .submit }
  | .fill slot => fill cfg s slot input
  | .submit =>
    if s.head < s.pointers.length then
      match input with
      | .submitted ret => submit cfg s ret
      | _ => none
    else some { s with phase := .check }
  | .check =>
    if s.table.finished ∧ s.table.pending = 0 ∧ s.head = s.pointers.length then
      some { s with phase := .finished (s.table.failure.elim (.ok ()) .error) }
    else if s.table.pending ≠ 0 then some { s with phase := .getevents }
    else some { s with phase := .clock }
  | .getevents =>
    match input with
    | .got ret =>
      if ret < 0 ∧ ret ≠ -EINTR then
        some { s with phase := .finished (.error (.System (.os (-ret)))) }
      else if ret.toNat ≤ s.table.pending then some { s with phase := .events ret.toNat }
      else none
    | _ => none
  | .events 0 => some { s with phase := .clock }
  | .events (left + 1) =>
    match input with
    | .event k result result2 => event s left k result result2
    | _ => none
  | .clock =>
    match input with
    | .clock true => some { s with phase := .finished (.error .Timeout) }
    | .clock false => some { s with phase := .top }
    | _ => none
  | .finished _ => none
  | .panicked => none

/-! ## What a run keeps -/

/-- The number of the request that was taken when the assertion failed. -/
def held_ids (s : State) : List Nat :=
  match s.phase with
  | .panicked => [s.table.ledger.taken.length - 1]
  | _ => []

/-- What holds where the loop is. -/
def At (s : State) : Phase → Prop
  | .finished result => (result = .ok () ∨ ∃ n r, result = .error (.Incomplete n r)) →
    waiting s = [] ∧ s.table.pending = 0 ∧ result = s.table.failure.elim (.ok ()) .error
  | _ => True

structure Sound (cfg : Config) (s : State) : Prop where
  table : s.table.Sound cfg.stride (waiting s) (slots_of s.kernel)
  told : s.table.Told
  pending : s.table.pending = (slots_of s.kernel).length
  ledger : ledger.Sound s.table.ledger (held_ids s ++ (waiting s).map s.table.id_of)
    ((slots_of s.kernel).map s.table.id_of)
  head : s.head ≤ s.pointers.length
  cbs : s.cbs.length = s.table.requests.length
  blocks : ∀ p ∈ waiting s, (cb_of s p).user_data = p
  at_phase : At s s.phase

variable {cfg : Config} {s t : State}

theorem start_sound {requests : List Request} (h : ∀ r ∈ requests, r.state = 0) (errors : Nat) :
    Sound cfg (start requests errors) :=
  ⟨Table.start_sound h, Table.start_told requests, rfl, ledger.Sound.empty, Nat.le_refl _,
    List.length_replicate, by simp [waiting, start], trivial⟩

/-- An error of the system says nothing of a full transfer. -/
theorem at_system (s : State) (e : IoError) : At s (.finished (.error (.System e))) := by
  rintro (h | ⟨n, r, h⟩)
  · cases h
  · cases h

/-- A change of the phase alone, to one where the loop goes on or returns. -/
theorem Sound.goes (h : Sound cfg s) (hphase : held_ids s = []) {phase : Phase}
    (hids : held_ids { s with phase } = []) (hat : At { s with phase } phase) :
    Sound cfg { s with phase } := by
  refine ⟨h.table, h.told, h.pending, ?_, h.head, h.cbs, h.blocks, hat⟩
  have hledger := h.ledger
  rw [hphase] at hledger
  rw [hids]
  exact hledger

theorem Sound.fill {slot : Nat} {input : Input} (h : Sound cfg s) (hphase : s.phase = .fill slot)
    (hstep : fill cfg s slot input = some t) : Sound cfg t := by
  have hids : held_ids s = [] := by
    unfold held_ids
    rw [hphase]
  unfold libaio.fill at hstep
  split_ifs at hstep with hlen hstate
  · cases hstep
    exact h.goes hids rfl trivial
  · cases hstep
    exact h.goes hids rfl trivial
  rw [not_not] at hstate
  have hlt : slot < s.table.requests.length := Nat.not_le.mp hlen
  split at hstep
  · cases hstep
    exact h.goes hids rfl trivial
  · cases hstep
    have hdone : Sound cfg { s with phase := .submit } := h.goes hids rfl trivial
    obtain ⟨⟨h1, h2, h3, h4, h5⟩, ⟨k1, k2, k3⟩, h7, h8, h9, h10, h11, -⟩ := hdone
    exact ⟨⟨h1, h2, h3, h4, h5⟩, ⟨k1, k2, k3⟩, h7, h8, h9, h10, h11, trivial⟩
  · rename_i r
    have hledger := ledger.Sound.take h.ledger r
    rw [hids, List.nil_append] at hledger
    split_ifs at hstep with hr
    · cases hstep
      have hlast : (s.table.take r).ledger.taken[(s.table.take r).ledger.taken.length - 1]? =
          some r := by
        unfold Table.take Ledger.take
        simp
      have htaken := h.table.take r
      have hlt' : slot < (s.table.take r).requests.length := hlt
      obtain ⟨hwaiting, hkernel⟩ := htaken.free hlt hstate
      have hid := Table.id_of_put hlt' r 1 htaken.ids
      have hsame : ∀ i ∈ waiting s ++ slots_of s.kernel,
          ((s.table.take r).put slot r 1).id_of i = s.table.id_of i := by
        intro i hi
        rw [hid, if_neg fun he : slot = i =>
          (List.mem_append.mp (he ▸ hi)).elim hwaiting hkernel]
        rfl
      have hpointers : (s.pointers ++ [slot]).drop s.head = waiting s ++ [slot] :=
        List.drop_append_of_le_length h.head
      have hperm : (waiting s ++ [slot]).Perm (slot :: waiting s) := List.perm_append_singleton _ _
      refine ⟨?_, ?_, h.pending, ?_, ?_, ?_, ?_, trivial⟩
      · unfold waiting
        dsimp only
        rw [hpointers]
        exact (htaken.prepare hlt' r hstate hlast hr).perm hperm (List.Perm.refl _)
      · obtain ⟨k1, k2, k3⟩ := h.told.take r
        exact ⟨k1, k2, k3⟩
      · unfold waiting held_ids
        dsimp only
        rw [hpointers, List.map_append]
        have hmap : (waiting s).map ((s.table.take r).put slot r 1).id_of =
            (waiting s).map s.table.id_of :=
          List.map_congr_left fun i hi => hsame i (List.mem_append_left _ hi)
        have hkmap : (slots_of s.kernel).map ((s.table.take r).put slot r 1).id_of =
            (slots_of s.kernel).map s.table.id_of :=
          List.map_congr_left fun i hi => hsame i (List.mem_append_right _ hi)
        have hown : [slot].map ((s.table.take r).put slot r 1).id_of =
            [s.table.ledger.taken.length] := by
          rw [List.map_singleton, hid, if_pos rfl]
          unfold Table.take Ledger.take
          simp
        rw [hmap, hkmap, hown, List.nil_append]
        exact ledger.Sound.perm hledger (List.perm_append_singleton _ _) (List.Perm.refl _)
      · dsimp only
        rw [List.length_append]
        exact Nat.le_add_right_of_le h.head
      · simpa [Table.put, Table.take] using h.cbs
      · intro p hp
        unfold waiting at hp
        dsimp only at hp
        rw [hpointers, List.mem_append, List.mem_singleton] at hp
        unfold cb_of
        dsimp only
        rw [flags.getD_set (by rw [h.cbs]; exact hlt)]
        by_cases hslot : slot = p
        · rw [if_pos hslot]
          exact hslot
        · rw [if_neg hslot]
          exact h.blocks p (hp.resolve_right fun he => hslot he.symm)
    · cases hstep
      have hlost : held_ids { s with table := s.table.take r, phase := .panicked } =
          [s.table.ledger.taken.length] := by
        unfold held_ids Table.take Ledger.take
        simp
      refine ⟨h.table.take r, h.told.take r, h.pending, ?_, h.head, h.cbs, h.blocks, trivial⟩
      rw [hlost]
      exact hledger
  · cases hstep

theorem count_le (cfg : Config) (s : State) : count cfg s ≤ (waiting s).length := by
  unfold count
  split
  · exact Nat.zero_le _
  · rename_i first rest hwaiting
    have hle := (List.takeWhile_sublist (fun p => (cb_of s p).write == (cb_of s first).write)
      (l := rest.take (cfg.submit_batch - 1))).length_le
    rw [List.length_take] at hle
    rw [hwaiting, List.length_cons]
    omega

theorem waiting_accept (s : State) (n : Nat) : waiting (accept s n) = (waiting s).drop n := by
  unfold waiting accept
  exact (List.drop_drop).symm

theorem Sound.accept {n : Nat} (h : Sound cfg s) (hphase : s.phase = .submit)
    (hn : n ≤ (waiting s).length) : Sound cfg (accept s n) := by
  have hids : held_ids s = [] := by
    unfold held_ids
    rw [hphase]
  have hids' : held_ids (libaio.accept s n) = [] := by
    unfold held_ids libaio.accept
    dsimp only
    rw [hphase]
  -- each pointer that was accepted leads to the control block of its own slot
  have hslots : slots_of (((waiting s).take n).map (cb_of s)) = (waiting s).take n := by
    unfold slots_of
    rw [List.map_map]
    conv_rhs => rw [← List.map_id ((waiting s).take n)]
    exact List.map_congr_left fun p hp => h.blocks p (List.mem_of_mem_take hp)
  have hkernel : slots_of (libaio.accept s n).kernel = slots_of s.kernel ++ (waiting s).take n := by
    conv_rhs => rw [← hslots]
    exact List.map_append
  obtain ⟨requests, heq, hlength⟩ := Table.own_all_eq ((waiting s).take n) s.table
  have htable : (libaio.accept s n).table = { s.table with
      requests
      pending := s.table.pending + n
      ledger := s.table.ledger.accept (((waiting s).take n).map s.table.id_of) } := by
    have hfold : ∀ entries : List Entry, entries.foldl (fun t e => t.own e.user_data) s.table =
        (slots_of entries).foldl Table.own s.table :=
      fun entries => List.foldl_map.symm
    unfold libaio.accept
    dsimp only
    rw [← map_slots_of, hfold, hslots, heq]
  have hid : (libaio.accept s n).table.id_of = s.table.id_of := by
    rw [htable]
    rfl
  refine ⟨?_, ?_, ?_, ?_, ?_, ?_, ?_, ?_⟩
  · have hown := h.table
    rw [← List.take_append_drop n (waiting s)] at hown
    replace hown := hown.own_all
    rw [heq] at hown
    obtain ⟨h1, h2, h3, h4, h5⟩ := hown
    rw [waiting_accept, hkernel, htable]
    exact ⟨h1, h2, h3, h4, h5⟩
  · rw [htable]
    exact ⟨h.told.outcomes, h.told.passed, h.told.failure⟩
  · rw [hkernel, htable, List.length_append, List.length_take, Nat.min_eq_left hn, ← h.pending]
  · have hledger := h.ledger
    rw [hids, List.nil_append, ← List.take_append_drop n (waiting s), List.map_append] at hledger
    rw [hids', List.nil_append, waiting_accept, hkernel, hid, htable, List.map_append]
    exact ledger.Sound.accept hledger
  · have hroom := hn
    unfold waiting at hroom
    rw [List.length_drop] at hroom
    have hhead := h.head
    unfold libaio.accept
    dsimp only
    omega
  · rw [htable]
    exact h.cbs.trans hlength.symm
  · intro p hp
    rw [waiting_accept] at hp
    exact h.blocks p (List.mem_of_mem_drop hp)
  · unfold libaio.accept
    dsimp only
    rw [hphase]
    trivial

theorem Sound.submit {ret : Int} (h : Sound cfg s) (hphase : s.phase = .submit)
    (hstep : submit cfg s ret = some t) : Sound cfg t := by
  have hids : held_ids s = [] := by
    unfold held_ids
    rw [hphase]
  unfold libaio.submit at hstep
  dsimp only at hstep
  split_ifs at hstep with hpos hle hfull hlimit
  · cases hstep
    exact h.accept hphase (hle.trans (count_le cfg s))
  · cases hstep
    exact h.goes hids rfl trivial
  · cases hstep
    have hgoes : Sound cfg { s with errors := s.errors + 1 } :=
      ⟨h.table, h.told, h.pending, h.ledger, h.head, h.cbs, h.blocks, h.at_phase⟩
    exact hgoes.goes hids rfl (at_system _ _)
  · cases hstep
    exact ⟨h.table, h.told, h.pending, h.ledger, h.head, h.cbs, h.blocks, h.at_phase⟩

theorem Sound.event {left k : Nat} {result result2 : Int} (h : Sound cfg s)
    (hphase : s.phase = .events (left + 1)) (hstride : cfg.stride < 2 ^ 63)
    (hstep : event s left k result result2 = some t) : Sound cfg t := by
  have hids : held_ids s = [] := by
    unfold held_ids
    rw [hphase]
  unfold libaio.event at hstep
  split at hstep
  · cases hstep
  rename_i e he
  have htable : s.table.Sound cfg.stride (waiting s) ([] ++ slots_of s.kernel) := h.table
  obtain ⟨u, hu, hsound, htold, hpending, hid, hlength, hledger⟩ :=
    htable.complete_at h.told h.pending hstride he result result2
  rw [hu] at hstep
  cases hstep
  refine ⟨hsound, htold, hpending, ?_, h.head, h.cbs.trans hlength.symm, h.blocks, trivial⟩
  have hsettled := hledger _ h.ledger
  rw [hids] at hsettled
  rw [List.map_congr_left fun i _ => hid i, List.map_congr_left fun i _ => hid i]
  exact hsettled

theorem Sound.step {input : Input} (h : Sound cfg s) (hstride : cfg.stride < 2 ^ 63)
    (hstep : step cfg s input = some t) : Sound cfg t := by
  unfold libaio.step at hstep
  split at hstep
  · rename_i hphase
    have hids : held_ids s = [] := by
      unfold held_ids
      rw [hphase]
    by_cases hhead : s.head = s.pointers.length
    · rw [if_pos hhead] at hstep
      cases hstep
      have hnil : waiting s = [] := by
        unfold waiting
        rw [hhead, List.drop_length]
      obtain ⟨h1, h2, h3, h4, h5, h6, h7, -⟩ := h
      rw [hnil] at h1 h4
      rw [hids] at h4
      refine ⟨h1, h2, h3, ?_, Nat.le_refl _, h6, by simp [waiting], ?_⟩
      · unfold held_ids
        dsimp only
        split_ifs
        · exact h4
        · exact h4
      · dsimp only
        split_ifs
        · trivial
        · trivial
    · rw [if_neg hhead] at hstep
      cases hstep
      exact h.goes hids rfl trivial
  · rename_i hphase
    exact h.fill hphase hstep
  · rename_i hphase
    split_ifs at hstep
    · split at hstep
      · exact h.submit hphase hstep
      · cases hstep
    · cases hstep
      exact h.goes (by unfold held_ids; rw [hphase]) rfl trivial
  · rename_i hphase
    have hids : held_ids s = [] := by
      unfold held_ids
      rw [hphase]
    split_ifs at hstep with hdone hpending
    · cases hstep
      refine h.goes hids rfl fun _ => ⟨?_, hdone.2.1, rfl⟩
      unfold waiting
      dsimp only
      rw [hdone.2.2, List.drop_length]
    · cases hstep
      exact h.goes hids rfl trivial
    · cases hstep
      exact h.goes hids rfl trivial
  · rename_i hphase
    have hids : held_ids s = [] := by
      unfold held_ids
      rw [hphase]
    split at hstep
    · split_ifs at hstep
      · cases hstep
        exact h.goes hids rfl (at_system _ _)
      · cases hstep
        exact h.goes hids rfl trivial
    · cases hstep
  · rename_i hphase
    cases hstep
    exact h.goes (by unfold held_ids; rw [hphase]) rfl trivial
  · rename_i hphase
    split at hstep
    · exact h.event hphase hstride hstep
    · cases hstep
  · rename_i hphase
    have hids : held_ids s = [] := by
      unfold held_ids
      rw [hphase]
    split at hstep
    · cases hstep
      refine h.goes hids rfl ?_
      rintro (hend | ⟨n, r, hend⟩)
      · cases hend
      · cases hend
    · cases hstep
      exact h.goes hids rfl trivial
    · cases hstep
  · cases hstep
  · cases hstep

/-- What the loop returned, if it returned. -/
def ended (s : State) : Option (Except Failure Unit) :=
  match s.phase with
  | .finished result => some result
  | _ => none

theorem Sound.contract (h : Sound cfg s) : s.table.Contract (held_ids s) (ended s) := by
  refine Table.Contract.of h.table h.told h.ledger (List.Perm.refl _) h.pending ?_
  intro result hresult hkind
  have hat := h.at_phase
  unfold ended at hresult
  split at hresult
  · rename_i hphase
    cases hresult
    rw [hphase] at hat
    obtain ⟨hwaiting, hpending, hend⟩ := hat hkind
    have hnil : slots_of s.kernel = [] := by
      rw [← List.length_eq_zero_iff, ← h.pending, hpending]
    refine ⟨hwaiting, hnil, ?_, hend⟩
    unfold held_ids
    rw [hphase]
  · cases hresult

/-- In every run of the loop, from any free slots. -/
theorem contract_of_run {requests : List Request} (hfree : ∀ r ∈ requests, r.state = 0)
    (hstride : cfg.stride < 2 ^ 63) {errors : Nat} {inputs : List Input}
    (hrun : machine.run (step cfg) (start requests errors) inputs = some s) :
    s.table.Contract (held_ids s) (ended s) :=
  Sound.contract (machine.invariant (P := Sound cfg) (fun _ _ _ h hstep => h.step hstride hstep) hrun
    (start_sound hfree errors))

end libaio

/-- For both loops, any number of slots and any submit batch, and every run: each request
taken from `next` is accepted once at most and is at one place, every slot is in state 0, 1
or 2, and `pending` counts those in state 2. Where the loop returns without an error of the
system or a timeout, nothing is pending, a request was passed to `complete` exactly if its
full length was transferred, and the failure returned is the first short transfer. -/
theorem linux_streams_neither_lose_nor_repeat_a_request {requests : List Request}
    (hfree : ∀ r ∈ requests, r.state = 0) {stride : Nat} (hstride : stride < 2 ^ 63)
    (submit_batch : Nat) :
    (∀ (entries : Nat) (ext_arg : Bool) (inputs : List uring.Input) (s : uring.State),
      machine.run (uring.step ⟨stride, submit_batch, entries, ext_arg⟩) (uring.start requests)
        inputs = some s → s.table.Contract (uring.held_ids s) (uring.ended s)) ∧
    ∀ (error_limit errors : Nat) (inputs : List libaio.Input) (s : libaio.State),
      machine.run (libaio.step ⟨stride, submit_batch, error_limit⟩) (libaio.start requests errors)
        inputs = some s → s.table.Contract (libaio.held_ids s) (libaio.ended s) := by
  refine ⟨fun entries ext_arg inputs s hrun => ?_, fun error_limit errors inputs s hrun => ?_⟩
  · exact uring.contract_of_run hfree hstride hrun
  · exact libaio.contract_of_run hfree hstride hrun

/-- A write and a read on two slots. The ring accepts both late and completes the read
first; the write comes back short. -/
def uring.short_write : List uring.Input :=
  [.go, .next (.request { Request.default with len := 512, write := true }), .go,
    .next (.request { Request.default with offset := 512, len := 512 }), .submitted (.ok 0), .go,
    .go, .submitted (.ok 2), .go, .completion 1 512, .drained, .go, .go, .next .done, .go, .go,
    .completion 0 100, .drained, .go, .go, .go]

/-- Two writes on two slots. The kernel accepts them one at a time and completes the second
first. -/
def libaio.one_at_a_time : List libaio.Input :=
  [.go, .next (.request { Request.default with len := 512, write := true }),
    .next (.request { Request.default with offset := 512, len := 512, write := true }), .go,
    .submitted 1, .submitted (-11), .go, .got 1, .event 0 512 0, .go, .clock false, .go,
    .submitted 1, .go, .go, .got 1, .event 0 512 0, .go, .clock false, .go, .next .done, .go, .go]

/-- Both runs end, the first with the short write and the second without an error. -/
theorem two_slots_lose_nothing : ∃ s t,
    machine.run (uring.step ⟨4096, 2, 2, true⟩) (uring.start (List.replicate 2 Request.default))
      uring.short_write = some s ∧
    uring.ended s = some (.error (.Incomplete 100
      { Request.default with len := 512, write := true, state := 2 })) ∧
    machine.run (libaio.step ⟨4096, 2, 0⟩) (libaio.start (List.replicate 2 Request.default) 0)
      libaio.one_at_a_time = some t ∧
    libaio.ended t = some (.ok ()) ∧
    s.table.Contract (uring.held_ids s) (uring.ended s) ∧
    t.table.Contract (libaio.held_ids t) (libaio.ended t) := by
  have hruns : ∃ s t,
      machine.run (uring.step ⟨4096, 2, 2, true⟩) (uring.start (List.replicate 2 Request.default))
        uring.short_write = some s ∧
      uring.ended s = some (.error (.Incomplete 100
        { Request.default with len := 512, write := true, state := 2 })) ∧
      machine.run (libaio.step ⟨4096, 2, 0⟩) (libaio.start (List.replicate 2 Request.default) 0)
        libaio.one_at_a_time = some t ∧
      libaio.ended t = some (.ok ()) :=
    ⟨_, _, rfl, rfl, rfl, rfl⟩
  obtain ⟨s, t, hs, hs', ht, ht'⟩ := hruns
  obtain ⟨huring, haio⟩ := @linux_streams_neither_lose_nor_repeat_a_request
    (List.replicate 2 Request.default) (by decide) 4096 (by decide) 2
  exact ⟨s, t, hs, hs', ht, ht', huring _ _ _ _ hs, haio _ _ _ _ ht⟩

end stutools
