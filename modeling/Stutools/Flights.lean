-- The requests in flight of the POSIX and Windows backends: a backend has a request for
-- each slot, the count of `StreamStats` and that of the observer, and a started request
-- moves all three.
import Stutools.LinuxSlots

open ledger

namespace stutools

/-- The result of a finished request: its bytes, or the code of its error. -/
abbrev Answer := Except Int Nat

/-- `outcome`: maps a finished request to success, a short transfer or an operation error. -/
def outcome (r : Request) : Answer → Option Failure
  | .ok n => if n = r.len then none else some (.Incomplete n r)
  | .error code => some (.Operation (.os code) r.write r.offset r.len)

/-- A finished request as a backend saw it. -/
structure Finished where
  slot : Nat
  request : Request
  answer : Answer

/-- The full length was transferred. -/
def Finished.full (x : Finished) : Prop := x.answer = .ok x.request.len

/-- Where a call is: in the loop over the slots, starting a request on a slot, behind that
loop, waiting for the system, asking each slot, or done. A batch waits also with a request
that the system had no room for. -/
inductive Flights.Phase where
  | top
  | fill (slot : Nat)
  | start (slot : Nat) (r : Request)
  | check
  | wait (retry : Option (Nat × Request))
  | reap (slot : Nat) (retry : Option (Nat × Request))
  | finished (result : Except Failure Unit)
  /-- An index out of range, or a completion for a slot with nothing in flight. -/
  | panicked

/-- A call of a backend. From `kernel` on it is a record of what the system has and what
became of each request, which is not in the code. -/
structure Flights where
  inflight : List (Option Request)
  /-- A request that the kernel had no room for. -/
  parked : Option Request
  exhausted : Bool
  outstanding : Nat
  failure : Option Failure
  /-- `StreamStats::in_flight`. -/
  stats : Nat
  /-- The observer's count, if there is an observer. -/
  observer : Option Nat
  phase : Flights.Phase
  /-- The slots of the requests that were started and are not finished. -/
  kernel : List Nat
  ids : List Nat
  ledger : Ledger Request Finished
  passed : List (Nat × Nat × Request)
  /-- Requests whose start failed, or that a batch gave up on before it started them. -/
  refused : List Nat
  /-- Requests that were cancelled when the call gave up. -/
  drained : List Nat

/-- What comes from outside with a step. -/
inductive Flights.Input where
  | go
  | next (n : Next)
  /-- The request is started. -/
  | started
  /-- The system has no room (EAGAIN). -/
  | full
  | failed (code : Int)
  /-- The error of the wait, if it has one. -/
  | waited (error : Option Int)
  /-- Whether the request of the slot is finished, and with what. -/
  | asked (answer : Option Answer)
  /-- The system reports one of the requests it has. -/
  | packet (k : Nat) (answer : Answer)

namespace Flights

/-- A call on `depth` free slots, with what the two counts are before it. -/
def begin (depth stats : Nat) (observer : Option Nat) (phase : Phase) : Flights :=
  { inflight := List.replicate depth none, parked := none, exhausted := false, outstanding := 0
    failure := none, stats, observer, phase, kernel := [], ids := List.replicate depth 0
    ledger := .empty, passed := [], refused := [], drained := [] }

def request_of (s : Flights) (slot : Nat) : Option Request := (s.inflight[slot]?).join

def id_of (s : Flights) (slot : Nat) : Nat := s.ids.getD slot 0

/-- The number of the request that was taken last. -/
def last (s : Flights) : Nat := s.ledger.taken.length - 1

def take (s : Flights) (r : Request) : Flights := { s with ledger := s.ledger.take r }

/-- The request is with the system. A loop that keeps its requests by slot, `own`, also
counts it in the statistics. -/
def launch (s : Flights) (own : Bool) (slot : Nat) (r : Request) : Flights :=
  { s with
    inflight := if own then s.inflight.set slot (some r) else s.inflight
    stats := if own then s.stats + 1 else s.stats
    observer := s.observer.map (· + 1)
    outstanding := s.outstanding + 1
    kernel := slot :: s.kernel
    ids := s.ids.set slot s.last
    ledger := s.ledger.accept [s.last] }

/-- The request is back: it is passed on, or the first failure is kept. -/
def settle (s : Flights) (own : Bool) (slot : Nat) (r : Request) (a : Answer) : Flights :=
  let id := s.id_of slot
  let s := { s with
    inflight := if own then s.inflight.set slot none else s.inflight
    stats := if own then s.stats - 1 else s.stats
    observer := s.observer.map (· - 1)
    outstanding := s.outstanding - 1
    kernel := s.kernel.erase slot
    ledger := s.ledger.settle id ⟨slot, r, a⟩ }
  match outcome r a with
  | none => if s.failure.isNone then { s with passed := s.passed ++ [(id, slot, r)] } else s
  | some e => { s with failure := s.failure.or (some e) }

/-- `drain`: cancels what is in flight and waits until the kernel no longer uses the
buffers. The counts stay as they are. -/
def drain (s : Flights) : Flights :=
  { s with
    inflight := s.inflight.map fun _ => none
    kernel := s.kernel.filter fun slot => (s.request_of slot).isNone
    drained := s.drained ++
      ((s.kernel.filter fun slot => (s.request_of slot).isSome).map s.id_of) }

/-- What the call returned, if it returned. -/
def ended (s : Flights) : Option (Except Failure Unit) :=
  match s.phase with
  | .finished result => some result
  | _ => none

/-! ## What the record keeps -/

/-- The request of a slot: by slot, or from the batch. -/
def source (own : Option (List Request)) (s : Flights) (slot : Nat) : Option Request :=
  match own with
  | none => s.request_of slot
  | some requests => requests[slot]?

/-- What holds of the requests of a call; `waiting` are those taken and not started. -/
structure Core (own : Option (List Request)) (waiting : List Nat) (s : Flights) : Prop where
  ids : s.ids.length = s.inflight.length
  lt : ∀ slot ∈ s.kernel, slot < s.inflight.length
  nodup : s.kernel.Nodup
  holds : ∀ slot ∈ s.kernel, ∃ r, source own s slot = some r ∧
    s.ledger.taken[s.id_of slot]? = some r
  free : own = none → ∀ slot, slot ∉ s.kernel → s.request_of slot = none
  ledger : ledger.Sound s.ledger waiting (s.kernel.map s.id_of ++ s.drained)
  order : s.ledger.accepted.Pairwise (· < ·)
  outcomes : ∀ x ∈ s.ledger.results, s.ledger.taken[x.1]? = some x.2.request
  told : s.failure = none → (∀ x ∈ s.ledger.results, x.2.full) ∧
    s.passed = s.ledger.results.map fun x => (x.1, x.2.slot, x.2.request)

/-- The counts of a call that goes on: each moved with the requests in flight. -/
structure Counted (own : Option (List Request)) (before : Nat × Option Nat) (s : Flights) :
    Prop where
  outstanding : s.outstanding = s.kernel.length
  stats : s.stats = before.1 + if own.isNone then s.kernel.length else 0
  observer : s.observer = before.2.map (· + s.kernel.length)

variable {own : Option (List Request)} {waiting : List Nat} {s : Flights} {before : Nat × Option Nat}

theorem request_of_set {slot : Nat} (h : slot < s.inflight.length) (x : Option Request) (i : Nat) :
    ({ s with inflight := s.inflight.set slot x } : Flights).request_of i =
      if slot = i then x else s.request_of i := by
  unfold request_of
  dsimp only
  rw [List.getElem?_set]
  by_cases hi : slot = i
  · rw [if_pos hi, if_pos hi, if_pos h]
    rfl
  · rw [if_neg hi, if_neg hi]

theorem begin_core (depth stats : Nat) (observer : Option Nat) (phase : Phase) :
    Core own [] (begin depth stats observer phase) := by
  refine ⟨by simp [begin], by simp [begin], List.nodup_nil, by simp [begin], fun _ slot _ => ?_,
    ledger.Sound.empty, by simp [begin, Ledger.empty], by simp [begin, Ledger.empty],
    fun _ => ⟨by simp [begin, Ledger.empty], rfl⟩⟩
  unfold request_of begin
  dsimp only
  rw [List.getElem?_replicate]
  split_ifs <;> rfl

theorem begin_counted (depth stats : Nat) (observer : Option Nat) (phase : Phase) :
    Counted own (stats, observer) (begin depth stats observer phase) := by
  refine ⟨rfl, ?_, ?_⟩
  · simp [begin]
  · simp [begin]

theorem Core.take (h : Core own waiting s) (r : Request) :
    Core own (s.ledger.taken.length :: waiting) (s.take r) := by
  have hget : ∀ id r', s.ledger.taken[id]? = some r' → (s.take r).ledger.taken[id]? = some r' :=
    fun id r' hr' => List.getElem?_append_left (List.getElem?_eq_some_iff.mp hr').1 ▸ hr'
  refine ⟨h.ids, h.lt, h.nodup, fun slot hslot => ?_, h.free, ledger.Sound.take h.ledger r, h.order,
    fun x hx => hget _ _ (h.outcomes x hx), h.told⟩
  obtain ⟨r', hr', hid⟩ := h.holds slot hslot
  refine ⟨r', ?_, hget _ _ hid⟩
  unfold source at hr' ⊢
  exact hr'

theorem Core.launch {slot : Nat} {r : Request} (h : Core own (s.last :: waiting) s)
    (hlt : slot < s.inflight.length) (hfree : slot ∉ s.kernel)
    (hlast : s.ledger.taken[s.last]? = some r) (hown : ∀ requests, own = some requests →
      requests[slot]? = some r) : Core own waiting (s.launch own.isNone slot r) := by
  have hid : ∀ i, (s.launch own.isNone slot r).id_of i = if slot = i then s.last else s.id_of i :=
    fun i => flags.getD_set (h.ids ▸ hlt) i
  have hother : ∀ i ∈ s.kernel, slot ≠ i := fun i hi he => hfree (he ▸ hi)
  have hsource : ∀ i, slot ≠ i → source own (s.launch own.isNone slot r) i = source own s i := by
    intro i hi
    unfold source
    cases own with
    | none =>
      have hset := request_of_set hlt (some r) i
      rw [if_neg hi] at hset
      exact hset
    | some requests => rfl
  have hinflight : (s.launch own.isNone slot r).inflight.length = s.inflight.length := by
    unfold Flights.launch
    dsimp only
    split_ifs
    · exact List.length_set
    · rfl
  refine ⟨?_, fun i hi => ?_, List.nodup_cons.mpr ⟨hfree, h.nodup⟩, fun i hi => ?_,
    fun hnone i hi => ?_, ?_, ?_, h.outcomes, h.told⟩
  · rw [hinflight, ← h.ids]
    exact List.length_set
  · rw [hinflight]
    rcases List.mem_cons.mp hi with rfl | hi
    · exact hlt
    · exact h.lt i hi
  · rw [hid]
    rcases List.mem_cons.mp hi with rfl | hi
    · refine ⟨r, ?_, ?_⟩
      · unfold source
        cases own with
        | none =>
          have hset := request_of_set hlt (some r) i
          rw [if_pos rfl] at hset
          exact hset
        | some requests => exact hown requests rfl
      · rw [if_pos rfl]
        exact hlast
    · rw [hsource i (hother i hi), if_neg (hother i hi)]
      exact h.holds i hi
  · subst hnone
    have hi' : slot ≠ i := fun he => hi (he ▸ List.mem_cons_self)
    have hset := request_of_set hlt (some r) i
    rw [if_neg hi'] at hset
    exact hset.trans (h.free rfl i fun hk => hi (List.mem_cons_of_mem _ hk))
  · have haccept : ledger.Sound (s.ledger.accept [s.last]) waiting
        (s.kernel.map s.id_of ++ s.drained ++ [s.last]) := ledger.Sound.accept h.ledger
    refine ledger.Sound.perm haccept (List.Perm.refl _) ?_
    have hmap : s.kernel.map (s.launch own.isNone slot r).id_of = s.kernel.map s.id_of :=
      List.map_congr_left fun i hi => by rw [hid, if_neg (hother i hi)]
    have hkernel : (s.launch own.isNone slot r).kernel.map (s.launch own.isNone slot r).id_of =
        s.last :: s.kernel.map s.id_of := by
      change (slot :: s.kernel).map _ = _
      rw [List.map_cons, hmap, hid, if_pos rfl]
    rw [hkernel]
    exact (List.perm_append_singleton _ _).symm
  · -- the request is the last one taken, so it comes behind all that were started
    change (s.ledger.accepted ++ [s.last]).Pairwise (· < ·)
    rw [List.pairwise_append]
    refine ⟨h.order, List.pairwise_singleton _ _, fun id hid' id' hid'' => ?_⟩
    rw [List.mem_singleton] at hid''
    subst hid''
    have hbound := ledger.Sound.accepted_lt h.ledger hid'
    have hne : id ≠ s.last := by
      rintro rfl
      have hnodup := ledger.Sound.waiting_nodup h.ledger
      rw [List.cons_append, List.nodup_cons] at hnodup
      exact hnodup.1 (List.mem_append_right _ hid')
    unfold last at hne ⊢
    omega

theorem Counted.launch (h : Counted own before s) (slot : Nat) (r : Request) :
    Counted own before (s.launch own.isNone slot r) := by
  refine ⟨?_, ?_, ?_⟩
  · exact congrArg (· + 1) h.outstanding
  · have hstats := h.stats
    unfold Flights.launch
    dsimp only
    rw [List.length_cons]
    split_ifs at hstats ⊢ with hown
    · omega
    · exact hstats
  · have hobserver := h.observer
    unfold Flights.launch
    dsimp only
    rw [hobserver, Option.map_map, List.length_cons]
    rfl

theorem outcome_eq_none {r : Request} {a : Answer} : outcome r a = none ↔ a = .ok r.len := by
  cases a with
  | error code => simp [outcome]
  | ok n =>
    unfold outcome
    dsimp only
    split_ifs with h
    · simp [h]
    · simpa using h

/-- What a finished request leaves, whatever its outcome. -/
theorem settle_eq (s : Flights) (b : Bool) (slot : Nat) (r : Request) (a : Answer) :
    ∃ failure passed, s.settle b slot r a = { s with
        inflight := if b then s.inflight.set slot none else s.inflight
        stats := if b then s.stats - 1 else s.stats
        observer := s.observer.map (· - 1)
        outstanding := s.outstanding - 1
        kernel := s.kernel.erase slot
        ledger := s.ledger.settle (s.id_of slot) ⟨slot, r, a⟩
        failure
        passed } ∧
      (s.failure ≠ none → failure ≠ none) ∧ (outcome r a ≠ none → failure ≠ none) ∧
      (failure = none → passed = s.passed ++ [(s.id_of slot, slot, r)]) := by
  unfold settle
  dsimp only
  split
  · rename_i hnone
    by_cases hfailure : s.failure.isNone = true
    · rw [if_pos hfailure]
      exact ⟨_, _, rfl, fun h => h, fun h => absurd hnone h, fun _ => rfl⟩
    · rw [if_neg hfailure]
      refine ⟨_, _, rfl, fun h => h, fun h => absurd hnone h, fun h => ?_⟩
      exact absurd (Option.isNone_iff_eq_none.mpr h) hfailure
  · rename_i e he
    have hsome : s.failure.or (some e) ≠ none := by
      cases s.failure <;> simp
    exact ⟨_, _, rfl, fun _ => hsome, fun _ => hsome, fun h => absurd h hsome⟩

theorem Core.settle {slot : Nat} {r : Request} (h : Core own waiting s) (hslot : slot ∈ s.kernel)
    (hr : source own s slot = some r) (a : Answer) :
    Core own waiting (s.settle own.isNone slot r a) := by
  obtain ⟨failure, passed, heq, hkeep, hfail, hpassed⟩ := settle_eq s own.isNone slot r a
  have hlt := h.lt slot hslot
  have hmem : ∀ i, i ∈ s.kernel.erase slot ↔ i ≠ slot ∧ i ∈ s.kernel := fun i =>
    h.nodup.mem_erase_iff
  obtain ⟨r', hr', hid⟩ := h.holds slot hslot
  rw [hr] at hr'
  cases hr'
  rw [heq]
  refine ⟨?_, fun i hi => ?_, h.nodup.erase slot, fun i hi => ?_, fun hnone i hi => ?_, ?_, h.order,
    fun x hx => ?_, fun hnone => ?_⟩
  · dsimp only
    split_ifs
    · rw [List.length_set]
      exact h.ids
    · exact h.ids
  · dsimp only
    split_ifs
    · rw [List.length_set]
      exact h.lt i ((hmem i).mp hi).2
    · exact h.lt i ((hmem i).mp hi).2
  · obtain ⟨hne, hik⟩ := (hmem i).mp hi
    obtain ⟨r', hr', hid'⟩ := h.holds i hik
    refine ⟨r', ?_, hid'⟩
    unfold source at hr' ⊢
    cases own with
    | none =>
      have hset := request_of_set hlt none i
      rw [if_neg (Ne.symm hne)] at hset
      exact hset.trans hr'
    | some requests => exact hr'
  · subst hnone
    have hset := request_of_set hlt none i
    by_cases hi' : slot = i
    · rw [if_pos hi'] at hset
      exact hset
    · rw [if_neg hi'] at hset
      exact hset.trans (h.free rfl i fun hk => hi ((hmem i).mpr ⟨Ne.symm hi', hk⟩))
  · have hperm : (s.id_of slot :: ((s.kernel.erase slot).map s.id_of ++ s.drained)).Perm
        (s.kernel.map s.id_of ++ s.drained) := by
      rw [← List.cons_append, ← List.map_cons]
      exact ((List.perm_cons_erase hslot).symm.map s.id_of).append_right _
    exact ledger.Sound.settle (ledger.Sound.perm h.ledger (List.Perm.refl _) hperm) _
  · have hx' : x ∈ s.ledger.results ++ [(s.id_of slot, ⟨slot, r, a⟩)] := hx
    rw [List.mem_append, List.mem_singleton] at hx'
    rcases hx' with hx' | rfl
    · exact h.outcomes x hx'
    · exact hid
  · have hfailure : s.failure = none := by
      by_contra hsome
      exact hkeep hsome hnone
    have hfull : outcome r a = none := by
      by_contra hsome
      exact hfail hsome hnone
    obtain ⟨hall, hpass⟩ := h.told hfailure
    have hresults : (s.ledger.settle (s.id_of slot) ⟨slot, r, a⟩).results =
      s.ledger.results ++ [(s.id_of slot, ⟨slot, r, a⟩)] := rfl
    refine ⟨fun x hx => ?_, ?_⟩
    · dsimp only at hx
      rw [hresults, List.mem_append, List.mem_singleton] at hx
      rcases hx with hx | rfl
      · exact hall x hx
      · exact outcome_eq_none.mp hfull
    · dsimp only
      rw [hresults, List.map_append, hpassed hnone, hpass]
      rfl

theorem Counted.settle {slot : Nat} (h : Counted own before s) (hslot : slot ∈ s.kernel)
    (r : Request) (a : Answer) : Counted own before (s.settle own.isNone slot r a) := by
  obtain ⟨failure, passed, heq, -⟩ := settle_eq s own.isNone slot r a
  have hlength : (s.kernel.erase slot).length = s.kernel.length - 1 := List.length_erase_of_mem hslot
  have hpos : 0 < s.kernel.length := List.length_pos_of_mem hslot
  rw [heq]
  refine ⟨?_, ?_, ?_⟩
  · dsimp only
    rw [hlength, h.outstanding]
  · have hstats := h.stats
    dsimp only
    split_ifs at hstats ⊢ with hown
    · omega
    · exact hstats
  · dsimp only
    rw [h.observer, Option.map_map, hlength]
    congr 1
    funext n
    simp only [Function.comp_apply]
    omega

/-- A request whose start failed stays on the list of those that wait. -/
theorem Core.fail (h : Core own waiting s) (e : Failure) (refused : List Nat) :
    Core own waiting { s with failure := some e, refused } := by
  obtain ⟨h1, h2, h3, h4, h5, h6, h7, h8, -⟩ := h
  refine ⟨h1, h2, h3, fun slot hslot => ?_, h5, h6, h7, h8, nofun⟩
  obtain ⟨r, hr, hid⟩ := h4 slot hslot
  refine ⟨r, ?_, hid⟩
  unfold source at hr ⊢
  exact hr

/-- Giving up cancels all that is in flight. -/
theorem Core.drain (h : Core none waiting s) : Core none waiting s.drain ∧ s.drain.kernel = [] := by
  have hsome : ∀ slot ∈ s.kernel, (s.request_of slot).isSome = true := by
    intro slot hslot
    obtain ⟨r, hr, -⟩ := h.holds slot hslot
    have hr' : s.request_of slot = some r := hr
    rw [hr']
    rfl
  have hkernel : s.drain.kernel = [] := by
    unfold Flights.drain
    rw [List.filter_eq_nil_iff]
    intro slot hslot hnone
    have := hsome slot hslot
    rw [Option.isNone_iff_eq_none] at hnone
    rw [hnone] at this
    cases this
  have hall : s.kernel.filter (fun slot => (s.request_of slot).isSome) = s.kernel :=
    List.filter_eq_self.mpr hsome
  have hnone : ∀ slot, s.drain.request_of slot = none := by
    intro slot
    unfold request_of Flights.drain
    dsimp only
    rw [List.getElem?_map]
    cases s.inflight[slot]? <;> rfl
  refine ⟨⟨?_, ?_, ?_, ?_, fun _ slot _ => hnone slot, ?_, h.order, h.outcomes, h.told⟩, hkernel⟩
  · unfold Flights.drain
    dsimp only
    rw [List.length_map]
    exact h.ids
  · rw [hkernel]
    nofun
  · rw [hkernel]
    exact List.nodup_nil
  · rw [hkernel]
    nofun
  · rw [hkernel, List.map_nil, List.nil_append]
    unfold Flights.drain
    dsimp only
    rw [hall]
    exact ledger.Sound.perm h.ledger (List.Perm.refl _) List.perm_append_comm

end Flights

end stutools
