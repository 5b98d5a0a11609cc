-- The four loops of the POSIX and Windows backends: a stream and a batch of each. What
-- `next` and the system answer comes with the step. A loop that gives up because a wait
-- failed leaves its counts as they are, and on Windows also its requests.
import Stutools.Flights

open ledger

namespace stutools

open Flights (Phase Input)

namespace posix

def EINTR : Int := 4

/-- `wait` and what follows it. An interrupted wait is made again, and another error gives
up. -/
def wait (s : Flights) (retry : Option (Nat × Request)) : Input → Option Flights
  | .waited none => some { s with phase := .reap 0 retry }
  | .waited (some code) =>
    if code = EINTR then some s
    else some { s.drain with
      refused := if retry.isSome then s.last :: s.refused else s.refused
      phase := .finished (.error (.System (.os code))) }
  | _ => none

/-- `finish` on one of the slots after the other, and what follows the last. A batch takes
what it counts off `outstanding` at the end; here it goes with each. -/
def reap (slots : Nat) (after : Phase) (s : Flights) (slot : Nat)
    (retry : Option (Nat × Request)) (input : Input) : Option Flights :=
  if slots ≤ slot then some { s with phase := after }
  else if s.inflight.length ≤ slot then some { s with phase := .panicked }
  else
    match s.request_of slot with
    | none => some { s with phase := .reap (slot + 1) retry }
    | some r =>
      match input with
      | .asked none => some { s with phase := .reap (slot + 1) retry }
      | .asked (some a) => some { s.settle true slot r a with phase := .reap (slot + 1) retry }
      | _ => none

/-- `PosixAio::stream`. -/
def stream (s : Flights) (input : Input) : Option Flights :=
  match s.phase with
  | .top => some { s with
      phase := if s.failure.isNone ∧ s.exhausted = false then .fill 0 else .check }
  | .fill slot =>
    if s.inflight.length ≤ slot then some { s with phase := .check }
    else if (s.request_of slot).isSome then some { s with phase := .fill (slot + 1) }
    else
      match s.parked with
      | some r => some { s with parked := none, phase := .start slot r }
      | none =>
        match input with
        | .next .wait => some { s with phase := .check }
        | .next .done => some { s with exhausted := true, phase := .check }
        | .next (.request r) => some { s.take r with phase := .start slot r }
        | _ => none
  | .start slot r =>
    match input with
    | .started => some { s.launch true slot r with phase := .fill (slot + 1) }
    | .full => some { s with parked := some r, phase := .check }
    | .failed code => some { s with
        failure := some (.System (.os code))
        refused := s.last :: s.refused
        phase := .check }
    | _ => none
  | .check =>
    if s.outstanding = 0 then
      -- a parked request or a pending wait is retried, not dropped
      if (s.parked.isSome ∨ s.exhausted = false) ∧ s.failure.isNone then
        some { s with phase := .top }
      else some { s with phase := .finished (s.failure.elim (.ok ()) .error) }
    else some { s with phase := .wait none }
  | .wait none => wait s none input
  | .reap slot none => reap s.inflight.length .top s slot none input
  | _ => none

/-- `PosixAio::run_batch`. -/
def run_batch (requests : List Request) (s : Flights) (input : Input) : Option Flights :=
  match s.phase with
  | .fill slot =>
    match requests[slot]? with
    | some r => some { s.take r with phase := .start slot r }
    | none => some { s with phase := .check }
  | .start slot r =>
    if s.inflight.length ≤ slot then some { s with phase := .panicked }
    else
      match input with
      | .started => some { s.launch true slot r with phase := .fill (slot + 1) }
      | .full =>
        -- another worker holds the kernel's requests: sleep and try again
        if s.outstanding = 0 then some s else some { s with phase := .wait (some (slot, r)) }
      | .failed code => some { s.drain with
          refused := s.last :: s.refused
          phase := .finished (.error (.System (.os code))) }
      | _ => none
  | .check =>
    if s.outstanding = 0 then some { s with phase := .finished (s.failure.elim (.ok ()) .error) }
    else some { s with phase := .wait none }
  | .wait retry => wait s retry input
  | .reap slot none => reap requests.length .check s slot none input
  | .reap slot (some (again, r)) =>
    reap requests.length (.start again r) s slot (some (again, r)) input
  | _ => none

end posix

namespace windows

/-- A start that failed. -/
def refuse (s : Flights) (r : Request) (code : Int) : Flights :=
  { s with
    failure := some (.Operation (.os code) r.write r.offset r.len)
    refused := s.last :: s.refused
    phase := .check }

/-- `GetQueuedCompletionStatus` and what follows it. With no packet the call returns at
once. -/
def wait (source : Nat → Option Request) (own : Bool) (after : Phase) (s : Flights) :
    Input → Option Flights
  | .waited (some code) => some { s with phase := .finished (.error (.System (.os code))) }
  | .packet k a =>
    match s.kernel[k]? with
    | none => none
    | some slot =>
      match source slot with
      | none => some { s with phase := .panicked }
      | some r => some { s.settle own slot r a with phase := after }
  | _ => none

/-- `WinAio::execute_stream`. -/
def execute_stream (s : Flights) (input : Input) : Option Flights :=
  match s.phase with
  | .top => some { s with
      phase := if s.failure.isNone ∧ s.exhausted = false then .fill 0 else .check }
  | .fill slot =>
    if s.inflight.length ≤ slot then some { s with phase := .check }
    else if (s.request_of slot).isSome then some { s with phase := .fill (slot + 1) }
    else
      match input with
      | .next .wait => some { s with phase := .check }
      | .next .done => some { s with exhausted := true, phase := .check }
      | .next (.request r) => some { s.take r with phase := .start slot r }
      | _ => none
  | .start slot r =>
    match input with
    | .started => some { s.launch true slot r with phase := .fill (slot + 1) }
    | .failed code => some (refuse s r code)
    | _ => none
  | .check =>
    if s.outstanding = 0 then
      if s.exhausted = false ∧ s.failure.isNone then some { s with phase := .top }
      else some { s with phase := .finished (s.failure.elim (.ok ()) .error) }
    else some { s with phase := .wait none }
  | .wait none => wait s.request_of true .top s input
  | _ => none

/-- `WinAio::run_batch`. It keeps no request by slot and leaves the statistics alone. -/
def run_batch (requests : List Request) (s : Flights) (input : Input) : Option Flights :=
  match s.phase with
  | .fill slot =>
    match requests[slot]? with
    | some r => some { s.take r with phase := .start slot r }
    | none => some { s with phase := .check }
  | .start slot r =>
    if s.inflight.length ≤ slot then some { s with phase := .panicked }
    else
      match input with
      | .started => some { s.launch false slot r with phase := .fill (slot + 1) }
      | .failed code => some (refuse s r code)
      | _ => none
  | .check =>
    if s.outstanding = 0 then some { s with phase := .finished (s.failure.elim (.ok ()) .error) }
    else some { s with phase := .wait none }
  | .wait none => wait (fun slot => requests[slot]?) false .check s input
  | _ => none

end windows

/-- One of the four loops, a batch with its requests. -/
inductive Loop where
  | posix_stream
  | posix_batch (requests : List Request)
  | win_stream
  | win_batch (requests : List Request)

namespace Loop

def step : Loop → Flights → Input → Option Flights
  | .posix_stream => posix.stream
  | .posix_batch requests => posix.run_batch requests
  | .win_stream => windows.execute_stream
  | .win_batch requests => windows.run_batch requests

/-- The requests of a batch. -/
def batch : Loop → Option (List Request)
  | .posix_batch requests | .win_batch requests => some requests
  | _ => none

/-- The requests that are not kept by slot. -/
def own : Loop → Option (List Request)
  | .win_batch requests => some requests
  | _ => none

/-- A call on `depth` free slots. -/
def start (loop : Loop) (depth stats : Nat) (observer : Option Nat) : Flights :=
  .begin depth stats observer (if loop.batch.isSome then .fill 0 else .top)

end Loop

/-! ## What a call keeps -/

namespace Flights

/-- The request that was taken and is not started, if there is one. -/
def held (s : Flights) : Option Request :=
  match s.phase with
  | .start _ r | .wait (some (_, r)) | .reap _ (some (_, r)) => some r
  | _ => s.parked

/-- The requests that were taken and not started. -/
def waiting (s : Flights) : List Nat := (s.held.toList.map fun _ => s.last) ++ s.refused

end Flights

namespace Loop

/-- A slot that a request is on its way to is free; a batch fills them in order. -/
structure Ahead (loop : Loop) (s : Flights) (slot : Nat) (r : Request) : Prop where
  parked : s.parked = none
  lt : slot < s.inflight.length
  free : slot ∉ s.kernel
  batch : ∀ requests, loop.batch = some requests →
    requests[slot]? = some r ∧ ∀ k ∈ s.kernel, k < slot

/-- What holds where the loop is. -/
def At (loop : Loop) (s : Flights) : Phase → Prop
  | .fill slot => loop.batch.isSome → ∀ k ∈ s.kernel, k < slot
  | .start slot r => loop.Ahead s slot r
  | .wait retry => s.outstanding ≠ 0 ∧ ∀ slot r, retry = some (slot, r) → loop.Ahead s slot r
  | .reap _ retry => ∀ slot r, retry = some (slot, r) → loop.Ahead s slot r
  | .finished result => result = .ok () →
    s.kernel = [] ∧ s.drained = [] ∧ s.waiting = [] ∧ s.failure = none
  | .panicked => False
  | _ => True

structure Sound (loop : Loop) (depth : Nat) (before : Nat × Option Nat) (s : Flights) : Prop where
  depth : s.inflight.length = depth
  core : Flights.Core loop.own s.waiting s
  held : ∀ r, s.held = some r → s.ledger.taken[s.last]? = some r
  parks : loop = .posix_stream ∨ s.parked = none
  counted : s.ended = none → Flights.Counted loop.own before s
  running : s.ended = none → s.drained = [] ∧ (s.refused ≠ [] → s.failure ≠ none)
  at_phase : loop.At s s.phase

variable {loop : Loop} {depth : Nat} {before : Nat × Option Nat} {s : Flights}

theorem start_sound (loop : Loop) (depth stats : Nat) (observer : Option Nat) :
    loop.Sound depth (stats, observer) (loop.start depth stats observer) := by
  have hheld : (loop.start depth stats observer).held = none := by
    unfold Flights.held start Flights.begin
    dsimp only
    split_ifs <;> rfl
  have hwaiting : (loop.start depth stats observer).waiting = [] := by
    unfold Flights.waiting
    rw [hheld]
    rfl
  refine ⟨by simp [start, Flights.begin], ?_, fun r hr => ?_, .inr rfl,
    fun _ => Flights.begin_counted _ _ _ _, fun _ => ⟨rfl, fun h => absurd rfl h⟩, ?_⟩
  · rw [hwaiting]
    exact Flights.begin_core _ _ _ _
  · rw [hheld] at hr
    cases hr
  · unfold start Flights.begin
    dsimp only
    split_ifs
    · intro _ pos hpos
      cases hpos
    · trivial

/-- A change of the phase alone. -/
theorem Sound.goes (h : loop.Sound depth before s) (hrun : s.ended = none) {phase : Phase}
    (hheld : ({ s with phase } : Flights).held = s.held)
    (hat : loop.At { s with phase } phase) : loop.Sound depth before { s with phase } := by
  have hwaiting : ({ s with phase } : Flights).waiting = s.waiting := by
    unfold Flights.waiting
    rw [hheld]
    rfl
  obtain ⟨h1, h2, h3, h4, h5, h6, h7, h8, h9⟩ := h.core
  refine ⟨h.depth, ?_, fun r hr => h.held r (hheld ▸ hr), h.parks, fun _ => ?_,
    fun _ => h.running hrun, hat⟩
  · rw [hwaiting]
    exact ⟨h1, h2, h3, h4, h5, h6, h7, h8, h9⟩
  · obtain ⟨k1, k2, k3⟩ := h.counted hrun
    exact ⟨k1, k2, k3⟩

theorem waiting_of_held {s : Flights} (h : s.held = none) : s.waiting = s.refused := by
  unfold Flights.waiting
  rw [h]
  rfl

theorem waiting_of_some {s : Flights} {r : Request} (h : s.held = some r) :
    s.waiting = s.last :: s.refused := by
  unfold Flights.waiting
  rw [h]
  rfl

/-- A request comes from outside, and is about to be started. -/
theorem Sound.take {slot : Nat} {r : Request} (h : loop.Sound depth before s)
    (hrun : s.ended = none) (hheld : s.held = none)
    (hahead : loop.Ahead s slot r) :
    loop.Sound depth before { s.take r with phase := .start slot r } := by
  have hlast : ({ s.take r with phase := .start slot r } : Flights).last =
      s.ledger.taken.length := by
    unfold Flights.last Flights.take Ledger.take
    simp
  have hwaiting : ({ s.take r with phase := .start slot r } : Flights).waiting =
      s.ledger.taken.length :: s.waiting := by
    rw [waiting_of_held hheld, ← hlast]
    rfl
  have hcore := h.core.take r
  rw [← hwaiting] at hcore
  obtain ⟨h1, h2, h3, h4, h5, h6, h7, h8, h9⟩ := hcore
  refine ⟨h.depth, ⟨h1, h2, h3, h4, h5, h6, h7, h8, h9⟩, fun r' hr' => ?_, h.parks, fun _ => ?_,
    fun _ => h.running hrun, ?_⟩
  · cases hr'
    rw [hlast]
    unfold Flights.take Ledger.take
    simp
  · obtain ⟨k1, k2, k3⟩ := h.counted hrun
    exact ⟨k1, k2, k3⟩
  · obtain ⟨k1, k2, k3, k4⟩ := hahead
    exact ⟨k1, k2, k3, k4⟩

/-- The request is started. -/
theorem Sound.launch {slot : Nat} {r : Request} (h : loop.Sound depth before s)
    (hphase : s.phase = .start slot r) :
    loop.Sound depth before
      { s.launch loop.own.isNone slot r with phase := .fill (slot + 1) } := by
  have hrun : s.ended = none := by
    unfold Flights.ended
    rw [hphase]
  have hheld : s.held = some r := by
    unfold Flights.held
    rw [hphase]
  have hahead : loop.Ahead s slot r := by
    have hat := h.at_phase
    rw [hphase] at hat
    exact hat
  have hcore := h.core
  rw [waiting_of_some hheld] at hcore
  have hown : ∀ requests, loop.own = some requests → requests[slot]? = some r := by
    intro requests hrequests
    refine (hahead.batch requests ?_).1
    cases loop with
    | win_batch requests => exact hrequests
    | posix_stream => cases hrequests
    | posix_batch requests => cases hrequests
    | win_stream => cases hrequests
  have hnone : ({ s.launch loop.own.isNone slot r with phase := .fill (slot + 1) } : Flights).held =
      none := hahead.parked
  obtain ⟨h1, h2, h3, h4, h5, h6, h7, h8, h9⟩ := hcore.launch hahead.lt hahead.free
    (h.held r hheld) hown
  refine ⟨?_, ?_, fun r' hr' => ?_, h.parks, fun _ => ?_, fun _ => h.running hrun, ?_⟩
  · have hlength : (s.launch loop.own.isNone slot r).inflight.length = s.inflight.length := by
      unfold Flights.launch
      dsimp only
      split_ifs
      · exact List.length_set
      · rfl
    exact hlength.trans h.depth
  · rw [waiting_of_held hnone]
    exact ⟨h1, h2, h3, h4, h5, h6, h7, h8, h9⟩
  · rw [hnone] at hr'
    cases hr'
  · obtain ⟨k1, k2, k3⟩ := (h.counted hrun).launch slot r
    exact ⟨k1, k2, k3⟩
  · intro hbatch k hk
    obtain ⟨requests, hrequests⟩ := Option.isSome_iff_exists.mp hbatch
    rcases List.mem_cons.mp hk with rfl | hk
    · exact Nat.lt_succ_self _
    · exact Nat.lt_succ_of_lt ((hahead.batch requests hrequests).2 k hk)

/-- Its start failed. -/
theorem Sound.refuse {slot : Nat} {r : Request} (h : loop.Sound depth before s)
    (hphase : s.phase = .start slot r) (e : Failure) :
    loop.Sound depth before
      { s with failure := some e, refused := s.last :: s.refused, phase := .check } := by
  have hrun : s.ended = none := by
    unfold Flights.ended
    rw [hphase]
  have hheld : s.held = some r := by
    unfold Flights.held
    rw [hphase]
  have hahead : loop.Ahead s slot r := by
    have hat := h.at_phase
    rw [hphase] at hat
    exact hat
  have hcore := h.core
  rw [waiting_of_some hheld] at hcore
  have hnone : ({ s with failure := some e, refused := s.last :: s.refused, phase := .check } :
      Flights).held = none := hahead.parked
  obtain ⟨h1, h2, h3, h4, h5, h6, h7, h8, h9⟩ := hcore.fail e (s.last :: s.refused)
  refine ⟨h.depth, ?_, fun r' hr' => ?_, h.parks, fun _ => ?_, fun _ => ?_, trivial⟩
  · rw [waiting_of_held hnone]
    exact ⟨h1, h2, h3, h4, h5, h6, h7, h8, h9⟩
  · rw [hnone] at hr'
    cases hr'
  · obtain ⟨k1, k2, k3⟩ := h.counted hrun
    exact ⟨k1, k2, k3⟩
  · exact ⟨(h.running hrun).1, fun _ => nofun⟩

/-- A request is finished. -/
theorem Sound.settle {slot : Nat} {r : Request} (h : loop.Sound depth before s)
    (hrun : s.ended = none) (hslot : slot ∈ s.kernel)
    (hr : Flights.source loop.own s slot = some r) (a : Answer) {phase : Phase}
    (hheld : ({ s.settle loop.own.isNone slot r a with phase } : Flights).held = s.held)
    (hat : loop.At { s.settle loop.own.isNone slot r a with phase } phase) :
    loop.Sound depth before { s.settle loop.own.isNone slot r a with phase } := by
  obtain ⟨failure, passed, heq, hkeep, -⟩ := Flights.settle_eq s loop.own.isNone slot r a
  have hrefused : (s.settle loop.own.isNone slot r a).refused = s.refused := by rw [heq]
  have hparked : (s.settle loop.own.isNone slot r a).parked = s.parked := by rw [heq]
  have hlast : (s.settle loop.own.isNone slot r a).last = s.last := by
    rw [heq]
    rfl
  have hwaiting : ({ s.settle loop.own.isNone slot r a with phase } : Flights).waiting =
      s.waiting := by
    unfold Flights.waiting
    rw [hheld]
    change _ ++ (s.settle loop.own.isNone slot r a).refused = _
    rw [hrefused]
    congr 1
    exact List.map_congr_left fun _ _ => hlast
  obtain ⟨h1, h2, h3, h4, h5, h6, h7, h8, h9⟩ := h.core.settle hslot hr a
  refine ⟨?_, ?_, fun r' hr' => ?_, ?_, fun _ => ?_, fun _ => ?_, hat⟩
  · have hlength : (s.settle loop.own.isNone slot r a).inflight.length = s.inflight.length := by
      rw [heq]
      dsimp only
      split_ifs
      · exact List.length_set
      · rfl
    exact hlength.trans h.depth
  · rw [hwaiting]
    exact ⟨h1, h2, h3, h4, h5, h6, h7, h8, h9⟩
  · rw [hheld] at hr'
    have htaken : (s.settle loop.own.isNone slot r a).ledger.taken = s.ledger.taken := by
      rw [heq]
      rfl
    change (s.settle loop.own.isNone slot r a).ledger.taken[
      (s.settle loop.own.isNone slot r a).last]? = some r'
    rw [htaken, hlast]
    exact h.held r' hr'
  · rcases h.parks with hloop | hnone
    · exact .inl hloop
    · exact .inr (hparked.trans hnone)
  · obtain ⟨k1, k2, k3⟩ := (h.counted hrun).settle hslot r a
    exact ⟨k1, k2, k3⟩
  · have hdrained : (s.settle loop.own.isNone slot r a).drained = s.drained := by rw [heq]
    refine ⟨hdrained.trans (h.running hrun).1, fun hne => ?_⟩
    have hfailure : (s.settle loop.own.isNone slot r a).failure = failure := by rw [heq]
    change (s.settle loop.own.isNone slot r a).failure ≠ none
    rw [hfailure]
    exact hkeep ((h.running hrun).2 (hrefused ▸ hne))

/-- A call that gives up cancels what is in flight. -/
theorem Sound.give_up (h : loop.Sound depth before s) (hown : loop.own = none)
    (hparked : ∀ r, s.parked = some r → s.held = some r) {refused : List Nat} {e : Failure}
    (hwaiting : ({ s.drain with refused, phase := .finished (.error e) } : Flights).waiting =
      s.waiting) :
    loop.Sound depth before { s.drain with refused, phase := .finished (.error e) } := by
  have hcore := h.core
  rw [hown] at hcore
  obtain ⟨⟨h1, h2, h3, h4, h5, h6, h7, h8, h9⟩, -⟩ := hcore.drain
  refine ⟨?_, ?_, fun r hr => h.held r (hparked r hr), h.parks, nofun, nofun, nofun⟩
  · have hlength : s.drain.inflight.length = s.inflight.length := List.length_map _
    exact hlength.trans h.depth
  · rw [hwaiting, hown]
    exact ⟨h1, h2, h3, h4, h5, h6, h7, h8, h9⟩

theorem Ahead.settle {slot : Nat} {r : Request} (h : loop.Ahead s slot r) (b : Bool) (i : Nat)
    (r' : Request) (a : Answer) (phase : Phase) :
    loop.Ahead { s.settle b i r' a with phase } slot r := by
  obtain ⟨failure, passed, heq, -⟩ := Flights.settle_eq s b i r' a
  rw [heq]
  refine ⟨h.parked, ?_, fun hk => h.free (List.mem_of_mem_erase hk), fun requests hrequests => ?_⟩
  · dsimp only
    split_ifs
    · rw [List.length_set]
      exact h.lt
    · exact h.lt
  · obtain ⟨hget, hlt⟩ := h.batch requests hrequests
    exact ⟨hget, fun k hk => hlt k (List.mem_of_mem_erase hk)⟩

theorem Ahead.goes {slot : Nat} {r : Request} (h : loop.Ahead s slot r) (phase : Phase) :
    loop.Ahead { s with phase } slot r :=
  ⟨h.parked, h.lt, h.free, h.batch⟩

theorem Sound.posix_wait {t : Flights} {retry : Option (Nat × Request)} {input : Input}
    (h : loop.Sound depth before s) (hown : loop.own = none) (hphase : s.phase = .wait retry)
    (hstep : posix.wait s retry input = some t) : loop.Sound depth before t := by
  have hrun : s.ended = none := by
    unfold Flights.ended
    rw [hphase]
  have hat := h.at_phase
  rw [hphase] at hat
  obtain ⟨-, hahead⟩ := hat
  unfold posix.wait at hstep
  split at hstep
  · cases hstep
    refine h.goes hrun ?_ fun slot r hretry => (hahead slot r hretry).goes _
    unfold Flights.held
    rw [hphase]
    cases retry <;> rfl
  · rename_i code
    by_cases hcode : code = posix.EINTR
    · rw [if_pos hcode] at hstep
      cases hstep
      exact h
    · rw [if_neg hcode] at hstep
      cases hstep
      cases retry with
      | none =>
        have hheld : s.held = s.parked := by
          unfold Flights.held
          rw [hphase]
        refine h.give_up hown (fun r hr => hheld.trans hr) ?_
        unfold Flights.waiting
        rw [hheld]
        rfl
      | some x =>
        obtain ⟨slot, r⟩ := x
        have hheld : s.held = some r := by
          unfold Flights.held
          rw [hphase]
        have hparked := (hahead slot r rfl).parked
        refine h.give_up hown (fun r' hr' => ?_) ?_
        · rw [hparked] at hr'
          cases hr'
        · rw [waiting_of_some hheld]
          refine (waiting_of_held ?_).trans rfl
          exact hparked
  · cases hstep

theorem Sound.posix_reap {t : Flights} {slots slot : Nat} {retry : Option (Nat × Request)}
    {after : Phase} {input : Input} (h : loop.Sound depth before s) (hown : loop.own = none)
    (hphase : s.phase = .reap slot retry) (hslots : slots ≤ depth)
    (hheld : ({ s with phase := after } : Flights).held = s.held)
    (hafter : loop.At { s with phase := after } after)
    (hstep : posix.reap slots after s slot retry input = some t) : loop.Sound depth before t := by
  have hrun : s.ended = none := by
    unfold Flights.ended
    rw [hphase]
  have hahead := h.at_phase
  rw [hphase] at hahead
  have hsame : ∀ u : Flights, u.parked = s.parked →
      ({ u with phase := .reap (slot + 1) retry } : Flights).held = s.held := by
    intro u hu
    unfold Flights.held
    rw [hphase]
    cases retry with
    | none => exact hu
    | some x => rfl
  have hnext : loop.Sound depth before { s with phase := .reap (slot + 1) retry } :=
    h.goes hrun (hsame s rfl) fun again r hretry => (hahead again r hretry).goes _
  unfold posix.reap at hstep
  split_ifs at hstep with hdone hpanic
  · cases hstep
    exact h.goes hrun hheld hafter
  · exact absurd hpanic (by rw [h.depth]; omega)
  · split at hstep
    · cases hstep
      exact hnext
    · rename_i r hr
      split at hstep
      · cases hstep
        exact hnext
      · rename_i a
        cases hstep
        have hslot : slot ∈ s.kernel := by
          by_contra hnot
          have hnone := h.core.free hown slot hnot
          rw [hr] at hnone
          cases hnone
        have hsource : Flights.source loop.own s slot = some r := by
          rw [hown]
          exact hr
        have hb : loop.own.isNone = true := by rw [hown]; rfl
        have hparked : (s.settle true slot r a).parked = s.parked := by
          obtain ⟨failure, passed, heq, -⟩ := Flights.settle_eq s true slot r a
          rw [heq]
        have hsettled := @Sound.settle loop depth before s slot r h hrun hslot hsource a
          (.reap (slot + 1) retry)
        rw [hb] at hsettled
        exact hsettled (hsame _ hparked) fun again r' hretry =>
          (hahead again r' hretry).settle true slot r a _
      · cases hstep

/-- The call returns with nothing in flight. -/
theorem Sound.finish (h : loop.Sound depth before s) (hphase : s.phase = .check)
    (hidle : s.outstanding = 0) (hparked : s.failure = none → s.parked = none) :
    loop.Sound depth before
      { s with phase := .finished (s.failure.elim (.ok ()) .error) } := by
  have hrun : s.ended = none := by
    unfold Flights.ended
    rw [hphase]
  have hheld : s.held = s.parked := by
    unfold Flights.held
    rw [hphase]
  refine h.goes hrun hheld.symm fun hok => ?_
  have hfailure : s.failure = none := by
    cases hf : s.failure with
    | none => rfl
    | some e =>
      rw [hf] at hok
      cases hok
  obtain ⟨hdrained, hrefused⟩ := h.running hrun
  have hnone : s.refused = [] := by
    by_contra hne
    exact hrefused hne hfailure
  refine ⟨?_, hdrained, ?_, hfailure⟩
  · rw [← List.length_eq_zero_iff, ← (h.counted hrun).outstanding]
    exact hidle
  · refine (waiting_of_held ?_).trans hnone
    exact hparked hfailure

theorem Sound.goes_wait (h : loop.Sound depth before s) (hphase : s.phase = .check)
    (hbusy : s.outstanding ≠ 0) : loop.Sound depth before { s with phase := .wait none } := by
  have hrun : s.ended = none := by
    unfold Flights.ended
    rw [hphase]
  refine h.goes hrun ?_ ⟨hbusy, nofun⟩
  unfold Flights.held
  rw [hphase]

/-- What the phases with nothing on its way to a slot have in common. -/
theorem Sound.goes_on (h : loop.Sound depth before s) (hrun : s.ended = none)
    (hheld : s.held = s.parked) {phase : Phase}
    (hphase : phase = .top ∨ phase = .check ∨ ∃ slot, phase = .fill slot ∧
      (loop.batch.isSome → ∀ k ∈ s.kernel, k < slot)) :
    loop.Sound depth before { s with phase } := by
  rcases hphase with rfl | rfl | ⟨slot, rfl, hbatch⟩
  · exact h.goes hrun hheld.symm trivial
  · exact h.goes hrun hheld.symm trivial
  · exact h.goes hrun hheld.symm hbatch

/-- The loop over the slots of either stream, with no request parked. -/
theorem Sound.next {t : Flights} {slot : Nat} {input : Input} (h : loop.Sound depth before s)
    (hown : loop.own = none) (hstream : loop.batch = none) (hphase : s.phase = .fill slot)
    (hparked : s.parked = none) (hlt : slot < s.inflight.length)
    (hfree : ¬ (s.request_of slot).isSome = true)
    (hstep : (match input with
      | .next .wait => some { s with phase := .check }
      | .next .done => some { s with exhausted := true, phase := .check }
      | .next (.request r) => some { s.take r with phase := .start slot r }
      | _ => none) = some t) : loop.Sound depth before t := by
  have hrun : s.ended = none := by
    unfold Flights.ended
    rw [hphase]
  have hheld : s.held = s.parked := by
    unfold Flights.held
    rw [hphase]
  split at hstep
  · cases hstep
    exact h.goes_on hrun hheld (.inr (.inl rfl))
  · cases hstep
    have hcheck : loop.Sound depth before { s with phase := .check } :=
      h.goes_on hrun hheld (.inr (.inl rfl))
    obtain ⟨h1, ⟨k1, k2, k3, k4, k5, k6, k7, k8, k9⟩, h3, h4, h5, h6, -⟩ := hcheck
    refine ⟨h1, ⟨k1, k2, k3, k4, k5, k6, k7, k8, k9⟩, h3, h4, fun _ => ?_, h6, trivial⟩
    obtain ⟨c1, c2, c3⟩ := h5 rfl
    exact ⟨c1, c2, c3⟩
  · rename_i r
    cases hstep
    refine h.take hrun (hheld.trans hparked) ⟨hparked, hlt, fun hk => ?_, fun requests hr => ?_⟩
    · obtain ⟨r', hr', -⟩ := h.core.holds slot hk
      rw [hown] at hr'
      have hr'' : s.request_of slot = some r' := hr'
      rw [hr''] at hfree
      exact hfree rfl
    · rw [hstream] at hr
      cases hr
  · cases hstep

/-- A request goes between the parked place and the start of a slot. -/
theorem Sound.parking {parked : Option Request} {r : Request} {phase : Phase}
    (h : Sound .posix_stream depth before s) (hrun : s.ended = none) (hheld : s.held = some r)
    (hheld' : ({ s with parked, phase } : Flights).held = some r)
    (hat : At .posix_stream { s with parked, phase } phase) :
    Sound .posix_stream depth before { s with parked, phase } := by
  obtain ⟨k1, k2, k3, k4, k5, k6, k7, k8, k9⟩ := h.core
  refine ⟨h.depth, ?_, fun r' hr' => ?_, .inl rfl, fun _ => ?_, fun _ => h.running hrun, hat⟩
  · rw [waiting_of_some hheld']
    rw [waiting_of_some hheld] at k6
    exact ⟨k1, k2, k3, k4, k5, k6, k7, k8, k9⟩
  · rw [hheld'] at hr'
    cases hr'
    exact h.held r hheld
  · obtain ⟨c1, c2, c3⟩ := h.counted hrun
    exact ⟨c1, c2, c3⟩

theorem Sound.posix_stream {t : Flights} {input : Input}
    (h : Sound .posix_stream depth before s) (hstep : posix.stream s input = some t) :
    Sound .posix_stream depth before t := by
  unfold posix.stream at hstep
  split at hstep
  · rename_i hphase
    cases hstep
    refine h.goes_on (by unfold Flights.ended; rw [hphase]) (by unfold Flights.held; rw [hphase]) ?_
    split_ifs
    · exact .inr (.inr ⟨0, rfl, nofun⟩)
    · exact .inr (.inl rfl)
  · rename_i slot hphase
    have hrun : s.ended = none := by
      unfold Flights.ended
      rw [hphase]
    have hheld : s.held = s.parked := by
      unfold Flights.held
      rw [hphase]
    split_ifs at hstep with hlen hbusy
    · cases hstep
      exact h.goes_on hrun hheld (.inr (.inl rfl))
    · cases hstep
      exact h.goes_on hrun hheld (.inr (.inr ⟨_, rfl, nofun⟩))
    split at hstep
    · rename_i r hparked
      cases hstep
      refine h.parking hrun (hheld.trans hparked) rfl
        ⟨rfl, Nat.not_le.mp hlen, fun hk => ?_, nofun⟩
      obtain ⟨r', hr', -⟩ := h.core.holds slot hk
      have hr'' : s.request_of slot = some r' := hr'
      rw [hr''] at hbusy
      exact hbusy rfl
    · rename_i hparked
      exact h.next rfl rfl hphase hparked (Nat.not_le.mp hlen) hbusy hstep
  · rename_i slot r hphase
    split at hstep
    · cases hstep
      exact h.launch hphase
    · cases hstep
      refine h.parking ?_ ?_ rfl trivial
      · unfold Flights.ended
        rw [hphase]
      · unfold Flights.held
        rw [hphase]
    · cases hstep
      exact h.refuse hphase _
    · cases hstep
  · rename_i hphase
    split_ifs at hstep with hidle hagain
    · cases hstep
      exact h.goes_on (by unfold Flights.ended; rw [hphase]) (by unfold Flights.held; rw [hphase])
        (.inl rfl)
    · cases hstep
      refine h.finish hphase hidle fun hfailure => ?_
      by_contra hparked
      exact hagain ⟨.inl (Option.isSome_iff_ne_none.mpr hparked), by rw [hfailure]; rfl⟩
    · cases hstep
      exact h.goes_wait hphase hidle
  · rename_i hphase
    exact h.posix_wait rfl hphase hstep
  · rename_i slot hphase
    refine h.posix_reap rfl hphase (Nat.le_of_eq h.depth) ?_ ?_ hstep
    · unfold Flights.held
      rw [hphase]
    · trivial
  · cases hstep

/-- The next request of a batch. -/
theorem Sound.next_of_batch {requests : List Request} {t : Flights} {slot : Nat}
    (h : loop.Sound depth before s) (hbatch : loop.batch = some requests)
    (hfit : requests.length ≤ depth) (hphase : s.phase = .fill slot)
    (hstep : (match requests[slot]? with
      | some r => some { s.take r with phase := .start slot r }
      | none => some { s with phase := .check }) = some t) : loop.Sound depth before t := by
  have hrun : s.ended = none := by
    unfold Flights.ended
    rw [hphase]
  have hheld : s.held = s.parked := by
    unfold Flights.held
    rw [hphase]
  have hparked : s.parked = none := by
    rcases h.parks with rfl | hnone
    · cases hbatch
    · exact hnone
  have hat := h.at_phase
  rw [hphase] at hat
  have hlt := hat (by rw [hbatch]; rfl)
  split at hstep
  · rename_i r hr
    cases hstep
    have hslot := (List.getElem?_eq_some_iff.mp hr).1
    refine h.take hrun (hheld.trans hparked) ⟨hparked, ?_, fun hk => ?_, fun requests' heq => ?_⟩
    · rw [h.depth]
      omega
    · exact Nat.lt_irrefl _ (hlt slot hk)
    · rw [hbatch] at heq
      cases heq
      exact ⟨hr, hlt⟩
  · cases hstep
    exact h.goes_on hrun hheld (.inr (.inl rfl))

theorem Sound.posix_batch {requests : List Request} {t : Flights} {input : Input}
    (h : Sound (.posix_batch requests) depth before s) (hfit : requests.length ≤ depth)
    (hstep : posix.run_batch requests s input = some t) :
    Sound (.posix_batch requests) depth before t := by
  unfold posix.run_batch at hstep
  split at hstep
  · rename_i slot hphase
    exact h.next_of_batch rfl hfit hphase hstep
  · rename_i slot r hphase
    have hrun : s.ended = none := by
      unfold Flights.ended
      rw [hphase]
    have hheld : s.held = some r := by
      unfold Flights.held
      rw [hphase]
    have hahead := h.at_phase
    rw [hphase] at hahead
    rw [if_neg (Nat.not_le.mpr hahead.lt)] at hstep
    split at hstep
    · cases hstep
      exact h.launch hphase
    · split_ifs at hstep with hidle
      · cases hstep
        exact h
      · cases hstep
        refine h.goes hrun hheld.symm ⟨hidle, fun slot' r' hretry => ?_⟩
        cases hretry
        exact hahead.goes _
    · cases hstep
      refine h.give_up rfl (fun r' hr' => ?_) ?_
      · rw [hahead.parked] at hr'
        cases hr'
      · rw [waiting_of_some hheld]
        refine (waiting_of_held ?_).trans rfl
        exact hahead.parked
    · cases hstep
  · rename_i hphase
    split_ifs at hstep with hidle
    · cases hstep
      refine h.finish hphase hidle fun _ => ?_
      rcases h.parks with hloop | hnone
      · cases hloop
      · exact hnone
    · cases hstep
      exact h.goes_wait hphase hidle
  · rename_i hphase
    exact h.posix_wait rfl hphase hstep
  · rename_i slot hphase
    refine h.posix_reap rfl hphase hfit ?_ ?_ hstep
    · unfold Flights.held
      rw [hphase]
    · trivial
  · rename_i slot again r hphase
    have hahead := h.at_phase
    rw [hphase] at hahead
    refine h.posix_reap rfl hphase hfit ?_ ?_ hstep
    · unfold Flights.held
      rw [hphase]
    · exact (hahead again r rfl).goes _
  · cases hstep

theorem Sound.win_wait {t : Flights} {after : Phase} {input : Input}
    (h : loop.Sound depth before s) (hphase : s.phase = .wait none)
    (hafter : after = .top ∨ after = .check)
    (hstep : windows.wait (Flights.source loop.own s) loop.own.isNone after s input = some t) :
    loop.Sound depth before t := by
  have hrun : s.ended = none := by
    unfold Flights.ended
    rw [hphase]
  have hheld : s.held = s.parked := by
    unfold Flights.held
    rw [hphase]
  unfold windows.wait at hstep
  split at hstep
  · cases hstep
    exact h.goes hrun hheld.symm nofun
  · rename_i k a
    split at hstep
    · cases hstep
    rename_i slot hslot
    have hmem : slot ∈ s.kernel := List.mem_of_getElem? hslot
    obtain ⟨r, hr, -⟩ := h.core.holds slot hmem
    rw [hr] at hstep
    cases hstep
    have hparked : (s.settle loop.own.isNone slot r a).parked = s.parked := by
      obtain ⟨failure, passed, heq, -⟩ := Flights.settle_eq s loop.own.isNone slot r a
      rw [heq]
    rcases hafter with rfl | rfl
    · exact h.settle hrun hmem hr a (hparked.trans hheld.symm) trivial
    · exact h.settle hrun hmem hr a (hparked.trans hheld.symm) trivial
  · cases hstep

theorem Sound.win_stream {t : Flights} {input : Input} (h : Sound .win_stream depth before s)
    (hstep : windows.execute_stream s input = some t) : Sound .win_stream depth before t := by
  have hparked : s.parked = none := by
    rcases h.parks with hloop | hnone
    · cases hloop
    · exact hnone
  unfold windows.execute_stream at hstep
  split at hstep
  · rename_i hphase
    cases hstep
    refine h.goes_on (by unfold Flights.ended; rw [hphase]) (by unfold Flights.held; rw [hphase]) ?_
    split_ifs
    · exact .inr (.inr ⟨0, rfl, nofun⟩)
    · exact .inr (.inl rfl)
  · rename_i slot hphase
    have hrun : s.ended = none := by
      unfold Flights.ended
      rw [hphase]
    have hheld : s.held = s.parked := by
      unfold Flights.held
      rw [hphase]
    split_ifs at hstep with hlen hbusy
    · cases hstep
      exact h.goes_on hrun hheld (.inr (.inl rfl))
    · cases hstep
      exact h.goes_on hrun hheld (.inr (.inr ⟨_, rfl, nofun⟩))
    · exact h.next rfl rfl hphase hparked (Nat.not_le.mp hlen) hbusy hstep
  · rename_i slot r hphase
    split at hstep
    · cases hstep
      exact h.launch hphase
    · cases hstep
      exact h.refuse hphase _
    · cases hstep
  · rename_i hphase
    split_ifs at hstep with hidle hagain
    · cases hstep
      exact h.goes_on (by unfold Flights.ended; rw [hphase]) (by unfold Flights.held; rw [hphase])
        (.inl rfl)
    · cases hstep
      exact h.finish hphase hidle fun _ => hparked
    · cases hstep
      exact h.goes_wait hphase hidle
  · rename_i hphase
    exact h.win_wait hphase (.inl rfl) hstep
  · cases hstep

theorem Sound.win_batch {requests : List Request} {t : Flights} {input : Input}
    (h : Sound (.win_batch requests) depth before s) (hfit : requests.length ≤ depth)
    (hstep : windows.run_batch requests s input = some t) :
    Sound (.win_batch requests) depth before t := by
  unfold windows.run_batch at hstep
  split at hstep
  · rename_i slot hphase
    exact h.next_of_batch rfl hfit hphase hstep
  · rename_i slot r hphase
    have hahead := h.at_phase
    rw [hphase] at hahead
    rw [if_neg (Nat.not_le.mpr hahead.lt)] at hstep
    split at hstep
    · cases hstep
      exact h.launch hphase
    · cases hstep
      exact h.refuse hphase _
    · cases hstep
  · rename_i hphase
    split_ifs at hstep with hidle
    · cases hstep
      refine h.finish hphase hidle fun _ => ?_
      rcases h.parks with hloop | hnone
      · cases hloop
      · exact hnone
    · cases hstep
      exact h.goes_wait hphase hidle
  · rename_i hphase
    exact h.win_wait hphase (.inr rfl) hstep
  · cases hstep

/-- The number of requests of a batch is no more than the slots. -/
def Fits (loop : Loop) (depth : Nat) : Prop :=
  ∀ requests, loop.batch = some requests → requests.length ≤ depth

theorem Sound.step {t : Flights} {input : Input} (h : loop.Sound depth before s)
    (hfit : loop.Fits depth) (hstep : loop.step s input = some t) : loop.Sound depth before t := by
  cases loop with
  | posix_stream => exact h.posix_stream hstep
  | posix_batch requests => exact h.posix_batch (hfit requests rfl) hstep
  | win_stream => exact h.win_stream hstep
  | win_batch requests => exact h.win_batch (hfit requests rfl) hstep

theorem start_ended (loop : Loop) (depth stats : Nat) (observer : Option Nat) :
    (loop.start depth stats observer).ended = none := by
  unfold Flights.ended start Flights.begin
  dsimp only
  split_ifs <;> rfl

/-! ## How a call returns -/

/-- The call gives up with requests in flight: a wait fails, or a start in a POSIX batch. -/
def Abandons (loop : Loop) (s : Flights) (input : Input) : Prop :=
  match s.phase, input with
  | .wait _, .waited (some code) =>
    match loop with
    | .posix_stream | .posix_batch _ => code ≠ posix.EINTR
    | .win_stream | .win_batch _ => True
  | .start _ _, .failed _ =>
    match loop with
    | .posix_batch _ => s.outstanding ≠ 0
    | _ => False
  | _, _ => False

/-- What the step that returns does to the counts and to the requests in flight. -/
structure Ends (loop : Loop) (s t : Flights) (input : Input) : Prop where
  stats : t.stats = s.stats
  observer : t.observer = s.observer
  kernel : (¬ loop.Abandons s input ∧ s.outstanding = 0 ∧
      (t.kernel = s.kernel ∨ t.kernel = s.drain.kernel)) ∨
    (loop.Abandons s input ∧ s.outstanding ≠ 0 ∧ (loop.own = none ∨ t.kernel = s.kernel))

theorem Ends.of_check {t : Flights} {input : Input} (hphase : s.phase = .check)
    (hidle : s.outstanding = 0) (ht : t = { s with phase := t.phase }) : loop.Ends s t input := by
  rw [ht]
  refine ⟨rfl, rfl, .inl ⟨fun habandons => ?_, hidle, .inl rfl⟩⟩
  unfold Abandons at habandons
  rw [hphase] at habandons
  exact habandons

/-- The wait of the POSIX loops returns from the call if it fails, and then only. -/
theorem posix_wait_ends {t : Flights} {retry : Option (Nat × Request)} {input : Input}
    (hown : loop.own = none) (hbusy : s.outstanding ≠ 0)
    (hstep : posix.wait s retry input = some t) (hrun : s.ended = none)
    (habandons : ∀ code, input = .waited (some code) → (loop.Abandons s input ↔ code ≠ posix.EINTR))
    (hend : t.ended ≠ none) : loop.Ends s t input := by
  unfold posix.wait at hstep
  split at hstep
  · cases hstep
    exact absurd rfl hend
  · rename_i code
    by_cases hcode : code = posix.EINTR
    · rw [if_pos hcode] at hstep
      cases hstep
      exact absurd hrun hend
    · rw [if_neg hcode] at hstep
      cases hstep
      exact ⟨rfl, rfl, .inr ⟨(habandons code rfl).mpr hcode, hbusy, .inl hown⟩⟩
  · cases hstep

theorem posix_reap_goes {t : Flights} {slots slot : Nat} {after : Phase}
    {retry : Option (Nat × Request)} {input : Input}
    (hafter : ({ s with phase := after } : Flights).ended = none)
    (hstep : posix.reap slots after s slot retry input = some t) : t.ended = none := by
  unfold posix.reap at hstep
  split_ifs at hstep
  · cases hstep
    exact hafter
  · cases hstep
    rfl
  · split at hstep
    · cases hstep
      rfl
    · split at hstep
      · cases hstep
        rfl
      · cases hstep
        rfl
      · cases hstep

theorem win_wait_ends {t : Flights} {source : Nat → Option Request} {b : Bool} {after : Phase}
    {input : Input} (hbusy : s.outstanding ≠ 0) (hphase : s.phase = .wait none)
    (hloop : loop = .win_stream ∨ ∃ requests, loop = .win_batch requests)
    (hafter : after = .top ∨ after = .check)
    (hstep : windows.wait source b after s input = some t) (hend : t.ended ≠ none) :
    loop.Ends s t input := by
  unfold windows.wait at hstep
  split at hstep
  · cases hstep
    refine ⟨rfl, rfl, .inr ⟨?_, hbusy, .inr rfl⟩⟩
    unfold Abandons
    rw [hphase]
    rcases hloop with rfl | ⟨requests, rfl⟩
    · trivial
    · trivial
  · split at hstep
    · cases hstep
    split at hstep
    · cases hstep
      exact absurd rfl hend
    · cases hstep
      rcases hafter with rfl | rfl
      · exact absurd rfl hend
      · exact absurd rfl hend
  · cases hstep

theorem Sound.busy {retry : Option (Nat × Request)} (h : loop.Sound depth before s)
    (hphase : s.phase = .wait retry) : s.outstanding ≠ 0 := by
  have hat := h.at_phase
  rw [hphase] at hat
  exact hat.1

theorem Sound.posix_stream_ends {t : Flights} {input : Input}
    (h : Sound .posix_stream depth before s) (hstep : posix.stream s input = some t)
    (hend : t.ended ≠ none) : Ends .posix_stream s t input := by
  unfold posix.stream at hstep
  split at hstep
  · cases hstep
    refine absurd ?_ hend
    unfold Flights.ended
    dsimp only
    split_ifs <;> rfl
  · split_ifs at hstep
    · cases hstep
      exact absurd rfl hend
    · cases hstep
      exact absurd rfl hend
    split at hstep
    · cases hstep
      exact absurd rfl hend
    · split at hstep <;> cases hstep <;> exact absurd rfl hend
  · split at hstep <;> cases hstep <;> exact absurd rfl hend
  · rename_i hphase
    split_ifs at hstep with hidle
    · cases hstep
      exact absurd rfl hend
    · cases hstep
      exact Ends.of_check hphase hidle rfl
    · cases hstep
      exact absurd rfl hend
  · rename_i hphase
    refine posix_wait_ends rfl (h.busy hphase) hstep (by unfold Flights.ended; rw [hphase])
      (fun code hcode => ?_) hend
    unfold Abandons
    rw [hphase, hcode]
  · exact absurd (posix_reap_goes rfl hstep) hend
  · cases hstep

theorem Sound.posix_batch_ends {requests : List Request} {t : Flights} {input : Input}
    (h : Sound (.posix_batch requests) depth before s)
    (hstep : posix.run_batch requests s input = some t) (hend : t.ended ≠ none) :
    Ends (.posix_batch requests) s t input := by
  unfold posix.run_batch at hstep
  split at hstep
  · split at hstep <;> cases hstep <;> exact absurd rfl hend
  · rename_i slot r hphase
    split at hstep
    · cases hstep
      exact absurd rfl hend
    split at hstep
    · cases hstep
      exact absurd rfl hend
    · split at hstep
      · cases hstep
        exact absurd (by unfold Flights.ended; rw [hphase]) hend
      · cases hstep
        exact absurd rfl hend
    · cases hstep
      refine ⟨rfl, rfl, ?_⟩
      have habandons : Abandons (.posix_batch requests) s (.failed ‹_›) ↔ s.outstanding ≠ 0 := by
        unfold Abandons
        rw [hphase]
      by_cases hidle : s.outstanding = 0
      · exact .inl ⟨fun ha => habandons.mp ha hidle, hidle, .inr rfl⟩
      · exact .inr ⟨habandons.mpr hidle, hidle, .inl rfl⟩
    · cases hstep
  · rename_i hphase
    split_ifs at hstep with hidle
    · cases hstep
      exact Ends.of_check hphase hidle rfl
    · cases hstep
      exact absurd rfl hend
  · rename_i hphase
    refine posix_wait_ends rfl (h.busy hphase) hstep (by unfold Flights.ended; rw [hphase])
      (fun code hcode => ?_) hend
    unfold Abandons
    rw [hphase, hcode]
  · exact absurd (posix_reap_goes rfl hstep) hend
  · exact absurd (posix_reap_goes rfl hstep) hend
  · cases hstep

theorem Sound.win_stream_ends {t : Flights} {input : Input} (h : Sound .win_stream depth before s)
    (hstep : windows.execute_stream s input = some t) (hend : t.ended ≠ none) :
    Ends .win_stream s t input := by
  unfold windows.execute_stream at hstep
  split at hstep
  · cases hstep
    refine absurd ?_ hend
    unfold Flights.ended
    dsimp only
    split_ifs <;> rfl
  · split_ifs at hstep
    · cases hstep
      exact absurd rfl hend
    · cases hstep
      exact absurd rfl hend
    · split at hstep <;> cases hstep <;> exact absurd rfl hend
  · split at hstep <;> cases hstep <;> exact absurd rfl hend
  · rename_i hphase
    split_ifs at hstep with hidle
    · cases hstep
      exact absurd rfl hend
    · cases hstep
      exact Ends.of_check hphase hidle rfl
    · cases hstep
      exact absurd rfl hend
  · rename_i hphase
    exact win_wait_ends (h.busy hphase) hphase (.inl rfl) (.inl rfl) hstep hend
  · cases hstep

theorem Sound.win_batch_ends {requests : List Request} {t : Flights} {input : Input}
    (h : Sound (.win_batch requests) depth before s)
    (hstep : windows.run_batch requests s input = some t) (hend : t.ended ≠ none) :
    Ends (.win_batch requests) s t input := by
  unfold windows.run_batch at hstep
  split at hstep
  · split at hstep <;> cases hstep <;> exact absurd rfl hend
  · split_ifs at hstep
    · cases hstep
      exact absurd rfl hend
    · split at hstep <;> cases hstep <;> exact absurd rfl hend
  · rename_i hphase
    split_ifs at hstep with hidle
    · cases hstep
      exact Ends.of_check hphase hidle rfl
    · cases hstep
      exact absurd rfl hend
  · rename_i hphase
    exact win_wait_ends (h.busy hphase) hphase (.inr ⟨_, rfl⟩) (.inr rfl) hstep hend
  · cases hstep

theorem Sound.ends {t : Flights} {input : Input} (h : loop.Sound depth before s)
    (hstep : loop.step s input = some t) (hend : t.ended ≠ none) : loop.Ends s t input := by
  cases loop with
  | posix_stream => exact h.posix_stream_ends hstep hend
  | posix_batch requests => exact h.posix_batch_ends hstep hend
  | win_stream => exact h.win_stream_ends hstep hend
  | win_batch requests => exact h.win_batch_ends hstep hend

theorem step_of_ended {input : Input} (h : s.ended ≠ none) : loop.step s input = none := by
  unfold Flights.ended at h
  split at h
  · rename_i result hphase
    cases loop with
    | posix_stream => unfold step posix.stream; dsimp only; rw [hphase]
    | posix_batch requests => unfold step posix.run_batch; dsimp only; rw [hphase]
    | win_stream => unfold step windows.execute_stream; dsimp only; rw [hphase]
    | win_batch requests => unfold step windows.run_batch; dsimp only; rw [hphase]
  · exact absurd rfl h

/-- Nothing that was started is unfinished, and the two counts are what they were before the
call. -/
structure Balanced (before : Nat × Option Nat) (s : Flights) : Prop where
  kernel : s.kernel = []
  stats : s.stats = before.1
  observer : s.observer = before.2

theorem Sound.balanced {t : Flights} {input : Input} (h : loop.Sound depth before s)
    (hok : ¬ loop.Abandons s input) (hstep : loop.step s input = some t) (hend : t.ended ≠ none) :
    Balanced before t := by
  have hrun : s.ended = none := by
    by_contra hne
    rw [step_of_ended hne] at hstep
    cases hstep
  obtain ⟨hstats, hobserver, hkernel⟩ := h.ends hstep hend
  obtain ⟨c1, c2, c3⟩ := h.counted hrun
  rcases hkernel with ⟨-, hidle, hkernel⟩ | ⟨habandons, -⟩
  · have hnil : s.kernel = [] := by
      rw [← List.length_eq_zero_iff, ← c1]
      exact hidle
    have hdrain : s.drain.kernel = [] := by
      unfold Flights.drain
      dsimp only
      rw [hnil]
      rfl
    refine ⟨?_, ?_, ?_⟩
    · rcases hkernel with hkernel | hkernel
      · rw [hkernel, hnil]
      · rw [hkernel, hdrain]
    · rw [hstats, c2, hnil]
      simp
    · rw [hobserver, c3, hnil]
      simp
  · exact absurd habandons hok

theorem Sound.abandons_ends {t : Flights} {input : Input} (h : loop.Sound depth before s)
    (hfault : loop.Abandons s input) (hstep : loop.step s input = some t) : t.ended ≠ none := by
  unfold Abandons at hfault
  split at hfault
  · rename_i retry code hphase
    cases loop with
    | posix_stream =>
      change posix.stream s (.waited (some code)) = some t at hstep
      unfold posix.stream posix.wait at hstep
      rw [hphase] at hstep
      cases retry with
      | none =>
        dsimp only at hstep
        rw [if_neg hfault] at hstep
        cases hstep
        nofun
      | some x => cases hstep
    | posix_batch requests =>
      change posix.run_batch requests s (.waited (some code)) = some t at hstep
      unfold posix.run_batch posix.wait at hstep
      rw [hphase] at hstep
      dsimp only at hstep
      rw [if_neg hfault] at hstep
      cases hstep
      nofun
    | win_stream =>
      change windows.execute_stream s (.waited (some code)) = some t at hstep
      unfold windows.execute_stream windows.wait at hstep
      rw [hphase] at hstep
      cases retry with
      | none =>
        cases hstep
        nofun
      | some x => cases hstep
    | win_batch requests =>
      change windows.run_batch requests s (.waited (some code)) = some t at hstep
      unfold windows.run_batch windows.wait at hstep
      rw [hphase] at hstep
      cases retry with
      | none =>
        cases hstep
        nofun
      | some x => cases hstep
  · rename_i slot r code hphase
    have hahead := h.at_phase
    rw [hphase] at hahead
    cases loop with
    | posix_batch requests =>
      change posix.run_batch requests s (.failed code) = some t at hstep
      unfold posix.run_batch at hstep
      rw [hphase] at hstep
      dsimp only at hstep
      rw [if_neg (Nat.not_le.mpr hahead.lt)] at hstep
      cases hstep
      nofun
    | posix_stream => exact hfault.elim
    | win_stream => exact hfault.elim
    | win_batch requests => exact hfault.elim
  · exact hfault.elim

theorem Sound.unbalanced {t : Flights} {input : Input} (h : loop.Sound depth before s)
    (hfault : loop.Abandons s input) (hstep : loop.step s input = some t) :
    (∀ input', loop.step t input' = none) ∧ ¬ Balanced before t := by
  have hend : t.ended ≠ none := h.abandons_ends hfault hstep
  have hrun : s.ended = none := by
    by_contra hne
    rw [step_of_ended hne] at hstep
    cases hstep
  refine ⟨fun input' => step_of_ended hend, fun hbalanced => ?_⟩
  obtain ⟨hstats, -, hkernel⟩ := h.ends hstep hend
  obtain ⟨c1, c2, -⟩ := h.counted hrun
  rcases hkernel with ⟨hnot, -⟩ | ⟨-, hbusy, hown | hkept⟩
  · exact hnot hfault
  · -- the statistics still count what was cancelled
    have hequal := hbalanced.stats
    rw [hstats, c2, hown, Option.isNone_none, if_pos rfl] at hequal
    omega
  · have hnil := hbalanced.kernel
    rw [hkept] at hnil
    rw [c1, hnil] at hbusy
    exact hbusy rfl

/-- What is promised of the requests of a call, however it goes. -/
structure Contract (s : Flights) : Prop where
  started_once : s.ledger.accepted.Nodup ∧ ∀ id ∈ s.ledger.accepted, id < s.ledger.taken.length
  outstanding : s.ended = none → s.outstanding = s.kernel.length ∧
    s.outstanding + s.ledger.results.length = s.ledger.accepted.length
  /-- Requests are started in the order they were taken, a parked one before any newer. -/
  in_order : s.ledger.accepted.Pairwise (· < ·)
  /-- A request taken is started, or it is the one held back, or its start failed. -/
  kept : (s.waiting ++ s.ledger.accepted).Perm (List.range s.ledger.taken.length)
  refused : s.ended = none → s.refused ≠ [] → s.failure ≠ none
  ok : s.ended = some (.ok ()) → ∀ id < s.ledger.taken.length, ∃ slot r,
    s.ledger.taken[id]? = some r ∧
    s.ledger.results.filter (fun x => x.1 == id) = [(id, ⟨slot, r, .ok r.len⟩)] ∧
    s.passed.filter (fun x => x.1 == id) = [(id, slot, r)]

theorem Sound.contract (h : loop.Sound depth before s) : Contract s := by
  obtain ⟨-, -, -, -, -, hledger, horder, houtcomes, htold⟩ := h.core
  refine ⟨⟨hledger.accepted_nodup, fun id hid => hledger.accepted_lt hid⟩, fun hrun => ?_, horder,
    hledger.taken, fun hrun => (h.running hrun).2, fun hok id hid => ?_⟩
  · have hcount := (h.counted hrun).outstanding
    have hlength := hledger.accepted.length_eq
    rw [(h.running hrun).1, List.append_nil, List.length_append, List.length_map, Ledger.settled,
      List.length_map] at hlength
    exact ⟨hcount, by omega⟩
  · have hat := h.at_phase
    unfold Flights.ended at hok
    split at hok
    · rename_i hphase
      cases hok
      rw [hphase] at hat
      obtain ⟨hkernel, hdrained, hwaiting, hfailure⟩ := hat rfl
      obtain ⟨hfull, hpassed⟩ := htold hfailure
      rw [hwaiting, hkernel, hdrained] at hledger
      obtain ⟨-, hsettled⟩ := ledger.Sound.settled_perm hledger
      have hid' : id ∈ s.ledger.settled := hsettled.symm.subset (List.mem_range.mpr hid)
      obtain ⟨x, hx⟩ := Table.filter_key hledger.settled_nodup hid'
      have hmem : (id, x) ∈ s.ledger.results := by
        have hin : (id, x) ∈ s.ledger.results.filter fun y => y.1 == id := by
          rw [hx]
          exact List.mem_singleton.mpr rfl
        exact List.mem_of_mem_filter hin
      have hanswer : x.answer = .ok x.request.len := hfull _ hmem
      refine ⟨x.slot, x.request, houtcomes _ hmem, ?_, ?_⟩
      · rw [hx, ← hanswer]
      · have hmap : s.passed.filter (fun y => y.1 == id) =
            (s.ledger.results.filter fun y => y.1 == id).map fun y =>
              (y.1, y.2.slot, y.2.request) := by
          rw [hpassed, List.filter_map]
          rfl
        rw [hmap, hx]
        rfl
    · cases hok

/-- For each of the four loops, every depth, every sequence of answers and every run: a
request is started once at most, requests are started in the order they were taken, none is
dropped, `outstanding` counts those in flight, and with no failure each was passed on once
with its full length. The call returns with nothing in flight and both counts as before
exactly if no wait failed, and in a POSIX batch no start failed with requests in flight. -/
theorem backends_keep_the_contract_and_return_balanced_iff_nothing_is_abandoned (loop : Loop)
    {depth : Nat} (hfit : loop.Fits depth) (stats : Nat) (observer : Option Nat)
    {inputs : List Input} {s : Flights}
    (hrun : machine.run loop.step (loop.start depth stats observer) inputs = some s) :
    Contract s ∧ (s.ended ≠ none → (Balanced (stats, observer) s ↔
      machine.Along loop.step (fun s input => ¬ loop.Abandons s input)
        (loop.start depth stats observer) inputs)) := by
  have hstart := start_sound loop depth stats observer
  have hsound : loop.Sound depth (stats, observer) s :=
    machine.invariant (fun _ _ _ h hstep => h.step hfit hstep) hrun hstart
  refine ⟨hsound.contract, fun hend => ⟨fun hbalanced => ?_, fun halong => ?_⟩⟩
  · exact machine.along_of_good (P := loop.Sound depth (stats, observer))
      (fun _ _ _ h hstep => h.step hfit hstep)
      (fun _ _ _ h hfault hstep => h.unbalanced hfault hstep) hrun hstart hbalanced
  · have hkept : loop.Sound depth (stats, observer) s ∧
        (s.ended ≠ none → Balanced (stats, observer) s) :=
      machine.invariant_along (P := fun s => loop.Sound depth (stats, observer) s ∧
          (s.ended ≠ none → Balanced (stats, observer) s))
        (fun _ _ _ h hok hstep => ⟨h.1.step hfit hstep, h.1.balanced hok hstep⟩) hrun halong
        ⟨hstart, fun hne => absurd (start_ended loop depth stats observer) hne⟩
    exact hkept.2 hend

/-- A request that the kernel has no room for at first, started and finished by a stream. -/
def parked_once : List Input :=
  [.go, .next (.request { Request.default with len := 512 }), .full, .go, .go, .go, .started, .go,
    .go, .waited none, .asked (some (.ok 512)), .go, .go, .next .done, .go]

theorem not_abandons {input : Input} (h : ∀ code, input ≠ .waited (some code))
    (h' : ∀ code, input ≠ .failed code) : ¬ loop.Abandons s input := by
  intro hfault
  unfold Abandons at hfault
  split at hfault
  · exact h _ rfl
  · exact h' _ rfl
  · exact hfault

/-- It returns with nothing in flight, and the statistics and the observer at what they were. -/
theorem a_parked_request_is_finished : ∃ s,
    machine.run (step .posix_stream) (start .posix_stream 1 3 (some 7)) parked_once = some s ∧
    s.ended = some (.ok ()) ∧ Contract s ∧ Balanced (3, some 7) s := by
  have hrun : ∃ s, machine.run (step .posix_stream) (start .posix_stream 1 3 (some 7)) parked_once =
      some s ∧ s.ended = some (.ok ()) :=
    ⟨_, rfl, rfl⟩
  obtain ⟨s, hs, hend⟩ := hrun
  obtain ⟨hcontract, hiff⟩ :=
    backends_keep_the_contract_and_return_balanced_iff_nothing_is_abandoned .posix_stream
      (by nofun) 3 (some 7) hs
  refine ⟨s, hs, hend, hcontract, (hiff (by rw [hend]; nofun)).mpr ?_⟩
  refine machine.along_of_mem _ (fun input hinput t => ?_) _
  simp only [parked_once, List.mem_cons, List.not_mem_nil, or_false] at hinput
  apply not_abandons
  · rintro code rfl
    simp at hinput
  · rintro code rfl
    simp at hinput

/-- A wait fails with one request in flight. On POSIX it is cancelled, and the statistics and
the observer count it for ever; on Windows the call returns while the system still has its
buffer. -/
theorem a_failed_wait_leaves_the_counts_and_the_request : ∃ s t,
    machine.run (step .posix_stream) (start .posix_stream 1 0 (some 0))
      [.go, .next (.request { Request.default with len := 512 }), .started, .go, .go,
        .waited (some 5)] = some s ∧
    s.ended = some (.error (.System (.os 5))) ∧ s.stats = 1 ∧ s.observer = some 1 ∧
    machine.run (step .win_stream) (start .win_stream 1 0 (some 0))
      [.go, .next (.request { Request.default with len := 512 }), .started, .go, .go,
        .waited (some 5)] = some t ∧
    t.ended = some (.error (.System (.os 5))) ∧ t.kernel = [0] ∧ t.stats = 1 ∧
    ¬ Balanced (0, some 0) s ∧ ¬ Balanced (0, some 0) t := by
  refine ⟨_, _, rfl, rfl, rfl, rfl, rfl, rfl, rfl, rfl, fun h => ?_, fun h => ?_⟩
  · exact absurd h.stats (by decide)
  · exact absurd h.stats (by decide)

end Loop

end stutools
