-- Whether `drive` comes round to the commands in flight. The send loop sleeps
-- for a path that is down when no usable path has room, and it does so also
-- while another path has commands in flight and is only full.
import Stutools.PoolSlots

open flags

namespace stutools

variable {σ : Type} {T : Transport σ}

namespace Drive

/-- Some live session has a command in flight. -/
def Busy (T : Transport σ) (d : Drive σ) : Prop :=
  ∃ path s, d.pool.session path = some s ∧ 0 < T.inflight s

/-- The branch that sleeps for a reconnect is taken. -/
def Sleeps (T : Transport σ) (d : Drive σ) : Prop :=
  d.phase = .send ∧ ∃ slot req q, d.held = some (slot, req) ∧ choose T d.pool req = (.sleep, q)

/-- While a path is down and a live session has a command in flight, some usable
path has room for another one. -/
def Roomy (T : Transport σ) (d : Drive σ) : Prop :=
  Busy T d → d.pool.any_down = true → ¬ NoRoom T d.pool

/-- At a request that can be sent, the branch is taken only with nothing in flight
exactly when there is such room. -/
theorem sleeps_only_idle_iff {d : Drive σ} {slot : Nat} {req : Request}
    (hp : d.pool.lanes.paths = d.pool.sessions.length) (hphase : d.phase = .send)
    (hheld : d.held = some (slot, req))
    (hio : (drive_io req d.pool.geometry.block_len.toNat).isSome)
    (hapart : d.pool.overlaps_in_flight req = false) :
    (Sleeps T d → ¬ Busy T d) ↔ Roomy T d := by
  rcases hc : choose T d.pool req with ⟨c, q⟩
  obtain ⟨-, -, hsleep, -⟩ := choose.spec hp hc
  have hsleeps : Sleeps T d ↔ d.pool.any_down = true ∧ NoRoom T d.pool := by
    constructor
    · rintro ⟨-, slot', req', q', hheld', hc'⟩
      obtain ⟨rfl, rfl⟩ := Prod.mk.inj (Option.some.inj (hheld.symm.trans hheld'))
      obtain ⟨rfl, -⟩ := Prod.mk.inj (hc.symm.trans hc')
      exact (hsleep.mp rfl).2.2
    · rintro ⟨hdown, hnoroom⟩
      obtain rfl := hsleep.mpr ⟨hio, hapart, hdown, hnoroom⟩
      exact ⟨hphase, slot, req, q, hheld, hc⟩
  rw [hsleeps]
  unfold Roomy
  tauto

theorem Roomy.not_busy {d : Drive σ} (hp : d.pool.lanes.paths = d.pool.sessions.length)
    (h : Roomy T d) (hsleeps : Sleeps T d) : ¬ Busy T d := by
  obtain ⟨-, slot, req, q, -, hc⟩ := hsleeps
  obtain ⟨-, -, hsleep, -⟩ := choose.spec hp hc
  obtain ⟨-, -, hdown, hnoroom⟩ := hsleep.mp rfl
  exact fun hbusy => h hbusy hdown hnoroom

/-! ## The turns of the send loop -/

/-- The number of sessions that are up. -/
def live (p : Pool σ) : Nat := p.sessions.countP Option.isSome

/-- What the send loop can still do: lose its sessions one by one, each with the
commands that go back to be sent again, and fill the slots. -/
def room (depth : Nat) (p : Pool σ) : Nat := live p * (depth + 1) + (depth - p.in_flight)

/-- How many more steps the send loop takes while a command is in flight. -/
def patience (depth : Nat) (d : Drive σ) : Nat :=
  match d.phase, d.held with
  | .fetch, none => 5 * room depth d.pool + if d.exhausted then 2 else 3
  | .fetch, some _ => 5 * room depth d.pool + 2
  | .send, some _ => 5 * room depth d.pool + 1
  | .send, none => 5 * room depth d.pool + 4
  | _, _ => 0

/-- The session of a path that is up is replaced, or taken away. -/
theorem live_set {p : Pool σ} {path : Nat} {s : σ} (hs : p.session path = some s) (x : Option σ) :
    (p.sessions.set path x).countP Option.isSome + 1 = live p + x.isSome.toNat := by
  have hlt := Pool.session_lt hs
  have hpath : p.sessions[path]? = some (some s) := Option.join_eq_some_iff.mp hs
  have hget : p.sessions[path] = some s := by
    rw [List.getElem?_eq_getElem hlt] at hpath
    exact Option.some.inj hpath
  have hpos : 0 < live p := List.countP_pos_iff.mpr ⟨some s, List.mem_of_getElem? hpath, rfl⟩
  have hlive : live p = p.sessions.countP Option.isSome := rfl
  rw [List.countP_set hlt, hget, ← hlive]
  cases x <;> simp <;> omega

theorem room_disconnect {depth : Nat} {p : Pool σ} {path : Nat} {s : σ}
    (hs : p.session path = some s) (hle : p.in_flight ≤ depth) :
    room depth (p.disconnect path) < room depth p := by
  have hlive := live_set hs none
  rw [Option.isSome_none, Bool.toNat_false, Nat.add_zero] at hlive
  have hlost : live (p.disconnect path) + 1 = live p := by
    rw [Pool.disconnect_eq]
    exact hlive
  unfold room
  rw [← hlost, Nat.add_mul, Nat.one_mul]
  omega

theorem room_launched {depth path : Nat} {p : Pool σ} {s : σ} (slot : Nat) (s' : σ)
    (hs : p.session path = some s) (hle : p.in_flight + 1 ≤ depth) :
    room depth (launched p slot path s') + 1 = room depth p := by
  have hlive := live_set hs (some s')
  rw [Option.isSome_some, Bool.toNat_true, Nat.add_right_cancel_iff] at hlive
  have hkept : live (launched p slot path s') = live p := hlive
  unfold room
  rw [hkept]
  show live p * (depth + 1) + (depth - (p.in_flight + 1)) + 1 = _
  omega

variable {C : Contract T} {depth : Nat} {d e : Drive σ}

theorem fetch_patience {input : Input σ} (hphase : d.phase = .fetch) (hheld : d.held = none)
    (h : d.fetch input = some e) : patience depth e < patience depth d := by
  have hd : patience depth d = 5 * room depth d.pool + if d.exhausted then 2 else 3 := by
    unfold patience
    rw [hphase, hheld]
  have hlow : 5 * room depth d.pool + 2 ≤ patience depth d := by
    rw [hd]
    split <;> omega
  unfold fetch at h
  split at h
  · cases h
    show 5 * room depth d.pool + 1 < patience depth d
    omega
  split at h
  · cases h
    show 0 < patience depth d
    omega
  rename_i hexhausted
  have hdone : patience depth { d with exhausted := true } < patience depth d := by
    rw [hd, if_neg hexhausted]
    unfold patience
    rw [hphase, hheld]
    show 5 * room depth d.pool + 2 < _
    omega
  split at h
  · split at h
    · cases h
      show 5 * room depth d.pool + 1 < patience depth d
      omega
    · cases h
      exact hdone
  · split at h
    · cases h
      show 0 < patience depth d
      omega
    · split at h
      · cases h
        show 5 * room depth d.pool + 1 < patience depth d
        omega
      · cases h
        show 0 < patience depth d
        omega
      · cases h
        exact hdone
      · cases h

theorem send_patience {input : Input σ} {slot : Nat} {req : Request} (hd : Conserved C depth d)
    (he : Conserved C depth e) (hphase : d.phase = .send) (hheld : d.held = some (slot, req))
    (hsleeps : ¬ Sleeps T d) (h : d.send T slot req input = some e) :
    patience depth e < patience depth d := by
  have hpatience : patience depth d = 5 * room depth d.pool + 1 := by
    unfold patience
    rw [hphase, hheld]
  unfold send at h
  rcases hc : choose T d.pool req with ⟨c, q⟩
  obtain ⟨⟨lanes, hq, -⟩, -, -, hsubmit⟩ := choose.spec hd.fits.lanes hc
  have hroom : room depth q = room depth d.pool := by
    rw [hq]
    rfl
  rw [hc] at h
  cases c with
  | refused err =>
    cases h
    show 0 < patience depth d
    omega
  | later =>
    cases h
    show 0 < patience depth d
    omega
  | sleep => exact absurd ⟨hphase, slot, req, _, hheld, hc⟩ hsleeps
  | submit path io =>
    obtain ⟨-, -, s, hs, -⟩ := hsubmit path io rfl
    have hsession : q.session path = some s := by
      rw [hq]
      exact hs
    have hin_flight : q.in_flight = d.pool.in_flight := by rw [hq]
    dsimp only at h
    split at h
    · cases h
      have hlost := room_disconnect hsession (hin_flight ▸ hd.in_flight_le)
      have heq : patience depth { d with pool := q.disconnect path } =
          5 * room depth (q.disconnect path) + 1 := by
        unfold patience
        rw [hphase, hheld]
      omega
    · rename_i s'
      cases h
      have hle : q.in_flight + 1 ≤ depth := he.in_flight_le
      have hsent := room_launched slot s' hsession hle
      have hmost : patience depth { d with
          pool := launched q slot path s', held := none, phase := .fetch } ≤
          5 * room depth (launched q slot path s') + 3 := by
        unfold patience
        dsimp only
        split <;> omega
      omega
    · cases h

/-- The send loop is at work. -/
def Sending (d : Drive σ) : Prop := d.phase = .fetch ∨ d.phase = .send

/-- Every step of the send loop takes something off its patience, as long as it
does not sleep. -/
theorem step_patience {input : Input σ} (hd : Conserved C depth d) (hsending : d.Sending)
    (hsleeps : ¬ Sleeps T d) (hok : C.Obeys d input) (h : d.step T input = some e) :
    patience depth e < patience depth d := by
  have hconserved := (step_move hd.fits.lanes h).conserved hd hok
  unfold step at h
  rcases hsending with hphase | hphase
  · rw [hphase] at h
    dsimp only at h
    split at h
    · rename_i hheld
      exact fetch_patience hphase hheld h
    · rename_i held hheld
      cases h
      unfold patience
      rw [hphase, hheld]
      dsimp only
      omega
  · rw [hphase] at h
    dsimp only at h
    split at h
    · rename_i hheld
      cases h
      unfold patience
      rw [hphase, hheld]
      dsimp only
      split <;> omega
    · rename_i slot req hheld
      rcases hconserved with he | ⟨done, hdone⟩
      · exact send_patience hd he hphase hheld hsleeps h
      · unfold patience
        rw [hphase, hheld, hdone]
        dsimp only
        omega

/-- A step of the send loop while a command is in flight. -/
def Waits (C : Contract T) (d : Drive σ) (input : Input σ) : Prop :=
  d.Sending ∧ Busy T d ∧ Roomy T d ∧ C.Obeys d input

/-- In every state that a call reaches, if there is room on a usable path whenever
a path is down and a command is in flight, the send loop sleeps only with nothing
in flight; and while a command is in flight and there is that room, it takes no
more than a number of steps before `drive` waits for a command or returns. At a
request that can be sent, the room is what it comes down to. -/
theorem drive_serves_the_commands_in_flight_while_a_path_has_room (C : Contract T) {p : Pool σ}
    {mode : Mode} {inputs : List (Input σ)} (hready : p.Ready C depth mode)
    (hrun : machine.run (Drive.step T) (Drive.start p mode) inputs = some d)
    (hok : machine.Along (Drive.step T) C.Obeys (Drive.start p mode) inputs) (hlive : ¬ d.Failed) :
    (Roomy T d → Sleeps T d → ¬ Busy T d) ∧
    (∀ more e, machine.run (Drive.step T) d more = some e →
      machine.Along (Drive.step T) (Waits C) d more → more.length ≤ patience depth d) ∧
    (∀ slot req, d.phase = .send → d.held = some (slot, req) →
      (drive_io req d.pool.geometry.block_len.toNat).isSome →
      d.pool.overlaps_in_flight req = false → ((Sleeps T d → ¬ Busy T d) ↔ Roomy T d)) := by
  have hd : Conserved C depth d := by
    have hkept : Kept C depth d :=
      machine.invariant_along (fun _ _ _ hd hinput hstep => step_kept hd hinput hstep) hrun hok
        ⟨.inl (Conserved.start hready), trivial⟩
    exact hkept.1.resolve_right hlive
  refine ⟨fun hroomy => hroomy.not_busy hd.fits.lanes, fun more e hmore hwaits => ?_,
    fun slot req hphase hheld hio hapart =>
      sleeps_only_idle_iff hd.fits.lanes hphase hheld hio hapart⟩
  refine machine.length_le_along (P := fun d => Conserved C depth d ∨ d.Failed)
    (fun d input e hkept hwait hstep => ?_) hmore hwaits (.inl hd)
  obtain ⟨hsending, hbusy, hroomy, hobeys⟩ := hwait
  rcases hkept with hd | ⟨done, hdone⟩
  · have hsleeps : ¬ Sleeps T d := fun hs => hroomy.not_busy hd.fits.lanes hs hbusy
    exact ⟨(step_move hd.fits.lanes hstep).conserved hd hobeys,
      step_patience hd hsending hsleeps hobeys hstep⟩
  · rcases hsending with hphase | hphase
    · rw [hdone] at hphase
      cases hphase
    · rw [hdone] at hphase
      cases hphase

end Drive

/-! ## A path that is down beside one that is full -/

/-- The first read is in flight on path 0, and the second is to be sent on path 1. -/
def Drive.full_beside_room : List (Input (Finset Nat)) :=
  [.reconnect fun _ => .waiting, .ticks fun _ => some ∅,
    .offer (.request { Request.default with len := 512 }), .submitted (some {0}),
    .offer (.request { Request.default with offset := 512, len := 512 })]

theorem Drive.full_beside_room_obeys {p : Pool (Finset Nat)} (h : Pool.tagged_two = some p)
    (more : List (Input (Finset Nat)))
    (hmore : ∀ d, machine.Along (Drive.step .tagged) Contract.tagged.Obeys d more) :
    machine.Along (Drive.step .tagged) Contract.tagged.Obeys (Drive.start p .stream)
      (Drive.full_beside_room ++ more) := by
  cases h
  refine ⟨nofun, fun d hd => ?_⟩
  cases hd
  refine ⟨fun path s s' hs hs' => ?_, fun d hd => ?_⟩
  · cases hs'
    rcases session_two hs with ⟨-, hs⟩ | ⟨-, hs⟩
    · cases hs
      rfl
    · cases hs
      rfl
  cases hd
  refine ⟨trivial, fun d hd => ?_⟩
  cases hd
  refine ⟨fun slot req path io q s hheld hchoose hs => ?_, fun d hd => ?_⟩
  · cases hheld
    rcases session_two hs with ⟨-, hs⟩ | ⟨-, hs⟩
    · cases hs
      rfl
    · cases hs
      rfl
  cases hd
  exact ⟨trivial, fun d _ => hmore d⟩

/-- With room on path 1, the commands wait for no more than 36 steps of the send loop. -/
theorem a_full_path_is_served_beside_one_with_room :
    ∃ p d, Pool.tagged_two = some p ∧
      machine.run (Drive.step .tagged) (Drive.start p .stream) Drive.full_beside_room = some d ∧
      ∀ more e, machine.run (Drive.step .tagged) d more = some e →
        machine.Along (Drive.step .tagged) (Drive.Waits Contract.tagged) d more →
        more.length ≤ 36 := by
  obtain ⟨p, d, hp, hrun, hphase, hpatience⟩ : ∃ p d, Pool.tagged_two = some p ∧
      machine.run (Drive.step .tagged) (Drive.start p .stream) Drive.full_beside_room = some d ∧
      d.phase = .send ∧ Drive.patience 2 d = 36 :=
    ⟨_, _, rfl, rfl, rfl, rfl⟩
  have hok := Drive.full_beside_room_obeys hp [] fun _ => trivial
  rw [List.append_nil] at hok
  have hlive : ¬ d.Failed := by
    rintro ⟨done, hdone⟩
    rw [hphase] at hdone
    cases hdone
  obtain ⟨-, hserved, -⟩ := Drive.drive_serves_the_commands_in_flight_while_a_path_has_room
    Contract.tagged (Pool.tagged_two_ready hp) hrun hok hlive
  rw [hpatience] at hserved
  exact ⟨p, d, hp, hrun, hserved⟩

namespace Drive

theorem try_reconnect_waiting (p : Pool σ) : p.try_reconnect T (fun _ => .waiting) = p := by
  refine List.foldlRecOn (motive := fun q => q = p) _ _ rfl fun q hq path _ => ?_
  rw [hq]
  unfold Pool.reconnect
  split
  · rfl
  · rfl

/-- The send loop that sleeps goes on sleeping until a path connects. -/
theorem Sleeps.again {d : Drive σ} (hp : d.pool.lanes.paths = d.pool.sessions.length)
    (hsleeps : Sleeps T d) (hbusy : Busy T d) (n : Nat) :
    ∃ e, machine.run (Drive.step T) d (List.replicate n (.reconnect fun _ => .waiting)) = some e ∧
      Sleeps T e ∧ Busy T e := by
  induction n generalizing d with
  | zero => exact ⟨d, rfl, hsleeps, hbusy⟩
  | succ n ih =>
    obtain ⟨hphase, slot, req, q, hheld, hc⟩ := hsleeps
    obtain ⟨⟨lanes, rfl, hsame⟩, -, hsleep, -⟩ := choose.spec hp hc
    have hstep : d.step T (.reconnect fun _ => .waiting) =
        some { d with pool := { d.pool with lanes } } := by
      unfold step
      rw [hphase]
      dsimp only
      rw [hheld]
      dsimp only [send]
      rw [hc]
      dsimp only
      rw [try_reconnect_waiting, ← hheld, ← hphase]
    have hp' : lanes.paths = d.pool.sessions.length := hsame.paths.trans hp
    rcases hc' : choose T { d.pool with lanes } req with ⟨c, q⟩
    obtain ⟨-, -, hsleep', -⟩ := choose.spec (p := { d.pool with lanes }) hp' hc'
    have hnext : c = .sleep := by
      refine hsleep'.mpr ?_
      obtain ⟨hio, hapart, hdown, hnoroom⟩ := hsleep.mp rfl
      refine ⟨hio, hapart, hdown, fun path s husable hs => hnoroom path s ?_ hs⟩
      rw [← hsame.is_usable]
      exact husable
    rw [hnext] at hc'
    obtain ⟨e, hrun, he⟩ := ih (d := { d with pool := { d.pool with lanes } }) hp'
      ⟨hphase, slot, req, q, hheld, hc'⟩ hbusy
    refine ⟨e, ?_, he⟩
    rw [List.replicate_succ, machine.run_cons, hstep]
    exact hrun

end Drive

/-- Path 1 drops as the second read is sent: the send loop sleeps with the first
one in flight on path 0, and goes on sleeping for as long as path 1 stays down. -/
theorem drive_sleeps_with_a_command_in_flight :
    ∃ p d, p.Ready Contract.tagged 2 .stream ∧
      machine.run (Drive.step .tagged) (Drive.start p .stream)
        (Drive.full_beside_room ++ [.submitted none]) = some d ∧
      machine.Along (Drive.step .tagged) Contract.tagged.Obeys (Drive.start p .stream)
        (Drive.full_beside_room ++ [.submitted none]) ∧
      Drive.Sleeps .tagged d ∧ Drive.Busy .tagged d ∧
      ∀ n, ∃ e, machine.run (Drive.step .tagged) d
          (List.replicate n (.reconnect fun _ => .waiting)) = some e ∧
        Drive.Sleeps .tagged e ∧ Drive.Busy .tagged e := by
  obtain ⟨p, d, q, hp, hrun, hlanes, hphase, hheld, hc, hs⟩ : ∃ p d q, Pool.tagged_two = some p ∧
      machine.run (Drive.step .tagged) (Drive.start p .stream)
        (Drive.full_beside_room ++ [.submitted none]) = some d ∧
      d.pool.lanes.paths = d.pool.sessions.length ∧ d.phase = .send ∧
      d.held = some (1, { Request.default with offset := 512, len := 512 }) ∧
      Drive.choose .tagged d.pool { Request.default with offset := 512, len := 512 } =
        (.sleep, q) ∧
      d.pool.session 0 = some {0} :=
    ⟨_, _, _, rfl, rfl, rfl, rfl, rfl, rfl, rfl⟩
  have hsleeps : Drive.Sleeps .tagged d := ⟨hphase, 1, _, q, hheld, hc⟩
  have hbusy : Drive.Busy .tagged d := ⟨0, {0}, hs, Nat.one_pos⟩
  exact ⟨p, d, Pool.tagged_two_ready hp, hrun,
    Drive.full_beside_room_obeys hp _ fun d => ⟨trivial, fun _ _ => trivial⟩, hsleeps, hbusy,
    hsleeps.again hlanes hbusy⟩

end stutools
