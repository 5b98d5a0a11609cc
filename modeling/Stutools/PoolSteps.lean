-- What a step of `drive` can do, said once: what the pool's own operations
-- change and leave, and every case of a step with its guards.
import Stutools.Flags
import Stutools.Pool

open flags

namespace stutools

variable {σ : Type} {T : Transport σ}

namespace Pool

/-! ## Dropped connections -/

/-- The slots with a command in flight. -/
def flying (p : Pool σ) : List Nat := marked p.slot_inflight

/-- The path that a slot's command went to. -/
def went (p : Pool σ) (slot : Nat) : Nat := p.slot_path.getD slot 0

/-- The slots whose commands are in flight on a path. -/
def flying_on (p : Pool σ) (path : Nat) : List Nat := p.flying.filter fun slot => p.went slot = path

/-- The pool after some slots were put on the retry list. -/
def requeued (p : Pool σ) (slots : List Nat) : Pool σ :=
  { p with
    slot_inflight := clear p.slot_inflight slots
    in_flight := p.in_flight - slots.length
    retry := slots.reverse ++ p.retry }

theorem foldl_requeue (path : Nat) (slots : List Nat) (hnodup : slots.Nodup) (p : Pool σ) :
    slots.foldl (requeue path) p = p.requeued (slots.filter fun slot =>
      p.slot_inflight.getD slot false = true ∧ p.slot_path.getD slot 0 = path) := by
  induction slots generalizing p with
  | nil => rfl
  | cons slot slots ih =>
    obtain ⟨hslot, hnodup⟩ := List.nodup_cons.mp hnodup
    rw [List.foldl_cons, ih hnodup, List.filter_cons]
    unfold requeue
    by_cases h : p.slot_inflight.getD slot false = true ∧ p.slot_path.getD slot 0 = path
    · -- clearing this slot's flag leaves the flags of the others
      have hrest : ∀ other ∈ slots,
          decide ((p.slot_inflight.set slot false).getD other false = true ∧
            p.slot_path.getD other 0 = path) =
          decide (p.slot_inflight.getD other false = true ∧ p.slot_path.getD other 0 = path) := by
        intro other hother
        have hne : slot ≠ other := fun he => hslot (he ▸ hother)
        have hlt : slot < p.slot_inflight.length := lt_of_mem_marked (mem_marked.mpr h.1)
        rw [getD_set hlt, if_neg hne]
      rw [if_pos h, if_pos (decide_eq_true h)]
      dsimp only [requeued]
      rw [List.filter_congr hrest]
      simp only [clear, List.foldl_cons, List.reverse_cons, List.append_assoc, List.length_cons,
        List.cons_append, List.nil_append, Nat.sub_sub, Nat.add_comm 1]
    · rw [if_neg h, if_neg (by simpa using h)]

/-- What dropping a connection does: the commands of the path go on the retry list. -/
theorem disconnect_eq (p : Pool σ) (path : Nat) :
    p.disconnect path = ({ p with
      sessions := p.sessions.set path none
      down := p.down.set path true
      lanes := p.lanes.mark_unavailable path } : Pool σ).requeued (p.flying_on path) := by
  unfold disconnect
  rw [foldl_requeue path _ List.nodup_range]
  unfold flying_on flying marked went
  rw [List.filter_filter]
  congr 1
  apply List.filter_congr
  intro slot _
  simp only [Bool.decide_and, Bool.decide_eq_true, Bool.and_comm]

theorem flying_on_nodup (p : Pool σ) (path : Nat) : (p.flying_on path).Nodup :=
  (marked_nodup _).filter _

theorem mem_flying_on {p : Pool σ} {path slot : Nat} :
    slot ∈ p.flying_on path ↔ slot ∈ p.flying ∧ p.went slot = path := by
  unfold flying_on
  rw [List.mem_filter, decide_eq_true_iff]

/-- The slots on the retry list or in flight are the same slots after it. -/
theorem requeued_perm (p : Pool σ) (path : Nat) :
    ((p.requeued (p.flying_on path)).retry ++ (p.requeued (p.flying_on path)).flying).Perm
      (p.retry ++ p.flying) := by
  have hclear := marked_clear (flying_on_nodup p path) fun slot hslot => (mem_flying_on.mp hslot).1
  have hreverse : ((p.flying_on path).reverse ++ p.retry).Perm (p.retry ++ p.flying_on path) :=
    ((List.reverse_perm _).append_right _).trans List.perm_append_comm
  refine (hreverse.append_right _).trans ?_
  rw [List.append_assoc]
  exact hclear.symm.append_left _

/-! ## Choosing a path -/

/-- The session of every path, and the policy's record of it, are there. -/
structure Fits (p : Pool σ) : Prop where
  lanes : p.lanes.paths = p.sessions.length
  down : p.down.length = p.sessions.length
  reported : p.reported.length = p.sessions.length

theorem session_lt {p : Pool σ} {path : Nat} {s : σ} (h : p.session path = some s) :
    path < p.sessions.length := by
  by_contra hge
  unfold session at h
  rw [List.getElem?_eq_none (by omega)] at h
  cases h

theorem path_with_room.spec {p q : Pool σ} {verify_read : Bool} {found : Option Nat}
    (hp : p.lanes.paths = p.sessions.length) (h : p.path_with_room T verify_read = (found, q)) :
    (∃ lanes, q = { p with lanes } ∧ Lanes.SameRotation p.lanes lanes) ∧
    (∀ path, found = some path → p.lanes.is_usable path = true ∧
      ∃ s, p.session path = some s ∧ T.can_submit s = true) ∧
    (found = none → ∀ path s, p.lanes.is_usable path = true → p.session path = some s →
      T.can_submit s = false) := by
  unfold path_with_room at h
  generalize hfirst : (if verify_read = true then
    p.lanes.pick_available_avoiding (p.last_write_path.getD (2 ^ 64 - 1))
    else p.lanes.pick_available) = picked at h
  have hpicked : Lanes.SameRotation p.lanes picked.2 ∧
      (picked.1 = none → ∀ path < p.lanes.paths, p.lanes.is_usable path = false) := by
    rw [← hfirst]
    split
    · obtain ⟨h1, -, h3⟩ := Lanes.pick_available_avoiding.spec p.lanes
        (p.last_write_path.getD (2 ^ 64 - 1))
      exact ⟨h1, h3⟩
    · obtain ⟨h1, -, h3⟩ := Lanes.pick_available.spec p.lanes
      exact ⟨h1, h3⟩
  obtain ⟨first, lanes⟩ := picked
  obtain ⟨hsame, hnone⟩ := hpicked
  dsimp only at hsame hnone h
  rw [hsame.is_usable] at h
  obtain ⟨rfl, rfl⟩ := Prod.mk.inj h
  refine ⟨⟨lanes, rfl, hsame⟩, fun path hpath => ?_, fun hfound path s husable hs => ?_⟩
  · obtain ⟨start, -, hfind⟩ := Option.bind_eq_some_iff.mp hpath
    have hok := List.find?_some hfind
    rw [Bool.and_eq_true, Option.any_eq_true] at hok
    exact ⟨hok.1, hok.2⟩
  · have hlt := session_lt hs
    cases first with
    | none =>
      rw [hnone rfl path (hp ▸ hlt)] at husable
      cases husable
    | some start =>
      have hno := List.find?_eq_none.mp hfound path (mem_around.mpr hlt)
      simpa [husable, hs] using hno

end Pool

namespace Drive

/-- No usable path has a session that takes another command. -/
def NoRoom (T : Transport σ) (p : Pool σ) : Prop :=
  ∀ path s, p.lanes.is_usable path = true → p.session path = some s → T.can_submit s = false

/-- The errors of the send loop. -/
def SendError : DriveError → Prop
  | .not_blocks _ | .no_path | .check _ => True
  | _ => False

/-- What the send loop makes of a request, and why. -/
theorem choose.spec {p q : Pool σ} {req : Request} {c : Choice}
    (hp : p.lanes.paths = p.sessions.length) (h : choose T p req = (c, q)) :
    (∃ lanes, q = { p with lanes } ∧ Lanes.SameRotation p.lanes lanes) ∧
    (∀ e, c = .refused e → SendError e) ∧
    (c = .sleep ↔ (drive_io req p.geometry.block_len.toNat).isSome ∧
      p.overlaps_in_flight req = false ∧ p.any_down = true ∧ NoRoom T p) ∧
    (∀ path io, c = .submit path io → p.overlaps_in_flight req = false ∧
      p.lanes.is_usable path = true ∧ ∃ s, p.session path = some s ∧ T.can_submit s = true) := by
  have hself : ∃ lanes, p = { p with lanes } ∧ Lanes.SameRotation p.lanes lanes :=
    ⟨p.lanes, rfl, rfl, rfl, rfl⟩
  unfold choose at h
  split at h
  · rename_i hio
    cases h
    refine ⟨hself, fun e he => ?_, ?_, nofun⟩
    · cases he
      trivial
    · simp [hio]
  rename_i io hio
  split at h
  · rename_i hover
    cases h
    refine ⟨hself, nofun, ?_, nofun⟩
    simp [hover]
  rename_i hover
  rw [Bool.not_eq_true] at hover
  rcases hroom : p.path_with_room T (req.verify && !req.write) with ⟨found, r⟩
  obtain ⟨⟨lanes, rfl, hsame⟩, hsome, hnone⟩ := Pool.path_with_room.spec hp hroom
  rw [hroom] at h
  cases found with
  | none =>
    have hnoroom : NoRoom T p := hnone rfl
    have hpick := (Lanes.pick_available.spec lanes).1
    dsimp only at h
    split at h
    · rename_i hdown
      cases h
      refine ⟨⟨lanes, rfl, hsame⟩, nofun, ?_, nofun⟩
      have hdown' : p.any_down = true := hdown
      simp [hio, hover, hdown', hnoroom]
    · rename_i hdown
      have hdown' : p.any_down = false := Bool.eq_false_iff.mpr hdown
      split at h
      · cases h
        refine ⟨⟨_, rfl, hsame.trans hpick⟩, fun e he => ?_, ?_, nofun⟩
        · cases he
          trivial
        · simp [hdown']
      · cases h
        refine ⟨⟨_, rfl, hsame.trans hpick⟩, nofun, ?_, nofun⟩
        simp [hdown']
  | some path =>
    obtain ⟨husable, session, hsession, hcan⟩ := hsome path rfl
    have hfull : ¬ NoRoom T p := by
      intro hno
      rw [hno path session husable hsession] at hcan
      cases hcan
    dsimp only at h
    split at h
    · cases h
      refine ⟨⟨lanes, rfl, hsame⟩, nofun, ?_, ?_⟩
      · simp [hfull]
      · rintro path' io' heq
        cases heq
        exact ⟨hover, husable, session, hsession, hcan⟩
    · cases h
      refine ⟨⟨lanes, rfl, hsame⟩, fun e he => ?_, ?_, nofun⟩
      · cases he
        trivial
      · simp [hfull]

/-- The phases that a step without effect on slots goes to. -/
def Quiet : Phase → Prop
  | .finished (.error e) => SendError e
  | .finished (.ok _) => False
  | _ => True

/-- The cases of a step, with their guards. -/
inductive Move (T : Transport σ) (d : Drive σ) : Input σ → Drive σ → Prop
  /-- Nothing happens but that the policy was asked. -/
  | quiet {input : Input σ} {lanes : Lanes} {exhausted : Bool} {phase : Phase}
      (same : Lanes.SameRotation d.pool.lanes lanes) (goes : Quiet phase) :
      Move T d input { d with pool := { d.pool with lanes }, exhausted, phase }
  | over {input : Input σ} (idle : d.pool.in_flight = 0) (exhausted : d.exhausted = true)
      (retry : d.pool.retry = []) : Move T d input { d with phase := .finished (.ok ()) }
  | no_room {input : Input σ} (idle : d.pool.in_flight = 0) (held : d.held.isSome) :
      Move T d input { d with phase := .finished (.error .no_room) }
  | on_no_path {input : Input σ} (busy : d.pool.in_flight ≠ 0) (found : busy_path T d.pool = none) :
      Move T d input { d with phase := .finished (.error .on_no_path) }
  | reconnect {opens : Nat → Attempt σ} {lanes : Lanes} {phase : Phase}
      (same : Lanes.SameRotation d.pool.lanes lanes) (goes : Quiet phase) :
      Move T d (.reconnect opens)
        { d with pool := ({ d.pool with lanes } : Pool σ).try_reconnect T opens, phase }
  | tick {ticks : Nat → Option σ} :
      Move T d (.ticks ticks) { d with pool := d.pool.tick_all ticks, phase := .fetch }
  | retry {input : Input σ} {slot : Nat} {rest : List Nat} (held : d.held = none)
      (next : d.pool.retry = slot :: rest) :
      Move T d input { d with
        pool := { d.pool with retry := rest }
        held := some (slot, d.pool.slot_req.getD slot Request.default)
        phase := .send }
  | execute {input : Input σ} {requests : List Request} {req : Request} (held : d.held = none)
      (retry : d.pool.retry = []) (mode : d.mode = .execute requests)
      (next : requests[d.offered.length]? = some req) (fetching : d.phase = .fetch) :
      Move T d input (d.take d.offered.length req)
  | stream {slot : Nat} {free : List Nat} {req : Request} (held : d.held = none)
      (retry : d.pool.retry = []) (mode : d.mode = .stream) (next : d.pool.free = slot :: free)
      (fetching : d.phase = .fetch) (more : d.exhausted = false) :
      Move T d (.offer (.request req)) ({ d with pool := { d.pool with free } }.take slot req)
  | dropped {slot : Nat} {req : Request} {path : Nat} {lanes : Lanes} {s : σ} {io : Io}
      (held : d.held = some (slot, req)) (same : Lanes.SameRotation d.pool.lanes lanes)
      (session : d.pool.session path = some s) (stays : d.phase = .send)
      (chosen : choose T d.pool req = (.submit path io, { d.pool with lanes })) :
      Move T d (.submitted none)
        { d with pool := ({ d.pool with lanes } : Pool σ).disconnect path }
  | launch {slot : Nat} {req : Request} {path : Nat} {io : Io} {lanes : Lanes} {s session : σ}
      (held : d.held = some (slot, req)) (same : Lanes.SameRotation d.pool.lanes lanes)
      (chosen : choose T d.pool req = (.submit path io, { d.pool with lanes }))
      (apart : d.pool.overlaps_in_flight req = false)
      (sent : d.pool.session path = some s) :
      Move T d (.submitted (some session))
        { d with
          pool := launched { d.pool with lanes } slot path session, held := none, phase := .fetch }
  | lost {path nanos : Nat} {s : σ} (session : d.pool.session path = some s)
      (found : busy_path T d.pool = some path) :
      Move T d (.polled none nanos) { d with pool := d.pool.disconnect path, phase := .top }
  | finish {path nanos : Nat} {s session : σ} {done : Done} (busy : d.pool.in_flight ≠ 0)
      (found : busy_path T d.pool = some path) (polled : d.pool.session path = some s) :
      Move T d (.polled (some (session, done)) nanos) (d.finish path session done nanos)

theorem busy_path_some {p : Pool σ} {path : Nat} (h : busy_path T p = some path) :
    ∃ s, p.session path = some s ∧ 0 < T.inflight s := by
  have hfound := List.find?_some h
  rw [Option.any_eq_true] at hfound
  obtain ⟨s, hs, hpos⟩ := hfound
  exact ⟨s, hs, of_decide_eq_true hpos⟩

theorem send_move {d e : Drive σ} {slot : Nat} {req : Request} {input : Input σ}
    (hp : d.pool.lanes.paths = d.pool.sessions.length) (hphase : d.phase = .send)
    (hheld : d.held = some (slot, req)) (h : d.send T slot req input = some e) :
    Move T d input e := by
  unfold send at h
  rcases hc : choose T d.pool req with ⟨c, q⟩
  obtain ⟨⟨lanes, rfl, hsame⟩, hrefused, -, hsubmit⟩ := choose.spec hp hc
  rw [hc] at h
  cases c with
  | refused err =>
    cases h
    exact .quiet hsame (hrefused err rfl)
  | later =>
    cases h
    exact .quiet hsame trivial
  | sleep =>
    dsimp only at h
    split at h
    · cases h
      exact .reconnect hsame (by rw [hphase]; trivial)
    · cases h
  | submit path io =>
    obtain ⟨hapart, -, s, hs, -⟩ := hsubmit path io rfl
    dsimp only at h
    split at h
    · cases h
      exact .dropped hheld hsame hs hphase hc
    · cases h
      exact .launch hheld hsame hc hapart hs
    · cases h

theorem fetch_move {d e : Drive σ} {input : Input σ} (hphase : d.phase = .fetch)
    (hheld : d.held = none) (h : d.fetch input = some e) : Move T d input e := by
  have hsame : Lanes.SameRotation d.pool.lanes d.pool.lanes := ⟨rfl, rfl, rfl⟩
  unfold fetch at h
  split at h
  · rename_i slot rest hretry
    cases h
    exact .retry hheld hretry
  rename_i hretry
  split at h
  · cases h
    exact .quiet hsame trivial
  rename_i hexhausted
  split at h
  · rename_i requests hmode
    split at h
    · rename_i req hreq
      cases h
      exact .execute hheld hretry hmode hreq hphase
    · cases h
      exact .quiet hsame (by rw [hphase]; trivial)
  · rename_i hmode
    split at h
    · cases h
      exact .quiet hsame trivial
    · rename_i slot free hfree
      split at h
      · cases h
        exact .stream hheld hretry hmode hfree hphase (by simpa using hexhausted)
      · cases h
        exact .quiet hsame trivial
      · cases h
        exact .quiet hsame (by rw [hphase]; trivial)
      · cases h

theorem wait_move {d e : Drive σ} {input : Input σ} (h : d.wait T input = some e) :
    Move T d input e := by
  have hsame : Lanes.SameRotation d.pool.lanes d.pool.lanes := ⟨rfl, rfl, rfl⟩
  unfold wait at h
  split at h
  · rename_i hidle
    split at h
    · rename_i hover
      cases h
      exact .over hidle hover.1 hover.2
    split at h
    · rename_i hheld
      cases h
      exact .no_room hidle hheld
    · cases h
      exact .quiet hsame trivial
  · rename_i hbusy
    split at h
    · rename_i hnone
      cases h
      exact .on_no_path hbusy hnone
    · rename_i path hpath
      obtain ⟨s, hs, -⟩ := busy_path_some hpath
      split at h
      · cases h
        exact .lost hs hpath
      · cases h
        exact .finish hbusy hpath hs
      · cases h

/-- Every step is one of the cases. -/
theorem step_move {d e : Drive σ} {input : Input σ}
    (hp : d.pool.lanes.paths = d.pool.sessions.length) (h : d.step T input = some e) :
    Move T d input e := by
  have hsame : Lanes.SameRotation d.pool.lanes d.pool.lanes := ⟨rfl, rfl, rfl⟩
  unfold step at h
  split at h
  · split at h
    · cases h
      exact .reconnect hsame trivial
    · cases h
  · split at h
    · cases h
      exact .tick
    · cases h
  · rename_i hphase
    split at h
    · rename_i hheld
      exact fetch_move hphase hheld h
    · cases h
      exact .quiet hsame trivial
  · rename_i hphase
    split at h
    · cases h
      exact .quiet hsame trivial
    · rename_i hheld
      exact send_move hp hphase hheld h
  · exact wait_move h
  · cases h

end Drive

end stutools
