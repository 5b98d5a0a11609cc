-- The pass limit of the C engine (src/c/spit/aioRequests.c, called by jobType.c for `X n`): the
-- loop stops when it has submitted the number of positions times the rounds. It counts
-- submissions alone, while the cursor also moves over trims, skipped positions and positions
-- that are still in flight.
import Mathlib.Data.Int.CardIntervalMod
import Stutools.SpitSlots

open memory

namespace stutools.spit.Engine

variable {rand_r : Nat → Nat × Nat} {c : Arguments} {s t u : Engine}

/-! ## The call and its runs -/

/-- The arguments of `runThread` for `X n`. -/
structure PassLimited (c : Arguments) (sz n : Nat) : Prop where
  posStart : c.posStart = 0
  posLimit : c.posLimit = sz
  rounds : c.rounds = n
  byteLimit : c.byteLimit = 0
  posIncrement : c.posIncrement = 1
  fd : 0 ≤ c.fd

/-- Nobody stops the run, and its time limit is not reached. -/
def Undisturbed (c : Arguments) : Engine → Input → Prop
  | _, .turn keepRunning _ => keepRunning = true
  | _, .submit a => a.keepRunning = true ∧ ¬ (c.checkTime = true ∧ a.late = true)
  | _, _ => True

/-- The position of a turn of the submit loop is not in flight, and if the turn goes on to it, it
is a read or a write. -/
def Clear (c : Arguments) (s : Engine) : Input → Prop
  | .submit _ => s.inFlight < s.QD → (s.position s.pos).inFlight = false ∧
      (s.submitthisround < c.QDmin →
        (s.position s.pos).action = 'R' ∨ (s.position s.pos).action = 'W')
  | _ => True

/-- The engine waits: a request is in flight and none is reported, or the position is not due. -/
def Waits (s : Engine) : Input → Prop
  | .turn _ due => due = false
  | .events _ events => events = [] ∧ s.kernel ≠ []
  | _ => False

instance (c : Arguments) (s : Engine) : (input : Input) → Decidable (Undisturbed c s input)
  | .turn _ _ => inferInstanceAs (Decidable (_ = _))
  | .submit _ => inferInstanceAs (Decidable (_ ∧ _))
  | .events _ _ => isTrue trivial
  | .perform _ => isTrue trivial

instance (c : Arguments) (s : Engine) : (input : Input) → Decidable (Clear c s input)
  | .submit _ => inferInstanceAs (Decidable (_ → _))
  | .turn _ _ => isTrue trivial
  | .events _ _ => isTrue trivial
  | .perform _ => isTrue trivial

instance (s : Engine) : (input : Input) → Decidable (Waits s input)
  | .turn _ _ => inferInstanceAs (Decidable (_ = _))
  | .events _ events => decidable_of_iff (events.length = 0 ∧ s.kernel.length ≠ 0) (by
      unfold Waits
      rw [List.length_eq_zero_iff, ne_eq, List.length_eq_zero_iff])
  | .submit _ => isFalse id
  | .perform _ => isFalse id

/-- How often a position has been performed: the completions of its requests. -/
def performed (s : Engine) (i : Nat) : Nat := s.checks.countP fun k => k.index = i

/-! ## The count of the errors -/

theorem completeTransfer_ioerrors (s : Engine) (i : Nat) (e : io_event) :
    s.ioerrors ≤ (s.completeTransfer i e).ioerrors := by
  unfold completeTransfer
  dsimp only
  split
  · exact Nat.le_refl _
  · exact Nat.le_succ _

theorem verifyCompletedRead_ioerrors (s : Engine) (i : Nat) :
    s.ioerrors ≤ (s.verifyCompletedRead c i).ioerrors := by
  unfold verifyCompletedRead
  split
  · exact Nat.le_succ _
  · exact Nat.le_refl _

theorem complete_ioerrors {now : ℚ≥0} {e : io_event} (h : s.complete c now e = some t) :
    s.ioerrors ≤ t.ioerrors := by
  unfold complete at h
  split at h
  · cases h
  · dsimp only at h
    obtain rfl := Option.some.inj h
    change s.ioerrors ≤ Engine.ioerrors (if _ then _ else _)
    have htransfer := fun i => completeTransfer_ioerrors s i e
    split
    · exact (htransfer _).trans (verifyCompletedRead_ioerrors _ _)
    · exact htransfer _

theorem complete_fold_ioerrors {now : ℚ≥0} {events : List io_event}
    (h : events.foldlM (fun s e => Engine.complete c s now e) s = some t) :
    s.ioerrors ≤ t.ioerrors := by
  induction events generalizing s with
  | nil =>
    obtain rfl := Option.some.inj h
    exact Nat.le_refl _
  | cons e events ih =>
    rw [List.foldlM_cons] at h
    obtain ⟨u, hu, hrest⟩ := Option.bind_eq_some_iff.mp h
    exact (complete_ioerrors hu).trans (ih hrest)

theorem receive_fold_ioerrors {now : ℚ≥0} {events : List io_event}
    (h : events.foldlM (fun s e => Engine.receive c s now e) s = some t) :
    s.ioerrors ≤ t.ioerrors := by
  induction events generalizing s with
  | nil =>
    obtain rfl := Option.some.inj h
    exact Nat.le_refl _
  | cons e events ih =>
    rw [List.foldlM_cons] at h
    obtain ⟨u, hu, hrest⟩ := Option.bind_eq_some_iff.mp h
    obtain ⟨v, hv, rfl⟩ := Option.map_eq_some_iff.mp hu
    have hle := ih hrest
    exact (complete_ioerrors hv).trans hle

/-- The events in the main loop, when they bring no error: the loop goes on. -/
theorem receive_all_cases {now : ℚ≥0} {events : List io_event}
    (h : s.receive_all c now events = some t) :
    s.ioerrors ≤ t.ioerrors ∧ ∃ u, events.foldlM (fun s e => Engine.receive c s now e) s = some u ∧
      (t.ioerrors = 0 → t = { u with phase := .loop }) := by
  obtain ⟨u, hu, hsome⟩ := Option.bind_eq_some_iff.mp h
  have hle := receive_fold_ioerrors hu
  split at hsome
  · rename_i hmany
    obtain rfl := Option.some.inj hsome
    refine ⟨hle, u, hu, fun hzero => ?_⟩
    have hmany := hmany.2
    unfold too_many_errors at hmany
    rw [decide_eq_true_iff, show u.ioerrors = 0 from hzero] at hmany
    omega
  · obtain rfl := Option.some.inj hsome
    exact ⟨hle, u, hu, fun _ => rfl⟩

/-- One turn of the drain, when it brings no error. -/
theorem drain_turn_cases {now : ℚ≥0} {events : List io_event}
    (h : s.drain_turn c now events = some t) :
    s.ioerrors ≤ t.ioerrors ∧ (t.ioerrors = 0 →
      s.inFlight = 0 ∧ t = { s with phase := .returned } ∨
      s.inFlight ≠ 0 ∧ ∃ u, events.foldlM (fun s e => Engine.complete c s now e)
        { s with count := s.count + 1 } = some u ∧
        t = { u with inFlight := u.inFlight - events.length }) := by
  unfold drain_turn at h
  split at h
  · rename_i hnone
    obtain rfl := Option.some.inj h
    exact ⟨Nat.le_refl _, fun _ => .inl ⟨hnone, rfl⟩⟩
  · rename_i hsome
    dsimp only at h
    split at h
    · obtain rfl := Option.some.inj h
      exact ⟨Nat.le_succ _, fun hzero => absurd hzero (Nat.succ_ne_zero _)⟩
    · obtain ⟨u, hu, hsome'⟩ := Option.bind_eq_some_iff.mp h
      obtain rfl := Option.some.inj hsome'
      have hle := complete_fold_ioerrors hu
      exact ⟨hle, fun _ => .inr ⟨hsome, u, hu, rfl⟩⟩

/-! ## A turn -/

theorem Ready.counters (hu : Ready rand_r c s u) :
    u.ioerrors = s.ioerrors ∧ u.phase = s.phase ∧ u.submitthisround = s.submitthisround := by
  have hrefill : ∀ (t : Engine) (q : Nat) (p : positionType),
      (t.refill rand_r q p).ioerrors = t.ioerrors ∧ (t.refill rand_r q p).phase = t.phase ∧
        (t.refill rand_r q p).submitthisround = t.submitthisround := by
    intro t q p
    unfold refill
    split <;> exact ⟨rfl, rfl, rfl⟩
  have hencode : ∀ (t : Engine) (q pos : Nat),
      (t.encode q pos).ioerrors = t.ioerrors ∧ (t.encode q pos).phase = t.phase ∧
        (t.encode q pos).submitthisround = t.submitthisround := fun _ _ _ => ⟨rfl, rfl, rfl⟩
  have hprep : ∀ (t : Engine) (q : Nat) (cb : iocb),
      (t.prep q cb).ioerrors = t.ioerrors ∧ (t.prep q cb).phase = t.phase ∧
        (t.prep q cb).submitthisround = t.submitthisround := fun _ _ _ => ⟨rfl, rfl, rfl⟩
  have hforget : ∀ (t : Engine) (i : Nat),
      (t.forget i).ioerrors = t.ioerrors ∧ (t.forget i).phase = t.phase ∧
        (t.forget i).submitthisround = t.submitthisround := by
    intro t i
    unfold forget
    dsimp only
    split <;> exact ⟨rfl, rfl, rfl⟩
  cases hu with
  | read =>
    unfold read_ready
    dsimp only
    split
    · exact hrefill _ _ _
    · exact ⟨rfl, rfl, rfl⟩
  | flush => exact ⟨rfl, rfl, rfl⟩
  | write =>
    obtain ⟨h1, h2, h3⟩ := hrefill (s.taken_put c) s.head_slot (s.taken c)
    unfold write_ready
    dsimp only
    obtain ⟨h4, h5, h6⟩ := hencode ((s.taken_put c).refill rand_r s.head_slot (s.taken c))
      s.head_slot (s.taken c).pos
    obtain ⟨h7, h8, h9⟩ := hforget (encode ((s.taken_put c).refill rand_r s.head_slot (s.taken c))
      s.head_slot (s.taken c).pos) s.pos
    exact ⟨(hprep _ _ _).1.trans (h7.trans (h4.trans h1)),
      (hprep _ _ _).2.1.trans (h8.trans (h5.trans h2)),
      (hprep _ _ _).2.2.trans (h9.trans (h6.trans h3))⟩

/-- A read or a write is set up, without a limit of bytes. -/
theorem prepare_clear (hlimit : c.byteLimit = 0)
    (haction : (s.position s.pos).action = 'R' ∨ (s.position s.pos).action = 'W') :
    ∃ u, s.prepare rand_r c = .io_submit u ∧ Ready rand_r c s u := by
  have htaken : (s.taken c).action = 'R' ∨ (s.taken c).action = 'W' := by
    unfold taken alternate
    split
    · split
      · exact .inr rfl
      · split
        · exact .inl rfl
        · exact haction
    · exact haction
  have hpast : ∀ (t : Engine) (len : Nat), t.past_limit c len = false := by
    intro t len
    simp [past_limit, hlimit]
  rw [prepare_eq]
  obtain hR | hW := htaken
  · refine ⟨_, ?_, .read hR⟩
    rw [if_neg (by rw [hR]; decide), if_pos hR, hpast]
    rfl
  · refine ⟨_, ?_, .write hW⟩
    rw [if_neg (by rw [hW]; decide), if_neg (by rw [hW]; decide), if_neg (by rw [hW]; decide),
      if_pos hW, hpast]
    rfl

/-- What a turn comes to: the loop goes to the poll, or the request is accepted, or
an error is counted. -/
inductive ClearTurn (rand_r : Nat → Nat × Nat) (c : Arguments) (a : Answers) (s : Engine) :
    Engine → Prop
  | full (n : Nat) : ¬ s.inFlight < s.QD ∨ c.QDmin ≤ s.submitthisround →
      ClearTurn rand_r c a s { s with submitthisround := n, phase := .poll }
  | accept {u : Engine} : s.Open → Ready rand_r c s.begun u →
      ((s.position s.pos).action = 'R' ∨ (s.position s.pos).action = 'W') →
      ClearTurn rand_r c a s ((u.accepted a.now).nextpos c)
  | error {t : Engine} : s.ioerrors < t.ioerrors → ClearTurn rand_r c a s t

theorem nextpos_ioerrors (s : Engine) : (s.nextpos c).ioerrors = s.ioerrors := by
  obtain ⟨pos, phase, h⟩ := nextpos_eq c s
  rw [h]

theorem submit_turn_clear {a : Answers} (hlimit : c.byteLimit = 0) (hfd : 0 ≤ c.fd)
    (hundisturbed : Undisturbed c s (.submit a)) (hclear : Clear c s (.submit a)) :
    ClearTurn rand_r c a s (s.submit_turn rand_r c a) := by
  obtain ⟨hkeep, hlate⟩ := hundisturbed
  rw [submit_turn_eq]
  by_cases hgo : s.inFlight < s.QD
  · obtain ⟨hidle, haction⟩ := hclear hgo
    rw [if_neg (not_not_intro ⟨hgo, hkeep⟩), if_neg hlate, if_neg (by rw [hidle]; decide)]
    by_cases hround : s.submitthisround + 1 > c.QDmin
    · rw [if_pos hround]
      exact .full (s.submitthisround + 1) (.inr (by omega))
    · have haction := haction (by omega)
      rw [if_neg hround, if_neg (by obtain h | h := haction <;> rw [h] <;> decide),
        if_neg (by obtain h | h := haction <;> rw [h] <;> decide), if_neg (not_lt.mpr hfd)]
      obtain ⟨u, hu, hready⟩ : ∃ u, s.begun.prepare rand_r c = .io_submit u ∧
          Ready rand_r c s.begun u := prepare_clear hlimit haction
      rw [hu]
      unfold finish_turn
      dsimp only
      have hcount : u.ioerrors = s.ioerrors := hready.counters.1
      split
      · exact .accept ⟨hgo, hidle⟩ hready haction
      · have herror : s.ioerrors < u.refused.ioerrors := by
          change s.ioerrors < u.ioerrors + 1
          omega
        split
        · exact .error herror
        · exact .error (by rwa [nextpos_ioerrors])
  · rw [if_pos fun h => hgo h.1]
    exact .full s.submitthisround (.inl hgo)

/-! ## What the steps keep -/

/-- The requests made for a position: those completed, and those in flight. -/
def requests (s : Engine) (i : Nat) : Nat :=
  s.performed i + s.kernel.countP fun r => r.cb.data = i

/-- The requests that the device has not performed. -/
def unperformed (s : Engine) : Nat := s.kernel.countP fun r => r.performed = false

/-- From `s` to `t` no request was made and none was lost. -/
structure Passed (c : Arguments) (s t : Engine) : Prop where
  requests : ∀ i, t.requests i = s.requests i
  submitted : t.submitted = s.submitted
  pos : t.pos = s.pos
  length : t.positions.length = s.positions.length
  same : ∀ i, Same c (s.position i) (t.position i)
  unperformed : t.unperformed ≤ s.unperformed

theorem Passed.refl (c : Arguments) (s : Engine) : Passed c s s :=
  ⟨fun _ => rfl, rfl, rfl, rfl, fun _ => Same.refl c _, Nat.le_refl _⟩

theorem Passed.counters (h : Passed c s t) (n : Nat) (phase : Phase) (count errors round : Nat) :
    Passed c s { t with
      inFlight := n, phase := phase, count := count, ioerrors := errors,
      submitthisround := round } :=
  ⟨h.requests, h.submitted, h.pos, h.length, h.same, h.unperformed⟩

theorem Passed.completed {now : ℚ≥0} {e : io_event} {r : Request} (hp : Passed c s t)
    (ht : t.Held) (h : Completed c t now e r u) : Passed c s u := by
  have hperm := h.perm ht
  refine ⟨fun i => ?_, h.submitted.trans hp.submitted, h.pos.trans hp.pos,
    h.positions_length.trans hp.length, fun i => (hp.same i).trans (h.same ht i), ?_⟩
  · rw [← hp.requests i]
    unfold Engine.requests performed
    rw [h.checks, List.countP_append, List.countP_singleton, hperm.countP_eq, List.countP_cons]
    dsimp only
    omega
  · refine Nat.le_trans ?_ hp.unperformed
    unfold Engine.unperformed
    rw [hperm.countP_eq, List.countP_cons]
    exact Nat.le_add_right _ _

theorem Passed.events {now : ℚ≥0} {events : List io_event} (hs : s.Held)
    (h : s.receive_all c now events = some t ∨ s.drain_turn c now events = some t) :
    Passed c s t :=
  events_rule (P := Passed c s) (fun _ _ _ _ _ hheld hp hr => hp.completed hheld hr)
    (fun u n phase count errors hp => hp.counters n phase count errors u.submitthisround) hs
    (Passed.refl c s) h

theorem receive_fold_length {now : ℚ≥0} {events : List io_event} (hs : s.Conserved)
    (h : events.foldlM (fun s e => Engine.receive c s now e) s = some t) :
    s.kernel.length = t.kernel.length + events.length := by
  induction events generalizing s with
  | nil =>
    obtain rfl := Option.some.inj h
    rfl
  | cons e events ih =>
    rw [List.foldlM_cons] at h
    obtain ⟨u, hu, hrest⟩ := Option.bind_eq_some_iff.mp h
    have hlen := ih (hs.receive hu) hrest
    obtain ⟨v, hv, rfl⟩ := Option.map_eq_some_iff.mp hu
    obtain ⟨r, hr⟩ := complete_cases hs.held hv
    rw [hr.length hs.held, List.length_cons]
    have hlen : v.kernel.length = t.kernel.length + events.length := hlen
    omega

theorem countP_map_lt {α : Type} {p : α → Bool} {f : α → α} (hf : ∀ x, p (f x) = true → p x = true)
    {l : List α} {x : α} (hx : x ∈ l) (hp : p x = true) (hpf : p (f x) = false) :
    (l.map f).countP p < l.countP p := by
  have hle : ∀ l : List α, (l.map f).countP p ≤ l.countP p := fun l => by
    rw [List.countP_map]
    exact List.countP_mono_left fun y _ => hf y
  obtain ⟨l1, l2, rfl⟩ := List.append_of_mem hx
  rw [List.map_append, List.map_cons, List.countP_append, List.countP_append, List.countP_cons,
    List.countP_cons, hp, hpf]
  have h1 := hle l1
  have h2 := hle l2
  simp only [if_true, Bool.false_eq_true, if_false]
  omega

theorem complete_fold_phase {now : ℚ≥0} {events : List io_event} (hs : s.Held)
    (h : events.foldlM (fun s e => Engine.complete c s now e) s = some t) : t.phase = s.phase := by
  induction events generalizing s with
  | nil =>
    obtain rfl := Option.some.inj h
    rfl
  | cons e events ih =>
    rw [List.foldlM_cons] at h
    obtain ⟨u, hu, hrest⟩ := Option.bind_eq_some_iff.mp h
    obtain ⟨r, hr⟩ := complete_cases hs hu
    exact (ih (hr.held hs) hrest).trans hr.phase

/-- The device performs a request: nothing else of it changes. -/
theorem Passed.perform {obj : Nat} (h : s.perform obj = some t) :
    Passed c s t ∧ t.unperformed < s.unperformed ∧ t.kernel.length = s.kernel.length ∧
      t.phase = s.phase ∧ t.submitthisround = s.submitthisround := by
  obtain ⟨r, hr, hobj, hperf, device, readdata, rfl, -⟩ := perform_cases h
  have hlt : (marked_performed obj s.kernel).countP (fun r => r.performed = false) <
      s.kernel.countP fun r => r.performed = false := by
    refine countP_map_lt (fun x hx => ?_) hr (by simp [hperf]) (by simp [hobj])
    split at hx
    · simp at hx
    · exact hx
  refine ⟨⟨fun i => ?_, rfl, rfl, rfl, fun _ => Same.refl c _, hlt.le⟩, hlt, ?_, rfl, rfl⟩
  · have hmap := marked_performed_map (f := fun r => r.cb.data) obj s.kernel fun _ => rfl
    have hcount := congrArg (List.countP fun j => decide (j = i)) hmap
    rw [List.countP_map, List.countP_map] at hcount
    exact congrArg (s.performed i + ·) hcount
  · exact List.length_map _

/-! ## The passes -/

/-- How far the run is, by its phase. -/
def Stage (total : Nat) (s : Engine) : Prop :=
  match s.phase with
  | .loop | .poll => s.submitted < total
  | .submit => s.submitted < total ∧ (0 < s.submitthisround → s.kernel ≠ [])
  | .drain => s.submitted = total
  | .returned => s.submitted = total ∧ s.kernel = []
  | .aborted => False

/-- After some submissions every position has had its turns in order, and each turn made its
request. -/
structure Passing (c : Arguments) (ps : List positionType) (n : Nat) (s : Engine) : Prop where
  conserved : s.Conserved
  length : s.positions.length = ps.length
  same : ∀ i, Same c (ps.getD i default) (s.position i)
  pos : s.pos = s.submitted % ps.length
  counts : ∀ i, s.requests i = Nat.count (fun k => k % ps.length = i) s.submitted
  taken : ∀ k < s.submitted, (ps.getD (k % ps.length) default).action = 'R' ∨
    (ps.getD (k % ps.length) default).action = 'W'
  stage : Stage (ps.length * n) s

/-- What is left to do: submissions, performances and completions, and the way to the poll. -/
def left (total : Nat) (s : Engine) : Nat :=
  5 * (total - s.submitted) + s.unperformed + 3 * s.kernel.length +
    match s.phase with
    | .loop => 3
    | .submit => 2
    | .poll => if s.kernel.length = 0 then 4 else 1
    | .drain => 1
    | .returned => 0
    | .aborted => 0

variable {ps : List positionType} {n : Nat}

theorem Passing.passed (hs : s.Passing c ps n) (h : Passed c s t) (hcons : t.Conserved)
    (hstage : Stage (ps.length * n) t) : t.Passing c ps n := by
  refine ⟨hcons, h.length.trans hs.length, fun i => (hs.same i).trans (h.same i), ?_, ?_, ?_,
    hstage⟩
  · rw [h.pos, h.submitted]
    exact hs.pos
  · intro i
    rw [h.requests, h.submitted]
    exact hs.counts i
  · rw [h.submitted]
    exact hs.taken

/-- What one step keeps, and what it does to the measure. -/
def Goes (c : Arguments) (ps : List positionType) (n : Nat) (s : Engine) (input : Input)
    (t : Engine) : Prop :=
  t.Passing c ps n ∧ (t.left (ps.length * n) < s.left (ps.length * n) ∨
    Waits s input ∧ t.left (ps.length * n) ≤ s.left (ps.length * n) + 2)

theorem Passing.turn (hs : s.Passing c ps n) (hphase : s.phase = .loop) (due : Bool) :
    Goes c ps n s (.turn true due)
      (if due then { s with phase := .submit, submitthisround := 0 }
        else { s with phase := .poll }) := by
  have hstage := hs.stage
  unfold Stage at hstage
  rw [hphase] at hstage
  dsimp only at hstage
  cases due with
  | true =>
    rw [if_pos rfl]
    constructor
    · refine hs.passed ((Passed.refl c s).counters _ _ _ _ _)
        (hs.conserved.quiet (quiet_counters c _ _ _ _ _ _) hs.conserved.pos) ?_
      exact ⟨hstage, fun h => absurd h (Nat.lt_irrefl 0)⟩
    · left
      unfold left unperformed
      rw [hphase]
      dsimp only
      omega
  | false =>
    rw [if_neg Bool.false_ne_true]
    constructor
    · exact hs.passed ((Passed.refl c s).counters _ _ _ _ _)
        (hs.conserved.quiet (quiet_counters c _ _ _ _ _ _) hs.conserved.pos) hstage
    · right
      refine ⟨rfl, ?_⟩
      unfold left unperformed
      rw [hphase]
      dsimp only
      split <;> omega

/-- A turn that goes to the poll leaves a request in flight. -/
theorem Passing.full (hs : s.Passing c ps n) (hphase : s.phase = .submit) (hQDmin : 1 ≤ c.QDmin)
    {a : Answers} (m : Nat) (h : ¬ s.inFlight < s.QD ∨ c.QDmin ≤ s.submitthisround) :
    Goes c ps n s (.submit a) { s with submitthisround := m, phase := .poll } := by
  have hstage := hs.stage
  unfold Stage at hstage
  rw [hphase] at hstage
  have hkernel : s.kernel.length ≠ 0 := by
    obtain h | h := h
    · have hQD := hs.conserved.held.head
      rw [hs.conserved.inFlight] at h
      omega
    · exact fun hnil => hstage.2 (by omega) (List.length_eq_zero_iff.mp hnil)
  constructor
  · exact hs.passed ((Passed.refl c s).counters _ _ _ _ _)
      (hs.conserved.quiet (quiet_counters c _ _ _ _ _ _) hs.conserved.pos) hstage.1
  · left
    unfold left unperformed
    rw [hphase]
    dsimp only
    rw [if_neg hkernel]
    omega

/-- Going on in a run that is limited to passes. -/
theorem nextpos_limited {sz : Nat} (hcall : PassLimited c sz n) (hsz : 0 < sz)
    (htotal : sz * n < 2 ^ 64) (s : Engine) :
    s.nextpos c = { s with
      pos := if (s.pos + 1) % 2 ^ 64 ≥ s.positions.length then 0 else (s.pos + 1) % 2 ^ 64,
      phase := if s.submitted ≥ sz * n then .drain else s.phase } := by
  unfold nextpos Arguments.increment
  rw [hcall.posIncrement, hcall.posLimit, hcall.rounds, Nat.mod_eq_of_lt htotal]
  dsimp only
  by_cases hlimit : s.submitted ≥ sz * n
  · rw [if_pos ⟨hsz.ne', hlimit⟩, if_pos hlimit]
    rfl
  · rw [if_neg fun h => hlimit h.2, if_neg hlimit]
    rfl

/-- The cursor after one position more. -/
theorem next_turn {sz pos m : Nat} (hsz : 0 < sz) (hroom : sz < 2 ^ 64) (hpos : pos = m % sz) :
    (if (pos + 1) % 2 ^ 64 ≥ sz then 0 else (pos + 1) % 2 ^ 64) = (m + 1) % sz := by
  have hlt : pos < sz := hpos ▸ Nat.mod_lt m hsz
  rw [Nat.mod_eq_of_lt (by omega), Nat.add_mod, ← hpos]
  by_cases hone : sz = 1
  · subst hone
    rw [Nat.mod_one, if_pos (by omega)]
  · rw [Nat.mod_eq_of_lt (show 1 < sz by omega)]
    split
    · rw [show pos + 1 = sz by omega, Nat.mod_self]
    · rw [Nat.mod_eq_of_lt (by omega)]

/-- A turn that makes a request. -/
theorem Passing.accept (hs : s.Passing c ps n) (hcall : PassLimited c ps.length n) (hn : 1 ≤ n)
    (htotal : ps.length * n < 2 ^ 64) (hphase : s.phase = .submit) {a : Answers}
    (hopen : s.Open) (hu : Ready rand_r c s.begun u)
    (haction : (s.position s.pos).action = 'R' ∨ (s.position s.pos).action = 'W') :
    Goes c ps n s (.submit a) ((u.accepted a.now).nextpos c) := by
  have hstage := hs.stage
  unfold Stage at hstage
  rw [hphase] at hstage
  obtain ⟨hlt, -⟩ := hstage
  have hsz : 0 < ps.length := hs.length ▸ Nat.zero_lt_of_lt hs.conserved.pos
  have hroom : ps.length < 2 ^ 64 := (Nat.le_mul_of_pos_right _ hn).trans_lt htotal
  obtain ⟨hquiet, hpos, hposlt⟩ := hs.conserved.ready hopen hu
  obtain ⟨-, hdata, -, -⟩ := hs.conserved.block hopen hu
  have hcons : ((u.accepted a.now).nextpos c).Conserved :=
    (hs.conserved.accept hopen hu a.now).quiet_nextpos (Quiet.refl c _)
  have hlength : (u.accepted a.now).positions.length = ps.length := by
    unfold accepted
    dsimp only
    rw [List.length_set, hquiet.length, hs.length]
  have hsubmitted : (u.accepted a.now).submitted = s.submitted + 1 :=
    congrArg (· + 1) hquiet.submitted
  have hkernel : (u.accepted a.now).kernel = s.kernel ++
      [⟨u.head_slot, u.cbs.getD u.head_slot default, false, u.positions⟩] :=
    congrArg (· ++ _) hquiet.kernel
  have hphase' : (u.accepted a.now).phase = .submit := hu.counters.2.1.trans hphase
  have hchecks : (u.accepted a.now).checks = s.checks := hquiet.checks
  have hsame : ∀ i, Same c (ps.getD i default) ((u.accepted a.now).position i) := fun i =>
    ((hs.same i).trans (hquiet.same i)).trans (accepted_same a.now hposlt i)
  have hcursor : (u.accepted a.now).pos = s.submitted % ps.length := hpos.trans hs.pos
  rw [nextpos_limited hcall hsz htotal] at hcons ⊢
  generalize u.accepted a.now = v at *
  constructor
  · refine ⟨hcons, hlength, hsame, ?_, fun i => ?_, ?_, ?_⟩
    · dsimp only
      rw [hlength, hsubmitted]
      exact next_turn hsz hroom hcursor
    · change v.requests i = Nat.count _ v.submitted
      unfold requests performed
      rw [hchecks, hkernel, List.countP_append, List.countP_singleton, hsubmitted, Nat.count_succ,
        ← hs.counts i]
      unfold requests performed
      dsimp only
      rw [hdata, hpos, hs.pos]
      simp only [decide_eq_true_eq]
      omega
    · change ∀ k < v.submitted, _
      rw [hsubmitted]
      intro k hk
      obtain hk | rfl := Nat.lt_succ_iff_lt_or_eq.mp hk
      · exact hs.taken k hk
      · rw [← hs.pos]
        obtain hkeep | ⟨-, hrw, -⟩ := (hs.same s.pos).action
        · rwa [hkeep] at haction
        · exact hrw
    · unfold Stage
      dsimp only
      rw [hphase', hsubmitted]
      by_cases hlimit : s.submitted + 1 ≥ ps.length * n
      · rw [if_pos hlimit]
        dsimp only
        omega
      · rw [if_neg hlimit]
        dsimp only
        refine ⟨by omega, fun _ hnil => ?_⟩
        rw [hkernel] at hnil
        exact absurd hnil (by simp)
  · left
    have hunperformed : v.unperformed = s.unperformed + 1 := by
      unfold unperformed
      rw [hkernel, List.countP_append, List.countP_singleton]
      rfl
    have hkernel : v.kernel.length = s.kernel.length + 1 := by rw [hkernel]; simp
    unfold left
    change 5 * (ps.length * n - v.submitted) + v.unperformed + 3 * v.kernel.length + _ < _
    dsimp only
    rw [hphase, hphase', hsubmitted, hunperformed, hkernel]
    by_cases hlimit : s.submitted + 1 ≥ ps.length * n
    · rw [if_pos hlimit]
      dsimp only
      omega
    · rw [if_neg hlimit]
      dsimp only
      omega

/-- The requests that are reported in the main loop. -/
theorem Passing.receive_all (hs : s.Passing c ps n) (hphase : s.phase = .poll) {now : ℚ≥0}
    {events : List io_event} (h : s.receive_all c now events = some t) (hzero : t.ioerrors = 0) :
    Goes c ps n s (.events now events) t := by
  have hstage := hs.stage
  unfold Stage at hstage
  rw [hphase] at hstage
  have hpassed : Passed c s t := .events hs.conserved.held (.inl h)
  obtain ⟨-, u, hu, ht⟩ := receive_all_cases h
  have hkernel : t.kernel = u.kernel := by rw [ht hzero]
  have hphase' : t.phase = .loop := by rw [ht hzero]
  have hlength := receive_fold_length hs.conserved hu
  rw [← hkernel] at hlength
  constructor
  · refine hs.passed hpassed (hs.conserved.receive_all h) ?_
    unfold Stage
    rw [hphase', hpassed.submitted]
    exact hstage
  · have hle := hpassed.unperformed
    unfold left
    rw [hphase, hphase', hpassed.submitted]
    dsimp only
    cases events with
    | nil =>
      rw [List.length_nil, Nat.add_zero] at hlength
      by_cases hnone : s.kernel.length = 0
      · left
        rw [if_pos hnone]
        omega
      · right
        refine ⟨⟨rfl, fun hnil => hnone (by rw [hnil]; rfl)⟩, ?_⟩
        rw [if_neg hnone]
        omega
    | cons e events =>
      left
      rw [List.length_cons] at hlength
      rw [if_neg (by omega)]
      omega

/-- The requests that are reported in the drain. -/
theorem Passing.drain_turn (hs : s.Passing c ps n) (hphase : s.phase = .drain) {now : ℚ≥0}
    {events : List io_event} (h : s.drain_turn c now events = some t) (hzero : t.ioerrors = 0) :
    Goes c ps n s (.events now events) t := by
  have hstage := hs.stage
  unfold Stage at hstage
  rw [hphase] at hstage
  have hpassed : Passed c s t := .events hs.conserved.held (.inr h)
  have hcons := hs.conserved.drain h
  have hle := hpassed.unperformed
  obtain ⟨hnone, rfl⟩ | ⟨hsome, u, hu, rfl⟩ := (drain_turn_cases h).2 hzero
  · constructor
    · refine hs.passed hpassed hcons ⟨hstage, ?_⟩
      exact List.length_eq_zero_iff.mp (hs.conserved.inFlight.symm.trans hnone)
    · left
      unfold left unperformed
      rw [hphase]
      dsimp only
      omega
  · have hheld : Held { s with count := s.count + 1 } :=
      hs.conserved.held.quiet (quiet_counters c _ _ _ _ _ _)
    obtain ⟨-, hlength, -, -, -⟩ := hheld.drain_fold hu
    have hlength : s.kernel.length = u.kernel.length + events.length := hlength
    have hphase' : u.phase = .drain := (complete_fold_phase hheld hu).trans hphase
    constructor
    · refine hs.passed hpassed hcons ?_
      unfold Stage
      dsimp only
      rw [hphase']
      exact hpassed.submitted.trans hstage
    · have hsubmitted : u.submitted = s.submitted := hpassed.submitted
      have hle : u.unperformed ≤ s.unperformed := hle
      unfold left
      change 5 * (ps.length * n - u.submitted) + u.unperformed + 3 * u.kernel.length + _ < _ ∨ _ ∧
        5 * (ps.length * n - u.submitted) + u.unperformed + 3 * u.kernel.length + _ ≤ _
      dsimp only
      rw [hphase, hphase', hsubmitted]
      dsimp only
      cases events with
      | nil =>
        right
        rw [List.length_nil, Nat.add_zero] at hlength
        refine ⟨⟨rfl, fun hnil => hsome ?_⟩, by omega⟩
        rw [hs.conserved.inFlight, hnil]
        rfl
      | cons e events =>
        left
        rw [List.length_cons] at hlength
        omega

/-- The device performs a request. -/
theorem Passing.perform (hs : s.Passing c ps n) {obj : Nat} (h : s.perform obj = some t) :
    Goes c ps n s (.perform obj) t := by
  obtain ⟨hpassed, hless, hlength, hphase, hround⟩ := Passed.perform (c := c) h
  have hnil : t.kernel = [] ↔ s.kernel = [] := by
    rw [← List.length_eq_zero_iff, hlength, List.length_eq_zero_iff]
  constructor
  · refine hs.passed hpassed (hs.conserved.perform h) ?_
    have hstage := hs.stage
    unfold Stage at hstage ⊢
    rw [hphase, hpassed.submitted, hround, ne_eq, hnil]
    exact hstage
  · left
    unfold left
    rw [hphase, hpassed.submitted, hlength]
    omega

/-- No step takes an error back. -/
theorem step_ioerrors {input : Input} (h : s.step rand_r c input = some t) :
    s.ioerrors ≤ t.ioerrors := by
  cases step_moves h with
  | turn => exact Nat.le_refl _
  | submit hturn =>
    cases hturn with
    | stop => exact Nat.le_refl _
    | pass => rw [nextpos_ioerrors]
    | trim =>
      rw [nextpos_ioerrors]
      unfold trim
      split <;> exact Nat.le_refl _
    | skip => rw [nextpos_ioerrors]; exact Nat.le_refl _
    | limit _ hu => exact hu.counters.1.ge
    | refuse _ hu =>
      rw [nextpos_ioerrors]
      exact hu.counters.1.ge.trans (Nat.le_succ _)
    | give_up _ hu => exact hu.counters.1.ge.trans (Nat.le_succ _)
    | accept _ hu =>
      rw [nextpos_ioerrors]
      exact hu.counters.1.ge
  | receive hall => exact (receive_all_cases hall).1
  | drain hdrain => exact (drain_turn_cases hdrain).1
  | perform hperform =>
    obtain ⟨r, -, -, -, device, readdata, rfl, -⟩ := perform_cases hperform
    exact Nat.le_refl _

/-- One step of a run that is clear, when it brings no error. -/
theorem Passing.step (hs : s.Passing c ps n) (hcall : PassLimited c ps.length n) (hn : 1 ≤ n)
    (htotal : ps.length * n < 2 ^ 64) (hQDmin : 1 ≤ c.QDmin) {input : Input}
    (hundisturbed : Undisturbed c s input) (hclear : Clear c s input)
    (h : s.step rand_r c input = some t) (hzero : t.ioerrors = 0) : Goes c ps n s input t := by
  unfold Engine.step at h
  split at h
  · rename_i keepRunning due hphase
    obtain rfl : keepRunning = true := hundisturbed
    rw [if_pos rfl] at h
    have hturn := hs.turn hphase due
    cases due <;> (obtain rfl := Option.some.inj h; exact hturn)
  · rename_i a hphase
    have hturn : ClearTurn rand_r c a s (s.submit_turn rand_r c a) :=
      submit_turn_clear hcall.byteLimit hcall.fd hundisturbed hclear
    rw [Option.some.inj h] at hturn
    cases hturn with
    | full m hfull => exact hs.full hphase hQDmin m hfull
    | accept hopen hu haction => exact hs.accept hcall hn htotal hphase hopen hu haction
    | error herror =>
      rw [hzero] at herror
      exact absurd herror (Nat.not_lt_zero _)
  · rename_i hphase
    exact hs.receive_all hphase h hzero
  · rename_i hphase
    exact hs.drain_turn hphase h hzero
  · exact hs.perform h
  · cases h

/-! ## Whole runs -/

/-- The run at its start. -/
theorem start_passing {pc : positionContainer} {device : Memory}
    (hcall : PassLimited c pc.positions.length n) (hn : 1 ≤ n)
    (hQD : min c.QDmax pc.positions.length ≤ 2 ^ 16)
    (h : start rand_r c pc 0 device = some s) : s.Passing c pc.positions n := by
  have hcons : s.Conserved :=
    start_conserved_of_room hQD (fun hne => absurd hcall.posStart hne) h
  unfold start at h
  dsimp only at h
  split at h
  · cases h
  · rename_i hne
    have hsz : 0 < pc.positions.length := Nat.pos_of_ne_zero fun h => hne (.inl h)
    obtain rfl := Option.some.inj h
    refine ⟨hcons, cleared_length c _, cleared_getD_same c _, ?_, fun i => ?_, ?_, ?_⟩
    · dsimp only
      rw [hcall.posStart]
    · rfl
    · exact fun k hk => absurd hk (Nat.not_lt_zero k)
    · exact Nat.mul_pos hsz hn

theorem start_left {pc : positionContainer} {device : Memory}
    (h : start rand_r c pc 0 device = some s) (total : Nat) : s.left total = 5 * total + 3 := by
  unfold start at h
  dsimp only at h
  split at h
  · cases h
  · obtain rfl := Option.some.inj h
    rfl

theorem count_passes {sz i : Nat} (hi : i < sz) (n : Nat) :
    Nat.count (fun k => k % sz = i) (sz * n) = n := by
  have hcount := Nat.count_modEq_card (sz * n) (Nat.zero_lt_of_lt hi) i
  rw [Nat.mul_mod_right, if_neg (Nat.not_lt_zero _), Nat.mul_div_cancel_left n
    (Nat.zero_lt_of_lt hi), Nat.add_zero] at hcount
  unfold Nat.ModEq at hcount
  simpa only [Nat.mod_eq_of_lt hi] using hcount

theorem exists_complete (c : Arguments) (s : Engine) (now : ℚ≥0) {r : Request} (hr : r ∈ s.kernel) :
    ∃ u, s.complete c now ⟨r.obj, 0, 0⟩ = some u := by
  unfold complete
  cases hfind : s.kernel.find? fun r' => r'.obj = r.obj with
  | none =>
    have hnone := List.find?_eq_none.mp hfind r hr
    simp at hnone
  | some r' => exact ⟨_, rfl⟩

theorem exists_receive_all (c : Arguments) {r : Request} (hr : r ∈ s.kernel) :
    ∃ u, s.receive_all c 0 [⟨r.obj, 0, 0⟩] = some u := by
  obtain ⟨u, hu⟩ := exists_complete c s 0 hr
  have hreceive : s.receive c 0 ⟨r.obj, 0, 0⟩ = some { u with inFlight := u.inFlight - 1 } := by
    unfold receive
    rw [hu]
    rfl
  unfold receive_all
  rw [List.foldlM_cons, hreceive]
  simp only [Option.bind_eq_bind, Option.bind_some, List.foldlM_nil, Option.pure_def]
  split <;> exact ⟨_, rfl⟩

theorem exists_drain_turn (c : Arguments) {r : Request} (hr : r ∈ s.kernel) :
    ∃ u, s.drain_turn c 0 [⟨r.obj, 0, 0⟩] = some u := by
  obtain ⟨u, hu⟩ := exists_complete c { s with count := s.count + 1 } 0 hr
  unfold drain_turn
  split
  · exact ⟨_, rfl⟩
  · dsimp only
    split
    · exact ⟨_, rfl⟩
    · unfold drain_all
      rw [List.foldlM_cons, hu]
      exact ⟨_, rfl⟩

/-- A run that has not returned has a step to take that does not wait. -/
theorem Passing.goes_on (hs : s.Passing c ps n) :
    s.phase = .returned ∨ ∃ input u, s.step rand_r c input = some u ∧ ¬ Waits s input := by
  have hstage := hs.stage
  unfold Stage at hstage
  unfold Engine.step
  cases hphase : s.phase with
  | loop => exact .inr ⟨.turn true true, _, rfl, Bool.noConfusion⟩
  | submit => exact .inr ⟨.submit ⟨true, false, 0, 0, [], 1⟩, _, rfl, id⟩
  | poll =>
    right
    cases hkernel : s.kernel with
    | nil => exact ⟨.events 0 [], _, rfl, fun h => h.2 hkernel⟩
    | cons r rest =>
      obtain ⟨u, hu⟩ := exists_receive_all c (hkernel ▸ List.mem_cons_self)
      exact ⟨.events 0 [⟨r.obj, 0, 0⟩], u, hu, fun h => absurd h.1 (List.cons_ne_nil _ _)⟩
  | drain =>
    right
    cases hkernel : s.kernel with
    | nil =>
      have hnone : s.inFlight = 0 := by rw [hs.conserved.inFlight, hkernel]; rfl
      refine ⟨.events 0 [], { s with phase := .returned }, ?_, fun h => h.2 hkernel⟩
      exact if_pos hnone
    | cons r rest =>
      obtain ⟨u, hu⟩ := exists_drain_turn c (hkernel ▸ List.mem_cons_self)
      exact ⟨.events 0 [⟨r.obj, 0, 0⟩], u, hu, fun h => absurd h.1 (List.cons_ne_nil _ _)⟩
  | returned => exact .inl rfl
  | aborted =>
    rw [hphase] at hstage
    exact hstage.elim

/-- The positions of a run that has returned. -/
theorem Passing.returned (hs : s.Passing c ps n) (hn : 1 ≤ n) (hphase : s.phase = .returned) :
    (∀ p ∈ ps, p.action = 'R' ∨ p.action = 'W') ∧ ∀ i < ps.length, s.performed i = n := by
  have hstage := hs.stage
  unfold Stage at hstage
  rw [hphase] at hstage
  obtain ⟨hsubmitted, hkernel⟩ := hstage
  constructor
  · intro p hp
    obtain ⟨i, hi, rfl⟩ := List.mem_iff_getElem.mp hp
    have htaken := hs.taken i (by rw [hsubmitted]; exact hi.trans_le (Nat.le_mul_of_pos_right _ hn))
    rwa [Nat.mod_eq_of_lt hi, List.getD_eq_getElem _ _ hi] at htaken
  · intro i hi
    have hcounts := hs.counts i
    unfold requests at hcounts
    rwa [hkernel, List.countP_nil, Nat.add_zero, hsubmitted, count_passes hi] at hcounts

/-- In a run each of whose turns finds a read or a write that is not in flight, every position is
performed exactly as often as there are rounds when the run returns; and but for waiting, the run
has a bounded number of steps and always goes on. -/
theorem the_passes_are_exact_while_every_turn_finds_a_request (rand_r : Nat → Nat × Nat)
    (c : Arguments) (pc : positionContainer) (device : Memory) (n : Nat) (hn : 1 ≤ n)
    (hcall : PassLimited c pc.positions.length n) (htotal : pc.positions.length * n < 2 ^ 64)
    (hQDmin : 1 ≤ c.QDmin) (hQD : min c.QDmax pc.positions.length ≤ 2 ^ 16) {s t : Engine}
    {inputs : List Input} (hstart : start rand_r c pc 0 device = some s)
    (hrun : machine.run (step rand_r c) s inputs = some t)
    (hundisturbed : machine.Along (step rand_r c) (Undisturbed c) s inputs)
    (hclear : machine.Along (step rand_r c) (Clear c) s inputs) (hfail : t.ioerrors = 0) :
    (t.phase = .returned → (∀ p ∈ pc.positions, p.action = 'R' ∨ p.action = 'W') ∧
      ∀ i < pc.positions.length, t.performed i = n) ∧
    inputs.length ≤ 5 * (pc.positions.length * n) + 3 +
      3 * machine.count (step rand_r c) Waits s inputs ∧
    (t.phase = .returned ∨ ∃ input u, t.step rand_r c input = some u ∧ ¬ Waits t input) := by
  have hs : s.Passing c pc.positions n := start_passing hcall hn hQD hstart
  have herrors : machine.Along (step rand_r c)
      (fun s input => ∀ u, s.step rand_r c input = some u → u.ioerrors ≤ 0) s inputs :=
    machine.along_le (fun _ _ _ h => step_ioerrors h) hrun hfail.le
  have hok := (hundisturbed.and hclear).and herrors
  have hstep : ∀ s input t, s.Passing c pc.positions n →
      (Undisturbed c s input ∧ Clear c s input) ∧
        (∀ u, s.step rand_r c input = some u → u.ioerrors ≤ 0) →
      s.step rand_r c input = some t → Goes c pc.positions n s input t :=
    fun s input t hs hok h => hs.step hcall hn htotal hQDmin hok.1.1 hok.1.2 h
      (Nat.le_zero.mp (hok.2 t h))
  have ht : t.Passing c pc.positions n :=
    machine.invariant_along (fun s input t hs hok h => (hstep s input t hs hok h).1) hrun hok hs
  refine ⟨ht.returned hn, ?_, ht.goes_on⟩
  have hleft := start_left hstart (pc.positions.length * n)
  have hlength := machine.length_le_idle hstep hrun hok hs
  omega

/-- One pass over a write and a read, of which the read completes first. -/
def one_pass : List Input :=
  [.turn true true, .submit accepting, .submit accepting, .perform 1, .perform 0,
    .events (2 : ℕ) [⟨1, 16, 0⟩, ⟨0, 16, 0⟩], .events (3 : ℕ) []]

theorem a_pass_over_a_write_and_a_read : ∃ s t,
    start glibc_rand_r two_slots write_and_read 0 Memory.zero = some s ∧
    machine.run (step glibc_rand_r two_slots) s one_pass = some t ∧
    t.phase = .returned ∧ ∀ i < write_and_read.positions.length, t.performed i = 1 := by
  have hrun : ∃ s t, start glibc_rand_r two_slots write_and_read 0 Memory.zero = some s ∧
      machine.run (step glibc_rand_r two_slots) s one_pass = some t ∧
      machine.Along (step glibc_rand_r two_slots) (Undisturbed two_slots) s one_pass ∧
      machine.Along (step glibc_rand_r two_slots) (Clear two_slots) s one_pass ∧
      t.ioerrors = 0 ∧ t.phase = .returned := by
    refine ⟨_, _, rfl, rfl, ?_, ?_, ?_, ?_⟩ <;> decide +kernel
  obtain ⟨s, t, hs, ht, hundisturbed, hclear, hfail, hphase⟩ := hrun
  refine ⟨s, t, hs, ht, hphase, ?_⟩
  exact ((the_passes_are_exact_while_every_turn_finds_a_request glibc_rand_r two_slots
    write_and_read Memory.zero 1 (by decide) ⟨rfl, rfl, rfl, rfl, rfl, by decide⟩ (by decide)
    (by decide) (by decide) hs ht hundisturbed hclear hfail).1 hphase).2

/-- Two reads of 16 bytes. -/
def two_reads : positionContainer :=
  { write_and_read with positions :=
      [{ positionType.zero with len := 16, seed := 7, action := 'R' },
        { positionType.zero with pos := 4096, len := 16, seed := 7, action := 'R' }] }

/-- The same, with the second one skipped. -/
def read_and_skipped : positionContainer :=
  { two_reads with positions :=
      [{ positionType.zero with len := 16, seed := 7, action := 'R' },
        { positionType.zero with pos := 4096, len := 16, seed := 7, action := 'S' }] }

def two_rounds : Arguments := { two_slots with rounds := 2 }

/-- The read is made until there are as many submissions as positions. -/
def read_again : List Input :=
  [.turn true true, .submit accepting, .submit accepting, .submit accepting, .submit accepting,
    .perform 0, .events (2 : ℕ) [⟨0, 16, 0⟩], .turn true true, .submit accepting, .submit accepting,
    .perform 1, .events (3 : ℕ) [⟨1, 16, 0⟩], .events (4 : ℕ) []]

/-- The first read completes last, and the second one is made in its place. -/
def first_read_last : List Input :=
  [.turn true true, .submit accepting, .submit accepting, .submit accepting,
    .perform 1, .events (2 : ℕ) [⟨1, 16, 0⟩], .turn true true, .submit accepting, .submit accepting,
    .submit accepting, .perform 1, .events (3 : ℕ) [⟨1, 16, 0⟩], .turn true true, .submit accepting,
    .submit accepting, .perform 0, .perform 1, .events (4 : ℕ) [⟨0, 16, 0⟩, ⟨1, 16, 0⟩],
    .events (5 : ℕ) []]

/-- One round over a read and a skipped position performs the read twice, and two rounds over two
reads perform one of them once and the other three times. -/
theorem a_round_repeats_a_read_and_a_late_read_is_passed_over :
    (∃ s t, start glibc_rand_r two_slots read_and_skipped 0 Memory.zero = some s ∧
      machine.run (step glibc_rand_r two_slots) s read_again = some t ∧
      machine.Along (step glibc_rand_r two_slots) (Undisturbed two_slots) s read_again ∧
      t.ioerrors = 0 ∧ t.phase = .returned ∧ t.performed 0 = 2) ∧
    ∃ s t, start glibc_rand_r two_rounds two_reads 0 Memory.zero = some s ∧
      machine.run (step glibc_rand_r two_rounds) s first_read_last = some t ∧
      machine.Along (step glibc_rand_r two_rounds) (Undisturbed two_rounds) s first_read_last ∧
      t.ioerrors = 0 ∧ t.phase = .returned ∧ t.performed 0 = 1 ∧ t.performed 1 = 3 := by
  refine ⟨⟨_, _, rfl, rfl, ?_, ?_, ?_, ?_⟩, _, _, rfl, rfl, ?_, ?_, ?_, ?_, ?_⟩ <;> decide +kernel

end stutools.spit.Engine
