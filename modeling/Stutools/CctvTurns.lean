-- What one turn of a camera can do, once for all that is proved about it: each case names the
-- part of its lane that changes and what the shared state gains.
import Stutools.CctvCameras

namespace stutools.cctv

namespace Pc

/-- The frame that the camera has in hand. -/
def hand : Pc → Option Fetched
  | .rotating f _ | .rotated f _ | .ready f | .writing f => some f
  | _ => none

/-- A write that is not recorded yet. -/
def unmeasured : Pc → Nat
  | .measuring => 1
  | _ => 0

/-- A recording that counts as one to be closed, and is not sent yet. -/
def to_send : Pc → Nat
  | .recording _ _ | .sending _ => 1
  | _ => 0

/-- The moves that change nothing but where the camera is; it waits only until the run stops. -/
inductive Quiet (stopping : Bool) : Pc → Pc → Prop where
  | first (hgo : stopping = false) : Quiet stopping .first .first
  | waits : Quiet stopping .counted .waiting
  | waiting (hgo : stopping = false) : Quiet stopping .waiting .waiting
  | starts : Quiet stopping .waiting .top
  | unstarted : Quiet stopping .waiting .unstarted
  | late_start : Quiet stopping .unstarted .top
  | stops : Quiet stopping .top .leaving
  | rotating (f : Fetched) (w : Bool) (hgo : stopping = false) : Quiet stopping (.rotating f w) (.rotating f true)
  | rotated (f : Fetched) (w : Bool) : Quiet stopping (.rotated f w) (.ready f)
  | goes_on (f : Fetched) : Quiet stopping (.ready f) (.writing f)
  | sending (last : Bool) (depth : Nat) : Quiet stopping (.recording last depth) (.sending last)

theorem Quiet.same {stopping : Bool} {pc pc' : Pc} (h : Quiet stopping pc pc') :
    pc'.hand = pc.hand ∧ pc'.unmeasured = pc.unmeasured ∧ pc'.to_send = pc.to_send := by
  cases h <;> simp [hand, unmeasured, to_send]

theorem Quiet.live {stopping : Bool} {pc pc' : Pc} (h : Quiet stopping pc pc') : ∀ ok, pc ≠ .ended ok := by
  cases h <;> simp

end Pc

namespace Lane

/-- A sample with no write in it. -/
def NoWrite (sample : Option Sample) : Prop := ∀ m ∈ sample, m.1.writes = 0

/-- What a turn does to the lane of a camera and to the shared state. -/
inductive Turned (c : Setup) (i : Fin c.count) (v : View) (l : Lane) : Lane → Effect c.count → Prop where
  | moves (pc : Pc) (ready : Nat) (sample : Option Sample) (h : Pc.Quiet v.stopping l.pc pc)
    (hwrite : NoWrite sample) : Turned c i v l { l with pc } { ready, sample }
  | takes (q : Nat) (pc : Pc) (hvalue : l.value = some q) (hcurrent : l.current = none)
    (hgo : v.stopping = false)
    (hpc : l.pc = .first ∧ pc = .counted ∨ ∃ f w, l.pc = .rotating f w ∧ pc = .rotated f w) :
    Turned c i v l (l.takes q pc) {}
  | passes (hpc : l.pc = .top) (hgo : v.stopping = false) (hend : v.past_end = false) :
    Turned c i v l (l.passes (n := c.count) (c.clock i) c.drop_after v.elapsed).1
      (l.passes (c.clock i) c.drop_after v.elapsed).2
  | gives_up (f : Fetched) (hpc : l.pc.hand = some f)
    (hkind : (∃ w, l.pc = .rotating f w) ∧ l.current = none ∨ l.pc = .ready f) :
    Turned c i v l { l with pc := .leaving, fates := l.fates ++ [⟨f, .abandoned⟩] } {}
  | writes (q : Nat) (f : Fetched) (io : Io) (hpc : l.pc = .writing f) (hcurrent : l.current = some q)
    (hok : io.ok = true) : Turned c i v l (l.writes c i q f io).1 (l.writes c i q f io).2
  | write_fails (q : Nat) (f : Fetched) (io : Io) (hpc : l.pc = .writing f)
    (hcurrent : l.current = some q) (hok : io.ok = false) :
    Turned c i v l (l.writes c i q f io).1 (l.writes c i q f io).2
  | measures (q : Nat) (io : Io) (hpc : l.pc = .measuring) (hcurrent : l.current = some q)
    (hrecord : v.record ≠ .refused) :
    Turned c i v l (l.measures c i q v io).1 (l.measures c i q v io).2
  | counts (last : Bool) (hpc : l.pc = .closing last) :
    Turned c i v l { l with pc := .recording last (v.closing + 1) } { closing := 1 }
  | sends (q : Nat) (last : Bool) (hpc : l.pc = .sending last) (hcurrent : l.current = some q)
    (hcloser : v.closer = true) : Turned c i v l (l.sends i q last).1 (l.sends i q last).2
  | closes (q : Nat) (hpc : l.pc = .leaving) (hcurrent : l.current = some q) (hoffset : l.offset ≠ 0) :
    Turned c i v l { l with pc := .closing true } {}
  | removes (q : Nat) (hpc : l.pc = .unstarted ∨ l.pc = .leaving) (hcurrent : l.current = some q)
    (hoffset : l.pc = .leaving → l.offset = 0) :
    Turned c i v l ({ l with files := Function.update l.files q none }.ends (n := c.count) true).1
      { stop := true }
  | ends (hpc : l.pc = .first ∨ l.pc = .leaving) (hcurrent : l.current = none) :
    Turned c i v l (l.ends (n := c.count) true).1 { stop := true }
  | fails (hhand : l.pc.hand = none) (hcurrent : l.current ≠ none) (hlive : ∀ ok, l.pc ≠ .ended ok) :
    Turned c i v l (l.ends (n := c.count) false).1 { stop := true }
  | rotation_fails (f : Fetched) (w : Bool) (hpc : l.pc = .rotated f w) :
    Turned c i v l (l.fails (n := c.count) f).1 { stop := true }

variable {c : Setup} {i : Fin c.count} {v : View} {io : Io} {l l' : Lane} {e : Effect c.count}

/-- What is recorded is a sample, or nothing. -/
theorem effect_eq {n : Nat} (r : Recorded) (sample : Sample) :
    (r.effect sample : Effect n) = { sample := (r.effect sample : Effect n).sample } := by
  cases r <;> rfl

theorem no_write {n : Nat} (r : Recorded) {sample : Sample} (h : sample.1.writes = 0) :
    NoWrite (r.effect sample : Effect n).sample := by
  intro m hm
  cases r <;> simp [Recorded.effect] at hm
  rw [← hm]
  exact h

theorem of_some_pair {α β : Type*} {x : α × β} {a : α} {b : β} (h : some x = some (a, b)) :
    a = x.1 ∧ b = x.2 := by
  cases h
  exact ⟨rfl, rfl⟩

theorem removes.spec {q : Nat} (hpc : l.pc = .unstarted ∨ l.pc = .leaving) (hcurrent : l.current = some q)
    (hoffset : l.pc = .leaving → l.offset = 0) :
    Turned c i v l (l.removes (n := c.count) q io).1 (l.removes q io).2 := by
  unfold removes
  by_cases hok : io.ok
  · simp only [hok, ↓reduceIte]
    exact .removes q hpc hcurrent hoffset
  · simp only [hok]
    refine .fails ?_ (by simp [hcurrent]) ?_
    · rcases hpc with hpc | hpc <;> simp [hpc, Pc.hand]
    · rcases hpc with hpc | hpc <;> simp [hpc]

theorem turn_with.spec {q : Nat} (hcurrent : l.current = some q)
    (h : l.turn_with c i q v io = some (l', e)) : Turned c i v l l' e := by
  have hheld : l.current ≠ none := by simp [hcurrent]
  unfold turn_with at h
  split at h
  case h_1 hpc =>
    cases h
    exact .moves .waiting 1 none (hpc ▸ .waits) (by simp [NoWrite])
  case h_2 hpc =>
    cases h
    refine .moves _ 0 none ?_ (by simp [NoWrite])
    rw [hpc]
    split_ifs with hstarted hstop
    · exact .starts
    · exact .unstarted
    · exact .waiting (by simpa using hstop)
  case h_3 hpc =>
    obtain ⟨rfl, rfl⟩ := of_some_pair h
    split_ifs with hstarted
    · exact .moves .top 0 none (hpc ▸ .late_start) (by simp [NoWrite])
    · exact removes.spec (.inl hpc) hcurrent (by simp [hpc])
  case h_4 f w hpc =>
    split at h
    · cases h
      exact .rotation_fails f w hpc
    · cases h
      rw [effect_eq]
      exact .moves _ 0 _ (hpc ▸ .rotated f w) (no_write _ rfl)
  case h_5 f hpc =>
    split_ifs at h
    · cases h
      exact .gives_up f (by simp [hpc, Pc.hand]) (.inr hpc)
    · cases h
      exact .moves _ 0 none (hpc ▸ .goes_on f) (by simp [NoWrite])
  case h_6 f hpc =>
    obtain ⟨rfl, rfl⟩ := of_some_pair h
    by_cases hok : io.ok
    · exact .writes q f io hpc hcurrent hok
    · exact .write_fails q f io hpc hcurrent (by simpa using hok)
  case h_7 hpc =>
    obtain ⟨rfl, rfl⟩ := of_some_pair h
    by_cases hrecord : v.record = .refused
    · simp only [measures, hrecord]
      exact .fails (by simp [hpc, Pc.hand]) hheld (by simp [hpc])
    · exact .measures q io hpc hcurrent hrecord
  case h_8 last hpc =>
    cases h
    exact .counts last hpc
  case h_9 last depth hpc =>
    split at h
    · cases h
      exact .fails (by simp [hpc, Pc.hand]) hheld (by simp [hpc])
    · cases h
      rw [effect_eq]
      exact .moves _ 0 _ (hpc ▸ .sending last depth) (no_write _ rfl)
  case h_10 last hpc =>
    obtain ⟨rfl, rfl⟩ := of_some_pair h
    split_ifs with hcloser
    · exact .sends q last hpc hcurrent hcloser
    · exact .fails (by simp [hpc, Pc.hand]) hheld (by simp [hpc])
  case h_11 hpc =>
    obtain ⟨rfl, rfl⟩ := of_some_pair h
    split_ifs with hoffset
    · exact removes.spec (.inr hpc) hcurrent fun _ => hoffset
    · exact .closes q hpc hcurrent hoffset
  case h_12 => cases h

theorem turn_without.spec (hcurrent : l.current = none)
    (h : l.turn_without v = some (l', e)) : Turned c i v l l' e := by
  unfold turn_without at h
  split at h
  case h_1 hpc =>
    split_ifs at h with hstop
    · cases h
      exact .ends (.inl hpc) hcurrent
    · split at h
      · rename_i q hvalue
        cases h
        exact .takes q .counted hvalue hcurrent (by simpa using hstop) (.inl ⟨hpc, rfl⟩)
      · cases h
        have hsame : l = { l with pc := .first } := by rw [← hpc]
        rw [hsame]
        exact .moves .first 0 none (by simp only; exact .first (by simpa using hstop)) (by simp [NoWrite])
  case h_2 f w hpc =>
    split_ifs at h with hstop
    · cases h
      exact .gives_up f (by simp [hpc, Pc.hand]) (.inl ⟨⟨w, hpc⟩, hcurrent⟩)
    · split at h
      · rename_i q hvalue
        cases h
        exact .takes q _ hvalue hcurrent (by simpa using hstop) (.inr ⟨f, w, hpc, rfl⟩)
      · cases h
        exact .moves _ 0 none (hpc ▸ .rotating f w (by simpa using hstop)) (by simp [NoWrite])
  case h_3 hpc =>
    cases h
    exact .ends (.inr hpc) hcurrent
  case h_4 => cases h

theorem turn.spec (h : l.turn c i v io = some (l', e)) : Turned c i v l l' e := by
  unfold turn at h
  split at h
  case h_1 hpc =>
    split_ifs at h with hend
    · cases h
      exact .moves _ 0 none (hpc ▸ .stops) (by simp [NoWrite])
    · cases h
      simp only [not_or, Bool.not_eq_true] at hend
      exact .passes hpc hend.1 hend.2
  case h_2 =>
    cases hcurrent : l.current with
    | none => exact turn_without.spec hcurrent (by simpa [hcurrent] using h)
    | some q => exact turn_with.spec hcurrent (by simpa [hcurrent] using h)

/-- The thread of the camera is where it was. -/
structure Same (l l' : Lane) : Prop where
  pc : l'.pc = l.pc
  current : l'.current = l.current
  offset : l'.offset = l.offset
  frames : l'.frames = l.frames
  random : l'.random = l.random
  fates : l'.fates = l.fates

theorem Same.refl (l : Lane) : Same l l := ⟨rfl, rfl, rfl, rfl, rfl, rfl⟩

theorem discards_same (l : Lane) (q : Nat) (removed : Bool) : Same l (l.discards q removed) := by
  unfold discards
  split <;> exact ⟨rfl, rfl, rfl, rfl, rfl, rfl⟩

theorem gives_up_same (l : Lane) (c : Setup) (i : Fin c.count) (io : Io) (removed : Bool) :
    Same l (l.gives_up c i io removed) := by
  unfold gives_up
  split <;> exact ⟨rfl, rfl, rfl, rfl, rfl, rfl⟩

theorem placed_same (l : Lane) (removed : Bool) : Same l (l.placed removed) := by
  unfold placed
  cases l.value with
  | none => exact ⟨rfl, rfl, rfl, rfl, rfl, rfl⟩
  | some q =>
    obtain ⟨hpc, hcurrent, hoffset, hframes, hrandom, hfates⟩ := discards_same l q removed
    exact ⟨hpc, hcurrent, hoffset, hframes, hrandom, hfates⟩

theorem dropped_same (l : Lane) (removed : Bool) : Same l (l.dropped removed) := by
  unfold dropped
  cases l.value with
  | none => exact ⟨rfl, rfl, rfl, rfl, rfl, rfl⟩
  | some q =>
    obtain ⟨hpc, hcurrent, hoffset, hframes, hrandom, hfates⟩ := discards_same l q removed
    exact ⟨hpc, hcurrent, hoffset, hframes, hrandom, hfates⟩

end Lane

namespace State

variable {c : Setup} {s t : State c.count}

theorem merge_none (s : State c.count) {sample : Sample} (h : sample.1.writes = 0) :
    (s.merge sample).total.1.writes = s.metrics.total.1.writes := by
  unfold merge MetricsStore.record
  dsimp only
  split
  · rename_i store hstore
    split_ifs at hstore
    cases hstore
    show s.metrics.total.1.writes + sample.1.writes = _
    rw [h, Nat.add_zero]
  · rfl

/-- What is not refused is merged. -/
theorem merge_total {sample : Sample} (h : s.refused = false) :
    (s.merge sample).total = s.metrics.total + sample := by
  unfold refused at h
  unfold merge MetricsStore.record
  dsimp only
  rw [if_neg (by rw [h]; exact Bool.false_ne_true)]

/-- A step of another thread: no camera moves, and no frame is counted. -/
structure Calm (s t : State c.count) : Prop where
  lanes : ∀ i, (s.lanes i).Same (t.lanes i)
  generated : t.generated = s.generated
  dropped : t.dropped = s.dropped
  late : t.late = s.late
  written : t.written = s.written
  writes : t.metrics.total.1.writes = s.metrics.total.1.writes

/-- Nothing of the lanes changes but one. -/
theorem same_update (s : State c.count) (i : Fin c.count) {l : Lane} (h : (s.lanes i).Same l) :
    ∀ j, (s.lanes j).Same (Function.update s.lanes i l j) := by
  intro j
  by_cases hj : j = i
  · subst hj
    simpa using h
  · simpa [hj] using Lane.Same.refl (s.lanes j)

theorem same_lanes (s : State c.count) : ∀ i, (s.lanes i).Same (s.lanes i) := fun _ => .refl _

theorem allocator_turn.calm {io : Io} (h : s.allocator_turn c io = some t) : Calm s t := by
  unfold allocator_turn at h
  split at h
  · dsimp only at h
    split_ifs at h
    · cases h
      exact ⟨same_lanes s, rfl, rfl, rfl, rfl, rfl⟩
    · cases h
      exact ⟨same_update s _ ⟨rfl, rfl, rfl, rfl, rfl, rfl⟩, rfl, rfl, rfl, rfl, rfl⟩
    all_goals
      cases h
      exact ⟨same_lanes s, rfl, rfl, rfl, rfl, rfl⟩
  · split_ifs at h
    · cases h
      exact ⟨same_update s _ ⟨rfl, rfl, rfl, rfl, rfl, rfl⟩, rfl, rfl, rfl, rfl, rfl⟩
    · cases h
      exact ⟨same_update s _ (Lane.gives_up_same _ _ _ _ _), rfl, rfl, rfl, rfl, rfl⟩
  · split_ifs at h with hrefused hend
    · cases h
      exact ⟨same_update s _ (Lane.discards_same _ _ _), rfl, rfl, rfl, rfl, rfl⟩
    · cases h
      exact ⟨same_lanes s, rfl, rfl, rfl, rfl, rfl⟩
    · cases h
      exact ⟨same_lanes s, rfl, rfl, rfl, rfl, merge_none s rfl⟩
  · split_ifs at h
    · cases h
      exact ⟨same_update s _ (Lane.discards_same _ _ _), rfl, rfl, rfl, rfl, rfl⟩
    · cases h
      exact ⟨same_lanes s, rfl, rfl, rfl, rfl, rfl⟩
  · cases h
    exact ⟨same_update s _ (Lane.placed_same _ _), rfl, rfl, rfl, rfl, rfl⟩
  · cases h

theorem closer_turn.calm {k : Nat} {io : Io} (h : s.closer_turn c k io = some t) : Calm s t := by
  unfold closer_turn at h
  obtain ⟨pc, -, h⟩ := Option.bind_eq_some_iff.mp h
  cases pc with
  | idle =>
    dsimp only at h
    split at h
    · cases h
      exact ⟨same_lanes s, rfl, rfl, rfl, rfl, rfl⟩
    · split_ifs at h <;> cases h <;> exact ⟨same_lanes s, rfl, rfl, rfl, rfl, rfl⟩
  | finishing cl =>
    dsimp only at h
    split_ifs at h
    · cases h
      exact ⟨same_update s _ ⟨rfl, rfl, rfl, rfl, rfl, rfl⟩, rfl, rfl, rfl, rfl, rfl⟩
    · cases h
      exact ⟨same_lanes s, rfl, rfl, rfl, rfl, rfl⟩
  | counting ok =>
    cases h
    exact ⟨same_lanes s, rfl, rfl, rfl, rfl, rfl⟩
  | reporting ok =>
    dsimp only at h
    split_ifs at h
    · cases h
      exact ⟨same_lanes s, rfl, rfl, rfl, rfl, rfl⟩
    · cases h
      exact ⟨same_lanes s, rfl, rfl, rfl, rfl, merge_none s rfl⟩
    · cases h
      exact ⟨same_lanes s, rfl, rfl, rfl, rfl, rfl⟩
  | ended => cases h

theorem main_turn.calm {io : Io} (h : s.main_turn c io = some t) : Calm s t := by
  unfold main_turn at h
  split at h
  · split_ifs at h <;> cases h <;> exact ⟨same_lanes s, rfl, rfl, rfl, rfl, rfl⟩
  · split_ifs at h <;> cases h <;> exact ⟨same_lanes s, rfl, rfl, rfl, rfl, rfl⟩
  · split_ifs at h <;> cases h <;> exact ⟨same_lanes s, rfl, rfl, rfl, rfl, rfl⟩
  · split_ifs at h
    · cases h
      exact ⟨fun i => Lane.dropped_same _ _, rfl, rfl, rfl, rfl, rfl⟩
    · cases h
      exact ⟨same_lanes s, rfl, rfl, rfl, rfl, rfl⟩
  · cases h

/-- A camera turns, or no camera moves. -/
theorem step_cases {ev : Event c.count} (h : step c s ev = some t) :
    (∃ i l e, (s.lanes i).Turned c i (s.view c) l e ∧ t = (s.lane i l).apply e) ∨ Calm s t := by
  cases ev with
  | tick now =>
    simp only [step] at h
    split_ifs at h
    cases h
    exact .inr ⟨same_lanes s, rfl, rfl, rfl, rfl, rfl⟩
  | interrupt =>
    cases h
    exact .inr ⟨same_lanes s, rfl, rfl, rfl, rfl, rfl⟩
  | camera i io =>
    obtain ⟨⟨l, e⟩, hturn, rfl⟩ := Option.map_eq_some_iff.mp h
    exact .inl ⟨i, l, e, Lane.turn.spec hturn, rfl⟩
  | allocator io => exact .inr (allocator_turn.calm h)
  | closer k io => exact .inr (closer_turn.calm h)
  | main io => exact .inr (main_turn.calm h)
  | advance =>
    simp only [step] at h
    split_ifs at h
    cases h
    exact .inr ⟨same_lanes s, rfl, rfl, rfl, rfl, rfl⟩
  | prune i q =>
    simp only [step] at h
    split_ifs at h
    cases h
    exact .inr ⟨same_update s _ ⟨rfl, rfl, rfl, rfl, rfl, rfl⟩, rfl, rfl, rfl, rfl, rfl⟩
  | deleted count =>
    simp only [step] at h
    split_ifs at h
    cases h
    exact .inr ⟨same_lanes s, rfl, rfl, rfl, rfl, merge_none s rfl⟩

/-! ## The clock -/

/-- The run is started once. -/
def Timed (s : State c.count) : Prop := s.main = .preparing → s.start = none

/-- The time of the run goes forward. -/
theorem step_timed {ev : Event c.count} (h : step c s ev = some t) (ht : Timed s) :
    Timed t ∧ s.elapsed ≤ t.elapsed := by
  -- no event but two has to do with the clock
  have hsame : t.now = s.now → t.start = s.start → t.main = s.main → Timed t ∧ s.elapsed ≤ t.elapsed :=
    fun hnow hstart hmain => by
      refine ⟨fun hp => ?_, le_of_eq ?_⟩
      · rw [hstart]
        exact ht (hmain ▸ hp)
      · simp [elapsed, hnow, hstart]
  cases ev with
  | tick now =>
    simp only [step] at h
    split_ifs at h with hle
    cases h
    refine ⟨ht, ?_⟩
    unfold elapsed
    cases s.start with
    | none => simp
    | some start => simpa using hle
  | interrupt =>
    cases h
    exact hsame rfl rfl rfl
  | camera i io =>
    obtain ⟨⟨l, e⟩, -, rfl⟩ := Option.map_eq_some_iff.mp h
    exact hsame rfl rfl rfl
  | allocator io =>
    simp only [step, allocator_turn] at h
    split at h
    all_goals
      try dsimp only at h
      try split_ifs at h
    all_goals
      cases h
      try exact hsame rfl rfl rfl
  | closer k io =>
    simp only [step, closer_turn] at h
    obtain ⟨pc, -, h⟩ := Option.bind_eq_some_iff.mp h
    split at h
    all_goals
      try split at h
    all_goals
      try split_ifs at h
    all_goals
      cases h
      try exact hsame rfl rfl rfl
  | main io =>
    simp only [step, main_turn] at h
    split at h
    · rename_i hmain
      split_ifs at h
      · cases h
        refine ⟨fun hp => (by cases hp), ?_⟩
        simp [elapsed, ht hmain]
      · cases h
        exact hsame rfl rfl rfl
    all_goals
      try split_ifs at h
    all_goals
      cases h
      try exact hsame rfl rfl rfl
    all_goals exact ⟨fun hp => (by cases hp), le_refl _⟩
  | advance =>
    simp only [step] at h
    split_ifs at h
    cases h
    exact hsame rfl rfl rfl
  | prune i q =>
    simp only [step] at h
    split_ifs at h
    cases h
    exact hsame rfl rfl rfl
  | deleted count =>
    simp only [step] at h
    split_ifs at h
    cases h
    exact hsame rfl rfl rfl

end State

end stutools.cctv
