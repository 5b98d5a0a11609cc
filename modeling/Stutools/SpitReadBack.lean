-- The read-back checks of the C engine: what the device holds of each write, what a read of one of
-- them gets, and when a read that follows a write is compared, at any queue depth. Beside the run
-- stands its story: the seeds that the bytes of the slots were filled for, those of each write as
-- the device has performed it, and those of the writes that a read has found.
import Stutools.SpitPayload

open memory

namespace stutools.spit

variable {rand_r : Nat → Nat × Nat} {c : Arguments} {ps : List positionType} {f : Nat → Nat}

/-- Position `j` of the list is a read of what position `w` writes. -/
structure ReadsBack (ps : List positionType) (j w : Nat) : Prop where
  read : (ps.getD j default).action = 'R'
  write : (ps.getD w default).action = 'W'
  pos : (ps.getD j default).pos = (ps.getD w default).pos
  len : (ps.getD j default).len = (ps.getD w default).len
  seed : (ps.getD j default).seed = (ps.getD w default).seed

/-- What a write stores is left alone by the other writes and the trims. -/
def Separate (ps : List positionType) : Prop :=
  ∀ w i, (ps.getD w default).action = 'W' → i ≠ w →
    ((ps.getD i default).action = 'W' ∨ (ps.getD i default).action = 'T') →
    ¬ Overlap (ps.getD i default).pos (ps.getD i default).len (ps.getD w default).pos
      (ps.getD w default).len

/-- What a write leaves in an extent: the position at the start and, behind the header, the
patterns of the seeds that its bytes were filled for. -/
def Shows (rand_r : Nat → Nat × Nat) (m : Memory) (start : Nat) (p : positionType)
    (f : Nat → Nat) : Prop :=
  m.read start 8 = bytes.le 8 p.pos ∧
    ∀ j, 16 ≤ j → j < p.len → m (start + j) = pattern_byte rand_r (f j) j

theorem Shows.write {m : Memory} {start start' : Nat} {p : positionType} {bs : List UInt8}
    (h : Shows rand_r m start p f) (hlen : 16 ≤ p.len)
    (hapart : ¬ Overlap start' bs.length start p.len) :
    Shows rand_r (m.write start' bs) start p f := by
  unfold Overlap at hapart
  have hbyte : ∀ j < p.len, m.write start' bs (start + j) = m (start + j) := by
    intro j hj
    by_cases hlo : start + j < start'
    · exact Memory.write_apply_of_lt hlo
    · exact Memory.write_apply_of_ge (by omega)
  refine ⟨?_, fun j h1 h2 => ?_⟩
  · rw [← h.1]
    unfold Memory.read
    apply List.map_congr_left
    intro j hj
    rw [List.mem_range] at hj
    exact hbyte j (by omega)
  · rw [hbyte j h2]
    exact h.2 j h1 h2

/-- The extent that is copied shows what it shows. -/
theorem Shows.copy {m m' : Memory} {start start' : Nat} {p : positionType}
    (h : Shows rand_r m start p f) (hlen : 16 ≤ p.len) :
    Shows rand_r (m'.write start' (m.read start p.len)) start' p f := by
  have hbyte : ∀ j < p.len, m'.write start' (m.read start p.len) (start' + j) = m (start + j) := by
    intro j hj
    rw [Memory.write_apply_mem (by simpa using hj), Memory.read_getElem]
  refine ⟨?_, fun j h1 h2 => ?_⟩
  · rw [← h.1]
    unfold Memory.read
    apply List.map_congr_left
    intro j hj
    rw [List.mem_range] at hj
    exact hbyte j (by omega)
  · rw [hbyte j h2]
    exact h.2 j h1 h2

namespace Engine

variable {s t u : Engine}

/-! ## The story of a run -/

/-- What has been filled, performed and found: the seeds that the bytes of the slots were last
filled for, those of each write as the device last performed it, and those of the writes when the
device last performed a read on a slot. -/
structure Story where
  source : Nat → Nat → Nat
  laid : Nat → Option (Nat → Nat)
  saw : Nat → Nat → Option (Nat → Nat)

namespace Story

/-- Nothing has been performed, and every slot is filled for the seed. -/
def first (seed : Nat) : Story where
  source := fun _ _ => seed
  laid := fun _ => none
  saw := fun _ _ => none

/-- The device performs the request on a slot. -/
def performs (h : Story) (s : Engine) (obj : Nat) : Story :=
  match s.kernel.find? fun r => r.obj = obj ∧ r.performed = false with
  | none => h
  | some r =>
    if r.cb.opcode = .pwrite then
      { h with laid := Function.update h.laid r.cb.data (some (h.source obj)) }
    else if r.cb.opcode = .pread then { h with saw := Function.update h.saw obj h.laid }
    else h

/-- What a step adds to the story. -/
def note (s : Engine) (input : Input) (t : Engine) (h : Story) : Story :=
  let h' := match input with
    | .perform obj => h.performs s obj
    | _ => h
  { h' with source := sources s t h.source }

end Story

/-- The engine with its story. -/
def following (rand_r : Nat → Nat × Nat) (c : Arguments) :
    Engine × Story → Input → Option (Engine × Story) :=
  machine.noted (step rand_r c) Story.note

/-- What a story tells of the state it stands beside. -/
structure Traced (rand_r : Nat → Nat × Nat) (ps : List positionType) (h : Story)
    (s : Engine) : Prop where
  unfinished : ∀ r ∈ s.kernel, (s.position r.cb.data).finishTime = 0
  finished : ∀ w, (ps.getD w default).action = 'W' → (s.position w).finishTime ≠ 0 → h.laid w ≠ none
  performed : ∀ r ∈ s.kernel, r.cb.opcode = .pwrite → r.performed = true →
    h.laid r.cb.data ≠ none
  /-- A write that had finished when a request was submitted is found by it. -/
  seen : ∀ r ∈ s.kernel, ∀ w, (ps.getD w default).action = 'W' →
    (r.seen.getD w default).finishTime ≠ 0 →
    h.laid w ≠ none ∧ (r.cb.opcode = .pread → r.performed = true → h.saw r.obj w ≠ none)
  stored : ∀ w f, (ps.getD w default).action = 'W' → h.laid w = some f →
    Shows rand_r s.device (ps.getD w default).pos (ps.getD w default) f
  got : ∀ r ∈ s.kernel, r.cb.opcode = .pread → r.performed = true →
    ∀ w f, ReadsBack ps r.cb.data w → h.saw r.obj w = some f →
      Shows rand_r s.readdata r.cb.buf (ps.getD r.cb.data default) f

/-- What a run rests on: the actions stay, the writes are apart, and every length has room for the
header. -/
structure Fixed (c : Arguments) (ps : List positionType) : Prop where
  alternate : c.alternateEvery = 0
  separate : Separate ps
  header : ∀ p ∈ ps, 16 ≤ p.len
  bound : ∀ p ∈ ps, p.pos < 2 ^ 64

variable {h : Story}

/-- What the slots were filled for has no part in it. -/
theorem Traced.filled (hs : s.Traced rand_r ps h) (source : Nat → Nat → Nat) :
    s.Traced rand_r ps { h with source := source } :=
  ⟨hs.unfinished, hs.finished, hs.performed, hs.seen, hs.stored, hs.got⟩

theorem Fixed.action (hfix : Fixed c ps) (hsame : ∀ i, Same c (ps.getD i default) (s.position i))
    (i : Nat) : (s.position i).action = (ps.getD i default).action := by
  obtain h | ⟨hne, -⟩ := (hsame i).action
  · exact h
  · exact absurd hfix.alternate hne

theorem getD_mem {i : Nat} (h : (ps.getD i default).action ≠ Char.ofNat 0) :
    ps.getD i default ∈ ps := by
  by_cases hi : i < ps.length
  · rw [List.getD_eq_getElem _ _ hi]
    exact List.getElem_mem hi
  · exfalso
    apply h
    rw [List.getD_eq_getElem?_getD, List.getElem?_eq_none (by omega)]
    rfl

theorem write_header (hfix : Fixed c ps) {w : Nat} (hw : (ps.getD w default).action = 'W') :
    16 ≤ (ps.getD w default).len :=
  hfix.header _ (getD_mem (by rw [hw]; decide))

/-! ## Steps that perform nothing -/

/-- A step that leaves the requests alone. -/
theorem Traced.quiet (hs : s.Traced rand_r ps h) (hheld : s.Held) (hquiet : Quiet c s t)
    (hfinish : ∀ w, (ps.getD w default).action = 'W' → (t.position w).finishTime ≠ 0 →
      (s.position w).finishTime ≠ 0)
    (hstored : ∀ w f, (ps.getD w default).action = 'W' → h.laid w = some f →
      Shows rand_r t.device (ps.getD w default).pos (ps.getD w default) f) (source : Nat → Nat → Nat) :
    t.Traced rand_r ps { h with source := source } := by
  refine ⟨fun r hr => ?_, fun w hw hf => hs.finished w hw (hfinish w hw hf), ?_, ?_, hstored, ?_⟩
  · rw [hquiet.kernel] at hr
    rw [hquiet.flying _ (hheld.in_flight hr)]
    exact hs.unfinished r hr
  · rw [hquiet.kernel]
    exact hs.performed
  · rw [hquiet.kernel]
    exact hs.seen
  · rw [hquiet.kernel, hquiet.readdata]
    exact hs.got

/-- A step that also leaves the device and the times alone. -/
theorem Traced.still (hs : s.Traced rand_r ps h) (hheld : s.Held) (hquiet : Quiet c s t)
    (hfinish : ∀ w, (t.position w).finishTime ≠ 0 → (s.position w).finishTime ≠ 0)
    (hdevice : t.device = s.device) (source : Nat → Nat → Nat) :
    t.Traced rand_r ps { h with source := source } :=
  hs.quiet hheld hquiet (fun w _ => hfinish w) (hdevice ▸ hs.stored) source

theorem nextpos_still (c : Arguments) (s : Engine) :
    (s.nextpos c).device = s.device ∧ ∀ i, (s.nextpos c).position i = s.position i := by
  obtain ⟨pos, phase, h⟩ := nextpos_eq c s
  rw [h]
  exact ⟨rfl, fun _ => rfl⟩

theorem Traced.nextpos (hs : s.Traced rand_r ps h) (hheld : s.Held) :
    (s.nextpos c).Traced rand_r ps h := by
  obtain ⟨hdevice, hposition⟩ := nextpos_still c s
  exact hs.still hheld (quiet_nextpos c s) (fun w hf => by rwa [hposition] at hf) hdevice h.source

/-- A trim touches no write. -/
theorem Traced.trim (hs : s.Traced rand_r ps h) (hfix : Fixed c ps) (hheld : s.Held)
    (hsame : ∀ i, Same c (ps.getD i default) (s.position i))
    (hidle : (s.position s.pos).inFlight = false) (hT : (s.position s.pos).action = 'T')
    (now done : ℚ≥0) (left : List UInt8) (source : Nat → Nat → Nat) :
    (s.trim c now done left).Traced rand_r ps { h with source := source } := by
  have hne : ∀ w, (ps.getD w default).action = 'W' → s.pos ≠ w := by
    rintro w hw rfl
    rw [hfix.action hsame, hw] at hT
    cases hT
  refine hs.quiet hheld (quiet_trim now done left hidle) (fun w hw hf => ?_) (fun w f hw hlaid => ?_) source
  · unfold Engine.trim at hf
    split at hf
    · refine fun h0 => hf (Eq.trans (congrArg positionType.finishTime ?_) h0)
      exact position_put_ne (s := s) (hne w hw)
    · exact hf
  · have hstored := hs.stored w f hw hlaid
    unfold Engine.trim
    split
    · refine hstored.write (write_header hfix hw) ?_
      have hapart := hfix.separate w s.pos hw (hne w hw) (Or.inr (by rw [← hfix.action hsame]; exact hT))
      have hlen : (left.take (s.position s.pos).len).length ≤ (ps.getD s.pos default).len := by
        rw [List.length_take, (hsame s.pos).len]
        omega
      rw [(hsame s.pos).pos]
      unfold Overlap at hapart ⊢
      omega
    · exact hstored

theorem taken_put_finishTime (s : Engine) (hpos : s.pos < s.positions.length) (i : Nat) :
    ((s.taken_put c).position i).finishTime = (s.position i).finishTime := by
  by_cases hi : s.pos = i
  · subst hi
    obtain ⟨action, verify, h⟩ := taken_eq c s
    have hself : (s.taken_put c).position s.pos = s.taken c := position_put_self hpos
    rw [hself, h]
  · exact congrArg positionType.finishTime (position_put_ne hi)

/-- A request that is set up. -/
theorem Traced.ready (hs : s.Traced rand_r ps h) (hcons : s.Conserved) (hopen : s.Open)
    (hu : Ready rand_r c s.begun u) (source : Nat → Nat → Nat) :
    u.Traced rand_r ps { h with source := source } := by
  obtain ⟨hquiet, -, -⟩ := hcons.ready hopen hu
  refine hs.still hcons.held hquiet (fun w hf => ?_) hu.rest.2 source
  rw [hu.finishTime hcons.pos w] at hf
  exact hf

/-- A request that is refused has not finished. -/
theorem Traced.refused (hs : s.Traced rand_r ps h) (hheld : s.Held) (hquiet : Quiet c s s.refused)
    (hlt : s.pos < s.positions.length) : s.refused.Traced rand_r ps h := by
  refine hs.still hheld hquiet (fun w hf => ?_) rfl h.source
  by_cases hw : s.pos = w
  · subst hw
    have hself : s.refused.position s.pos = { s.position s.pos with
        submitTime := 0, finishTime := 0, inFlight := false, success := 2 } := position_put_self hlt
    rw [hself] at hf
    exact absurd rfl hf
  · have hne : s.refused.position w = s.position w := position_put_ne hw
    rwa [hne] at hf

/-- A request that is accepted sees the positions as they are. -/
theorem Traced.accepted (hs : s.Traced rand_r ps h) (hheld : s.Held)
    (hidle : (s.position s.pos).inFlight = false) (hlt : s.pos < s.positions.length)
    (hdata : (s.cbs.getD s.head_slot default).data = s.pos) (now : ℚ≥0) :
    (s.accepted now).Traced rand_r ps h := by
  have hself : (s.accepted now).position s.pos = { s.position s.pos with
      submitTime := now, finishTime := 0, inFlight := true } := position_put_self hlt
  have hother : ∀ i, s.pos ≠ i → (s.accepted now).position i = s.position i :=
    fun i hi => position_put_ne hi
  have hnew : ∀ r ∈ (s.accepted now).kernel, r ∈ s.kernel ∨
      r.cb.data = s.pos ∧ r.performed = false ∧ r.seen = s.positions := by
    intro r hr
    obtain hr | hr := List.mem_append.mp hr
    · exact Or.inl hr
    · rw [List.mem_singleton.mp hr]
      exact Or.inr ⟨hdata, rfl, rfl⟩
  refine ⟨fun r hr => ?_, fun w hw hf => ?_, fun r hr hop hperf => ?_, fun r hr w hw hf => ?_,
    hs.stored, fun r hr hop hperf => ?_⟩
  · obtain hr | ⟨hat, -⟩ := hnew r hr
    · have hne : s.pos ≠ r.cb.data := fun heq => by
        have hfly := hheld.in_flight hr
        rw [← heq, hidle] at hfly
        cases hfly
      rw [hother _ hne]
      exact hs.unfinished r hr
    · rw [hat, hself]
  · by_cases hwpos : s.pos = w
    · rw [← hwpos, hself] at hf
      exact absurd rfl hf
    · rw [hother w hwpos] at hf
      exact hs.finished w hw hf
  · obtain hr | ⟨-, hnot, -⟩ := hnew r hr
    · exact hs.performed r hr hop hperf
    · rw [hnot] at hperf
      cases hperf
  · obtain hr | ⟨-, hnot, hseen⟩ := hnew r hr
    · exact hs.seen r hr w hw hf
    · rw [hseen] at hf
      refine ⟨hs.finished w hw hf, fun _ hperf => ?_⟩
      rw [hnot] at hperf
      cases hperf
  · obtain hr | ⟨-, hnot, -⟩ := hnew r hr
    · exact hs.got r hr hop hperf
    · rw [hnot] at hperf
      cases hperf

theorem Traced.turn (hs : s.Traced rand_r ps h) (hfix : Fixed c ps)
    (hsame : ∀ i, Same c (ps.getD i default) (s.position i)) (hcons : s.Conserved) {a : Answers}
    (hturn : Turn rand_r c a s t) (source : Nat → Nat → Nat) :
    t.Traced rand_r ps { h with source := source } := by
  have hheld := hcons.held
  have hnone : ∀ w, (s.position w).finishTime ≠ 0 → (s.position w).finishTime ≠ 0 := fun _ h => h
  cases hturn with
  | stop n phase =>
    exact hs.still hheld (quiet_counters c s n phase s.count s.ioerrors s.pos) hnone rfl source
  | pass n =>
    have hquiet : Quiet c s { s with submitthisround := n } := quiet_counters c _ _ _ _ _ _
    exact (hs.still hheld hquiet hnone rfl source).nextpos (hheld.quiet hquiet)
  | trim hopen hT =>
    have hbegun := hs.still hheld (quiet_begun (c := c) s) hnone rfl source
    have hquiet : Quiet c s (s.begun.trim c a.now a.done a.left) :=
      (quiet_begun s).trans (quiet_trim a.now a.done a.left hopen.idle)
    exact (hbegun.trim hfix (hheld.quiet (quiet_begun (c := c) s)) hsame hopen.idle hT a.now a.done
      a.left source).nextpos (hheld.quiet hquiet)
  | skip pos hopen =>
    have hput : Quiet c s (s.begun.taken_put c) := (quiet_begun s).trans (quiet_taken_put hopen.idle)
    have hquiet : Quiet c s { s.begun.taken_put c with pos := pos } :=
      hput.trans (quiet_counters c _ _ _ _ _ _)
    refine (hs.still hheld hquiet (fun w hf => ?_) rfl source).nextpos (hheld.quiet hquiet)
    have hfinish := taken_put_finishTime (c := c) s.begun hcons.pos w
    exact fun h0 => hf (hfinish.trans h0)
  | @limit u hopen hu =>
    obtain ⟨hquiet, -, -⟩ := hcons.ready hopen hu
    exact (hs.ready hcons hopen hu source).still (hheld.quiet hquiet)
      (quiet_counters c u u.submitthisround .drain u.count u.ioerrors u.pos) (fun _ h => h) rfl source
  | @refuse u hopen hu =>
    obtain ⟨hquiet, -, hlt⟩ := hcons.ready hopen hu
    have hrefused : Quiet c u u.refused := quiet_refused (hcons.ready_idle hopen hu)
    have hready := hs.ready hcons hopen hu source
    exact (hready.refused (hheld.quiet hquiet) hrefused hlt).nextpos
      ((hheld.quiet hquiet).quiet hrefused)
  | @give_up u hopen hu =>
    obtain ⟨hquiet, -, hlt⟩ := hcons.ready hopen hu
    have hrefused : Quiet c u u.refused := quiet_refused (hcons.ready_idle hopen hu)
    have hready := (hs.ready hcons hopen hu source).refused (hheld.quiet hquiet) hrefused hlt
    exact hready.still ((hheld.quiet hquiet).quiet hrefused) (quiet_counters c u.refused
      u.submitthisround .drain u.count (u.ioerrors + 1) u.pos) (fun _ h => h) rfl source
  | @accept u hopen hu =>
    obtain ⟨hquiet, -, hlt⟩ := hcons.ready hopen hu
    have hidle := hcons.ready_idle hopen hu
    have hready := hs.ready hcons hopen hu source
    have hdata := (hcons.block hopen hu).2.1
    exact (hready.accepted (hheld.quiet hquiet) hidle hlt hdata a.now).nextpos
      (hcons.accept hopen hu a.now).held

/-! ## Completion -/

/-- An entry has finished: before the events of a step, or as one of the first of them. -/
def Reported (s : Engine) (now : ℚ≥0) (before : List io_event) (v : Nat) : Prop :=
  (s.position v).finishTime ≠ 0 ∨
    now ≠ 0 ∧ ∃ e ∈ before, ∃ r ∈ s.kernel, r.obj = e.obj ∧ r.cb.data = v

instance (s : Engine) (now : ℚ≥0) (before : List io_event) (v : Nat) :
    Decidable (s.Reported now before v) := inferInstanceAs (Decidable (_ ∨ _ ∧ _))

/-- The entry that a request verifies can be named, and has finished. -/
def Named (s : Engine) (now : ℚ≥0) (before : List io_event) (r : Request) : Prop :=
  (s.position r.cb.data).verify ≠ 0 ∧ (s.position r.cb.data).verify < s.positions.length ∧
    s.Reported now before (s.position r.cb.data).verify

instance (s : Engine) (now : ℚ≥0) (before : List io_event) (r : Request) :
    Decidable (s.Named now before r) := inferInstanceAs (Decidable (_ ∧ _ ∧ _))

/-- What has finished after some of the events of a step. -/
structure Handled (s : Engine) (now : ℚ≥0) (before : List io_event) (u : Engine) : Prop where
  kernel : ∀ r ∈ u.kernel, r ∈ s.kernel
  finished : ∀ v, (u.position v).finishTime ≠ 0 ↔ s.Reported now before v
  verify : ∀ v, (u.position v).verify = (s.position v).verify
  length : u.positions.length = s.positions.length

theorem Handled.first (s : Engine) (now : ℚ≥0) : s.Handled now [] s :=
  ⟨fun _ hr => hr, fun v => by simp [Reported], fun _ => rfl, rfl⟩

theorem Held.obj_inj (hs : s.Held) {r r' : Request} (hr : r ∈ s.kernel) (hr' : r' ∈ s.kernel)
    (hobj : r.obj = r'.obj) : r = r' :=
  List.inj_on_of_nodup_map hs.slots_nodup hr hr' hobj

theorem Handled.completed {now : ℚ≥0} {before : List io_event} {e : io_event} {r : Request}
    (hu : s.Handled now before u) (hs : s.Held) (hheld : u.Held)
    (hunfinished : ∀ r ∈ s.kernel, (s.position r.cb.data).finishTime = 0)
    (h : Completed c u now e r t) : s.Handled now (before ++ [e]) t := by
  have hmem := hu.kernel r h.mem
  have hlt : r.cb.data < u.positions.length := lt_of_in_flight (hheld.in_flight h.mem)
  obtain ⟨success, hself⟩ := h.position_self hlt
  refine ⟨fun r' hr' => ?_, fun v => ?_, fun v => ?_, h.positions_length.trans hu.length⟩
  · exact hu.kernel r' ((h.perm hheld).mem_iff.mpr (List.mem_cons_of_mem _ hr'))
  · by_cases hv : r.cb.data = v
    · subst hv
      rw [hself]
      refine ⟨fun hnow => Or.inr ⟨hnow, e, by simp, r, hmem, h.obj, rfl⟩, fun hreported => ?_⟩
      exact (hreported.resolve_left fun hf => hf (hunfinished r hmem)).1
    · rw [h.position_ne hv, hu.finished v]
      refine or_congr_right (and_congr_right fun _ => ⟨?_, ?_⟩)
      · rintro ⟨e', he', h'⟩
        exact ⟨e', List.mem_append_left _ he', h'⟩
      · rintro ⟨e', he', r', hr', hobj, hdata⟩
        obtain he' | he' := List.mem_append.mp he'
        · exact ⟨e', he', r', hr', hobj, hdata⟩
        · rw [List.mem_singleton.mp he'] at hobj
          obtain rfl := hs.obj_inj hr' hmem (hobj.trans h.obj.symm)
          exact absurd hdata hv
  · by_cases hv : r.cb.data = v
    · subst hv
      rw [hself]
      exact hu.verify _
    · rw [h.position_ne hv]
      exact hu.verify v

/-- A read-back that has found its write has got the bytes that its slot was filled with, where
the two were filled for the same seed. -/
theorem Traced.read_data (hs : s.Traced rand_r ps h) (hf : s.Filled rand_r c ps h.source)
    (hheld : s.Held) {r : Request} (hr : r ∈ s.kernel) (hread : r.cb.opcode = .pread)
    (hperf : r.performed = true) {w : Nat} (hw : ReadsBack ps r.cb.data w)
    (hsaw : h.saw r.obj w = some f)
    (hseeds : ∀ j < (s.position w).len, 16 ≤ j → f j = h.source r.obj j) :
    s.readdata.read (r.cb.buf + headerSize) ((s.position r.cb.data).len - headerSize) =
      s.data.read (r.cb.buf + headerSize) ((s.position r.cb.data).len - headerSize) := by
  have hgot := hs.got r hr hread hperf w f hw hsaw
  obtain ⟨hbuf, hnbytes⟩ := hheld.buffers r hr (Or.inl hread)
  have hlen := ((hheld.described r hr).extent (Or.inl hread)).1
  have hwlen : (s.position w).len = (s.position r.cb.data).len := by
    rw [(hf.same w).len, (hf.same r.cb.data).len, hw.len]
  unfold Memory.read headerSize
  apply List.map_congr_left
  intro j hj
  rw [List.mem_range] at hj
  have hj' : 16 + j < (ps.getD r.cb.data default).len := by
    rw [← (hf.same r.cb.data).len]
    omega
  rw [Nat.add_assoc, hgot.2 (16 + j) (by omega) hj', hbuf,
    hf.filled r.obj (hheld.obj_lt hr) (16 + j) (by omega) (by omega),
    hseeds (16 + j) (by omega) (by omega)]

/-- What the comparison of a read-back says: there is one if the entry that the read verifies is
named, and it finds the write that the read has found, if its bytes are those expected. -/
theorem Traced.comparison (hs : s.Traced rand_r ps h) (hf : s.Filled rand_r c ps h.source)
    (hfix : Fixed c ps) (hheld : s.Held) {r : Request} (hr : r ∈ s.kernel)
    (hperf : r.performed = true) {w : Nat} (hw : ReadsBack ps r.cb.data w) :
    let v := (s.position r.cb.data).verify
    let named := v ≠ 0 ∧ v < s.positions.length ∧ (s.position v).finishTime ≠ 0
    (¬ named → s.comparison c r.cb.data = none) ∧
    ∀ f, named → h.saw r.obj w = some f → (c.stringcompare = true → ∀ j < (s.position w).len,
      16 ≤ j → f j = h.source r.obj j) → s.comparison c r.cb.data = some false := by
  dsimp only
  have haction : (s.position r.cb.data).action = 'R' := (hfix.action hf.same _).trans hw.read
  have hread : r.cb.opcode = .pread := (hheld.described r hr).read.mpr haction
  refine ⟨fun hnot => ?_, fun f hnamed hsaw hmeets => ?_⟩
  · unfold Engine.comparison
    dsimp only
    split
    · rfl
    · rename_i h0
      push Not at h0
      refine if_pos ?_
      by_contra hne
      push Not at hne
      exact hnot ⟨h0.1, by omega, hne.2⟩
  · obtain ⟨hv0, hlt, hfinish⟩ := hnamed
    have hgot := hs.got r hr hread hperf w f hw hsaw
    obtain ⟨hbuf, -⟩ := hheld.buffers r hr (Or.inl hread)
    have hsame := hf.same r.cb.data
    have h16 : 16 ≤ (s.position r.cb.data).len := by
      rw [hsame.len]
      exact hfix.header _ (getD_mem (by rw [hw.read]; decide))
    have hq : s.buffer (s.position r.cb.data).q = r.cb.buf := by
      rw [hheld.named r hr, hbuf]
    have hpos : bytes.of_le (s.readdata.read r.cb.buf 8) = (s.position r.cb.data).pos := by
      have hbound := hfix.bound _ (getD_mem (by rw [hw.read]; decide))
      rw [hgot.1, bytes.of_le_le_of_lt (by omega), hsame.pos]
    unfold Engine.comparison
    dsimp only
    rw [if_neg (by simp [hv0, haction]), if_neg (by simp [hfinish]; omega),
      if_neg (by unfold headerSize; omega), hq, hpos]
    by_cases hcmp : c.stringcompare = true
    · rw [hs.read_data hf hheld hr hread hperf hw hsaw (hmeets hcmp)]
      simp
    · simp [hcmp]

/-- What the device answers: a request is reported once it has been performed, and in
full. -/
def Faithful (s : Engine) : Input → Prop
  | .events _ events => ∀ e ∈ events, ∀ r ∈ s.kernel, r.obj = e.obj → r.performed = true ∧
      (r.cb.opcode = .pread ∨ r.cb.opcode = .pwrite → e.res = r.cb.nbytes ∧ e.res2 = 0)
  | _ => True

instance (s : Engine) : (input : Input) → Decidable (Faithful s input)
  | .events _ events => inferInstanceAs (Decidable (∀ e ∈ events, ∀ r ∈ s.kernel, r.obj = e.obj →
      r.performed = true ∧
      (r.cb.opcode = .pread ∨ r.cb.opcode = .pwrite → e.res = r.cb.nbytes ∧ e.res2 = 0)))
  | .turn _ _ => isTrue trivial
  | .submit _ => isTrue trivial
  | .perform _ => isTrue trivial

theorem Traced.completed (hs : s.Traced rand_r ps h) (hfix : Fixed c ps)
    (hsame : ∀ i, Same c (ps.getD i default) (s.position i)) (hheld : s.Held) {now : ℚ≥0}
    {e : io_event} {r : Request} (hr : Completed c s now e r t) (hperf : r.performed = true) :
    t.Traced rand_r ps h := by
  have hsub : ∀ r' ∈ t.kernel, r' ∈ s.kernel :=
    fun r' hr' => (hr.perm hheld).mem_iff.mpr (List.mem_cons_of_mem _ hr')
  refine ⟨fun r' hr' => ?_, fun w hw hf => ?_, fun r' hr' => hs.performed r' (hsub r' hr'),
    fun r' hr' => hs.seen r' (hsub r' hr'), ?_, fun r' hr' => ?_⟩
  · rw [hr.position_ne (hr.data_ne hheld hr')]
    exact hs.unfinished r' (hsub r' hr')
  · by_cases hdata : r.cb.data = w
    · subst hdata
      have hwrite : r.cb.opcode = .pwrite :=
        (hheld.described r hr.mem).write.mpr ((hfix.action hsame _).trans hw)
      exact hs.performed r hr.mem hwrite hperf
    · rw [hr.position_ne hdata] at hf
      exact hs.finished w hw hf
  · rw [hr.device]
    exact hs.stored
  · rw [hr.readdata]
    exact hs.got r' (hsub r' hr')

/-- A completion reports no mismatch, and the read of a write that had finished when it was
submitted is compared; `R j w` says that the position at `j` is there to read back the write at `w`. -/
def Right (R : Nat → Nat → Prop) (k : Check) : Prop :=
  k.mismatch ≠ some true ∧ ∀ w, R k.index w →
    (k.request.seen.getD w default).finishTime ≠ 0 → k.mismatch = some false

/-- What the report of a request asks for, that reads back the write at `w`: the entry that it
verifies has finished if its write had when it was submitted; where the entry has, the device had
performed the write when it performed the read; and the bytes that are compared were filled for the
seeds of those that were found. -/
def Answered (c : Arguments) (h : Story) (s : Engine) (now : ℚ≥0) (before : List io_event)
    (r : Request) (w : Nat) : Prop :=
  ((r.seen.getD w default).finishTime ≠ 0 → s.Named now before r) ∧
  (s.Named now before r →
    ((r.seen.getD w default).finishTime ≠ 0 ∨ (h.saw r.obj w).isSome = true) ∧
    (c.stringcompare = true → ∀ f ∈ h.saw r.obj w, ∀ j < (s.position w).len, 16 ≤ j →
      f j = h.source r.obj j))

instance (c : Arguments) (h : Story) (s : Engine) (now : ℚ≥0) (before : List io_event)
    (r : Request) (w : Nat) : Decidable (Answered c h s now before r w) :=
  inferInstanceAs (Decidable ((_ → _) ∧ (_ → _ ∧ (_ → _))))

/-- What a step asks of its input. -/
def Verifies (c : Arguments) (R : Nat → Nat → Prop) (h : Story) (s : Engine) : Input → Prop
  | .submit a => s.Prepares c a → s.Contained c
  | .events now events => ∀ n < events.length, ∀ e ∈ events[n]?, ∀ r ∈ s.kernel, r.obj = e.obj →
      ∀ w, R r.cb.data w → Answered c h s now (events.take n) r w
  | _ => True

/-- The pairs of a list: the position at `j` reads back the write at `w`, and no other position
verifies anything. -/
structure Paired (R : Nat → Nat → Prop) (ps : List positionType) : Prop where
  back : ∀ j w, R j w → ReadsBack ps j w
  verify : ∀ j, (ps.getD j default).verify ≠ 0 → ∃ w, R j w

variable {R : Nat → Nat → Prop}

/-- What a completion adds to the log, for an event that meets the condition. -/
theorem Traced.right (hs : s.Traced rand_r ps h) (hf : s.Filled rand_r c ps h.source)
    (hfix : Fixed c ps) (hpairs : Paired R ps) (hheld : s.Held) {u : Engine} {now : ℚ≥0}
    {before : List io_event} {e : io_event} (hu : u.Handled now before s)
    (husame : ∀ i, Same c (ps.getD i default) (u.position i)) {r : Request}
    (hr : Completed c s now e r t) (hperf : r.performed = true)
    (hres : r.cb.opcode = .pread ∨ r.cb.opcode = .pwrite → e.res = r.cb.nbytes ∧ e.res2 = 0)
    (hmeets : ∀ w, R r.cb.data w → Answered c h u now before r w) :
    Right R ⟨r.cb.data, r.obj, r,
      if transferred e (s.position r.cb.data) then s.comparison c r.cb.data else none⟩ := by
  by_cases hback : ∃ w, R r.cb.data w
  · obtain ⟨w₀, hw₀⟩ := hback
    have haction : (s.position r.cb.data).action = 'R' :=
      (hfix.action hf.same _).trans (hpairs.back _ _ hw₀).read
    have hread : r.cb.opcode = .pread := (hheld.described r hr.mem).read.mpr haction
    obtain ⟨hlen, -⟩ := (hheld.described r hr.mem).extent (Or.inl hread)
    obtain ⟨hfull, hfull2⟩ := hres (Or.inl hread)
    have htransferred : transferred e (s.position r.cb.data) = true := by
      unfold transferred
      rw [hfull, hfull2, hlen]
      simp
    rw [htransferred, if_pos rfl]
    -- the entry is named for the engine if and only if it is for the condition
    have hnamed : u.Named now before r ↔ (s.position r.cb.data).verify ≠ 0 ∧
        (s.position r.cb.data).verify < s.positions.length ∧
        (s.position (s.position r.cb.data).verify).finishTime ≠ 0 := by
      unfold Named
      rw [hu.verify, hu.length, hu.finished]
    have hfound : ∀ w, R r.cb.data w → u.Named now before r →
        s.comparison c r.cb.data = some false := by
      intro w hw hname
      have hwrite := (hpairs.back _ _ hw).write
      obtain ⟨hsaw, hbytes⟩ := (hmeets w hw).2 hname
      have hsome : h.saw r.obj w ≠ none := by
        obtain hseen | hsome := hsaw
        · exact (hs.seen r hr.mem w hwrite hseen).2 hread hperf
        · exact Option.isSome_iff_ne_none.mp hsome
      obtain ⟨f, hf'⟩ := Option.ne_none_iff_exists'.mp hsome
      refine (hs.comparison hf hfix hheld hr.mem hperf (hpairs.back _ _ hw)).2 f (hnamed.mp hname) hf'
        fun hcmp j h1 h2 => hbytes hcmp f hf' j ?_ h2
      rw [(husame w).len, ← (hf.same w).len]
      exact h1
    refine ⟨fun hmismatch => ?_, fun w hw hseen => hfound w hw ((hmeets w hw).1 hseen)⟩
    dsimp only at hmismatch
    by_cases hname : u.Named now before r
    · rw [hfound w₀ hw₀ hname] at hmismatch
      cases hmismatch
    · rw [(hs.comparison hf hfix hheld hr.mem hperf (hpairs.back _ _ hw₀)).1
        fun h => hname (hnamed.mpr h)] at hmismatch
      cases hmismatch
  · -- nothing is verified
    have hnone : s.comparison c r.cb.data = none := by
      unfold Engine.comparison
      refine if_pos ?_
      by_cases hR : (s.position r.cb.data).action = 'R'
      · left
        rw [(hf.same r.cb.data).verify hfix.alternate hR]
        by_contra hverify
        exact hback (hpairs.verify _ hverify)
      · exact Or.inr hR
    rw [hnone, ite_self]
    exact ⟨by simp, fun w hw => absurd ⟨w, hw⟩ hback⟩

/-! ## Every step -/

/-- The events of one step, on the story and the log. -/
theorem Traced.events (hs : s.Traced rand_r ps h) (hb : s.Buffered rand_r c ps h.source)
    (hfix : Fixed c ps) (hpairs : Paired R ps) {now : ℚ≥0} {events : List io_event}
    (hfaithful : Faithful s (.events now events)) (hmeets : Verifies c R h s (.events now events))
    (hevents : s.receive_all c now events = some t ∨ s.drain_turn c now events = some t) :
    t.Traced rand_r ps h ∧ ∀ k ∈ t.checks, k ∈ s.checks ∨ Right R k := by
  have hheld := hb.conserved.held
  have hrule := events_prefix_rule
    (P := fun before u => u.Filled rand_r c ps h.source ∧ u.Traced rand_r ps h ∧
      s.Handled now before u ∧ ∀ k ∈ u.checks, k ∈ s.checks ∨ Right R k) ?_ ?_ hheld
    ⟨hb.filled, hs, Handled.first s now, fun _ hk => Or.inl hk⟩ hevents
  · obtain ⟨handled, -, ht, -, hlog⟩ := hrule
    exact ⟨ht, hlog⟩
  · rintro before e after u v r rfl hu ⟨huf, htraced, hhandled, hlog⟩ hr
    have hmem := hhandled.kernel r hr.mem
    obtain ⟨hperf, hres⟩ := hfaithful e (by simp) r hmem hr.obj
    have hanswered : ∀ w, R r.cb.data w → Answered c h s now before r w := by
      have h := hmeets before.length (by simp) e (by simp) r hmem hr.obj
      rwa [List.take_left' rfl] at h
    refine ⟨huf.completed hu hr, htraced.completed hfix huf.same hu hr hperf,
      hhandled.completed hheld hu hs.unfinished hr, fun k hk => ?_⟩
    rw [hr.checks, List.mem_append, List.mem_singleton] at hk
    obtain hk | rfl := hk
    · exact hlog k hk
    · exact Or.inr (htraced.right huf hfix hpairs hu hhandled hb.filled.same hr hperf hres hanswered)
  · rintro before u n phase count errors ⟨huf, htraced, hhandled, hlog⟩
    exact ⟨⟨huf.length, huf.same, huf.size, huf.seeds, huf.filled, huf.headed, huf.past⟩,
      ⟨htraced.unfinished, htraced.finished, htraced.performed, htraced.seen, htraced.stored,
        htraced.got⟩,
      ⟨hhandled.kernel, hhandled.finished, hhandled.verify, hhandled.length⟩, hlog⟩

/-- The buffer of a write in flight shows what it writes. -/
theorem Buffered.shows (hb : s.Buffered rand_r c ps h.source) {r : Request} (hr : r ∈ s.kernel)
    (hop : r.cb.opcode = .pwrite) :
    Shows rand_r s.data r.cb.buf (ps.getD r.cb.data default) (h.source r.obj) := by
  have hheld := hb.conserved.held
  have hf := hb.filled
  have hsame := hf.same r.cb.data
  obtain ⟨hbuf, hnbytes⟩ := hheld.buffers r hr (Or.inr hop)
  have hlen := ((hheld.described r hr).extent (Or.inr hop)).1
  refine ⟨?_, fun j h1 h2 => ?_⟩
  · have hheaded := hf.headed r hr hop
    rw [show (16 : Nat) = 8 + 8 from rfl, Memory.read_append, hsame.pos] at hheaded
    exact (List.append_inj hheaded (by simp)).1
  · rw [← hsame.len] at h2
    rw [hbuf]
    exact hf.filled r.obj (hheld.obj_lt hr) j h1 (by omega)

theorem Held.find_performed (hs : s.Held) {r : Request} (hr : r ∈ s.kernel)
    (hperf : r.performed = false) :
    (s.kernel.find? fun r' => r'.obj = r.obj ∧ r'.performed = false) = some r := by
  cases hfind : s.kernel.find? fun r' => r'.obj = r.obj ∧ r'.performed = false with
  | none =>
    have h := List.find?_eq_none.mp hfind r hr
    simp [hperf] at h
  | some r' =>
    have hobj : r'.obj = r.obj ∧ r'.performed = false := by simpa using List.find?_some hfind
    rw [hs.obj_inj (List.mem_of_find?_eq_some hfind) hr hobj.1]

/-- A request is performed: the story goes on for it, and for the others it stays. -/
theorem Traced.marked (hs : s.Traced rand_r ps h) (hheld : s.Held) {h' : Story} {r : Request}
    (hr : r ∈ s.kernel) {device readdata : Memory} (hlaid : ∀ w, h.laid w ≠ none → h'.laid w ≠ none)
    (hwrite : r.cb.opcode = .pwrite → h'.laid r.cb.data ≠ none)
    (hsaw : ∀ obj, obj ≠ r.obj → h'.saw obj = h.saw obj)
    (hread : r.cb.opcode = .pread → h'.saw r.obj = h.laid)
    (hstored : ∀ w f, (ps.getD w default).action = 'W' → h'.laid w = some f →
      Shows rand_r device (ps.getD w default).pos (ps.getD w default) f)
    (hkept : ∀ r₀ ∈ s.kernel, r₀.obj ≠ r.obj → r₀.cb.opcode = .pread → ∀ f,
      Shows rand_r s.readdata r₀.cb.buf (ps.getD r₀.cb.data default) f →
      Shows rand_r readdata r₀.cb.buf (ps.getD r₀.cb.data default) f)
    (hgot : r.cb.opcode = .pread → ∀ w f, ReadsBack ps r.cb.data w → h.laid w = some f →
      Shows rand_r readdata r.cb.buf (ps.getD r.cb.data default) f) :
    Traced rand_r ps h' { s with
      kernel := marked_performed r.obj s.kernel, device := device, readdata := readdata } := by
  refine ⟨fun r' hr' => ?_, fun w hw hf => hlaid w (hs.finished w hw hf), fun r' hr' hop hperf => ?_,
    fun r' hr' w hw hf => ?_, hstored, fun r' hr' hop hperf w f hw hsome => ?_⟩
  · obtain ⟨r₀, hr₀, -, hcb, -⟩ := mem_marked_performed hr'
    rw [hcb]
    exact hs.unfinished r₀ hr₀
  · obtain ⟨r₀, hr₀, -, hcb, -, hmarked⟩ := mem_marked_performed hr'
    rw [hcb] at hop ⊢
    obtain hdone | hobj := hmarked.mp hperf
    · exact hlaid _ (hs.performed r₀ hr₀ hop hdone)
    · obtain rfl := hheld.obj_inj hr₀ hr hobj
      exact hwrite hop
  · obtain ⟨r₀, hr₀, hobj, hcb, hseen, hmarked⟩ := mem_marked_performed hr'
    rw [hseen] at hf
    rw [hcb, hobj]
    obtain ⟨hthere, hfound⟩ := hs.seen r₀ hr₀ w hw hf
    refine ⟨hlaid w hthere, fun hop hperf => ?_⟩
    by_cases hsame : r₀.obj = r.obj
    · obtain rfl := hheld.obj_inj hr₀ hr hsame
      rw [hread hop]
      exact hthere
    · rw [hsaw _ hsame]
      exact hfound hop ((hmarked.mp hperf).resolve_right hsame)
  · obtain ⟨r₀, hr₀, hobj, hcb, -, hmarked⟩ := mem_marked_performed hr'
    rw [hcb] at hop hw ⊢
    rw [hobj] at hsome
    by_cases hsame : r₀.obj = r.obj
    · obtain rfl := hheld.obj_inj hr₀ hr hsame
      rw [hread hop] at hsome
      exact hgot hop w f hw hsome
    · rw [hsaw _ hsame] at hsome
      exact hkept r₀ hr₀ hsame hop f
        (hs.got r₀ hr₀ hop ((hmarked.mp hperf).resolve_right hsame) w f hw hsome)

/-- What the device holds once it has performed a write, of that write and of the others. -/
theorem Traced.performed_write (hs : s.Traced rand_r ps h) (hb : s.Buffered rand_r c ps h.source)
    (hfix : Fixed c ps) {r : Request} (hr : r ∈ s.kernel) (hop : r.cb.opcode = .pwrite) {w : Nat}
    (hw : (ps.getD w default).action = 'W')
    (hlaid : Function.update h.laid r.cb.data (some (h.source r.obj)) w = some f) :
    Shows rand_r (s.device.write r.cb.offset (s.data.read r.cb.buf r.cb.nbytes))
      (ps.getD w default).pos (ps.getD w default) f := by
  have hdescribed := hb.conserved.held.described r hr
  have hsame := hb.filled.same r.cb.data
  have hW : (ps.getD r.cb.data default).action = 'W' :=
    (hfix.action hb.filled.same _).symm.trans (hdescribed.write.mp hop)
  obtain ⟨hlen, hpos⟩ := hdescribed.extent (Or.inr hop)
  rw [hlen, hpos, hsame.len, hsame.pos]
  by_cases hdata : w = r.cb.data
  · subst hdata
    rw [Function.update_self] at hlaid
    obtain rfl := Option.some.inj hlaid
    exact (hb.shows hr hop).copy (write_header hfix hW)
  · rw [Function.update_of_ne hdata] at hlaid
    refine (hs.stored w f hw hlaid).write (write_header hfix hw) ?_
    rw [Memory.read_length]
    exact hfix.separate w r.cb.data hw (Ne.symm hdata) (Or.inl hW)

/-- What a read gets of a write that the device has performed. -/
theorem Traced.performed_read (hs : s.Traced rand_r ps h) (hb : s.Buffered rand_r c ps h.source)
    (hfix : Fixed c ps) {r : Request} (hr : r ∈ s.kernel) (hop : r.cb.opcode = .pread) {w : Nat}
    (hw : ReadsBack ps r.cb.data w) (hlaid : h.laid w = some f) :
    Shows rand_r (s.readdata.write r.cb.buf (s.device.read r.cb.offset r.cb.nbytes)) r.cb.buf
      (ps.getD r.cb.data default) f := by
  have hsame := hb.filled.same r.cb.data
  obtain ⟨hlen, hpos⟩ := (hb.conserved.held.described r hr).extent (Or.inl hop)
  have hstored : Shows rand_r s.device (ps.getD r.cb.data default).pos
      (ps.getD r.cb.data default) f := by
    have hshows := hs.stored w f hw.write hlaid
    unfold Shows at hshows ⊢
    rw [hw.pos, hw.len]
    exact hshows
  rw [hlen, hpos, hsame.len, hsame.pos]
  exact hstored.copy (hfix.header _ (getD_mem (by rw [hw.read]; decide)))

/-- A read leaves the buffers of the other slots alone. -/
theorem Buffered.read_apart (hb : s.Buffered rand_r c ps h.source) (hfix : Fixed c ps)
    {r r₀ : Request} (hr : r ∈ s.kernel) (hr₀ : r₀ ∈ s.kernel) (hne : r₀.obj ≠ r.obj)
    (hop : r.cb.opcode = .pread) (hop₀ : r₀.cb.opcode = .pread)
    (hshows : Shows rand_r s.readdata r₀.cb.buf (ps.getD r₀.cb.data default) f) (bs : List UInt8)
    (hbs : bs.length = r.cb.nbytes) :
    Shows rand_r (s.readdata.write r.cb.buf bs) r₀.cb.buf (ps.getD r₀.cb.data default) f := by
  have hheld := hb.conserved.held
  have haction : (ps.getD r₀.cb.data default).action = 'R' :=
    (hfix.action hb.filled.same _).symm.trans ((hheld.described r₀ hr₀).read.mp hop₀)
  have hlen₀ := ((hheld.described r₀ hr₀).extent (Or.inl hop₀)).1
  rw [(hb.filled.same _).len] at hlen₀
  refine hshows.write (hfix.header _ (getD_mem (by rw [haction]; decide))) ?_
  obtain ⟨hbuf, hfits⟩ := hheld.buffers r hr (Or.inl hop)
  obtain ⟨hbuf₀, hfits₀⟩ := hheld.buffers r₀ hr₀ (Or.inl hop₀)
  have hapart := buffer_apart (s := s) hne
  rw [hbs, hbuf, hbuf₀, ← hlen₀]
  unfold Overlap at hapart ⊢
  omega

/-- What the device performs, the story tells. -/
theorem Traced.perform (hs : s.Traced rand_r ps h) (hb : s.Buffered rand_r c ps h.source)
    (hfix : Fixed c ps) {obj : Nat} (hperform : s.perform obj = some t) :
    t.Traced rand_r ps (h.performs s obj) := by
  have hheld := hb.conserved.held
  obtain ⟨r, hr, rfl, hnot, device, readdata, rfl, hdevice, hreaddata⟩ := perform_cases hperform
  unfold Story.performs
  rw [hheld.find_performed hr hnot]
  dsimp only
  by_cases hwrite : r.cb.opcode = .pwrite
  · have hnotread : r.cb.opcode ≠ .pread := by simp [hwrite]
    rw [if_pos hwrite] at hdevice ⊢
    rw [if_neg hnotread] at hreaddata
    subst hdevice hreaddata
    refine hs.marked hheld hr (fun w hw => ?_) (fun _ => by simp) (fun _ _ => rfl)
      (fun hop => absurd hop hnotread) (fun w f hw hlaid => hs.performed_write hb hfix hr hwrite hw hlaid)
      (fun _ _ _ _ _ hshows => hshows) fun hop => absurd hop hnotread
    by_cases hdata : w = r.cb.data
    · simp [hdata]
    · simpa [hdata] using hw
  · rw [if_neg hwrite] at hdevice ⊢
    by_cases hread : r.cb.opcode = .pread
    · rw [if_pos hread] at hreaddata ⊢
      subst hdevice hreaddata
      refine hs.marked hheld hr (fun _ hw => hw) (fun hop => absurd hop hwrite) (fun obj hne => ?_)
        (fun _ => Function.update_self _ _ _) hs.stored (fun r₀ hr₀ hne hop f hshows => ?_)
        fun _ w f hw hlaid => hs.performed_read hb hfix hr hread hw hlaid
      · exact Function.update_of_ne hne _ _
      · exact hb.read_apart hfix hr hr₀ hne hread hop hshows _ (by simp)
    · rw [if_neg hread] at hreaddata ⊢
      subst hdevice hreaddata
      exact hs.marked hheld hr (fun _ hw => hw) (fun hop => absurd hop hwrite) (fun _ _ => rfl)
        (fun hop => absurd hop hread) hs.stored (fun _ _ _ _ _ hshows => hshows)
        fun hop => absurd hop hread

/-- A turn of the submit loop adds nothing to the log. -/
theorem Conserved.turn_checks (hs : s.Conserved) {a : Answers} (hturn : Turn rand_r c a s t) :
    t.checks = s.checks := by
  cases hturn with
  | stop n phase => rfl
  | pass n => exact (Engine.quiet_nextpos c _).checks
  | trim hopen =>
    exact (Engine.quiet_nextpos c _).checks.trans
      ((quiet_begun (c := c) s).trans (quiet_trim a.now a.done a.left hopen.idle)).checks
  | skip pos hopen => exact (Engine.quiet_nextpos c _).checks
  | limit hopen hu => exact (hs.ready hopen hu).1.checks
  | refuse hopen hu => exact (Engine.quiet_nextpos c _).checks.trans (hs.ready hopen hu).1.checks
  | give_up hopen hu => exact (hs.ready hopen hu).1.checks
  | accept hopen hu => exact (Engine.quiet_nextpos c _).checks.trans (hs.ready hopen hu).1.checks

/-- One step, on the buffers, the story and the log. -/
theorem Traced.step (hs : s.Traced rand_r ps h) (hb : s.Buffered rand_r c ps h.source)
    (hfix : Fixed c ps) (hpairs : Paired R ps) {input : Input} (hfaithful : Faithful s input)
    (hmeets : Verifies c R h s input) (hstep : s.step rand_r c input = some t) :
    t.Buffered rand_r c ps (Story.note s input t h).source ∧
      t.Traced rand_r ps (Story.note s input t h) ∧ ∀ k ∈ t.checks, k ∈ s.checks ∨ Right R k := by
  have hheld := hb.conserved.held
  have hcontains : s.Contains c input := by
    cases input with
    | submit a => exact hmeets
    | _ => trivial
  refine ⟨hb.step hcontains hstep, ?_⟩
  cases step_moves hstep with
  | turn keepRunning due n phase =>
    refine ⟨?_, fun _ hk => Or.inl hk⟩
    exact hs.still hheld (quiet_counters c s n phase s.count s.ioerrors s.pos) (fun _ h => h) rfl _
  | submit hturn =>
    refine ⟨hs.turn hfix hb.filled.same hb.conserved hturn _, fun k hk => Or.inl ?_⟩
    rw [← hb.conserved.turn_checks hturn]
    exact hk
  | receive hall =>
    obtain ⟨htraced, hlog⟩ := hs.events hb hfix hpairs hfaithful hmeets (Or.inl hall)
    exact ⟨htraced.filled _, hlog⟩
  | drain hdrain =>
    obtain ⟨htraced, hlog⟩ := hs.events hb hfix hpairs hfaithful hmeets (Or.inr hdrain)
    exact ⟨htraced.filled _, hlog⟩
  | perform hperform =>
    have htraced := hs.perform hb hfix hperform
    obtain ⟨r, -, -, -, device, readdata, rfl, -⟩ := perform_cases hperform
    exact ⟨htraced.filled _, fun _ hk => Or.inl hk⟩

/-- Every completion of a run whose steps meet the condition is right. -/
theorem Traced.run {inputs : List Input} (hs : s.Traced rand_r ps h)
    (hb : s.Buffered rand_r c ps h.source) (hfix : Fixed c ps) (hpairs : Paired R ps)
    (hlog : ∀ k ∈ s.checks, Right R k)
    (hfaithful : machine.Along (Engine.step rand_r c) Faithful s inputs)
    (hmeets : machine.Along (following rand_r c) (fun s => Verifies c R s.2 s.1) (s, h) inputs)
    (hrun : machine.run (Engine.step rand_r c) s inputs = some t) : ∀ k ∈ t.checks, Right R k := by
  have hstep : ∀ (u : Engine) (h : Story) (input : Input) (v : Engine),
      (u.Buffered rand_r c ps h.source ∧ u.Traced rand_r ps h ∧ ∀ k ∈ u.checks, Right R k) →
      (Faithful u input ∧ Verifies c R h u input) → Engine.step rand_r c u input = some v →
      v.Buffered rand_r c ps (Story.note u input v h).source ∧
        v.Traced rand_r ps (Story.note u input v h) ∧ ∀ k ∈ v.checks, Right R k := by
    rintro u h input v ⟨hb, hs, hlog⟩ ⟨hfaithful, hmeets⟩ hstep
    obtain ⟨hb', hs', hnew⟩ := hs.step hb hfix hpairs hfaithful hmeets hstep
    exact ⟨hb', hs', fun k hk => (hnew k hk).elim (hlog k) id⟩
  obtain ⟨h', -, -, hlog⟩ := machine.noted_invariant hstep hrun ((hfaithful.noted h).and hmeets)
    ⟨hb, hs, hlog⟩
  exact hlog

end Engine

end stutools.spit
