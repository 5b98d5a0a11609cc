-- A streamed run on a device. The device performs each request at one
-- instant between its issue and its completion, in any order, and each write
-- carries its own bytes. A read-back still returns the bytes of its write.
import Stutools.Machine
import Stutools.StreamOrder

open memory

namespace stutools

/-- One request in flight, as the device sees it. -/
structure Op where
  request : Request
  /-- The bytes of a write. -/
  payload : List UInt8
  /-- For a read-back, the bytes of the write it verifies. -/
  expected : Option (List UInt8)
  /-- The bytes moved, once the device has performed the request. -/
  moved : Option (List UInt8)

/-- What the memory holds for one request in flight. -/
structure Op.Good (m : Memory) (op : Op) : Prop where
  len : op.request.write = true → op.payload.length = op.request.len
  written : op.request.write = true → op.moved.isSome = true →
    m.read op.request.offset op.request.len = op.payload
  read : is_read_back op.request = true → ∃ bytes, op.expected = some bytes ∧
    m.read op.request.offset op.request.len = bytes ∧ ∀ data, op.moved = some data → data = bytes

theorem read_of_apart {m : Memory} {w r : Request} {payload : List UInt8} (hw : w.write = true)
    (hlen : payload.length = w.len) (h : Apart w r) :
    (m.write w.offset payload).read r.offset r.len = m.read r.offset r.len :=
  Memory.read_write_disjoint (hlen ▸ not_overlap_of_write hw h)

theorem Op.Good.of_apart {m : Memory} {op : Op} {w : Request} {payload : List UInt8}
    (h : op.Good m) (hw : w.write = true) (hlen : payload.length = w.len)
    (ha : Apart w op.request) : op.Good (m.write w.offset payload) := by
  have hread := read_of_apart (m := m) hw hlen ha
  exact ⟨h.len, fun h1 h2 => hread.trans (h.written h1 h2), fun h1 => by
    obtain ⟨b, hb1, hb2, hb3⟩ := h.read h1
    exact ⟨b, hb1, hread.trans hb2, hb3⟩⟩

/-- A stream, its device, and what each read-back has to return. -/
structure Device where
  stream : Stream
  memory : Memory
  ops : List Op
  /-- Each owed read-back with the bytes of its write. -/
  owed : List (Request × List UInt8)
  /-- The read-backs that completed: the bytes of the write, and those returned. -/
  checked : List (Option (List UInt8) × List UInt8)
  /-- Whether each write so far carried a payload that its check accepts. -/
  honest : Bool

namespace Device

inductive Event where
  | source (env : Env) (payload : List UInt8)
  | perform (i : Nat)
  | finish (env : Env) (i : Nat) (state : UInt8)

def start (s : Stream) (m : Memory) : Device :=
  { stream := s, memory := m, ops := [], owed := [], checked := [], honest := true }

/-- Whether the check of the request accepts these bytes. -/
def accepts (s : Stream) (r : Request) (bytes : List UInt8) : Bool :=
  check_pattern bytes r s.work s.seed s.template

/-- The device gets a request. A read-back takes the bytes it has to return
from the list of those owed. -/
def issue (d : Device) (r : Request) (payload : List UInt8) : Device :=
  { d with
    ops :=
      { request := r
        payload := payload
        expected := if is_read_back r then (d.owed.find? (·.1 = r)).map (·.2) else none
        moved := none } :: d.ops
    owed := if is_read_back r then d.owed.eraseP (·.1 = r) else d.owed
    honest := d.honest && (!r.write || accepts d.stream r payload) }

/-- The device performs a request: a write stores its bytes, a read samples its extent. -/
def performed (d : Device) (i : Nat) (op : Op) : Device :=
  if op.request.write then
    { d with
      memory := d.memory.write op.request.offset op.payload
      ops := { op with moved := some op.payload } :: d.ops.eraseIdx i }
  else
    { d with
      ops :=
        { op with moved := some (d.memory.read op.request.offset op.request.len) } ::
          d.ops.eraseIdx i }

/-- The request is done, and a write is owed a read-back of its bytes. -/
def completed (d : Device) (i : Nat) (op : Op) (state : UInt8) (data : List UInt8) : Device :=
  { d with
    ops := d.ops.eraseIdx i
    owed := d.owed ++
      if op.request.write then [(read_back_of { op.request with state := state }, op.payload)] else []
    checked := if is_read_back op.request then (op.expected, data) :: d.checked else d.checked }

def step (d : Device) : Event → Option Device
  | .source env payload =>
    match d.stream.source env with
    | (.request r, s) =>
      if r.write = true ∧ payload.length ≠ r.len then none
      else some ({ d with stream := s }.issue r payload)
    | (_, s) => some { d with stream := s }
  | .perform i =>
    match d.ops[i]? with
    | some op => if op.moved.isSome then none else some (d.performed i op)
    | none => none
  | .finish env i state =>
    match d.ops[i]? with
    | some op =>
      op.moved.bind fun data =>
        (d.stream.finish env data { op.request with state := state }).map fun s =>
          { d with stream := s }.completed i op state data
    | none => none

/-! ## The invariant -/

structure Good (d : Device) : Prop where
  ordered : Ordered d.stream (d.ops.map Op.request)
  reads_back : d.stream.ReadsBack
  owed : (d.owed.map Prod.fst).Perm d.stream.owed
  bytes : ∀ e ∈ d.owed, d.memory.read e.1.offset e.1.len = e.2
  ops : ∀ op ∈ d.ops, op.Good d.memory
  checked : ∀ e ∈ d.checked, e.1 = some e.2

/-- No false mismatch was counted, and none is on its way. -/
structure Honest (n : Nat) (d : Device) : Prop where
  incorrect : d.stream.stats.incorrect = n
  owed : ∀ e ∈ d.owed, accepts d.stream e.1 e.2 = true
  payload : ∀ op ∈ d.ops, op.request.write = true → accepts d.stream op.request op.payload = true
  expected : ∀ op ∈ d.ops, ∀ bytes, op.expected = some bytes →
    accepts d.stream op.request bytes = true

theorem accepts_of_frame {s t : Stream} (h : Stream.Frame s t) (r : Request) (bytes : List UInt8) :
    accepts t r bytes = accepts s r bytes := by
  unfold accepts
  rw [h.work, h.seed, h.template]

/-- The operations in flight never conflict. -/
theorem Good.ops_apart {d : Device} (h : d.Good) : (d.ops.map Op.request).Pairwise Apart :=
  apart_of_perm_io h.ordered.in_flight h.ordered.apart

/-- An owed read-back is apart from every operation in flight. -/
theorem Good.owed_apart {d : Device} (h : d.Good) {e : Request × List UInt8} (he : e ∈ d.owed)
    {op : Op} (hop : op ∈ d.ops) : Apart e.1 op.request := by
  have h1 : e.1 ∈ d.stream.owed := h.owed.mem_iff.mp (List.mem_map_of_mem he)
  have h2 : op.request.io ∈ d.stream.in_flight.map Request.io :=
    h.ordered.in_flight.mem_iff.mpr (List.mem_map_of_mem (List.mem_map_of_mem hop))
  obtain ⟨f, hf, hio⟩ := List.mem_map.mp h2
  exact (apart_congr rfl hio).mp (h.ordered.clear e.1 h1 f hf)

/-! ## A request is issued -/

theorem issue_owed {d : Device} {r : Request} (payload : List UInt8) {l : List Request}
    (h : (d.owed.map Prod.fst).Perm ([r].filter is_read_back ++ l)) :
    ((d.issue r payload).owed.map Prod.fst).Perm l := by
  cases hr : is_read_back r with
  | false => simpa [issue, hr] using h
  | true =>
    have hmem : r ∈ d.owed.map Prod.fst := h.mem_iff.mpr (by simp [hr])
    obtain ⟨e, he, her⟩ := List.mem_map.mp hmem
    obtain ⟨a, l1, l2, _, ha, hl, hl'⟩ :=
      List.exists_of_eraseP (p := fun e => decide (e.1 = r)) he (by simpa using her)
    have ha' : a.1 = r := by simpa using ha
    simp only [issue, hr, if_true, hl']
    simp only [hl, hr, List.filter_cons, if_true, List.filter_nil, List.map_append, List.map_cons,
      ha', List.singleton_append] at h ⊢
    exact (List.perm_middle.symm.trans h).cons_inv

/-- A read-back that is issued has its bytes on the device. -/
theorem issue_expected {d : Device} {r : Request} (payload : List UInt8) (hr : is_read_back r = true)
    (hmem : r ∈ d.owed.map Prod.fst) :
    ∃ e ∈ d.owed, e.1 = r ∧ ((d.issue r payload).ops.head?).bind Op.expected = some e.2 := by
  cases hf : d.owed.find? (·.1 = r) with
  | none =>
    obtain ⟨e, he, her⟩ := List.mem_map.mp hmem
    exact absurd her (by simpa using List.find?_eq_none.mp hf e he)
  | some e =>
    have he := List.mem_of_find?_eq_some hf
    have her : e.1 = r := by simpa using List.find?_some hf
    exact ⟨e, he, her, by simp [issue, hr, hf]⟩

theorem mem_issue_owed (d : Device) (r : Request) (payload : List UInt8) {e : Request × List UInt8}
    (h : e ∈ (d.issue r payload).owed) : e ∈ d.owed := by
  unfold issue at h
  dsimp only at h
  split_ifs at h
  · exact List.mem_of_mem_eraseP h
  · exact h

theorem Good.source {d e : Device} {env : Env} {payload : List UInt8} (h : d.Good)
    (hs : d.step (.source env payload) = some e) : e.Good := by
  obtain ⟨g1, g2, g3, g4, g5, g6⟩ := h
  simp only [step] at hs
  rcases hn : d.stream.source env with ⟨n, s⟩
  have hord := g1.source g2 hn
  have howed := g3.trans (g1.source_owed g2 hn)
  have hrb := g2.of_frame (Stream.source_frame hn)
  rw [hn] at hs
  cases n with
  | wait | done =>
    cases hs
    exact ⟨hord, hrb, howed, g4, g5, g6⟩
  | request r =>
    simp only at hs
    split_ifs at hs with hlen
    cases hs
    refine ⟨hord, hrb, issue_owed payload howed, fun e he => g4 e (mem_issue_owed _ r payload he), ?_, g6⟩
    intro op hop
    rcases List.mem_cons.mp hop with rfl | hop
    · refine ⟨fun hw => ?_, fun _ hm => absurd hm (by simp), fun hr => ?_⟩
      · by_contra hne
        exact hlen ⟨hw, hne⟩
      · have hrb' : is_read_back r = true := hr
        have hmem : r ∈ d.owed.map Prod.fst := howed.mem_iff.mpr (by simp [Next.handed, hrb'])
        obtain ⟨e, he, her, hexp⟩ := issue_expected (d := { d with stream := s }) payload hr hmem
        exact ⟨e.2, hexp, her ▸ g4 e he, fun _ hm => absurd hm (by simp)⟩
    · exact g5 op hop

/-! ## The device performs a request -/

theorem Good.perform {d e : Device} {i : Nat} (h : d.Good) (hs : d.step (.perform i) = some e) :
    e.Good := by
  have hpair := h.ops_apart
  have hclear : ∀ e ∈ d.owed, ∀ op ∈ d.ops, Apart e.1 op.request := fun e he op hop =>
    h.owed_apart he hop
  obtain ⟨g1, g2, g3, g4, g5, g6⟩ := h
  simp only [step] at hs
  split at hs
  · rename_i op hop
    split_ifs at hs with hm
    cases hs
    have hmem := List.mem_of_getElem? hop
    have hperm := vec.perm_eraseIdx_of_getElem? hop
    have hrest : ∀ o ∈ d.ops.eraseIdx i, o ∈ d.ops := fun o ho => List.mem_of_mem_eraseIdx ho
    have hord : Ordered d.stream (op.request :: (d.ops.eraseIdx i).map Op.request) := by
      obtain ⟨k1, k2, k3, k4, k5⟩ := g1
      have hp := hperm.map Op.request
      exact ⟨k1, k2.trans (hp.map Request.io), k3.trans hp.length_eq, k4, k5⟩
    unfold performed
    split_ifs with hw
    · have hlen := (g5 op hmem).len hw
      have hothers : ∀ o ∈ d.ops.eraseIdx i, Apart op.request o.request := by
        intro o ho
        have hp := (hperm.map Op.request).pairwise hpair fun {a b} hab => Apart.symm hab
        rw [List.map_cons, List.pairwise_cons] at hp
        exact hp.1 o.request (List.mem_map_of_mem ho)
      refine ⟨hord, g2, g3, fun e he => ?_, fun o ho => ?_, g6⟩
      · exact (read_of_apart hw hlen (hclear e he op hmem).symm).trans (g4 e he)
      · rcases List.mem_cons.mp ho with rfl | ho
        · refine ⟨fun _ => hlen, fun _ _ => ?_, fun hr => ?_⟩
          · dsimp only
            rw [← hlen]
            exact Memory.read_write_self _ _ _
          · rw [is_read_back_iff] at hr
            exact absurd hr.2 (by simp [hw])
        · exact (g5 o (hrest o ho)).of_apart hw hlen (hothers o ho)
    · refine ⟨hord, g2, g3, g4, fun o ho => ?_, g6⟩
      rcases List.mem_cons.mp ho with rfl | ho
      · refine ⟨fun h1 => absurd h1 hw, fun h1 => absurd h1 hw, fun hr => ?_⟩
        obtain ⟨b, hb1, hb2, _⟩ := (g5 op hmem).read hr
        exact ⟨b, hb1, hb2, fun data hd => by cases hd; exact hb2⟩
      · exact g5 o (hrest o ho)
  · cases hs

/-! ## A request completes -/

theorem Good.finish {d e : Device} {env : Env} {i : Nat} {state : UInt8} (h : d.Good)
    (hs : d.step (.finish env i state) = some e) : e.Good := by
  obtain ⟨g1, g2, g3, g4, g5, g6⟩ := h
  simp only [step] at hs
  split at hs
  · rename_i op hop
    obtain ⟨data, hdata, hs⟩ := Option.bind_eq_some_iff.mp hs
    obtain ⟨s, hfin, rfl⟩ := Option.map_eq_some_iff.mp hs
    have hmem := List.mem_of_getElem? hop
    have hgood := g5 op hmem
    have hspec := Stream.finish.spec hfin
    have hperm := ((vec.perm_eraseIdx_of_getElem? hop).map Op.request).map Request.io
    refine ⟨g1.finish g2 hfin hperm, g2.of_frame hspec.toFrame, ?_, ?_, ?_, ?_⟩
    · have howed : s.owed = d.stream.due ++
          ((if op.request.write then [read_back_of { op.request with state := state }] else []) ++
            d.stream.held.filter is_read_back) := by
        rw [Stream.owed, hspec.due, hspec.held, g2.read_back, g2.race]
        simp
      simp only [completed, List.map_append, howed]
      refine (g3.append_right _).trans ?_
      rw [Stream.owed, List.append_assoc]
      refine List.Perm.append_left _ ?_
      refine List.perm_append_comm.trans (List.Perm.append_right _ ?_)
      split_ifs <;> simp
    · intro e he
      rcases List.mem_append.mp he with he | he
      · exact g4 e he
      · split_ifs at he with hw
        · rw [List.mem_singleton.mp he]
          exact hgood.written hw (by rw [hdata]; rfl)
        · cases he
    · exact fun o ho => g5 o (List.mem_of_mem_eraseIdx ho)
    · intro e he
      simp only [completed] at he
      split_ifs at he with hr
      · rcases List.mem_cons.mp he with rfl | he
        · obtain ⟨b, hb1, _, hb3⟩ := hgood.read hr
          rw [hb1, hb3 data hdata]
        · exact g6 e he
      · exact g6 e he
  · cases hs

theorem Good.step {d e : Device} {a : Event} (h : d.Good) (hs : d.step a = some e) : e.Good := by
  cases a with
  | source env payload => exact h.source hs
  | perform i => exact h.perform hs
  | finish env i state => exact h.finish hs

theorem Good.start {s : Stream} (hs : s.Fresh) (hr : s.ReadsBack) (m : Memory) :
    (Device.start s m).Good := by
  have howed : s.owed = [] := by simp [Stream.owed, hs.due, hs.held]
  refine ⟨⟨hs.shaped, ?_, ?_, ?_, ?_⟩, hr, ?_, ?_, ?_, ?_⟩
  · simp [Device.start, hs.in_flight]
  · simpa [Device.start] using hs.outstanding
  · simp [Device.start, hs.in_flight]
  · simp [Device.start, howed]
  · simp [Device.start, howed]
  · simp [Device.start]
  · simp [Device.start]
  · simp [Device.start]

/-! ## No false mismatch -/

theorem Honest.source {d e : Device} {n : Nat} {env : Env} {payload : List UInt8}
    (h : d.honest = true → Honest n d) (hs : d.step (.source env payload) = some e) :
    e.honest = true → Honest n e := by
  simp only [step] at hs
  rcases hn : d.stream.source env with ⟨next, s⟩
  have hf := Stream.source_frame hn
  have hstats := (Stream.source_sent hn).2.2
  rw [hn] at hs
  cases next with
  | wait | done =>
    cases hs
    intro he
    obtain ⟨h1, h2, h3, h4⟩ := h he
    refine ⟨hstats ▸ h1, ?_, ?_, ?_⟩ <;> simpa only [accepts_of_frame hf]
  | request r =>
    simp only at hs
    split_ifs at hs with hlen
    cases hs
    intro he
    simp only [issue, Bool.and_eq_true] at he
    obtain ⟨h1, h2, h3, h4⟩ := h he.1
    refine ⟨hstats ▸ h1, ?_, ?_, ?_⟩
    · intro e he'
      exact (accepts_of_frame hf _ _).trans (h2 e (mem_issue_owed _ r payload he'))
    · intro op hop hw
      rcases List.mem_cons.mp hop with rfl | hop
      · have hw' : r.write = true := hw
        simpa [hw', issue] using he.2
      · exact (accepts_of_frame hf _ _).trans (h3 op hop hw)
    · intro op hop bytes hb
      rcases List.mem_cons.mp hop with rfl | hop
      · simp only at hb
        split_ifs at hb
        · obtain ⟨e, hfind, rfl⟩ := Option.map_eq_some_iff.mp hb
          have her : e.1 = r := by simpa using List.find?_some hfind
          have hacc := h2 e (List.mem_of_find?_eq_some hfind)
          rw [her] at hacc
          exact (accepts_of_frame hf _ _).trans hacc
      · exact (accepts_of_frame hf _ _).trans (h4 op hop bytes hb)

theorem Honest.perform {d e : Device} {n i : Nat} (h : d.honest = true → Honest n d)
    (hs : d.step (.perform i) = some e) : e.honest = true → Honest n e := by
  simp only [step] at hs
  split at hs
  · rename_i op hop
    split_ifs at hs with hm
    cases hs
    have hmem := List.mem_of_getElem? hop
    unfold performed
    split_ifs with hw
    all_goals
      intro he
      obtain ⟨h1, h2, h3, h4⟩ := h he
      refine ⟨h1, h2, ?_, ?_⟩
      · intro o ho
        rcases List.mem_cons.mp ho with rfl | ho
        · exact h3 op hmem
        · exact h3 o (List.mem_of_mem_eraseIdx ho)
      · intro o ho
        rcases List.mem_cons.mp ho with rfl | ho
        · exact h4 op hmem
        · exact h4 o (List.mem_of_mem_eraseIdx ho)
  · cases hs

theorem Honest.finish {d e : Device} {n i : Nat} {env : Env} {state : UInt8} (hd : d.Good)
    (h : d.honest = true → Honest n d) (hs : d.step (.finish env i state) = some e) :
    e.honest = true → Honest n e := by
  simp only [step] at hs
  split at hs
  · rename_i op hop
    obtain ⟨data, hdata, hs⟩ := Option.bind_eq_some_iff.mp hs
    obtain ⟨s, hfin, rfl⟩ := Option.map_eq_some_iff.mp hs
    have hmem := List.mem_of_getElem? hop
    have hf := (Stream.finish.spec hfin).toFrame
    intro he
    obtain ⟨h1, h2, h3, h4⟩ := h he
    refine ⟨?_, ?_, ?_, ?_⟩
    · refine (Stream.finish_incorrect hfin fun hr => ?_).trans h1
      obtain ⟨b, hb1, _, hb3⟩ := (hd.ops op hmem).read hr
      rw [hb3 data hdata]
      exact h4 op hmem b hb1
    · intro e he'
      rcases List.mem_append.mp he' with he' | he'
      · exact (accepts_of_frame hf _ _).trans (h2 e he')
      · split_ifs at he' with hw
        · rw [List.mem_singleton.mp he']
          exact (accepts_of_frame hf _ _).trans (h3 op hmem hw)
        · cases he'
    · intro o ho hw
      exact (accepts_of_frame hf _ _).trans (h3 o (List.mem_of_mem_eraseIdx ho) hw)
    · intro o ho b hb
      exact (accepts_of_frame hf _ _).trans (h4 o (List.mem_of_mem_eraseIdx ho) b hb)
  · cases hs

theorem Honest.step {d e : Device} {n : Nat} {a : Event} (hd : d.Good)
    (h : d.honest = true → Honest n d) (hs : d.step a = some e) :
    e.honest = true → Honest n e := by
  cases a with
  | source env payload => exact Honest.source h hs
  | perform i => exact Honest.perform h hs
  | finish env i state => exact Honest.finish hd h hs

/-- A stream without races never reports a false mismatch. In every state of
every run: (a) no two requests in flight conflict; (b) a write is handed out
only when no read-back that overlaps it is owed or in flight; (c) every
read-back returned the bytes of the write it verifies, so no mismatch was
counted as long as each payload passes its own check; and no completion is
refused. -/
theorem a_read_back_returns_the_bytes_of_its_write (s : Stream) (m : Memory) (hs : s.Fresh)
    (hr : s.read_back = true) (hrace : s.race = false) {events : List Event} {d : Device}
    (hrun : machine.run step (start s m) events = some d) :
    d.stream.in_flight.Pairwise (fun a b => conflict a b = false) ∧
    (∀ env w t, d.stream.source env = (.request w, t) → w.write = true →
      ∀ r ∈ d.stream.due ++ d.stream.held ++ d.stream.in_flight, is_read_back r = true →
        ¬ Overlap w.offset w.len r.offset r.len) ∧
    (∀ c ∈ d.checked, c.1 = some c.2) ∧
    (d.honest = true → d.stream.stats.incorrect = s.stats.incorrect) ∧
    (∀ op ∈ d.ops, ∀ env buffer state,
      (d.stream.finish env buffer { op.request with state := state }).isSome = true) := by
  have hinv := machine.invariant (P := fun d => d.Good ∧ (d.honest = true → Honest s.stats.incorrect d))
    (fun d a e h ha => ⟨h.1.step ha, Honest.step h.1 h.2 ha⟩) hrun
    ⟨Good.start hs ⟨hr, hrace⟩ m, fun _ => ⟨rfl, by simp [start], by simp [start], by simp [start]⟩⟩
  obtain ⟨hgood, hhonest⟩ := hinv
  refine ⟨hgood.ordered.apart, ?_, hgood.checked, fun h => (hhonest h).incorrect, ?_⟩
  · intro env w t hn hw r hmem hrb
    exact not_overlap_of_write hw (hgood.ordered.write_clear hgood.reads_back hn hw r hmem hrb)
  · intro op hop env buffer state
    apply Stream.finish_isSome
    intro _
    have hmem : op.request.io ∈ (d.ops.map Op.request).map Request.io :=
      List.mem_map_of_mem (List.mem_map_of_mem hop)
    exact hgood.ordered.in_flight.mem_iff.mpr hmem

/-- One pair of a `v` workload on a device of zeros. -/
theorem a_read_back_returns_eight_bytes :
    ∃ d, machine.run step (start (Stream.sample (.pairs 8 1 none) Request.default 16 none) fun _ => 0)
        [.source .calm (List.replicate 8 7), .perform 0, .finish .calm 0 0,
          .source .calm [], .perform 0, .finish .calm 0 0] = some d ∧
      d.checked.length = 1 ∧ ∀ c ∈ d.checked, c.1 = some c.2 := by
  have hlen : ((machine.run step
      (start (Stream.sample (.pairs 8 1 none) Request.default 16 none) fun _ => 0)
      [.source .calm (List.replicate 8 7), .perform 0, .finish .calm 0 0,
        .source .calm [], .perform 0, .finish .calm 0 0]).map fun d => d.checked.length) = some 1 := by
    rfl
  obtain ⟨d, hd, hone⟩ := Option.map_eq_some_iff.mp hlen
  have hall := a_read_back_returns_the_bytes_of_its_write _ _ ⟨rfl, rfl, rfl, rfl⟩ rfl rfl hd
  exact ⟨d, hd, hone, hall.2.2.1⟩

end Device

end stutools
