-- The streamed run: `source` hands out the next request for a free slot, and
-- `finish` takes each completion. A write that verifies is owed a read-back,
-- and a request that overlaps unfinished work waits its turn.
import Stutools.Run

namespace stutools

/-- What a call reads from outside: the interrupt flag and the clock. -/
structure Env where
  interrupted : Bool
  elapsed : ℚ

/-- A call before any interrupt or deadline. -/
def Env.calm : Env := { interrupted := false, elapsed := 0 }

/-- `engine::Stream`, less its pointers to the slots' buffers. `held` is a
stack with its newest request first. -/
structure Stream where
  generated : Positions
  stats : Stats
  work : Workload
  template : List UInt8
  seed : UInt64
  /-- Whether written blocks are read back: `-v`, or a `v` or `U` workload. -/
  read_back : Bool
  /-- Whether read-backs are workload operations. -/
  counted_read_backs : Bool
  /-- Whether a read-back may run while its write is still in flight. -/
  race : Bool
  duration : Option ℚ
  limit : Option Nat
  byte_limit : Option Nat
  lo : Nat
  hi : Nat
  index : Nat
  wv_count : Nat
  wv_state : UInt64
  wv_ops : Nat
  queued_bytes : Nat
  outstanding : Nat
  in_flight : List Request
  due : List Request
  held : List Request

/-- Reads the plan from `index` on until a request that is not the check of a
write, or until the limit. Gives the request, the table and the next index. -/
def plan_from (limited : Nat → Bool) (p : Positions) (index : Nat) :
    Option Request × Positions × Nat :=
  if limited index then (none, p, index)
  else
    if _h : (p.get index).1.verify = true ∧ (p.get index).1.write = false then
      plan_from limited (p.get index).2 (index + 1)
    else (some (p.get index).1, (p.get index).2, index + 1)
termination_by (p.len - index % p.len) % p.len
decreasing_by
  -- A check slot is never the first of a pass, so the loop stops at the next pass.
  have h0 := p.check_of_get_verify index _h.1
  have hlen := p.len_pos
  have hlt := Nat.mod_lt index hlen
  rw [Positions.get_len, Nat.mod_eq_of_lt (a := p.len - index % p.len) (by omega)]
  by_cases hw : index % p.len + 1 = p.len
  · have hz : (index + 1) % p.len = 0 := by
      rw [Nat.add_mod_eq_ite]
      have h1 : 1 % p.len = 1 := Nat.mod_eq_of_lt (by omega)
      rw [h1]
      split_ifs <;> omega
    rw [hz, Nat.sub_zero, Nat.mod_self]
    omega
  · have hn : (index + 1) % p.len = index % p.len + 1 := by
      rw [Nat.add_mod_eq_ite]
      have h1 : 1 % p.len = 1 := Nat.mod_eq_of_lt (by omega)
      rw [h1]
      split_ifs <;> omega
    rw [hn, Nat.mod_eq_of_lt (by omega)]
    omega

namespace Stream

/-- The operations counted against the limit: plan slots, or write-verify requests. -/
def ops (s : Stream) : Nat := if s.work.write_verify then s.wv_ops else s.index

/-- Whether the operation or byte limit is reached. -/
def limit_reached (s : Stream) : Bool :=
  s.limit.any (fun n => decide (n ≤ s.ops)) || s.byte_limit.any fun n => decide (n ≤ s.queued_bytes)

/-- Whether the run has no more new requests to issue. -/
def stopped (s : Stream) (env : Env) : Bool :=
  env.interrupted || s.limit_reached || s.duration.any fun d => decide (d ≤ env.elapsed)

/-- The next plan request, or none once the limit is reached. -/
def plan_request (s : Stream) : Option Request × Stream :=
  if s.work.write_verify then
    let (request, count, state) := write_verify_request s.work s.lo s.hi s.wv_count s.wv_state
    (some request, { s with wv_count := count, wv_state := state })
  else
    let (request, generated, index) :=
      plan_from (fun i => limit_reached { s with index := i }) s.generated s.index
    (request, { s with generated := generated, index := index })

/-- Whether `candidate` may not be in flight with `other`. With `race`, a
read-back may be issued while its own write is in flight. -/
def gates (s : Stream) (candidate other : Request) : Bool :=
  let own_read_back := s.race && candidate.verify && !candidate.write && other.write
  conflict candidate other && !own_read_back

/-- Whether the request overlaps one that must finish first. -/
def overlaps (s : Stream) (request : Request) : Bool :=
  s.read_back && (s.in_flight.any (s.gates request) || s.due.any (s.gates request))

/-- The request to try next: the newest held one, an owed read-back, or the plan's next. -/
def candidate (s : Stream) (env : Env) : Option Request × Stream :=
  match s.held with
  | request :: held => (some request, { s with held := held })
  | [] =>
    match s.due with
    | request :: due => (some request, { s with due := due })
    | [] => if s.stopped env then (none, s) else s.plan_request

/-- A write goes after the owed read-back of its extent: that read is issued
first, and the write waits. -/
def owed_first (s : Stream) (request : Request) : Request × Stream :=
  if request.write then
    match s.due.findIdx? (s.gates request) with
    | some i =>
      (s.due.getD i request, { s with held := request :: s.held, due := s.due.eraseIdx i })
    | none => (request, s)
  else (request, s)

/-- The stream once the request is handed to the backend. -/
def hand_out (s : Stream) (request : Request) : Stream :=
  { s with
    queued_bytes :=
      if !request.verify || s.counted_read_backs then s.queued_bytes + request.len
      else s.queued_bytes
    wv_ops := if s.work.write_verify then s.wv_ops + 1 else s.wv_ops
    outstanding := s.outstanding + 1
    in_flight := if s.read_back then s.in_flight ++ [request] else s.in_flight
    -- With more than one endpoint the read-back is owed as the write is issued.
    due :=
      if s.race && request.write && s.read_back then s.due ++ [read_back_of request] else s.due }

/-- Whether the request has to wait: the rate allows one at a time, or it overlaps. -/
def blocked (s : Stream) (request : Request) : Bool :=
  (s.work.rate.isSome && decide (0 < s.outstanding)) || s.overlaps request

/-- Puts a request back to wait its turn. -/
def hold (s : Stream) (request : Request) : Stream := { s with held := request :: s.held }

/-- `Stream::source`, less the sleep that paces it. -/
def source (s : Stream) (env : Env) : Next × Stream :=
  match s.candidate env with
  | (none, s) => (if s.outstanding = 0 then .done else .wait, s)
  | (some request, s) =>
    let (request, s) := s.owed_first request
    if s.blocked request then (.wait, s.hold request)
    else (.request request, s.hand_out request)

/-- Takes a completed request out of the list of those in flight. None is the
panic of a completion for a request that is not in flight. -/
def retire (s : Stream) (request : Request) : Option Stream :=
  if s.read_back then
    (s.in_flight.findIdx? (same_io · request)).map fun i =>
      { s with outstanding := s.outstanding - 1, in_flight := vec.swapRemove s.in_flight i }
  else some { s with outstanding := s.outstanding - 1 }

/-- Checks a read-back, or owes one to a write. -/
def settle (s : Stream) (buffer : List UInt8) (request : Request) : Stream :=
  if is_read_back request then
    let stats :=
      if check_pattern buffer request s.work s.seed s.template then s.stats
      else count_incorrect s.stats request.offset
    { s with stats := { stats with verified := stats.verified + 1 } }
  else if request.write && s.read_back && !s.race then
    { s with due := s.due ++ [read_back_of request] }
  else s

/-- Counts the operation. A read-back that completes after the limit is
outside the workload's counts. -/
def count (s : Stream) (env : Env) (request : Request) : Stream :=
  if !is_read_back request || (s.counted_read_backs && !s.limit_reached) then
    let measured := s.duration.all fun d => decide (env.elapsed < d)
    { s with stats := s.stats.complete request measured }
  else s

/-- `Stream::finish`. The buffer is what the request's slot holds. -/
def finish (s : Stream) (env : Env) (buffer : List UInt8) (request : Request) : Option Stream :=
  (s.retire request).map fun s => (s.settle buffer request).count env request

end Stream

/-- `Run::stream`: the stream of a run over a number of endpoints. -/
def Run.stream_of (run : Run) (endpoints : Nat) : Stream :=
  let read_back := run.verify || run.work.verify || run.work.write_verify
  { generated := run.generated
    stats := run.stats
    work := run.work
    template := run.template
    seed := run.seed
    read_back := read_back
    counted_read_backs := run.work.verify || run.work.write_verify
    -- `V` lets a read-back overtake its write only across more than one endpoint.
    race := read_back && run.work.write_verify_race && decide (1 < endpoints)
    duration := run.duration
    limit := run.limit
    byte_limit := run.byte_limit
    lo := run.wv_lo
    hi := run.wv_hi
    index := run.index
    wv_count := run.wv_count
    wv_state := run.wv_state
    wv_ops := 0
    queued_bytes := 0
    outstanding := 0
    in_flight := []
    due := []
    held := [] }

/-- A stream over a table of one entry, with nothing handed out yet. -/
def Stream.sample (work : Workload) (entry : Request) (hi : Nat) (limit : Option Nat) : Stream :=
  let run : Run :=
    { generated :=
        { entries := [entry], rng := 0, pass := 0, lo := 0, hi := hi, work := work
          pending_checks := 0, entries_pos := Nat.one_pos }
      wv_count := 0
      wv_state := 1
      wv_pending := none
      wv_lo := 0
      wv_hi := hi
      template := pattern.fill (List.replicate 4096 0) 0 0
      work := work
      seed := 0
      reusable := false
      verify := false
      record_latency := false
      duration := none
      limit := limit
      byte_limit := none
      streamed := true
      stats := {}
      index := 0 }
  run.stream_of 1

/-- The requests an answer hands out: one or none. -/
def Next.handed : Next → List Request
  | .request r => [r]
  | .wait => []
  | .done => []

/-! ## What a call can do -/

/-- What `plan_from` gives is not a read-back. -/
theorem plan_from_not_read_back {limited : Nat → Bool} {p q : Positions} {index i : Nat}
    {r : Request} (h : plan_from limited p index = (some r, q, i)) : is_read_back r = false := by
  fun_induction plan_from limited p index with
  | case1 p index hl => simp at h
  | case2 p index hl hc ih => exact ih h
  | case3 p index hl hc =>
    simp only [Prod.mk.injEq, Option.some.injEq] at h
    rw [← h.1]
    simpa [is_read_back] using hc

/-- The plan ends only at the limit. -/
theorem plan_from_none {limited : Nat → Bool} {p q : Positions} {index i : Nat}
    (h : plan_from limited p index = (none, q, i)) : limited i = true := by
  fun_induction plan_from limited p index with
  | case1 p index hl =>
    cases h
    exact hl
  | case2 p index hl hc ih => exact ih h
  | case3 p index hl hc => simp at h

/-- An operation is taken as it stands. -/
theorem plan_from_operation {limited : Nat → Bool} {p : Positions} {index : Nat}
    (hl : limited index = false) (h : is_read_back (p.get index).1 = false) :
    plan_from limited p index = (some (p.get index).1, (p.get index).2, index + 1) := by
  rw [plan_from, if_neg (by simp [hl]), dif_neg]
  rintro ⟨h1, h2⟩
  simp [is_read_back, h1, h2] at h

/-- The check of a write is passed over. -/
theorem plan_from_check {limited : Nat → Bool} {p : Positions} {index : Nat}
    (hl : limited index = false) (h : is_read_back (p.get index).1 = true) :
    plan_from limited p index = plan_from limited (p.get index).2 (index + 1) := by
  rw [plan_from, if_neg (by simp [hl]), dif_pos ((is_read_back_iff _).mp h)]

theorem plan_from_limited {limited : Nat → Bool} {p : Positions} {index : Nat}
    (hl : limited index = true) : plan_from limited p index = (none, p, index) := by
  rw [plan_from, if_pos hl]

namespace Stream

variable {s t : Stream} {env : Env}

/-- The parts of a stream that no call changes. -/
structure Frame (s t : Stream) : Prop where
  work : t.work = s.work
  template : t.template = s.template
  seed : t.seed = s.seed
  read_back : t.read_back = s.read_back
  counted_read_backs : t.counted_read_backs = s.counted_read_backs
  race : t.race = s.race
  duration : t.duration = s.duration
  limit : t.limit = s.limit
  byte_limit : t.byte_limit = s.byte_limit
  lo : t.lo = s.lo
  hi : t.hi = s.hi

theorem Frame.refl (s : Stream) : Frame s s := by constructor <;> rfl

theorem Frame.trans {s t u : Stream} (h1 : Frame s t) (h2 : Frame t u) : Frame s u :=
  ⟨h2.work.trans h1.work, h2.template.trans h1.template, h2.seed.trans h1.seed,
    h2.read_back.trans h1.read_back, h2.counted_read_backs.trans h1.counted_read_backs,
    h2.race.trans h1.race, h2.duration.trans h1.duration, h2.limit.trans h1.limit,
    h2.byte_limit.trans h1.byte_limit, h2.lo.trans h1.lo, h2.hi.trans h1.hi⟩

/-- The plan's cursors and the counts of requests handed out. -/
structure Cursors (s t : Stream) : Prop where
  generated : t.generated = s.generated
  index : t.index = s.index
  wv_count : t.wv_count = s.wv_count
  wv_state : t.wv_state = s.wv_state
  wv_ops : t.wv_ops = s.wv_ops
  queued_bytes : t.queued_bytes = s.queued_bytes

theorem Cursors.trans {s t u : Stream} (h1 : Cursors s t) (h2 : Cursors t u) : Cursors s u :=
  ⟨h2.generated.trans h1.generated, h2.index.trans h1.index, h2.wv_count.trans h1.wv_count,
    h2.wv_state.trans h1.wv_state, h2.wv_ops.trans h1.wv_ops,
    h2.queued_bytes.trans h1.queued_bytes⟩

/-- Reading the plan changes only the plan's own cursors. -/
structure PlanOnly (s t : Stream) : Prop extends Frame s t where
  stats : t.stats = s.stats
  wv_ops : t.wv_ops = s.wv_ops
  queued_bytes : t.queued_bytes = s.queued_bytes
  outstanding : t.outstanding = s.outstanding
  in_flight : t.in_flight = s.in_flight
  due : t.due = s.due
  held : t.held = s.held

theorem plan_request.spec {o : Option Request} (h : s.plan_request = (o, t)) :
    PlanOnly s t ∧ ∀ r, o = some r → is_read_back r = false := by
  unfold plan_request at h
  split_ifs at h with hw
  · simp only [Prod.mk.injEq] at h
    obtain ⟨rfl, rfl⟩ := h
    refine ⟨⟨by constructor <;> rfl, rfl, rfl, rfl, rfl, rfl, rfl, rfl⟩, ?_⟩
    intro r hr
    cases hr
    rfl
  · rcases hp : plan_from (fun i => limit_reached { s with index := i }) s.generated s.index
      with ⟨o', q, i⟩
    simp only [hp, Prod.mk.injEq] at h
    obtain ⟨rfl, rfl⟩ := h
    refine ⟨⟨by constructor <;> rfl, rfl, rfl, rfl, rfl, rfl, rfl, rfl⟩, ?_⟩
    intro r hr
    subst hr
    exact plan_from_not_read_back hp

/-- The candidate is the newest held request, else the oldest owed read-back,
else the plan's next. -/
theorem candidate_cases {o : Option Request} (h : s.candidate env = (o, t)) :
    (∃ r held, s.held = r :: held ∧ o = some r ∧ t = { s with held := held }) ∨
    (s.held = [] ∧ ∃ r due, s.due = r :: due ∧ o = some r ∧ t = { s with due := due }) ∨
    (s.held = [] ∧ s.due = [] ∧ s.stopped env = true ∧ o = none ∧ t = s) ∨
    (s.held = [] ∧ s.due = [] ∧ s.stopped env = false ∧ s.plan_request = (o, t)) := by
  unfold candidate at h
  split at h
  · rename_i r held hh
    cases h
    exact .inl ⟨r, held, hh, rfl, rfl⟩
  · rename_i hh
    split at h
    · rename_i r due hd
      cases h
      exact .inr (.inl ⟨hh, r, due, hd, rfl, rfl⟩)
    · rename_i hd
      split_ifs at h with hs
      · cases h
        exact .inr (.inr (.inl ⟨hh, hd, hs, rfl, rfl⟩))
      · exact .inr (.inr (.inr ⟨hh, hd, by simpa using hs, h⟩))

/-- A write that an owed read-back gates changes places with it. -/
theorem owed_first_cases {r q : Request} (h : s.owed_first r = (q, t)) :
    (r.write = true ∧ ∃ i, s.due[i]? = some q ∧ s.gates r q = true ∧
      t = { s with held := r :: s.held, due := s.due.eraseIdx i }) ∨
    (q = r ∧ t = s ∧ (r.write = true → ∀ d ∈ s.due, s.gates r d = false)) := by
  unfold owed_first at h
  split_ifs at h with hw
  · split at h
    · rename_i i hi
      cases h
      obtain ⟨hlt, hg, _⟩ := List.findIdx?_eq_some_iff_getElem.mp hi
      have hq : s.due.getD i r = s.due[i] := by simp [hlt]
      exact .inl ⟨hw, i, by rw [hq]; exact List.getElem?_eq_getElem hlt, by rw [hq]; exact hg, rfl⟩
    · rename_i hi
      cases h
      refine .inr ⟨rfl, rfl, fun _ d hd => ?_⟩
      simpa using List.findIdx?_eq_none_iff.mp hi d hd
  · cases h
    exact .inr ⟨rfl, rfl, fun hc => absurd hc hw⟩

theorem owed_first_cursors {r q : Request} (h : s.owed_first r = (q, t)) : Cursors s t := by
  rcases owed_first_cases h with ⟨_, i, _, _, rfl⟩ | ⟨_, rfl, _⟩ <;> constructor <;> rfl

/-- A call has no candidate, holds its request back, or hands it out. -/
theorem source_cases {n : Next} (h : s.source env = (n, t)) :
    (s.candidate env = (none, t) ∧ n = if t.outstanding = 0 then .done else .wait) ∨
    ∃ r u q v, s.candidate env = (some r, u) ∧ u.owed_first r = (q, v) ∧
      ((v.blocked q = true ∧ n = .wait ∧ t = v.hold q) ∨
        (v.blocked q = false ∧ n = .request q ∧ t = v.hand_out q)) := by
  unfold source at h
  split at h
  · rename_i u hu
    cases h
    exact .inl ⟨hu, rfl⟩
  · rename_i r u hu
    rcases ho : u.owed_first r with ⟨q, v⟩
    simp only [ho] at h
    refine .inr ⟨r, u, q, v, hu, ho, ?_⟩
    split_ifs at h with hb
    · cases h
      exact .inl ⟨hb, rfl, rfl⟩
    · cases h
      exact .inr ⟨by simpa using hb, rfl, rfl⟩

theorem candidate_frame {o : Option Request} (h : s.candidate env = (o, t)) : Frame s t := by
  rcases candidate_cases h with ⟨r, held, _, _, rfl⟩ | ⟨_, r, due, _, _, rfl⟩ | ⟨_, _, _, _, rfl⟩ |
    ⟨_, _, _, hp⟩
  · constructor <;> rfl
  · constructor <;> rfl
  · exact Frame.refl _
  · exact (plan_request.spec hp).1.toFrame

theorem owed_first_frame {r q : Request} (h : s.owed_first r = (q, t)) : Frame s t := by
  rcases owed_first_cases h with ⟨_, i, _, _, rfl⟩ | ⟨_, rfl, _⟩
  · constructor <;> rfl
  · exact Frame.refl _

theorem source_frame {n : Next} (h : s.source env = (n, t)) : Frame s t := by
  rcases source_cases h with ⟨hc, _⟩ | ⟨r, u, q, v, hc, ho, hb⟩
  · exact candidate_frame hc
  · have huv := (candidate_frame hc).trans (owed_first_frame ho)
    rcases hb with ⟨_, _, rfl⟩ | ⟨_, _, rfl⟩
    · exact huv.trans (by constructor <;> rfl)
    · exact huv.trans (by constructor <;> rfl)

/-- Taking a candidate moves nothing into flight. -/
theorem candidate_sent {o : Option Request} (h : s.candidate env = (o, t)) :
    t.in_flight = s.in_flight ∧ t.outstanding = s.outstanding ∧ t.stats = s.stats := by
  rcases candidate_cases h with ⟨r, held, _, _, rfl⟩ | ⟨_, r, due, _, _, rfl⟩ | ⟨_, _, _, _, rfl⟩ |
    ⟨_, _, _, hp⟩
  · exact ⟨rfl, rfl, rfl⟩
  · exact ⟨rfl, rfl, rfl⟩
  · exact ⟨rfl, rfl, rfl⟩
  · have hplan := (plan_request.spec hp).1
    exact ⟨hplan.in_flight, hplan.outstanding, hplan.stats⟩

theorem owed_first_sent {r q : Request} (h : s.owed_first r = (q, t)) :
    t.in_flight = s.in_flight ∧ t.outstanding = s.outstanding ∧ t.stats = s.stats := by
  rcases owed_first_cases h with ⟨_, i, _, _, rfl⟩ | ⟨_, rfl, _⟩ <;> exact ⟨rfl, rfl, rfl⟩

/-- What one call hands out, and nothing else, is sent. -/
theorem source_sent {n : Next} (h : s.source env = (n, t)) :
    t.in_flight = (s.in_flight ++ if s.read_back then n.handed else []) ∧
    t.outstanding = s.outstanding + n.handed.length ∧ t.stats = s.stats := by
  rcases source_cases h with ⟨hc, hn⟩ | ⟨r, u, q, v, hc, ho, hb⟩
  · obtain ⟨h1, h2, h3⟩ := candidate_sent hc
    have hhanded : n.handed = [] := by
      rw [hn]
      split_ifs <;> rfl
    simp [hhanded, h1, h2, h3]
  · obtain ⟨h1, h2, h3⟩ := candidate_sent hc
    obtain ⟨g1, g2, g3⟩ := owed_first_sent ho
    have hf := (candidate_frame hc).trans (owed_first_frame ho)
    rcases hb with ⟨_, rfl, rfl⟩ | ⟨_, rfl, rfl⟩
    · simp [hold, Next.handed, g1, h1, g2, h2, g3, h3]
    · refine ⟨?_, ?_, ?_⟩
      · simp only [hand_out, hf.read_back, g1, h1, Next.handed]
        split_ifs <;> simp
      · simp [hand_out, Next.handed, g2, h2]
      · simp [hand_out, g3, h3]

/-- Write-verify counts each request it hands out. -/
theorem source_wv_ops {n : Next} (h : s.source env = (n, t)) (hw : s.work.write_verify = true) :
    t.wv_ops = s.wv_ops + n.handed.length := by
  have hcand : ∀ {o u}, s.candidate env = (o, u) → u.wv_ops = s.wv_ops := by
    intro o u hc
    rcases candidate_cases hc with ⟨_, _, _, _, rfl⟩ | ⟨_, _, _, _, _, rfl⟩ | ⟨_, _, _, _, rfl⟩ |
      ⟨_, _, _, hp⟩
    · rfl
    · rfl
    · rfl
    · exact (plan_request.spec hp).1.wv_ops
  rcases source_cases h with ⟨hc, hn⟩ | ⟨r, u, q, v, hc, ho, hb⟩
  · have hhanded : n.handed = [] := by
      rw [hn]
      split_ifs <;> rfl
    rw [hcand hc, hhanded]
    rfl
  · have hv : v.wv_ops = s.wv_ops := (owed_first_cursors ho).wv_ops.trans (hcand hc)
    have hwork := ((candidate_frame hc).trans (owed_first_frame ho)).work
    rcases hb with ⟨_, rfl, rfl⟩ | ⟨_, rfl, rfl⟩
    · exact hv
    · simp [hand_out, hwork, hw, hv, Next.handed]

/-- A completion leaves the list of requests in flight, and only that list
and the count of requests outstanding change. -/
theorem retire_cases {r : Request} (h : s.retire r = some t) :
    t = { s with outstanding := s.outstanding - 1, in_flight := t.in_flight } ∧
    (s.read_back = true → ∃ f, f.io = r.io ∧ s.in_flight.Perm (f :: t.in_flight)) ∧
    (s.read_back = false → t.in_flight = s.in_flight) := by
  unfold retire at h
  split_ifs at h with hb
  · obtain ⟨i, hi, rfl⟩ := Option.map_eq_some_iff.mp h
    obtain ⟨f, hf, hp⟩ := vec.perm_swapRemove_of_findIdx hi
    exact ⟨rfl, fun _ => ⟨f, (same_io_iff f r).mp hf, hp⟩, fun hc => absurd hb (by simp [hc])⟩
  · cases h
    exact ⟨rfl, fun hc => absurd hc hb, fun _ => rfl⟩

theorem settle_frame (s : Stream) (buffer : List UInt8) (r : Request) :
    Frame s (s.settle buffer r) := by
  unfold settle
  split_ifs <;> constructor <;> rfl

theorem count_frame (s : Stream) (env : Env) (r : Request) : Frame s (s.count env r) := by
  unfold count
  split_ifs <;> constructor <;> rfl

/-- The only list that settling a completion changes is that of owed
read-backs: a write adds its own, unless it already raced it. -/
theorem settle_lists (s : Stream) (buffer : List UInt8) (r : Request) :
    (s.settle buffer r).in_flight = s.in_flight ∧ (s.settle buffer r).held = s.held ∧
    (s.settle buffer r).outstanding = s.outstanding ∧
    (s.settle buffer r).due =
      s.due ++ if r.write && s.read_back && !s.race then [read_back_of r] else [] := by
  unfold settle
  by_cases hr : is_read_back r = true
  · have hw := ((is_read_back_iff r).mp hr).2
    simp [hr, hw]
  · split_ifs <;> simp

theorem count_lists (s : Stream) (env : Env) (r : Request) :
    (s.count env r).in_flight = s.in_flight ∧ (s.count env r).held = s.held ∧
    (s.count env r).outstanding = s.outstanding ∧ (s.count env r).due = s.due := by
  unfold count
  split_ifs <;> exact ⟨rfl, rfl, rfl, rfl⟩

theorem settle_cursors (s : Stream) (buffer : List UInt8) (r : Request) :
    Cursors s (s.settle buffer r) := by
  unfold settle
  split_ifs <;> constructor <;> rfl

theorem count_cursors (s : Stream) (env : Env) (r : Request) : Cursors s (s.count env r) := by
  unfold count
  split_ifs <;> constructor <;> rfl

/-- What a completion does to the lists of the stream. -/
structure Finished (s t : Stream) (r : Request) : Prop extends Frame s t where
  cursors : Cursors s t
  outstanding : t.outstanding = s.outstanding - 1
  in_flight : s.read_back = true → ∃ f, f.io = r.io ∧ s.in_flight.Perm (f :: t.in_flight)
  in_flight_unused : s.read_back = false → t.in_flight = s.in_flight
  held : t.held = s.held
  due : t.due = s.due ++ if r.write && s.read_back && !s.race then [read_back_of r] else []

theorem finish.spec {buffer : List UInt8} {r : Request} (h : s.finish env buffer r = some t) :
    Finished s t r := by
  obtain ⟨u, hu, rfl⟩ := Option.map_eq_some_iff.mp h
  obtain ⟨hr, h1, h2⟩ := retire_cases hu
  obtain ⟨c1, c2, c3, c4⟩ := count_lists (u.settle buffer r) env r
  obtain ⟨d1, d2, d3, d4⟩ := settle_lists u buffer r
  have hframe : Frame s u := by rw [hr]; constructor <;> rfl
  have hcursors : Cursors s u := by rw [hr]; constructor <;> rfl
  refine ⟨(hframe.trans (settle_frame u buffer r)).trans (count_frame _ env r),
    (hcursors.trans (settle_cursors u buffer r)).trans (count_cursors _ env r), ?_, ?_, ?_, ?_, ?_⟩
  · rw [c3, d3, hr]
  · rw [c1, d1]; exact h1
  · rw [c1, d1]; exact h2
  · rw [c2, d2, hr]
  · rw [c4, d4, hframe.read_back, hframe.race, hr]

theorem complete_counts (st : Stats) (r : Request) (measured : Bool) :
    (st.complete r measured).incorrect = st.incorrect ∧
    (st.complete r measured).verified = st.verified ∧
    (st.complete r measured).completed_writes = st.completed_writes + (if r.write then 1 else 0) ∧
    (st.complete r measured).completed_reads = st.completed_reads + (if r.write then 0 else 1) := by
  unfold Stats.complete
  by_cases hw : r.write = true <;> cases measured <;> simp [hw]

theorem limit_reached_of_cursors (hf : Frame s t) (hc : Cursors s t) :
    t.limit_reached = s.limit_reached := by
  unfold limit_reached ops
  rw [hf.limit, hf.byte_limit, hf.work, hc.wv_ops, hc.index, hc.queued_bytes]

theorem settle_counts (s : Stream) (buffer : List UInt8) (r : Request) :
    (s.settle buffer r).stats.verified = s.stats.verified + (if is_read_back r then 1 else 0) ∧
    (s.settle buffer r).stats.completed_writes = s.stats.completed_writes ∧
    (s.settle buffer r).stats.completed_reads = s.stats.completed_reads := by
  unfold settle
  dsimp only
  split_ifs <;> exact ⟨rfl, rfl, rfl⟩

theorem count_counts (s : Stream) (env : Env) (r : Request) :
    (s.count env r).stats.verified = s.stats.verified ∧
    (s.count env r).stats.completed_writes =
      s.stats.completed_writes + (if r.write then 1 else 0) ∧
    (s.count env r).stats.completed_reads = s.stats.completed_reads +
      (if r.write then 0
        else if !is_read_back r || (s.counted_read_backs && !s.limit_reached) then 1 else 0) := by
  unfold count
  split_ifs with hc hw hw
  · have h := complete_counts s.stats r (s.duration.all fun d => decide (env.elapsed < d))
    simpa [hw] using h.2
  · have h := complete_counts s.stats r (s.duration.all fun d => decide (env.elapsed < d))
    simpa [hw] using h.2
  · -- a write is never a read-back, so it is always counted
    exact absurd (by simp [not_read_back_of_write hw]) hc
  · exact ⟨rfl, rfl, rfl⟩

/-- A completion counts a mismatch only for a read-back that fails its check. -/
theorem finish_incorrect {buffer : List UInt8} {r : Request} (h : s.finish env buffer r = some t)
    (hc : is_read_back r = true → check_pattern buffer r s.work s.seed s.template = true) :
    t.stats.incorrect = s.stats.incorrect := by
  obtain ⟨u, hu, rfl⟩ := Option.map_eq_some_iff.mp h
  obtain ⟨hr, _, _⟩ := retire_cases hu
  have h1 : ∀ v : Stream, (v.count env r).stats.incorrect = v.stats.incorrect := by
    intro v
    unfold count
    split_ifs
    · exact (complete_counts _ _ _).1
    · rfl
  have h2 : (u.settle buffer r).stats.incorrect = u.stats.incorrect := by
    unfold settle
    split_ifs with hb hp hw
    · rfl
    · rw [hr] at hp
      exact absurd (hc hb) hp
    · rfl
    · rfl
  rw [h1, h2, hr]

/-- The counts after one completion: a read-back is verified, and any other
request is an operation. -/
theorem finish_counts {buffer : List UInt8} {r : Request} (h : s.finish env buffer r = some t) :
    t.stats.verified = s.stats.verified + (if is_read_back r then 1 else 0) ∧
    t.stats.completed_writes = s.stats.completed_writes + (if r.write then 1 else 0) ∧
    t.stats.completed_reads = s.stats.completed_reads +
      (if r.write then 0
        else if !is_read_back r || (s.counted_read_backs && !s.limit_reached) then 1 else 0) := by
  obtain ⟨u, hu, rfl⟩ := Option.map_eq_some_iff.mp h
  obtain ⟨hr, _, _⟩ := retire_cases hu
  have hframe : Frame s u := by rw [hr]; constructor <;> rfl
  have hcursors : Cursors s u := by rw [hr]; constructor <;> rfl
  have hstats : u.stats = s.stats := by rw [hr]
  have hf := hframe.trans (settle_frame u buffer r)
  have hlimit := limit_reached_of_cursors hf (hcursors.trans (settle_cursors u buffer r))
  obtain ⟨c1, c2, c3⟩ := count_counts (u.settle buffer r) env r
  obtain ⟨d1, d2, d3⟩ := settle_counts u buffer r
  rw [hlimit, hf.counted_read_backs] at c3
  exact ⟨by rw [c1, d1, hstats], by rw [c2, d2, hstats], by rw [c3, d3, hstats]⟩

/-- Which completions the operations count. -/
theorem finish_operations {buffer : List UInt8} {r : Request}
    (h : s.finish env buffer r = some t) :
    t.stats.completed_reads + t.stats.completed_writes =
      s.stats.completed_reads + s.stats.completed_writes +
        (if !is_read_back r || (s.counted_read_backs && !s.limit_reached) then 1 else 0) := by
  obtain ⟨_, h1, h2⟩ := finish_counts h
  by_cases hw : r.write = true
  · have hrb := not_read_back_of_write hw
    simp only [hw, hrb, if_true, Bool.not_false, Bool.true_or] at h1 h2 ⊢
    omega
  · simp only [hw, Bool.false_eq_true, if_false] at h1 h2
    rw [h1, h2]
    omega

/-- A completion of a request that is in flight is always taken. -/
theorem finish_isSome (buffer : List UInt8) {r : Request}
    (h : s.read_back = true → r.io ∈ s.in_flight.map Request.io) :
    (s.finish env buffer r).isSome = true := by
  unfold finish retire
  split_ifs with hb
  · obtain ⟨f, hf, hio⟩ := List.mem_map.mp (h hb)
    have hi : (s.in_flight.findIdx? (same_io · r)).isSome = true := by
      rw [List.findIdx?_isSome, List.any_eq_true]
      exact ⟨f, hf, (same_io_iff f r).mpr hio⟩
    simpa using hi
  · rfl

end Stream

end stutools
