-- A stream over a pool of paths: the pool asks the stream for each free slot
-- and reports every completion to it. Requests that the pool holds back, sends
-- again or moves to another path are still out for the stream, so what may be
-- in flight together is what the stream lets out together.
import Stutools.PoolSlots
import Stutools.StreamRace

open flags

namespace stutools

variable {σ : Type} {T : Transport σ}

/-- The number of paths requests can be sent to: standby paths do not count. -/
def Pool.endpoints (p : Pool σ) : Nat := (List.range p.lanes.paths).countP p.lanes.is_usable

/-- A stream and the call of `drive` that serves it. -/
structure StreamedPool (σ : Type) where
  stream : Stream
  drive : Drive σ

/-- `Run::stream` over a pool: whether read-backs race is set on both sides. -/
def Run.stream_over (run : Run) (p : Pool σ) : StreamedPool σ :=
  let stream := run.stream_of p.endpoints
  { stream, drive := Drive.start (p.set_race stream.race) .stream }

namespace Drive

/-- Whether the next step asks the source for a request. -/
def asks (d : Drive σ) : Bool :=
  match d.phase, d.held, d.pool.retry, d.pool.free with
  | .fetch, none, [], _ :: _ => !d.exhausted && decide (d.mode = .stream)
  | _, _, _, _ => false

end Drive

namespace StreamedPool

/-- The next step: the source is asked, or `drive` goes on, with the time and the
slot's buffer for a completion it reports. -/
inductive Event (σ : Type) where
  | source (env : Env)
  | drive (input : Input σ) (env : Env) (buffer : List UInt8)

/-- The completions that a step reports, in order. -/
def reported (d e : Drive σ) : List Request :=
  (e.completed.drop d.completed.length).map fun c => c.2.2

/-- One step of the stream over the pool. None where the step does not fit, or
after the panic of a completion that the stream did not hand out. -/
def step (T : Transport σ) (w : StreamedPool σ) : Event σ → Option (StreamedPool σ)
  | .source env =>
    if w.drive.asks then
      (w.drive.step T (.offer (w.stream.source env).1)).map fun drive =>
        { stream := (w.stream.source env).2, drive }
    else none
  | .drive input env buffer =>
    if w.drive.asks then none
    else
      (w.drive.step T input).bind fun drive =>
        ((reported w.drive drive).foldlM (fun s r => Stream.finish s env buffer r)
          w.stream).map fun stream => { stream, drive }

/-- The answers of sessions that keep the transport's contract. -/
def Event.Obeys (C : Contract T) (w : StreamedPool σ) : Event σ → Prop
  | .source _ => True
  | .drive input _ _ => C.Obeys w.drive input

end StreamedPool

/-! ## What a step does to the record -/

namespace Drive

variable {d e : Drive σ} {input : Input σ}

theorem asks_iff : d.asks = true ↔ d.phase = .fetch ∧ d.held = none ∧ d.pool.retry = [] ∧
    (∃ slot free, d.pool.free = slot :: free) ∧ d.exhausted = false ∧ d.mode = .stream := by
  unfold asks
  split
  · rename_i slot free hphase hheld hretry hfree
    simp [hphase, hheld, hretry, hfree]
  · rename_i hno
    refine iff_of_false Bool.false_ne_true ?_
    rintro ⟨hphase, hheld, hretry, ⟨slot, free, hfree⟩, -⟩
    exact hno slot free hphase hheld hretry hfree

/-- What the source answers goes into a slot, or ends the asking. -/
theorem step_of_asks (h : d.asks = true) (n : Next) : ∃ slot free, d.pool.free = slot :: free ∧
    d.step T (.offer n) = some (match n with
      | .request q => ({ d with pool := { d.pool with free } }).take slot q
      | .wait => { d with phase := .wait }
      | .done => { d with exhausted := true }) := by
  obtain ⟨hphase, hheld, hretry, ⟨slot, free, hfree⟩, hexhausted, hmode⟩ := asks_iff.mp h
  refine ⟨slot, free, hfree, ?_⟩
  unfold step fetch
  simp only [hphase, hheld, hretry, hfree, hexhausted, hmode]
  cases n with
  | request q => rfl
  | wait => simp
  | done => simp

theorem finish_offered (d : Drive σ) (path : Nat) (s : σ) (done : Done) (nanos : Nat) :
    (d.finish path s done nanos).offered = d.offered ∧
      (d.finish path s done nanos).mode = d.mode := by
  unfold finish
  dsimp only
  split
  · exact ⟨rfl, rfl⟩
  split
  · exact ⟨rfl, rfl⟩
  split
  · exact ⟨rfl, rfl⟩
  · exact ⟨rfl, rfl⟩

theorem Move.mode (h : Move T d input e) : e.mode = d.mode := by
  cases h with
  | finish => exact (finish_offered _ _ _ _ _).2
  | _ => rfl

/-- A step that does not ask the source takes no request from it. -/
theorem Move.offered_of_not_asks (h : Move T d input e) (hmode : d.mode = .stream)
    (hasks : d.asks = false) : e.offered = d.offered := by
  cases h with
  | execute _ _ mode =>
    rw [hmode] at mode
    cases mode
  | stream held retry mode next fetching more =>
    have hasks' : d.asks = true := asks_iff.mpr ⟨fetching, held, retry, ⟨_, _, next⟩, more, mode⟩
    rw [hasks] at hasks'
    cases hasks'
  | finish => exact (finish_offered _ _ _ _ _).1
  | _ => rfl

/-- A step completes one request at most. -/
theorem Move.completed (h : Move T d input e) :
    e.completed = d.completed ∨ ∃ c, e.completed = d.completed ++ [c] := by
  cases h with
  | finish =>
    unfold Drive.finish
    dsimp only
    split
    · exact .inl rfl
    split
    · exact .inr ⟨_, rfl⟩
    split
    · exact .inl rfl
    · exact .inl rfl
  | _ => exact .inl rfl

/-! ## What is in flight together -/

/-- The request of one slot is the read-back issued for the write of another. -/
def Own (d : Drive σ) (write read : Nat) : Prop :=
  (d.pool.req_of write).write = true ∧
  d.pool.req_of read = read_back_of (d.pool.req_of write) ∧
  OwnReadBack d.offered (d.offer_of write) (d.offer_of read)

/-- Only a write and its own read-back are in flight together and conflict. -/
def OnlyOwn (d : Drive σ) : Prop :=
  ∀ a ∈ d.pool.flying, ∀ b ∈ d.pool.flying, a ≠ b →
    conflict (d.pool.req_of a) (d.pool.req_of b) = true → d.Own a b ∨ d.Own b a

theorem OnlyOwn.mono (h : d.OnlyOwn) (hflying : ∀ slot ∈ e.pool.flying, slot ∈ d.pool.flying)
    (hreq : e.pool.slot_req = d.pool.slot_req) (hoffered : e.offered = d.offered)
    (hslots : e.slot_offer = d.slot_offer) : e.OnlyOwn := by
  have hreqs : e.pool.req_of = d.pool.req_of := by
    funext slot
    unfold Pool.req_of
    rw [hreq]
  have hown : e.Own = d.Own := by
    funext a b
    unfold Own offer_of
    rw [hreqs, hoffered, hslots]
  intro a ha b hb hne hconflict
  rw [hreqs] at hconflict
  rw [hown]
  exact h a (hflying a ha) b (hflying b hb) hne hconflict

/-- The places of the requests that the pool has and has not completed. -/
def out (d : Drive σ) : List Nat := d.used.map d.offer_of

variable {C : Contract T} {depth : Nat}

theorem Conserved.out_nodup (h : Conserved C depth d) : d.out.Nodup :=
  (List.nodup_append.mp (h.ledger.nodup_iff.mpr List.nodup_range)).2.1

/-- What the stream lets out together is what the pool may have in flight together. -/
theorem Conserved.only_own {s : Stream} (h : Conserved C depth d)
    (hs : Raced s d.offered d.out) : d.OnlyOwn := by
  have hown : ∀ a ∈ d.used, ∀ b ∈ d.used, d.offer_of a < d.offer_of b →
      conflict (d.pool.req_of a) (d.pool.req_of b) = true → d.Own a b := by
    intro a ha b hb hlt hconflict
    have hwrite := h.requests a ha
    have hread := h.requests b hb
    have hpair := hs.history.pairs _ (List.mem_map_of_mem ha) _ (List.mem_map_of_mem hb) hlt _ _
      hwrite hread (by rw [Apart, hconflict]; exact Bool.true_eq_false_eq_False)
    obtain ⟨w, hw1, hw2, hw3⟩ := hpair.pair
    obtain rfl := Option.some.inj (hwrite.symm.trans hw1)
    exact ⟨hw2, Option.some.inj (hread.symm.trans hw3), hpair⟩
  intro a ha b hb hne hconflict
  have ha : a ∈ d.used := List.mem_append_right _ (List.mem_append_right _ ha)
  have hb : b ∈ d.used := List.mem_append_right _ (List.mem_append_right _ hb)
  rcases Nat.lt_trichotomy (d.offer_of a) (d.offer_of b) with hlt | heq | hgt
  · exact .inl (hown a ha b hb hlt hconflict)
  · exact absurd (List.inj_on_of_nodup_map h.out_nodup ha hb heq) hne
  · rw [conflict_comm] at hconflict
    exact .inr (hown b hb a ha hgt hconflict)

/-- How the places change: by the requests taken and completed. -/
theorem Conserved.out_same (hd : Conserved C depth d) (he : Conserved C depth e)
    (hoffered : e.offered = d.offered) (hcompleted : e.completed = d.completed) :
    e.out.Perm d.out := by
  have hledger := he.ledger
  rw [hoffered, hcompleted] at hledger
  exact (List.perm_append_left_iff _).mp (hledger.trans hd.ledger.symm)

theorem Conserved.out_taken {q : Request} (hd : Conserved C depth d) (he : Conserved C depth e)
    (hoffered : e.offered = d.offered ++ [q]) (hcompleted : e.completed = d.completed) :
    e.out.Perm (d.offered.length :: d.out) := by
  have hledger := he.ledger
  rw [hoffered, hcompleted, List.length_append, List.length_singleton, List.range_succ] at hledger
  have hnext : (d.completed.map (·.1) ++ e.out).Perm
      (d.completed.map (·.1) ++ (d.offered.length :: d.out)) :=
    hledger.trans ((List.perm_append_singleton _ _).trans
      ((hd.ledger.symm.cons _).trans List.perm_middle.symm))
  exact (List.perm_append_left_iff _).mp hnext

theorem Conserved.out_completed {c : Nat × Nat × Request} (hd : Conserved C depth d)
    (he : Conserved C depth e) (hoffered : e.offered = d.offered)
    (hcompleted : e.completed = d.completed ++ [c]) : d.out.Perm (c.1 :: e.out) := by
  have hledger := he.ledger
  rw [hoffered, hcompleted, List.map_append, List.append_assoc] at hledger
  exact (List.perm_append_left_iff _).mp (hd.ledger.trans hledger.symm)

end Drive

theorem Raced.out_perm {s : Stream} {l : List Request} {out out' : List Nat} (h : Raced s l out)
    (hout : out'.Perm out) : Raced s l out' :=
  ⟨h.read_back, h.race, h.shaped, h.in_flight.trans (hout.symm.map _),
    fun i hi => h.places i (hout.subset hi), h.history.perm (List.Perm.refl _) fun _ hi =>
      hout.subset hi⟩

namespace StreamedPool

variable {C : Contract T} {depth : Nat} {w v : StreamedPool σ}

/-- What every state of a racing stream over a pool keeps; a call that a command's
error ended keeps what was in flight. -/
structure Kept (C : Contract T) (depth : Nat) (w : StreamedPool σ) : Prop where
  mode : w.drive.mode = .stream
  kept : Drive.Conserved C depth w.drive ∧ Raced w.stream w.drive.offered w.drive.out ∨
    w.drive.Failed ∧ w.drive.OnlyOwn

theorem Kept.source {env : Env} (h : Kept C depth w) (hstep : w.step T (.source env) = some v) :
    Kept C depth v := by
  unfold step at hstep
  dsimp only at hstep
  split at hstep
  · rename_i hasks
    obtain ⟨e, he, rfl⟩ := Option.map_eq_some_iff.mp hstep
    have hphase := (Drive.asks_iff.mp hasks).1
    obtain ⟨hd, hs⟩ | ⟨⟨done, hfailed⟩, -⟩ := h.kept
    · have hmove := Drive.step_move hd.fits.lanes he
      have hconserved : Drive.Conserved C depth e := by
        refine (hmove.conserved hd trivial).resolve_right ?_
        rintro ⟨done, hdone⟩
        obtain ⟨slot, free, -, heq⟩ := Drive.step_of_asks (T := T) hasks (w.stream.source env).1
        rw [he] at heq
        cases hn : (w.stream.source env).1 with
        | request q =>
          rw [hn] at heq
          cases heq
          cases hdone
        | wait =>
          rw [hn] at heq
          cases heq
          cases hdone
        | done =>
          rw [hn] at heq
          cases heq
          dsimp only at hdone
          rw [hphase] at hdone
          cases hdone
      refine ⟨hmove.mode.trans h.mode, .inl ⟨hconserved, ?_⟩⟩
      obtain ⟨hrequest, hother⟩ := hs.source (Prod.mk.eta (p := w.stream.source env)).symm
      obtain ⟨slot, free, -, heq⟩ := Drive.step_of_asks (T := T) hasks (w.stream.source env).1
      rw [he] at heq
      cases hn : (w.stream.source env).1 with
      | request q =>
        rw [hn] at heq
        obtain rfl := Option.some.inj heq
        exact (hrequest q hn).out_perm (hd.out_taken hconserved rfl rfl)
      | wait =>
        rw [hn] at heq
        obtain rfl := Option.some.inj heq
        exact (hother (by rw [hn]; exact nofun)).out_perm (hd.out_same hconserved rfl rfl)
      | done =>
        rw [hn] at heq
        obtain rfl := Option.some.inj heq
        exact (hother (by rw [hn]; exact nofun)).out_perm (hd.out_same hconserved rfl rfl)
    · rw [hphase] at hfailed
      cases hfailed
  · cases hstep

theorem Kept.drive {input : Input σ} {env : Env} {buffer : List UInt8} (h : Kept C depth w)
    (hok : C.Obeys w.drive input) (hstep : w.step T (.drive input env buffer) = some v) :
    Kept C depth v := by
  unfold step at hstep
  dsimp only at hstep
  split at hstep
  · cases hstep
  rename_i hasks
  rw [Bool.not_eq_true] at hasks
  obtain ⟨e, he, hstep⟩ := Option.bind_eq_some_iff.mp hstep
  obtain ⟨s, hs, rfl⟩ := Option.map_eq_some_iff.mp hstep
  obtain ⟨hd, hraced⟩ | ⟨⟨done, hfailed⟩, -⟩ := h.kept
  · have hmove := Drive.step_move hd.fits.lanes he
    have hoffered := hmove.offered_of_not_asks h.mode hasks
    refine ⟨hmove.mode.trans h.mode, ?_⟩
    rcases hmove.conserved hd hok with hconserved | hfailed
    · left
      refine ⟨hconserved, ?_⟩
      dsimp only
      rw [hoffered]
      unfold reported at hs
      rcases hmove.completed with hcompleted | ⟨c, hcompleted⟩
      · rw [hcompleted, List.drop_length] at hs
        obtain rfl := Option.some.inj hs
        exact hraced.out_perm (hd.out_same hconserved hoffered hcompleted)
      · rw [hcompleted, List.drop_left, List.map_singleton, List.foldlM_cons] at hs
        obtain ⟨t, ht, hs⟩ := Option.bind_eq_some_iff.mp hs
        obtain rfl := Option.some.inj hs
        have hplace : w.drive.offered[c.1]? = some c.2.2 := by
          rw [← hoffered]
          refine hconserved.completed c ?_
          rw [hcompleted]
          exact List.mem_append_right _ List.mem_cons_self
        exact hraced.finish ht (hd.out_completed hconserved hoffered hcompleted) hplace
    · obtain ⟨hflying, hreq, -, hslots, -⟩ := hmove.of_failed hfailed
      exact .inr ⟨hfailed, (hd.only_own hraced).mono hflying hreq hoffered hslots⟩
  · unfold Drive.step at he
    rw [hfailed] at he
    cases he

theorem Kept.step {event : Event σ} (h : Kept C depth w) (hok : event.Obeys C w)
    (hstep : w.step T event = some v) : Kept C depth v := by
  cases event with
  | source env => exact h.source hstep
  | drive input env buffer => exact h.drive hok hstep

theorem Kept.start {run : Run} {p : Pool σ} (hready : p.Ready C depth .stream)
    (hrace : (run.stream_over p).stream.race = true) : Kept C depth (run.stream_over p) := by
  have hread_back : (run.stream_over p).stream.read_back = true := by
    unfold Run.stream_over Run.stream_of at hrace ⊢
    dsimp only at hrace ⊢
    rw [Bool.and_assoc, Bool.and_eq_true] at hrace
    exact hrace.1
  have hset : (p.set_race (run.stream_over p).stream.race).Ready C depth .stream :=
    ⟨⟨hready.fits.lanes, hready.fits.down, hready.fits.reported⟩, hready.idle, hready.down,
      hready.flying, hready.retry, hready.in_flight, hready.inflight_length, hready.req_length,
      hready.path_length, hready.slots⟩
  have hconserved : Drive.Conserved C depth (run.stream_over p).drive := .start hset
  refine ⟨rfl, .inl ⟨hconserved, ?_⟩⟩
  have hout : (run.stream_over p).drive.out = [] := by
    have hledger := hconserved.ledger
    have hnone : ((run.stream_over p).drive.completed.map (·.1) ++
        (run.stream_over p).drive.out).Perm [] := hledger
    exact (List.append_eq_nil_iff.mp hnone.eq_nil).2
  rw [hout]
  exact Raced.start ⟨rfl, rfl, rfl, rfl⟩ hread_back hrace

/-- In every state that a racing stream over a pool reaches, with any number of
paths and any order of requests, completions, dropped connections and failovers:
two requests in flight on the pool of which one writes and that overlap are a
write and the read-back issued for that write. -/
theorem only_a_write_and_its_own_read_back_race (C : Contract T) {run : Run} {p : Pool σ}
    {events : List (Event σ)} (hready : p.Ready C depth .stream)
    (hrace : (run.stream_over p).stream.race = true)
    (hrun : machine.run (step T) (run.stream_over p) events = some w)
    (hok : machine.Along (step T) (fun w e => e.Obeys C w) (run.stream_over p) events) :
    ∀ a ∈ w.drive.pool.flying, ∀ b ∈ w.drive.pool.flying, a ≠ b →
      conflict (w.drive.pool.req_of a) (w.drive.pool.req_of b) = true →
      w.drive.Own a b ∨ w.drive.Own b a := by
  have hkept : Kept C depth w :=
    machine.invariant_along (fun _ _ _ hw he hstep => hw.step he hstep) hrun hok
      (Kept.start hready hrace)
  rcases hkept.kept with ⟨hconserved, hraced⟩ | ⟨-, honly⟩
  · exact hconserved.only_own hraced
  · exact honly

/-! ## A read-back that races its write -/

/-- A `V` workload over one block of 512 bytes. -/
def one_block : Run :=
  { generated :=
      { entries := [Request.default], rng := 0, pass := 0, lo := 0, hi := 512
        work := { Workload.pairs 512 1 none with write_verify_race := true }
        pending_checks := 0, entries_pos := Nat.one_pos }
    wv_count := 0
    wv_state := 1
    wv_pending := none
    wv_lo := 0
    wv_hi := 512
    template := []
    work := { Workload.pairs 512 1 none with write_verify_race := true }
    seed := 0
    reusable := false
    verify := false
    record_latency := false
    duration := none
    limit := none
    byte_limit := none
    streamed := true
    stats := {}
    index := 0 }

/-- The write is sent on the first path and its read-back on the second. -/
def both_sent : List (Event (Finset Nat)) :=
  [.drive (.reconnect fun _ => .waiting) .calm [], .drive (.ticks fun _ => some ∅) .calm [],
    .source .calm, .drive (.submitted (some {0})) .calm [],
    .source .calm, .drive (.submitted (some {1})) .calm []]

theorem both_sent_run : ∃ p w, Pool.tagged_two = some p ∧
    (one_block.stream_over p).stream.race = true ∧
    machine.run (step .tagged) (one_block.stream_over p) both_sent = some w ∧
    w.drive.pool.flying = [0, 1] ∧
    conflict (w.drive.pool.req_of 0) (w.drive.pool.req_of 1) = true ∧
    machine.Along (step .tagged) (fun w e => e.Obeys Contract.tagged w) (one_block.stream_over p)
      both_sent := by
  refine ⟨_, _, rfl, rfl, rfl, rfl, rfl, ?_⟩
  refine ⟨nofun, fun d hd => ?_⟩
  cases hd
  refine ⟨fun path s s' hs hs' => ?_, fun d hd => ?_⟩
  · cases hs'
    rcases session_two hs with ⟨-, hs⟩ | ⟨-, hs⟩
    · cases hs
      rfl
    · cases hs
      rfl
  cases hd
  refine ⟨trivial, fun d hd => ?_⟩
  cases hd
  refine ⟨fun slot req path io q s hheld hchoose hs => ?_, fun d hd => ?_⟩
  · cases hheld
    rcases session_two hs with ⟨-, hs⟩ | ⟨-, hs⟩
    · cases hs
      rfl
    · cases hs
      rfl
  cases hd
  refine ⟨trivial, fun d hd => ?_⟩
  cases hd
  refine ⟨fun slot req path io q s hheld hchoose hs => ?_, fun _ _ => trivial⟩
  cases hheld
  cases hchoose
  cases hs
  rfl

/-- The write and its read-back are in flight together on the two paths. -/
theorem a_read_back_races_its_write : ∃ p w, Pool.tagged_two = some p ∧
    machine.run (step .tagged) (one_block.stream_over p) both_sent = some w ∧
    w.drive.pool.flying = [0, 1] ∧ (w.drive.Own 0 1 ∨ w.drive.Own 1 0) := by
  obtain ⟨p, w, hp, hrace, hrun, hflying, hconflict, hok⟩ := both_sent_run
  have hown := only_a_write_and_its_own_read_back_race Contract.tagged
    (Pool.tagged_two_ready hp) hrace hrun hok 0 (by simp [hflying]) 1 (by simp [hflying])
    (by decide) hconflict
  exact ⟨p, w, hp, hrun, hflying, hown⟩

end StreamedPool

end stutools
