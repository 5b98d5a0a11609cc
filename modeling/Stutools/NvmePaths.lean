-- NVMe/TCP sessions under the pool. What comes from outside is what the
-- controllers send: lists of PDUs, the answers to Keep Alive, connections that
-- open or fail. A session's tags are the command identifiers in flight on it.
import Stutools.NvmeSession
import Stutools.PoolSlots

open bytes

namespace stutools

namespace nvme

def PENDING_SLOTS : Nat := 1024

namespace Session

/-! ## The commands in flight -/

/-- The identifiers of the commands in flight. -/
def tags (s : Session) : Finset Nat :=
  (Finset.range s.pending.length).filter fun cid => (s.find cid).isSome

/-- The counter is the number of commands in flight, and every identifier has 16 bits. -/
structure Sound (s : Session) : Prop where
  counted : s.inflight = s.tags.card
  identifiers : s.pending.length ≤ 2 ^ 16

theorem find_lt {s : Session} {cid : Nat} {pending : Pending} (h : s.find cid = some pending) :
    cid < s.pending.length := by
  by_contra hge
  unfold find at h
  rw [List.getElem?_eq_none (by omega)] at h
  cases h

theorem mem_tags {s : Session} {cid : Nat} : cid ∈ s.tags ↔ (s.find cid).isSome = true := by
  unfold tags
  rw [Finset.mem_filter, Finset.mem_range, and_iff_right_iff_imp]
  intro h
  obtain ⟨pending, hpending⟩ := Option.isSome_iff_exists.mp h
  exact find_lt hpending

/-- Only the table of commands says what is in flight. -/
theorem find_congr {s t : Session} (h : t.pending = s.pending) : t.find = s.find := by
  funext cid
  unfold find
  rw [h]

theorem tags_congr {s t : Session} (h : t.pending = s.pending) : t.tags = s.tags := by
  unfold tags
  rw [find_congr h, h]

theorem Sound.congr {s t : Session} (hs : s.Sound) (hpending : t.pending = s.pending)
    (hinflight : t.inflight = s.inflight) : t.Sound := by
  refine ⟨?_, ?_⟩
  · rw [hinflight, tags_congr hpending]
    exact hs.counted
  · rw [hpending]
    exact hs.identifiers

theorem Sound.inflight_le {s : Session} (hs : s.Sound) : s.inflight ≤ 2 ^ 16 := by
  have hcard : s.tags.card ≤ (Finset.range s.pending.length).card := Finset.card_filter_le _ _
  rw [Finset.card_range] at hcard
  rw [hs.counted]
  exact hcard.trans hs.identifiers

/-- A command that is sent is in flight. -/
theorem submit_tags {s t : Session} {alive : Bool} {tag : Nat} {io : Io} {len : Nat}
    (h : s.submit alive tag io len = .ok t) : t.tags = insert tag s.tags := by
  obtain ⟨-, -, -, -, hpending, -⟩ := submit.spec h
  ext cid
  rw [Finset.mem_insert, mem_tags, mem_tags]
  unfold find
  rw [hpending]
  by_cases heq : cid = tag
  · rw [heq, List.getElem?_set_self (table_length s tag)]
    simp
  · rw [List.getElem?_set_ne (Ne.symm heq), table_find]
    simp [heq, find]

theorem Sound.submit {s t : Session} (hs : s.Sound) {alive : Bool} {tag : Nat} {io : Io}
    {len : Nat} (h : s.submit alive tag io len = .ok t) (hfree : tag ∉ s.tags) : t.Sound := by
  obtain ⟨htag, -, -, hinflight, hpending, -⟩ := submit.spec h
  refine ⟨?_, ?_⟩
  · rw [hinflight, submit_tags h, Finset.card_insert_of_notMem hfree, hs.counted]
  · have hlen := hs.identifiers
    rw [hpending, List.length_set]
    unfold table
    split
    · rw [List.length_append, List.length_replicate]
      omega
    · exact hlen

/-- A command that finishes is not in flight any more. -/
theorem finish_tags (s : Session) (cid : UInt16) (cqe : Completion) :
    (s.finish cid cqe).1.tags = s.tags.erase cid.toNat := by
  ext other
  rw [Finset.mem_erase, mem_tags, mem_tags]
  unfold find finish
  dsimp only
  rw [List.getElem?_set]
  by_cases heq : cid.toNat = other
  · rw [if_pos heq]
    split <;> simp [heq]
  · rw [if_neg heq]
    simp [Ne.symm heq]

theorem finish_inflight {s : Session} (hs : s.Sound) {cid : UInt16} (hcid : cid.toNat ∈ s.tags)
    (cqe : Completion) : (s.finish cid cqe).1.inflight + 1 = s.inflight := by
  have hpos : 0 < s.tags.card := Finset.card_pos.mpr ⟨_, hcid⟩
  have hle := hs.inflight_le
  rw [← hs.counted] at hpos
  show (s.inflight + (2 ^ 64 - 1)) % 2 ^ 64 + 1 = s.inflight
  omega

theorem Sound.finish {s : Session} (hs : s.Sound) {cid : UInt16} (hcid : cid.toNat ∈ s.tags)
    (cqe : Completion) : (s.finish cid cqe).1.Sound := by
  have hinflight := finish_inflight hs hcid cqe
  have hcard := Finset.card_erase_add_one hcid
  have hcounted := hs.counted
  refine ⟨?_, ?_⟩
  · rw [finish_tags]
    omega
  · show (s.pending.set cid.toNat none).length ≤ 2 ^ 16
    rw [List.length_set]
    exact hs.identifiers

/-! ## What a wait for a command handles -/

/-- The PDUs that `poll` handles, each with the session that handles it. -/
def handled (s : Session) : List (Bool × Pdu) → List (Session × Pdu)
  | [] => []
  | (alive, p) :: ps =>
    if !alive then []
    else if (s.handle_pdu p).2 = .more then (s, p) :: handled (s.handle_pdu p).1 ps
    else [(s, p)]

/-- Every PDU is proper when it is handled. -/
def AllProper (s : Session) (ps : List (Bool × Pdu)) : Prop :=
  ∀ x ∈ s.handled ps, x.1.Proper x.2

/-- What the safety of a wait is: no panic, access only to the buffers of commands
in flight, and a completion only for one of those, which the counter counts off. -/
structure SafePoll (s : Session) (ps : List (Bool × Pdu)) : Prop where
  no_panic : (s.poll ps).2 ≠ .panic
  touched : ∀ t ∈ (s.poll ps).1.touched, t ∈ s.touched ∨ s.InBuffer t
  completion : ∀ done, (s.poll ps).2 = .done done → done.tag ∈ s.tags ∧
    (s.poll ps).1.tags = s.tags.erase done.tag ∧ (s.poll ps).1.inflight + 1 = s.inflight ∧
    (s.poll ps).1.Sound

/-- Where the first PDU leaves the wait to go on, the rest is as safe as before it. -/
theorem SafePoll.congr {s t : Session} {ps : List (Bool × Pdu)} (h : t.SafePoll ps)
    (hpending : t.pending = s.pending) (hinflight : t.inflight = s.inflight)
    (htouched : ∀ x ∈ t.touched, x ∈ s.touched ∨ s.InBuffer x) {r : Session × Step}
    (hr : r = t.poll ps) :
    r.2 ≠ .panic ∧ (∀ x ∈ r.1.touched, x ∈ s.touched ∨ s.InBuffer x) ∧
    ∀ done, r.2 = .done done → done.tag ∈ s.tags ∧ r.1.tags = s.tags.erase done.tag ∧
      r.1.inflight + 1 = s.inflight ∧ r.1.Sound := by
  subst hr
  refine ⟨h.no_panic, fun x hx => ?_, fun done hdone => ?_⟩
  · rcases h.touched x hx with hold | ⟨pending, hfind, hbuffer⟩
    · exact htouched x hold
    · rw [find_congr hpending] at hfind
      exact .inr ⟨pending, hfind, hbuffer⟩
  · have hcompletion := h.completion done hdone
    rw [tags_congr hpending, hinflight] at hcompletion
    exact hcompletion

/-- A wait whose PDUs are all proper is safe. -/
theorem poll_safe {s : Session} (hs : s.Sound) {ps : List (Bool × Pdu)} (h : s.AllProper ps) :
    s.SafePoll ps := by
  induction ps generalizing s with
  | nil => exact ⟨nofun, fun _ => .inl, nofun⟩
  | cons x ps ih =>
    obtain ⟨alive, p⟩ := x
    unfold AllProper handled at h
    cases alive with
    | false => exact ⟨nofun, fun _ => .inl, nofun⟩
    | true =>
      rw [Bool.not_true, if_neg Bool.false_ne_true] at h
      have htouched := handle_pdu_touched s p
      by_cases hmore : (s.handle_pdu p).2 = .more
      · have hpoll : s.poll ((true, p) :: ps) = (s.handle_pdu p).1.poll ps := by
          simp only [poll, Bool.not_true, Bool.false_eq_true, if_false, if_pos hmore]
        rw [if_pos hmore] at h
        rcases handle_pdu_outcome s p with ⟨hpanic, -⟩ | ⟨⟨e, hfail⟩, -⟩ |
          ⟨-, -, hpending, hinflight⟩ | ⟨t, cid, cqe, hfin, -⟩
        · rw [hmore] at hpanic
          cases hpanic
        · rw [hmore] at hfail
          cases hfail
        · have hrest := ih (hs.congr hpending hinflight) fun x hx => h x (List.mem_cons_of_mem _ hx)
          obtain ⟨h1, h2, h3⟩ := hrest.congr hpending hinflight htouched hpoll
          exact ⟨h1, h2, h3⟩
        · rw [hfin] at hmore
          cases hmore
      · have hpoll : s.poll ((true, p) :: ps) = s.handle_pdu p := by
          simp only [poll, Bool.not_true, Bool.false_eq_true, if_false, if_neg hmore]
        rw [if_neg hmore] at h
        have hproper : s.Proper p := h (s, p) List.mem_cons_self
        obtain ⟨hpanic, -, htouch⟩ := (safe_iff_proper s p).mpr hproper
        rw [← hpoll] at hpanic htouch
        refine ⟨hpanic, htouch, fun done hdone => ?_⟩
        rw [hpoll] at hdone ⊢
        rcases handle_pdu_outcome s p with ⟨hno, -⟩ | ⟨⟨e, hfail⟩, -⟩ | ⟨hno, -⟩ |
          ⟨t, cid, cqe, hfin, hpending, hinflight, hiff⟩
        · rw [hno] at hdone
          cases hdone
        · rw [hfail] at hdone
          cases hdone
        · exact absurd hno hmore
        · rw [hfin] at hdone ⊢
          cases hdone
          have ht : t.Sound := hs.congr hpending hinflight
          have hcid : cid.toNat ∈ t.tags := by
            rw [tags_congr hpending, mem_tags]
            exact hiff.mp hproper
          refine ⟨?_, ?_, ?_, ht.finish hcid cqe⟩
          · rw [← tags_congr hpending]
            exact hcid
          · rw [← tags_congr hpending]
            exact finish_tags t cid cqe
          · rw [← hinflight]
            exact finish_inflight ht hcid cqe

end Session

/-! ## The pool over NVMe/TCP -/

/-- What opening a path settles. -/
structure Limits where
  /-- The size of the I/O queue, 0-based. -/
  sqsize : UInt16
  inline_limit : Nat
  max_h2c : { n : Nat // 0 < n }
  room : Option Nat

/-- The session that `open` returns. -/
def Session.new (l : Limits) : Session :=
  { pending := List.replicate PENDING_SLOTS none
    inflight := 0
    limit := l.sqsize.toNat + 1
    inline_limit := l.inline_limit
    max_h2c := l.max_h2c
    room := l.room
    touched := [] }

end nvme

open nvme

def Attempt.map {σ τ : Type} (f : σ → τ) : Attempt σ → Attempt τ
  | .waiting => .waiting
  | .failed => .failed
  | .opened s g => .opened (f s) g

def Transport.nvme : Transport nvme.Session :=
  { can_submit := Session.can_submit
    inflight := Session.inflight
    tier := fun _ => none
    check := fun _ io => nvme.check io }

namespace nvme

/-- What the controllers do with a step: how connections and Keep Alive go, and
the PDUs that come while the pool waits for a command. -/
inductive Turn where
  | go
  | reconnect (opens : Nat → Attempt Limits)
  | tick (alive : Nat → Bool)
  | offer (next : Next)
  | submit (alive : Bool)
  | poll (pdus : List (Bool × Pdu)) (nanos : Nat)

/-- What the session makes of it; none after a panic. -/
def answer (d : Drive Session) : Turn → Option (Input Session)
  | .go => some .go
  | .reconnect opens => some (.reconnect fun path => (opens path).map Session.new)
  | .tick alive => some (.ticks fun path => (d.pool.session path).filter fun _ => alive path)
  | .offer next => some (.offer next)
  | .submit alive =>
    match d.held with
    | none => none
    | some (slot, req) =>
      match Drive.choose .nvme d.pool req with
      | (.submit path io, _) => (d.pool.session path).map fun s =>
          .submitted (s.submit alive slot io req.len).toOption
      | _ => none
  | .poll pdus nanos =>
    (Drive.busy_path .nvme d.pool).bind fun path => (d.pool.session path).bind fun s =>
      match s.poll pdus with
      | (s', .done done) => some (.polled (some (s', done)) nanos)
      | (_, .failed _) => some (.polled none nanos)
      | _ => none

/-- One step of `drive` over NVMe/TCP sessions. -/
def step (d : Drive Session) (turn : Turn) : Option (Drive Session) :=
  (answer d turn).bind (d.step .nvme)

/-- The PDUs of a step are all proper when they are handled. -/
def Turn.Proper (d : Drive Session) : Turn → Prop
  | .poll pdus _ => ∀ path s, Drive.busy_path .nvme d.pool = some path →
      d.pool.session path = some s → s.AllProper pdus
  | _ => True

/-! ## The sessions keep the contract -/

/-- The same transport, with its commands counted by their tags. -/
def by_tags : Transport Session := { Transport.nvme with inflight := fun s => s.tags.card }

def contract : Contract by_tags := ⟨Session.tags, fun _ => rfl⟩

theorem Session.new_tags (l : Limits) : (Session.new l).tags = ∅ := by
  rw [Finset.eq_empty_iff_forall_notMem]
  intro cid hcid
  rw [Session.mem_tags] at hcid
  unfold Session.find Session.new at hcid
  dsimp only at hcid
  rw [List.getElem?_replicate] at hcid
  split at hcid <;> cases hcid

theorem Session.new_sound (l : Limits) : (Session.new l).Sound := by
  refine ⟨?_, ?_⟩
  · rw [Session.new_tags]
    rfl
  · show (List.replicate PENDING_SLOTS none).length ≤ 2 ^ 16
    rw [List.length_replicate]
    decide

section

variable {d e : Drive Session} {depth : Nat}

theorem busy_path_by_tags (h : d.pool.Every Session.Sound) :
    Drive.busy_path .nvme d.pool = Drive.busy_path by_tags d.pool := by
  unfold Drive.busy_path
  congr 1
  funext path
  cases hs : d.pool.session path with
  | none => rfl
  | some s =>
    have hcounted := (h path s hs).counted
    show decide (0 < s.inflight) = decide (0 < s.tags.card)
    rw [hcounted]

/-- As long as the counters count the tags, the two transports drive the same way. -/
theorem step_by_tags (h : d.pool.Every Session.Sound) (input : Input Session) :
    d.step .nvme input = d.step by_tags input := by
  unfold Drive.step
  cases d.phase with
  | wait =>
    show d.wait .nvme input = d.wait by_tags input
    unfold Drive.wait
    rw [busy_path_by_tags h]
  | top => rfl
  | tick => rfl
  | fetch => rfl
  | send => rfl
  | finished result => rfl

/-- The slot of the held request is not in flight on any session. -/
theorem held_not_in_flight (hd : Drive.Conserved contract depth d) {slot path : Nat}
    {req : Request} {s : Session} (hheld : d.held = some (slot, req))
    (hs : d.pool.session path = some s) : slot ∉ s.tags := by
  intro htag
  have hflying := ((hd.tracked.tags path s hs slot).mp htag).1
  have hnodup := hd.used_nodup
  unfold Drive.used at hnodup
  rw [hheld] at hnodup
  exact (List.nodup_cons.mp hnodup).1
    (List.mem_append_right _ (List.mem_append_right _ hflying))

/-- What the sessions answer keeps the contract of the pool, and they stay sound. -/
theorem answer.spec {turn : Turn} {input : Input Session}
    (hd : Drive.Conserved contract depth d) (hsound : d.pool.Every Session.Sound)
    (hproper : turn.Proper d) (h : answer d turn = some input) :
    contract.Obeys d input ∧ Drive.Brings Session.Sound input := by
  cases turn with
  | go =>
    cases h
    exact ⟨trivial, trivial⟩
  | reconnect opens =>
    cases h
    have hnew : ∀ path s g, (opens path).map Session.new = .opened s g →
        ∃ l, s = Session.new l := by
      intro path s g hopened
      cases hattempt : opens path with
      | waiting =>
        rw [hattempt] at hopened
        cases hopened
      | failed =>
        rw [hattempt] at hopened
        cases hopened
      | opened l g' =>
        rw [hattempt] at hopened
        cases hopened
        exact ⟨l, rfl⟩
    refine ⟨fun path s g hopened => ?_, fun path s g hopened => ?_⟩
    · obtain ⟨l, rfl⟩ := hnew path s g hopened
      exact Session.new_tags l
    · obtain ⟨l, rfl⟩ := hnew path s g hopened
      exact Session.new_sound l
  | tick alive =>
    cases h
    refine ⟨fun path s s' hs hs' => ?_, fun path s hs => ?_⟩
    · have hs' := (Option.filter_eq_some_iff.mp hs').1
      rw [hs] at hs'
      obtain rfl := Option.some.inj hs'
      rfl
    · exact hsound path s (Option.filter_eq_some_iff.mp hs).1
  | offer next =>
    cases h
    exact ⟨trivial, trivial⟩
  | submit alive =>
    unfold answer at h
    dsimp only at h
    split at h
    · cases h
    rename_i slot req hheld
    split at h
    · rename_i path io q hchoose
      obtain ⟨s, hs, rfl⟩ := Option.map_eq_some_iff.mp h
      cases hsubmit : s.submit alive slot io req.len with
      | error err => exact ⟨trivial, trivial⟩
      | ok s' =>
        refine ⟨fun slot' req' path' io' q' t hheld' hchoose' ht => ?_, ?_⟩
        · obtain ⟨rfl, rfl⟩ := Prod.mk.inj (Option.some.inj (hheld.symm.trans hheld'))
          obtain ⟨hc, -⟩ := Prod.mk.inj (hchoose.symm.trans hchoose')
          cases hc
          obtain rfl := Option.some.inj (hs.symm.trans ht)
          exact Session.submit_tags hsubmit
        · exact (hsound path s hs).submit hsubmit (held_not_in_flight hd hheld hs)
    · cases h
  | poll pdus nanos =>
    obtain ⟨path, hpath, h⟩ := Option.bind_eq_some_iff.mp h
    obtain ⟨s, hs, h⟩ := Option.bind_eq_some_iff.mp h
    have hsafe := Session.poll_safe (hsound path s hs) (hproper path s hpath hs)
    split at h
    · rename_i s' done hpoll
      cases h
      have hcompletion := hsafe.completion done (by rw [hpoll])
      rw [hpoll] at hcompletion
      obtain ⟨htag, htags, -, hs'⟩ := hcompletion
      refine ⟨fun path' t hpath' ht => ?_, hs'⟩
      rw [← busy_path_by_tags hsound, hpath] at hpath'
      cases hpath'
      obtain rfl := Option.some.inj (hs.symm.trans ht)
      exact ⟨htag, htags⟩
    · cases h
      exact ⟨trivial, trivial⟩
    · cases h

/-- What every state of a call over NVMe/TCP keeps. -/
structure Kept (depth : Nat) (d : Drive Session) : Prop where
  sound : d.pool.Every Session.Sound
  kept : Drive.Kept contract depth d
  once : (d.completed.map (·.1)).Nodup

theorem Kept.step {turn : Turn} (hd : Kept depth d) (hproper : turn.Proper d)
    (h : step d turn = some e) : Kept depth e := by
  obtain ⟨input, hanswer, hstep⟩ := Option.bind_eq_some_iff.mp h
  rw [step_by_tags hd.sound] at hstep
  obtain ⟨hconserved | ⟨done, hfailed⟩, -⟩ := hd.kept
  · obtain ⟨hobeys, hbrings⟩ := answer.spec hconserved hd.sound hproper hanswer
    have hmove := Drive.step_move hconserved.fits.lanes hstep
    refine ⟨hmove.every hd.sound hbrings, Drive.step_kept hd.kept hobeys hstep, ?_⟩
    rcases hmove.conserved hconserved hobeys with he | hfailed
    · have hledger := he.ledger.nodup_iff.mpr List.nodup_range
      exact (List.nodup_append.mp hledger).1
    · rw [(hmove.of_failed hfailed).2.2.2.2]
      exact hd.once
  · unfold Drive.step at hstep
    rw [hfailed] at hstep
    cases hstep

/-- In every state that a call reaches with any number of paths, when every PDU
before it was proper: each session counts its commands in flight, and handles the
PDUs to come safely exactly when they are proper, without a panic, with access
only inside the buffers of commands in flight, and with a completion only for one
of those. No request is completed twice, no completion is for a slot that is not
there, and the pool's counter is the sum over the sessions. -/
theorem sessions_are_safe_while_every_pdu_is_proper {p : Pool Session} {mode : Mode}
    {turns : List Turn} (hready : p.Ready contract depth mode) (hsound : p.Every Session.Sound)
    (hrun : machine.run step (Drive.start p mode) turns = some d)
    (hproper : machine.Along step (fun d turn => turn.Proper d) (Drive.start p mode) turns) :
    (∀ path s, d.pool.session path = some s → s.Sound ∧ ∀ pdus,
      ((∀ x ∈ s.handled pdus, x.1.Safe x.2) ↔ s.AllProper pdus) ∧
      (s.AllProper pdus → s.SafePoll pdus)) ∧
    (d.completed.map (·.1)).Nodup ∧
    (∀ tag, d.phase ≠ .finished (.error (.panic tag))) ∧
    (¬ d.Failed →
      (∀ path s, d.pool.session path = some s → ∀ slot,
        slot ∈ s.tags ↔ slot ∈ d.pool.flying ∧ d.pool.went slot = path) ∧
      d.pool.in_flight = ∑ path ∈ Finset.range d.pool.sessions.length,
        ((d.pool.session path).map Session.inflight).getD 0) := by
  have hkept : Kept depth d :=
    machine.invariant_along (fun _ _ _ hd hturn hstep => hd.step hturn hstep) hrun hproper
      ⟨hsound, ⟨.inl (Drive.Conserved.start hready), trivial⟩, List.nodup_nil⟩
  refine ⟨fun path s hs => ⟨hkept.sound path s hs, fun pdus => ⟨?_, ?_⟩⟩, hkept.once,
    fun tag hpanic => ?_, fun hlive => ?_⟩
  · exact forall₂_congr fun x _ => Session.safe_iff_proper x.1 x.2
  · exact Session.poll_safe (hkept.sound path s hs)
  · have hend := hkept.kept.2
    unfold Drive.Sound at hend
    rw [hpanic] at hend
    exact hend
  · have hconserved := hkept.kept.1.resolve_right hlive
    refine ⟨hconserved.tracked.tags, hconserved.sum.trans ?_⟩
    refine Finset.sum_congr rfl fun path _ => ?_
    cases hs : d.pool.session path with
    | none => rfl
    | some s => exact (hkept.sound path s hs).counted.symm

end

/-! ## One read -/

/-- A pool of one path and one slot. -/
def one_path : Option (Pool Session) :=
  (Pool.open .nvme [some (Session.new ⟨31, 0, ⟨4096, by decide⟩, none⟩, ⟨512, 1048576⟩)]
    .RoundRobin 1).map (·.reserve 1)

theorem one_path_ready {p : Pool Session} (h : one_path = some p) :
    p.Ready contract 1 .stream ∧ p.Every Session.Sound := by
  obtain ⟨q, hopen, rfl⟩ := Option.map_eq_some_iff.mp h
  have hnew : ∀ path s, q.session path = some s → ∃ l, s = Session.new l := by
    intro path s hs
    cases hopen
    cases path with
    | zero =>
      cases hs
      exact ⟨_, rfl⟩
    | succ path => cases hs
  refine ⟨Pool.reserve_ready (T := by_tags) hopen (fun path s hs => ?_) nofun, fun path s hs => ?_⟩
  · obtain ⟨l, rfl⟩ := hnew path s hs
    exact Session.new_tags l
  · obtain ⟨l, rfl⟩ := hnew path s hs
    exact Session.new_sound l

/-- A read of 512 bytes is sent with command identifier 0. -/
def read_sent : List Turn :=
  [.reconnect fun _ => .waiting, .tick fun _ => true,
    .offer (.request { Request.default with len := 512 }), .submit true, .go]

/-- The 512 bytes for command 0, with the flag that finishes it. -/
def data_for_0 : Pdu :=
  { kind := C2H_DATA
    flags := FLAG_LAST ||| FLAG_SUCCESS
    header := [7, 12, 24, 24, 24, 2, 0, 0, 0, 0, 0, 0, 0, 0, 0, 0, 0, 2, 0, 0, 0, 0, 0, 0]
    data := List.replicate 512 0 }

theorem data_for_0_proper (s : Session) : s.Proper data_for_0 := by
  refine ⟨fun c2h h pending _ _ _ => ?_, fun bytes h => ?_, fun h => ?_⟩
  · cases h
    exact List.length_replicate
  · exact absurd (Session.parse_capsule_resp_kind h) (by decide)
  · exact absurd h (by decide)

theorem read_and_data_proper (d : Drive Session) :
    machine.Along step (fun d turn => turn.Proper d) d
      (read_sent ++ [.poll [(true, data_for_0)] 1]) := by
  refine machine.along_of_mem step (fun turn hturn d => ?_) d
  rcases List.mem_append.mp hturn with hsent | hpoll
  · simp only [read_sent, List.mem_cons, List.not_mem_nil, or_false] at hsent
    rcases hsent with rfl | rfl | rfl | rfl | rfl <;> trivial
  · obtain rfl := List.mem_singleton.mp hpoll
    intro path s _ _ x hx
    have hpdu : x.2 = data_for_0 := by
      unfold Session.handled at hx
      rw [Bool.not_true, if_neg Bool.false_ne_true] at hx
      split at hx
      · rw [Session.handled, List.mem_singleton] at hx
        rw [hx]
      · rw [List.mem_singleton] at hx
        rw [hx]
    rw [hpdu]
    exact data_for_0_proper x.1

set_option maxRecDepth 20000 in
theorem read_and_data_run : ∃ p d, one_path = some p ∧
    machine.run step (Drive.start p .stream) (read_sent ++ [.poll [(true, data_for_0)] 1]) =
      some d ∧ d.phase = .top ∧ d.completed.length = 1 :=
  ⟨_, _, rfl, rfl, rfl, rfl⟩

/-- The data of the read comes, and its request is complete, once. -/
theorem a_read_over_nvme_is_complete : ∃ p d, one_path = some p ∧
    machine.run step (Drive.start p .stream) (read_sent ++ [.poll [(true, data_for_0)] 1]) =
      some d ∧
    d.completed.length = 1 ∧ (d.completed.map (·.1)).Nodup ∧
    d.pool.in_flight = ∑ path ∈ Finset.range d.pool.sessions.length,
      ((d.pool.session path).map Session.inflight).getD 0 := by
  obtain ⟨p, d, hp, hrun, hphase, hcompleted⟩ := read_and_data_run
  obtain ⟨hready, hsound⟩ := one_path_ready hp
  have hlive : ¬ d.Failed := by
    rintro ⟨done, hdone⟩
    rw [hphase] at hdone
    cases hdone
  obtain ⟨-, honce, -, hsum⟩ := sessions_are_safe_while_every_pdu_is_proper hready hsound hrun
    (read_and_data_proper _)
  exact ⟨p, d, hp, hrun, hcompleted, honce, (hsum hlive).2⟩

/-- A successful completion of command 1, as it is on the wire. -/
def response_for_1 : List UInt8 :=
  [5, 0, 24, 0, 24, 0, 0, 0, 0, 0, 0, 0, 0, 0, 0, 0, 0, 0, 0, 0, 1, 0, 0, 0]

set_option maxRecDepth 20000 in
/-- The controller completes command 1, which was never sent: the session reports
it, its counter goes round below zero at the next one, and the pool's slot index
is out of range. -/
theorem a_response_for_a_command_never_sent_is_reported :
    ∃ p d s pdu, one_path = some p ∧ p.Ready contract 1 .stream ∧ p.Every Session.Sound ∧
      machine.run step (Drive.start p .stream) read_sent = some d ∧
      d.pool.session 0 = some s ∧ read_into data_for_0 response_for_1 = .ok (pdu, []) ∧
      ¬ s.Safe pdu ∧ ((s.handle_pdu pdu).1.handle_pdu pdu).1.inflight = 2 ^ 64 - 1 ∧
      (step d (.poll [(true, pdu)] 1)).map (·.phase) = some (.finished (.error (.panic 1))) := by
  obtain ⟨p, d, s, pdu, hp, hrun, hs, hread, hdone, hfind, hwraps, hpanic⟩ :
      ∃ p d s pdu, one_path = some p ∧
        machine.run step (Drive.start p .stream) read_sent = some d ∧
        d.pool.session 0 = some s ∧ read_into data_for_0 response_for_1 = .ok (pdu, []) ∧
        (∃ done, (s.handle_pdu pdu).2 = .done done ∧ done.tag = 1) ∧ s.find 1 = none ∧
        ((s.handle_pdu pdu).1.handle_pdu pdu).1.inflight = 18446744073709551615 ∧
        (step d (.poll [(true, pdu)] 1)).map (·.phase) = some (.finished (.error (.panic 1))) :=
    ⟨_, _, _, _, rfl, rfl, rfl, rfl, ⟨_, rfl, rfl⟩, rfl, rfl, rfl⟩
  obtain ⟨hready, hsound⟩ := one_path_ready hp
  refine ⟨p, d, s, pdu, hp, hready, hsound, hrun, hs, hread, fun hsafe => ?_, hwraps, hpanic⟩
  obtain ⟨done, hdone, htag⟩ := hdone
  have hflight := hsafe.in_flight done hdone
  rw [htag, hfind] at hflight
  cases hflight

end nvme

end stutools
