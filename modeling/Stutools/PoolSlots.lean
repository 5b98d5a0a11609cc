-- Where the slots of a queue are while `drive` runs: free, held, on the retry
-- list or in flight, each in one place, with the counters and the sessions
-- agreeing, and every request offered on its way to one completion.
import Mathlib.Algebra.BigOperators.Group.Finset.Basic
import Stutools.PoolPaths

open flags

namespace stutools

variable {σ : Type} {T : Transport σ}

/-- The contract of a transport: the tags of the commands in flight on a session,
which `inflight` counts. -/
structure Contract (T : Transport σ) where
  tags : σ → Finset Nat
  inflight_eq : ∀ s, T.inflight s = (tags s).card

/-- The answers of sessions that keep the contract: a new one has no command in
flight, the housekeeping leaves the commands as they are, sending adds the tag,
and waiting returns and removes one tag. -/
def Contract.Obeys (C : Contract T) (d : Drive σ) : Input σ → Prop
  | .go => True
  | .reconnect opens => ∀ path s g, opens path = .opened s g → C.tags s = ∅
  | .ticks ticks => ∀ path s s', d.pool.session path = some s → ticks path = some s' →
      C.tags s' = C.tags s
  | .offer _ => True
  | .submitted none => True
  | .submitted (some s') => ∀ slot req path io q s, d.held = some (slot, req) →
      Drive.choose T d.pool req = (.submit path io, q) → d.pool.session path = some s →
      C.tags s' = insert slot (C.tags s)
  | .polled none _ => True
  | .polled (some (s', done)) _ => ∀ path s, Drive.busy_path T d.pool = some path →
      d.pool.session path = some s → done.tag ∈ C.tags s ∧ C.tags s' = (C.tags s).erase done.tag

namespace Pool

/-! ## Sessions and slots -/

/-- The sessions hold the commands of the slots in flight, and the counter counts them. -/
structure Tracked (tags : σ → Finset Nat) (p : Pool σ) : Prop where
  tags : ∀ path s, p.session path = some s → ∀ slot,
    slot ∈ tags s ↔ slot ∈ p.flying ∧ p.went slot = path
  live : ∀ slot ∈ p.flying, ∃ s, p.session (p.went slot) = some s
  down : ∀ path, p.down.getD path false = true → p.session path = none
  count : p.in_flight = p.flying.length

/-- Slots only move from in flight to the retry list, if at all. -/
structure Requeues (p q : Pool σ) : Prop where
  perm : (q.retry ++ q.flying).Perm (p.retry ++ p.flying)
  flying : ∀ slot ∈ q.flying, slot ∈ p.flying
  slot_inflight : q.slot_inflight.length = p.slot_inflight.length
  slot_req : q.slot_req = p.slot_req
  slot_path : q.slot_path = p.slot_path
  free : q.free = p.free
  race : q.race = p.race

theorem Requeues.refl (p : Pool σ) : p.Requeues p :=
  ⟨List.Perm.refl _, fun _ => id, rfl, rfl, rfl, rfl, rfl⟩

theorem Requeues.trans {p q r : Pool σ} (h1 : p.Requeues q) (h2 : q.Requeues r) : p.Requeues r :=
  ⟨h2.perm.trans h1.perm, fun slot hs => h1.flying slot (h2.flying slot hs),
    h2.slot_inflight.trans h1.slot_inflight, h2.slot_req.trans h1.slot_req,
    h2.slot_path.trans h1.slot_path, h2.free.trans h1.free, h2.race.trans h1.race⟩

theorem Requeues.disconnect (p : Pool σ) (path : Nat) : p.Requeues (p.disconnect path) := by
  rw [disconnect_eq]
  refine ⟨?_, fun slot hslot => (mem_marked_clear.mp hslot).1, clear_length _ _, rfl, rfl, rfl, rfl⟩
  exact requeued_perm p path

section

variable {tags : σ → Finset Nat} {p : Pool σ}

theorem session_set_ne {path other : Nat} {x : Option σ} (hne : path ≠ other) :
    (p.sessions.set path x)[other]?.join = p.session other :=
  congrArg Option.join (List.getElem?_set_ne hne)

theorem mem_disconnect_flying {path slot : Nat} :
    slot ∈ (p.disconnect path).flying ↔ slot ∈ p.flying ∧ p.went slot ≠ path := by
  rw [disconnect_eq]
  refine mem_marked_clear.trans ?_
  rw [mem_flying_on]
  constructor
  · rintro ⟨hf, hno⟩
    exact ⟨hf, fun hw => hno ⟨hf, hw⟩⟩
  · rintro ⟨hf, hne⟩
    exact ⟨hf, fun hno => hne hno.2⟩

theorem disconnect_went (path slot : Nat) : (p.disconnect path).went slot = p.went slot := by
  rw [disconnect_eq]
  rfl

theorem disconnect_session {path other : Nat} {s : σ} :
    (p.disconnect path).session other = some s ↔ other ≠ path ∧ p.session other = some s := by
  rw [disconnect_eq]
  constructor
  · intro h
    rcases session_set h with ⟨-, hs⟩ | hs
    · cases hs
    · exact hs
  · rintro ⟨hne, hs⟩
    exact (session_set_ne (Ne.symm hne)).trans hs

theorem Tracked.disconnect (h : p.Tracked tags) (path : Nat) :
    (p.disconnect path).Tracked tags := by
  refine ⟨?_, ?_, ?_, ?_⟩
  · intro other s hs slot
    obtain ⟨hne, hs⟩ := disconnect_session.mp hs
    rw [h.tags other s hs, mem_disconnect_flying, disconnect_went]
    constructor
    · rintro ⟨hf, hw⟩
      exact ⟨⟨hf, hw ▸ hne⟩, hw⟩
    · rintro ⟨⟨hf, -⟩, hw⟩
      exact ⟨hf, hw⟩
  · intro slot hslot
    obtain ⟨hf, hne⟩ := mem_disconnect_flying.mp hslot
    obtain ⟨s, hs⟩ := h.live slot hf
    rw [disconnect_went]
    exact ⟨s, disconnect_session.mpr ⟨hne, hs⟩⟩
  · intro other hdown
    by_contra hup
    obtain ⟨s, hs⟩ := Option.ne_none_iff_exists'.mp hup
    obtain ⟨hne, hs⟩ := disconnect_session.mp hs
    have hset : p.down.getD other false = true := by
      rw [disconnect_eq] at hdown
      have hset : (p.down.set path true)[other]? = p.down[other]? :=
        List.getElem?_set_ne (Ne.symm hne)
      rw [List.getD_eq_getElem?_getD] at hdown ⊢
      exact (congrArg (Option.getD · false) hset).symm.trans hdown
    rw [h.down other hset] at hs
    cases hs
  · -- the slots that leave are counted off one by one
    have hperm := marked_clear (flying_on_nodup p path) fun slot hslot => (mem_flying_on.mp hslot).1
    have hlen := hperm.length_eq
    rw [List.length_append] at hlen
    rw [disconnect_eq]
    show p.in_flight - (p.flying_on path).length = _
    rw [h.count]
    exact Nat.sub_eq_of_eq_add (hlen.trans (Nat.add_comm _ _))

theorem Tracked.same (h : p.Tracked tags) (lanes : Lanes) :
    ({ p with lanes } : Pool σ).Tracked tags := ⟨h.tags, h.live, h.down, h.count⟩

/-- A session that comes up has no command in flight. -/
theorem Tracked.reconnect (h : p.Tracked tags) {opens : Nat → Attempt σ}
    (hopens : ∀ path s g, opens path = .opened s g → tags s = ∅) (path : Nat) :
    (p.reconnect T opens path).Tracked tags := by
  unfold Pool.reconnect
  split
  · rename_i hdown
    split
    · exact h
    · exact h
    · rename_i s g hopened
      have hnone := h.down path hdown
      have hlt : path < p.down.length := lt_of_mem_marked (mem_marked.mpr hdown)
      refine ⟨?_, ?_, ?_, h.count⟩
      · intro other t ht slot
        rcases session_set ht with ⟨rfl, hst⟩ | ⟨-, ht⟩
        · obtain rfl := Option.some.inj hst
          rw [hopens other s g hopened]
          refine iff_of_false (Finset.notMem_empty slot) ?_
          rintro ⟨hf, hw⟩
          have hw : p.went slot = other := hw
          obtain ⟨t, ht⟩ := h.live slot hf
          rw [hw, hnone] at ht
          cases ht
        · exact h.tags other t ht slot
      · intro slot hslot
        obtain ⟨t, ht⟩ := h.live slot hslot
        have hne : path ≠ p.went slot := by
          rintro rfl
          rw [ht] at hnone
          cases hnone
        exact ⟨t, (session_set_ne hne).trans ht⟩
      · intro other hother
        dsimp only at hother
        rw [getD_set hlt] at hother
        split at hother
        · cases hother
        · rename_i hne
          exact (session_set_ne hne).trans (h.down other hother)
  · exact h

theorem Tracked.try_reconnect (h : p.Tracked tags) {opens : Nat → Attempt σ}
    (hopens : ∀ path s g, opens path = .opened s g → tags s = ∅) :
    (p.try_reconnect T opens).Tracked tags :=
  List.foldlRecOn _ _ h fun _ hq path _ => hq.reconnect hopens path

theorem Requeues.try_reconnect (p : Pool σ) (opens : Nat → Attempt σ) :
    p.Requeues (p.try_reconnect T opens) := by
  refine List.foldlRecOn _ _ (Requeues.refl p) fun q hq path _ => hq.trans ?_
  unfold Pool.reconnect
  split
  · split
    · exact Requeues.refl q
    · exact Requeues.refl q
    · exact ⟨List.Perm.refl _, fun _ => id, rfl, rfl, rfl, rfl, rfl⟩
  · exact Requeues.refl q

theorem session_set_self {path : Nat} {s s' : σ} (hs : p.session path = some s) :
    (p.sessions.set path (some s'))[path]?.join = some s' := by
  rw [List.getElem?_set_self (session_lt hs)]
  rfl

theorem live_set {path other : Nat} {s s' : σ} (hs : p.session path = some s)
    (h : ∃ t, p.session other = some t) :
    ∃ t, (p.sessions.set path (some s'))[other]?.join = some t := by
  obtain ⟨t, ht⟩ := h
  by_cases heq : path = other
  · exact ⟨s', heq ▸ session_set_self hs⟩
  · exact ⟨t, (session_set_ne heq).trans ht⟩

theorem down_set {path other : Nat} {s s' : σ} (hs : p.session path = some s)
    (h : p.session other = none) : (p.sessions.set path (some s'))[other]?.join = none := by
  have hne : path ≠ other := by
    rintro rfl
    rw [hs] at h
    cases h
  exact (session_set_ne hne).trans h

/-- A session that is up is replaced by one with the same commands. -/
theorem Tracked.set_session (h : p.Tracked tags) {path : Nat} {s s' : σ}
    (hs : p.session path = some s) (htags : tags s' = tags s) :
    ({ p with sessions := p.sessions.set path (some s') } : Pool σ).Tracked tags := by
  refine ⟨?_, ?_, ?_, h.count⟩
  · intro other t ht slot
    rcases session_set ht with ⟨rfl, hst⟩ | ⟨-, ht⟩
    · obtain rfl := Option.some.inj hst
      rw [htags]
      exact h.tags other s hs slot
    · exact h.tags other t ht slot
  · intro slot hslot
    exact live_set hs (h.live slot hslot)
  · intro other hdown
    exact down_set hs (h.down other hdown)

theorem Tracked.tick_all (h : p.Tracked tags) {ticks : Nat → Option σ}
    (hticks : ∀ path s s', p.session path = some s → ticks path = some s' → tags s' = tags s) :
    (p.tick_all ticks).Tracked tags := by
  -- a path that had its turn has the session of its answer
  have hloop : (p.tick_all ticks).Tracked tags ∧ ∀ path s s',
      (p.tick_all ticks).session path = some s → ticks path = some s' → tags s' = tags s := by
    refine List.foldlRecOn (motive := fun q : Pool σ => q.Tracked tags ∧ ∀ path s s',
      q.session path = some s → ticks path = some s' → tags s' = tags s) _ _ ⟨h, hticks⟩ ?_
    rintro q ⟨hq, hqt⟩ path _
    unfold Pool.tick
    split
    · rename_i hup
      obtain ⟨s, hs⟩ := Option.isSome_iff_exists.mp hup
      split
      · rename_i s' hs'
        refine ⟨hq.set_session hs (hqt path s s' hs hs'), fun other t t' ht ht' => ?_⟩
        rcases session_set ht with ⟨rfl, hst⟩ | ⟨-, ht⟩
        · obtain rfl := Option.some.inj hst
          rw [hs'] at ht'
          cases ht'
          rfl
        · exact hqt other t t' ht ht'
      · exact ⟨hq.disconnect path, fun other t t' ht =>
          hqt other t t' (disconnect_session.mp ht).2⟩
    · exact ⟨hq, hqt⟩
  exact hloop.1

theorem Requeues.tick_all (p : Pool σ) (ticks : Nat → Option σ) :
    p.Requeues (p.tick_all ticks) := by
  refine List.foldlRecOn _ _ (Requeues.refl p) fun q hq path _ => hq.trans ?_
  unfold Pool.tick
  split
  · split
    · exact ⟨List.Perm.refl _, fun _ => id, rfl, rfl, rfl, rfl, rfl⟩
    · exact Requeues.disconnect q path
  · exact Requeues.refl q

theorem launched_flying {slot : Nat} (path : Nat) (s : σ) (hslot : slot < p.slot_inflight.length)
    (hnot : slot ∉ p.flying) : (Drive.launched p slot path s).flying.Perm (slot :: p.flying) :=
  marked_set_true hslot hnot

theorem launched_went {slot path other : Nat} {s : σ} (hslot : slot < p.slot_path.length) :
    (Drive.launched p slot path s).went other = if slot = other then path else p.went other := by
  unfold went Drive.launched
  dsimp only
  rw [List.getD_eq_getElem?_getD, List.getD_eq_getElem?_getD, List.getElem?_set]
  split
  · simp
  · rfl

/-- A command that was sent is in flight on its path. -/
theorem Tracked.launched (h : p.Tracked tags) {slot path : Nat} {s s' : σ}
    (hslot : slot < p.slot_inflight.length) (hpath : slot < p.slot_path.length)
    (hnot : slot ∉ p.flying) (hs : p.session path = some s)
    (htags : tags s' = insert slot (tags s)) :
    (Drive.launched p slot path s').Tracked tags := by
  have hflying := launched_flying path s' hslot hnot
  have hmem : ∀ other, other ∈ (Drive.launched p slot path s').flying ↔
      other = slot ∨ other ∈ p.flying := fun other => hflying.mem_iff.trans List.mem_cons
  refine ⟨?_, ?_, ?_, ?_⟩
  · intro other t ht slot'
    rw [hmem, launched_went hpath]
    rcases session_set ht with ⟨rfl, hst⟩ | ⟨hne, ht⟩
    · obtain rfl := Option.some.inj hst
      rw [htags, Finset.mem_insert, h.tags other s hs]
      split
      · rename_i heq
        simp [heq]
      · rename_i hne
        simp [Ne.symm hne]
    · rw [h.tags other t ht]
      split
      · rename_i heq
        subst heq
        simp [hnot, Ne.symm hne]
      · rename_i hne
        simp [Ne.symm hne]
  · intro slot' hslot'
    rw [launched_went hpath]
    split
    · exact ⟨s', session_set_self hs⟩
    · rename_i hne
      rcases (hmem slot').mp hslot' with rfl | hf
      · exact absurd rfl hne
      · exact live_set hs (h.live slot' hf)
  · intro other hdown
    exact down_set hs (h.down other hdown)
  · have hcount := h.count
    have hlen := hflying.length_eq
    rw [List.length_cons] at hlen
    show p.in_flight + 1 = _
    omega

/-- The pool once a command has finished. -/
def landed (p : Pool σ) (slot path : Nat) (s : σ) : Pool σ :=
  { p with
    sessions := p.sessions.set path (some s)
    slot_inflight := p.slot_inflight.set slot false
    in_flight := p.in_flight - 1 }

theorem Tracked.landed (h : p.Tracked tags) {slot path : Nat} {s s' : σ}
    (hs : p.session path = some s) (hslot : slot ∈ tags s)
    (htags : tags s' = (tags s).erase slot) : (p.landed slot path s').Tracked tags := by
  obtain ⟨hflying, hwent⟩ := (h.tags path s hs slot).mp hslot
  have hmem : ∀ other, other ∈ (p.landed slot path s').flying ↔ other ∈ p.flying ∧ other ≠ slot :=
    fun other => mem_marked_set_false
  refine ⟨?_, ?_, ?_, ?_⟩
  · intro other t ht slot'
    rw [hmem]
    show _ ↔ _ ∧ p.went slot' = other
    rcases session_set ht with ⟨rfl, hst⟩ | ⟨hne, ht⟩
    · obtain rfl := Option.some.inj hst
      rw [htags, Finset.mem_erase, h.tags other s hs]
      tauto
    · rw [h.tags other t ht]
      constructor
      · rintro ⟨hf, rfl⟩
        exact ⟨⟨hf, fun he => hne (he ▸ hwent)⟩, rfl⟩
      · rintro ⟨⟨hf, -⟩, hw⟩
        exact ⟨hf, hw⟩
  · intro slot' hslot'
    exact live_set hs (h.live slot' ((hmem slot').mp hslot').1)
  · intro other hdown
    exact down_set hs (h.down other hdown)
  · have hlen := (marked_set_false hflying).length_eq
    rw [List.length_cons] at hlen
    show p.in_flight - 1 = _
    rw [h.count]
    exact Nat.sub_eq_of_eq_add hlen

end

end Pool

/-- The request of a slot. -/
def Pool.req_of (p : Pool σ) (slot : Nat) : Request := p.slot_req.getD slot Request.default

namespace Drive

/-! ## Slots and requests -/

/-- The slots with a request: held, on the retry list, or in flight. -/
def used (d : Drive σ) : List Nat :=
  d.held.toList.map Prod.fst ++ (d.pool.retry ++ d.pool.flying)

/-- Which request of the source a slot holds. -/
def offer_of (d : Drive σ) (slot : Nat) : Nat := d.slot_offer.getD slot 0

/-- A stream's slots are each free or used. `execute` does not use the free list:
its slots are used once each, in order. -/
def Placed (depth : Nat) (d : Drive σ) : Prop :=
  match d.mode with
  | .stream => (d.pool.free ++ d.used).Perm (List.range depth)
  | .execute requests => d.used.Nodup ∧ (∀ slot ∈ d.used, slot < d.offered.length) ∧
      d.offered.length ≤ requests.length ∧ requests.length ≤ depth

/-- Every slot is in its place, the counters and the sessions agree, and every
request offered is completed or in one slot. -/
structure Conserved (C : Contract T) (depth : Nat) (d : Drive σ) : Prop where
  fits : d.pool.Fits
  tracked : d.pool.Tracked C.tags
  inflight_length : d.pool.slot_inflight.length = depth
  req_length : d.pool.slot_req.length = depth
  path_length : d.pool.slot_path.length = depth
  offer_length : d.slot_offer.length = depth
  placed : d.Placed depth
  held : ∀ slot req, d.held = some (slot, req) → d.pool.req_of slot = req
  ledger : (d.completed.map (·.1) ++ d.used.map d.offer_of).Perm (List.range d.offered.length)
  requests : ∀ slot ∈ d.used, d.offered[d.offer_of slot]? = some (d.pool.req_of slot)
  completed : ∀ c ∈ d.completed, d.offered[c.1]? = some c.2.2

variable {C : Contract T} {depth : Nat} {d e : Drive σ}

theorem Conserved.used_nodup (h : Conserved C depth d) : d.used.Nodup := by
  have hplaced := h.placed
  unfold Placed at hplaced
  split at hplaced
  · exact (List.nodup_append.mp (hplaced.nodup_iff.mpr List.nodup_range)).2.1
  · exact hplaced.1

theorem Conserved.in_flight_le (h : Conserved C depth d) : d.pool.in_flight ≤ depth := by
  rw [h.tracked.count, ← h.inflight_length]
  exact (List.length_filter_le _ _).trans (List.length_range.le)

theorem Conserved.used_lt (h : Conserved C depth d) {slot : Nat} (hslot : slot ∈ d.used) :
    slot < depth := by
  have hplaced := h.placed
  unfold Placed at hplaced
  split at hplaced
  · exact List.mem_range.mp (hplaced.subset (List.mem_append_right _ hslot))
  · obtain ⟨-, hlt, hle, hdepth⟩ := hplaced
    have := hlt slot hslot
    omega

/-- Slots that change places among held, retry and in flight. -/
theorem Conserved.moved (h : Conserved C depth d) (hused : e.used.Perm d.used)
    (hfree : e.pool.free = d.pool.free) (hmode : e.mode = d.mode)
    (hoffered : e.offered = d.offered) (hslots : e.slot_offer = d.slot_offer)
    (hcompleted : e.completed = d.completed) (hreq : e.pool.slot_req = d.pool.slot_req)
    (hinflight : e.pool.slot_inflight.length = d.pool.slot_inflight.length)
    (hpath : e.pool.slot_path.length = d.pool.slot_path.length) (hfits : e.pool.Fits)
    (htracked : e.pool.Tracked C.tags)
    (hheld : ∀ slot req, e.held = some (slot, req) → e.pool.req_of slot = req) :
    Conserved C depth e := by
  have hoffer : e.offer_of = d.offer_of := by
    funext slot
    unfold offer_of
    rw [hslots]
  have hreqs : e.pool.req_of = d.pool.req_of := by
    funext slot
    unfold Pool.req_of
    rw [hreq]
  refine ⟨hfits, htracked, hinflight.trans h.inflight_length, ?_, hpath.trans h.path_length, ?_,
    ?_, hheld, ?_, ?_, ?_⟩
  · rw [hreq]
    exact h.req_length
  · rw [hslots]
    exact h.offer_length
  · have hplaced := h.placed
    unfold Placed at hplaced ⊢
    rw [hmode, hfree, hoffered]
    split
    · rename_i hm
      rw [hm] at hplaced
      exact (hused.append_left _).trans hplaced
    · rename_i requests hm
      rw [hm] at hplaced
      exact ⟨hused.nodup_iff.mpr hplaced.1, fun slot hs => hplaced.2.1 slot (hused.subset hs),
        hplaced.2.2⟩
  · rw [hoffered, hcompleted, hoffer]
    exact ((hused.map _).append_left _).trans h.ledger
  · intro slot hslot
    rw [hoffered, hoffer, hreqs]
    exact h.requests slot (hused.subset hslot)
  · rw [hcompleted, hoffered]
    exact h.completed

/-- Commands of dropped paths go back on the retry list. -/
theorem Conserved.requeues (h : Conserved C depth d) {q : Pool σ} (hq : d.pool.Requeues q)
    (hfits : q.Fits) (htracked : q.Tracked C.tags) (exhausted : Bool) (phase : Phase) :
    Conserved C depth { d with pool := q, exhausted, phase } := by
  refine h.moved (hq.perm.append_left _) hq.free rfl rfl rfl rfl hq.slot_req hq.slot_inflight
    (congrArg List.length hq.slot_path) hfits htracked fun slot req hheld => ?_
  unfold Pool.req_of
  rw [hq.slot_req]
  exact h.held slot req hheld

theorem take_used {slot : Nat} {req : Request} {free : List Nat} (hheld : d.held = none) :
    ({ d with pool := { d.pool with free } }.take slot req).used = slot :: d.used := by
  unfold used
  rw [hheld]
  rfl

theorem take_offer_of {slot : Nat} (req : Request) (free : List Nat)
    (hslot : slot < d.slot_offer.length) (other : Nat) :
    ({ d with pool := { d.pool with free } }.take slot req).offer_of other =
      if slot = other then d.offered.length else d.offer_of other := by
  unfold offer_of Drive.take
  dsimp only
  rw [List.getD_eq_getElem?_getD, List.getD_eq_getElem?_getD, List.getElem?_set]
  split
  · simp
  · rfl

theorem take_req_of {slot : Nat} (req : Request) (free : List Nat)
    (hslot : slot < d.pool.slot_req.length) (other : Nat) :
    ({ d with pool := { d.pool with free } }.take slot req).pool.req_of other =
      if slot = other then req else d.pool.req_of other := by
  unfold Pool.req_of Drive.take
  dsimp only
  rw [List.getD_eq_getElem?_getD, List.getD_eq_getElem?_getD, List.getElem?_set]
  split
  · simp
  · rfl

/-- The source's next request goes into a slot that is not used. -/
theorem Conserved.take (h : Conserved C depth d) {slot : Nat} {req : Request} {free : List Nat}
    (hheld : d.held = none) (hslot : slot < depth) (hnot : slot ∉ d.used)
    (hplaced : ({ d with pool := { d.pool with free } }.take slot req).Placed depth) :
    Conserved C depth ({ d with pool := { d.pool with free } }.take slot req) := by
  have hused : ({ d with pool := { d.pool with free } }.take slot req).used = slot :: d.used :=
    take_used hheld
  have hoffer := take_offer_of req free (h.offer_length.symm ▸ hslot)
  have hreq := take_req_of req free (h.req_length.symm ▸ hslot)
  have hne : ∀ other ∈ d.used, slot ≠ other := fun other hother he => hnot (he ▸ hother)
  have hbound : ∀ {n : Nat} {r : Request}, d.offered[n]? = some r →
      (d.offered ++ [req])[n]? = some r := by
    intro n r hr
    rw [List.getElem?_append_left (List.getElem?_eq_some_iff.mp hr).1]
    exact hr
  refine ⟨⟨h.fits.lanes, h.fits.down, h.fits.reported⟩,
    ⟨h.tracked.tags, h.tracked.live, h.tracked.down, h.tracked.count⟩, h.inflight_length,
    List.length_set.trans h.req_length, h.path_length, List.length_set.trans h.offer_length,
    hplaced, ?_, ?_, ?_, ?_⟩
  · intro slot' req' heq
    cases heq
    rw [hreq, if_pos rfl]
  · rw [hused, List.map_cons, hoffer, if_pos rfl]
    have hmap : d.used.map ({ d with pool := { d.pool with free } }.take slot req).offer_of =
        d.used.map d.offer_of :=
      List.map_congr_left fun other hother => by rw [hoffer, if_neg (hne other hother)]
    rw [hmap]
    show (d.completed.map (·.1) ++ d.offered.length :: d.used.map d.offer_of).Perm
      (List.range (d.offered ++ [req]).length)
    rw [List.length_append, List.length_singleton, List.range_succ]
    exact List.perm_middle.trans ((h.ledger.cons _).trans (List.perm_append_singleton _ _).symm)
  · intro other hother
    rw [hused] at hother
    rw [hoffer, hreq]
    rcases List.mem_cons.mp hother with rfl | hother
    · rw [if_pos rfl, if_pos rfl]
      show (d.offered ++ [req])[d.offered.length]? = some req
      rw [List.getElem?_append_right (Nat.le_refl _), Nat.sub_self]
      rfl
    · rw [if_neg (hne other hother), if_neg (hne other hother)]
      exact hbound (h.requests other hother)
  · intro c hc
    exact hbound (h.completed c hc)

/-- The held request is sent. -/
theorem Conserved.launch (h : Conserved C depth d) {slot path : Nat} {req : Request} {s s' : σ}
    {lanes : Lanes} (hsame : Lanes.SameRotation d.pool.lanes lanes)
    (hheld : d.held = some (slot, req)) (hs : d.pool.session path = some s)
    (htags : C.tags s' = insert slot (C.tags s)) :
    Conserved C depth { d with
      pool := launched { d.pool with lanes } slot path s', held := none, phase := .fetch } := by
  have hused : d.used = slot :: (d.pool.retry ++ d.pool.flying) := by
    unfold used
    rw [hheld]
    rfl
  have hslot : slot < depth := h.used_lt (hused ▸ List.mem_cons_self)
  have hnot : slot ∉ d.pool.flying := by
    intro hf
    have hnodup := h.used_nodup
    rw [hused] at hnodup
    exact (List.nodup_cons.mp hnodup).1 (List.mem_append_right _ hf)
  have hinflight : slot < d.pool.slot_inflight.length := h.inflight_length ▸ hslot
  have hpath : slot < d.pool.slot_path.length := h.path_length ▸ hslot
  have htracked := (h.tracked.same lanes).launched hinflight hpath hnot hs htags
  obtain ⟨k1, k2, k3⟩ := (h.fits.same hsame).set_session path s'
  refine h.moved ?_ rfl rfl rfl rfl rfl rfl List.length_set List.length_set ⟨k1, k2, k3⟩ htracked
    nofun
  rw [hused]
  have hflying : (launched { d.pool with lanes } slot path s').flying.Perm
      (slot :: d.pool.flying) := Pool.launched_flying path s' hinflight hnot
  exact (hflying.append_left d.pool.retry).trans List.perm_middle

/-- A command that finished on the path it went to. -/
theorem Conserved.landed_used (h : Conserved C depth d) {slot path : Nat} {s : σ} (s' : σ)
    (hs : d.pool.session path = some s) (hslot : slot ∈ C.tags s) :
    slot ∈ d.used ∧ d.used.Perm
      (slot :: (d.held.toList.map Prod.fst ++ (d.pool.retry ++ (d.pool.landed slot path s').flying))) := by
  have hflying : slot ∈ d.pool.flying := ((h.tracked.tags path s hs slot).mp hslot).1
  refine ⟨List.mem_append_right _ (List.mem_append_right _ hflying), ?_⟩
  have hperm : d.pool.flying.Perm (slot :: (d.pool.landed slot path s').flying) :=
    marked_set_false hflying
  have hretry : (d.pool.retry ++ d.pool.flying).Perm
      (slot :: (d.pool.retry ++ (d.pool.landed slot path s').flying)) :=
    (hperm.append_left _).trans List.perm_middle
  exact (hretry.append_left _).trans List.perm_middle

/-- What a finished command does to the pool, when its slot is one of the pool's. -/
theorem finish_cases (d : Drive σ) (path : Nat) (s' : σ) (done : Done) (nanos : Nat)
    (hlt : done.tag < d.pool.slot_inflight.length) :
    (done.status = 0 ∧ ∃ lanes last, Lanes.SameRotation d.pool.lanes lanes ∧
      d.finish path s' done nanos = { d with
        pool := { d.pool.landed done.tag path s' with
          lanes
          last_write_path := last
          free := if d.mode = .stream then done.tag :: d.pool.free else d.pool.free }
        phase := .top
        completed := d.completed ++
          [(d.offer_of done.tag, done.tag, d.pool.req_of done.tag)] }) ∨
    ((done.status ≠ 0 ∧ done.unavailable = true) ∧ d.finish path s' done nanos = { d with
        pool := { d.pool.landed done.tag path s' with
          lanes := d.pool.lanes.mark_unavailable path
          retry := done.tag :: d.pool.retry }
        phase := .top }) ∨
    d.finish path s' done nanos = { d with
        pool := d.pool.landed done.tag path s'
        phase := .finished (.error (.status done)) } := by
  unfold finish
  dsimp only
  rw [if_neg (by omega)]
  split
  · rename_i hstatus
    exact Or.inl ⟨hstatus, d.pool.lanes.record path nanos, _, ⟨rfl, rfl, rfl⟩, rfl⟩
  rename_i hstatus
  split
  · rename_i hunavailable
    exact Or.inr (Or.inl ⟨⟨hstatus, hunavailable⟩, rfl⟩)
  · exact Or.inr (Or.inr rfl)

/-- The last state of a call that a command's error ended: its slot is in no place. -/
def Failed (d : Drive σ) : Prop := ∃ done, d.phase = .finished (.error (.status done))

/-- The error of a command takes its slot out of flight and changes no other record. -/
theorem Move.of_failed {input : Input σ} (h : Move T d input e) (he : e.Failed) :
    (∀ slot ∈ e.pool.flying, slot ∈ d.pool.flying) ∧ e.pool.slot_req = d.pool.slot_req ∧
    e.offered = d.offered ∧ e.slot_offer = d.slot_offer ∧ e.completed = d.completed := by
  obtain ⟨done, hdone⟩ := he
  cases h with
  | @finish path nanos s session found =>
    by_cases hlt : found.tag < d.pool.slot_inflight.length
    · rcases finish_cases d path session found nanos hlt with
        ⟨-, lanes, last, -, heq⟩ | ⟨-, heq⟩ | heq
      · rw [heq] at hdone
        cases hdone
      · rw [heq] at hdone
        cases hdone
      · rw [heq]
        exact ⟨fun slot hslot => (mem_marked_set_false.mp hslot).1, rfl, rfl, rfl, rfl⟩
    · unfold Drive.finish at hdone
      dsimp only at hdone
      rw [if_pos (Nat.le_of_not_lt hlt)] at hdone
      cases hdone
  | quiet _ goes =>
    dsimp only at hdone
    rw [hdone] at goes
    exact goes.elim
  | reconnect _ goes =>
    dsimp only at hdone
    rw [hdone] at goes
    exact goes.elim
  | dropped _ _ _ stays =>
    dsimp only at hdone
    rw [stays] at hdone
    cases hdone
  | _ => cases hdone

theorem Conserved.finish (h : Conserved C depth d) {path nanos : Nat} {s s' : σ} {done : Done}
    (hs : d.pool.session path = some s) (htag : done.tag ∈ C.tags s)
    (htags : C.tags s' = (C.tags s).erase done.tag) :
    Conserved C depth (d.finish path s' done nanos) ∨ (d.finish path s' done nanos).Failed := by
  obtain ⟨hmem, hperm⟩ := h.landed_used s' hs htag
  have hlt := h.used_lt hmem
  have htracked : (d.pool.landed done.tag path s').Tracked C.tags := h.tracked.landed hs htag htags
  obtain ⟨k1, k2, k3⟩ := h.fits.set_session path s'
  rcases finish_cases d path s' done nanos (h.inflight_length ▸ hlt) with
    ⟨-, lanes, last, hsame, heq⟩ | ⟨-, heq⟩ | heq
  · -- the request leaves its slot and is complete
    left
    rw [heq]
    refine ⟨⟨hsame.paths.trans k1, k2, k3⟩,
      ⟨htracked.tags, htracked.live, htracked.down, htracked.count⟩,
      List.length_set.trans h.inflight_length, h.req_length, h.path_length, h.offer_length, ?_,
      h.held, ?_, ?_, ?_⟩
    · have hplaced := h.placed
      unfold Placed at hplaced ⊢
      dsimp only at hplaced ⊢
      split
      · rename_i hm
        rw [hm] at hplaced
        rw [hm, if_pos rfl]
        exact (List.perm_middle.symm.trans ((hperm.symm.append_left _))).trans hplaced
      · rename_i requests hm
        rw [hm] at hplaced
        have hnodup := hperm.nodup_iff.mp hplaced.1
        refine ⟨(List.nodup_cons.mp hnodup).2, fun slot hslot => ?_, hplaced.2.2⟩
        exact hplaced.2.1 slot (hperm.symm.subset (List.mem_cons_of_mem _ hslot))
    · have hmap := (hperm.map d.offer_of).append_left (d.completed.map (·.1))
      rw [List.map_cons] at hmap
      dsimp only
      rw [List.map_append, List.append_assoc]
      exact hmap.symm.trans h.ledger
    · intro slot hslot
      exact h.requests slot (hperm.symm.subset (List.mem_cons_of_mem _ hslot))
    · intro c hc
      rcases List.mem_append.mp hc with hc | hc
      · exact h.completed c hc
      · obtain rfl := List.mem_singleton.mp hc
        exact h.requests _ hmem
  · -- the request goes back on the retry list
    left
    rw [heq]
    refine h.moved ?_ rfl rfl rfl rfl rfl rfl List.length_set rfl ⟨k1, k2, k3⟩
      ⟨htracked.tags, htracked.live, htracked.down, htracked.count⟩ h.held
    exact List.perm_middle.trans hperm.symm
  · right
    rw [heq]
    exact ⟨done, rfl⟩

/-- Every step keeps the slots in their places, as long as the answers keep the
transport's contract. -/
theorem Move.conserved {input : Input σ} (h : Move T d input e) (hd : Conserved C depth d)
    (hok : C.Obeys d input) : Conserved C depth e ∨ e.Failed := by
  have hlanes : ∀ lanes, d.pool.Requeues ({ d.pool with lanes } : Pool σ) := fun _ =>
    ⟨.refl _, fun _ => id, rfl, rfl, rfl, rfl, rfl⟩
  cases h with
  | @quiet _ lanes _ _ same _ =>
    exact .inl (hd.requeues (hlanes lanes) (hd.fits.same same) (hd.tracked.same lanes) _ _)
  | «over» =>
    exact .inl (hd.requeues (Pool.Requeues.refl _) hd.fits hd.tracked _ _)
  | no_room =>
    exact .inl (hd.requeues (Pool.Requeues.refl _) hd.fits hd.tracked _ _)
  | on_no_path =>
    exact .inl (hd.requeues (Pool.Requeues.refl _) hd.fits hd.tracked _ _)
  | @reconnect opens lanes _ same _ =>
    exact .inl (hd.requeues ((hlanes lanes).trans (Pool.Requeues.try_reconnect _ opens))
      ((hd.fits.same same).try_reconnect opens) ((hd.tracked.same lanes).try_reconnect hok) _ _)
  | @tick ticks =>
    exact .inl (hd.requeues (Pool.Requeues.tick_all _ ticks) (hd.fits.tick_all ticks)
      (hd.tracked.tick_all hok) _ _)
  | retry held next =>
    left
    refine hd.moved ?_ rfl rfl rfl rfl rfl rfl rfl rfl ⟨hd.fits.lanes, hd.fits.down,
      hd.fits.reported⟩ ⟨hd.tracked.tags, hd.tracked.live, hd.tracked.down, hd.tracked.count⟩ ?_
    · unfold used
      rw [held, next]
      exact List.Perm.refl _
    · intro slot req heq
      cases heq
      rfl
  | execute held retry mode next =>
    left
    have hplaced := hd.placed
    unfold Placed at hplaced
    rw [mode] at hplaced
    obtain ⟨hnodup, hlt, hle, hdepth⟩ := hplaced
    have hnext := (List.getElem?_eq_some_iff.mp next).1
    have hnot : d.offered.length ∉ d.used := fun hmem => Nat.lt_irrefl _ (hlt _ hmem)
    refine hd.take held (by omega) hnot ?_
    unfold Placed
    rw [take_used held]
    dsimp only [Drive.take]
    rw [mode, List.length_append, List.length_singleton]
    refine ⟨List.nodup_cons.mpr ⟨hnot, hnodup⟩, fun slot hslot => ?_, hnext, hdepth⟩
    rcases List.mem_cons.mp hslot with rfl | hslot
    · exact Nat.lt_succ_self _
    · exact Nat.lt_succ_of_lt (hlt slot hslot)
  | stream held retry mode next =>
    left
    have hplaced := hd.placed
    unfold Placed at hplaced
    rw [mode, next] at hplaced
    have hnodup := hplaced.nodup_iff.mpr List.nodup_range
    rw [List.cons_append, List.nodup_cons] at hnodup
    refine hd.take held (List.mem_range.mp (hplaced.subset List.mem_cons_self))
      (fun hmem => hnodup.1 (List.mem_append_right _ hmem)) ?_
    unfold Placed
    rw [take_used held]
    dsimp only [Drive.take]
    rw [mode]
    exact List.perm_middle.trans hplaced
  | @dropped _ _ path lanes _ _ held same _ _ _ =>
    exact .inl (hd.requeues ((hlanes lanes).trans (Pool.Requeues.disconnect _ path))
      ((hd.fits.same same).disconnect path) ((hd.tracked.same lanes).disconnect path) _ _)
  | launch held same chosen _ sent =>
    exact .inl (hd.launch same held sent (hok _ _ _ _ _ _ held chosen sent))
  | @lost path =>
    exact .inl (hd.requeues (Pool.Requeues.disconnect _ path) (hd.fits.disconnect path)
      (hd.tracked.disconnect path) _ _)
  | finish busy found polled =>
    obtain ⟨htag, htags⟩ := hok _ _ found polled
    exact hd.finish polled htag htags

/-- What the end of a call says: with Ok nothing is in flight or to be sent again,
and it does not end for want of a path with the commands in flight, nor with a
completion for a slot that is not there. -/
def Sound (d : Drive σ) : Prop :=
  match d.phase with
  | .finished (.ok _) => d.pool.in_flight = 0 ∧ d.pool.retry = []
  | .finished (.error .on_no_path) => False
  | .finished (.error (.panic _)) => False
  | _ => True

theorem sound_of_quiet (h : Quiet d.phase) : d.Sound := by
  unfold Sound
  split
  · rename_i heq
    rw [heq] at h
    exact h.elim
  · rename_i heq
    rw [heq] at h
    exact h
  · rename_i heq
    rw [heq] at h
    exact h
  · trivial

/-- While a slot is in flight, some path has its command. -/
theorem Conserved.busy_path (h : Conserved C depth d) (hbusy : d.pool.in_flight ≠ 0) :
    busy_path T d.pool ≠ none := by
  intro hnone
  have hcount := h.tracked.count
  obtain ⟨slot, hslot⟩ := List.exists_mem_of_ne_nil d.pool.flying
    (fun hnil => hbusy (by rw [hcount, hnil]; rfl))
  obtain ⟨s, hs⟩ := h.tracked.live slot hslot
  have htag : slot ∈ C.tags s := (h.tracked.tags _ s hs slot).mpr ⟨hslot, rfl⟩
  have hpos : 0 < T.inflight s := by
    rw [C.inflight_eq]
    exact Finset.card_pos.mpr ⟨slot, htag⟩
  have hlt : d.pool.went slot ∈ List.range d.pool.sessions.length :=
    List.mem_range.mpr (Pool.session_lt hs)
  have hno := List.find?_eq_none.mp hnone _ hlt
  simp [hs, hpos] at hno

theorem Move.sound {input : Input σ} (h : Move T d input e) (hd : Conserved C depth d)
    (hok : C.Obeys d input) : e.Sound := by
  cases h with
  | quiet _ goes => exact sound_of_quiet goes
  | «over» idle _ retry => exact ⟨idle, retry⟩
  | no_room => trivial
  | on_no_path busy found => exact absurd found (hd.busy_path busy)
  | reconnect _ goes => exact sound_of_quiet goes
  | tick => trivial
  | retry => trivial
  | execute => trivial
  | stream => trivial
  | dropped _ _ _ stays =>
    refine sound_of_quiet ?_
    dsimp only
    rw [stays]
    trivial
  | launch => trivial
  | lost => trivial
  | @finish path nanos s session done busy found polled =>
    obtain ⟨htag, -⟩ := hok _ _ found polled
    have hflying := ((hd.tracked.tags path s polled done.tag).mp htag).1
    rcases finish_cases d path session done nanos (lt_of_mem_marked hflying) with
      ⟨-, lanes, last, -, heq⟩ | ⟨-, heq⟩ | heq
    · rw [heq]
      trivial
    · rw [heq]
      trivial
    · rw [heq]
      trivial

/-- The counter is the sum over the live sessions. -/
theorem Conserved.sum (h : Conserved C depth d) :
    d.pool.in_flight = ∑ path ∈ Finset.range d.pool.sessions.length,
      ((d.pool.session path).map T.inflight).getD 0 := by
  have hmaps : ∀ slot ∈ d.pool.flying.toFinset,
      d.pool.went slot ∈ Finset.range d.pool.sessions.length := by
    intro slot hslot
    obtain ⟨s, hs⟩ := h.tracked.live slot (List.mem_toFinset.mp hslot)
    exact Finset.mem_range.mpr (Pool.session_lt hs)
  have hcard : d.pool.flying.toFinset.card = d.pool.flying.length :=
    List.toFinset_card_of_nodup (marked_nodup _)
  rw [h.tracked.count, ← hcard, Finset.card_eq_sum_card_fiberwise hmaps]
  refine Finset.sum_congr rfl fun path _ => ?_
  cases hs : d.pool.session path with
  | none =>
    rw [Option.map_none, Option.getD_none, Finset.card_eq_zero, Finset.filter_eq_empty_iff]
    rintro slot hslot rfl
    obtain ⟨s, hs'⟩ := h.tracked.live slot (List.mem_toFinset.mp hslot)
    rw [hs] at hs'
    cases hs'
  | some s =>
    rw [Option.map_some, Option.getD_some, C.inflight_eq]
    congr 1
    ext slot
    rw [Finset.mem_filter, List.mem_toFinset, h.tracked.tags path s hs]

end Drive

/-! ## Whole calls -/

/-- A pool between two calls of `drive`: nothing is in flight or to be sent again,
and the slots are enough for the call. -/
structure Pool.Ready (C : Contract T) (depth : Nat) (mode : Mode) (p : Pool σ) : Prop where
  fits : p.Fits
  idle : ∀ path s, p.session path = some s → C.tags s = ∅
  down : ∀ path, p.down.getD path false = true → p.session path = none
  flying : p.flying = []
  retry : p.retry = []
  in_flight : p.in_flight = 0
  inflight_length : p.slot_inflight.length = depth
  req_length : p.slot_req.length = depth
  path_length : p.slot_path.length = depth
  slots : match mode with
    | .stream => p.free.Perm (List.range depth)
    | .execute requests => requests.length ≤ depth

theorem Pool.open_idle {found : List (Option (σ × Geometry))} {policy : Policy} {seed : UInt64}
    {p : Pool σ} (h : Pool.open T found policy seed = some p) :
    (∀ path, p.down.getD path false = false) ∧ p.in_flight = 0 := by
  unfold Pool.open at h
  simp only [bind, Option.bind_eq_some_iff] at h
  obtain ⟨opened, -, geometry, -, h⟩ := h
  split at h
  · simp only [Option.bind_eq_some_iff] at h
    obtain ⟨lanes, -, h⟩ := h
    obtain rfl := Option.some.inj h
    refine ⟨fun path => ?_, rfl⟩
    dsimp only
    rw [List.getD_eq_getElem?_getD, List.getElem?_map]
    cases opened[path]? <;> rfl
  · cases h

/-- A pool that was opened and has its slots reserved is ready. -/
theorem Pool.reserve_ready {C : Contract T} {found : List (Option (σ × Geometry))}
    {policy : Policy} {seed : UInt64} {p : Pool σ} {depth : Nat} {mode : Mode}
    (hopen : Pool.open T found policy seed = some p)
    (hnew : ∀ path s, p.session path = some s → C.tags s = ∅)
    (hmode : ∀ requests, mode = .execute requests → requests.length ≤ depth) :
    (p.reserve depth).Ready C depth mode := by
  obtain ⟨⟨h1, h2, h3⟩, -⟩ := Pool.open_fits hopen
  obtain ⟨hup, hnothing⟩ := Pool.open_idle hopen
  refine ⟨⟨h1, h2, h3⟩, hnew, fun path hdown => ?_, marked_replicate_false depth, rfl, hnothing,
    List.length_replicate, List.length_replicate, List.length_replicate, ?_⟩
  · have hdown : p.down.getD path false = true := hdown
    rw [hup path] at hdown
    cases hdown
  · cases mode with
    | stream => exact List.Perm.refl _
    | execute requests => exact hmode requests rfl

namespace Drive

variable {C : Contract T} {depth : Nat} {d e : Drive σ}

theorem Conserved.start {p : Pool σ} {mode : Mode} (h : p.Ready C depth mode) :
    Conserved C depth (Drive.start p mode) := by
  have hused : (Drive.start p mode).used = [] := by
    unfold used
    show [] ++ (p.retry ++ p.flying) = []
    rw [h.retry, h.flying]
    rfl
  refine ⟨h.fits, ⟨?_, ?_, h.down, ?_⟩, h.inflight_length, h.req_length, h.path_length,
    (List.length_replicate.trans h.req_length), ?_, nofun, ?_, ?_, nofun⟩
  · intro path s hs slot
    rw [h.idle path s hs]
    refine iff_of_false (Finset.notMem_empty slot) ?_
    rintro ⟨hf, -⟩
    have hf : slot ∈ p.flying := hf
    rw [h.flying] at hf
    cases hf
  · intro slot hf
    have hf : slot ∈ p.flying := hf
    rw [h.flying] at hf
    cases hf
  · show p.in_flight = p.flying.length
    rw [h.in_flight, h.flying]
    rfl
  · have hslots := h.slots
    cases mode with
    | stream =>
      show (p.free ++ (Drive.start p .stream).used).Perm (List.range depth)
      rw [hused, List.append_nil]
      exact hslots
    | execute requests =>
      unfold Placed
      rw [hused]
      exact ⟨List.nodup_nil, nofun, Nat.zero_le _, hslots⟩
  · rw [hused]
    exact List.Perm.refl _
  · rw [hused]
    exact nofun

/-- What every state of a call keeps. -/
def Kept (C : Contract T) (depth : Nat) (d : Drive σ) : Prop :=
  (Conserved C depth d ∨ d.Failed) ∧ d.Sound

theorem step_kept {input : Input σ} (hd : Kept C depth d) (hok : C.Obeys d input)
    (h : d.step T input = some e) : Kept C depth e := by
  obtain ⟨hd | ⟨done, hfailed⟩, -⟩ := hd
  · have hmove := step_move hd.fits.lanes h
    exact ⟨hmove.conserved hd hok, hmove.sound hd hok⟩
  · unfold step at h
    rw [hfailed] at h
    cases h

/-- When a call ends with Ok and holds no request, nothing is left in the pool. -/
theorem Conserved.over (h : Conserved C depth d) (hidle : d.pool.in_flight = 0)
    (hretry : d.pool.retry = []) (hheld : d.held = none) :
    (d.completed.map (·.1)).Perm (List.range d.offered.length) ∧ d.pool.Ready C depth d.mode := by
  have hflying : d.pool.flying = [] := List.eq_nil_of_length_eq_zero (h.tracked.count ▸ hidle)
  have hused : d.used = [] := by
    unfold used
    rw [hheld, hretry, hflying]
    rfl
  constructor
  · have hledger := h.ledger
    rw [hused, List.map_nil, List.append_nil] at hledger
    exact hledger
  · refine ⟨h.fits, fun path s hs => ?_, h.tracked.down, hflying, hretry, hidle,
      h.inflight_length, h.req_length, h.path_length, ?_⟩
    · rw [Finset.eq_empty_iff_forall_notMem]
      intro slot hslot
      have hf := ((h.tracked.tags path s hs slot).mp hslot).1
      rw [hflying] at hf
      cases hf
    · have hplaced := h.placed
      unfold Placed at hplaced
      rw [hused] at hplaced
      split
      · rename_i hm
        rw [hm] at hplaced
        simpa using hplaced
      · rename_i hm
        rw [hm] at hplaced
        exact hplaced.2.2.2

/-- In every state of every call, with any order of sends, completions, dropped
connections and failovers: a stream's slots are each in one of free, held, retry
and in flight, and those of `execute` in at most one of the last three; the
counter is the number of slots in flight and of commands on the live sessions, so
that it never goes below zero. A call does not end for want of a path with the
commands in flight. When it ends with Ok and holds no request, every request
offered was passed to `complete` once. -/
theorem every_slot_is_in_one_place (C : Contract T) {p : Pool σ} {mode : Mode}
    {inputs : List (Input σ)} (hready : p.Ready C depth mode)
    (hrun : machine.run (Drive.step T) (Drive.start p mode) inputs = some d)
    (hok : machine.Along (Drive.step T) C.Obeys (Drive.start p mode) inputs) :
    (¬ d.Failed → d.Placed depth ∧ d.pool.in_flight = d.pool.slot_inflight.count true ∧
      d.pool.in_flight = ∑ path ∈ Finset.range d.pool.sessions.length,
        ((d.pool.session path).map T.inflight).getD 0 ∧
      ∀ path, (d.pool.flying_on path).length ≤ d.pool.in_flight) ∧
    d.phase ≠ .finished (.error .on_no_path) ∧
    (∀ tag, d.phase ≠ .finished (.error (.panic tag))) ∧
    (d.phase = .finished (.ok ()) → d.held = none →
      (d.completed.map (·.1)).Perm (List.range d.offered.length) ∧
      (∀ c ∈ d.completed, d.offered[c.1]? = some c.2.2) ∧ d.pool.Ready C depth d.mode) := by
  obtain ⟨hkept, hsound⟩ : Kept C depth d :=
    machine.invariant_along (fun _ _ _ hd hinput hstep => step_kept hd hinput hstep) hrun hok
      ⟨.inl (Conserved.start hready), trivial⟩
  refine ⟨fun hfailed => ?_, fun hphase => ?_, fun tag hphase => ?_, fun hphase hheld => ?_⟩
  · have h := hkept.resolve_right hfailed
    refine ⟨h.placed, h.tracked.count.trans (length_marked _), h.sum, fun path => ?_⟩
    rw [h.tracked.count]
    exact List.length_filter_le _ _
  · rw [Sound, hphase] at hsound
    exact hsound
  · rw [Sound, hphase] at hsound
    exact hsound
  · rw [Sound, hphase] at hsound
    have h : Conserved C depth d := by
      refine hkept.resolve_right ?_
      rintro ⟨done, hdone⟩
      rw [hphase] at hdone
      cases hdone
    obtain ⟨hperm, hagain⟩ := h.over hsound.1 hsound.2 hheld
    exact ⟨hperm, h.completed, hagain⟩

end Drive

/-! ## Two calls -/

/-- A transport that keeps nothing but the tags of its commands, one at a time. -/
def Transport.tagged : Transport (Finset Nat) :=
  { can_submit := fun s => decide (s.card < 1)
    inflight := Finset.card
    tier := fun _ => none
    check := fun _ _ => true }

def Contract.tagged : Contract Transport.tagged := ⟨id, fun _ => rfl⟩

/-- A pool of one path and one slot. -/
def Pool.tagged : Option (Pool (Finset Nat)) :=
  (Pool.open .tagged [some (∅, ⟨512, 1048576⟩)] .RoundRobin 1).map (·.reserve 1)

theorem session_one {x : Option (Finset Nat)} {path : Nat} {s : Finset Nat}
    (h : ([x][path]?).join = some s) : x = some s := by
  cases path with
  | zero => exact h
  | succ path => cases h

theorem Pool.tagged_ready {p : Pool (Finset Nat)} {mode : Mode} (h : Pool.tagged = some p)
    (hmode : ∀ requests, mode = .execute requests → requests.length ≤ 1) :
    p.Ready Contract.tagged 1 mode := by
  obtain ⟨q, hopen, rfl⟩ := Option.map_eq_some_iff.mp h
  refine Pool.reserve_ready hopen (fun path s hs => ?_) hmode
  cases hopen
  cases session_one hs
  rfl

/-- A pool of two paths and two slots. -/
def Pool.tagged_two : Option (Pool (Finset Nat)) :=
  (Pool.open .tagged [some (∅, ⟨512, 1048576⟩), some (∅, ⟨512, 1048576⟩)] .RoundRobin 1).map
    (·.reserve 2)

theorem session_two {x y : Option (Finset Nat)} {path : Nat} {s : Finset Nat}
    (h : ([x, y][path]?).join = some s) : path = 0 ∧ x = some s ∨ path = 1 ∧ y = some s := by
  match path with
  | 0 => exact .inl ⟨rfl, h⟩
  | 1 => exact .inr ⟨rfl, h⟩
  | path + 2 => cases h

theorem Pool.tagged_two_ready {p : Pool (Finset Nat)} (h : Pool.tagged_two = some p) :
    p.Ready Contract.tagged 2 .stream := by
  obtain ⟨q, hopen, rfl⟩ := Option.map_eq_some_iff.mp h
  refine Pool.reserve_ready hopen (fun path s hs => ?_) nofun
  cases hopen
  rcases session_two hs with ⟨-, hs⟩ | ⟨-, hs⟩
  · cases hs
    rfl
  · cases hs
    rfl

/-- One read through a stream, from its offer to the end of the call. -/
def Drive.one_read : List (Input (Finset Nat)) :=
  [.reconnect fun _ => .waiting, .ticks fun _ => some ∅,
    .offer (.request { Request.default with len := 512 }), .submitted (some {0}), .go,
    .polled (some (∅, ⟨0, 0, 0, false, bytes.Block.zero 64, 0⟩)) 1,
    .reconnect fun _ => .waiting, .ticks fun _ => some ∅, .offer .done, .go, .go]

theorem Drive.one_read_ends : ∃ p d, Pool.tagged = some p ∧
    machine.run (Drive.step .tagged) (Drive.start p .stream) Drive.one_read = some d ∧
    d.phase = .finished (.ok ()) ∧ d.held = none ∧ d.offered.length = 1 ∧
    machine.Along (Drive.step .tagged) Contract.tagged.Obeys (Drive.start p .stream)
      Drive.one_read := by
  refine ⟨_, _, rfl, rfl, rfl, rfl, rfl, ?_⟩
  refine ⟨nofun, fun d hd => ?_⟩
  cases hd
  refine ⟨fun path s s' hs hs' => ?_, fun d hd => ?_⟩
  · cases hs'
    cases session_one hs
    rfl
  cases hd
  refine ⟨trivial, fun d hd => ?_⟩
  cases hd
  refine ⟨fun slot req path io q s hheld hchoose hs => ?_, fun d hd => ?_⟩
  · cases hheld
    cases session_one hs
    rfl
  cases hd
  refine ⟨trivial, fun d hd => ?_⟩
  cases hd
  refine ⟨fun path s hpath hs => ?_, fun d hd => ?_⟩
  · cases session_one hs
    exact ⟨by decide, by decide⟩
  cases hd
  refine ⟨nofun, fun d hd => ?_⟩
  cases hd
  refine ⟨fun path s s' hs hs' => ?_, fun d hd => ?_⟩
  · cases hs'
    cases session_one hs
    rfl
  cases hd
  refine ⟨trivial, fun d hd => ?_⟩
  cases hd
  refine ⟨trivial, fun d hd => ?_⟩
  cases hd
  exact ⟨trivial, fun _ _ => trivial⟩

/-- The read is complete when the call ends. -/
theorem one_read_is_complete : ∃ p d, Pool.tagged = some p ∧
    machine.run (Drive.step .tagged) (Drive.start p .stream) Drive.one_read = some d ∧
    (d.completed.map (·.1)).Perm [0] := by
  obtain ⟨p, d, hp, hrun, hphase, hheld, hoffered, hok⟩ := Drive.one_read_ends
  have hready : p.Ready Contract.tagged 1 .stream := Pool.tagged_ready hp fun _ h => by cases h
  obtain ⟨hperm, -⟩ :=
    (Drive.every_slot_is_in_one_place Contract.tagged hready hrun hok).2.2.2 hphase hheld
  rw [hoffered] at hperm
  exact ⟨p, d, hp, hrun, hperm⟩

/-- `execute` names its slots: slot 0 is in flight and still on the free list. -/
theorem a_slot_of_execute_is_free_and_in_flight :
    ∃ p inputs d, Pool.tagged = some p ∧
      p.Ready Contract.tagged 1 (.execute [{ Request.default with len := 512 }]) ∧
      machine.run (Drive.step .tagged)
        (Drive.start p (.execute [{ Request.default with len := 512 }])) inputs = some d ∧
      machine.Along (Drive.step .tagged) Contract.tagged.Obeys
        (Drive.start p (.execute [{ Request.default with len := 512 }])) inputs ∧
      0 ∈ d.pool.free ∧ d.pool.slot_inflight[0]? = some true := by
  refine ⟨_, [.reconnect fun _ => .waiting, .ticks fun _ => some ∅, .go, .submitted (some {0})], _,
    rfl, Pool.tagged_ready rfl ?_, rfl, ?_, by decide, rfl⟩
  · intro requests hrequests
    cases hrequests
    exact Nat.le_refl 1
  refine ⟨nofun, fun d hd => ?_⟩
  cases hd
  refine ⟨fun path s s' hs hs' => ?_, fun d hd => ?_⟩
  · cases hs'
    cases session_one hs
    rfl
  cases hd
  refine ⟨trivial, fun d hd => ?_⟩
  cases hd
  refine ⟨fun slot req path io q s hheld hchoose hs => ?_, fun _ _ => trivial⟩
  cases hheld
  cases session_one hs
  rfl

end stutools
