-- The order in which `drive` sends requests that conflict. A request waits for
-- the ones in flight, and a request to be sent again goes before a new one, but
-- the held request goes before everything: when a connection drops under the
-- command it waits for, it is sent first.
import Stutools.PoolSlots

open flags

namespace stutools

variable {σ : Type} {T : Transport σ}

namespace Pool

/-- What the overlap check lets through: with `race`, a check of a write in flight. -/
theorem overlaps_in_flight.spec {p : Pool σ} {req : Request} (h : p.overlaps_in_flight req = false)
    {slot : Nat} (hslot : slot ∈ p.flying) (hconflict : conflict (p.req_of slot) req = true) :
    p.race = true ∧ is_read_back req = true ∧ (p.req_of slot).write = true := by
  have hlt : slot ∈ List.range p.slot_inflight.length :=
    List.mem_range.mpr (lt_of_mem_marked hslot)
  have hno := List.any_eq_false.mp h slot hlt
  have hflying : p.slot_inflight.getD slot false = true := mem_marked.mp hslot
  have hconflict : conflict (p.slot_req.getD slot Request.default) req = true := hconflict
  have hwrite : (p.req_of slot).write = (p.slot_req.getD slot Request.default).write := rfl
  rw [hwrite]
  unfold is_read_back
  rw [hflying] at hno
  dsimp only at hno
  rw [hconflict] at hno
  simpa [and_assoc] using hno

theorem reconnect_retry (p : Pool σ) (opens : Nat → Attempt σ) (path : Nat) :
    (p.reconnect T opens path).retry = p.retry := by
  unfold Pool.reconnect
  split
  · split <;> rfl
  · rfl

theorem try_reconnect_retry (p : Pool σ) (opens : Nat → Attempt σ) :
    (p.try_reconnect T opens).retry = p.retry := by
  refine List.foldlRecOn (motive := fun q : Pool σ => q.retry = p.retry) _ _ rfl fun q hq path _ => ?_
  exact (reconnect_retry q opens path).trans hq

/-- The commands of a dropped path are to be sent again. -/
theorem mem_disconnect_retry {p : Pool σ} {path slot : Nat}
    (h : slot ∈ (p.disconnect path).retry) :
    slot ∈ p.retry ∨ slot ∈ p.flying ∧ p.went slot = path := by
  rw [disconnect_eq] at h
  rcases List.mem_append.mp h with h | h
  · exact .inr (mem_flying_on.mp (List.mem_reverse.mp h))
  · exact .inl h

/-- So are those of the paths whose housekeeping fails. -/
theorem mem_tick_all_retry {p : Pool σ} {ticks : Nat → Option σ} {slot : Nat}
    (h : slot ∈ (p.tick_all ticks).retry) :
    slot ∈ p.retry ∨ slot ∈ p.flying ∧ ticks (p.went slot) = none := by
  have hloop : ∀ slot, (slot ∈ (p.tick_all ticks).retry →
      slot ∈ p.retry ∨ slot ∈ p.flying ∧ ticks (p.went slot) = none) ∧
      (slot ∈ (p.tick_all ticks).flying → slot ∈ p.flying) ∧
      (p.tick_all ticks).went slot = p.went slot := by
    refine List.foldlRecOn (motive := fun q : Pool σ => ∀ slot, (slot ∈ q.retry →
      slot ∈ p.retry ∨ slot ∈ p.flying ∧ ticks (p.went slot) = none) ∧
      (slot ∈ q.flying → slot ∈ p.flying) ∧ q.went slot = p.went slot) _ _
      (fun slot => ⟨.inl, id, rfl⟩) fun q hq path _ slot => ?_
    obtain ⟨hretry, hflying, hwent⟩ := hq slot
    unfold Pool.tick
    split
    · split
      · exact ⟨hretry, hflying, hwent⟩
      · rename_i hnone
        refine ⟨fun h => ?_, fun h => hflying (mem_disconnect_flying.mp h).1,
          (disconnect_went path slot).trans hwent⟩
        rcases mem_disconnect_retry h with h | ⟨h, hpath⟩
        · exact hretry h
        · exact .inr ⟨hflying h, by rw [← hwent, hpath]; exact hnone⟩
    · exact ⟨hretry, hflying, hwent⟩
  exact (hloop slot).1 h

end Pool

namespace Drive

/-! ## Requests that wait for each other -/

/-- With `race`, a check of a write and that write. -/
def Exempt (race : Bool) (write req : Request) : Prop :=
  race = true ∧ write.write = true ∧ req = read_back_of write

/-- The request of slot `b` has to wait for the one of slot `a`: that was offered
earlier and conflicts with it. -/
def Blocks (d : Drive σ) (a b : Nat) : Prop :=
  d.offer_of a < d.offer_of b ∧ conflict (d.pool.req_of a) (d.pool.req_of b) = true ∧
    ¬ Exempt d.pool.race (d.pool.req_of a) (d.pool.req_of b)

/-- The slots that were sent and are not complete. -/
def sent (d : Drive σ) : List Nat := d.pool.retry ++ d.pool.flying

/-- No request that was sent waits for another, the held one waits for none that
is to be sent again, and none that was sent waits for the held one. With `race`,
a check that conflicts with an earlier write is the check of that write. -/
structure InLine (d : Drive σ) : Prop where
  apart : ∀ a ∈ d.sent, ∀ b ∈ d.sent, ¬ d.Blocks a b
  held : ∀ slot req, d.held = some (slot, req) → ∀ a ∈ d.pool.retry, ¬ d.Blocks a slot
  later : ∀ slot req, d.held = some (slot, req) → ∀ a ∈ d.sent, ¬ d.Blocks slot a
  own : d.pool.race = true → ∀ a ∈ d.used, ∀ b ∈ d.used, d.offer_of a < d.offer_of b →
    is_read_back (d.pool.req_of b) = true → (d.pool.req_of a).write = true →
    conflict (d.pool.req_of a) (d.pool.req_of b) = true →
    d.pool.req_of b = read_back_of (d.pool.req_of a)

/-- The slots whose commands a step takes out of flight to be sent again: those of
a path that drops, and the one that comes back from an unavailable path. -/
def Drops (T : Transport σ) (d : Drive σ) : Input σ → Nat → Prop
  | .ticks ticks, slot => ticks (d.pool.went slot) = none
  | .submitted none, slot => ∃ held req io q, d.held = some (held, req) ∧
      choose T d.pool req = (.submit (d.pool.went slot) io, q)
  | .polled none _, slot => busy_path T d.pool = some (d.pool.went slot)
  | .polled (some (_, done)) _, slot => done.tag = slot ∧ done.status ≠ 0 ∧ done.unavailable = true
  | _, _ => False

/-- The request that the source has next. -/
def next (d : Drive σ) (input : Input σ) : Option Request :=
  match d.mode, input with
  | .execute requests, _ => requests[d.offered.length]?
  | .stream, .offer (.request req) => some req
  | .stream, _ => none

/-- A step that keeps the order: it drops no command that the held request waits
for, and with `race` a check taken while a write of its extent is not complete is
the check of that write. -/
structure InTurn (T : Transport σ) (d : Drive σ) (input : Input σ) : Prop where
  drops : ∀ a ∈ d.pool.flying, Drops T d input a → ∀ slot req, d.held = some (slot, req) →
    ¬ d.Blocks a slot
  own : d.phase = .fetch → d.held = none → d.pool.retry = [] → ∀ req, d.next input = some req →
    d.pool.race = true → is_read_back req = true → ∀ a ∈ d.used,
    (d.pool.req_of a).write = true → conflict (d.pool.req_of a) req = true →
    req = read_back_of (d.pool.req_of a)

theorem InTurn.calm {d : Drive σ} {input : Input σ} (hrace : d.pool.race = false)
    (h : ∀ slot, ¬ Drops T d input slot) : InTurn T d input := by
  refine ⟨fun a _ hdrops => absurd hdrops (h a), fun _ _ _ _ _ hr => ?_⟩
  rw [hrace] at hr
  cases hr

/-! ## What every step keeps -/

variable {C : Contract T} {depth : Nat} {d e : Drive σ} {input : Input σ}

theorem mem_used_of_sent {slot : Nat} (h : slot ∈ d.sent) : slot ∈ d.used :=
  List.mem_append_right _ h

theorem InLine.nothing (hheld : d.held = none) (hsent : d.sent = []) : d.InLine := by
  have hused : d.used = [] := by
    unfold used
    rw [hheld]
    exact hsent
  refine ⟨?_, ?_, ?_, ?_⟩
  · rw [hsent]
    exact nofun
  · rw [hheld]
    exact nofun
  · rw [hheld]
    exact nofun
  · rw [hused]
    exact fun _ => nofun

/-- Slots that stay, leave, or go back to be sent again. -/
theorem InLine.mono (h : d.InLine) (hreq : e.pool.slot_req = d.pool.slot_req)
    (hslots : e.slot_offer = d.slot_offer) (hrace : e.pool.race = d.pool.race)
    (hheld : e.held = d.held) (hsent : ∀ a ∈ e.sent, a ∈ d.sent)
    (hretry : ∀ a ∈ e.pool.retry, a ∈ d.pool.retry ∨
      ∀ slot req, d.held = some (slot, req) → ¬ d.Blocks a slot) : e.InLine := by
  have hreqs : e.pool.req_of = d.pool.req_of := by
    funext slot
    unfold Pool.req_of
    rw [hreq]
  have hoffer : e.offer_of = d.offer_of := by
    funext slot
    unfold offer_of
    rw [hslots]
  have hblocks : e.Blocks = d.Blocks := by
    funext a b
    unfold Blocks
    rw [hreqs, hoffer, hrace]
  have hused : ∀ a ∈ e.used, a ∈ d.used := by
    intro a ha
    rcases List.mem_append.mp ha with ha | ha
    · rw [hheld] at ha
      exact List.mem_append_left _ ha
    · exact List.mem_append_right _ (hsent a ha)
  refine ⟨fun a ha b hb => ?_, fun slot req hs a ha => ?_, fun slot req hs a ha => ?_, ?_⟩
  · rw [hblocks]
    exact h.apart a (hsent a ha) b (hsent b hb)
  · rw [hheld] at hs
    rw [hblocks]
    rcases hretry a ha with hold | hnew
    · exact h.held slot req hs a hold
    · exact hnew slot req hs
  · rw [hheld] at hs
    rw [hblocks]
    exact h.later slot req hs a (hsent a ha)
  · rw [hrace, hreqs, hoffer]
    exact fun hr a ha b hb => h.own hr a (hused a ha) b (hused b hb)

/-- Connections that drop put only such commands back as the held request does not
wait for. -/
theorem InLine.requeues (h : d.InLine) {q : Pool σ} (hq : d.pool.Requeues q)
    (hretry : ∀ a ∈ q.retry, a ∈ d.pool.retry ∨
      ∀ slot req, d.held = some (slot, req) → ¬ d.Blocks a slot) (exhausted : Bool) (phase : Phase) :
    ({ d with pool := q, exhausted, phase } : Drive σ).InLine :=
  h.mono hq.slot_req rfl hq.race rfl (fun _ ha => hq.perm.subset ha) hretry

/-- A request that is taken is the last in the order. -/
theorem InLine.take (h : d.InLine) (hd : Conserved C depth d) {slot : Nat} {req : Request}
    (free : List Nat) (hheld : d.held = none) (hretry : d.pool.retry = []) (hslot : slot < depth)
    (hnot : slot ∉ d.used)
    (hown : d.pool.race = true → is_read_back req = true → ∀ a ∈ d.used,
      (d.pool.req_of a).write = true → conflict (d.pool.req_of a) req = true →
      req = read_back_of (d.pool.req_of a)) :
    ({ d with pool := { d.pool with free } }.take slot req).InLine := by
  have hoffer := take_offer_of req free (hd.offer_length.symm ▸ hslot)
  have hreq := take_req_of req free (hd.req_length.symm ▸ hslot)
  have hused : ({ d with pool := { d.pool with free } }.take slot req).used = slot :: d.used :=
    take_used hheld
  have hne : ∀ a ∈ d.used, slot ≠ a := fun a ha he => hnot (he ▸ ha)
  have hlt : ∀ a ∈ d.used, d.offer_of a < d.offered.length := fun a ha =>
    List.mem_range.mp (hd.ledger.subset (List.mem_append_right _ (List.mem_map_of_mem ha)))
  refine ⟨fun a ha b hb => ?_, fun slot' req' _ a ha => ?_, fun slot' req' heq a ha => ?_,
    fun hrace a ha b hb => ?_⟩
  · have hold := h.apart a ha b hb
    unfold Blocks at hold ⊢
    rw [hoffer, hoffer, hreq, hreq, if_neg (hne a (mem_used_of_sent ha)),
      if_neg (hne b (mem_used_of_sent hb)), if_neg (hne a (mem_used_of_sent ha)),
      if_neg (hne b (mem_used_of_sent hb))]
    exact hold
  · have ha : a ∈ d.pool.retry := ha
    rw [hretry] at ha
    cases ha
  · cases heq
    rintro ⟨hbefore, -⟩
    rw [hoffer, hoffer, if_pos rfl, if_neg (hne a (mem_used_of_sent ha))] at hbefore
    have := hlt a (mem_used_of_sent ha)
    omega
  · rw [hused] at ha hb
    rw [hoffer, hoffer, hreq, hreq]
    rcases List.mem_cons.mp ha with rfl | hold
    · rcases List.mem_cons.mp hb with rfl | hb
      · exact fun hbefore => absurd hbefore (Nat.lt_irrefl _)
      · intro hbefore
        rw [if_pos rfl, if_neg (hne b hb)] at hbefore
        have := hlt b hb
        omega
    · rw [if_neg (hne a hold), if_neg (hne a hold)]
      rcases List.mem_cons.mp hb with rfl | hb
      · rw [if_pos rfl, if_pos rfl]
        exact fun _ hread hwrite hconflict => hown hrace hread a hold hwrite hconflict
      · rw [if_neg (hne b hb), if_neg (hne b hb)]
        exact h.own hrace a hold b hb

/-- A held request that is sent waits for nothing that was sent. -/
theorem InLine.not_blocked (h : d.InLine) (hd : Conserved C depth d) {slot : Nat} {req : Request}
    (hheld : d.held = some (slot, req)) (hapart : d.pool.overlaps_in_flight req = false) :
    ∀ a ∈ d.sent, ¬ d.Blocks a slot := by
  have hreq : d.pool.req_of slot = req := hd.held slot req hheld
  have hslot : slot ∈ d.used := by
    unfold used
    rw [hheld]
    exact List.mem_cons_self
  intro a ha hblocks
  rcases List.mem_append.mp ha with hretry | hflying
  · exact h.held slot req hheld a hretry hblocks
  · obtain ⟨hbefore, hconflict, hexempt⟩ := hblocks
    obtain ⟨hrace, hread, hwrite⟩ :=
      Pool.overlaps_in_flight.spec hapart hflying (by rw [← hreq]; exact hconflict)
    refine hexempt ⟨hrace, hwrite, ?_⟩
    exact h.own hrace a (mem_used_of_sent ha) slot hslot hbefore (by rw [hreq]; exact hread) hwrite
      hconflict

/-- The held request is sent. -/
theorem InLine.launch (h : d.InLine) (hd : Conserved C depth d) {slot path : Nat} {req : Request}
    {s : σ} {lanes : Lanes} (hheld : d.held = some (slot, req))
    (hapart : d.pool.overlaps_in_flight req = false) :
    ({ d with
      pool := launched { d.pool with lanes } slot path s
      held := none, phase := .fetch } : Drive σ).InLine := by
  have hused : d.used = slot :: d.sent := by
    unfold used
    rw [hheld]
    rfl
  have hslot : slot < d.pool.slot_inflight.length :=
    hd.inflight_length ▸ hd.used_lt (hused ▸ List.mem_cons_self)
  have hnot : slot ∉ d.pool.flying := by
    intro hf
    have hnodup := hd.used_nodup
    rw [hused] at hnodup
    exact (List.nodup_cons.mp hnodup).1 (List.mem_append_right _ hf)
  have hsent : ∀ a ∈ d.pool.retry ++ (launched { d.pool with lanes } slot path s).flying,
      a ∈ slot :: d.sent := by
    have hflying : (launched { d.pool with lanes } slot path s).flying.Perm
        (slot :: d.pool.flying) := Pool.launched_flying path s hslot hnot
    exact fun a ha => ((hflying.append_left d.pool.retry).trans List.perm_middle).subset ha
  refine ⟨fun a ha b hb => ?_, nofun, nofun, fun hrace a ha b hb => ?_⟩
  · show ¬ d.Blocks a b
    rcases List.mem_cons.mp (hsent a ha) with rfl | hold
    · rcases List.mem_cons.mp (hsent b hb) with rfl | hlater
      · exact fun hblocks => Nat.lt_irrefl _ hblocks.1
      · exact h.later a req hheld b hlater
    · rcases List.mem_cons.mp (hsent b hb) with rfl | hlater
      · exact h.not_blocked hd hheld hapart a hold
      · exact h.apart a hold b hlater
  · exact h.own hrace a (hused ▸ hsent a ha) b (hused ▸ hsent b hb)

/-- Every step in turn keeps the requests in line. -/
theorem Move.in_line (h : Move T d input e) (hd : Conserved C depth d) (hline : d.InLine)
    (hturn : InTurn T d input) (hok : C.Obeys d input) : e.InLine := by
  have hlanes : ∀ lanes, d.pool.Requeues ({ d.pool with lanes } : Pool σ) := fun _ =>
    ⟨.refl _, fun _ => id, rfl, rfl, rfl, rfl, rfl⟩
  cases h with
  | @quiet _ lanes _ _ _ _ => exact hline.requeues (hlanes lanes) (fun _ => .inl) _ _
  | «over» => exact hline.requeues (Pool.Requeues.refl _) (fun _ => .inl) _ _
  | no_room => exact hline.requeues (Pool.Requeues.refl _) (fun _ => .inl) _ _
  | on_no_path => exact hline.requeues (Pool.Requeues.refl _) (fun _ => .inl) _ _
  | @reconnect opens lanes _ _ _ =>
    refine hline.requeues ((hlanes lanes).trans (Pool.Requeues.try_reconnect _ opens))
      (fun a ha => .inl ?_) _ _
    rw [Pool.try_reconnect_retry] at ha
    exact ha
  | @tick ticks =>
    refine hline.requeues (Pool.Requeues.tick_all _ ticks) (fun a ha => ?_) _ _
    rcases Pool.mem_tick_all_retry ha with hold | ⟨hflying, hnone⟩
    · exact .inl hold
    · exact .inr (hturn.drops a hflying hnone)
  | @dropped _ req path lanes _ io held _ _ _ chosen =>
    refine hline.requeues ((hlanes lanes).trans (Pool.Requeues.disconnect _ path))
      (fun a ha => ?_) _ _
    rcases Pool.mem_disconnect_retry ha with hold | ⟨hflying, hwent⟩
    · exact .inl hold
    · have hwent : d.pool.went a = path := hwent
      exact .inr (hturn.drops a hflying ⟨_, req, io, _, held, hwent ▸ chosen⟩)
  | @lost path nanos _ _ found =>
    refine hline.requeues (Pool.Requeues.disconnect _ path) (fun a ha => ?_) _ _
    rcases Pool.mem_disconnect_retry ha with hold | ⟨hflying, hwent⟩
    · exact .inl hold
    · refine .inr (hturn.drops a hflying ?_)
      show busy_path T d.pool = some (d.pool.went a)
      rw [hwent]
      exact found
  | @retry input slot rest held next =>
    have hsent : ∀ a ∈ rest ++ d.pool.flying, a ∈ d.sent := by
      intro a ha
      unfold sent
      rw [next]
      exact List.mem_cons_of_mem _ ha
    have hslot : slot ∈ d.sent := by
      unfold sent
      rw [next]
      exact List.mem_cons_self
    refine ⟨fun a ha b hb => hline.apart a (hsent a ha) b (hsent b hb),
      fun slot' req' heq a ha => ?_, fun slot' req' heq a ha => ?_, fun hrace a ha b hb => ?_⟩
    · cases heq
      exact hline.apart a (hsent a (List.mem_append_left _ ha)) slot hslot
    · cases heq
      exact hline.apart slot hslot a (hsent a ha)
    · have hused : ∀ c ∈ slot :: (rest ++ d.pool.flying), c ∈ d.used := by
        intro c hc
        rcases List.mem_cons.mp hc with rfl | hc
        · exact mem_used_of_sent hslot
        · exact mem_used_of_sent (hsent c hc)
      exact hline.own hrace a (hused a ha) b (hused b hb)
  | @execute _ requests req held retry mode next fetching =>
    have hplaced := hd.placed
    unfold Placed at hplaced
    rw [mode] at hplaced
    obtain ⟨-, hlt, hle, hdepth⟩ := hplaced
    have hbound := (List.getElem?_eq_some_iff.mp next).1
    refine hline.take hd d.pool.free held retry (by omega)
      (fun hmem => Nat.lt_irrefl _ (hlt _ hmem)) fun hrace hread => ?_
    refine hturn.own fetching held retry req ?_ hrace hread
    unfold Drive.next
    rw [mode]
    exact next
  | @stream slot free req held retry mode next fetching more =>
    have hplaced := hd.placed
    unfold Placed at hplaced
    rw [mode, next] at hplaced
    have hnodup := hplaced.nodup_iff.mpr List.nodup_range
    rw [List.cons_append, List.nodup_cons] at hnodup
    refine hline.take hd free held retry (List.mem_range.mp (hplaced.subset List.mem_cons_self))
      (fun hmem => hnodup.1 (List.mem_append_right _ hmem)) fun hrace hread => ?_
    refine hturn.own fetching held retry req ?_ hrace hread
    unfold Drive.next
    rw [mode]
  | launch held _ _ apart _ => exact hline.launch hd held apart
  | @finish path nanos s session done busy found polled =>
    obtain ⟨htag, -⟩ := hok _ _ found polled
    have hflying := ((hd.tracked.tags path s polled done.tag).mp htag).1
    have hlanded : ∀ a ∈ d.pool.retry ++ (d.pool.landed done.tag path session).flying,
        a ∈ d.sent := by
      intro a ha
      rcases List.mem_append.mp ha with ha | ha
      · exact List.mem_append_left _ ha
      · exact List.mem_append_right _ (mem_marked_set_false.mp ha).1
    rcases finish_cases d path session done nanos (lt_of_mem_marked hflying) with
      ⟨-, lanes, last, -, heq⟩ | ⟨hback, heq⟩ | heq
    · rw [heq]
      exact hline.mono rfl rfl rfl rfl hlanded fun _ => .inl
    · rw [heq]
      refine hline.mono rfl rfl rfl rfl (fun a ha => ?_) fun a ha => ?_
      · rcases List.mem_cons.mp ha with rfl | ha
        · exact List.mem_append_right _ hflying
        · exact hlanded a ha
      · rcases List.mem_cons.mp ha with rfl | ha
        · exact .inr (hturn.drops _ hflying ⟨rfl, hback⟩)
        · exact .inl ha
    · rw [heq]
      exact hline.mono rfl rfl rfl rfl hlanded fun _ => .inl

/-! ## Whole calls -/

/-- The held request goes to a path now. -/
def Sends (T : Transport σ) (d : Drive σ) (slot path : Nat) (req : Request) : Prop :=
  d.phase = .send ∧ d.held = some (slot, req) ∧ ∃ io q, choose T d.pool req = (.submit path io, q)

/-- Every request that was offered earlier and conflicts with it is complete, but
for the write that it checks. -/
def FirstInLine (d : Drive σ) (slot : Nat) (req : Request) : Prop :=
  ∀ m r, m < d.offer_of slot → d.offered[m]? = some r → conflict r req = true →
    ¬ Exempt d.pool.race r req → m ∈ d.completed.map (·.1)

/-- A request of the source that is not complete is in a slot. -/
theorem Conserved.first_in_line_iff (h : Conserved C depth d) {slot : Nat} {req : Request}
    (hheld : d.held = some (slot, req)) :
    d.FirstInLine slot req ↔ ∀ a ∈ d.sent, ¬ d.Blocks a slot := by
  have hreq : d.pool.req_of slot = req := h.held slot req hheld
  have hused : d.used = slot :: d.sent := by
    unfold used
    rw [hheld]
    rfl
  have hnodup := h.ledger.nodup_iff.mpr List.nodup_range
  constructor
  · intro hfirst a ha hblocks
    obtain ⟨hbefore, hconflict, hexempt⟩ := hblocks
    rw [hreq] at hconflict hexempt
    have hmem : a ∈ d.used := mem_used_of_sent ha
    have hdone := hfirst _ _ hbefore (h.requests a hmem) hconflict hexempt
    exact (List.nodup_append.mp hnodup).2.2 _ hdone _ (List.mem_map_of_mem hmem) rfl
  · intro hno m r hbefore hr hconflict hexempt
    have hplace : m ∈ List.range d.offered.length :=
      List.mem_range.mpr (List.getElem?_eq_some_iff.mp hr).1
    rcases List.mem_append.mp (h.ledger.symm.subset hplace) with hdone | hslot
    · exact hdone
    · exfalso
      obtain ⟨a, ha, rfl⟩ := List.mem_map.mp hslot
      obtain rfl := Option.some.inj ((h.requests a ha).symm.trans hr)
      rw [hused] at ha
      rcases List.mem_cons.mp ha with rfl | ha
      · exact Nat.lt_irrefl _ hbefore
      · refine hno a ha ⟨hbefore, ?_, ?_⟩
        · rw [hreq]
          exact hconflict
        · rw [hreq]
          exact hexempt

/-- In every state of every call, with any order of offers, completions, dropped
connections and failovers: if every step before it was in turn, a request goes to
a path only when each earlier one that conflicts with it is complete, but for the
write that it checks. At any one send, it is in order exactly when no earlier
request that conflicts with it is to be sent again, and with `race` every write in
flight that it overlaps is the one that it checks. -/
theorem a_request_is_sent_in_its_turn (C : Contract T) {p : Pool σ} {mode : Mode}
    {inputs : List (Input σ)} (hready : p.Ready C depth mode)
    (hrun : machine.run (Drive.step T) (Drive.start p mode) inputs = some d)
    (hok : machine.Along (Drive.step T) C.Obeys (Drive.start p mode) inputs) :
    (machine.Along (Drive.step T) (InTurn T) (Drive.start p mode) inputs →
      ∀ slot path req, Sends T d slot path req → d.FirstInLine slot req) ∧
    ∀ slot path req, Sends T d slot path req → (d.FirstInLine slot req ↔
      (∀ a ∈ d.pool.retry, ¬ d.Blocks a slot) ∧
      (d.pool.race = true → is_read_back req = true → ∀ a ∈ d.pool.flying,
        d.offer_of a < d.offer_of slot → (d.pool.req_of a).write = true →
        conflict (d.pool.req_of a) req = true → req = read_back_of (d.pool.req_of a))) := by
  have hlive : ∀ slot path req, Sends T d slot path req → ¬ d.Failed := by
    rintro slot path req ⟨hphase, -⟩ ⟨done, hdone⟩
    rw [hphase] at hdone
    cases hdone
  have hapart : Conserved C depth d → ∀ slot path req, Sends T d slot path req →
      d.pool.overlaps_in_flight req = false := by
    rintro hd slot path req ⟨-, -, io, q, hc⟩
    obtain ⟨-, -, -, hsubmit⟩ := choose.spec hd.fits.lanes hc
    exact (hsubmit path io rfl).1
  constructor
  · intro hturn slot path req hsends
    have hkept : Conserved C depth d ∧ d.InLine ∨ d.Failed := by
      refine machine.invariant_along
        (P := fun d => Conserved C depth d ∧ d.InLine ∨ d.Failed) ?_ hrun (hok.and hturn) ?_
      · rintro d input e (⟨hd, hline⟩ | ⟨done, hfailed⟩) ⟨hobeys, hinturn⟩ hstep
        · have hmove := step_move hd.fits.lanes hstep
          rcases hmove.conserved hd hobeys with he | hfailed
          · exact .inl ⟨he, hmove.in_line hd hline hinturn hobeys⟩
          · exact .inr hfailed
        · unfold step at hstep
          rw [hfailed] at hstep
          cases hstep
      · refine .inl ⟨Conserved.start hready, InLine.nothing rfl ?_⟩
        show p.retry ++ p.flying = []
        rw [hready.retry, hready.flying]
        rfl
    obtain ⟨hd, hline⟩ := hkept.resolve_right (hlive slot path req hsends)
    rw [hd.first_in_line_iff hsends.2.1]
    exact hline.not_blocked hd hsends.2.1 (hapart hd slot path req hsends)
  · intro slot path req hsends
    have hd : Conserved C depth d := by
      have hkept : Kept C depth d :=
        machine.invariant_along (fun _ _ _ hd hinput hstep => step_kept hd hinput hstep) hrun hok
          ⟨.inl (Conserved.start hready), trivial⟩
      exact hkept.1.resolve_right (hlive slot path req hsends)
    have hreq : d.pool.req_of slot = req := hd.held slot req hsends.2.1
    rw [hd.first_in_line_iff hsends.2.1]
    constructor
    · intro hno
      refine ⟨fun a ha => hno a (List.mem_append_left _ ha), fun hrace hread a ha hbefore hwrite
        hconflict => ?_⟩
      by_contra hother
      refine hno a (List.mem_append_right _ ha) ⟨hbefore, ?_, fun hexempt => hother ?_⟩
      · rw [hreq]
        exact hconflict
      · rw [hreq] at hexempt
        exact hexempt.2.2
    · rintro ⟨hretry, hown⟩ a ha hblocks
      rcases List.mem_append.mp ha with ha | ha
      · exact hretry a ha hblocks
      · obtain ⟨hbefore, hconflict, hexempt⟩ := hblocks
        rw [hreq] at hconflict hexempt
        obtain ⟨hrace, hread, hwrite⟩ :=
          Pool.overlaps_in_flight.spec (hapart hd slot path req hsends) ha hconflict
        exact hexempt ⟨hrace, hwrite, hown hrace hread a ha hbefore hwrite hconflict⟩

end Drive

/-! ## Two writes of one block -/

/-- Two writes of one block are offered: the first is in flight on path 0, and the
second waits for it. -/
def Drive.two_writes : List (Input (Finset Nat)) :=
  [.reconnect fun _ => .waiting, .ticks fun _ => some ∅,
    .offer (.request { Request.default with len := 512, write := true }), .submitted (some {0}),
    .offer (.request { Request.default with len := 512, write := true }), .go]

theorem Drive.two_writes_obeys {p : Pool (Finset Nat)} (h : Pool.tagged_two = some p)
    {more : List (Input (Finset Nat))}
    (hmore : ∀ d, machine.run (Drive.step .tagged) (Drive.start p .stream) Drive.two_writes =
      some d → machine.Along (Drive.step .tagged) Contract.tagged.Obeys d more) :
    machine.Along (Drive.step .tagged) Contract.tagged.Obeys (Drive.start p .stream)
      (Drive.two_writes ++ more) := by
  cases h
  refine ⟨nofun, fun d hd => ?_⟩
  cases hd
  refine ⟨fun path s s' hs hs' => ?_, fun d hd => ?_⟩
  · cases hs'
    rcases session_two hs with ⟨-, hs⟩ | ⟨-, hs⟩
    · cases hs
      rfl
    · cases hs
      rfl
  cases hd
  refine ⟨trivial, fun d hd => ?_⟩
  cases hd
  refine ⟨fun slot req path io q s hheld hchoose hs => ?_, fun d hd => ?_⟩
  · cases hheld
    rcases session_two hs with ⟨-, hs⟩ | ⟨-, hs⟩
    · cases hs
      rfl
    · cases hs
      rfl
  cases hd
  refine ⟨trivial, fun d hd => ?_⟩
  cases hd
  refine ⟨trivial, fun d hd => ?_⟩
  cases hd
  exact hmore _ rfl

/-- The first write completes, and the second goes to a path. -/
def Drive.one_after_the_other : List (Input (Finset Nat)) :=
  [.polled (some (∅, ⟨0, 0, 0, false, bytes.Block.zero 64, 0⟩)) 1,
    .reconnect fun _ => .waiting, .ticks fun _ => some ∅, .go]

/-- The second write is sent in its turn. -/
theorem the_second_write_is_first_in_line : ∃ p d, Pool.tagged_two = some p ∧
    machine.run (Drive.step .tagged) (Drive.start p .stream)
      (Drive.two_writes ++ Drive.one_after_the_other) = some d ∧
    d.FirstInLine 1 { Request.default with len := 512, write := true } := by
  obtain ⟨p, d, hp, hrun, hphase, hheld, hchoose⟩ : ∃ p d, Pool.tagged_two = some p ∧
      machine.run (Drive.step .tagged) (Drive.start p .stream)
        (Drive.two_writes ++ Drive.one_after_the_other) = some d ∧
      d.phase = .send ∧ d.held = some (1, { Request.default with len := 512, write := true }) ∧
      ∃ path io q, Drive.choose .tagged d.pool { Request.default with len := 512, write := true } =
        (.submit path io, q) :=
    ⟨_, _, rfl, rfl, rfl, rfl, ⟨_, _, _, rfl⟩⟩
  obtain ⟨path, io, q, hchoose⟩ := hchoose
  have hok : machine.Along (Drive.step .tagged) Contract.tagged.Obeys (Drive.start p .stream)
      (Drive.two_writes ++ Drive.one_after_the_other) := by
    refine Drive.two_writes_obeys hp fun d hd => ?_
    cases hp
    cases hd
    refine ⟨fun path s hpath hs => ?_, fun d hd => ?_⟩
    · cases hpath
      cases hs
      exact ⟨by decide, by decide⟩
    cases hd
    refine ⟨nofun, fun d hd => ?_⟩
    cases hd
    refine ⟨fun path s s' hs hs' => ?_, fun d hd => ?_⟩
    · cases hs'
      rcases session_two hs with ⟨-, hs⟩ | ⟨-, hs⟩
      · cases hs
        rfl
      · cases hs
        rfl
    cases hd
    exact ⟨trivial, fun _ _ => trivial⟩
  have hturn : machine.Along (Drive.step .tagged) (Drive.InTurn .tagged) (Drive.start p .stream)
      (Drive.two_writes ++ Drive.one_after_the_other) := by
    cases hp
    refine ⟨.calm rfl fun _ => id, fun d hd => ?_⟩
    cases hd
    refine ⟨.calm rfl nofun, fun d hd => ?_⟩
    cases hd
    refine ⟨.calm rfl fun _ => id, fun d hd => ?_⟩
    cases hd
    refine ⟨.calm rfl fun _ => id, fun d hd => ?_⟩
    cases hd
    refine ⟨.calm rfl fun _ => id, fun d hd => ?_⟩
    cases hd
    refine ⟨.calm rfl fun _ => id, fun d hd => ?_⟩
    cases hd
    refine ⟨.calm rfl fun slot hdrops => hdrops.2.1 rfl, fun d hd => ?_⟩
    cases hd
    refine ⟨.calm rfl fun _ => id, fun d hd => ?_⟩
    cases hd
    refine ⟨.calm rfl nofun, fun d hd => ?_⟩
    cases hd
    exact ⟨.calm rfl fun _ => id, fun _ _ => trivial⟩
  obtain ⟨hfirst, -⟩ := Drive.a_request_is_sent_in_its_turn Contract.tagged
    (Pool.tagged_two_ready hp) hrun hok
  exact ⟨p, d, hp, hrun, hfirst hturn 1 path _ ⟨hphase, hheld, io, q, hchoose⟩⟩

/-- The connection of path 0 drops, and the second write goes to path 1. -/
def Drive.first_path_drops : List (Input (Finset Nat)) :=
  [.polled none 1, .reconnect fun _ => .waiting, .ticks fun _ => some ∅, .go]

/-- The second write goes to path 1 while the first, which conflicts with it, is
still to be sent again. -/
theorem a_held_write_overtakes_the_one_it_waited_for : ∃ p d, Pool.tagged_two = some p ∧
    p.Ready Contract.tagged 2 .stream ∧
    machine.run (Drive.step .tagged) (Drive.start p .stream)
      (Drive.two_writes ++ Drive.first_path_drops) = some d ∧
    machine.Along (Drive.step .tagged) Contract.tagged.Obeys (Drive.start p .stream)
      (Drive.two_writes ++ Drive.first_path_drops) ∧
    Drive.Sends .tagged d 1 1 { Request.default with len := 512, write := true } ∧
    d.pool.retry = [0] ∧
    ¬ d.FirstInLine 1 { Request.default with len := 512, write := true } := by
  obtain ⟨p, d, hp, hrun, hsends, hretry, hoffers, hcompleted, hrace⟩ :
      ∃ p d, Pool.tagged_two = some p ∧
        machine.run (Drive.step .tagged) (Drive.start p .stream)
          (Drive.two_writes ++ Drive.first_path_drops) = some d ∧
        Drive.Sends .tagged d 1 1 { Request.default with len := 512, write := true } ∧
        d.pool.retry = [0] ∧
        (d.offer_of 1 = 1 ∧
          d.offered[0]? = some { Request.default with len := 512, write := true }) ∧
        d.completed = [] ∧ d.pool.race = false :=
    ⟨_, _, rfl, rfl, ⟨rfl, rfl, _, _, rfl⟩, rfl, ⟨rfl, rfl⟩, rfl, rfl⟩
  have hok : machine.Along (Drive.step .tagged) Contract.tagged.Obeys (Drive.start p .stream)
      (Drive.two_writes ++ Drive.first_path_drops) := by
    refine Drive.two_writes_obeys hp fun d hd => ?_
    cases hp
    cases hd
    refine ⟨trivial, fun d hd => ?_⟩
    cases hd
    refine ⟨nofun, fun d hd => ?_⟩
    cases hd
    refine ⟨fun path s s' hs hs' => ?_, fun d hd => ?_⟩
    · cases hs'
      rcases session_two hs with ⟨-, hs⟩ | ⟨-, hs⟩
      · cases hs
      · cases hs
        rfl
    cases hd
    exact ⟨trivial, fun _ _ => trivial⟩
  refine ⟨p, d, hp, Pool.tagged_two_ready hp, hrun, hok, hsends, hretry, fun hfirst => ?_⟩
  have hdone := hfirst 0 _ (by rw [hoffers.1]; decide) hoffers.2 (by decide)
    (by rw [hrace]; rintro ⟨hr, -⟩; cases hr)
  rw [hcompleted] at hdone
  cases hdone

end stutools
