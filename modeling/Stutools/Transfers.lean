-- What a finished command has moved. Both sessions report a command as soon as
-- its status arrives, and what they moved of its buffer is what the target's
-- data PDUs named, be it all of the buffer or not.
import Stutools.IscsiTrackers
import Stutools.NvmeSession

open bytes

namespace stutools

/-! ## iSCSI -/

namespace iscsi

/-- A byte of a command's buffer, and whether it is stored or loaded. -/
structure Place where
  itt : UInt32
  store : Bool
  index : Nat

def Touch.Covers (t : Touch) (k : Place) : Prop :=
  t.itt = k.itt ∧ t.store = k.store ∧ t.offset ≤ k.index ∧ k.index < t.offset + t.len

/-- The bytes a PDU names: the data of a Data-In, and what an R2T asks for. -/
def Event.Names : Event → Place → Prop
  | .received p, k => be32 p.bhs 16 = k.itt ∧ (be32 p.bhs 40).toNat ≤ k.index ∧
      (opcode p.bhs = DATA_IN ∧ k.store = true ∧
          k.index < (be32 p.bhs 40).toNat + p.data.length ∨
        opcode p.bhs = R2T ∧ k.store = false ∧
          k.index < (be32 p.bhs 40).toNat + (be32 p.bhs 44).toNat)
  | .submitted _, _ => False

/-- An event that submits no other command under the task tag. -/
def Event.Spares (itt : UInt32) : Event → Prop
  | .received _ => True
  | .submitted inf => inf.itt ≠ itt

namespace Session

/-- The session after an event, while it is not taken down. A command is
submitted under a task tag that is not in flight. -/
def step (s : Session) : Event → Option Session
  | .received p =>
    match s.handle p with
    | (t, .more) => some t
    | (t, .done _) => some t
    | (_, .failed _) => none
    | (_, .panic) => none
    | (_, .spins) => none
  | .submitted inf =>
    if s.inflight.any (·.itt == inf.itt) then none else some (s.on (.submitted inf))

/-- What the accesses gain between two states. -/
def Adds (s t : Session) (P : Place → Prop) : Prop :=
  machine.Adds Touch.Covers s.touched t.touched P

/-- The pieces of a write cover all of what they answer. -/
theorem send_pieces_adds {inf : Inflight} {r2t : R2t} {stop : Nat} (s : Session) (offset : Nat)
    (data_sn : UInt32) (h : (send_pieces inf r2t stop s offset data_sn).2 = .more) :
    s.Adds (send_pieces inf r2t stop s offset data_sn).1 fun k =>
      k.itt = inf.itt ∧ k.store = false ∧ offset ≤ k.index ∧ k.index < stop := by
  fun_induction send_pieces inf r2t stop s offset data_sn with
  | case1 => cases h
  | case2 => cases h
  | case3 s offset data_sn hlt n header s1 s2 hs hspin ih =>
    obtain ⟨-, rfl⟩ := send_some hs
    have hone : s.Adds s1 fun k => k.itt = inf.itt ∧ k.store = false ∧ offset ≤ k.index ∧
        k.index < offset + n :=
      machine.Adds.one rfl fun k => and_congr eq_comm (and_congr eq_comm Iff.rfl)
    refine machine.Adds.trans hone (ih h) fun k => ?_
    have hn : n ≤ stop - offset := Nat.min_le_left _ _
    clear_value n
    constructor
    · rintro (⟨h1, h2, h3, h4⟩ | ⟨h1, h2, h3, h4⟩)
      · exact ⟨h1, h2, h3, by omega⟩
      · exact ⟨h1, h2, by omega, h4⟩
    · rintro ⟨h1, h2, h3, h4⟩
      by_cases hk : k.index < offset + n
      · exact Or.inl ⟨h1, h2, h3, hk⟩
      · exact Or.inr ⟨h1, h2, by omega, h4⟩
  | case4 s offset data_sn hge =>
    exact machine.Adds.nothing rfl fun k => by omega

theorem data_in_adds {s t : Session} {p : Pdu} (hop : opcode p.bhs = DATA_IN) {r : Step}
    (h : s.data_in p = (t, r)) (hr : ∀ e, r ≠ .failed e) :
    s.Adds t (Event.received p).Names := by
  unfold data_in at h
  cases hfind : s.find (be32 p.bhs 16) with
  | none =>
    rw [hfind] at h
    cases h
    exact absurd rfl (hr _)
  | some found =>
    obtain ⟨idx, inf⟩ := found
    obtain ⟨-, hitt, -⟩ := find_mem hfind
    rw [hfind] at h
    dsimp only at h
    generalize hobs :
      (if (byte p.bhs 1 &&& 0x01 != 0) = true then s.observe (sequence p.bhs) else s) = s1 at h
    have hs1 : s1.touched = s.touched := by
      rw [← hobs]
      split <;> rfl
    split at h
    · cases h
      exact absurd rfl (hr _)
    split at h
    · cases h
      exact absurd rfl (hr _)
    · have hcov : ∀ k, (Touch.mk inf.itt inf.tag (be32 p.bhs 40).toNat p.data.length true).Covers k ↔
          (Event.received p).Names k := by
        intro k
        simp only [Touch.Covers, Event.Names, hop, hitt]
        constructor
        · rintro ⟨h1, h2, h3, h4⟩
          exact ⟨h1, h3, Or.inl ⟨trivial, h2.symm, h4⟩⟩
        · rintro ⟨h1, h3, ⟨-, h2, h4⟩ | ⟨hne, -, -⟩⟩
          · exact ⟨h1, h2.symm, h3, h4⟩
          · exact absurd hne (by decide)
      split at h
      · split at h
        · cases h
          exact machine.Adds.one (by simp only [hs1]) hcov
        · cases h
          exact machine.Adds.one (by simp only [hs1]) hcov
      · cases h
        exact machine.Adds.one (by simp only [hs1]) hcov

theorem send_pieces_ne_done {inf : Inflight} {r2t : R2t} {stop : Nat} (s : Session)
    (offset : Nat) (data_sn : UInt32) (d : Done) :
    (send_pieces inf r2t stop s offset data_sn).2 ≠ .done d := by
  fun_induction send_pieces inf r2t stop s offset data_sn with
  | case1 => rintro ⟨⟩
  | case2 => rintro ⟨⟩
  | case3 s offset data_sn hlt n header s1 s2 hs hspin ih => exact ih
  | case4 => rintro ⟨⟩

theorem ready_to_transfer_ne_done (s : Session) (p : Pdu) (d : Done) :
    (s.ready_to_transfer p).2 ≠ .done d := by
  unfold ready_to_transfer
  split
  · exact nofun
  dsimp only
  split
  · unfold send_write
    dsimp only
    split
    · exact nofun
    · exact send_pieces_ne_done _ _ _ _
  · exact nofun

theorem ready_to_transfer_adds {s t : Session} {p : Pdu} (hop : opcode p.bhs = R2T) {r : Step}
    (h : s.ready_to_transfer p = (t, r)) (hr : r = .more) :
    s.Adds t (Event.received p).Names := by
  subst hr
  unfold ready_to_transfer at h
  cases hfind : s.find (be32 p.bhs 16) with
  | none =>
    rw [hfind] at h
    cases h
  | some found =>
    obtain ⟨idx, inf⟩ := found
    obtain ⟨-, hitt, -⟩ := find_mem hfind
    rw [hfind] at h
    dsimp only at h
    split at h
    · unfold send_write at h
      dsimp only at h
      split at h
      · cases h
      · obtain ⟨rfl, hmore⟩ := Prod.mk.inj h.symm
        refine machine.Adds.congr (send_pieces_adds _ _ _ hmore.symm) fun k => ?_
        simp only [Event.Names, hop, hitt, decode_r2t]
        constructor
        · rintro ⟨h1, h2, h3, h4⟩
          exact ⟨h1.symm, h3, Or.inr ⟨trivial, h2, h4⟩⟩
        · rintro ⟨h1, h3, ⟨hne, -, -⟩ | ⟨-, h2, h4⟩⟩
          · exact absurd hne (by decide)
          · exact ⟨h1.symm, h2, h3, h4⟩
    · cases h

theorem scsi_response_touched (s : Session) (p : Pdu) :
    (s.scsi_response p).1.touched = s.touched := by
  unfold scsi_response
  split
  · rfl
  split
  · rfl
  dsimp only
  split
  · rfl
  split <;> rfl

/-- A PDU after which the session goes on adds what it names. -/
theorem handle_adds {s t : Session} {p : Pdu} {r : Step} (h : s.handle p = (t, r))
    (hr : r = .more ∨ ∃ d, r = .done d) : s.Adds t (Event.received p).Names := by
  have hfail : ∀ e, r ≠ .failed e := by
    rintro e rfl
    simp at hr
  have hnone : opcode p.bhs ≠ DATA_IN → opcode p.bhs ≠ R2T → ∀ k, ¬ (Event.received p).Names k := by
    rintro h1 h2 k ⟨-, -, ⟨hop, -, -⟩ | ⟨hop, -, -⟩⟩
    · exact h1 hop
    · exact h2 hop
  unfold handle at h
  split at h
  · rename_i hop
    exact data_in_adds hop h hfail
  rename_i hdata
  split at h
  · rename_i hop
    have htouched := scsi_response_touched s p
    rw [h] at htouched
    exact machine.Adds.nothing htouched (hnone hdata (by rw [hop]; decide))
  split at h
  · rename_i hop
    refine ready_to_transfer_adds hop h ?_
    rcases hr with hr | ⟨d, rfl⟩
    · exact hr
    · exact absurd (congrArg Prod.snd h) (ready_to_transfer_ne_done s p d)
  rename_i hr2t
  split at h
  · have htouched := answer_nop_touched s p
    rw [h] at htouched
    exact machine.Adds.nothing htouched (hnone hdata hr2t)
  split at h
  · exfalso
    unfold reject at h
    dsimp only at h
    split at h
    · cases h
      simp at hr
    · cases h
      exact hfail _ rfl
  · cases h
    exact absurd rfl (hfail _)

/-- The entry of one command, at two times. -/
def Same (x y : Inflight) : Prop :=
  x.itt = y.itt ∧ x.tag = y.tag ∧ x.len = y.len ∧ x.write = y.write

/-- Every command in flight was in flight. -/
def Keeps (s t : Session) : Prop := ∀ x ∈ t.inflight, ∃ y ∈ s.inflight, Same x y

theorem Keeps.of_subset {s t : Session} (h : ∀ x ∈ t.inflight, x ∈ s.inflight) : s.Keeps t :=
  fun x hx => ⟨x, h x hx, rfl, rfl, rfl, rfl⟩

theorem Keeps.of_eq {s t : Session} (h : t.inflight = s.inflight) : s.Keeps t :=
  Keeps.of_subset fun _ hx => h ▸ hx

theorem Keeps.of_set {s t : Session} {idx : Nat} {x y : Inflight} (hy : y ∈ s.inflight)
    (hsame : Same x y) (h : t.inflight = s.inflight.set idx x) : s.Keeps t := by
  intro z hz
  rw [h] at hz
  rcases List.mem_or_eq_of_mem_set hz with hz | rfl
  · exact ⟨z, hz, rfl, rfl, rfl, rfl⟩
  · exact ⟨y, hy, hsame⟩

theorem data_in_keeps (s : Session) (p : Pdu) : s.Keeps (s.data_in p).1 := by
  unfold data_in
  cases hfind : s.find (be32 p.bhs 16) with
  | none => exact Keeps.of_eq rfl
  | some found =>
    obtain ⟨idx, inf⟩ := found
    obtain ⟨hmem, -, -⟩ := find_mem hfind
    dsimp only
    generalize hobs :
      (if (byte p.bhs 1 &&& 0x01 != 0) = true then s.observe (sequence p.bhs) else s) = s1
    have hs1 : s1.inflight = s.inflight := by
      rw [← hobs]
      split <;> rfl
    have hset : ∀ status : Option UInt8, Same { inf with
        received := inf.received + p.data.length, status } inf := fun _ => ⟨rfl, rfl, rfl, rfl⟩
    split
    · exact Keeps.of_eq hs1
    split
    · exact Keeps.of_eq hs1
    split
    · split
      · refine Keeps.of_subset fun x hx => ?_
        dsimp only at hx
        rw [hs1] at hx
        exact vec.mem_of_swapRemove hx
      · refine Keeps.of_set hmem ?_ (by rw [← hs1])
        split <;> exact hset _
    · refine Keeps.of_set hmem ?_ (by rw [← hs1])
      split <;> exact hset _

theorem send_pieces_inflight {inf : Inflight} {r2t : R2t} {stop : Nat} (s : Session)
    (offset : Nat) (data_sn : UInt32) :
    (send_pieces inf r2t stop s offset data_sn).1.inflight = s.inflight := by
  fun_induction send_pieces inf r2t stop s offset data_sn with
  | case1 => rfl
  | case2 s offset data_sn hlt n header s1 s2 hs hspin =>
    obtain ⟨-, rfl⟩ := send_some hs
    rfl
  | case3 s offset data_sn hlt n header s1 s2 hs hspin ih =>
    obtain ⟨-, rfl⟩ := send_some hs
    exact ih
  | case4 => rfl

theorem handle_keeps (s : Session) (p : Pdu) : s.Keeps (s.handle p).1 := by
  unfold handle
  split
  · exact data_in_keeps s p
  split
  · unfold scsi_response
    split
    · exact Keeps.of_eq rfl
    split
    · exact Keeps.of_eq rfl
    have hremove : ∀ idx, ∀ x ∈ vec.swapRemove s.inflight idx, x ∈ s.inflight :=
      fun _ _ => vec.mem_of_swapRemove
    dsimp only
    split
    · exact Keeps.of_subset (hremove _)
    split
    · exact Keeps.of_subset (hremove _)
    · exact Keeps.of_subset (hremove _)
  split
  · unfold ready_to_transfer
    split
    · exact Keeps.of_eq rfl
    dsimp only
    split
    · unfold send_write
      dsimp only
      split
      · exact Keeps.of_eq rfl
      · exact Keeps.of_eq (send_pieces_inflight _ _ _)
    · exact Keeps.of_eq rfl
  split
  · unfold answer_nop
    dsimp only
    split
    · exact Keeps.of_eq rfl
    split
    · exact Keeps.of_eq rfl
    · rename_i t ht
      obtain ⟨-, rfl⟩ := send_some ht
      exact Keeps.of_eq rfl
  split
  · unfold reject
    dsimp only
    split
    · exact Keeps.of_eq rfl
    · exact Keeps.of_subset fun x hx => List.mem_of_mem_filter hx
  · exact Keeps.of_eq rfl

/-- A completion is of the command in flight that the PDU names. -/
theorem handle_done {s : Session} {p : Pdu} {d : Done} (h : (s.handle p).2 = .done d) :
    ∃ inf ∈ s.inflight, inf.itt = be32 p.bhs 16 ∧ d.tag = inf.tag := by
  unfold handle at h
  split at h
  · unfold data_in at h
    cases hfind : s.find (be32 p.bhs 16) with
    | none =>
      rw [hfind] at h
      cases h
    | some found =>
      obtain ⟨idx, inf⟩ := found
      obtain ⟨hmem, hitt, -⟩ := find_mem hfind
      refine ⟨inf, hmem, hitt, ?_⟩
      rw [hfind] at h
      dsimp only at h
      split at h
      · cases h
      split at h
      · cases h
      split at h
      · split at h
        · cases h
          dsimp only
          split <;> rfl
        · cases h
      · cases h
  split at h
  · unfold scsi_response at h
    cases hfind : s.find (be32 p.bhs 16) with
    | none =>
      rw [hfind] at h
      cases h
    | some found =>
      obtain ⟨idx, inf⟩ := found
      obtain ⟨hmem, hitt, -⟩ := find_mem hfind
      refine ⟨inf, hmem, hitt, ?_⟩
      obtain ⟨inf', hcopy, htag⟩ := copy_sense_isSome inf p.data
      rw [hfind] at h
      dsimp only at h
      rw [hcopy] at h
      dsimp only at h
      split at h
      · cases h
      split at h
      · cases h
      · cases h
        exact htag
  split at h
  · exact absurd h (ready_to_transfer_ne_done s p d)
  split at h
  · unfold answer_nop at h
    dsimp only at h
    split at h
    · cases h
    split at h <;> cases h
  split at h
  · unfold reject at h
    dsimp only at h
    split at h <;> cases h
  · cases h

theorem step_received {s t : Session} {p : Pdu} (h : s.step (.received p) = some t) :
    ∃ r, s.handle p = (t, r) ∧ (r = .more ∨ ∃ d, r = .done d) := by
  simp only [step] at h
  split at h
  · rename_i u hu
    obtain rfl := Option.some.inj h
    exact ⟨_, hu, Or.inl rfl⟩
  · rename_i u d hu
    obtain rfl := Option.some.inj h
    exact ⟨_, hu, Or.inr ⟨d, rfl⟩⟩
  · cases h
  · cases h
  · cases h

theorem step_adds {s t : Session} {e : Event} (h : s.step e = some t) : s.Adds t e.Names := by
  cases e with
  | received p =>
    obtain ⟨r, hr, hok⟩ := step_received h
    exact handle_adds hr hok
  | submitted inf =>
    simp only [step] at h
    split at h
    · cases h
    · obtain rfl := Option.some.inj h
      exact machine.Adds.nothing rfl fun _ => id

/-- Every command in flight under the task tag is the one that was submitted. -/
def Carries (inf : Inflight) (t : Session) : Prop :=
  ∀ x ∈ t.inflight, x.itt = inf.itt → Same x inf

theorem Carries.submitted {s t : Session} {inf : Inflight} (h : s.step (.submitted inf) = some t) :
    Carries inf t := by
  simp only [Session.step] at h
  split at h
  · cases h
  · rename_i hnone
    obtain rfl := Option.some.inj h
    intro x hx hitt
    rcases List.mem_append.mp hx with hx | hx
    · exact absurd (List.any_eq_true.mpr ⟨x, hx, by simp [hitt]⟩) hnone
    · obtain rfl := List.mem_singleton.mp hx
      exact ⟨rfl, rfl, rfl, rfl⟩

theorem Carries.step {s t : Session} {inf : Inflight} {e : Event} (h : Carries inf s)
    (he : Event.Spares inf.itt e) (hs : s.step e = some t) : Carries inf t := by
  cases e with
  | received p =>
    obtain ⟨r, hr, -⟩ := step_received hs
    have hkeeps := handle_keeps s p
    rw [hr] at hkeeps
    intro x hx hitt
    obtain ⟨y, hy, hxy⟩ := hkeeps x hx
    obtain ⟨h1, h2, h3, h4⟩ := h y hy (hxy.1.symm.trans hitt)
    exact ⟨hxy.1.trans h1, hxy.2.1.trans h2, hxy.2.2.1.trans h3, hxy.2.2.2.trans h4⟩
  | submitted other =>
    simp only [Session.step] at hs
    split at hs
    · cases hs
    · obtain rfl := Option.some.inj hs
      intro x hx hitt
      rcases List.mem_append.mp hx with hx | hx
      · exact h x hx hitt
      · obtain rfl := List.mem_singleton.mp hx
        exact absurd hitt he

theorem Carries.run {s t : Session} {inf : Inflight} {es : List Event}
    (hrun : machine.run Session.step s es = some t) (h : Carries inf s)
    (hes : ∀ e ∈ es, Event.Spares inf.itt e) : Carries inf t := by
  induction es generalizing s with
  | nil =>
    cases hrun
    exact h
  | cons e es ih =>
    obtain ⟨u, hu, hrest⟩ := machine.run_cons_some _ hrun
    exact ih hrest (h.step (hes e List.mem_cons_self) hu)
      fun e' he' => hes e' (List.mem_cons_of_mem _ he')

/-- Every byte of the command's buffer was stored for a read, or sent for a
write, between two states. -/
def MovedAll (s t : Session) (inf : Inflight) : Prop :=
  ∀ i < inf.len, ∃ x ∈ t.touched.drop s.touched.length, x.Covers ⟨inf.itt, !inf.write, i⟩

/-- Every byte of the command's buffer is named by a data PDU. -/
def NamedAll (es : List Event) (inf : Inflight) : Prop :=
  ∀ i < inf.len, ∃ e ∈ es, e.Names ⟨inf.itt, !inf.write, i⟩

/-- What a command has moved when a PDU finishes it. -/
theorem finished_moved_iff_named {s t u : Session} {inf : Inflight} {es : List Event} {p : Pdu}
    {d : Done} (hrun : machine.run Session.step s (.submitted inf :: es) = some t)
    (hes : ∀ e ∈ es, Event.Spares inf.itt e) (hdone : t.handle p = (u, .done d))
    (hitt : be32 p.bhs 16 = inf.itt) :
    d.tag = inf.tag ∧ (MovedAll s u inf ↔ NamedAll (es ++ [.received p]) inf) := by
  constructor
  · obtain ⟨v, hv, hrest⟩ := machine.run_cons_some _ hrun
    have hcarries := (Carries.submitted hv).run hrest hes
    obtain ⟨x, hx, hxitt, htag⟩ := handle_done (congrArg Prod.snd hdone)
    exact htag.trans (hcarries x hx (hxitt.trans hitt)).2.1
  · have hfull : machine.run Session.step s (.submitted inf :: (es ++ [.received p])) = some u := by
      rw [← List.cons_append, machine.run_append, hrun]
      simp only [Option.bind_some, machine.run_cons, machine.run_nil]
      simp [Session.step, hdone]
    obtain ⟨new, hlog, hcov⟩ := machine.run_adds (P := fun _ => True)
      (fun s e t _ h => ⟨trivial, step_adds h⟩) hfull trivial
    have hdrop : u.touched.drop s.touched.length = new := by
      rw [hlog, List.drop_left]
    unfold MovedAll NamedAll
    rw [hdrop]
    constructor
    · intro h i hi
      obtain ⟨e, he, hn⟩ := (hcov _).mp (h i hi)
      rcases List.mem_cons.mp he with rfl | he
      · cases hn
      · exact ⟨e, he, hn⟩
    · intro h i hi
      obtain ⟨e, he, hn⟩ := h i hi
      exact (hcov _).mpr ⟨e, List.mem_cons_of_mem _ he, hn⟩

end Session

end iscsi

/-! ## NVMe/TCP -/

namespace nvme

/-- What the controller sends and what the pool submits, in the order a session
meets them. -/
inductive Event where
  | received (p : Pdu)
  | submitted (tag : Nat) (io : Io) (len : Nat)

/-- A byte of a command's buffer, and whether it is stored or loaded. -/
structure Place where
  cid : Nat
  store : Bool
  index : Nat

def Touch.Covers (t : Touch) (k : Place) : Prop :=
  t.cid = k.cid ∧ t.store = k.store ∧ t.offset ≤ k.index ∧ k.index < t.offset + t.len

/-- The bytes an event names: the data of a C2HData, what an R2T asks for, and
the data of a write that fits the capsule. -/
def Event.Names (inline_limit : Nat) : Event → Place → Prop
  | .received p, k =>
    (∃ c2h, parse_c2h p = some c2h ∧ c2h.cccid.toNat = k.cid ∧ k.store = true ∧
      c2h.datao.toNat ≤ k.index ∧ k.index < c2h.datao.toNat + c2h.datal.toNat) ∨
    ∃ r2t, parse_r2t p = some r2t ∧ r2t.cccid.toNat = k.cid ∧ k.store = false ∧
      r2t.r2to.toNat ≤ k.index ∧ k.index < r2t.r2to.toNat + r2t.r2tl.toNat
  | .submitted tag io len, k =>
    io.write = true ∧ len ≤ inline_limit ∧ tag = k.cid ∧ k.store = false ∧ k.index < len

/-- An event that submits no other command under the tag. -/
def Event.Spares (tag : Nat) : Event → Prop
  | .received _ => True
  | .submitted other _ _ => other ≠ tag

namespace Session

/-- The session after an event, while it is not taken down. -/
def step (s : Session) : Event → Option Session
  | .received p =>
    match s.handle_pdu p with
    | (t, .more) => some t
    | (t, .done _) => some t
    | (_, .failed _) => none
    | (_, .panic) => none
  | .submitted tag io len => (s.submit true tag io len).toOption

/-- What the accesses gain between two states. -/
def Adds (s t : Session) (P : Place → Prop) : Prop :=
  machine.Adds Touch.Covers s.touched t.touched P

theorem send_pieces_adds {cid start len : Nat} (s : Session) (sent : Nat)
    (h : (send_pieces cid start len s sent).2 = .more) :
    s.Adds (send_pieces cid start len s sent).1 fun k =>
      k.cid = cid ∧ k.store = false ∧ start + sent ≤ k.index ∧ k.index < start + len := by
  fun_induction send_pieces cid start len s sent with
  | case1 => cases h
  | case2 s sent hlt n s1 s2 hs ih =>
    obtain rfl := send_some hs
    have hone : s.Adds s1 fun k => k.cid = cid ∧ k.store = false ∧ start + sent ≤ k.index ∧
        k.index < start + sent + n :=
      machine.Adds.one rfl fun k => and_congr eq_comm (and_congr eq_comm Iff.rfl)
    refine machine.Adds.trans hone (ih h) fun k => ?_
    have hn : n ≤ len - sent := Nat.min_le_left _ _
    clear_value n
    constructor
    · rintro (⟨h1, h2, h3, h4⟩ | ⟨h1, h2, h3, h4⟩)
      · exact ⟨h1, h2, h3, by omega⟩
      · exact ⟨h1, h2, by omega, h4⟩
    · rintro ⟨h1, h2, h3, h4⟩
      by_cases hk : k.index < start + sent + n
      · exact Or.inl ⟨h1, h2, h3, hk⟩
      · exact Or.inr ⟨h1, h2, by omega, h4⟩
  | case3 s sent hge => exact machine.Adds.nothing rfl fun k => by omega

theorem parse_r2t_kind {p : Pdu} {r2t : R2t} (h : parse_r2t p = some r2t) : p.kind = R2T := by
  unfold parse_r2t at h
  split at h
  · cases h
  · rename_i hkind
    push Not at hkind
    exact hkind.1

theorem c2h_data_adds {s t : Session} {p : Pdu} {r : Step} {inline_limit : Nat}
    (hkind : p.kind = C2H_DATA) (h : s.c2h_data p = (t, r)) (hr : r = .more ∨ ∃ d, r = .done d) :
    s.Adds t (Event.Names inline_limit (.received p)) := by
  unfold c2h_data at h
  cases hp : parse_c2h p with
  | none =>
    rw [hp] at h
    cases h
    simp at hr
  | some c2h =>
    rw [hp] at h
    dsimp only at h
    split at h
    · cases h
      simp at hr
    split at h
    · cases h
      simp at hr
    split at h
    · cases h
      simp at hr
    · have hcov : ∀ k, (Touch.mk c2h.cccid.toNat c2h.datao.toNat
          (c2h.datao.toNat + c2h.datal.toNat - c2h.datao.toNat) true).Covers k ↔
          Event.Names inline_limit (.received p) k := by
        intro k
        dsimp only [Touch.Covers, Event.Names]
        constructor
        · rintro ⟨h1, h2, h3, h4⟩
          exact Or.inl ⟨c2h, hp, h1, h2.symm, h3, by omega⟩
        · rintro (⟨c, hc, h1, h2, h3, h4⟩ | ⟨r2t, hr2t, -⟩)
          · obtain rfl := Option.some.inj (hp.symm.trans hc)
            exact ⟨h1, h2.symm, h3, by omega⟩
          · exact absurd (hkind.symm.trans (parse_r2t_kind hr2t)) (by decide)
      split at h
      · cases h
        exact machine.Adds.one rfl hcov
      · cases h
        exact machine.Adds.one rfl hcov

theorem ready_to_transfer_adds {s t : Session} {p : Pdu} {inline_limit : Nat}
    (hkind : p.kind = R2T) (h : s.ready_to_transfer p = (t, .more)) :
    s.Adds t (Event.Names inline_limit (.received p)) := by
  unfold ready_to_transfer at h
  cases hp : parse_r2t p with
  | none =>
    rw [hp] at h
    cases h
  | some r2t =>
    rw [hp] at h
    dsimp only at h
    split at h
    · cases h
    split at h
    · unfold send_h2c at h
      dsimp only at h
      split at h
      · cases h
      · obtain ⟨rfl, hmore⟩ := Prod.mk.inj h.symm
        refine machine.Adds.congr (send_pieces_adds _ _ hmore.symm) fun k => ?_
        dsimp only [Event.Names]
        constructor
        · rintro ⟨h1, h2, h3, h4⟩
          exact Or.inr ⟨r2t, hp, h1.symm, h2, by omega, by omega⟩
        · rintro (⟨c, hc, -⟩ | ⟨r, hr, h1, h2, h3, h4⟩)
          · exact absurd (hkind.symm.trans (parse_c2h_kind hc)) (by decide)
          · obtain rfl := Option.some.inj (hp.symm.trans hr)
            exact ⟨h1.symm, h2, by omega, by omega⟩
    · cases h

theorem ready_to_transfer_ne_done (s : Session) (p : Pdu) (d : Done) :
    (s.ready_to_transfer p).2 ≠ .done d := by
  unfold ready_to_transfer
  split
  · exact nofun
  split
  · exact nofun
  split
  · unfold send_h2c
    dsimp only
    split
    · exact nofun
    · rcases (send_pieces_outcome _ _ _ s 0).1 with h | h <;> rw [h] <;> exact nofun
  · exact nofun

theorem capsule_resp_touched (s : Session) (p : Pdu) :
    (s.capsule_resp p).1.touched = s.touched := by
  unfold capsule_resp
  split <;> rfl

theorem handle_pdu_adds {s t : Session} {p : Pdu} {r : Step} {inline_limit : Nat}
    (h : s.handle_pdu p = (t, r)) (hr : r = .more ∨ ∃ d, r = .done d) :
    s.Adds t (Event.Names inline_limit (.received p)) := by
  have hnone : p.kind ≠ C2H_DATA → p.kind ≠ R2T →
      ∀ k, ¬ Event.Names inline_limit (.received p) k := by
    rintro h1 h2 k (⟨c, hc, -⟩ | ⟨r, hr, -⟩)
    · exact h1 (parse_c2h_kind hc)
    · exact h2 (parse_r2t_kind hr)
  unfold handle_pdu at h
  split at h
  · rename_i hkind
    exact c2h_data_adds hkind h hr
  rename_i hc2h
  split at h
  · rename_i hkind
    rcases hr with rfl | ⟨d, rfl⟩
    · exact ready_to_transfer_adds hkind h
    · exact absurd (congrArg Prod.snd h) (ready_to_transfer_ne_done s p d)
  rename_i hr2t
  split at h
  · have htouched := capsule_resp_touched s p
    rw [h] at htouched
    exact machine.Adds.nothing htouched (hnone hc2h hr2t)
  split at h
  · cases h
    exact machine.Adds.nothing rfl (hnone hc2h hr2t)
  · cases h
    simp at hr

theorem step_received {s t : Session} {p : Pdu} (h : s.step (.received p) = some t) :
    ∃ r, s.handle_pdu p = (t, r) ∧ (r = .more ∨ ∃ d, r = .done d) := by
  simp only [step] at h
  split at h
  · rename_i u hu
    obtain rfl := Option.some.inj h
    exact ⟨_, hu, Or.inl rfl⟩
  · rename_i u d hu
    obtain rfl := Option.some.inj h
    exact ⟨_, hu, Or.inr ⟨d, rfl⟩⟩
  · cases h
  · cases h

theorem step_submitted {s t : Session} {tag : Nat} {io : Io} {len : Nat}
    (h : s.step (.submitted tag io len) = some t) : s.submit true tag io len = .ok t := by
  simp only [step] at h
  cases hs : s.submit true tag io len with
  | error e =>
    rw [hs] at h
    cases h
  | ok u =>
    rw [hs] at h
    cases h
    rfl

theorem step_adds {s t : Session} {e : Event} {inline_limit : Nat}
    (hlimit : s.inline_limit = inline_limit) (h : s.step e = some t) :
    t.inline_limit = inline_limit ∧ s.Adds t (e.Names inline_limit) := by
  cases e with
  | received p =>
    obtain ⟨r, hr, hok⟩ := step_received h
    have hkeep := (handle_pdu_limits s p).1
    rw [hr] at hkeep
    exact ⟨hkeep.trans hlimit, handle_pdu_adds hr hok⟩
  | submitted tag io len =>
    obtain ⟨-, hkeep, -, -, -, htouched⟩ := submit.spec (step_submitted h)
    refine ⟨hkeep.trans hlimit, ?_⟩
    rw [hlimit] at htouched
    by_cases hin : io.write = true ∧ len ≤ inline_limit
    · rw [if_pos hin] at htouched
      refine machine.Adds.one htouched fun k => ?_
      dsimp only [Touch.Covers, Event.Names]
      constructor
      · rintro ⟨h1, h2, h3, h4⟩
        exact ⟨hin.1, hin.2, h1, h2.symm, by omega⟩
      · rintro ⟨-, -, h1, h2, h3⟩
        exact ⟨h1, h2.symm, by omega, by omega⟩
    · rw [if_neg hin, List.append_nil] at htouched
      exact machine.Adds.nothing htouched fun k hk => hin ⟨hk.1, hk.2.1⟩

/-- A command that is in flight after a PDU was in flight before it. -/
theorem handle_pdu_find {s t : Session} {p : Pdu} {r : Step} (h : s.handle_pdu p = (t, r))
    (hr : r = .more ∨ ∃ d, r = .done d) {cid : Nat} {pending : Pending}
    (hfind : t.find cid = some pending) : s.find cid = some pending := by
  rcases handle_pdu_outcome s p with ⟨hout, -⟩ | ⟨⟨e, hout⟩, -⟩ | ⟨-, -, hpending, -⟩ |
    ⟨u, c, cqe, hout, hpending, -⟩
  · rw [h] at hout
    obtain rfl : r = .panic := hout
    simp at hr
  · rw [h] at hout
    obtain rfl : r = .failed e := hout
    simp at hr
  · rw [h] at hpending
    unfold find at hfind ⊢
    rwa [← hpending]
  · rw [hout] at h
    cases h
    unfold find at hfind ⊢
    dsimp only at hfind
    rw [hpending, List.getElem?_set] at hfind
    split at hfind
    · split at hfind <;> cases hfind
    · exact hfind

/-- If a command is in flight under the tag, it is the one that was submitted. -/
def Carries (tag : Nat) (io : Io) (len : Nat) (t : Session) : Prop :=
  ∀ pending, t.find tag = some pending → pending = ⟨len, io.write⟩

theorem Carries.submitted {s t : Session} {tag : Nat} {io : Io} {len : Nat}
    (h : s.step (.submitted tag io len) = some t) : Carries tag io len t := by
  obtain ⟨-, -, -, -, hpending, -⟩ := submit.spec (step_submitted h)
  intro pending hfind
  unfold find at hfind
  rw [hpending, List.getElem?_set_self (table_length s tag)] at hfind
  exact (Option.some.inj hfind).symm

theorem Carries.step {s t : Session} {tag : Nat} {io : Io} {len : Nat} {e : Event}
    (h : Carries tag io len s) (he : Event.Spares tag e) (hs : s.step e = some t) :
    Carries tag io len t := by
  cases e with
  | received p =>
    obtain ⟨r, hr, hok⟩ := step_received hs
    exact fun pending hfind => h pending (handle_pdu_find hr hok hfind)
  | submitted other io' len' =>
    obtain ⟨-, -, -, -, hpending, -⟩ := submit.spec (step_submitted hs)
    intro pending hfind
    unfold find at hfind
    rw [hpending, List.getElem?_set_ne he, table_find] at hfind
    exact h pending hfind

theorem Carries.run {s t : Session} {tag : Nat} {io : Io} {len : Nat} {es : List Event}
    (hrun : machine.run Session.step s es = some t) (h : Carries tag io len s)
    (hes : ∀ e ∈ es, Event.Spares tag e) : Carries tag io len t := by
  induction es generalizing s with
  | nil =>
    cases hrun
    exact h
  | cons e es ih =>
    obtain ⟨u, hu, hrest⟩ := machine.run_cons_some _ hrun
    exact ih hrest (h.step (hes e List.mem_cons_self) hu)
      fun e' he' => hes e' (List.mem_cons_of_mem _ he')

/-- Every byte of the command's buffer was stored for a read, or sent for a
write, between two states. -/
def MovedAll (s t : Session) (tag : Nat) (io : Io) (len : Nat) : Prop :=
  ∀ i < len, ∃ x ∈ t.touched.drop s.touched.length, x.Covers ⟨tag, !io.write, i⟩

/-- Every byte of the command's buffer is named by an event. -/
def NamedAll (inline_limit : Nat) (es : List Event) (tag : Nat) (io : Io) (len : Nat) : Prop :=
  ∀ i < len, ∃ e ∈ es, e.Names inline_limit ⟨tag, !io.write, i⟩

/-- What a command has moved when a PDU finishes it. -/
theorem finished_moved_iff_named {s t u : Session} {tag : Nat} {io : Io} {len : Nat}
    {es : List Event} {p : Pdu} {d : Done} {pending : Pending}
    (hrun : machine.run Session.step s (.submitted tag io len :: es) = some t)
    (hes : ∀ e ∈ es, Event.Spares tag e) (hdone : t.handle_pdu p = (u, .done d))
    (hfind : t.find tag = some pending) :
    pending = ⟨len, io.write⟩ ∧ (MovedAll s u tag io len ↔
      NamedAll s.inline_limit (.submitted tag io len :: es ++ [.received p]) tag io len) := by
  constructor
  · obtain ⟨v, hv, hrest⟩ := machine.run_cons_some _ hrun
    exact (Carries.submitted hv).run hrest hes pending hfind
  · have hfull :
        machine.run Session.step s (.submitted tag io len :: es ++ [.received p]) = some u := by
      rw [machine.run_append, hrun]
      simp only [Option.bind_some, machine.run_cons, machine.run_nil]
      simp [Session.step, hdone]
    obtain ⟨new, hlog, hcov⟩ :=
      machine.run_adds (P := fun v => Session.inline_limit v = s.inline_limit)
        (fun _ _ _ hlimit h => step_adds hlimit h) hfull rfl
    have hdrop : u.touched.drop s.touched.length = new := by
      rw [hlog, List.drop_left]
    unfold MovedAll NamedAll
    rw [hdrop]
    exact forall₂_congr fun i _ => hcov _

end Session

end nvme

/-! ## Complete transfers -/

/-- A command that ends with status 0 moved every byte of its buffer exactly when
the target named every byte: a read by its Data-In or C2HData, a write by its
R2Ts (or all of it went in the capsule). Neither session looks whether it did. -/
theorem a_command_ends_complete_iff_the_target_names_every_byte (d : Done) :
    (∀ (s t u : iscsi.Session) (inf : iscsi.Inflight) (es : List iscsi.Event) (p : iscsi.Pdu),
      machine.run iscsi.Session.step s (.submitted inf :: es) = some t →
      (∀ e ∈ es, iscsi.Event.Spares inf.itt e) → t.handle p = (u, .done d) →
      iscsi.be32 p.bhs 16 = inf.itt →
      d.tag = inf.tag ∧ ((d.status = 0 → iscsi.Session.MovedAll s u inf) ↔
        (d.status = 0 → iscsi.Session.NamedAll (es ++ [.received p]) inf))) ∧
    ∀ (s t u : nvme.Session) (tag : Nat) (io : Io) (len : Nat) (es : List nvme.Event)
      (p : nvme.Pdu) (pending : nvme.Pending),
      machine.run nvme.Session.step s (.submitted tag io len :: es) = some t →
      (∀ e ∈ es, nvme.Event.Spares tag e) → t.handle_pdu p = (u, .done d) →
      d.tag = tag → t.find tag = some pending →
      pending = ⟨len, io.write⟩ ∧ ((d.status = 0 → nvme.Session.MovedAll s u tag io len) ↔
        (d.status = 0 → nvme.Session.NamedAll s.inline_limit
          (.submitted tag io len :: es ++ [.received p]) tag io len)) := by
  constructor
  · intro s t u inf es p hrun hes hdone hitt
    obtain ⟨htag, hiff⟩ := iscsi.Session.finished_moved_iff_named hrun hes hdone hitt
    exact ⟨htag, imp_congr Iff.rfl hiff⟩
  · intro s t u tag io len es p pending hrun hes hdone _ hfind
    obtain ⟨hpending, hiff⟩ := nvme.Session.finished_moved_iff_named hrun hes hdone hfind
    exact ⟨hpending, imp_congr Iff.rfl hiff⟩

/-- A read of four bytes that one Data-In carries with its status, and a write of
four bytes in its capsule. -/
theorem four_bytes_are_moved :
    (∃ (s u : iscsi.Session) (inf : iscsi.Inflight), inf.write = false ∧ inf.len = 4 ∧
      iscsi.Session.MovedAll s u inf) ∧
    ∃ s u : nvme.Session, nvme.Session.MovedAll s u 0 ⟨true, 0, 1⟩ 4 := by
  constructor
  · let s : iscsi.Session := ⟨⟨false, false, 8192⟩, 1, 1, 8, [], 0, none, [], []⟩
    let inf : iscsi.Inflight := ⟨7, 0, 4, 0, false, none, Block.zero 64, 0⟩
    let p : iscsi.Pdu := ⟨((Block.zero 48).put 0 [0x25, 0x81] (by decide)).put 16 [0, 0, 0, 7]
      (by decide), [1, 2, 3, 4]⟩
    let t := s.on (.submitted inf)
    have hdone : ∃ d, t.handle p = ((t.handle p).1, .done d) ∧ d.status = 0 :=
      ⟨⟨0, 0, 0, false, Block.zero 64, 0⟩, Prod.ext rfl (by decide), rfl⟩
    obtain ⟨d, hdone, hstatus⟩ := hdone
    have hrun : machine.run iscsi.Session.step s [.submitted inf] = some t := rfl
    obtain ⟨-, hiff⟩ := (a_command_ends_complete_iff_the_target_names_every_byte d).1 s t _ inf [] p
      hrun (by simp) hdone (by decide)
    refine ⟨s, (t.handle p).1, inf, rfl, rfl, hiff.mpr (fun _ => ?_) hstatus⟩
    intro i hi
    have hitt : iscsi.be32 p.bhs 16 = 7 := by decide
    have hop : iscsi.opcode p.bhs = iscsi.DATA_IN := by decide
    have hoffset : (iscsi.be32 p.bhs 40).toNat = 0 := by decide
    refine ⟨.received p, by simp, hitt, by omega, Or.inl ⟨hop, rfl, ?_⟩⟩
    rw [hoffset, Nat.zero_add]
    exact hi
  · let s : nvme.Session := ⟨[none], 0, 1, 4096, ⟨1, Nat.one_pos⟩, none, []⟩
    let p : nvme.Pdu := ⟨nvme.CAPSULE_RESP, 0, List.replicate 24 0, []⟩
    let t : nvme.Session := ⟨[some ⟨4, true⟩], 1, 1, 4096, ⟨1, Nat.one_pos⟩, none,
      [⟨0, 0, 4, false⟩]⟩
    have hdone : ∃ d, t.handle_pdu p = ((t.handle_pdu p).1, .done d) ∧ d.status = 0 ∧ d.tag = 0 :=
      ⟨⟨0, 0, 0, false, Block.zero 64, 0⟩, Prod.ext rfl (by decide), rfl, rfl⟩
    obtain ⟨d, hdone, hstatus, htag⟩ := hdone
    have hrun : machine.run nvme.Session.step s [.submitted 0 ⟨true, 0, 1⟩ 4] = some t := rfl
    obtain ⟨-, hiff⟩ := (a_command_ends_complete_iff_the_target_names_every_byte d).2 s t _ 0
      ⟨true, 0, 1⟩ 4 [] p ⟨4, true⟩ hrun (by simp) hdone htag rfl
    refine ⟨s, (t.handle_pdu p).1, hiff.mpr (fun _ => ?_) hstatus⟩
    intro i hi
    exact ⟨.submitted 0 ⟨true, 0, 1⟩ 4, by simp, rfl, by decide, rfl, rfl, hi⟩

/-- A read of four bytes that the target ends with status 0 and no data at all. -/
theorem a_read_ends_with_status_0_and_no_data :
    ∃ (s t u : iscsi.Session) (inf : iscsi.Inflight) (p : iscsi.Pdu) (d : Done),
      machine.run iscsi.Session.step s [.submitted inf] = some t ∧
      t.handle p = (u, .done d) ∧ iscsi.be32 p.bhs 16 = inf.itt ∧ d.status = 0 ∧
      inf.write = false ∧ inf.len = 4 ∧ u.touched = [] ∧ ¬ iscsi.Session.MovedAll s u inf := by
  let s : iscsi.Session := ⟨⟨false, false, 8192⟩, 1, 1, 8, [], 0, none, [], []⟩
  let inf : iscsi.Inflight := ⟨7, 0, 4, 0, false, none, Block.zero 64, 0⟩
  let p : iscsi.Pdu := ⟨((Block.zero 48).put 0 [0x21, 0x80] (by decide)).put 16 [0, 0, 0, 7]
    (by decide), []⟩
  let t := s.on (.submitted inf)
  refine ⟨s, t, (t.handle p).1, inf, p, ⟨0, 0, 0, false, Block.zero 64, 0⟩, rfl,
    Prod.ext rfl (by decide), by decide, rfl, rfl, rfl, by decide, fun h => ?_⟩
  obtain ⟨x, hx, -⟩ := h 0 (by decide)
  have hnone : (t.handle p).1.touched = [] := by decide
  rw [hnone] at hx
  simp at hx

end stutools
