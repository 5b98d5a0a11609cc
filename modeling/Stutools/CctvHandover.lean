-- The hand-over of the recordings between the threads: from the allocator to the camera through
-- the slot, and from the camera to the closers through the queue. No recording is lost, given
-- to two threads, or written after it was handed on.
import Mathlib.Data.List.Perm.Basic
import Stutools.CctvRecordings

open Finset

namespace stutools.cctv

/-- One element of a list becomes another. -/
theorem set_perm {α : Type*} {l : List α} {k : Nat} {x : α} (y : α) (h : l[k]? = some x) :
    (l.set k y ++ [x]).Perm (l ++ [y]) := by
  obtain ⟨hk, rfl⟩ := List.getElem?_eq_some_iff.mp h
  have hset := List.set_perm_cons_eraseIdx hk y
  have hold := List.getElem_cons_eraseIdx_perm hk
  refine (List.perm_append_singleton _ _).trans ((hset.cons _).trans ?_)
  refine (List.Perm.swap _ _ _).trans ((hold.cons _).trans ?_)
  exact (List.perm_append_singleton _ _).symm

theorem filterMap_set_perm {α β : Type*} (f : α → Option β) {l : List α} {k : Nat} {x : α} (y : α)
    (h : l[k]? = some x) :
    ((l.set k y).filterMap f ++ (f x).toList).Perm (l.filterMap f ++ (f y).toList) := by
  have hone : ∀ a, [a].filterMap f = (f a).toList := fun a => by
    cases ha : f a <;> simp [ha]
  have hperm := (set_perm y h).filterMap f
  rwa [List.filterMap_append, List.filterMap_append, hone, hone] at hperm

/-- A sum over the elements of the list. -/
theorem sum_set {α : Type*} (f : α → Nat) {l : List α} {k : Nat} {x : α} (y : α) (h : l[k]? = some x) :
    ((l.set k y).map f).sum + f x = (l.map f).sum + f y := by
  have hperm := ((set_perm y h).map f).sum_nat
  simpa using hperm

namespace Allocator

/-- What the allocator does for a camera. -/
def hand {n : Nat} (a : Allocator n) (i : Fin n) : Hand :=
  match a with
  | .preparing j => if j = i then .asked else .idle
  | .recording j | .placing j | .storing j => if j = i then .made else .idle
  | _ => .idle

end Allocator

/-- The recording in the hands of a closer. -/
def Closer.held {n : Nat} : Closer n → Option (Closing n)
  | .finishing cl => some cl
  | _ => none

def Closing.key {n : Nat} (cl : Closing n) : Fin n × Nat := (cl.camera, cl.sequence)

namespace State

variable {c : Setup} {s t : State c.count}

def held {n : Nat} (s : State n) : List (Closing n) := s.closers.filterMap Closer.held

/-- The recordings that wait to be closed: in the queue, and in the hands of the closers. -/
def closings {n : Nat} (s : State n) : List (Closing n) := s.queue ++ s.held

/-- The invariant of the recordings: that of each lane, and each recording that waits to be
closed does so once, and is left alone by its camera. -/
structure Recorded (c : Setup) (s : State c.count) : Prop where
  lanes : ∀ i, (s.lanes i).Good c i (s.allocator.hand i)
  waits : ∀ cl ∈ s.closings, (s.lanes cl.camera).Waits cl.sequence cl.written
  once : (s.closings.map Closing.key).Nodup

end State

namespace Lane

variable {c : Setup} {i : Fin c.count} {hand : Hand} {v : View} {l l' : Lane} {e : Effect c.count}
  {q w : Nat}

/-- A turn leaves the files alone that the camera is through with. -/
theorem Turned.keeps (h : Turned c i v l l' e) (hgood : l.Good c i hand) (hq : q ≤ l.taken)
    (hthrough : l.current ≠ some q) :
    q ≤ l'.taken ∧ l'.current ≠ some q ∧ l'.files q = l.files q := by
  have hnone : (none : Option Nat) ≠ some q := by simp
  cases h with
  | takes p pc hvalue hcurrent hgo hpc =>
    obtain ⟨hp, -⟩ := hgood.slot.value p hvalue
    have hneed : l.need = false := by
      by_contra hne
      have := (hgood.slot.need (by simpa using hne)).2
      simp [hvalue] at this
    have hpos := hgood.slot.asked hneed
    rw [taken_asked hneed] at hq
    have htaken : (l.takes p pc).taken = l.sequence := by simp [Lane.taken, Lane.takes]
    refine ⟨by omega, ?_, rfl⟩
    simp only [Lane.takes, ne_eq, Option.some.injEq]
    omega
  | writes p f io hpc hcurrent hok =>
    have hne : q ≠ p := fun heq => hthrough (heq ▸ hcurrent)
    simp only [Lane.writes, hok, ↓reduceIte]
    exact ⟨hq, hthrough, stores_other l hne⟩
  | write_fails p f io hpc hcurrent hok =>
    have hne : q ≠ p := fun heq => hthrough (heq ▸ hcurrent)
    simp only [Lane.writes, hok, Bool.false_eq_true, ↓reduceIte]
    exact ⟨hq, hnone, stores_other l hne⟩
  | measures p io hpc hcurrent hrecord =>
    unfold Lane.measures
    cases hr : v.record with
    | refused => exact absurd hr hrecord
    | late => exact ⟨hq, hthrough, rfl⟩
    | measured => exact ⟨hq, hthrough, rfl⟩
  | removes p hpc hcurrent hoffset =>
    have hne : q ≠ p := fun heq => hthrough (heq ▸ hcurrent)
    exact ⟨hq, hnone, by simp [Lane.ends, hne]⟩
  | moves pc ready sample hquiet hwrite => exact ⟨hq, hthrough, rfl⟩
  | passes hpc hgo hend => exact ⟨hq, hthrough, rfl⟩
  | gives_up f hpc hkind => exact ⟨hq, hthrough, rfl⟩
  | counts last hpc => exact ⟨hq, hthrough, rfl⟩
  | sends p last hpc hcurrent hcloser => exact ⟨hq, hnone, rfl⟩
  | closes p hpc hcurrent hoffset => exact ⟨hq, hthrough, rfl⟩
  | ends hpc hcurrent => exact ⟨hq, hnone, rfl⟩
  | fails hhand hcurrent hlive => exact ⟨hq, hnone, rfl⟩
  | rotation_fails f w hpc => exact ⟨hq, hnone, rfl⟩

theorem Waits.kept (h : l.Waits q w) (htaken : q ≤ l'.taken) (hcurrent : l'.current ≠ some q)
    (hfiles : l'.files q = l.files q) : l'.Waits q w :=
  ⟨htaken, hcurrent, by rw [hfiles]; exact h.file, h.written⟩

/-- What is sent is the recording that the camera held, as far as it is written. -/
theorem Turned.sent (h : Turned c i v l l' e) (hgood : l.Good c i hand) :
    ∀ cl ∈ e.sends, cl.camera = i ∧ l.current = some cl.sequence ∧ l'.Waits cl.sequence cl.written := by
  intro cl hcl
  cases h with
  | sends p last hpc hcurrent hcloser =>
    simp only [Lane.sends, Option.mem_some_iff] at hcl
    subst hcl
    have hheld := hgood.thread.held
    unfold Held at hheld
    rw [hpc] at hheld
    obtain ⟨hp, hsome, -⟩ := hheld
    have hp := hgood.current_eq hcurrent
    obtain ⟨r, hr, hpending⟩ := hgood.files.current p hcurrent
    have hpos := (hgood.files.numbers p r hr).1
    have hmost := hgood.thread.most
    have hoffset := hgood.thread.offset (by simp [hcurrent])
    rw [hpc] at hoffset
    have hsplit : l.taken * c.per_file = (p - 1) * c.per_file + c.per_file := by
      rw [← Nat.succ_mul, ← hp]
      congr 1
      omega
    have hblocks : l.blocks c p = l.wrote + c.per_file - l.taken * c.per_file := by
      unfold Lane.blocks
      omega
    have hwritten : l.offset = l.blocks c p * c.sizes.block := by
      rw [hblocks, ← hoffset]
      simp [Pc.unmeasured]
    refine ⟨rfl, hcurrent, hp.le, by simp [Lane.sends], ⟨r, hr, ?_⟩, ?_⟩
    · rcases (hgood.files.old p r hp.le hr).stage with hstage | hstage
      · rw [hstage.1, hwritten]
      · simp [hpending] at hstage
    · show 0 < l.offset
      rw [hwritten, hblocks]
      exact Nat.mul_pos (by omega) c.block_pos
  | writes p f io hpc hcurrent hok =>
    simp [Lane.writes, hok] at hcl
  | write_fails p f io hpc hcurrent hok =>
    simp [Lane.writes, hok, Lane.fails, Lane.ends] at hcl
  | measures p io hpc hcurrent hrecord =>
    unfold Lane.measures at hcl
    cases hr : v.record <;> simp [hr, Lane.ends] at hcl
  | _ => simp [Lane.passes] at hcl

end Lane

namespace Lane

/-- The files that the camera took stay as they are. -/
structure Spares (l l' : Lane) : Prop where
  taken : l'.taken = l.taken
  current : l'.current = l.current
  files : ∀ q ≤ l.taken, l'.files q = l.files q

theorem Spares.refl (l : Lane) : Spares l l := ⟨rfl, rfl, fun _ _ => rfl⟩

variable {c : Setup} {i : Fin c.count} {hand : Hand} {l : Lane}

theorem requested_spares (h : l.need = true) : Spares l l.requested := by
  refine ⟨?_, rfl, fun _ _ => rfl⟩
  rw [taken_needed h]
  simp [Lane.taken, Lane.requested]

/-- The next file is none of those that the camera took. -/
theorem next_spares {l' : Lane} (hneed : l.need = false) (hpos : 0 < l.sequence) (htaken : l'.taken = l.taken)
    (hcurrent : l'.current = l.current) (hfiles : ∀ q, q ≠ l.sequence → l'.files q = l.files q) :
    Spares l l' := by
  refine ⟨htaken, hcurrent, fun q hq => hfiles q ?_⟩
  rw [taken_asked hneed] at hq
  omega

theorem Good.discards_spares (h : l.Good c i hand) (hhand : hand ≠ .idle) (removed : Bool) :
    (l.discards l.sequence removed).Good c i .idle ∧ Spares l (l.discards l.sequence removed) := by
  obtain ⟨hneed, hvalue, hpos⟩ := h.slot.busy hhand
  obtain ⟨hneed', hvalue', hsequence⟩ := discards_slot l l.sequence removed
  have hsame := discards_same l l.sequence removed
  have hfiles := discards_files l removed
  refine ⟨h.discards hneed (hvalue'.trans hvalue) hsame (hneed'.trans hneed) hsequence hfiles, ?_⟩
  refine next_spares hneed hpos ?_ hsame.current fun q hq => ?_
  · simp [Lane.taken, hneed', hsequence]
  · obtain hfiles | hfiles := hfiles <;> simp [hfiles, hq]

theorem Good.gives_up_spares (h : l.Good c i .asked) (io : Io) (removed : Bool) :
    Spares l (l.gives_up c i io removed) := by
  obtain ⟨hneed, hvalue, hpos⟩ := h.slot.busy (by simp)
  unfold Lane.gives_up
  split
  · exact .refl l
  · exact next_spares hneed hpos rfl rfl fun q hq => by simp [hq]

theorem Good.dropped_spares (h : l.Good c i hand) (removed : Bool) : Spares l (l.dropped removed) := by
  cases hvalue : l.value with
  | none =>
    refine ⟨?_, ?_, fun q _ => ?_⟩ <;> simp [Lane.dropped, Lane.taken, hvalue]
  | some q =>
    obtain ⟨hq, hidle⟩ := h.slot.value q hvalue
    have hneed : l.need = false := by
      by_contra hne
      have := (h.slot.need (by simpa using hne)).2
      simp [hvalue] at this
    obtain ⟨hneed', -, hsequence⟩ := discards_slot l l.sequence removed
    refine next_spares hneed (h.slot.asked hneed) ?_ ?_ fun p hp => ?_
    · simp [Lane.dropped, hvalue, Lane.taken, hq, hneed', hsequence]
    · exact (dropped_same l removed).current
    · obtain hfiles | hfiles := discards_files l removed <;> simp [Lane.dropped, hvalue, hq, hfiles, hp]

end Lane

namespace State

variable {c : Setup} {s t : State c.count}

/-- The closings of a step in which the lanes keep what is waiting. -/
theorem Recorded.kept (hs : Recorded c s) (hlanes : ∀ i, (t.lanes i).Good c i (t.allocator.hand i))
    (hperm : t.closings.Perm s.closings)
    (hwaits : ∀ cl ∈ s.closings, (t.lanes cl.camera).Waits cl.sequence cl.written) : Recorded c t := by
  refine ⟨hlanes, fun cl hcl => hwaits cl (hperm.mem_iff.mp hcl), ?_⟩
  exact (hperm.map Closing.key).nodup_iff.mpr hs.once

/-- No file that a camera took is touched. -/
def Spared (s t : State c.count) : Prop := ∀ i, (s.lanes i).Spares (t.lanes i)

theorem Recorded.spared (hs : Recorded c s) (hlanes : ∀ i, (t.lanes i).Good c i (t.allocator.hand i))
    (hperm : t.closings.Perm s.closings) (hspares : Spared s t) : Recorded c t := by
  refine hs.kept hlanes hperm fun cl hcl => ?_
  have h := hs.waits cl hcl
  have hspare := hspares cl.camera
  refine h.kept ?_ ?_ (hspare.files _ h.taken)
  · rw [hspare.taken]
    exact h.taken
  · rw [hspare.current]
    exact h.through

theorem camera_recorded {i : Fin c.count} {l : Lane} {e : Effect c.count}
    (h : (s.lanes i).Turned c i (s.view c) l e) (hs : Recorded c s) :
    Recorded c ((s.lane i l).apply e) := by
  have hgood := hs.lanes i
  have hlanes : ((s.lane i l).apply e).lanes = Function.update s.lanes i l := rfl
  have hclosings : ((s.lane i l).apply e).closings = s.queue ++ e.sends.toList ++ s.held := rfl
  have hperm : ((s.lane i l).apply e).closings.Perm (s.closings ++ e.sends.toList) := by
    rw [hclosings, closings, List.append_assoc, List.append_assoc]
    exact List.perm_append_comm.append_left _
  have hsent := h.sent hgood
  refine ⟨fun j => ?_, fun cl hcl => ?_, ?_⟩
  · rw [hlanes]
    by_cases hj : j = i
    · subst hj
      rw [Function.update_self]
      exact h.good hgood
    · rw [Function.update_of_ne hj]
      exact hs.lanes j
  · rw [hlanes]
    rcases List.mem_append.mp (hperm.mem_iff.mp hcl) with hcl | hcl
    · have hwaits := hs.waits cl hcl
      by_cases hj : cl.camera = i
      · rw [hj] at hwaits ⊢
        obtain ⟨htaken, hcurrent, hfiles⟩ := h.keeps hgood hwaits.taken hwaits.through
        rw [Function.update_self]
        exact hwaits.kept htaken hcurrent hfiles
      · rw [Function.update_of_ne hj]
        exact hwaits
    · obtain ⟨hj, -, hwaits⟩ := hsent cl (by simpa using hcl)
      rw [hj, Function.update_self]
      exact hwaits
  · rw [(hperm.map Closing.key).nodup_iff, List.map_append]
    -- what is sent was not through with before
    refine hs.once.append ?_ ?_
    · cases e.sends <;> simp
    · intro key hold hnew
      obtain ⟨cl, hcl, rfl⟩ := List.mem_map.mp hold
      obtain ⟨cl', hcl', hkey⟩ := List.mem_map.mp hnew
      obtain ⟨hj, hcurrent, -⟩ := hsent cl' (by simpa using hcl')
      have hcamera : cl.camera = i := by
        rw [← hj]
        exact (congrArg Prod.fst hkey).symm
      have hsequence : cl'.sequence = cl.sequence := congrArg Prod.snd hkey
      apply (hs.waits cl hcl).through
      rw [hcamera, hcurrent, hsequence]

/-- One lane changes, and the hands of the allocator are for its camera. -/
theorem Recorded.lane_step {i : Fin c.count} {l : Lane} (hs : Recorded c s) (hl : l.Good c i (t.allocator.hand i))
    (hspares : (s.lanes i).Spares l) (hlanes : t.lanes = Function.update s.lanes i l)
    (hhand : ∀ j, j ≠ i → t.allocator.hand j = s.allocator.hand j) (hclosings : t.closings = s.closings) :
    Recorded c t ∧ Spared s t := by
  have hspared : Spared s t := fun j => by
    rw [hlanes]
    by_cases hj : j = i
    · subst hj
      rw [Function.update_self]
      exact hspares
    · rw [Function.update_of_ne hj]
      exact .refl _
  refine ⟨hs.spared (fun j => ?_) (by rw [hclosings]) hspared, hspared⟩
  rw [hlanes]
  by_cases hj : j = i
  · subst hj
    rw [Function.update_self]
    exact hl
  · rw [Function.update_of_ne hj, hhand j hj]
    exact hs.lanes j

theorem Spared.same (hlanes : t.lanes = s.lanes) : Spared s t := fun i => by
  rw [hlanes]
  exact .refl _

theorem Recorded.same_lanes (hs : Recorded c s) (hlanes : t.lanes = s.lanes)
    (hhand : ∀ i, t.allocator.hand i = s.allocator.hand i) (hperm : t.closings.Perm s.closings) :
    Recorded c t := by
  refine hs.spared (fun i => ?_) hperm (.same hlanes)
  rw [hlanes, hhand]
  exact hs.lanes i

theorem allocator_recorded {io : Io} (h : s.allocator_turn c io = some t) (hs : Recorded c s) :
    Recorded c t ∧ Spared s t := by
  unfold allocator_turn at h
  split at h
  case h_1 index ha =>
    dsimp only at h
    split_ifs at h with hlt hstop hneed hstop
    · cases h
      exact ⟨hs.same_lanes rfl (fun i => by rw [ha]; rfl) (.refl _), .same rfl⟩
    · cases h
      have hgood := hs.lanes ⟨index, hlt⟩
      rw [ha] at hgood
      refine hs.lane_step ?_ (Lane.requested_spares hneed) rfl (fun j hj => ?_) rfl
      · simp only [Allocator.hand, ↓reduceIte]
        exact hgood.requested hneed
      · simp [Allocator.hand, ha, Ne.symm hj]
    · cases h
      exact ⟨hs.same_lanes rfl (fun i => by rw [ha]; rfl) (.refl _), .same rfl⟩
    · cases h
      exact ⟨hs.same_lanes rfl (fun i => by rw [ha]; rfl) (.refl _), .same rfl⟩
    · cases h
      exact ⟨hs.same_lanes rfl (fun i => by rw [ha]; rfl) (.refl _), .same rfl⟩
  case h_2 i ha =>
    have hgood := hs.lanes i
    rw [ha] at hgood
    simp only [Allocator.hand, ↓reduceIte] at hgood
    obtain ⟨hneed, hvalue, hpos⟩ := hgood.slot.busy (by simp)
    split_ifs at h with hok
    · cases h
      refine hs.lane_step ?_ ?_ rfl (fun j hj => ?_) rfl
      · simp only [Allocator.hand, ↓reduceIte]
        exact hgood.prepares io.utc
      · refine Lane.next_spares hneed hpos rfl rfl fun q hq => ?_
        simp [Lane.prepares, hq]
      · simp [Allocator.hand, ha, Ne.symm hj]
    · cases h
      refine hs.lane_step (hgood.gives_up io _) (hgood.gives_up_spares io _) rfl (fun j hj => ?_) rfl
      simp [Allocator.hand, ha, allocator_ends, Ne.symm hj]
  case h_3 i ha =>
    have hgood := hs.lanes i
    rw [ha] at hgood
    simp only [Allocator.hand, ↓reduceIte] at hgood
    obtain ⟨hnew, hspares⟩ := hgood.discards_spares (by simp) (io.removes i)
    split_ifs at h with hrefused hend
    · cases h
      refine hs.lane_step hnew hspares rfl (fun j hj => ?_) rfl
      simp [Allocator.hand, ha, allocator_ends, Ne.symm hj]
    · cases h
      exact ⟨hs.same_lanes rfl (fun j => by simp [Allocator.hand, ha]) (.refl _), .same rfl⟩
    · cases h
      exact ⟨hs.same_lanes rfl (fun j => by simp [Allocator.hand, ha]) (.refl _), .same rfl⟩
  case h_4 i ha =>
    have hgood := hs.lanes i
    rw [ha] at hgood
    simp only [Allocator.hand, ↓reduceIte] at hgood
    obtain ⟨hnew, hspares⟩ := hgood.discards_spares (by simp) (io.removes i)
    split_ifs at h with hstop
    · cases h
      refine hs.lane_step hnew hspares rfl (fun j hj => ?_) rfl
      simp [Allocator.hand, ha, Ne.symm hj]
    · cases h
      exact ⟨hs.same_lanes rfl (fun j => by simp [Allocator.hand, ha]) (.refl _), .same rfl⟩
  case h_5 i ha =>
    have hgood := hs.lanes i
    rw [ha] at hgood
    simp only [Allocator.hand, ↓reduceIte] at hgood
    obtain ⟨hneed, hvalue, hpos⟩ := hgood.slot.busy (by simp)
    cases h
    refine hs.lane_step (hgood.placed _) ?_ rfl (fun j hj => ?_) rfl
    · refine Lane.next_spares hneed hpos ?_ ?_ fun q hq => ?_
      · simp [Lane.placed, hvalue, Lane.taken]
      · simp [Lane.placed, hvalue]
      · simp [Lane.placed, hvalue]
    · simp [Allocator.hand, ha, Ne.symm hj]
  case h_6 => cases h

/-- A closer goes on, and may take a recording from the head of the queue. -/
theorem closings_perm {k : Nat} {pc pc' : Closer c.count} {queue : List (Closing c.count)}
    (hpc : s.closers[k]? = some pc) (hclosers : t.closers = s.closers.set k pc') (hqueue : t.queue = queue)
    (h : (queue ++ pc'.held.toList).Perm (s.queue ++ pc.held.toList)) : t.closings.Perm s.closings := by
  have hset := filterMap_set_perm Closer.held pc' hpc
  rw [← List.perm_append_right_iff pc.held.toList]
  unfold closings held
  rw [hclosers, hqueue, List.append_assoc, List.append_assoc]
  refine (hset.append_left queue).trans ?_
  have hleft : (queue ++ (s.closers.filterMap Closer.held ++ pc'.held.toList)).Perm
      (queue ++ pc'.held.toList ++ s.closers.filterMap Closer.held) := by
    rw [List.append_assoc]
    exact List.perm_append_comm.append_left _
  refine hleft.trans ((h.append_right _).trans ?_)
  rw [List.append_assoc]
  exact List.perm_append_comm.append_left _

/-- A closer takes the recording at the head of the queue. -/
theorem closings_taken {k : Nat} {cl : Closing c.count} {queue : List (Closing c.count)}
    (hpc : s.closers[k]? = some .idle) (hhead : s.queue = cl :: queue)
    (hclosers : t.closers = s.closers.set k (.finishing cl)) (hqueue : t.queue = queue) :
    t.closings.Perm s.closings := by
  refine closings_perm hpc hclosers hqueue ?_
  rw [hhead]
  show (queue ++ [cl]).Perm (cl :: queue ++ [])
  rw [List.append_nil]
  exact List.perm_append_singleton cl queue

/-- The recording that a closer is through with waits no more. -/
theorem closings_finished {k : Nat} {cl : Closing c.count} {ok : Bool}
    (hpc : s.closers[k]? = some (.finishing cl))
    (hclosers : t.closers = s.closers.set k (.counting ok)) (hqueue : t.queue = s.queue) :
    (t.closings ++ [cl]).Perm s.closings := by
  have hset := filterMap_set_perm Closer.held (Closer.counting ok) hpc
  rw [closings, held, hclosers, hqueue, List.append_assoc]
  exact (hset.append_left s.queue).trans (by simp [Closer.held, closings, held])

/-- A closer is through with its recording: the others of its lane are not touched. -/
theorem closed_recorded {k : Nat} {cl : Closing c.count} (hs : Recorded c s)
    (hpc : s.closers[k]? = some (.finishing cl)) (ok : Bool) (now : Nat) :
    Recorded c ((s.lane cl.camera ((s.lanes cl.camera).closed cl.sequence now)).closer_at k (.counting ok)) := by
  set t := (s.lane cl.camera ((s.lanes cl.camera).closed cl.sequence now)).closer_at k (.counting ok) with ht
  have hperm : (t.closings ++ [cl]).Perm s.closings := closings_finished hpc rfl rfl
  have hmem : ∀ cl' ∈ t.closings, cl' ∈ s.closings := fun cl' hcl =>
    hperm.mem_iff.mp (List.mem_append_left _ hcl)
  have hwaits := hs.waits cl (hperm.mem_iff.mp (List.mem_append_right _ (List.mem_singleton_self cl)))
  have hnodup := (hperm.map Closing.key).nodup_iff.mpr hs.once
  rw [List.map_append, List.nodup_append] at hnodup
  refine ⟨fun j => ?_, fun cl' hcl => ?_, hnodup.1⟩
  · show (Function.update s.lanes _ _ j).Good c j (s.allocator.hand j)
    by_cases hj : j = cl.camera
    · subst hj
      rw [Function.update_self]
      exact (hs.lanes _).closed hwaits now
    · rw [Function.update_of_ne hj]
      exact hs.lanes j
  · have hold := hs.waits cl' (hmem cl' hcl)
    show (Function.update s.lanes _ _ cl'.camera).Waits _ _
    by_cases hj : cl'.camera = cl.camera
    · have hne : cl'.sequence ≠ cl.sequence := fun heq => by
        refine hnodup.2.2 cl'.key (List.mem_map_of_mem hcl) cl.key (by simp) ?_
        rw [Closing.key, Closing.key, hj, heq]
      rw [hj, Function.update_self]
      rw [hj] at hold
      exact hold.kept hold.taken hold.through (by simp [Lane.closed, hne])
    · rw [Function.update_of_ne hj]
      exact hold

theorem closer_recorded {k : Nat} {io : Io} (h : s.closer_turn c k io = some t) (hs : Recorded c s) :
    Recorded c t := by
  unfold closer_turn at h
  obtain ⟨pc, hpc, h⟩ := Option.bind_eq_some_iff.mp h
  cases pc with
  | idle =>
    dsimp only at h
    cases hqueue : s.queue with
    | nil =>
      rw [hqueue] at h
      simp only at h
      split_ifs at h
      · cases h
        exact hs
      · cases h
        exact hs.same_lanes rfl (fun _ => rfl) (closings_perm hpc rfl rfl (.refl _))
    | cons cl queue =>
      rw [hqueue] at h
      cases h
      exact hs.same_lanes rfl (fun _ => rfl) (closings_taken hpc hqueue rfl rfl)
  | finishing cl =>
    dsimp only at h
    split_ifs at h with hok
    · cases h
      exact closed_recorded hs hpc true io.utc
    · cases h
      -- the recording is left as it is
      have hperm : ((s.closer_at k (.counting false)).closings ++ [cl]).Perm s.closings :=
        closings_finished hpc rfl rfl
      have hnodup := (hperm.map Closing.key).nodup_iff.mpr hs.once
      rw [List.map_append, List.nodup_append] at hnodup
      exact ⟨hs.lanes, fun cl' hcl => hs.waits cl' (hperm.mem_iff.mp (List.mem_append_left _ hcl)), hnodup.1⟩
  | counting ok =>
    cases h
    exact hs.same_lanes rfl (fun _ => rfl) (closings_perm hpc rfl rfl (.refl _))
  | reporting ok =>
    dsimp only at h
    split_ifs at h <;> cases h <;>
      exact hs.same_lanes rfl (fun _ => rfl) (closings_perm hpc rfl rfl (.refl _))
  | ended => cases h

theorem main_recorded {io : Io} (h : s.main_turn c io = some t) (hs : Recorded c s) :
    Recorded c t ∧ Spared s t := by
  unfold main_turn at h
  split at h
  · split_ifs at h <;> cases h <;> exact ⟨hs.same_lanes rfl (fun _ => rfl) (.refl _), .same rfl⟩
  · split_ifs at h <;> cases h <;> exact ⟨hs.same_lanes rfl (fun _ => rfl) (.refl _), .same rfl⟩
  · split_ifs at h <;> cases h <;> exact ⟨hs.same_lanes rfl (fun _ => rfl) (.refl _), .same rfl⟩
  · split_ifs at h
    · cases h
      have hspared : Spared s
          { s with lanes := fun i => (s.lanes i).dropped (io.removes i), main := .ended } :=
        fun i => (hs.lanes i).dropped_spares _
      exact ⟨hs.spared (fun i => (hs.lanes i).dropped _) (.refl _) hspared, hspared⟩
    · cases h
      exact ⟨hs, fun i => .refl _⟩
  · cases h

/-- `prune` takes no recording that waits to be closed. -/
theorem prune_recorded (hs : Recorded c s) (i : Fin c.count) (q : Nat) :
    Recorded c (s.lane i ((s.lanes i).pruned q)) := by
  refine hs.kept (fun j => ?_) (.refl _) fun cl hcl => ?_
  · show (Function.update s.lanes i _ j).Good c j (s.allocator.hand j)
    by_cases hj : j = i
    · subst hj
      rw [Function.update_self]
      exact (hs.lanes j).pruned q
    · rw [Function.update_of_ne hj]
      exact hs.lanes j
  · have hwaits := hs.waits cl hcl
    show (Function.update s.lanes i _ cl.camera).Waits _ _
    by_cases hj : cl.camera = i
    · rw [hj] at hwaits ⊢
      obtain ⟨r, hr, hstage⟩ := hwaits.file
      have hpending : r.pending = true := by
        rcases ((hs.lanes i).files.old _ r hwaits.taken hr).stage with h | h
        · exact h.2
        · rw [h.1] at hstage
          cases hstage
      rw [Function.update_self]
      refine hwaits.kept hwaits.taken hwaits.through ?_
      by_cases hq : cl.sequence = q
      · subst hq
        simp [Lane.pruned, hr, Option.filter, hpending]
      · simp [Lane.pruned, hq]
    · rw [Function.update_of_ne hj]
      exact hwaits

theorem step_recorded {ev : Event c.count} (h : step c s ev = some t) (hs : Recorded c s) :
    Recorded c t := by
  cases ev with
  | tick now =>
    simp only [step] at h
    split_ifs at h
    cases h
    exact hs.same_lanes rfl (fun _ => rfl) (.refl _)
  | interrupt =>
    cases h
    exact hs.same_lanes rfl (fun _ => rfl) (.refl _)
  | camera i io =>
    obtain ⟨⟨l, e⟩, hturn, rfl⟩ := Option.map_eq_some_iff.mp h
    exact camera_recorded (Lane.turn.spec hturn) hs
  | allocator io => exact (allocator_recorded h hs).1
  | closer k io => exact closer_recorded h hs
  | main io => exact (main_recorded h hs).1
  | advance =>
    simp only [step] at h
    split_ifs at h
    cases h
    exact hs.same_lanes rfl (fun _ => rfl) (.refl _)
  | prune i q =>
    simp only [step] at h
    split_ifs at h
    cases h
    exact prune_recorded hs i q
  | deleted count =>
    simp only [step] at h
    split_ifs at h
    cases h
    exact hs.same_lanes rfl (fun _ => rfl) (.refl _)

theorem init_recorded (c : Setup) : Recorded c (init c) := by
  have hclosings : (init c).closings = [] := by
    show [] ++ (List.replicate CLOSERS Closer.idle).filterMap Closer.held = []
    simp [CLOSERS, Closer.held]
  refine ⟨fun i => ?_, fun cl hcl => ?_, ?_⟩
  · refine ⟨⟨fun _ => ⟨rfl, rfl⟩, fun hno => (by cases hno), fun q hq => (by cases hq)⟩,
      ⟨?_, ?_, ?_, fun hne => absurd rfl hne, fun _ => rfl⟩,
      ⟨fun q r hr => (by cases hr), fun hno => (by cases hno), fun q r _ hr => (by cases hr),
        fun q hq => (by cases hq), fun q r hr => (by cases hr)⟩⟩
    · simp [init, Lane.taken]
    · simp [init, Lane.taken, Lane.wrote, Lane.fates_of]
    · simp [init, Lane.Held, Lane.taken, Lane.wrote, Lane.fates_of]
  · simp [hclosings] at hcl
  · simp [hclosings]

theorem run_recorded {es : List (Event c.count)} (hrun : machine.run (step c) (init c) es = some s) :
    Recorded c s :=
  machine.invariant (fun _ _ _ hs hstep => step_recorded hstep hs) hrun (init_recorded c)

/-! ## Closed recordings -/

end State

/-- The camera is through with the recording, and it is closed or removed. -/
structure Lane.Settled (l : Lane) (q : Nat) : Prop where
  taken : q ≤ l.taken
  through : l.current ≠ some q
  closed : ∀ r, l.files q = some r → r.pending = false

namespace State

variable {c : Setup} {s t : State c.count}

/-- What is settled stays so: the file is the same, or it is gone. -/
def Settles (s t : State c.count) : Prop := ∀ i q, (s.lanes i).Settled q →
  (t.lanes i).Settled q ∧ ((t.lanes i).files q = (s.lanes i).files q ∨ (t.lanes i).files q = none)

theorem Settles.refl (s : State c.count) : Settles s s := fun _ _ h => ⟨h, .inl rfl⟩

theorem Settles.trans {u : State c.count} (h : Settles s t) (h' : Settles t u) : Settles s u := by
  intro i q hq
  obtain ⟨hq', hfile⟩ := h i q hq
  obtain ⟨hq'', hfile'⟩ := h' i q hq'
  refine ⟨hq'', ?_⟩
  rcases hfile' with hsame | hnone
  · rw [hsame]
    exact hfile
  · exact .inr hnone

/-- One lane changes, and keeps what is settled. -/
theorem Settles.update {i : Fin c.count} {l : Lane} (hlanes : t.lanes = Function.update s.lanes i l)
    (h : ∀ q, (s.lanes i).Settled q → q ≤ l.taken ∧ l.current ≠ some q ∧
      (l.files q = (s.lanes i).files q ∨ l.files q = none)) : Settles s t := by
  intro j q hq
  rw [hlanes]
  by_cases hj : j = i
  · subst hj
    rw [Function.update_self]
    obtain ⟨htaken, hthrough, hfile⟩ := h q hq
    refine ⟨⟨htaken, hthrough, fun r hr => ?_⟩, hfile⟩
    rcases hfile with hsame | hnone
    · exact hq.closed r (hsame ▸ hr)
    · simp [hnone] at hr
  · rw [Function.update_of_ne hj]
    exact ⟨hq, .inl rfl⟩

theorem Settles.same (hlanes : t.lanes = s.lanes) : Settles s t := by
  intro i q hq
  rw [hlanes]
  exact ⟨hq, .inl rfl⟩

theorem Spared.settles (h : Spared s t) : Settles s t := by
  intro i q hq
  have hfile := (h i).files q hq.taken
  refine ⟨⟨?_, ?_, ?_⟩, .inl hfile⟩
  · rw [(h i).taken]
    exact hq.taken
  · rw [(h i).current]
    exact hq.through
  · rw [hfile]
    exact hq.closed

/-- A closer leaves what is closed alone: what it closes waits for it. -/
theorem closer_settles {k : Nat} {io : Io} (h : s.closer_turn c k io = some t) (hs : Recorded c s) :
    Settles s t := by
  unfold closer_turn at h
  obtain ⟨pc, hpc, h⟩ := Option.bind_eq_some_iff.mp h
  cases pc with
  | finishing cl =>
    dsimp only at h
    split_ifs at h with hok
    · cases h
      have hheld : cl ∈ s.closings := List.mem_append_right _
        (List.mem_filterMap.mpr ⟨_, List.mem_of_getElem? hpc, rfl⟩)
      obtain ⟨r, hr, hstage⟩ := (hs.waits cl hheld).file
      refine .update rfl fun q hq => ⟨hq.taken, hq.through, ?_⟩
      have hne : q ≠ cl.sequence := by
        rintro rfl
        rcases ((hs.lanes _).files.old _ r hq.taken hr).stage with ⟨-, hpending⟩ | ⟨hclosed, -⟩
        · rw [hq.closed r hr] at hpending
          cases hpending
        · rw [hstage] at hclosed
          cases hclosed
      left
      simp [Lane.closed, hne]
    · cases h
      exact .same rfl
  | idle =>
    dsimp only at h
    split at h
    · cases h
      exact .same rfl
    · split_ifs at h <;> cases h <;> exact .same rfl
  | counting ok =>
    cases h
    exact .same rfl
  | reporting ok =>
    dsimp only at h
    split_ifs at h <;> cases h <;> exact .same rfl
  | ended => cases h

theorem step_settles {ev : Event c.count} (h : step c s ev = some t) (hs : Recorded c s) :
    Settles s t := by
  cases ev with
  | camera i io =>
    obtain ⟨⟨l, e⟩, hturn, rfl⟩ := Option.map_eq_some_iff.mp h
    refine .update (i := i) rfl fun q hq => ?_
    obtain ⟨htaken, hthrough, hfile⟩ := (Lane.turn.spec hturn).keeps (hs.lanes i) hq.taken hq.through
    exact ⟨htaken, hthrough, .inl hfile⟩
  | allocator io => exact (allocator_recorded h hs).2.settles
  | closer k io => exact closer_settles h hs
  | main io => exact (main_recorded h hs).2.settles
  | prune i q =>
    simp only [step] at h
    split_ifs at h
    cases h
    refine .update (i := i) rfl fun p hp => ⟨hp.taken, hp.through, ?_⟩
    by_cases hpq : p = q
    · subst hpq
      cases hr : (s.lanes i).files p with
      | none => simp [Lane.pruned, hr]
      | some r => simp [Lane.pruned, hr, Option.filter, hp.closed r hr]
    · left
      simp [Lane.pruned, hpq]
  | interrupt =>
    cases h
    exact .same rfl
  | tick now =>
    simp only [step] at h
    split_ifs at h
    cases h
    exact .same rfl
  | advance =>
    simp only [step] at h
    split_ifs at h
    cases h
    exact .same rfl
  | deleted count =>
    simp only [step] at h
    split_ifs at h
    cases h
    exact .same rfl

theorem run_settles {es : List (Event c.count)} (hrun : machine.run (step c) s es = some t)
    (hs : Recorded c s) : Settles s t := by
  have hinv := @machine.invariant _ _ (step c) (fun t => Recorded c t ∧ Settles s t)
    (fun _ _ _ h hstep => ⟨step_recorded hstep h.1, h.2.trans (step_settles hstep h.1)⟩) _ _ _ hrun
    ⟨hs, .refl s⟩
  exact hinv.2

/-- A closed recording is one that its camera took and is through with. -/
theorem Recorded.settled (hs : Recorded c s) {i : Fin c.count} {q : Nat} {r : Recording}
    (hr : (s.lanes i).files q = some r) (hclosed : r.pending = false) : (s.lanes i).Settled q := by
  have hgood := hs.lanes i
  obtain ⟨hpos, hle⟩ := hgood.files.numbers q r hr
  refine ⟨?_, fun hcurrent => ?_, fun r' hr' => ?_⟩
  · -- the next file is not closed
    cases hneed : (s.lanes i).need with
    | true => exact hle.trans (Lane.taken_needed hneed).ge
    | false =>
      rw [Lane.taken_asked hneed]
      by_contra hnot
      obtain rfl : q = (s.lanes i).sequence := by omega
      rw [hgood.files.next_pending hneed hr] at hclosed
      cases hclosed
  · obtain ⟨r', hr', hpending⟩ := hgood.files.current q hcurrent
    rw [Option.some.inj (hr'.symm.trans hr), hclosed] at hpending
    cases hpending
  · rw [Option.some.inj (hr'.symm.trans hr), hclosed]

end State

/-! ## The stream over its recordings -/

/-- What comes in pieces of `n`, the last one short, is the whole. -/
theorem flatMap_pieces {α : Type*} (f : Nat → List α) (n pieces total : Nat) (h : total ≤ pieces * n) :
    (List.range pieces).flatMap (fun p => (List.range (min n (total - p * n))).flatMap fun b =>
      f (p * n + b)) = (List.range total).flatMap f := by
  induction pieces generalizing total with
  | zero =>
    obtain rfl : total = 0 := by omega
    rfl
  | succ pieces ih =>
    rw [List.range_succ, List.flatMap_append, List.flatMap_singleton]
    have hstep : (pieces + 1) * n = pieces * n + n := Nat.succ_mul pieces n
    rcases Nat.le_total total (pieces * n) with hle | hge
    · have hnone : min n (total - pieces * n) = 0 := by omega
      rw [ih total hle, hnone]
      simp
    · obtain ⟨k, rfl⟩ := Nat.exists_eq_add_of_le hge
      have hfull : ∀ p ∈ List.range pieces, min n (pieces * n + k - p * n) = min n (pieces * n - p * n) := by
        intro p hp
        have := Nat.mul_le_mul_right n (List.mem_range.mp hp : p + 1 ≤ pieces)
        rw [Nat.succ_mul] at this
        omega
      have hlast : min n (pieces * n + k - pieces * n) = k := by omega
      have hcongr : (List.range pieces).flatMap (fun p => (List.range (min n (pieces * n + k - p * n))).flatMap
          fun b => f (p * n + b)) = (List.range (pieces * n)).flatMap f := by
        rw [← ih (pieces * n) le_rfl]
        exact List.flatMap_congr fun p hp => by rw [hfull p hp]
      rw [hcongr, hlast, List.range_add, List.flatMap_append, List.flatMap_map]

/-- The recordings of a camera, one after the other, are the blocks that it wrote. -/
theorem Lane.AtWork.stream {c : Setup} {i : Fin c.count} {l : Lane} (h : l.AtWork c i) :
    (List.range l.taken).flatMap (fun p => c.data i (p + 1) (l.blocks c (p + 1))) =
      (List.range l.wrote).flatMap (c.block_at i) := by
  rw [← flatMap_pieces (c.block_at i) c.per_file l.taken l.wrote h.most]
  simp only [Setup.data, Lane.blocks, Nat.add_sub_cancel]

/-- In every state of every run, each recording holds the blocks of its stream that are due to be
in it, all but the last one that the camera took are full, and one after the other they are all that
it wrote; each recording waits to be closed at most once, and one that is closed is never written
again: it is kept as it is, or removed. -/
theorem recordings_hold_the_stream_in_order_and_are_final_once_closed (c : Setup)
    (es : List (Event c.count)) (s : State c.count)
    (hrun : machine.run (step c) (init c) es = some s) :
    s.Recorded c ∧
    (∀ i, (List.range (s.lanes i).taken).flatMap
        (fun p => c.data i (p + 1) ((s.lanes i).blocks c (p + 1))) =
      (List.range (s.lanes i).wrote).flatMap (c.block_at i)) ∧
    ∀ es' t, machine.run (step c) s es' = some t → ∀ i q r, (s.lanes i).files q = some r →
      r.pending = false → (t.lanes i).files q = some r ∨ (t.lanes i).files q = none := by
  have hs := State.run_recorded hrun
  refine ⟨hs, fun i => (hs.lanes i).thread.stream, fun es' t hrun' i q r hr hclosed => ?_⟩
  rw [← hr]
  exact (State.run_settles hrun' hs i q (hs.settled hr hclosed)).2

/-- Two frames fill a recording, which is closed and then stays. -/
theorem two_frames_are_recorded : ∃ s, machine.run (step one_camera) (init one_camera) two_frames = some s ∧
    s.Recorded one_camera := by
  obtain ⟨s, hs⟩ := Option.isSome_iff_exists.mp two_frames_run
  exact ⟨s, hs, (recordings_hold_the_stream_in_order_and_are_final_once_closed one_camera two_frames s hs).1⟩

end stutools.cctv
