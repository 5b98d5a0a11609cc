-- The end of a run of the cameras: the main thread waits for the cameras and the allocator before
-- it lets the closers go, the closers empty the queue, and what is left on the disk is closed.
import Stutools.CctvHandover

open Finset

namespace stutools.cctv

/-- A closer that has a recording counted as one to be closed. -/
def Closer.busy {n : Nat} : Closer n → Nat
  | .finishing _ | .counting _ => 1
  | _ => 0

/-- A closer that could not close its recording, and has not reported it yet. -/
def Closer.Failed {n : Nat} (pc : Closer n) : Prop := pc = .counting false ∨ pc = .reporting false

theorem Pc.matches_ended (pc : Pc) : (pc matches .ended _) ↔ ∃ ok, pc = .ended ok := by
  cases pc <;> simp

theorem Allocator.matches_ended {n : Nat} (a : Allocator n) :
    (a matches .ended _) ↔ ∃ ok, a = .ended ok := by
  cases a <;> simp

namespace Lane

variable {c : Setup} {i : Fin c.count} {hand : Hand} {v : View} {l l' : Lane} {e : Effect c.count}

/-- A camera that has ended takes no turn. -/
theorem Turned.live (h : Turned c i v l l' e) : ∀ ok, l.pc ≠ .ended ok := by
  cases h with
  | moves pc ready sample hquiet hwrite => exact hquiet.live
  | takes q pc hvalue hcurrent hgo hpc =>
    rcases hpc with ⟨hpc, -⟩ | ⟨f, w, hpc, -⟩ <;> simp [hpc]
  | gives_up f hpc hkind =>
    rcases hkind with ⟨⟨w, hpc⟩, -⟩ | hpc <;> simp [hpc]
  | removes q hpc hcurrent hoffset => rcases hpc with hpc | hpc <;> simp [hpc]
  | ends hpc hcurrent => rcases hpc with hpc | hpc <;> simp [hpc]
  | fails hhand hcurrent hlive => exact hlive
  | _ => simp [*]

theorem closed_same (l : Lane) (q now : Nat) : Same l (l.closed q now) := ⟨rfl, rfl, rfl, rfl, rfl, rfl⟩

/-- What is open after a recording is closed is another one. -/
theorem closed_files {l : Lane} {q p now : Nat} {r : Recording}
    (h : (l.closed q now).files p = some r) (hpending : r.pending = true) :
    p ≠ q ∧ l.files p = some r := by
  by_cases hp : p = q
  · subst hp
    simp only [Lane.closed, Function.update_self, Option.map_eq_some_iff] at h
    obtain ⟨r', -, rfl⟩ := h
    cases hpending
  · exact ⟨hp, by simpa [Lane.closed, hp] using h⟩

theorem pruned_files {l : Lane} {q p : Nat} {r : Recording} (h : (l.pruned q).files p = some r) :
    l.files p = some r := by
  by_cases hp : p = q
  · subst hp
    simp only [Lane.pruned, Function.update_self, Option.filter_eq_some_iff] at h
    exact h.1
  · simpa [Lane.pruned, hp] using h

/-- The file that a turn leaves open is in the hands of the camera, or it is sent, unless the
camera has failed or is through with it before. -/
theorem Turned.traces (h : Turned c i v l l' e) (hgood : l.Good c i hand) {q : Nat} {r : Recording}
    (hr : l'.files q = some r) (htaken : q ≤ l'.taken) : l'.current = some q ∨
      (∃ cl ∈ e.sends, cl.key = (i, q)) ∨ l'.pc = .ended false ∨
      (q ≤ l.taken ∧ l.current ≠ some q ∧ l.files q = some r) := by
  by_cases hold : q ≤ l.taken ∧ l.current ≠ some q
  · obtain ⟨-, -, hsame⟩ := h.keeps hgood hold.1 hold.2
    exact .inr (.inr (.inr ⟨hold.1, hold.2, hsame ▸ hr⟩))
  have hcurrent : q ≤ l.taken → l.current = some q := fun hq => by
    by_contra hne
    exact hold ⟨hq, hne⟩
  cases h with
  | takes p pc hvalue hnone hgo hpc =>
    left
    have hq := (hgood.slot.value p hvalue).1
    have htaken' : q ≤ l.sequence := by simpa [Lane.taken, Lane.takes] using htaken
    have hneed : l.need = false := by
      by_contra hne
      have := (hgood.slot.need (by simpa using hne)).2
      simp [hvalue] at this
    have hnew : ¬ q ≤ l.taken := fun hle => by simp [hnone] at hcurrent; omega
    rw [taken_asked hneed] at hnew
    show some p = some q
    rw [hq]
    congr 1
    omega
  | sends p last hpc hheld hcloser =>
    right
    left
    have hq := hcurrent htaken
    rw [hheld] at hq
    obtain rfl := Option.some.inj hq
    exact ⟨_, rfl, rfl⟩
  | writes p f io hpc hheld hok =>
    simp only [Lane.writes, hok, ↓reduceIte] at htaken ⊢
    exact .inl (hcurrent htaken)
  | write_fails p f io hpc hheld hok =>
    simp only [Lane.writes, hok, Bool.false_eq_true, ↓reduceIte]
    exact .inr (.inr (.inl rfl))
  | measures p io hpc hheld hrecord =>
    left
    unfold Lane.measures at htaken ⊢
    cases hrec : v.record with
    | refused => exact absurd hrec hrecord
    | _ =>
      simp only [hrec] at htaken
      exact hcurrent htaken
  | removes p hpc hheld hoffset =>
    have hq := hcurrent htaken
    rw [hheld] at hq
    obtain rfl := Option.some.inj hq
    simp [Lane.ends] at hr
  | ends hpc hnone =>
    have hq := hcurrent htaken
    simp [hnone] at hq
  | fails hhand hheld hlive => exact .inr (.inr (.inl rfl))
  | rotation_fails f w hpc => exact .inr (.inr (.inl rfl))
  | _ => exact .inl (hcurrent htaken)

/-- A turn moves the recordings that are counted on to the queue; a camera that fails may leave
one counted. -/
theorem Turned.gauges (h : Turned c i v l l' e) :
    l'.pc.to_send + e.sends.toList.length ≤ l.pc.to_send + e.closing ∧
      l.pc.to_send + e.closing ≤ l'.pc.to_send + e.sends.toList.length + l'.failed := by
  cases h with
  | moves pc ready sample hquiet hwrite => simp [hquiet.same.2.2]
  | takes q pc hvalue hcurrent hgo hpc =>
    rcases hpc with ⟨hpc, rfl⟩ | ⟨f, w, hpc, rfl⟩ <;> simp [hpc, Lane.takes, Pc.to_send]
  | passes hpc hgo hend =>
    have hpasses : (l.passes (n := c.count) (c.clock i) c.drop_after v.elapsed).1.pc.to_send = 0 := by
      unfold Lane.passes
      dsimp only
      split
      · rfl
      · split_ifs <;> rfl
    rw [hpasses, hpc]
    simp [Lane.passes, Pc.to_send]
  | gives_up f hpc hkind =>
    rcases hkind with ⟨⟨w, hpc⟩, -⟩ | hpc <;> simp [hpc, Pc.to_send]
  | writes q f io hpc hcurrent hok => simp [Lane.writes, hok, hpc, Pc.to_send]
  | write_fails q f io hpc hcurrent hok =>
    simp [Lane.writes, hok, hpc, Pc.to_send, Lane.fails, Lane.ends]
  | measures q io hpc hcurrent hrecord =>
    unfold Lane.measures
    cases hr : v.record with
    | refused => exact absurd hr hrecord
    | _ =>
      dsimp only
      split_ifs <;> simp [hpc, Pc.to_send]
  | counts last hpc => simp [hpc, Pc.to_send]
  | sends q last hpc hcurrent hcloser => cases last <;> simp [hpc, Pc.to_send, Lane.sends]
  | closes q hpc hcurrent hoffset => simp [hpc, Pc.to_send]
  | removes q hpc hcurrent hoffset => rcases hpc with hpc | hpc <;> simp [hpc, Pc.to_send, Lane.ends]
  | ends hpc hcurrent => rcases hpc with hpc | hpc <;> simp [hpc, Pc.to_send, Lane.ends]
  | fails hhand hcurrent hlive =>
    have : l.pc.to_send ≤ 1 := by unfold Pc.to_send; split <;> omega
    simpa [Lane.ends, Pc.to_send, Lane.failed] using this
  | rotation_fails f w hpc => simp [hpc, Pc.to_send, Lane.fails, Lane.ends]

end Lane

namespace State

variable {c : Setup} {s t : State c.count}

/-! ## The end of the threads -/

/-- The order in which the threads end. -/
structure Winding (s : State c.count) : Prop where
  sender : s.closer = false ↔ s.main = .closing ∨ s.main = .ended
  joined : s.closer = false → s.all_joined
  closers : Closer.ended ∈ s.closers → s.closer = false ∧ s.queue = []
  count : s.closers.length = CLOSERS
  ended : s.main = .ended → (∀ pc ∈ s.closers, pc = .ended) ∧ ∀ i, (s.lanes i).value = none

/-- While the cameras or the allocator go on, the main thread has not let the closers go. -/
theorem Winding.sender_of_live (h : Winding s)
    (hlive : (∃ i, ∀ ok, (s.lanes i).pc ≠ .ended ok) ∨ ∀ ok, s.allocator ≠ .ended ok) : s.closer = true := by
  by_contra hnot
  obtain ⟨hlanes, hallocator⟩ := h.joined (by simpa using hnot)
  rcases hlive with ⟨i, hi⟩ | ha
  · obtain ⟨ok, hok⟩ := (Pc.matches_ended _).mp (hlanes i)
    exact hi ok hok
  · obtain ⟨ok, hok⟩ := (Allocator.matches_ended _).mp hallocator
    exact ha ok hok

/-- A step before the main thread lets the closers go. -/
theorem Winding.before (h : Winding s) (hopen : s.closer = true) (hcloser : t.closer = s.closer)
    (hmain : t.main = s.main) (hclosers : t.closers = s.closers) : Winding t := by
  have hnot : ¬ (s.main = .closing ∨ s.main = .ended) := fun hmain => by
    simp [h.sender.mpr hmain] at hopen
  refine ⟨?_, fun hno => ?_, fun hmem => ?_, ?_, fun hend => ?_⟩
  · rw [hcloser, hmain]
    exact h.sender
  · simp [hcloser, hopen] at hno
  · have hclosed := (h.closers (hclosers ▸ hmem)).1
    simp [hopen] at hclosed
  · rw [hclosers]
    exact h.count
  · exact absurd (.inr (hmain ▸ hend)) hnot

/-- A step that leaves the threads alone. -/
theorem Winding.same (h : Winding s) (hcloser : t.closer = s.closer) (hmain : t.main = s.main)
    (hclosers : t.closers = s.closers) (hqueue : t.queue = s.queue) (hallocator : t.allocator = s.allocator)
    (hlanes : ∀ i, (t.lanes i).pc = (s.lanes i).pc ∧ (t.lanes i).value = (s.lanes i).value) : Winding t := by
  refine ⟨?_, fun hno => ?_, ?_, ?_, fun hend => ?_⟩
  · rw [hcloser, hmain]
    exact h.sender
  · obtain ⟨hjoined, ha⟩ := h.joined (hcloser ▸ hno)
    refine ⟨fun i => ?_, ?_⟩
    · rw [(hlanes i).1]
      exact hjoined i
    · rw [hallocator]
      exact ha
  · rw [hclosers, hcloser, hqueue]
    exact h.closers
  · rw [hclosers]
    exact h.count
  · rw [hclosers]
    obtain ⟨hall, hvalue⟩ := h.ended (hmain ▸ hend)
    exact ⟨hall, fun i => by rw [(hlanes i).2, hvalue i]⟩

/-- A closer that has not ended goes on. -/
theorem Winding.closes (h : Winding s) {k : Nat} {pc pc' : Closer c.count} (hpc : s.closers[k]? = some pc)
    (hlive : pc ≠ .ended) (hcloser : t.closer = s.closer) (hmain : t.main = s.main)
    (hclosers : t.closers = s.closers.set k pc')
    (hqueue : s.queue = [] → t.queue = []) (hends : pc' = .ended → s.closer = false ∧ s.queue = [])
    (hallocator : t.allocator = s.allocator) (hlanes : ∀ i, (t.lanes i).pc = (s.lanes i).pc) : Winding t := by
  refine ⟨?_, fun hno => ?_, fun hmem => ?_, ?_, fun hend => ?_⟩
  · rw [hcloser, hmain]
    exact h.sender
  · obtain ⟨hjoined, ha⟩ := h.joined (hcloser ▸ hno)
    refine ⟨fun i => ?_, ?_⟩
    · rw [hlanes i]
      exact hjoined i
    · rw [hallocator]
      exact ha
  · rw [hcloser]
    have hdone : s.closer = false ∧ s.queue = [] := by
      rw [hclosers] at hmem
      rcases List.mem_or_eq_of_mem_set hmem with hold | hnew
      · exact h.closers hold
      · exact hends hnew.symm
    exact ⟨hdone.1, hqueue hdone.2⟩
  · rw [hclosers, List.length_set]
    exact h.count
  · exact absurd ((h.ended (hmain ▸ hend)).1 pc (List.mem_of_getElem? hpc)) hlive

theorem closer_winding {k : Nat} {io : Io} (h : s.closer_turn c k io = some t) (hs : Winding s) : Winding t := by
  unfold closer_turn at h
  obtain ⟨pc, hpc, h⟩ := Option.bind_eq_some_iff.mp h
  cases pc with
  | idle =>
    dsimp only at h
    cases hqueue : s.queue with
    | nil =>
      rw [hqueue] at h
      simp only at h
      split_ifs at h with hopen
      · cases h
        exact hs
      · cases h
        exact hs.closes hpc (by simp) rfl rfl rfl (fun h => h) (fun _ => ⟨by simpa using hopen, hqueue⟩) rfl
          fun _ => rfl
    | cons cl queue =>
      rw [hqueue] at h
      cases h
      refine hs.closes hpc (by simp) rfl rfl rfl (fun hnil => ?_) (by simp) rfl fun _ => rfl
      simp [hqueue] at hnil
  | finishing cl =>
    dsimp only at h
    split_ifs at h with hok
    · cases h
      refine hs.closes hpc (by simp) rfl rfl rfl (fun h => h) (by simp) rfl fun i => ?_
      exact (same_update s cl.camera (Lane.closed_same _ _ _) i).pc
    · cases h
      exact hs.closes hpc (by simp) rfl rfl rfl (fun h => h) (by simp) rfl fun _ => rfl
  | counting ok =>
    cases h
    exact hs.closes hpc (by simp) rfl rfl rfl (fun h => h) (by simp) rfl fun _ => rfl
  | reporting ok =>
    dsimp only at h
    split_ifs at h <;> cases h <;>
      exact hs.closes hpc (by simp) rfl rfl rfl (fun h => h) (by simp) rfl fun _ => rfl
  | ended => cases h

theorem main_winding {io : Io} (h : s.main_turn c io = some t) (hs : Winding s) : Winding t := by
  have hopen : s.main ≠ .closing → s.main ≠ .ended → s.closer = true := fun hclosing hended => by
    by_contra hno
    rcases hs.sender.mp (by simpa using hno) with hmain | hmain
    · exact hclosing hmain
    · exact hended hmain
  -- the main thread goes on before it lets the closers go
  have hgoes : ∀ u : State c.count, s.closer = true → u.closer = s.closer → u.closers = s.closers →
      u.main ≠ .closing → u.main ≠ .ended → Winding u := fun u hs' hcloser hclosers hclosing hended => by
    refine ⟨?_, fun hno => ?_, fun hmem => ?_, ?_, fun hend => absurd hend hended⟩
    · simp [hcloser, hs', hclosing, hended]
    · simp [hcloser, hs'] at hno
    · simp [(hs.closers (hclosers ▸ hmem)).1] at hs'
    · rw [hclosers]
      exact hs.count
  unfold main_turn at h
  split at h
  case h_1 hmain =>
    split_ifs at h
    · cases h
      exact hgoes _ (hopen (by simp [hmain]) (by simp [hmain])) rfl rfl (by simp) (by simp)
    · cases h
      exact hs
  case h_2 hmain =>
    split_ifs at h
    · cases h
      exact hgoes _ (hopen (by simp [hmain]) (by simp [hmain])) rfl rfl (by simp) (by simp)
    · cases h
      exact hs
  case h_3 hmain =>
    have hs' := hopen (by simp [hmain]) (by simp [hmain])
    split_ifs at h with hjoined
    · cases h
      refine ⟨by simp, fun _ => hjoined, fun hmem => ?_, hs.count, fun hend => (by cases hend)⟩
      simp [(hs.closers hmem).1] at hs'
    · cases h
      exact hs
  case h_4 hmain =>
    have hclosed := hs.sender.mpr (.inl hmain)
    split_ifs at h with hall
    · cases h
      have hall' : ∀ pc ∈ s.closers, pc = .ended := fun pc hpc => by
        have hends := List.all_eq_true.mp hall pc hpc
        cases pc <;> simp at hends ⊢
      refine ⟨by simp [hclosed], fun _ => ?_, hs.closers, hs.count, fun _ => ⟨hall', fun i => ?_⟩⟩
      · obtain ⟨hlanes, ha⟩ := hs.joined hclosed
        refine ⟨fun i => ?_, ha⟩
        show ((s.lanes i).dropped (io.removes i)).pc matches .ended _
        rw [(Lane.dropped_same (s.lanes i) _).pc]
        exact hlanes i
      · rfl
    · cases h
      exact hs
  case h_5 => cases h

/-- The allocator does nothing to the other threads. -/
theorem allocator_turn.alone {io : Io} (h : s.allocator_turn c io = some t) : (∀ ok, s.allocator ≠ .ended ok) ∧
    t.closer = s.closer ∧ t.main = s.main ∧ t.closers = s.closers ∧ t.queue = s.queue ∧
      t.closing = s.closing ∧ t.close_error = s.close_error := by
  unfold allocator_turn at h
  split at h
  case h_1 index ha =>
    dsimp only at h
    split_ifs at h <;> cases h <;> exact ⟨by simp [ha], rfl, rfl, rfl, rfl, rfl, rfl⟩
  case h_2 i ha =>
    split_ifs at h <;> cases h <;> exact ⟨by simp [ha], rfl, rfl, rfl, rfl, rfl, rfl⟩
  case h_3 i ha =>
    split_ifs at h <;> cases h <;> exact ⟨by simp [ha], rfl, rfl, rfl, rfl, rfl, rfl⟩
  case h_4 i ha =>
    split_ifs at h <;> cases h <;> exact ⟨by simp [ha], rfl, rfl, rfl, rfl, rfl, rfl⟩
  case h_5 i ha =>
    cases h
    exact ⟨by simp [ha], rfl, rfl, rfl, rfl, rfl, rfl⟩
  case h_6 => cases h

/-- The main thread leaves the queue to the closers. -/
theorem main_turn.alone {io : Io} (h : s.main_turn c io = some t) : t.queue = s.queue ∧
    t.closers = s.closers ∧ t.closing = s.closing ∧ t.close_error = s.close_error := by
  unfold main_turn at h
  split at h
  · split_ifs at h <;> cases h <;> exact ⟨rfl, rfl, rfl, rfl⟩
  · split_ifs at h <;> cases h <;> exact ⟨rfl, rfl, rfl, rfl⟩
  · split_ifs at h <;> cases h <;> exact ⟨rfl, rfl, rfl, rfl⟩
  · split_ifs at h <;> cases h <;> exact ⟨rfl, rfl, rfl, rfl⟩
  · cases h

theorem step_winding {ev : Event c.count} (h : step c s ev = some t) (hs : Winding s) : Winding t := by
  cases ev with
  | camera i io =>
    obtain ⟨⟨l, e⟩, hturn, rfl⟩ := Option.map_eq_some_iff.mp h
    exact hs.before (hs.sender_of_live (.inl ⟨i, (Lane.turn.spec hturn).live⟩)) rfl rfl rfl
  | allocator io =>
    obtain ⟨hlive, hcloser, hmain, hclosers, -⟩ := allocator_turn.alone h
    exact hs.before (hs.sender_of_live (.inr hlive)) hcloser hmain hclosers
  | closer k io => exact closer_winding h hs
  | main io => exact main_winding h hs
  | interrupt =>
    cases h
    exact hs.same rfl rfl rfl rfl rfl fun _ => ⟨rfl, rfl⟩
  | tick now =>
    simp only [step] at h
    split_ifs at h
    cases h
    exact hs.same rfl rfl rfl rfl rfl fun _ => ⟨rfl, rfl⟩
  | advance =>
    simp only [step] at h
    split_ifs at h
    cases h
    exact hs.same rfl rfl rfl rfl rfl fun _ => ⟨rfl, rfl⟩
  | prune i q =>
    simp only [step] at h
    split_ifs at h
    cases h
    refine hs.same rfl rfl rfl rfl rfl fun j => ?_
    show (Function.update s.lanes i _ j).pc = _ ∧ (Function.update s.lanes i _ j).value = _
    by_cases hj : j = i
    · subst hj
      simp [Lane.pruned]
    · simp [hj]
  | deleted count =>
    simp only [step] at h
    split_ifs at h
    cases h
    exact hs.same rfl rfl rfl rfl rfl fun _ => ⟨rfl, rfl⟩

theorem init_winding (c : Setup) : Winding (init c) := by
  refine ⟨by simp [init], fun h => (by cases h), fun h => ?_, by simp [init], fun h => (by cases h)⟩
  simp [init, CLOSERS] at h

/-! ## What is open is in somebody's hands -/

/-- A camera or a closer has failed. -/
def Troubled (s : State c.count) (i : Fin c.count) : Prop :=
  (s.lanes i).pc = .ended false ∨ s.close_error = true ∨ ∃ (k : Nat) (pc : Closer c.count), s.closers[k]? = some pc ∧ pc.Failed

/-- A recording that is not closed is held by the camera that took it, or waits to be closed,
unless one of the two has failed. -/
def Traced (s : State c.count) : Prop := ∀ i q r, (s.lanes i).files q = some r → r.pending = true →
  q ≤ (s.lanes i).taken → (s.lanes i).current = some q ∨ (i, q) ∈ s.closings.map Closing.key ∨ s.Troubled i

/-- What is open after a step was open before it, and is in the same hands. -/
theorem Traced.kept (hs : Traced s) (hcurrent : ∀ j, (t.lanes j).current = (s.lanes j).current)
    (htaken : ∀ j, (t.lanes j).taken = (s.lanes j).taken)
    (hopen : ∀ j q r, q ≤ (s.lanes j).taken → (t.lanes j).files q = some r → r.pending = true →
      (s.lanes j).files q = some r ∧
        ((j, q) ∈ s.closings.map Closing.key → (j, q) ∈ t.closings.map Closing.key))
    (htrouble : ∀ j, s.Troubled j → t.Troubled j) : Traced t := by
  intro j q r hr hpending hq
  rw [htaken] at hq
  obtain ⟨hr, hwaits⟩ := hopen j q r hq hr hpending
  rw [hcurrent]
  exact (hs j q r hr hpending hq).imp_right (.imp hwaits (htrouble j))

/-- The files are left alone, and trouble stays trouble. -/
theorem Traced.spared (hs : Traced s) (hspares : Spared s t) (hperm : t.closings.Perm s.closings)
    (htrouble : ∀ i, s.Troubled i → t.Troubled i) : Traced t := by
  refine hs.kept (fun i => (hspares i).current) (fun i => (hspares i).taken)
    (fun i q r hq hr _ => ⟨?_, (hperm.map Closing.key).mem_iff.mpr⟩) htrouble
  rwa [(hspares i).files q hq] at hr

/-- What a closer that goes on leaves in trouble. -/
theorem troubled_set {i : Fin c.count} {k : Nat} {pc pc' : Closer c.count} (hpc : s.closers[k]? = some pc)
    (hlanes : (t.lanes i).pc = (s.lanes i).pc) (herror : s.close_error = true → t.close_error = true)
    (hclosers : t.closers = s.closers.set k pc')
    (hfailed : pc.Failed → pc'.Failed ∨ t.close_error = true) (h : s.Troubled i) : t.Troubled i := by
  obtain ⟨hk, -⟩ := List.getElem?_eq_some_iff.mp hpc
  rcases h with h | h | ⟨j, pcj, hj, hfail⟩
  · exact .inl (hlanes ▸ h)
  · exact .inr (.inl (herror h))
  · by_cases hjk : k = j
    · subst hjk
      rw [hpc] at hj
      obtain rfl := Option.some.inj hj
      rcases hfailed hfail with h | h
      · exact .inr (.inr ⟨k, pc', by rw [hclosers, List.getElem?_set_self hk], h⟩)
      · exact .inr (.inl h)
    · exact .inr (.inr ⟨j, pcj, by rw [hclosers, List.getElem?_set_ne hjk, hj], hfail⟩)

theorem camera_traced {i : Fin c.count} {l : Lane} {e : Effect c.count}
    (h : (s.lanes i).Turned c i (s.view c) l e) (hgood : Recorded c s) (hs : Traced s) :
    Traced ((s.lane i l).apply e) := by
  have hlanes : ((s.lane i l).apply e).lanes = Function.update s.lanes i l := rfl
  have hmem : ∀ cl, cl ∈ ((s.lane i l).apply e).closings ↔ cl ∈ s.closings ∨ cl ∈ e.sends.toList := fun cl => by
    have hclosings : ((s.lane i l).apply e).closings = s.queue ++ e.sends.toList ++ s.held := rfl
    rw [hclosings, closings, List.mem_append, List.mem_append, List.mem_append]
    exact or_right_comm
  have hold : ∀ {key}, key ∈ s.closings.map Closing.key → key ∈ ((s.lane i l).apply e).closings.map Closing.key := by
    intro key hkey
    obtain ⟨cl, hcl, rfl⟩ := List.mem_map.mp hkey
    exact List.mem_map_of_mem ((hmem cl).mpr (.inl hcl))
  intro j q r hr hpending hq
  rw [hlanes] at hr hq ⊢
  by_cases hj : j = i
  · subst hj
    rw [Function.update_self] at hr hq ⊢
    rcases h.traces (hgood.lanes j) hr hq with hcurrent | ⟨cl, hcl, hkey⟩ | hfailed | ⟨hq', hthrough, hr'⟩
    · exact .inl hcurrent
    · right
      left
      rw [← hkey]
      exact List.mem_map_of_mem ((hmem cl).mpr (.inr (by simpa using hcl)))
    · right
      right
      left
      rw [hlanes, Function.update_self]
      exact hfailed
    · rcases hs j q r hr' hpending hq' with hcurrent | hkey | htrouble
      · exact absurd hcurrent hthrough
      · exact .inr (.inl (hold hkey))
      · right
        right
        rcases htrouble with hended | htrouble
        · exact absurd hended (h.live false)
        · exact .inr htrouble
  · rw [Function.update_of_ne hj] at hr hq ⊢
    refine (hs j q r hr hpending hq).imp_right (Or.imp hold ?_)
    intro htrouble
    rcases htrouble with hended | htrouble
    · left
      rw [hlanes, Function.update_of_ne hj]
      exact hended
    · exact .inr htrouble

/-- A closer finishes a recording: it is open no more, and the others are where they were. -/
theorem finished_traced {k : Nat} {cl : Closing c.count} {now : Nat} (hs : Traced s)
    (hpc : s.closers[k]? = some (.finishing cl)) : Traced
      ((s.lane cl.camera ((s.lanes cl.camera).closed cl.sequence now)).closer_at k (.counting true)) := by
  set t := (s.lane cl.camera ((s.lanes cl.camera).closed cl.sequence now)).closer_at k (.counting true)
    with ht
  have hsame := same_update s cl.camera (Lane.closed_same _ cl.sequence now)
  have hperm : (t.closings ++ [cl]).Perm s.closings := closings_finished hpc rfl rfl
  have hkept : ∀ {key}, key ≠ cl.key → key ∈ s.closings.map Closing.key →
      key ∈ t.closings.map Closing.key := fun hne hmem => by
    have hmem := (hperm.map Closing.key).mem_iff.mpr hmem
    rw [List.map_append] at hmem
    exact (List.mem_append.mp hmem).resolve_right fun h => hne (List.mem_singleton.mp h)
  refine hs.kept (fun j => (hsame j).current) ?_ ?_ fun j => ?_
  · exact (Function.forall_update_iff s.lanes fun j l => l.taken = (s.lanes j).taken).mpr
      ⟨rfl, fun _ _ => rfl⟩
  · refine (Function.forall_update_iff s.lanes fun j l => ∀ q r, q ≤ (s.lanes j).taken →
      l.files q = some r → r.pending = true → (s.lanes j).files q = some r ∧
        ((j, q) ∈ s.closings.map Closing.key → (j, q) ∈ t.closings.map Closing.key)).mpr
          ⟨fun q r _ hr hpending => ?_, fun j hj q r _ hr _ => ?_⟩
    · obtain ⟨hq, hr⟩ := Lane.closed_files hr hpending
      exact ⟨hr, hkept fun hkey => hq (congrArg Prod.snd hkey)⟩
    · exact ⟨hr, hkept fun hkey => hj (congrArg Prod.fst hkey)⟩
  · exact troubled_set (t := t) hpc (hsame j).pc id rfl fun hfail => by simp [Closer.Failed] at hfail

theorem closer_traced {k : Nat} {io : Io} (h : s.closer_turn c k io = some t) (hs : Traced s) : Traced t := by
  unfold closer_turn at h
  obtain ⟨pc, hpc, h⟩ := Option.bind_eq_some_iff.mp h
  cases pc with
  | idle =>
    have hidle : ∀ pc' : Closer c.count, ¬ (Closer.idle : Closer c.count).Failed := by simp [Closer.Failed]
    dsimp only at h
    cases hqueue : s.queue with
    | nil =>
      rw [hqueue] at h
      simp only at h
      split_ifs at h
      · cases h
        exact hs
      · cases h
        exact hs.spared (.same rfl) (closings_perm hpc rfl rfl (.refl _)) fun i =>
          troubled_set hpc rfl id rfl fun hfail => absurd hfail (hidle .idle)
    | cons cl queue =>
      rw [hqueue] at h
      cases h
      exact hs.spared (.same rfl) (closings_taken hpc hqueue rfl rfl) fun i =>
        troubled_set hpc rfl id rfl fun hfail => absurd hfail (hidle .idle)
  | finishing cl =>
    obtain ⟨hk, -⟩ := List.getElem?_eq_some_iff.mp hpc
    dsimp only at h
    split_ifs at h with hok
    · cases h
      exact finished_traced hs hpc
    · cases h
      intro i q r hr hpending hq
      refine .inr (.inr (.inr (.inr ⟨k, .counting false, ?_, .inl rfl⟩)))
      exact List.getElem?_set_self hk
  | counting ok =>
    cases h
    refine hs.spared (.same rfl) (closings_perm hpc rfl rfl (.refl _)) fun i =>
      troubled_set hpc rfl id rfl fun hfail => ?_
    left
    right
    rcases hfail with hfail | hfail
    · rw [Closer.counting.inj hfail]
    · cases hfail
  | reporting ok =>
    dsimp only at h
    split_ifs at h with hok hend
    · cases h
      refine hs.spared (.same rfl) (closings_perm hpc rfl rfl (.refl _)) fun i =>
        troubled_set hpc rfl id rfl fun hfail => ?_
      simp [Closer.Failed, hok.1] at hfail
    · cases h
      refine hs.spared (.same rfl) (closings_perm hpc rfl rfl (.refl _)) fun i =>
        troubled_set hpc rfl id rfl fun hfail => ?_
      simp [Closer.Failed, hok.1] at hfail
    · cases h
      exact hs.spared (.same rfl) (closings_perm hpc rfl rfl (.refl _)) fun i =>
        troubled_set hpc rfl (fun _ => rfl) rfl fun _ => .inr rfl
  | ended => cases h

theorem step_traced {ev : Event c.count} (h : step c s ev = some t) (hgood : Recorded c s)
    (hs : Traced s) : Traced t := by
  cases ev with
  | camera i io =>
    obtain ⟨⟨l, e⟩, hturn, rfl⟩ := Option.map_eq_some_iff.mp h
    exact camera_traced (Lane.turn.spec hturn) hgood hs
  | allocator io =>
    obtain ⟨-, -, -, hclosers, hqueue, -, herror⟩ := allocator_turn.alone h
    have hcalm := allocator_turn.calm h
    refine hs.spared (allocator_recorded h hgood).2 ?_ fun i htrouble => ?_
    · rw [closings, closings, held, held, hclosers, hqueue]
    · unfold Troubled
      rw [(hcalm.lanes i).pc, herror, hclosers]
      exact htrouble
  | closer k io => exact closer_traced h hs
  | main io =>
    obtain ⟨hqueue, hclosers, -, herror⟩ := main_turn.alone h
    have hcalm := main_turn.calm h
    refine hs.spared (main_recorded h hgood).2 ?_ fun i htrouble => ?_
    · rw [closings, closings, held, held, hclosers, hqueue]
    · unfold Troubled
      rw [(hcalm.lanes i).pc, herror, hclosers]
      exact htrouble
  | prune i q =>
    simp only [step] at h
    split_ifs at h
    cases h
    have hsame := same_update s i (l := (s.lanes i).pruned q) ⟨rfl, rfl, rfl, rfl, rfl, rfl⟩
    refine hs.kept (fun j => (hsame j).current) ?_ ?_ fun j => Or.imp_left (hsame j).pc.trans
    · exact (Function.forall_update_iff s.lanes fun j l => l.taken = (s.lanes j).taken).mpr
        ⟨rfl, fun _ _ => rfl⟩
    · refine (Function.forall_update_iff s.lanes fun j l => ∀ p r, p ≤ (s.lanes j).taken →
        l.files p = some r → r.pending = true → (s.lanes j).files p = some r ∧
          ((j, p) ∈ s.closings.map Closing.key → (j, p) ∈ s.closings.map Closing.key)).mpr
            ⟨fun p r _ hr _ => ⟨Lane.pruned_files hr, id⟩, fun j _ p r _ hr _ => ⟨hr, id⟩⟩
  | interrupt =>
    cases h
    exact hs
  | tick now =>
    simp only [step] at h
    split_ifs at h
    cases h
    exact hs
  | advance =>
    simp only [step] at h
    split_ifs at h
    cases h
    exact hs
  | deleted count =>
    simp only [step] at h
    split_ifs at h
    cases h
    exact hs

/-! ## The gauge of the recordings to be closed -/

/-- How many closers have a recording that counts. -/
def busy {n : Nat} (s : State n) : Nat := (s.closers.map Closer.busy).sum

/-- The recordings that are counted, and those that a camera which failed left counted. -/
structure Gauged (s : State c.count) : Prop where
  least : ∑ i, (s.lanes i).pc.to_send + s.queue.length + s.busy ≤ s.closing
  most : s.closing ≤ ∑ i, (s.lanes i).pc.to_send + s.queue.length + s.busy + ∑ i, (s.lanes i).failed

theorem Gauged.same (hs : Gauged s) (hlanes : ∀ i, (t.lanes i).pc = (s.lanes i).pc)
    (hgauge : t.closing + s.queue.length + s.busy = s.closing + t.queue.length + t.busy) : Gauged t := by
  have hsend : ∑ i, (t.lanes i).pc.to_send = ∑ i, (s.lanes i).pc.to_send := by simp only [hlanes]
  have hfailed : ∑ i, (t.lanes i).failed = ∑ i, (s.lanes i).failed := by simp only [Lane.failed, hlanes]
  have hleast := hs.least
  have hmost := hs.most
  refine ⟨?_, ?_⟩
  · rw [hsend]
    omega
  · rw [hsend, hfailed]
    omega

theorem camera_gauged {i : Fin c.count} {l : Lane} {e : Effect c.count}
    (h : (s.lanes i).Turned c i (s.view c) l e) (hs : Gauged s) : Gauged ((s.lane i l).apply e) := by
  obtain ⟨hleast, hmost⟩ := h.gauges
  have hlive := h.counts_writes.1
  have hsend := sum_update (fun l => l.pc.to_send) s.lanes i l
  have hfailed := sum_update Lane.failed s.lanes i l
  have hqueue : ((s.lane i l).apply e).queue.length = s.queue.length + e.sends.toList.length := List.length_append
  have hclosing : ((s.lane i l).apply e).closing = s.closing + e.closing := rfl
  have hbusy : ((s.lane i l).apply e).busy = s.busy := rfl
  have hlanes : ((s.lane i l).apply e).lanes = Function.update s.lanes i l := rfl
  have hleast' := hs.least
  have hmost' := hs.most
  refine ⟨?_, ?_⟩
  · rw [hqueue, hclosing, hbusy, hlanes]
    omega
  · rw [hqueue, hclosing, hbusy, hlanes]
    omega

/-- One closer goes on. -/
theorem Gauged.closes {k : Nat} {pc pc' : Closer c.count} (hs : Gauged s) (hpc : s.closers[k]? = some pc)
    (hclosers : t.closers = s.closers.set k pc') (hlanes : ∀ i, (t.lanes i).pc = (s.lanes i).pc)
    (hgauge : pc.busy ≤ s.closing →
      t.closing + s.queue.length + pc.busy = s.closing + t.queue.length + pc'.busy) : Gauged t := by
  have hset := sum_set Closer.busy pc' hpc
  have hmem := List.le_sum_of_mem (List.mem_map_of_mem (f := Closer.busy) (List.mem_of_getElem? hpc))
  have hleast := hs.least
  have hbusy : t.busy + pc.busy = s.busy + pc'.busy := by
    rw [busy, busy, hclosers]
    exact hset
  have hheld : pc.busy ≤ s.busy := hmem
  refine hs.same hlanes ?_
  have := hgauge (by omega)
  omega

theorem closer_gauged {k : Nat} {io : Io} (h : s.closer_turn c k io = some t) (hs : Gauged s) : Gauged t := by
  have hpcs := fun i => ((closer_turn.calm h).lanes i).pc
  unfold closer_turn at h
  obtain ⟨pc, hpc, h⟩ := Option.bind_eq_some_iff.mp h
  cases pc with
  | idle =>
    dsimp only at h
    cases hqueue : s.queue with
    | nil =>
      rw [hqueue] at h
      simp only at h
      split_ifs at h
      · cases h
        exact hs
      · cases h
        exact hs.closes hpc rfl hpcs fun _ => rfl
    | cons cl queue =>
      rw [hqueue] at h
      cases h
      refine hs.closes hpc rfl hpcs fun _ => ?_
      rw [hqueue]
      rfl
  | finishing cl =>
    dsimp only at h
    split_ifs at h
    · cases h
      exact hs.closes hpc rfl hpcs fun _ => rfl
    · cases h
      exact hs.closes hpc rfl hpcs fun _ => rfl
  | counting ok =>
    cases h
    refine hs.closes hpc rfl hpcs fun hpos => ?_
    have hpos : 1 ≤ s.closing := hpos
    show s.closing - 1 + s.queue.length + 1 = s.closing + s.queue.length + 0
    omega
  | reporting ok =>
    dsimp only at h
    split_ifs at h <;> cases h <;> exact hs.closes hpc rfl hpcs fun _ => rfl
  | ended => cases h

theorem step_gauged {ev : Event c.count} (h : step c s ev = some t) (hs : Gauged s) : Gauged t := by
  -- nothing of the queue changes
  have hkeeps : (∀ i, (t.lanes i).pc = (s.lanes i).pc) → t.closing = s.closing → t.queue = s.queue →
      t.closers = s.closers → Gauged t := fun hlanes hclosing hqueue hclosers => by
    refine hs.same hlanes ?_
    rw [hclosing, hqueue, busy, busy, hclosers]
  cases ev with
  | camera i io =>
    obtain ⟨⟨l, e⟩, hturn, rfl⟩ := Option.map_eq_some_iff.mp h
    exact camera_gauged (Lane.turn.spec hturn) hs
  | allocator io =>
    obtain ⟨-, -, -, hclosers, hqueue, hclosing, -⟩ := allocator_turn.alone h
    exact hkeeps (fun i => ((allocator_turn.calm h).lanes i).pc) hclosing hqueue hclosers
  | closer k io => exact closer_gauged h hs
  | main io =>
    obtain ⟨hqueue, hclosers, hclosing, -⟩ := main_turn.alone h
    exact hkeeps (fun i => ((main_turn.calm h).lanes i).pc) hclosing hqueue hclosers
  | interrupt =>
    cases h
    exact hkeeps (fun _ => rfl) rfl rfl rfl
  | tick now =>
    simp only [step] at h
    split_ifs at h
    cases h
    exact hkeeps (fun _ => rfl) rfl rfl rfl
  | advance =>
    simp only [step] at h
    split_ifs at h
    cases h
    exact hkeeps (fun _ => rfl) rfl rfl rfl
  | prune i q =>
    simp only [step] at h
    split_ifs at h
    cases h
    have hsame := same_update s i (l := (s.lanes i).pruned q) ⟨rfl, rfl, rfl, rfl, rfl, rfl⟩
    exact hkeeps (fun j => (hsame j).pc) rfl rfl rfl
  | deleted count =>
    simp only [step] at h
    split_ifs at h
    cases h
    exact hkeeps (fun _ => rfl) rfl rfl rfl

end State

/-! ## What is dropped is removed -/

/-- The system refuses to remove a file of the camera that is dropped in this turn. -/
def Event.keeps {n : Nat} (i : Fin n) : Event n → Prop
  | .allocator io => io.removes i = false
  | .main io => io.removes i = false
  | _ => False

instance Event.keeps.decidable {n : Nat} (i : Fin n) : (e : Event n) → Decidable (e.keeps i)
  | .allocator io => inferInstanceAs (Decidable (io.removes i = false))
  | .main io => inferInstanceAs (Decidable (io.removes i = false))
  | .camera .. | .closer .. | .interrupt | .tick _ | .advance | .prune .. | .deleted _ => isFalse id

namespace Lane

variable {c : Setup} {i : Fin c.count} {hand : Hand} {v : View} {l l' : Lane} {e : Effect c.count}

/-- The next file is gone, unless the allocator has it in its hands or it is in the slot. -/
def Cleared (l : Lane) (hand : Hand) : Prop :=
  l.need = false → hand ≠ .made → l.value = none → l.files l.sequence = none

theorem Cleared.less {hand' : Hand} (h : l.Cleared hand) (hhand : hand' ≠ .made → hand ≠ .made)
    (hneed : l'.need = l.need) (hvalue : l'.value = l.value) (hsequence : l'.sequence = l.sequence)
    (hfiles : ∀ q, l.files q = none → l'.files q = none) : l'.Cleared hand' := by
  unfold Cleared
  rw [hneed, hvalue, hsequence]
  exact fun hasked hmade hempty => hfiles _ (h hasked (hhand hmade) hempty)

theorem stores_none {q p now : Nat} {v : List UInt8} {stage : Stage} (h : l.files p = none) :
    l.stores q v now stage p = none := by
  by_cases hp : p = q
  · subst hp
    simp [Lane.stores, h]
  · simp [Lane.stores, hp, h]

/-- A camera makes no file. -/
theorem Turned.cleared (h : Turned c i v l l' e) (hs : l.Cleared hand) : l'.Cleared hand := by
  cases h with
  | takes p pc hvalue hcurrent hgo hpc =>
    intro hneed
    simp [Lane.takes] at hneed
  | writes p f io hpc hcurrent hok =>
    simp only [Lane.writes, hok, ↓reduceIte]
    exact hs.less id rfl rfl rfl fun q hq => stores_none hq
  | write_fails p f io hpc hcurrent hok =>
    simp only [Lane.writes, hok, Bool.false_eq_true, ↓reduceIte]
    exact hs.less id rfl rfl rfl fun q hq => stores_none hq
  | measures p io hpc hcurrent hrecord =>
    unfold Lane.measures
    cases v.record <;> exact hs.less id rfl rfl rfl fun q hq => hq
  | removes p hpc hcurrent hoffset =>
    refine hs.less id rfl rfl rfl fun q hq => ?_
    by_cases hne : q = p <;> simp [Lane.ends, hne, hq]
  | moves pc ready sample hquiet hwrite => exact hs.less id rfl rfl rfl fun q hq => hq
  | passes hpc hgo hend => exact hs.less id rfl rfl rfl fun q hq => hq
  | gives_up f hpc hkind => exact hs.less id rfl rfl rfl fun q hq => hq
  | counts last hpc => exact hs.less id rfl rfl rfl fun q hq => hq
  | sends p last hpc hcurrent hcloser => exact hs.less id rfl rfl rfl fun q hq => hq
  | closes p hpc hcurrent hoffset => exact hs.less id rfl rfl rfl fun q hq => hq
  | ends hpc hcurrent => exact hs.less id rfl rfl rfl fun q hq => hq
  | fails hhand hcurrent hlive => exact hs.less id rfl rfl rfl fun q hq => hq
  | rotation_fails f w hpc => exact hs.less id rfl rfl rfl fun q hq => hq

theorem Good.requested_cleared (h : l.Good c i hand) {hand' : Hand} : l.requested.Cleared hand' := by
  intro _ _ _
  cases hfile : l.files (l.sequence + 1) with
  | none => exact hfile
  | some r =>
    have := (h.files.numbers _ r hfile).2
    omega

theorem discards_cleared {hand' : Hand} : (l.discards l.sequence true).Cleared hand' := by
  intro _ _ _
  simp [Lane.discards]

theorem Good.dropped_cleared (h : l.Good c i hand) (hs : l.Cleared hand) : (l.dropped true).Cleared hand := by
  cases hvalue : l.value with
  | none =>
    refine hs.less id ?_ ?_ ?_ ?_ <;> simp [Lane.dropped, hvalue]
  | some q =>
    obtain ⟨hq, -⟩ := h.slot.value q hvalue
    intro _ _ _
    simp [Lane.dropped, hvalue, hq, Lane.discards]

end Lane

namespace State

variable {c : Setup} {s t : State c.count} {i : Fin c.count}

/-- In this state the next file of the camera is gone, if it is nobody's. -/
def Clear (i : Fin c.count) (s : State c.count) : Prop := (s.lanes i).Cleared (s.allocator.hand i)

theorem Clear.same (hs : Clear i s) (hlane : t.lanes i = s.lanes i)
    (hhand : t.allocator.hand i ≠ .made → s.allocator.hand i ≠ .made) : Clear i t := by
  unfold Clear
  rw [hlane]
  exact hs.less hhand rfl rfl rfl fun _ hq => hq

/-- One lane changes, and the hands of the allocator are for its camera. -/
theorem Clear.lane {j : Fin c.count} {l : Lane} (hs : Clear i s)
    (hl : j = i → l.Cleared (t.allocator.hand i)) (hlanes : t.lanes = Function.update s.lanes j l)
    (hhand : j ≠ i → t.allocator.hand i ≠ .made → s.allocator.hand i ≠ .made) : Clear i t := by
  by_cases hj : j = i
  · subst hj
    unfold Clear
    rw [hlanes, Function.update_self]
    exact hl rfl
  · refine hs.same ?_ (hhand hj)
    rw [hlanes, Function.update_of_ne (Ne.symm hj)]

theorem allocator_clear {io : Io} (h : s.allocator_turn c io = some t) (hgood : Recorded c s)
    (hremoves : io.removes i = true) (hs : Clear i s) : Clear i t := by
  unfold allocator_turn at h
  split at h
  case h_1 index ha =>
    have hidle : s.allocator.hand i ≠ .made := by simp [ha, Allocator.hand]
    dsimp only at h
    split_ifs at h with hindex hstop hneed hstop'
    · cases h
      exact hs.same rfl fun _ => hidle
    · cases h
      refine hs.lane (fun hj => ?_) rfl fun _ _ => hidle
      subst hj
      exact (hgood.lanes _).requested_cleared
    · cases h
      exact hs.same rfl fun _ => hidle
    · cases h
      exact hs.same rfl fun _ => hidle
    · cases h
      exact hs.same rfl fun _ => hidle
  case h_2 j ha =>
    have hasked : s.allocator.hand i ≠ .made := by
      simp only [ha, Allocator.hand]
      split <;> simp
    split_ifs at h with hok
    · cases h
      exact hs.lane (fun hj hneed hmade => absurd (by simp [Allocator.hand, hj]) hmade) rfl fun _ _ => hasked
    · cases h
      refine hs.lane (fun hj => ?_) rfl fun _ _ => hasked
      subst hj
      simp only [Lane.gives_up, hremoves, ↓reduceIte]
      exact hs.less (fun _ => hasked) rfl rfl rfl fun _ hq => hq
  case h_3 j ha =>
    split_ifs at h
    · cases h
      refine hs.lane (fun hj => ?_) rfl fun hj _ => by simp [ha, Allocator.hand, hj]
      subst hj
      rw [hremoves]
      exact Lane.discards_cleared
    all_goals
      cases h
      exact hs.same rfl fun hmade => by simpa [ha, Allocator.hand] using hmade
  case h_4 j ha =>
    split_ifs at h
    · cases h
      refine hs.lane (fun hj => ?_) rfl fun hj _ => by simp [ha, Allocator.hand, hj]
      subst hj
      rw [hremoves]
      exact Lane.discards_cleared
    · cases h
      exact hs.same rfl fun hmade => by simpa [ha, Allocator.hand] using hmade
  case h_5 j ha =>
    cases h
    exact hs.lane (fun hj _ _ hvalue => by simp [Lane.placed] at hvalue) rfl
      fun hj _ => by simp [ha, Allocator.hand, hj]
  case h_6 => cases h

theorem main_clear {io : Io} (h : s.main_turn c io = some t) (hgood : Recorded c s)
    (hremoves : io.removes i = true) (hs : Clear i s) : Clear i t := by
  unfold main_turn at h
  split at h
  case h_4 =>
    split_ifs at h
    · cases h
      show ((s.lanes i).dropped (io.removes i)).Cleared _
      rw [hremoves]
      exact (hgood.lanes i).dropped_cleared hs
    · cases h
      exact hs
  case h_5 => cases h
  all_goals split_ifs at h <;> cases h <;> exact hs.same rfl id

theorem closer_clear {k : Nat} {io : Io} (h : s.closer_turn c k io = some t) (hs : Clear i s) : Clear i t := by
  obtain ⟨pc, hpc, h⟩ := Option.bind_eq_some_iff.mp h
  cases pc with
  | idle =>
    dsimp only at h
    split at h
    · cases h
      exact hs.same rfl id
    · split_ifs at h <;> cases h <;> exact hs.same rfl id
  | finishing cl =>
    dsimp only at h
    split_ifs at h
    · cases h
      refine hs.lane (fun hj => ?_) rfl fun _ => id
      subst hj
      refine Lane.Cleared.less hs id rfl rfl rfl fun q hq => ?_
      by_cases hne : q = cl.sequence
      · subst hne
        simp [Lane.closed, hq]
      · simp [Lane.closed, hne, hq]
    · cases h
      exact hs.same rfl id
  | counting ok =>
    cases h
    exact hs.same rfl id
  | reporting ok =>
    dsimp only at h
    split_ifs at h <;> cases h <;> exact hs.same rfl id
  | ended => cases h

/-- While the system removes what is dropped, no file is left that is nobody's. -/
theorem step_clear {ev : Event c.count} (h : step c s ev = some t) (hgood : Recorded c s)
    (hremoves : ¬ ev.keeps i) (hs : Clear i s) : Clear i t := by
  cases ev with
  | camera j io =>
    obtain ⟨⟨l, e⟩, hturn, rfl⟩ := Option.map_eq_some_iff.mp h
    refine hs.lane (fun hj => ?_) rfl fun _ => id
    subst hj
    exact (Lane.turn.spec hturn).cleared hs
  | allocator io => exact allocator_clear h hgood (by simpa [Event.keeps] using hremoves) hs
  | closer k io => exact closer_clear h hs
  | main io => exact main_clear h hgood (by simpa [Event.keeps] using hremoves) hs
  | prune j q =>
    simp only [step] at h
    split_ifs at h
    cases h
    refine hs.lane (fun hj => ?_) rfl fun _ => id
    subst hj
    refine Lane.Cleared.less hs id rfl rfl rfl fun p hp => ?_
    by_cases hne : p = q
    · subst hne
      simp [Lane.pruned, hp]
    · simp [Lane.pruned, hne, hp]
  | interrupt =>
    cases h
    exact hs.same rfl id
  | _ =>
    simp only [step] at h
    split_ifs at h
    cases h
    exact hs.same rfl id

end State

namespace State

variable {c : Setup} {s t : State c.count}

/-! ## The whole run -/

/-- What holds of the hand-over in every state. -/
structure HandedOver (c : Setup) (s : State c.count) : Prop where
  recorded : Recorded c s
  winding : Winding s
  traced : Traced s
  gauged : Gauged s

theorem init_handed_over (c : Setup) : HandedOver c (init c) := by
  refine ⟨init_recorded c, init_winding c, fun i q r hr => (by cases hr), ⟨?_, ?_⟩⟩
  · simp [init, Pc.to_send, busy, CLOSERS, Closer.busy]
  · exact Nat.zero_le _

theorem step_handed_over {ev : Event c.count} (h : step c s ev = some t) (hs : HandedOver c s) :
    HandedOver c t :=
  ⟨step_recorded h hs.recorded, step_winding h hs.winding, step_traced h hs.recorded hs.traced,
    step_gauged h hs.gauged⟩

theorem run_handed_over {es : List (Event c.count)} (hrun : machine.run (step c) (init c) es = some s) :
    HandedOver c s :=
  machine.invariant (fun _ _ _ hs hstep => step_handed_over hstep hs) hrun (init_handed_over c)

/-- Where a file is left that is nobody's, the system has refused to remove one. -/
theorem run_clear {es : List (Event c.count)} {i : Fin c.count}
    (hrun : machine.run (step c) (init c) es = some s) (hremoves : ∀ e ∈ es, ¬ e.keeps i) : Clear i s := by
  have hstep : ∀ s (e : Event c.count) t, HandedOver c s ∧ Clear i s → ¬ e.keeps i → step c s e = some t →
      HandedOver c t ∧ Clear i t := fun _ _ _ hs hremoves hstep =>
    ⟨step_handed_over hstep hs.1, step_clear hstep hs.1.recorded hremoves hs.2⟩
  have hinit : Clear i (init c) := fun _ _ _ => rfl
  exact (machine.invariant_along hstep hrun
    (machine.along_of_mem _ (fun e he _ => hremoves e he) _) ⟨init_handed_over c, hinit⟩).2

/-- When the main thread is through, every thread has ended, the queue is empty and no closer has
a recording in its hands. -/
theorem Winding.ended_all (hs : Winding s) (hmain : s.main = .ended) :
    s.all_joined ∧ s.queue = [] ∧ ∀ pc ∈ s.closers, pc = .ended := by
  have hclosed := hs.sender.mpr (.inr hmain)
  obtain ⟨hall, -⟩ := hs.ended hmain
  refine ⟨hs.joined hclosed, ?_, hall⟩
  cases hclosers : s.closers with
  | nil =>
    have := hs.count
    rw [hclosers] at this
    simp [CLOSERS] at this
  | cons pc closers =>
    have hmem : pc ∈ s.closers := by simp [hclosers]
    exact (hs.closers (hall pc hmem ▸ hmem)).2

theorem HandedOver.closed (hs : HandedOver c s) (hmain : s.main = .ended) {i : Fin c.count} {q : Nat}
    {r : Recording} (hr : (s.lanes i).files q = some r) (htaken : q ≤ (s.lanes i).taken) :
    r.pending = false ∨ (s.lanes i).pc = .ended false ∨ s.close_error = true := by
  obtain ⟨⟨hjoined, -⟩, hqueue, hclosers⟩ := hs.winding.ended_all hmain
  have hgood := hs.recorded.lanes i
  cases hpending : r.pending with
  | false => exact .inl rfl
  | true =>
    right
    rcases hs.traced i q r hr hpending htaken with hcurrent | hwaits | hfailed | herror | ⟨k, pc, hk, hfail⟩
    · obtain ⟨ok, hpc⟩ := (Pc.matches_ended _).mp (hjoined i)
      have hheld := hgood.thread.held
      unfold Lane.Held at hheld
      rw [hpc] at hheld
      simp [hheld] at hcurrent
    · have hnone : s.held = [] := List.filterMap_eq_nil_iff.mpr fun pc hpc => by
        rw [hclosers pc hpc]
        rfl
      simp [closings, hqueue, hnone] at hwaits
    · exact .inl hfailed
    · exact .inr herror
    · rw [hclosers pc (List.mem_of_getElem? hk)] at hfail
      simp [Closer.Failed] at hfail

/-- A file that no camera took is the next one of its camera; it is not closed, and the system has
refused to remove a file of this camera. -/
theorem HandedOver.untaken (hs : HandedOver c s) (hmain : s.main = .ended) {i : Fin c.count} {q : Nat}
    {r : Recording} (hr : (s.lanes i).files q = some r) (htaken : (s.lanes i).taken < q) :
    q = (s.lanes i).taken + 1 ∧ r.pending = true ∧ ¬ (s.lanes i).Cleared (s.allocator.hand i) := by
  obtain ⟨⟨-, hallocator⟩, -⟩ := hs.winding.ended_all hmain
  have hgood := hs.recorded.lanes i
  have hle := (hgood.files.numbers q r hr).2
  cases hneed : (s.lanes i).need with
  | true =>
    rw [Lane.taken_needed hneed] at htaken
    omega
  | false =>
    have hpos := hgood.slot.asked hneed
    rw [Lane.taken_asked hneed] at htaken ⊢
    obtain rfl : q = (s.lanes i).sequence := by omega
    refine ⟨by omega, hgood.files.next_pending hneed hr, fun hcleared => ?_⟩
    obtain ⟨ok, ha⟩ := (Allocator.matches_ended _).mp hallocator
    have hidle : s.allocator.hand i ≠ .made := by simp [ha, Allocator.hand]
    have hnone := hcleared hneed hidle ((hs.winding.ended hmain).2 i)
    rw [hnone] at hr
    cases hr

theorem HandedOver.none_counted (hs : HandedOver c s) (hmain : s.main = .ended) :
    s.closing ≤ ∑ i, (s.lanes i).failed := by
  obtain ⟨⟨hjoined, -⟩, hqueue, hclosers⟩ := hs.winding.ended_all hmain
  have hmost := hs.gauged.most
  have hsend : ∑ i, (s.lanes i).pc.to_send = 0 := by
    refine Finset.sum_eq_zero fun i _ => ?_
    obtain ⟨ok, hpc⟩ := (Pc.matches_ended _).mp (hjoined i)
    rw [hpc]
    rfl
  have hbusy : s.busy = 0 := by
    refine List.sum_eq_zero fun n hn => ?_
    obtain ⟨pc, hpc, rfl⟩ := List.mem_map.mp hn
    rw [hclosers pc hpc]
    rfl
  rw [hqueue, hsend, hbusy] at hmost
  simpa using hmost

end State

/-- In every run, a recording that is not closed is in the hands of its camera or waits for a
closer, unless one of the two has failed; each waits once, and the gauge counts those that wait.
So when the main thread is through, what a camera took is closed, but for the cameras and the closers
that failed, and the gauge counts no more than these cameras. A file that no camera took is on the disk
only if the system has refused to remove one of this camera, and then it is the next one. -/
theorem a_run_leaves_no_recording_open_unless_a_thread_fails (c : Setup) (es : List (Event c.count))
    (s : State c.count) (hrun : machine.run (step c) (init c) es = some s) :
    s.HandedOver c ∧ (s.main = .ended →
      (∀ i q r, (s.lanes i).files q = some r →
        (q ≤ (s.lanes i).taken ∧
          (r.pending = false ∨ (s.lanes i).pc = .ended false ∨ s.close_error = true)) ∨
        (q = (s.lanes i).taken + 1 ∧ r.pending = true ∧ ∃ e ∈ es, e.keeps i)) ∧
      s.closing ≤ ∑ i, (s.lanes i).failed) := by
  have hs := State.run_handed_over hrun
  refine ⟨hs, fun hmain => ⟨fun i q r hr => ?_, hs.none_counted hmain⟩⟩
  rcases Nat.lt_or_ge (s.lanes i).taken q with htaken | htaken
  · obtain ⟨hnext, hpending, hleft⟩ := hs.untaken hmain hr htaken
    refine .inr ⟨hnext, hpending, ?_⟩
    by_contra hnot
    exact hleft (State.run_clear hrun fun e he hkeeps => hnot ⟨e, he, hkeeps⟩)
  · exact .inl ⟨htaken, hs.closed hmain hr htaken⟩

/-- The two frames, and then the run is interrupted and every thread ends. -/
def whole_run : List (Event one_camera.count) :=
  two_frames ++ [.interrupt] ++ List.replicate 2 (.camera the_camera {}) ++ [.allocator {}] ++
    List.replicate 2 (.main {}) ++ (List.range CLOSERS).map (fun k => .closer k {}) ++ [.main {}]

theorem whole_run_ends : (machine.run (step one_camera) (init one_camera) whole_run).any
    (fun s => decide (s.main = .ended)) = true := by decide +kernel

/-- The system removes every file that is dropped. -/
theorem whole_run_removes : ∀ e ∈ whole_run, ¬ e.keeps the_camera := by decide +kernel

theorem the_whole_run_leaves_its_recording_closed : ∃ s,
    machine.run (step one_camera) (init one_camera) whole_run = some s ∧ s.main = .ended ∧
    ∀ q r, (s.lanes the_camera).files q = some r →
      r.pending = false ∨ (s.lanes the_camera).pc = .ended false ∨ s.close_error = true := by
  obtain ⟨s, hs, hmain⟩ := (Option.any_eq_true _ _).mp whole_run_ends
  have hmain : s.main = .ended := by simpa using hmain
  have h := ((a_run_leaves_no_recording_open_unless_a_thread_fails one_camera whole_run s hs).2 hmain).1
  refine ⟨s, hs, hmain, fun q r hr => ?_⟩
  obtain ⟨-, hclosed⟩ | ⟨-, -, e, he, hkeeps⟩ := h the_camera q r hr
  · exact hclosed
  · exact absurd hkeeps (whole_run_removes e he)

end stutools.cctv
