-- The run can always be brought to its end: no thread gets stuck, and once the run stops each of
-- their turns takes something off what remains, in whatever order they go on.
import Stutools.CctvShutdown

open Finset

namespace stutools.cctv

namespace Pc

/-- How far a camera is from its end once the run stops. What it sends to the closers is worth the
turns that they take for it. -/
def remaining : Pc → Nat
  | .ended _ => 0
  | .sending true => 5
  | .recording true _ => 6
  | .closing true => 7
  | .leaving => 8
  | .top => 9
  | .sending false => 14
  | .recording false _ => 15
  | .closing false => 16
  | .measuring => 17
  | .writing _ => 18
  | .ready _ => 19
  | .rotated _ _ => 20
  | .rotating _ _ => 21
  | .unstarted => 22
  | .waiting => 23
  | .counted => 24
  | .first => 25

theorem Quiet.lt {pc pc' : Pc} (h : Quiet true pc pc') : pc'.remaining < pc.remaining := by
  cases h with
  | first hgo => cases hgo
  | waiting hgo => cases hgo
  | rotating f w hgo => cases hgo
  | sending last depth => cases last <;> simp [remaining]
  | _ => simp [remaining]

end Pc

/-- How far the allocator is from its end. -/
def Allocator.remaining {n : Nat} : Allocator n → Nat
  | .ended _ => 0
  | .scan index => if index < n then 2 else 1
  | .storing _ => 3
  | .placing _ => 4
  | .recording _ => 5
  | .preparing _ => 6

/-- How far a closer is from its end, when the queue is empty. -/
def Closer.remaining {n : Nat} : Closer n → Nat
  | .ended => 0
  | .idle => 1
  | .reporting _ => 2
  | .counting _ => 3
  | .finishing _ => 4

def Main.remaining : Main → Nat
  | .ended => 0
  | .closing => 1
  | .joining => 2
  | .measuring => 3
  | .preparing => 4

/-- A turn of a thread. -/
def Event.turns {n : Nat} : Event n → Bool
  | .camera _ _ | .allocator _ | .closer _ _ | .main _ => true
  | _ => false

namespace Lane

variable {c : Setup} {i : Fin c.count} {hand : Hand} {v : View} {l l' : Lane} {e : Effect c.count}

/-- Once the run stops, every turn takes a camera on. -/
theorem Turned.winds (h : Turned c i v l l' e) (hstop : v.stopping = true) :
    l'.pc.remaining + 4 * e.sends.toList.length < l.pc.remaining := by
  cases h with
  | moves pc ready sample hquiet hwrite =>
    rw [hstop] at hquiet
    simpa using hquiet.lt
  | takes q pc hvalue hcurrent hgo hpc => simp [hstop] at hgo
  | passes hpc hgo hend => simp [hstop] at hgo
  | gives_up f hpc hkind =>
    rcases hkind with ⟨⟨w, hpc⟩, -⟩ | hpc <;> simp [hpc, Pc.remaining]
  | writes q f io hpc hcurrent hok => simp [Lane.writes, hok, hpc, Pc.remaining]
  | write_fails q f io hpc hcurrent hok =>
    simp [Lane.writes, hok, hpc, Pc.remaining, Lane.fails, Lane.ends]
  | measures q io hpc hcurrent hrecord =>
    unfold Lane.measures
    cases hr : v.record with
    | refused => exact absurd hr hrecord
    | _ =>
      dsimp only
      split_ifs <;> simp [hpc, Pc.remaining]
  | counts last hpc => cases last <;> simp [hpc, Pc.remaining]
  | sends q last hpc hcurrent hcloser => cases last <;> simp [hpc, Pc.remaining, Lane.sends]
  | closes q hpc hcurrent hoffset => simp [hpc, Pc.remaining]
  | removes q hpc hcurrent hoffset =>
    rcases hpc with hpc | hpc <;> simp [hpc, Pc.remaining, Lane.ends]
  | ends hpc hcurrent => rcases hpc with hpc | hpc <;> simp [hpc, Pc.remaining, Lane.ends]
  | fails hhand hcurrent hlive =>
    have hpos : 0 < l.pc.remaining := by
      unfold Pc.remaining
      split
      · rename_i ok hpc
        exact absurd hpc (hlive ok)
      all_goals omega
    simpa [Lane.ends, Pc.remaining] using hpos
  | rotation_fails f w hpc => simp [hpc, Pc.remaining, Lane.fails, Lane.ends]

/-- A camera that has not ended can take a turn. -/
theorem Good.turns (h : l.Good c i hand) (hlive : ∀ ok, l.pc ≠ .ended ok) (v : View) (io : Io) :
    ∃ r, l.turn c i v io = some r := by
  have hheld := h.thread.held
  unfold Held at hheld
  cases hpc : l.pc with
  | ended ok => exact absurd hpc (hlive ok)
  | top =>
    unfold Lane.turn
    rw [hpc]
    dsimp only
    split_ifs <;> exact ⟨_, rfl⟩
  | first =>
    rw [hpc] at hheld
    unfold Lane.turn
    rw [hpc, hheld.1]
    unfold turn_without
    rw [hpc]
    dsimp only
    split_ifs
    · exact ⟨_, rfl⟩
    · split <;> exact ⟨_, rfl⟩
  | rotating f w =>
    rw [hpc] at hheld
    unfold Lane.turn
    rw [hpc, hheld.1]
    unfold turn_without
    rw [hpc]
    dsimp only
    split_ifs
    · exact ⟨_, rfl⟩
    · split <;> exact ⟨_, rfl⟩
  | leaving =>
    rw [hpc] at hheld
    unfold Lane.turn
    rw [hpc]
    rcases hheld with ⟨hcurrent, -⟩ | ⟨hcurrent, -⟩
    · rw [hcurrent]
      unfold turn_without
      rw [hpc]
      exact ⟨_, rfl⟩
    · rw [hcurrent]
      unfold turn_with
      rw [hpc]
      exact ⟨_, rfl⟩
  | rotated f w =>
    rw [hpc] at hheld
    unfold Lane.turn
    rw [hpc, hheld.1]
    unfold turn_with
    rw [hpc]
    dsimp only
    split <;> exact ⟨_, rfl⟩
  | ready f =>
    rw [hpc] at hheld
    unfold Lane.turn
    rw [hpc, hheld.1]
    unfold turn_with
    rw [hpc]
    dsimp only
    split_ifs <;> exact ⟨_, rfl⟩
  | recording last depth =>
    rw [hpc] at hheld
    unfold Lane.turn
    rw [hpc, hheld.1]
    unfold turn_with
    rw [hpc]
    dsimp only
    split <;> exact ⟨_, rfl⟩
  | _ =>
    rw [hpc] at hheld
    unfold Lane.turn
    rw [hpc, hheld.1]
    unfold turn_with
    rw [hpc]
    exact ⟨_, rfl⟩

end Lane

namespace State

variable {c : Setup} {s t : State c.count}

/-- The turns that are left once the run stops. -/
def remaining (s : State c.count) : Nat :=
  ∑ i, (s.lanes i).pc.remaining + s.allocator.remaining + 4 * s.queue.length +
    (s.closers.map Closer.remaining).sum + s.main.remaining

/-- A turn takes something off what remains, or it was one of a thread that waits. -/
def Winds (s t : State c.count) : Prop := t.remaining < s.remaining ∨ t = s

theorem lanes_remaining (h : ∀ i, (t.lanes i).pc = (s.lanes i).pc) :
    ∑ i, (t.lanes i).pc.remaining = ∑ i, (s.lanes i).pc.remaining := by
  simp only [h]

theorem camera_winds {i : Fin c.count} {io : Io} (h : s.camera_turn c i io = some t)
    (hstop : s.stopping = true) : t.remaining < s.remaining := by
  obtain ⟨⟨l, e⟩, hturn, rfl⟩ := Option.map_eq_some_iff.mp h
  have hwinds := (Lane.turn.spec hturn).winds hstop
  have hsum := sum_update (fun l => l.pc.remaining) s.lanes i l
  have hlanes : ((s.lane i l).apply e).lanes = Function.update s.lanes i l := rfl
  have hqueue : ((s.lane i l).apply e).queue.length = s.queue.length + e.sends.toList.length := List.length_append
  show ∑ j, (((s.lane i l).apply e).lanes j).pc.remaining + s.allocator.remaining +
    4 * ((s.lane i l).apply e).queue.length + (s.closers.map Closer.remaining).sum + s.main.remaining < s.remaining
  rw [hlanes, hqueue, remaining]
  omega

theorem allocator_winds {io : Io} (h : s.allocator_turn c io = some t) (hstop : s.stopping = true) :
    t.remaining < s.remaining := by
  have hpcs := lanes_remaining fun i => ((allocator_turn.calm h).lanes i).pc
  obtain ⟨-, -, hmain, hclosers, hqueue, -⟩ := allocator_turn.alone h
  have hallocator : t.allocator.remaining < s.allocator.remaining := by
    unfold allocator_turn at h
    split at h
    case h_1 index ha =>
      rw [ha]
      dsimp only at h
      split_ifs at h with hlt
      · cases h
        simp [Allocator.remaining, hlt]
      · cases h
        simp [Allocator.remaining, hlt, allocator_ends]
    case h_2 i ha =>
      rw [ha]
      split_ifs at h <;> cases h <;> simp [Allocator.remaining, allocator_ends]
    case h_3 i ha =>
      rw [ha]
      split_ifs at h <;> cases h <;> simp [Allocator.remaining, allocator_ends]
    case h_4 i ha =>
      rw [ha]
      split_ifs at h
      cases h
      simp [Allocator.remaining]
    case h_5 i ha =>
      rw [ha]
      cases h
      simp only [Allocator.remaining]
      split_ifs <;> omega
    case h_6 => cases h
  unfold remaining
  rw [hpcs, hmain, hclosers, hqueue]
  omega

theorem closer_winds {k : Nat} {io : Io} (h : s.closer_turn c k io = some t) : Winds s t := by
  have hpcs := lanes_remaining fun i => ((closer_turn.calm h).lanes i).pc
  unfold closer_turn at h
  obtain ⟨pc, hpc, h⟩ := Option.bind_eq_some_iff.mp h
  -- a closer that goes on, for what it takes from the queue
  have hgoes : ∀ pc', t.closers = s.closers.set k pc' → t.allocator = s.allocator → t.main = s.main →
      4 * t.queue.length + pc'.remaining < 4 * s.queue.length + pc.remaining → t.remaining < s.remaining :=
    fun pc' hclosers hallocator hmain hlt => by
      have hset := sum_set Closer.remaining pc' hpc
      unfold remaining
      rw [hpcs, hallocator, hmain, hclosers]
      omega
  cases pc with
  | idle =>
    dsimp only at h
    cases hqueue : s.queue with
    | nil =>
      rw [hqueue] at h
      simp only at h
      split_ifs at h
      · cases h
        exact .inr rfl
      · cases h
        exact .inl (hgoes .ended rfl rfl rfl (by simp [Closer.remaining, closer_at]))
    | cons cl queue =>
      rw [hqueue] at h
      cases h
      refine .inl (hgoes (.finishing cl) rfl rfl rfl ?_)
      rw [hqueue]
      simp only [Closer.remaining, closer_at, List.length_cons]
      omega
  | finishing cl =>
    dsimp only at h
    split_ifs at h
    · cases h
      exact .inl (hgoes (.counting true) rfl rfl rfl (by simp [Closer.remaining, closer_at, lane]))
    · cases h
      exact .inl (hgoes (.counting false) rfl rfl rfl (by simp [Closer.remaining, closer_at]))
  | counting ok =>
    cases h
    exact .inl (hgoes (.reporting ok) rfl rfl rfl (by simp [Closer.remaining, closer_at]))
  | reporting ok =>
    dsimp only at h
    split_ifs at h <;> cases h <;>
      exact .inl (hgoes .idle rfl rfl rfl (by simp [Closer.remaining, closer_at]))
  | ended => cases h

theorem main_winds {io : Io} (h : s.main_turn c io = some t) : Winds s t := by
  have hpcs := lanes_remaining fun i => ((main_turn.calm h).lanes i).pc
  obtain ⟨hqueue, hclosers, -⟩ := main_turn.alone h
  have hgoes : t.allocator = s.allocator → t.main.remaining < s.main.remaining → t.remaining < s.remaining :=
    fun hallocator hlt => by
      unfold remaining
      rw [hpcs, hallocator, hqueue, hclosers]
      omega
  unfold main_turn at h
  split at h
  case h_1 hmain =>
    split_ifs at h
    · cases h
      exact .inl (hgoes rfl (by simp [hmain, Main.remaining]))
    · cases h
      exact .inr rfl
  case h_2 hmain =>
    split_ifs at h
    · cases h
      exact .inl (hgoes rfl (by simp [hmain, Main.remaining]))
    · cases h
      exact .inr rfl
  case h_3 hmain =>
    split_ifs at h
    · cases h
      exact .inl (hgoes rfl (by simp [hmain, Main.remaining]))
    · cases h
      exact .inr rfl
  case h_4 hmain =>
    split_ifs at h
    · cases h
      exact .inl (hgoes rfl (by simp [hmain, Main.remaining]))
    · cases h
      exact .inr rfl
  case h_5 => cases h

theorem step_winds {ev : Event c.count} (h : step c s ev = some t) (hturns : ev.turns = true)
    (hstop : s.stopping = true) : Winds s t := by
  cases ev with
  | camera i io => exact .inl (camera_winds h hstop)
  | allocator io => exact .inl (allocator_winds h hstop)
  | closer k io => exact closer_winds h
  | main io => exact main_winds h
  | _ => cases hturns

/-- The other events leave the threads where they are. -/
theorem step_keeps {ev : Event c.count} (h : step c s ev = some t) (hturns : ev.turns = false) :
    t.remaining = s.remaining := by
  cases ev with
  | interrupt =>
    cases h
    rfl
  | tick now =>
    simp only [step] at h
    split_ifs at h
    cases h
    rfl
  | advance =>
    simp only [step] at h
    split_ifs at h
    cases h
    rfl
  | prune i q =>
    simp only [step] at h
    split_ifs at h
    cases h
    have hsame := same_update s i (l := (s.lanes i).pruned q) ⟨rfl, rfl, rfl, rfl, rfl, rfl⟩
    have hpcs := @lanes_remaining _ s (s.lane i ((s.lanes i).pruned q)) fun j => (hsame j).pc
    unfold remaining
    rw [hpcs]
    rfl
  | deleted count =>
    simp only [step] at h
    split_ifs at h
    cases h
    rfl
  | _ => cases hturns

/-- Nothing takes a stop back. -/
theorem step_stopping {ev : Event c.count} (h : step c s ev = some t) (hstop : s.stopping = true) :
    t.stopping = true := by
  have hsame : t.stop = s.stop → t.interrupted = s.interrupted → t.stopping = true := fun hstop' hint => by
    rw [stopping, hstop', hint]
    exact hstop
  have hstops : t.stop = true → t.stopping = true := fun hstop' => by simp [stopping, hstop']
  cases ev with
  | tick now =>
    simp only [step] at h
    split_ifs at h
    cases h
    exact hsame rfl rfl
  | interrupt =>
    cases h
    simp [stopping]
  | camera i io =>
    obtain ⟨⟨l, e⟩, -, rfl⟩ := Option.map_eq_some_iff.mp h
    simp only [stopping, apply, lane, Bool.or_eq_true] at hstop ⊢
    tauto
  | allocator io =>
    simp only [step, allocator_turn] at h
    split at h
    all_goals
      try dsimp only at h
      try split_ifs at h
    all_goals
      cases h
      try first | exact hsame rfl rfl | exact hstops rfl
  | closer k io =>
    simp only [step, closer_turn] at h
    obtain ⟨pc, -, h⟩ := Option.bind_eq_some_iff.mp h
    split at h
    all_goals
      try split at h
    all_goals
      try split_ifs at h
    all_goals
      cases h
      try first | exact hsame rfl rfl | exact hstops rfl
  | main io =>
    simp only [step, main_turn] at h
    split at h
    all_goals
      try split_ifs at h
    all_goals
      cases h
      try first | exact hsame rfl rfl | exact hstops rfl
  | advance =>
    simp only [step] at h
    split_ifs at h
    cases h
    exact hsame rfl rfl
  | prune i q =>
    simp only [step] at h
    split_ifs at h
    cases h
    exact hsame rfl rfl
  | deleted count =>
    simp only [step] at h
    split_ifs at h
    cases h
    exact hsame rfl rfl

/-! ## Some thread goes on -/

theorem allocator_goes (h : ∀ ok, s.allocator ≠ .ended ok) : ∃ t, s.allocator_turn c {} = some t := by
  unfold allocator_turn
  cases ha : s.allocator with
  | ended ok => exact absurd ha (h ok)
  | scan index =>
    dsimp only
    split_ifs <;> exact ⟨_, rfl⟩
  | recording i =>
    dsimp only
    split_ifs <;> exact ⟨_, rfl⟩
  | placing i =>
    dsimp only
    split_ifs <;> exact ⟨_, rfl⟩
  | _ => exact ⟨_, rfl⟩

/-- A closer goes on when nobody sends any more. -/
theorem closer_goes {k : Nat} {pc : Closer c.count} (hclosed : s.closer = false)
    (hk : s.closers[k]? = some pc) (hlive : pc ≠ .ended) :
    ∃ ev t, ev.turns = true ∧ step c s ev = some t ∧ t ≠ s := by
  obtain ⟨hlt, -⟩ := List.getElem?_eq_some_iff.mp hk
  have hgoes : ∀ (u : State c.count) (pc' : Closer c.count), u.closers = s.closers → pc' ≠ pc →
      s.closer_turn c k {} = some (u.closer_at k pc') →
        ∃ ev t, ev.turns = true ∧ step c s ev = some t ∧ t ≠ s := by
    intro u pc' hclosers hne hturn
    refine ⟨.closer k {}, _, rfl, hturn, fun heq => hne ?_⟩
    have hset : (u.closer_at k pc').closers[k]? = some pc' := by
      show (u.closers.set k pc')[k]? = some pc'
      rw [hclosers, List.getElem?_set_self hlt]
    rw [heq, hk] at hset
    exact (Option.some.inj hset).symm
  cases pc with
  | ended => exact absurd rfl hlive
  | idle =>
    cases hqueue : s.queue with
    | nil => exact hgoes s .ended rfl (by simp) (by simp [closer_turn, hk, hqueue, hclosed])
    | cons cl queue =>
      exact hgoes { s with queue } (.finishing cl) rfl (by simp) (by simp [closer_turn, hk, hqueue])
  | finishing cl =>
    exact hgoes (s.lane cl.camera ((s.lanes cl.camera).closed cl.sequence 0)) (.counting true) rfl
      (by simp) (by simp [closer_turn, hk])
  | counting ok =>
    exact hgoes { s with closing := s.closing - 1 } (.reporting ok) rfl (by simp)
      (by simp [closer_turn, hk])
  | reporting ok =>
    by_cases hwell : ok = true ∧ (s.past_end c = true ∨ ¬ s.refused = true)
    · refine hgoes { s with
        metrics := if s.past_end c then s.metrics else s.merge (close_sample {}) } .idle rfl (by simp) ?_
      simp only [closer_turn, hk, Option.bind_some]
      rw [if_pos hwell]
    · refine hgoes { s with close_error := true, stop := true } .idle rfl (by simp) ?_
      simp only [closer_turn, hk, Option.bind_some]
      rw [if_neg hwell]

/-- When the cameras and the allocator have ended, the main thread goes on, or a closer does. -/
theorem joined_goes (hjoined : s.all_joined) (hs : Winding s) (hstop : s.stopping = true)
    (hmain : s.main ≠ .ended) : ∃ ev t, ev.turns = true ∧ step c s ev = some t ∧ t ≠ s := by
  have hmoves : ∀ t : State c.count, s.main_turn c {} = some t → t.main ≠ s.main →
      ∃ ev t, ev.turns = true ∧ step c s ev = some t ∧ t ≠ s := fun t ht hne =>
    ⟨.main {}, t, rfl, ht, fun heq => hne (by rw [heq])⟩
  cases hm : s.main with
  | ended => exact absurd hm hmain
  | preparing =>
    refine hmoves { s with start := some s.now, main := .measuring } ?_ (by simp [hm])
    unfold main_turn
    rw [hm]
    simp [hstop]
  | measuring =>
    refine hmoves { s with stop := true, main := .joining } ?_ (by simp [hm])
    unfold main_turn
    rw [hm]
    simp [hstop]
  | joining =>
    refine hmoves { s with closer := false, main := .closing } ?_ (by simp [hm])
    unfold main_turn
    rw [hm]
    dsimp only
    rw [if_pos hjoined]
  | closing =>
    have hclosed := hs.sender.mpr (.inl hm)
    by_cases hall : ∀ pc ∈ s.closers, pc = .ended
    · refine hmoves { s with lanes := fun i => (s.lanes i).dropped (Io.removes {} i), main := .ended } ?_ (by simp [hm])
      unfold main_turn
      rw [hm]
      exact if_pos (List.all_eq_true.mpr fun pc hpc => by rw [hall pc hpc])
    · -- a closer is left, and none of them waits any more
      obtain ⟨k, pc, hk, hlive⟩ : ∃ (k : Nat) (pc : Closer c.count), s.closers[k]? = some pc ∧ pc ≠ .ended := by
        by_contra hnone
        simp only [not_exists, not_and, not_not] at hnone
        refine hall fun pc hpc => ?_
        obtain ⟨k, hk, rfl⟩ := List.getElem_of_mem hpc
        exact hnone k _ (List.getElem?_eq_getElem hk)
      exact closer_goes hclosed hk hlive

theorem goes (hs : HandedOver c s) (hstop : s.stopping = true) (hmain : s.main ≠ .ended) :
    ∃ ev t, ev.turns = true ∧ step c s ev = some t ∧ t.remaining < s.remaining := by
  by_cases hlive : ∃ i, ∀ ok, (s.lanes i).pc ≠ .ended ok
  · obtain ⟨i, hi⟩ := hlive
    obtain ⟨⟨l, e⟩, hturn⟩ := (hs.recorded.lanes i).turns hi (s.view c) {}
    have hstep : s.camera_turn c i {} = some ((s.lane i l).apply e) := by
      rw [camera_turn, hturn, Option.map_some]
    exact ⟨.camera i {}, _, rfl, hstep, camera_winds hstep hstop⟩
  · by_cases ha : ∀ ok, s.allocator ≠ .ended ok
    · obtain ⟨t, hturn⟩ := allocator_goes ha
      exact ⟨.allocator {}, t, rfl, hturn, allocator_winds hturn hstop⟩
    · simp only [not_exists, not_forall, not_not] at hlive ha
      have hjoined : s.all_joined :=
        ⟨fun i => (Pc.matches_ended _).mpr (hlive i), (Allocator.matches_ended _).mpr ha⟩
      obtain ⟨ev, t, hturns, hstep, hne⟩ := joined_goes hjoined hs.winding hstop hmain
      exact ⟨ev, t, hturns, hstep, (step_winds hstep hturns hstop).resolve_right hne⟩

theorem Pc.remaining_le (pc : Pc) : pc.remaining ≤ 25 := by
  unfold Pc.remaining
  split <;> omega

/-- What remains is bounded by the cameras and the recordings to be closed. -/
theorem remaining_le (hs : HandedOver c s) : s.remaining ≤ 25 * c.count + 4 * s.closing + 26 := by
  have hlanes : ∑ i, (s.lanes i).pc.remaining ≤ 25 * c.count := by
    have hsum := Finset.sum_le_card_nsmul univ (fun i => (s.lanes i).pc.remaining) 25
      fun i _ => Pc.remaining_le _
    simpa [Nat.mul_comm] using hsum
  have hallocator : s.allocator.remaining ≤ 6 := by
    unfold Allocator.remaining
    split
    · omega
    · split_ifs <;> omega
    all_goals omega
  have hmain : s.main.remaining ≤ 4 := by
    unfold Main.remaining
    split <;> omega
  have hclosers : (s.closers.map Closer.remaining).sum ≤ 4 * CLOSERS := by
    have hsum := List.sum_le_card_nsmul (s.closers.map Closer.remaining) 4 fun n hn => by
      obtain ⟨pc, -, rfl⟩ := List.mem_map.mp hn
      cases pc <;> simp [Closer.remaining]
    rw [List.length_map, hs.winding.count] at hsum
    simpa [Nat.mul_comm] using hsum
  have hqueue := hs.gauged.least
  simp only [CLOSERS] at hclosers
  unfold remaining
  omega

end State

/-- The event is not the turn of a thread that only waits. -/
def Advances (c : Setup) (s : State c.count) (ev : Event c.count) : Prop :=
  ev.turns = true → step c s ev ≠ some s

/-- A run that is stopped comes to its end, in whatever order its threads go on: they have so many
turns left and no more, waiting apart, and until the main thread is through one of them has one. -/
theorem a_stopped_run_ends_whatever_the_order_of_its_threads (c : Setup) (es : List (Event c.count))
    (s : State c.count) (hrun : machine.run (step c) (init c) es = some s) (hstop : s.stopping = true) :
    s.remaining ≤ 25 * c.count + 4 * s.closing + 26 ∧
    (∀ es' t, machine.run (step c) s es' = some t → machine.Along (step c) (Advances c) s es' →
      es'.countP Event.turns ≤ s.remaining) ∧
    (∀ es' t, machine.run (step c) s es' = some t → t.main ≠ .ended →
      ∃ ev u, ev.turns = true ∧ step c t ev = some u ∧ u ≠ t) ∧
    ∃ es' t, machine.run (step c) s es' = some t ∧ t.main = .ended ∧ es'.length ≤ s.remaining := by
  have hs := State.run_handed_over hrun
  have hkeeps : ∀ s e t, State.HandedOver c s ∧ s.stopping = true → step c s e = some t →
      State.HandedOver c t ∧ t.stopping = true := fun _ _ _ h hstep =>
    ⟨State.step_handed_over hstep h.1, State.step_stopping hstep h.2⟩
  refine ⟨State.remaining_le hs, fun es' t hrun' halong => ?_, fun es' t hrun' hmain => ?_, ?_⟩
  · refine machine.countP_le_along (P := fun s => s.stopping = true) (fun s e t h hadv hstep => ?_) hrun'
      halong hstop
    refine ⟨State.step_stopping hstep h, ?_⟩
    cases hturns : e.turns with
    | false => simpa using (State.step_keeps hstep hturns).le
    | true =>
      have hne : t ≠ s := fun heq => hadv hturns (heq ▸ hstep)
      exact (State.step_winds hstep hturns h).resolve_right hne
  · obtain ⟨ht, hstop'⟩ := machine.invariant hkeeps hrun' ⟨hs, hstop⟩
    obtain ⟨ev, u, hturns, hstep, hlt⟩ := State.goes ht hstop' hmain
    refine ⟨ev, u, hturns, hstep, ?_⟩
    rintro rfl
    exact Nat.lt_irrefl _ hlt
  · obtain ⟨es', t, hrun', hmain, -, hlen⟩ := @machine.exists_run_to _ _ (step c)
      (fun s => State.HandedOver c s ∧ s.stopping = true) (fun s => s.main = .ended) State.remaining
      (fun s h hmain => by
        obtain ⟨ev, t, -, hstep, hlt⟩ := State.goes h.1 h.2 hmain
        exact ⟨ev, t, hstep, hkeeps _ _ _ h hstep, hlt⟩) s ⟨hs, hstop⟩
    exact ⟨es', t, hrun', hmain, hlen⟩

/-- Two frames are written, and the run is interrupted. -/
theorem two_frames_stopped : (machine.run (step one_camera) (init one_camera)
    (two_frames ++ [.interrupt])).any (fun s => s.stopping) = true := by decide +kernel

theorem the_two_frames_can_be_brought_to_an_end : ∃ s es' t,
    machine.run (step one_camera) (init one_camera) (two_frames ++ [.interrupt]) = some s ∧
    machine.run (step one_camera) s es' = some t ∧ t.main = .ended := by
  obtain ⟨s, hs, hstop⟩ := (Option.any_eq_true _ _).mp two_frames_stopped
  obtain ⟨-, -, -, es', t, hrun, hmain, -⟩ :=
    a_stopped_run_ends_whatever_the_order_of_its_threads one_camera _ s hs hstop
  exact ⟨s, es', t, hs, hrun, hmain⟩

end stutools.cctv
