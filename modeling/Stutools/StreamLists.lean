-- Where the requests of a stream are: in the plan, held, owed or in flight.
-- One call moves at most one of them into flight and loses none, and the
-- requests of the plan leave in the plan's order.
import Stutools.Stream

namespace stutools

/-! ## The shape of the lists -/

/-- What can be held: nothing, one request, or an owed read-back and under it
the write that gave way to it. -/
inductive HeldShape : List Request → Prop
  | nothing : HeldShape []
  | one (r : Request) : HeldShape [r]
  | behind (d w : Request) (hd : is_read_back d = true) (hw : w.write = true) : HeldShape [d, w]

/-- A write on top has nothing under it. -/
theorem HeldShape.of_write {q : Request} {l : List Request} (h : HeldShape (q :: l))
    (hw : q.write = true) : l = [] := by
  cases h with
  | one => rfl
  | behind _ w hd _ =>
    rw [is_read_back_iff, hw] at hd
    exact absurd hd.2 (by simp)

theorem HeldShape.tail {q : Request} {l : List Request} (h : HeldShape (q :: l)) : HeldShape l := by
  cases h with
  | one => exact .nothing
  | behind => exact .one _

namespace Stream

structure Shaped (s : Stream) : Prop where
  due : ∀ d ∈ s.due, is_read_back d = true
  held : HeldShape s.held

/-- A stream before its first call. -/
structure Fresh (s : Stream) : Prop where
  outstanding : s.outstanding = 0
  in_flight : s.in_flight = []
  due : s.due = []
  held : s.held = []

theorem Fresh.shaped {s : Stream} (h : s.Fresh) : s.Shaped := by
  refine ⟨by simp [h.due], ?_⟩
  rw [h.held]
  exact .nothing

/-- The read-backs that are owed and not yet handed out. -/
def owed (s : Stream) : List Request := s.due ++ s.held.filter is_read_back

variable {s t u v : Stream} {env : Env}

/-- The candidate, put back on the held requests, keeps the shape. -/
theorem Shaped.candidate (h : s.Shaped) {r : Request} (hc : s.candidate env = (some r, u)) :
    (u.hold r).Shaped := by
  rcases candidate_cases hc with ⟨q, held, hh, hq, rfl⟩ | ⟨hh, q, due, hd, hq, rfl⟩ |
    ⟨_, _, _, hq, _⟩ | ⟨hh, hd, _, hp⟩
  · cases hq
    have hheld := h.held
    rw [hh] at hheld
    exact ⟨h.due, hheld⟩
  · cases hq
    refine ⟨fun d hmem => h.due d (hd ▸ List.mem_cons_of_mem r hmem), ?_⟩
    rw [hold, hh]
    exact .one r
  · cases hq
  · have hplan := (plan_request.spec hp).1
    refine ⟨fun d hmem => h.due d (hplan.due ▸ hmem), ?_⟩
    rw [hold, hplan.held, hh]
    exact .one r

theorem Shaped.no_candidate (h : s.Shaped) (hc : s.candidate env = (none, t)) : t.Shaped := by
  rcases candidate_cases hc with ⟨_, _, _, hq, _⟩ | ⟨_, _, _, _, hq, _⟩ | ⟨_, _, _, _, rfl⟩ |
    ⟨_, _, _, hp⟩
  · cases hq
  · cases hq
  · exact h
  · have hplan := (plan_request.spec hp).1
    exact ⟨hplan.due ▸ h.due, hplan.held ▸ h.held⟩

/-- So does the request that is tried in its place when the candidate gives way. -/
theorem Shaped.owed_first {r q : Request} (h : (u.hold r).Shaped)
    (ho : u.owed_first r = (q, v)) : (v.hold q).Shaped := by
  rcases owed_first_cases ho with ⟨hw, i, hi, _, rfl⟩ | ⟨rfl, rfl, _⟩
  · refine ⟨fun d hd => h.due d (List.mem_of_mem_eraseIdx hd), ?_⟩
    simp only [hold, h.held.of_write hw]
    exact .behind q r (h.due q (List.mem_of_getElem? hi)) hw
  · exact h

theorem Shaped.hand_out {q : Request} (h : (v.hold q).Shaped) : (v.hand_out q).Shaped := by
  refine ⟨fun d hd => ?_, h.held.tail⟩
  simp only [Stream.hand_out] at hd
  split_ifs at hd
  · rcases List.mem_append.mp hd with hd | hd
    · exact h.due d hd
    · rw [List.mem_singleton.mp hd]
      rfl
  · exact h.due d hd

theorem Shaped.source (h : s.Shaped) {n : Next} (hn : s.source env = (n, t)) : t.Shaped := by
  rcases source_cases hn with ⟨hc, _⟩ | ⟨r, u, q, v, hc, ho, hb⟩
  · exact h.no_candidate hc
  · have hq := (h.candidate hc).owed_first ho
    rcases hb with ⟨_, _, rfl⟩ | ⟨_, _, rfl⟩
    · exact hq
    · exact hq.hand_out

theorem Shaped.finish (h : s.Shaped) {buffer : List UInt8} {r : Request}
    (hf : s.finish env buffer r = some t) : t.Shaped := by
  have hfin := finish.spec hf
  refine ⟨fun d hd => ?_, hfin.held ▸ h.held⟩
  rw [hfin.due, List.mem_append] at hd
  rcases hd with hd | hd
  · exact h.due d hd
  · split_ifs at hd
    · rw [List.mem_singleton.mp hd]
      rfl
    · cases hd

/-! ## Where the owed read-backs go -/

/-- Taking a candidate and holding it loses no owed read-back. -/
theorem candidate_owed (h : s.Shaped) {r : Request} (hc : s.candidate env = (some r, u)) :
    (u.hold r).owed.Perm s.owed := by
  rcases candidate_cases hc with ⟨q, held, hh, hq, rfl⟩ | ⟨hh, q, due, hd, hq, rfl⟩ |
    ⟨_, _, _, hq, _⟩ | ⟨hh, hd, _, hp⟩
  · cases hq
    simp [owed, hold, hh]
  · cases hq
    have hr : is_read_back r = true := h.due r (by simp [hd])
    simp only [owed, hold, hh, hd, List.filter_cons, hr, if_true, List.filter_nil, List.append_nil]
    exact List.perm_append_singleton r due
  · cases hq
  · obtain ⟨hplan, hnot⟩ := plan_request.spec hp
    simp [owed, hold, hplan.held, hplan.due, hh, hd, hnot r rfl]

theorem no_candidate_owed (hc : s.candidate env = (none, t)) : t.owed = s.owed := by
  rcases candidate_cases hc with ⟨_, _, _, hq, _⟩ | ⟨_, _, _, _, hq, _⟩ | ⟨_, _, _, _, rfl⟩ |
    ⟨_, _, _, hp⟩
  · cases hq
  · cases hq
  · rfl
  · have hplan := (plan_request.spec hp).1
    rw [owed, owed, hplan.due, hplan.held]

/-- Nor does a write that gives way to one. -/
theorem owed_first_owed {r q : Request} (h : (u.hold r).Shaped) (ho : u.owed_first r = (q, v)) :
    (v.hold q).owed.Perm (u.hold r).owed := by
  rcases owed_first_cases ho with ⟨hw, i, hi, _, rfl⟩ | ⟨rfl, rfl, _⟩
  · have hq : is_read_back q = true := h.due q (List.mem_of_getElem? hi)
    simp only [owed, hold, List.filter_cons, hq, not_read_back_of_write hw, if_true,
      Bool.false_eq_true, if_false]
    have hperm := (vec.perm_eraseIdx_of_getElem? hi).symm.append_right (u.held.filter is_read_back)
    exact List.perm_middle.trans hperm
  · exact List.Perm.refl _

/-- The read-backs that handing out these requests owes at once: those of
racing writes. -/
def raced (s : Stream) (handed : List Request) : List Request :=
  if s.race && s.read_back then (handed.filter (·.write)).map read_back_of else []

/-- A held request that is handed out leaves the owed ones if it is one. -/
theorem hand_out_owed (v : Stream) (q : Request) :
    ((v.hold q).owed ++ v.raced [q]).Perm ([q].filter is_read_back ++ (v.hand_out q).owed) := by
  have hdue : (v.hand_out q).due = v.due ++ v.raced [q] := by
    unfold hand_out raced
    by_cases hw : q.write = true
    · by_cases hr : v.race = true <;> by_cases hb : v.read_back = true <;> simp [hw, hr, hb]
    · simp [hw]
  have hheld : (v.hand_out q).held = v.held := rfl
  simp only [owed, hdue, hheld, hold, List.filter_cons, List.filter_nil]
  have hswap : ((v.held.filter is_read_back) ++ v.raced [q]).Perm
      (v.raced [q] ++ v.held.filter is_read_back) := List.perm_append_comm
  split_ifs
  · have h1 := (hswap.append_left v.due).cons q
    simpa [List.append_assoc] using List.perm_middle.trans h1
  · simpa [List.append_assoc] using hswap.append_left v.due

/-- The owed read-backs after one call: the one that was handed out is gone,
and those of racing writes are new. -/
theorem source_owed (h : s.Shaped) {n : Next} (hn : s.source env = (n, t)) :
    (s.owed ++ s.raced n.handed).Perm (n.handed.filter is_read_back ++ t.owed) := by
  rcases source_cases hn with ⟨hc, hnext⟩ | ⟨r, u, q, v, hc, ho, hb⟩
  · have hnone : n.handed = [] := by
      rw [hnext]
      split_ifs <;> rfl
    simp [hnone, raced, no_candidate_owed hc]
  · have hu := h.candidate hc
    have hq := (owed_first_owed hu ho).trans (candidate_owed h hc)
    have hf := (candidate_frame hc).trans (owed_first_frame ho)
    rcases hb with ⟨_, rfl, rfl⟩ | ⟨_, rfl, rfl⟩
    · simpa [Next.handed, raced] using hq.symm
    · have hraced : s.raced [q] = v.raced [q] := by rw [raced, raced, hf.race, hf.read_back]
      rw [Next.handed, hraced]
      exact (hq.symm.append_right _).trans (hand_out_owed v q)

/-- The owed read-backs after one completion. -/
theorem finish_owed {buffer : List UInt8} {r : Request} (hf : s.finish env buffer r = some t) :
    t.owed.Perm (s.owed ++ if r.write && s.read_back && !s.race then [read_back_of r] else []) := by
  have hfin := finish.spec hf
  rw [owed, owed, hfin.due, hfin.held, List.append_assoc, List.append_assoc]
  exact List.perm_append_comm.append_left _

/-! ## The order of the plan -/

/-- How much of the plan was read: its slots, or the writes of a `v` workload. -/
def slots (s : Stream) : Nat := if s.work.write_verify then s.wv_count else s.index

/-- What the first `n` slots of the plan ask for. The checks of writes are
left out: each write is owed its own read-back instead. -/
def planned (s : Stream) (n : Nat) : List Request :=
  if s.work.write_verify then
    (write_verify_requests s.work s.lo s.hi s.wv_count s.wv_state n).1
  else (s.generated.gets n).1.filter fun r => !is_read_back r

/-- `t` has read the plan of `s₀` so far, and it asked for `l`. -/
structure PlanAt (s₀ t : Stream) (l : List Request) : Prop where
  list : l = s₀.planned t.slots
  write_verify : s₀.work.write_verify = true →
    (write_verify_requests s₀.work s₀.lo s₀.hi s₀.wv_count s₀.wv_state t.slots).2 =
      (t.wv_count, t.wv_state)
  generated : s₀.work.write_verify = false → (s₀.generated.gets t.slots).2 = t.generated

theorem PlanAt.of_cursors {s₀ s t : Stream} {l : List Request} (h : PlanAt s₀ s l)
    (hw : t.work = s.work) (hc : Cursors s t) : PlanAt s₀ t l := by
  have hslots : t.slots = s.slots := by rw [slots, slots, hw, hc.wv_count, hc.index]
  exact ⟨hslots ▸ h.list, by rw [hslots, hc.wv_count, hc.wv_state]; exact h.write_verify,
    by rw [hslots, hc.generated]; exact h.generated⟩

/-- The plan loop reads on from where the table stands. -/
theorem gets_plan_from {limited : Nat → Bool} {p₀ p q : Positions} {i j : Nat} {o : Option Request}
    (hp : (p₀.gets i).2 = p) (h : plan_from limited p i = (o, q, j)) :
    (p₀.gets j).2 = q ∧ (p₀.gets j).1.filter (fun r => !is_read_back r) =
      (p₀.gets i).1.filter (fun r => !is_read_back r) ++ o.toList := by
  fun_induction plan_from limited p i with
  | case1 p i hl =>
    cases h
    simp [hp]
  | case2 p i hl hc ih =>
    have hnext : p₀.gets (i + 1) = ((p₀.gets i).1 ++ [(p.get i).1], (p.get i).2) := by
      simp [Positions.gets, hp]
    have hrb : is_read_back (p.get i).1 = true := (is_read_back_iff _).mpr hc
    obtain ⟨h1, h2⟩ := ih (by rw [hnext]) h
    refine ⟨h1, h2.trans ?_⟩
    simp [hnext, hrb]
  | case3 p i hl hc =>
    cases h
    have hnext : p₀.gets (i + 1) = ((p₀.gets i).1 ++ [(p.get i).1], (p.get i).2) := by
      simp [Positions.gets, hp]
    have hrb : is_read_back (p.get i).1 = false := by
      rw [Bool.eq_false_iff]
      exact fun hb => hc ((is_read_back_iff _).mp hb)
    simp [hnext, hrb]

theorem PlanAt.plan_request {s₀ : Stream} {l : List Request} (h : PlanAt s₀ s l) (hf : Frame s₀ s)
    {o : Option Request} (hp : s.plan_request = (o, t)) : PlanAt s₀ t (l ++ o.toList) := by
  unfold Stream.plan_request at hp
  split_ifs at hp with hw
  · have hw₀ : s₀.work.write_verify = true := hf.work ▸ hw
    have hat := h.write_verify hw₀
    have hlist := h.list
    simp only [slots, planned, hw, hw₀, if_true] at hat hlist
    have hat1 := congrArg Prod.fst hat
    have hat2 := congrArg Prod.snd hat
    simp only [Prod.mk.injEq] at hp
    obtain ⟨rfl, rfl⟩ := hp
    have hcount : (write_verify_request s.work s.lo s.hi s.wv_count s.wv_state).2.1 =
        s.wv_count + 1 := by
      unfold write_verify_request write_verify_index
      dsimp only
      split_ifs <;> rfl
    refine ⟨?_, fun _ => ?_, fun hc => absurd hw₀ (by simp [hc])⟩
    · simp only [slots, planned, hw, hw₀, if_true, hcount, write_verify_requests, Option.toList]
      rw [hlist, hat1, hat2, hf.work, hf.lo, hf.hi]
    · simp only [slots, hw, if_true, hcount, write_verify_requests]
      rw [hat1, hat2, ← hf.work, ← hf.lo, ← hf.hi, hcount]
  · have hw₀ : s₀.work.write_verify = false := by rw [← hf.work]; simpa using hw
    have hat := h.generated hw₀
    have hlist := h.list
    simp only [slots, planned, hw, hw₀, Bool.false_eq_true, if_false] at hat hlist
    rcases hfrom : plan_from (fun i => limit_reached { s with index := i }) s.generated s.index
      with ⟨o', q, j⟩
    simp only [hfrom, Prod.mk.injEq] at hp
    obtain ⟨rfl, rfl⟩ := hp
    obtain ⟨h1, h2⟩ := gets_plan_from hat hfrom
    refine ⟨?_, fun hc => absurd hw₀ (by simp [hc]), fun _ => ?_⟩
    · simp only [slots, planned, hw, hw₀, Bool.false_eq_true, if_false]
      rw [hlist, h2]
    · simpa only [slots, hw, Bool.false_eq_true, if_false] using h1

/-- The held requests that come from the plan. -/
def held_plan (s : Stream) : List Request := s.held.filter fun r => !is_read_back r

/-- At most one request of the plan is held. -/
theorem Shaped.held_plan_le (h : s.Shaped) : s.held_plan.length ≤ 1 := by
  have hheld := h.held
  unfold held_plan
  generalize s.held = l at hheld
  cases hheld with
  | nothing => exact Nat.zero_le 1
  | one r => exact List.length_filter_le _ [r]
  | behind d w hd _ =>
    rw [List.filter_cons_of_neg (by simp [hd])]
    exact List.length_filter_le _ [w]

/-- Taking a candidate: the plan's requests stay in their order. -/
theorem PlanAt.candidate {s₀ : Stream} {l : List Request} (h : PlanAt s₀ s l) (hf : Frame s₀ s)
    (hs : s.Shaped) {o : Option Request} (hc : s.candidate env = (o, t)) :
    ∃ new, PlanAt s₀ t (l ++ new) ∧
      (o.toList ++ t.held).filter (fun r => !is_read_back r) = s.held_plan ++ new := by
  rcases candidate_cases hc with ⟨q, held, hh, rfl, rfl⟩ | ⟨hh, q, due, hd, rfl, rfl⟩ |
    ⟨_, _, _, rfl, rfl⟩ | ⟨hh, hd, _, hp⟩
  · refine ⟨[], ?_, by simp [held_plan, hh]⟩
    rw [List.append_nil]
    exact h.of_cursors rfl (by constructor <;> rfl)
  · have hr : is_read_back q = true := hs.due q (by simp [hd])
    refine ⟨[], ?_, by simp [held_plan, hh, hr]⟩
    rw [List.append_nil]
    exact h.of_cursors rfl (by constructor <;> rfl)
  · exact ⟨[], (List.append_nil l).symm ▸ h, by simp [held_plan]⟩
  · obtain ⟨hplan, hnot⟩ := plan_request.spec hp
    refine ⟨o.toList, h.plan_request hf hp, ?_⟩
    rw [hplan.held, hh, held_plan, hh]
    cases o with
    | none => rfl
    | some r => simp [hnot r rfl]

/-- One call: what it hands out of the plan is what was held of it, else the
plan's next request. -/
theorem PlanAt.source {s₀ : Stream} {l : List Request} (h : PlanAt s₀ s l) (hf : Frame s₀ s)
    (hs : s.Shaped) {n : Next} (hn : s.source env = (n, t)) :
    ∃ new, PlanAt s₀ t (l ++ new) ∧
      (n.handed.filter fun r => !is_read_back r) ++ t.held_plan = s.held_plan ++ new := by
  rcases source_cases hn with ⟨hc, hnext⟩ | ⟨r, u, q, v, hc, ho, hb⟩
  · obtain ⟨new, h1, h2⟩ := h.candidate hf hs hc
    refine ⟨new, h1, ?_⟩
    rw [← h2, hnext]
    split_ifs <;> rfl
  · obtain ⟨new, h1, h2⟩ := h.candidate hf hs hc
    have hu := hs.candidate hc
    have hv : PlanAt s₀ v (l ++ new) := h1.of_cursors (owed_first_frame ho).work (owed_first_cursors ho)
    have hheld : (q :: v.held).filter (fun r => !is_read_back r) = s.held_plan ++ new := by
      rw [← h2]
      rcases owed_first_cases ho with ⟨hw, i, hi, _, rfl⟩ | ⟨rfl, rfl, _⟩
      · have hq : is_read_back q = true := hu.due q (List.mem_of_getElem? hi)
        simp [hq]
      · rfl
    rcases hb with ⟨_, rfl, rfl⟩ | ⟨_, rfl, rfl⟩
    · exact ⟨new, hv.of_cursors rfl (by constructor <;> rfl), hheld⟩
    · refine ⟨new, ?_, ?_⟩
      · refine ⟨hv.list, hv.write_verify, hv.generated⟩
      · rw [← hheld]
        simp only [Next.handed, held_plan, hand_out, List.filter_cons, List.filter_nil]
        split_ifs <;> rfl

/-- A call takes a new request from the plan only when nothing is held or owed
and the limit is not reached, and then it hands out no read-back. -/
theorem source_new (hs : s.Shaped) {n : Next} (hn : s.source env = (n, t)) :
    (n.handed.filter fun r => !is_read_back r) ++ t.held_plan = s.held_plan ∨
    (s.held = [] ∧ s.due = [] ∧ s.stopped env = false ∧ n.handed.filter is_read_back = [] ∧
      (n.handed = [] ∨ t.held_plan = [])) := by
  rcases source_cases hn with ⟨hc, hnext⟩ | ⟨r, u, q, v, hc, ho, hb⟩
  · left
    have hheld : t.held = s.held := by
      rcases candidate_cases hc with ⟨_, _, _, hq, _⟩ | ⟨_, _, _, _, hq, _⟩ | ⟨_, _, _, _, rfl⟩ |
        ⟨_, _, _, hp⟩
      · cases hq
      · cases hq
      · rfl
      · exact (plan_request.spec hp).1.held
    rw [hnext, held_plan, held_plan, hheld]
    split_ifs <;> rfl
  · have hu := hs.candidate hc
    have hheld : (q :: v.held).filter (fun r => !is_read_back r) =
        (r :: u.held).filter fun r => !is_read_back r := by
      rcases owed_first_cases ho with ⟨hw, i, hi, _, rfl⟩ | ⟨rfl, rfl, _⟩
      · have hq : is_read_back q = true := hu.due q (List.mem_of_getElem? hi)
        simp [hq]
      · rfl
    have hsplit : (n.handed.filter fun r => !is_read_back r) ++ t.held_plan =
        (q :: v.held).filter fun r => !is_read_back r := by
      rcases hb with ⟨_, rfl, rfl⟩ | ⟨_, rfl, rfl⟩
      · rfl
      · simp only [Next.handed, held_plan, hand_out, List.filter_cons, List.filter_nil]
        split_ifs <;> rfl
    rcases candidate_cases hc with ⟨r', held, hh, hr, rfl⟩ | ⟨hh, r', due, hd, hr, rfl⟩ |
      ⟨_, _, _, hr, _⟩ | ⟨hh, hd, hstop, hp⟩
    · cases hr
      left
      rw [hsplit, hheld, held_plan, hh]
    · cases hr
      left
      have hrb : is_read_back r = true := hs.due r (by simp [hd])
      rw [hsplit, hheld, held_plan]
      simp [hrb]
    · cases hr
    · right
      obtain ⟨hplan, hnot⟩ := plan_request.spec hp
      refine ⟨hh, hd, hstop, ?_⟩
      -- with nothing owed the plan's request gives way to none
      have hq : q = r ∧ v = u := by
        rcases owed_first_cases ho with ⟨_, i, hi, _, _⟩ | ⟨rfl, rfl, _⟩
        · rw [hplan.due, hd] at hi
          simp at hi
        · exact ⟨rfl, rfl⟩
      rcases hb with ⟨_, rfl, _⟩ | ⟨_, rfl, rfl⟩
      · exact ⟨rfl, .inl rfl⟩
      · refine ⟨by simp [Next.handed, hq.1, hnot r rfl], .inr ?_⟩
        have hnil : v.held = [] := by rw [hq.2, hplan.held, hh]
        simp [held_plan, hand_out, hnil]

end Stream

end stutools
