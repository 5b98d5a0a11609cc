-- The fastest policy: what it ranks, what the choice makes of the rank, and when the
-- path that is chosen is the fastest one that can be used.
import Stutools.Turns

namespace stutools

namespace Lanes

/-- The recorded average of a path, zero while it is not measured. -/
def latency (l : Lanes) (path : Nat) : Nat := l.latency_ns.getD path 0

/-- The first of the paths of lowest latency, whether it can be used or not. -/
structure Preferred (l : Lanes) (path : Nat) : Prop where
  lt : path < l.paths
  lowest : ∀ q < l.paths, l.latency path ≤ l.latency q
  first : ∀ q < path, l.latency path < l.latency q

theorem Preferred.unique {l : Lanes} {p q : Nat} (hp : l.Preferred p) (hq : l.Preferred q) :
    p = q := by
  rcases Nat.lt_trichotomy p q with hlt | heq | hgt
  · have h1 := hq.first p hlt
    have h2 := hp.lowest q hq.lt
    omega
  · exact heq
  · have h1 := hp.first q hgt
    have h2 := hq.lowest p hp.lt
    omega

/-- A search from zero on finds the first. -/
theorem find?_range_first {n i : Nat} {P : Nat → Bool} (h : (List.range n).find? P = some i) :
    i < n ∧ P i = true ∧ ∀ j < i, P j = false := by
  obtain ⟨hP, k, hk, hget, hbefore⟩ := List.find?_eq_some_iff_getElem.mp h
  rw [List.getElem_range] at hget
  subst hget
  rw [List.length_range] at hk
  refine ⟨hk, hP, fun j hj => ?_⟩
  have hj' := hbefore j hj
  rw [List.getElem_range] at hj'
  simpa using hj'

theorem idxOf_range {n i : Nat} (h : i < n) : (List.range n).idxOf i = i := by
  have hget := List.nodup_range.idxOf_getElem i (by rw [List.length_range]; exact h)
  rwa [List.getElem_range] at hget

theorem fastest_preferred {l : Lanes} (h : 0 < l.paths) : l.Preferred l.fastest := by
  unfold fastest
  split
  · rename_i i hi
    obtain ⟨hlt, hzero, hbefore⟩ := find?_range_first hi
    rw [beq_iff_eq] at hzero
    have hzero' : l.latency i = 0 := hzero
    refine ⟨hlt, fun q _ => by omega, fun q hq => ?_⟩
    have hpos := hbefore q hq
    rw [beq_eq_false_iff_ne] at hpos
    have hpos' : l.latency q ≠ 0 := hpos
    omega
  · have hne : (List.range l.paths).argmin (fun i => l.latency_ns.getD i 0) ≠ none := by
      rw [ne_eq, List.argmin_eq_none, List.range_eq_nil]
      omega
    obtain ⟨i, hi⟩ := Option.ne_none_iff_exists'.mp hne
    rw [hi, Option.getD_some]
    obtain ⟨hmem, hle, hfirst⟩ := List.argmin_eq_some_iff.mp hi
    rw [List.mem_range] at hmem
    refine ⟨hmem, fun q hq => hle q (List.mem_range.mpr hq), fun q hq => ?_⟩
    by_contra hlatency
    have hidx := hfirst q (List.mem_range.mpr (by omega)) (Nat.not_lt.mp hlatency)
    rw [idxOf_range hmem, idxOf_range (by omega)] at hidx
    omega

/-- The path at some distance behind another, going round, is the first that can be used. -/
structure Reached (l : Lanes) (start k : Nat) : Prop where
  lt : k < l.paths
  usable : l.is_usable ((start + k) % l.paths) = true
  skipped : ∀ j < k, l.is_usable ((start + j) % l.paths) = false

theorem find?_around {l : Lanes} {start p : Nat}
    (h : (around l.paths start).find? l.is_usable = some p) :
    ∃ k, l.Reached start k ∧ p = (start + k) % l.paths := by
  unfold around at h
  rw [List.find?_map] at h
  obtain ⟨k, hk, rfl⟩ := Option.map_eq_some_iff.mp h
  obtain ⟨hlt, husable, hbefore⟩ := find?_range_first hk
  exact ⟨k, ⟨hlt, husable, hbefore⟩, rfl⟩

/-- The choice of the fastest policy, if there is a path to choose. -/
theorem pick_fastest {l : Lanes} (hpolicy : l.policy = .Fastest) (hl : 0 < l.paths)
    (h : ∃ q < l.paths, l.is_usable q = true) : ∃ s k, l.Preferred s ∧ l.Reached s k ∧
      l.pick_available.1 = some ((s + k) % l.paths) := by
  obtain ⟨-, -, hnone⟩ := pick_available.spec l
  obtain ⟨q, hq, husable⟩ := h
  cases hp : l.pick_available.1 with
  | none =>
    rw [hnone hp q hq] at husable
    cases husable
  | some p =>
    have hpick : l.pick = (l.fastest, l) := by
      unfold pick
      rw [hpolicy]
    have hfound : (around l.paths l.fastest).find? l.is_usable = some p := by
      unfold pick_available at hp
      rw [hpick] at hp
      exact hp
    obtain ⟨k, hk, rfl⟩ := find?_around hfound
    exact ⟨l.fastest, k, fastest_preferred hl, hk, rfl⟩

/-! ## The law of the fastest path -/

/-- If any path can be used, the one chosen is not measured if some usable path is not,
and else none that can be used is faster. -/
def PicksFastest (l : Lanes) : Prop :=
  (∃ q, l.Eligible q) → ∃ p, l.pick_available.1 = some p ∧ l.Eligible p ∧
    ((∃ q, l.Eligible q ∧ l.latency q = 0) → l.latency p = 0) ∧
    ((∀ q, l.Eligible q → l.latency q ≠ 0) → ∀ q, l.Eligible q → l.latency p ≤ l.latency q)

/-- A path hides a faster one: it cannot be used, out of rotation or of a higher tier than
the others, but its recorded latency is the first lowest of all; and going up from it, and
round, the first path that can be used is slower than another that can. -/
structure Hides (l : Lanes) (i k q : Nat) : Prop where
  idle : ¬ l.Eligible i
  ranks : l.Preferred i
  skipped : ∀ j < k, ¬ l.Eligible ((i + j) % l.paths)
  next : l.Eligible ((i + k) % l.paths)
  other : l.Eligible q
  slower : l.latency q < l.latency ((i + k) % l.paths)

/-- No path that cannot be used hides a faster one. -/
def HidesNone (l : Lanes) : Prop := ∀ i k q, ¬ l.Hides i k q

theorem usable_of_eligible {l : Lanes} {p : Nat} (h : l.Eligible p) : l.is_usable p = true := by
  have hbest : l.best_tier = some (l.tier.getD p 0) := by
    unfold best_tier
    rw [Option.filter_eq_some_iff]
    refine ⟨List.min?_eq_some_iff.mpr ⟨?_, fun t ht => ?_⟩, by simpa using h.standby⟩
    · exact List.mem_map_of_mem (List.mem_filter.mpr
        ⟨List.mem_range.mpr h.lt, by simpa using h.rotation⟩)
    · obtain ⟨q, hq, rfl⟩ := List.mem_map.mp ht
      obtain ⟨hrange, hrotation⟩ := List.mem_filter.mp hq
      exact h.lowest q (List.mem_range.mp hrange) (by simpa using hrotation)
  unfold is_usable
  rw [h.rotation, hbest]
  simp

/-- The choice goes up from the path that ranks first to the first that can be used. -/
theorem pick_fastest_eligible {l : Lanes} (hpolicy : l.policy = .Fastest) (hl : 0 < l.paths)
    (h : ∃ q, l.Eligible q) : ∃ i k, l.Preferred i ∧ l.Eligible ((i + k) % l.paths) ∧
      (∀ j < k, ¬ l.Eligible ((i + j) % l.paths)) ∧
      l.pick_available.1 = some ((i + k) % l.paths) := by
  obtain ⟨q, hq⟩ := h
  obtain ⟨i, k, hi, hk, hpick⟩ := pick_fastest hpolicy hl ⟨q, hq.lt, usable_of_eligible hq⟩
  refine ⟨i, k, hi, eligible_of_usable (Nat.mod_lt _ hl) hk.usable, fun j hj heligible => ?_, hpick⟩
  have := hk.skipped j hj
  rw [usable_of_eligible heligible] at this
  cases this

theorem picks_fastest_iff {l : Lanes} (hpolicy : l.policy = .Fastest) (hl : 0 < l.paths) :
    l.PicksFastest ↔ l.HidesNone := by
  constructor
  · intro h i k q hides
    obtain ⟨i', k', hi, hnext, hskipped, hpick⟩ := pick_fastest_eligible hpolicy hl ⟨_, hides.next⟩
    obtain ⟨p, hp, -, hzero, hleast⟩ := h ⟨_, hides.next⟩
    obtain rfl := hides.ranks.unique hi
    have hk : k = k' := by
      rcases Nat.lt_trichotomy k k' with hlt | heq | hgt
      · exact absurd hides.next (hskipped k hlt)
      · exact heq
      · exact absurd hnext (hides.skipped k' hgt)
    subst hk
    rw [hpick] at hp
    cases hp
    have hslower := hides.slower
    by_cases hmeasured : ∀ q, l.Eligible q → l.latency q ≠ 0
    · have := hleast hmeasured q hides.other
      omega
    · simp only [not_forall, not_not] at hmeasured
      obtain ⟨r, hr, hr0⟩ := hmeasured
      rw [hzero ⟨r, hr, hr0⟩] at hslower
      omega
  · intro h hsome
    obtain ⟨i, k, hi, hnext, hskipped, hpick⟩ := pick_fastest_eligible hpolicy hl hsome
    have hleast : ∀ q, l.Eligible q → l.latency ((i + k) % l.paths) ≤ l.latency q := by
      intro q hq
      by_contra hslower
      by_cases hidle : l.Eligible i
      · -- the path that ranks first is itself the choice
        have hself : (i + 0) % l.paths = i := by rw [Nat.add_zero, Nat.mod_eq_of_lt hi.lt]
        have hk : k = 0 := by
          by_contra hne
          exact hskipped 0 (Nat.pos_of_ne_zero hne) (by rwa [hself])
        rw [hk, hself] at hslower
        exact hslower (hi.lowest q hq.lt)
      · exact h i k q ⟨hidle, hi, hskipped, hnext, hq, Nat.not_le.mp hslower⟩
    refine ⟨_, hpick, hnext, ?_, fun _ => hleast⟩
    rintro ⟨q, hq, hq0⟩
    have := hleast q hq
    omega

/-- Every path in rotation is of one tier, and that tier takes I/O. -/
def OneTier (l : Lanes) : Prop :=
  ∀ p < l.paths, l.unavailable.getD p true = false → l.tier.getD p 0 < TIER_STANDBY ∧
    ∀ q < l.paths, l.unavailable.getD q true = false → l.tier.getD q 0 = l.tier.getD p 0

/-- No sample comes in for a path that is out of rotation. -/
def Timely (s : Lanes × List Nat) : Call → Prop
  | .record path _ => s.1.unavailable.getD path true = false
  | _ => True

/-- A path out of rotation ranks last. -/
def RanksLast (s : Lanes × List Nat) : Prop :=
  s.1.Sound ∧ ∀ p < s.1.paths, s.1.unavailable.getD p true = true → s.1.latency p = 2 ^ 64 - 1

theorem RanksLast.call {s t : Lanes × List Nat} {c : Call} (h : RanksLast s) (hok : Timely s c)
    (hc : call s c = some t) : RanksLast t := by
  obtain ⟨l, log⟩ := s
  obtain ⟨hl, hlast⟩ := h
  obtain ⟨hsound, hpaths, -⟩ := hl.call hc
  refine ⟨hsound, ?_⟩
  dsimp only at hl hlast hok
  cases c with
  | pick =>
    cases hc
    have hsame := pick_same l
    intro p hp hout
    dsimp only at hp hout ⊢
    rw [hsame.unavailable] at hout
    rw [← hlast p (by rw [← hsame.paths]; exact hp) hout]
    unfold latency pick random
    split <;> rfl
  | set_tier path tier =>
    simp only [Lanes.call] at hc
    split_ifs at hc
    cases hc
    exact hlast
  | record path nanos =>
    simp only [Lanes.call] at hc
    split_ifs at hc with hbound
    cases hc
    intro p hp hout
    have hne : path ≠ p := by
      rintro rfl
      have hin : l.unavailable.getD path true = false := hok
      rw [show (l.record path nanos).unavailable = l.unavailable from rfl, hin] at hout
      cases hout
    have hkept : (l.record path nanos).latency p = l.latency p := by
      unfold latency record
      dsimp only
      rw [flags.getD_set (by rw [hl.latencies]; exact hbound.1), if_neg hne]
    exact hkept.trans (hlast p hp hout)
  | mark_unavailable path =>
    simp only [Lanes.call] at hc
    split_ifs at hc with hbound
    cases hc
    intro p hp hout
    unfold latency mark_unavailable
    unfold mark_unavailable at hout
    dsimp only at hout ⊢
    rw [flags.getD_set (by rw [hl.latencies]; exact hbound)]
    rw [flags.getD_set (by rw [hl.flags]; exact hbound)] at hout
    split_ifs at hout ⊢
    · rfl
    · exact hlast p hp hout
  | mark_available path =>
    simp only [Lanes.call] at hc
    split_ifs at hc with hbound
    cases hc
    intro p hp hout
    unfold latency mark_available
    unfold mark_available at hout
    dsimp only at hout ⊢
    rw [flags.getD_set (by rw [hl.latencies]; exact hbound)]
    rw [flags.getD_set (by rw [hl.flags]; exact hbound)] at hout
    split_ifs at hout ⊢
    · exact hlast p hp hout

theorem OneTier.eligible {l : Lanes} (h : l.OneTier) {p : Nat} (hp : p < l.paths)
    (hin : l.unavailable.getD p true = false) : l.Eligible p := by
  obtain ⟨hstandby, hsame⟩ := h p hp hin
  exact ⟨hp, hin, hstandby, fun q hq hrotation => (hsame q hq hrotation).ge⟩

theorem RanksLast.hides_none {s : Lanes × List Nat} (h : RanksLast s) (htier : s.1.OneTier) :
    s.1.HidesNone := by
  obtain ⟨hl, hlast⟩ := h
  intro i k q hides
  cases hin : s.1.unavailable.getD i true with
  | false => exact hides.idle (htier.eligible hides.ranks.lt hin)
  | true =>
    -- Nothing ranks behind it, so all paths rank alike.
    have htop := hlast i hides.ranks.lt hin
    have hle := hides.ranks.lowest q hides.other.lt
    have hword : s.1.latency ((i + k) % s.1.paths) < 2 ^ 64 := hl.words _
    have hslower := hides.slower
    omega

/-- For every number of paths and every sequence of calls: the fastest policy picks the
fastest usable path exactly if no path out of rotation or of a higher tier ranks first and
hides it. So it does wherever the paths in rotation are of one tier and no sample came in
for a path out of rotation. -/
theorem the_fastest_usable_path_is_picked_iff_none_hides_it {paths : Nat} {seed : UInt64}
    {l₀ : Lanes} (h : new paths .Fastest seed = some l₀) {cs : List Call} {s : Lanes × List Nat}
    (hrun : machine.run call (l₀, []) cs = some s) :
    (s.1.PicksFastest ↔ s.1.HidesNone) ∧
    (machine.Along call Timely (l₀, []) cs → s.1.OneTier → s.1.PicksFastest) := by
  obtain ⟨hsound, -, hpolicy⟩ := sound_of_run h hrun
  have hiff := picks_fastest_iff hpolicy hsound.paths
  refine ⟨hiff, fun htimely htier => hiff.mpr ?_⟩
  have hstart : RanksLast (l₀, []) := by
    refine ⟨(new_sound h).1, fun p hp hout => ?_⟩
    unfold new at h
    split_ifs at h
    cases h
    simp only [List.getD_eq_getElem?_getD, List.getElem?_replicate] at hout
    rw [if_pos hp] at hout
    cases hout
  exact (machine.invariant_along (fun _ _ _ hs hok hc => RanksLast.call hs hok hc) hrun htimely
    hstart).hides_none htier

/-- Two paths of one tier: the one with the shorter sample is picked. -/
theorem the_shorter_of_two_samples_is_picked : ∃ l₀ s, new 2 .Fastest 1 = some l₀ ∧
    machine.run call (l₀, []) [.record 0 400, .record 1 100] = some s ∧ s.1.PicksFastest := by
  have hrun : ∃ l₀ s, new 2 .Fastest 1 = some l₀ ∧
      machine.run call (l₀, []) [.record 0 400, .record 1 100] = some s ∧
      machine.Along call Timely (l₀, []) [.record 0 400, .record 1 100] ∧ s.1.OneTier := by
    refine ⟨_, _, rfl, rfl, ⟨rfl, ?_⟩, ?_⟩
    · rintro t ⟨⟩
      exact ⟨rfl, fun _ _ => trivial⟩
    · unfold OneTier
      decide
  obtain ⟨l₀, s, hnew, hs, htimely, htier⟩ := hrun
  exact ⟨l₀, s, hnew, hs,
    (the_fastest_usable_path_is_picked_iff_none_hides_it hnew hs).2 htimely htier⟩

/-- A standby path is never measured, so it always ranks first, and the path behind it is
picked though another is ten times as fast. -/
theorem a_standby_path_hides_the_fastest : ∃ l₀ s, new 3 .Fastest 1 = some l₀ ∧
    machine.run call (l₀, []) [.set_tier 0 2, .record 1 1000, .record 2 100] = some s ∧
    s.1.pick_available.1 = some 1 ∧ s.1.is_usable 2 = true ∧ s.1.latency 2 < s.1.latency 1 ∧
    ¬ s.1.PicksFastest := by
  have hrun : ∃ l₀ s, new 3 .Fastest 1 = some l₀ ∧
      machine.run call (l₀, []) [.set_tier 0 2, .record 1 1000, .record 2 100] = some s ∧
      s.1.paths = 3 ∧ s.1.pick_available.1 = some 1 ∧ s.1.is_usable 2 = true ∧
      s.1.is_usable 0 = false ∧ s.1.latency 1 = 1000 ∧ s.1.latency 2 = 100 :=
    ⟨_, _, rfl, rfl, rfl, rfl, rfl, rfl, rfl, rfl⟩
  obtain ⟨l₀, s, hnew, hs, hpaths, hpick, husable, hstandby, h1, h2⟩ := hrun
  refine ⟨l₀, s, hnew, hs, hpick, husable, by omega, fun h => ?_⟩
  have h2 : s.1.Eligible 2 := eligible_of_usable (by omega) husable
  obtain ⟨p, hp, -, -, hleast⟩ := h ⟨2, h2⟩
  rw [hpick] at hp
  cases hp
  have hmeasured : ∀ q, s.1.Eligible q → s.1.latency q ≠ 0 := by
    intro q hq
    have hlt := hq.lt
    obtain rfl | rfl | rfl : q = 0 ∨ q = 1 ∨ q = 2 := by omega
    · rw [usable_of_eligible hq] at hstandby
      cases hstandby
    · omega
    · omega
  have := hleast hmeasured 2 h2
  omega

end Lanes

end stutools
