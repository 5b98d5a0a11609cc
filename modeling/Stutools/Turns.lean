-- Which path a request gets, over any sequence of calls: the choice keeps to the paths
-- in rotation and in the best tier, the two round robins give turns, and the fastest
-- policy ranks all paths before it skips those that cannot be used. The counter of the
-- picks is a `usize` of 64 bits.
import Stutools.Cycle
import Stutools.Flags
import Stutools.Lanes
import Stutools.Machine

namespace stutools

namespace Lanes

/-- The calls that a pool makes on its lanes. -/
inductive Call where
  | pick
  | set_tier (path tier : Nat)
  | record (path nanos : Nat)
  | mark_unavailable (path : Nat)
  | mark_available (path : Nat)
deriving DecidableEq

/-- One call, and the path if it picks one. None is the panic of an index that is out of
bounds, or an argument that is no byte or no word. -/
def call (s : Lanes × List Nat) : Call → Option (Lanes × List Nat)
  | .pick => some (s.1.pick.2, s.2 ++ [s.1.pick.1])
  | .set_tier path tier =>
    if path < s.1.paths ∧ tier < 256 then some (s.1.set_tier path tier, s.2) else none
  | .record path nanos =>
    if path < s.1.paths ∧ nanos < 2 ^ 64 then some (s.1.record path nanos, s.2) else none
  | .mark_unavailable path =>
    if path < s.1.paths then some (s.1.mark_unavailable path, s.2) else none
  | .mark_available path => if path < s.1.paths then some (s.1.mark_available path, s.2) else none

/-- How many paths can take I/O at the best tier. -/
def usable_count (l : Lanes) : Nat :=
  (List.range l.paths).countP fun i =>
    !l.unavailable.getD i true && some (l.tier.getD i 0) == l.best_tier

/-- What every call keeps. -/
structure Sound (l : Lanes) : Prop where
  paths : 0 < l.paths
  latencies : l.latency_ns.length = l.paths
  flags : l.unavailable.length = l.paths
  tiers : l.tier.length = l.paths
  words : ∀ i, l.latency_ns.getD i 0 < 2 ^ 64
  next : l.next < 2 ^ 64

/-- A word that stays a word: the average moves one eighth of the way. -/
theorem average_lt {old nanos : Nat} (hold : old < 2 ^ 64) (hnanos : nanos < 2 ^ 64) :
    (if old = 0 then nanos else old - old / 8 + nanos / 8) < 2 ^ 64 := by
  split_ifs
  · exact hnanos
  · omega

theorem new_sound {paths : Nat} {policy : Policy} {seed : UInt64} {l : Lanes}
    (h : new paths policy seed = some l) : l.Sound ∧ l.paths = paths ∧ l.policy = policy := by
  unfold new at h
  split_ifs at h with hp
  cases h
  refine ⟨⟨Nat.pos_of_ne_zero hp, by simp, by simp, by simp, fun i => ?_, by simp⟩, rfl, rfl⟩
  dsimp only
  rw [List.getD_eq_getElem?_getD, List.getElem?_replicate]
  split <;> decide

theorem Sound.set_latency {l : Lanes} (h : l.Sound) {path n : Nat} (hpath : path < l.paths)
    (hn : n < 2 ^ 64) (i : Nat) : (l.latency_ns.set path n).getD i 0 < 2 ^ 64 := by
  rw [flags.getD_set (by rw [h.latencies]; exact hpath)]
  split_ifs
  · exact hn
  · exact h.words i

theorem Sound.call {s t : Lanes × List Nat} (h : s.1.Sound) {c : Call} (hc : call s c = some t) :
    t.1.Sound ∧ t.1.paths = s.1.paths ∧ t.1.policy = s.1.policy := by
  obtain ⟨l, log⟩ := s
  cases c with
  | pick =>
    cases hc
    dsimp only at h ⊢
    unfold pick random
    split
    · exact ⟨⟨h.paths, h.latencies, h.flags, h.tiers, h.words, Nat.mod_lt _ (by decide)⟩, rfl, rfl⟩
    · exact ⟨⟨h.paths, h.latencies, h.flags, h.tiers, h.words, Nat.mod_lt _ (by decide)⟩, rfl, rfl⟩
    · exact ⟨⟨h.paths, h.latencies, h.flags, h.tiers, h.words, h.next⟩, rfl, rfl⟩
    · exact ⟨h, rfl, rfl⟩
  | set_tier path tier =>
    simp only [Lanes.call] at hc
    split_ifs at hc
    cases hc
    exact ⟨⟨h.paths, h.latencies, h.flags, by simpa [Lanes.set_tier] using h.tiers, h.words, h.next⟩,
      rfl, rfl⟩
  | record path nanos =>
    simp only [Lanes.call] at hc
    split_ifs at hc with hbound
    cases hc
    have hlt : (if l.latency_ns.getD path 0 = 0 then nanos
        else l.latency_ns.getD path 0 - l.latency_ns.getD path 0 / 8 + nanos / 8) < 2 ^ 64 :=
      average_lt (h.words path) hbound.2
    refine ⟨⟨h.paths, by simpa [Lanes.record] using h.latencies, h.flags, h.tiers, ?_, h.next⟩, rfl,
      rfl⟩
    exact h.set_latency hbound.1 (by omega)
  | mark_unavailable path =>
    simp only [Lanes.call] at hc
    split_ifs at hc with hbound
    cases hc
    refine ⟨⟨h.paths, by simpa [Lanes.mark_unavailable] using h.latencies,
      by simpa [Lanes.mark_unavailable] using h.flags, h.tiers, ?_, h.next⟩, rfl, rfl⟩
    exact h.set_latency hbound (by decide)
  | mark_available path =>
    simp only [Lanes.call] at hc
    split_ifs at hc with hbound
    cases hc
    refine ⟨⟨h.paths, by simpa [Lanes.mark_available] using h.latencies,
      by simpa [Lanes.mark_available] using h.flags, h.tiers, ?_, h.next⟩, rfl, rfl⟩
    exact h.set_latency hbound (by decide)

/-- What is left of any sequence of calls on new lanes. -/
theorem sound_of_run {paths : Nat} {policy : Policy} {seed : UInt64} {l : Lanes}
    (h : new paths policy seed = some l) {cs : List Call} {s : Lanes × List Nat}
    (hrun : machine.run call (l, []) cs = some s) :
    s.1.Sound ∧ s.1.paths = paths ∧ s.1.policy = policy := by
  obtain ⟨hsound, hpaths, hpolicy⟩ := new_sound h
  have hkept : s.1.Sound ∧ s.1.paths = l.paths ∧ s.1.policy = l.policy :=
    machine.invariant (P := fun s => s.1.Sound ∧ s.1.paths = l.paths ∧ s.1.policy = l.policy)
      (fun _ _ _ hs hc => by
        obtain ⟨h1, h2, h3⟩ := hs.1.call hc
        exact ⟨h1, h2.trans hs.2.1, h3.trans hs.2.2⟩) hrun ⟨hsound, rfl, rfl⟩
  exact ⟨hkept.1, hkept.2.1.trans hpaths, hkept.2.2.trans hpolicy⟩

/-! ## Tiers and availability -/

/-- The path is in rotation, and no path in rotation is of a lower tier. -/
structure Eligible (l : Lanes) (path : Nat) : Prop where
  lt : path < l.paths
  rotation : l.unavailable.getD path true = false
  standby : l.tier.getD path 0 < TIER_STANDBY
  lowest : ∀ q < l.paths, l.unavailable.getD q true = false → l.tier.getD path 0 ≤ l.tier.getD q 0

theorem best_tier_eq_some {l : Lanes} {t : Nat} (h : l.best_tier = some t) :
    t < TIER_STANDBY ∧ ∀ q < l.paths, l.unavailable.getD q true = false → t ≤ l.tier.getD q 0 := by
  unfold best_tier at h
  obtain ⟨hmin, hstandby⟩ := Option.filter_eq_some_iff.mp h
  refine ⟨by simpa using hstandby, fun q hq hrotation => ?_⟩
  apply (List.min?_eq_some_iff.mp hmin).2
  exact List.mem_map_of_mem (List.mem_filter.mpr ⟨List.mem_range.mpr hq, by simpa using hrotation⟩)

theorem eligible_of_usable {l : Lanes} {path : Nat} (hlt : path < l.paths)
    (h : l.is_usable path = true) : l.Eligible path := by
  unfold is_usable at h
  rw [Bool.and_eq_true, Bool.not_eq_true', beq_iff_eq] at h
  obtain ⟨hstandby, hlowest⟩ := best_tier_eq_some h.2.symm
  exact ⟨hlt, h.1, hstandby, hlowest⟩

theorem usable_count_eq_zero {l : Lanes} :
    l.usable_count = 0 ↔ ∀ p < l.paths, l.is_usable p = false := by
  unfold usable_count
  rw [List.countP_eq_zero]
  simp only [List.mem_range, Bool.not_eq_true]
  exact Iff.rfl

/-- What is promised of every choice. -/
structure Chosen (l : Lanes) : Prop where
  none_iff : l.pick_available.1 = none ↔ l.usable_count = 0
  eligible : ∀ p, l.pick_available.1 = some p → l.Eligible p
  avoiding_none_iff : ∀ avoid, (l.pick_available_avoiding avoid).1 = none ↔ l.usable_count = 0
  avoiding_eligible : ∀ avoid p, (l.pick_available_avoiding avoid).1 = some p → l.Eligible p
  avoids : ∀ avoid, (l.pick_available_avoiding avoid).1 = some avoid →
    ∀ q < l.paths, l.is_usable q = true → q = avoid
  no_overflow : ∀ path nanos, nanos < 2 ^ 64 →
    (if l.latency_ns.getD path 0 = 0 then nanos
      else l.latency_ns.getD path 0 - l.latency_ns.getD path 0 / 8 + nanos / 8) < 2 ^ 64

/-- The policy says where to start, and the avoided path is passed over. -/
theorem avoiding_cases (l : Lanes) (avoid : Nat) : ∃ m, SameRotation l m ∧
    l.pick_available_avoiding avoid =
      match (around m.paths l.pick.1).find? fun i => i != avoid && m.is_usable i with
      | some i => (some i, m)
      | none => m.pick_available := by
  unfold pick_available_avoiding pick
  cases l.policy with
  | RoundRobin => exact ⟨l, ⟨rfl, rfl, rfl⟩, rfl⟩
  | ReverseRoundRobin => exact ⟨l, ⟨rfl, rfl, rfl⟩, rfl⟩
  | Random => exact ⟨l.random.2, ⟨rfl, rfl, rfl⟩, rfl⟩
  | Fastest => exact ⟨l, ⟨rfl, rfl, rfl⟩, rfl⟩

theorem avoids (l : Lanes) (avoid : Nat) (h : (l.pick_available_avoiding avoid).1 = some avoid) :
    ∀ q < l.paths, l.is_usable q = true → q = avoid := by
  obtain ⟨m, hsame, hpick⟩ := avoiding_cases l avoid
  rw [hpick] at h
  split at h
  · rename_i i hi
    cases h
    have hfound := List.find?_some hi
    simp at hfound
  · rename_i hnone
    intro q hq hqu
    have hskip := List.find?_eq_none.mp hnone q (mem_around.mpr (hsame.paths ▸ hq))
    rw [hsame.is_usable, hqu, Bool.and_true] at hskip
    simpa using hskip

theorem Sound.chosen {l : Lanes} (h : l.Sound) : l.Chosen := by
  obtain ⟨-, hsome, hnone⟩ := pick_available.spec l
  refine ⟨?_, fun p hp => eligible_of_usable (hsome p hp).1 (hsome p hp).2, fun avoid => ?_,
    fun avoid p hp => ?_, fun avoid => l.avoids avoid,
    fun path nanos hn => average_lt (h.words path) hn⟩
  · rw [usable_count_eq_zero]
    refine ⟨hnone, fun hall => ?_⟩
    cases hp : l.pick_available.1 with
    | none => rfl
    | some p =>
      obtain ⟨hlt, husable⟩ := hsome p hp
      rw [hall p hlt] at husable
      cases husable
  · obtain ⟨-, hsome', hnone'⟩ := pick_available_avoiding.spec l avoid
    rw [usable_count_eq_zero]
    refine ⟨hnone', fun hall => ?_⟩
    cases hp : (l.pick_available_avoiding avoid).1 with
    | none => rfl
    | some p =>
      obtain ⟨hlt, husable⟩ := hsome' p hp
      rw [hall p hlt] at husable
      cases husable
  · obtain ⟨-, hsome', -⟩ := pick_available_avoiding.spec l avoid
    exact eligible_of_usable (hsome' p hp).1 (hsome' p hp).2

/-! ## Turns -/

/-- One of the two policies that count. -/
def Counts (policy : Policy) : Prop := policy = .RoundRobin ∨ policy = .ReverseRoundRobin

instance (policy : Policy) : Decidable (Counts policy) := inferInstanceAs (Decidable (_ ∨ _))

/-- Whose turn it is at a value of the counter. -/
def turn (l : Lanes) (x : Nat) : Nat :=
  if l.policy = .ReverseRoundRobin then l.paths - 1 - x % l.paths else x % l.paths

theorem pick_eq {l : Lanes} (h : Counts l.policy) :
    l.pick = (l.turn l.next, { l with next := (l.next + 1) % 2 ^ 64 }) := by
  unfold pick turn
  rcases h with h | h <;> rw [h] <;> rfl

theorem pick_lt {l : Lanes} (hl : l.Sound) (h : Counts l.policy) : l.pick.1 < l.paths := by
  rw [pick_eq h]
  have hlt := Nat.mod_lt l.next hl.paths
  dsimp only
  unfold turn
  split_ifs <;> omega

/-- Only a pick moves the counter or gives a turn. -/
theorem call_other {s t : Lanes × List Nat} {c : Call} (hc : call s c = some t) (hne : c ≠ .pick) :
    t.1.next = s.1.next ∧ t.2 = s.2 := by
  cases c with
  | pick => exact absurd rfl hne
  | set_tier path tier =>
    simp only [call] at hc
    split_ifs at hc
    cases hc
    exact ⟨rfl, rfl⟩
  | record path nanos =>
    simp only [call] at hc
    split_ifs at hc
    cases hc
    exact ⟨rfl, rfl⟩
  | mark_unavailable path =>
    simp only [call] at hc
    split_ifs at hc
    cases hc
    exact ⟨rfl, rfl⟩
  | mark_available path =>
    simp only [call] at hc
    split_ifs at hc
    cases hc
    exact ⟨rfl, rfl⟩

/-- The turns of any sequence of calls, and the counter behind it. -/
theorem turns_of_run {s t : Lanes × List Nat} (hs : s.1.Sound) (hpolicy : Counts s.1.policy)
    {cs : List Call} (hrun : machine.run call s cs = some t) :
    t.2 = s.2 ++ ((List.range (cs.count .pick)).map fun k => s.1.turn ((s.1.next + k) % 2 ^ 64)) ∧
      t.1.next = (s.1.next + cs.count .pick) % 2 ^ 64 := by
  induction cs generalizing s with
  | nil =>
    cases hrun
    exact ⟨by simp, (Nat.mod_eq_of_lt hs.next).symm⟩
  | cons c cs ih =>
    obtain ⟨u, hu, hrest⟩ := machine.run_cons_some call hrun
    obtain ⟨hsound, hpaths, hkept⟩ := hs.call hu
    obtain ⟨hlog, hnext⟩ := ih hsound (by rw [hkept]; exact hpolicy) hrest
    have hturn : u.1.turn = s.1.turn := by
      funext x
      unfold turn
      rw [hkept, hpaths]
    by_cases hc : c = .pick
    · subst hc
      have hu' : u = (s.1.pick.2, s.2 ++ [s.1.pick.1]) := (Option.some.inj hu).symm
      have hnext' : u.1.next = (s.1.next + 1) % 2 ^ 64 := by rw [hu', pick_eq hpolicy]
      have hlog' : u.2 = s.2 ++ [s.1.turn s.1.next] := by rw [hu', pick_eq hpolicy]
      rw [List.count_cons_self, List.range_succ_eq_map, List.map_cons, List.map_map]
      refine ⟨?_, ?_⟩
      · rw [hlog, hlog', hturn, hnext', List.append_assoc, List.singleton_append]
        congr 2
        · rw [Nat.add_zero, Nat.mod_eq_of_lt hs.next]
        · apply List.map_congr_left
          intro k _
          rw [Function.comp_apply, Nat.mod_add_mod, Nat.succ_eq_add_one, Nat.add_assoc,
            Nat.add_comm 1 k]
      · rw [hnext, hnext', Nat.mod_add_mod, Nat.add_assoc, Nat.add_comm 1]
    · obtain ⟨hn, hl⟩ := call_other hu hc
      rw [List.count_cons_of_ne hc, hlog, hnext, hturn, hn, hl]
      exact ⟨rfl, rfl⟩

/-- The next calls to pick, one for each path and with any other calls between them,
give every path one turn. -/
def FullTurns (l : Lanes) : Prop :=
  ∀ cs t, machine.run call (l, []) cs = some t → cs.count .pick = l.paths →
    t.2.Perm (List.range l.paths)

theorem picks_run (s : Lanes × List Nat) (n : Nat) :
    ∃ t, machine.run call s (List.replicate n .pick) = some t := by
  induction n generalizing s with
  | zero => exact ⟨s, rfl⟩
  | succ n ih =>
    obtain ⟨t, ht⟩ := ih (s.1.pick.2, s.2 ++ [s.1.pick.1])
    exact ⟨t, by rw [List.replicate_succ, machine.run_cons]; exact ht⟩

theorem turns_perm_iff {l : Lanes} (hl : l.Sound) (hbound : l.paths < 2 ^ 64) :
    ((List.range l.paths).map fun k => l.turn ((l.next + k) % 2 ^ 64)).Perm (List.range l.paths) ↔
      l.next + l.paths ≤ 2 ^ 64 ∨ l.paths ∣ 2 ^ 64 := by
  rw [← cycle.turns_iff hl.paths (Nat.le_of_lt hbound) hl.next]
  unfold turn
  split_ifs
  · rw [← cycle.reversed_perm_iff (l := (List.range l.paths).map fun k =>
      (l.next + k) % 2 ^ 64 % l.paths), List.map_map]
    · rfl
    · intro y hy
      obtain ⟨k, -, rfl⟩ := List.mem_map.mp hy
      exact Nat.mod_lt _ hl.paths
  · exact Iff.rfl

theorem full_turns_iff {l : Lanes} (hl : l.Sound) (hpolicy : Counts l.policy)
    (hbound : l.paths < 2 ^ 64) : l.FullTurns ↔ l.next + l.paths ≤ 2 ^ 64 ∨ l.paths ∣ 2 ^ 64 := by
  rw [← turns_perm_iff hl hbound]
  constructor
  · intro h
    obtain ⟨t, ht⟩ := picks_run (l, []) l.paths
    have hturns := (turns_of_run (s := (l, [])) hl hpolicy ht).1
    rw [List.count_replicate_self, List.nil_append] at hturns
    have hperm := h _ t ht List.count_replicate_self
    rwa [hturns] at hperm
  · intro h cs t ht hcount
    have hturns := (turns_of_run (s := (l, [])) hl hpolicy ht).1
    rw [hcount, List.nil_append] at hturns
    rw [hturns]
    exact h

/-- A path that can be used takes its own turn. -/
theorem pick_available_of_usable {l : Lanes} (hlt : l.pick.1 < l.paths)
    (husable : l.is_usable l.pick.1 = true) : l.pick_available.1 = some l.pick.1 := by
  have hsame := pick_same l
  unfold pick_available
  dsimp only
  rw [hsame.is_usable, hsame.paths]
  unfold around
  obtain ⟨n, hn⟩ : ∃ n, l.paths = n + 1 := ⟨l.paths - 1, by omega⟩
  rw [hn, List.range_succ_eq_map, List.map_cons, ← hn, Nat.add_zero, Nat.mod_eq_of_lt hlt,
    List.find?_cons_of_pos husable]

/-- For every policy, number of paths and sequence of calls: a choice is made exactly if
some path can be used, it is a path in rotation of the lowest tier, an avoided path is
chosen only if it is the only one, and no average passes 64 bits. The round robins give
each path one turn a cycle exactly if the counter does not wrap within it, or the paths
divide its 2⁶⁴ values. -/
theorem the_choice_respects_tiers_and_turns_iff_the_counter_does_not_wrap {paths : Nat}
    {policy : Policy} {seed : UInt64} {l₀ : Lanes} (h : new paths policy seed = some l₀)
    (hbound : paths < 2 ^ 64) {cs : List Call} {s : Lanes × List Nat}
    (hrun : machine.run call (l₀, []) cs = some s) :
    (s.1.Chosen ∧ (Counts policy → s.1.FullTurns ∧ ((∀ p < paths, s.1.is_usable p = true) →
      s.1.pick_available.1 = some s.1.pick.1))) ↔
    (Counts policy → cs.count .pick % 2 ^ 64 + paths ≤ 2 ^ 64 ∨ paths ∣ 2 ^ 64) := by
  obtain ⟨hsound, hpaths, hpolicy⟩ := sound_of_run h hrun
  obtain ⟨hsound₀, -, hpolicy₀⟩ := new_sound h
  have hnext : Counts policy → s.1.next = cs.count .pick % 2 ^ 64 := by
    intro hcounts
    have hzero : l₀.next = 0 := by
      unfold new at h
      split_ifs at h
      cases h
      rfl
    have hlast := (turns_of_run (s := (l₀, [])) hsound₀ (by rw [hpolicy₀]; exact hcounts) hrun).2
    rw [hlast, hzero, Nat.zero_add]
  have hiff : Counts policy → (s.1.FullTurns ↔
      cs.count .pick % 2 ^ 64 + paths ≤ 2 ^ 64 ∨ paths ∣ 2 ^ 64) := by
    intro hcounts
    rw [full_turns_iff hsound (by rw [hpolicy]; exact hcounts) (by rw [hpaths]; exact hbound),
      hnext hcounts, hpaths]
  constructor
  · rintro ⟨-, hturns⟩ hcounts
    exact (hiff hcounts).mp (hturns hcounts).1
  · intro hfits
    refine ⟨hsound.chosen, fun hcounts => ⟨(hiff hcounts).mpr (hfits hcounts), fun hall => ?_⟩⟩
    have hlt := pick_lt hsound (by rw [hpolicy]; exact hcounts)
    exact pick_available_of_usable hlt (hall _ (by rw [← hpaths]; exact hlt))

/-- Three paths, one of them out of rotation for a while, and the turns behind it. -/
theorem three_paths_take_turns : ∃ l₀ s, new 3 .ReverseRoundRobin 1 = some l₀ ∧
    machine.run call (l₀, []) [.pick, .mark_unavailable 1, .mark_available 1] = some s ∧
    s.1.FullTurns := by
  have hrun : ∃ l₀ s, new 3 .ReverseRoundRobin 1 = some l₀ ∧
      machine.run call (l₀, []) [.pick, .mark_unavailable 1, .mark_available 1] = some s :=
    ⟨_, _, rfl, rfl⟩
  obtain ⟨l₀, s, hnew, hs⟩ := hrun
  have h := (the_choice_respects_tiers_and_turns_iff_the_counter_does_not_wrap hnew (by decide)
    hs).mpr fun _ => .inl (by decide)
  exact ⟨l₀, s, hnew, hs, (h.2 (.inr rfl)).1⟩

/-- After 2⁶⁴ - 1 requests the counter wraps: of three paths the first gets two turns in
a row and the last none. -/
theorem the_first_of_three_paths_gets_two_turns : ∃ l₀ s, new 3 .RoundRobin 1 = some l₀ ∧
    machine.run call (l₀, []) (List.replicate (2 ^ 64 - 1) .pick) = some s ∧
    ¬ s.1.FullTurns := by
  have hnew : ∃ l₀, new 3 .RoundRobin 1 = some l₀ ∧ l₀.next = 0 := ⟨_, rfl, rfl⟩
  obtain ⟨l₀, hnew, hzero⟩ := hnew
  obtain ⟨hsound₀, -, hpolicy₀⟩ := new_sound hnew
  obtain ⟨s, hs⟩ := picks_run (l₀, []) (2 ^ 64 - 1)
  obtain ⟨hsound, hpaths, hpolicy⟩ := sound_of_run hnew hs
  have hnext := (turns_of_run (s := (l₀, [])) hsound₀ (.inl hpolicy₀) hs).2
  rw [List.count_replicate_self, hzero] at hnext
  refine ⟨l₀, s, hnew, hs, fun hfull => ?_⟩
  have hfits := (full_turns_iff hsound (.inl hpolicy) (by rw [hpaths]; decide)).mp hfull
  rw [hpaths, hnext] at hfits
  exact absurd hfits (by decide)

end Lanes

end stutools
