-- Choosing the path of each request: the policy says where to start, and a
-- path that is out of rotation or not in the best tier is passed over.
import Mathlib.Algebra.Group.Nat.Defs
import Mathlib.Data.List.MinMax

namespace stutools

/-- The paths from `start` on, each once. -/
def around (paths start : Nat) : List Nat := (List.range paths).map fun k => (start + k) % paths

theorem mem_around {paths start p : Nat} : p ∈ around paths start ↔ p < paths := by
  unfold around
  rw [List.mem_map]
  constructor
  · rintro ⟨k, hk, rfl⟩
    have hpos : 0 < paths := Nat.zero_lt_of_lt (List.mem_range.mp hk)
    exact Nat.mod_lt _ hpos
  · intro hp
    have hs : start % paths < paths := Nat.mod_lt _ (by omega)
    refine ⟨(p + paths - start % paths) % paths, List.mem_range.mpr (Nat.mod_lt _ (by omega)), ?_⟩
    have hsum : start % paths + (p + paths - start % paths) = p + paths := by omega
    calc (start + (p + paths - start % paths) % paths) % paths
        = (start % paths + (p + paths - start % paths)) % paths := by
          rw [Nat.add_mod_mod, Nat.mod_add_mod]
      _ = p := by rw [hsum, Nat.add_mod_right, Nat.mod_eq_of_lt hp]

/-- The tier of a path whose ALUA state is active/optimized. -/
def TIER_OPTIMIZED : Nat := 0

/-- A path of this tier never takes I/O. -/
def TIER_STANDBY : Nat := 2

inductive Policy where
  | RoundRobin
  | ReverseRoundRobin
  | Random
  | Fastest
deriving DecidableEq, Repr

/-- `Lanes`: the paths of a workload, and the state each policy needs. -/
structure Lanes where
  paths : Nat
  policy : Policy
  next : Nat
  seed : UInt64
  /-- The recent latency of each path, zero until it is measured. -/
  latency_ns : List Nat
  unavailable : List Bool
  tier : List Nat

namespace Lanes

/-- `Lanes::new`. -/
def new (paths : Nat) (policy : Policy) (seed : UInt64) : Option Lanes :=
  if paths = 0 then none
  else some
    { paths
      policy
      next := 0
      seed := max seed 1
      latency_ns := List.replicate paths 0
      unavailable := List.replicate paths false
      tier := List.replicate paths TIER_OPTIMIZED }

/-- xorshift64, one step per call. -/
def random (l : Lanes) : UInt64 × Lanes :=
  let x := l.seed
  let x := x ^^^ (x <<< 13)
  let x := x ^^^ (x >>> 7)
  let x := x ^^^ (x <<< 17)
  (x, { l with seed := x })

/-- The first path not measured yet, else the first of lowest latency. -/
def fastest (l : Lanes) : Nat :=
  match (List.range l.paths).find? fun i => l.latency_ns.getD i 0 == 0 with
  | some unmeasured => unmeasured
  | none => ((List.range l.paths).argmin fun i => l.latency_ns.getD i 0).getD 0

/-- The path for the next request. -/
def pick (l : Lanes) : Nat × Lanes :=
  match l.policy with
  | .RoundRobin => (l.next % l.paths, { l with next := (l.next + 1) % 2 ^ 64 })
  | .ReverseRoundRobin =>
    (l.paths - 1 - l.next % l.paths, { l with next := (l.next + 1) % 2 ^ 64 })
  | .Random => (l.random.1.toNat % l.paths, l.random.2)
  | .Fastest => (l.fastest, l)

/-- The lowest tier with a path in rotation, if that tier can take I/O at all. -/
def best_tier (l : Lanes) : Option Nat :=
  ((((List.range l.paths).filter fun i => !l.unavailable.getD i true).map
    fun i => l.tier.getD i 0).min?).filter (· < TIER_STANDBY)

/-- Whether a path may take a request now: in rotation and in the best tier. -/
def is_usable (l : Lanes) (path : Nat) : Bool :=
  !l.unavailable.getD path true && some (l.tier.getD path 0) == l.best_tier

/-- The path for the next request, skipping any that cannot serve I/O. -/
def pick_available (l : Lanes) : Option Nat × Lanes :=
  let (start, l) := l.pick
  ((around l.paths start).find? l.is_usable, l)

/-- Like `pick_available`, but never `avoid` unless no other path is available. -/
def pick_available_avoiding (l : Lanes) (avoid : Nat) : Option Nat × Lanes :=
  let (start, l) := match l.policy with
    -- Reads do not advance the rotation.
    | .RoundRobin => (l.next % l.paths, l)
    | .ReverseRoundRobin => (l.paths - 1 - l.next % l.paths, l)
    | .Random => l.pick
    | .Fastest => l.pick
  match (around l.paths start).find? fun i => i != avoid && l.is_usable i with
  | some i => (some i, l)
  | none => l.pick_available

def set_tier (l : Lanes) (path tier : Nat) : Lanes := { l with tier := l.tier.set path tier }

/-- Puts a path back in rotation. Its latency is measured again. -/
def mark_available (l : Lanes) (path : Nat) : Lanes :=
  { l with unavailable := l.unavailable.set path false, latency_ns := l.latency_ns.set path 0 }

/-- Takes a path out of rotation. -/
def mark_unavailable (l : Lanes) (path : Nat) : Lanes :=
  { l with
    unavailable := l.unavailable.set path true
    latency_ns := l.latency_ns.set path (2 ^ 64 - 1) }

/-- Records how long a request took. The average moves 1/8 towards the sample. -/
def record (l : Lanes) (path nanos : Nat) : Lanes :=
  let old := l.latency_ns.getD path 0
  let new := if old = 0 then nanos else old - old / 8 + nanos / 8
  { l with latency_ns := l.latency_ns.set path (max new 1) }

/-! ## What a choice leaves as it is -/

/-- The paths that can take a request are the same in both. -/
structure SameRotation (l m : Lanes) : Prop where
  paths : m.paths = l.paths
  unavailable : m.unavailable = l.unavailable
  tier : m.tier = l.tier

theorem SameRotation.is_usable {l m : Lanes} (h : SameRotation l m) : m.is_usable = l.is_usable := by
  have hbest : m.best_tier = l.best_tier := by
    unfold best_tier
    rw [h.paths, h.unavailable, h.tier]
  funext p
  unfold Lanes.is_usable
  rw [hbest, h.unavailable, h.tier]

theorem SameRotation.trans {l m n : Lanes} (h1 : SameRotation l m) (h2 : SameRotation m n) :
    SameRotation l n :=
  ⟨h2.paths.trans h1.paths, h2.unavailable.trans h1.unavailable, h2.tier.trans h1.tier⟩

theorem pick_same (l : Lanes) : SameRotation l l.pick.2 := by
  unfold pick random
  split <;> exact ⟨rfl, rfl, rfl⟩

/-- A choice is a usable path, and there is none only when no path is usable. -/
theorem pick_available.spec (l : Lanes) : SameRotation l l.pick_available.2 ∧
    (∀ p, l.pick_available.1 = some p → p < l.paths ∧ l.is_usable p = true) ∧
    (l.pick_available.1 = none → ∀ p < l.paths, l.is_usable p = false) := by
  have hsame := pick_same l
  have husable := hsame.is_usable
  refine ⟨hsame, fun p hp => ?_, fun hnone p hp => ?_⟩
  · unfold pick_available at hp
    dsimp only at hp
    rw [husable, hsame.paths] at hp
    exact ⟨mem_around.mp (List.mem_of_find?_eq_some hp), List.find?_some hp⟩
  · unfold pick_available at hnone
    dsimp only at hnone
    rw [husable, hsame.paths] at hnone
    simpa using List.find?_eq_none.mp hnone p (mem_around.mpr hp)

theorem pick_available_avoiding.spec (l : Lanes) (avoid : Nat) :
    SameRotation l (l.pick_available_avoiding avoid).2 ∧
    (∀ p, (l.pick_available_avoiding avoid).1 = some p → p < l.paths ∧ l.is_usable p = true) ∧
    ((l.pick_available_avoiding avoid).1 = none → ∀ p < l.paths, l.is_usable p = false) := by
  unfold pick_available_avoiding
  generalize hstart : (match l.policy with
    | .RoundRobin => (l.next % l.paths, l)
    | .ReverseRoundRobin => (l.paths - 1 - l.next % l.paths, l)
    | .Random => l.pick
    | .Fastest => l.pick) = picked
  have hsame : SameRotation l picked.2 := by
    rw [← hstart]
    split
    · exact ⟨rfl, rfl, rfl⟩
    · exact ⟨rfl, rfl, rfl⟩
    · exact pick_same l
    · exact pick_same l
  obtain ⟨start, m⟩ := picked
  have husable := hsame.is_usable
  dsimp only at hsame husable ⊢
  split
  · rename_i i hi
    refine ⟨hsame, fun p hp => ?_, nofun⟩
    obtain rfl := Option.some.inj hp
    have hlt := mem_around.mp (List.mem_of_find?_eq_some hi)
    have hfound := List.find?_some hi
    rw [Bool.and_eq_true, husable] at hfound
    exact ⟨hsame.paths ▸ hlt, hfound.2⟩
  · obtain ⟨h1, h2, h3⟩ := pick_available.spec m
    rw [husable, hsame.paths] at h2 h3
    exact ⟨hsame.trans h1, h2, h3⟩

end Lanes

end stutools
