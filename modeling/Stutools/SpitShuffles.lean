-- How a container's positions are put in another order (src/c/spit/positions.c): the shuffle, the
-- swaps with a position nearby, and the shuffle of one block after another. `size_t` differences
-- wrap as the source has them, and indices of a container (fewer than 2^31) are signed in between.
import Stutools.Exchanges
import Stutools.SpitRange

open exchanges

namespace stutools.spit.shuffle

open create (sub64 sub64_of_le)

def RAND_MAX : Nat := 2 ^ 31 - 1

/-- The positions, the number of values drawn, and the swaps that were made. -/
structure Shuffle (α : Type*) where
  positions : Array α
  drawn : Nat
  swaps : List (Nat × Nat)

variable {α : Type*} (rand_r : Nat → Nat) (keepRunning : Nat → Bool)

namespace Shuffle

def start (positions : Array α) : Shuffle α := { positions, drawn := 0, swaps := [] }

/-- The swap of `positions[i]` and `positions[j]`. -/
def swap (s : Shuffle α) (i j : Nat) : Option (Shuffle α) :=
  (exchange s.positions (i, j)).map fun positions =>
    { s with positions, swaps := s.swaps ++ [(i, j)] }

/-- A `for` loop with `n` turns left, from turn `i` on, that ends early when the program does. -/
def turns (turn : Shuffle α → Nat → Option (Shuffle α)) :
    Nat → Nat → Shuffle α → Option (Shuffle α)
  | 0, _, s => some s
  | n + 1, i, s => if keepRunning i then (turn s i).bind (turns turn n (i + 1)) else some s

/-! ## The shuffle -/

def randomizeTurn (count : Nat) (s : Shuffle α) (i : Nat) : Option (Shuffle α) :=
  if i < sub64 count 2 ∧ 1 ≤ sub64 count i then
    let j := i + rand_r s.drawn % sub64 count i
    if j < count then { s with drawn := s.drawn + 1 }.swap i j else none
  else none

def positionsRandomize (count : Nat) (s : Shuffle α) : Option (Shuffle α) :=
  turns keepRunning (randomizeTurn rand_r count) (sub64 count 2) 0 s

def positionContainerRandomize (s : Shuffle α) : Option (Shuffle α) :=
  let count := s.positions.size
  if 1 < count then positionsRandomize rand_r keepRunning count s else some s

/-! ## The swaps with a position nearby -/

/-- A `size_t` as a `long`. -/
def long (n : Nat) : Int := if n < 2 ^ 63 then n else n - 2 ^ 64

def probthres (inprob : ℚ) : Int := ⌈float.f64 (float.f64 (1 - inprob) * RAND_MAX)⌉

def clampedRange (inrange sz : Nat) : Int :=
  let range := if long inrange < 1 then 1 else long inrange
  if long sz ≤ range then long sz else range

/-- The index to swap with, and the number of values drawn. None when an assertion fails. -/
def nearby (range : Int) (count : Nat) (drawn i : Nat) : Option (Int × Nat) :=
  let gaprange := 2 * range
  if 2 ≤ gaprange then
    let rrr := (rand_r drawn : Int) % gaprange
    let newj :=
      if rrr < range then long (sub64 (sub64 i 1) (rrr / 2).toNat)
      else long ((i + 1 + (rrr / 2).toNat) % 2 ^ 64)
    let gap := (i : Int) - newj
    let gap := if gap < 0 then -gap else gap
    if 0 < gap ∧ gap ≤ range then
      let newj := if newj < 0 then 0 else newj
      let newj := if long count ≤ newj then long (sub64 count 1) else newj
      some (newj, drawn + 1)
    else none
  else some (0, drawn)

def probandTurn (range thres : Int) (count : Nat) (s : Shuffle α) (i : Nat) :
    Option (Shuffle α) :=
  if (rand_r s.drawn : Int) < thres then
    (nearby rand_r range count (s.drawn + 1) i).bind fun (newj, drawn) =>
      if 0 ≤ newj then { s with drawn }.swap i newj.toNat else none
  else some { s with drawn := s.drawn + 1 }

def positionContainerRandomizeProbandRange (inprob : ℚ) (inrange : Nat) (s : Shuffle α) :
    Option (Shuffle α) :=
  let count := s.positions.size
  if inrange = 0 then some s
  else if 0 ≤ inprob ∧ inprob ≤ 1 ∧ 0 < probthres inprob ∧ probthres inprob ≤ RAND_MAX then
    turns keepRunning (probandTurn rand_r (clampedRange inrange count) (probthres inprob) count)
      count 0 s
  else none

/-! ## The shuffle in blocks -/

def jumbleTurn (jumble count i2 : Nat) (s : Shuffle α) (j : Nat) : Option (Shuffle α) :=
  let start := (i2 + j) % 2 ^ 64
  let swappos := (i2 + rand_r s.drawn % jumble) % 2 ^ 64
  let s := { s with drawn := s.drawn + 1 }
  if swappos < count then s.swap start swappos else some s

/-- The `while` loop. None when an index is outside, or when there is no fuel left. -/
def jumbleFrom (jumble count : Nat) : Nat → Nat → Shuffle α → Option (Shuffle α)
  | 0, _, _ => none
  | fuel + 1, i2, s =>
    if i2 < sub64 count jumble then
      (machine.run (jumbleTurn rand_r jumble count i2) s (List.range jumble)).bind
        (jumbleFrom jumble count fuel ((i2 + jumble) % 2 ^ 64))
    else some s

def positionContainerJumble (fuel jumble : Nat) (s : Shuffle α) : Option (Shuffle α) :=
  if 1 ≤ jumble then jumbleFrom rand_r jumble s.positions.size fuel 0 s else none

/-! ## What was swapped -/

/-- The positions are those of the beginning after swaps that were made, each of two entries that
are no further apart than the limit. -/
structure Swapped (xs : Array α) (limit : Nat) (s : Shuffle α) : Prop where
  replay : machine.run exchange xs s.swaps = some s.positions
  near : ∀ p ∈ s.swaps, p.1 ≤ p.2 + limit ∧ p.2 ≤ p.1 + limit

variable {rand_r : Nat → Nat} {keepRunning : Nat → Bool} {xs : Array α} {limit : Nat}
  {s : Shuffle α}

theorem start_swapped (xs : Array α) (limit : Nat) : (start xs).Swapped xs limit :=
  ⟨rfl, fun p hp => by cases hp⟩

theorem Swapped.perm (h : s.Swapped xs limit) : s.positions.Perm xs := run_perm h.replay

theorem Swapped.size_eq (h : s.Swapped xs limit) : s.positions.size = xs.size := h.perm.size_eq

theorem Swapped.drew (h : s.Swapped xs limit) (drawn : Nat) :
    { s with drawn }.Swapped xs limit := ⟨h.replay, h.near⟩

theorem swap.spec (h : s.Swapped xs limit) {i j : Nat} (hi : i < xs.size) (hj : j < xs.size)
    (hnear : i ≤ j + limit ∧ j ≤ i + limit) :
    ∃ s', s.swap i j = some s' ∧ s'.Swapped xs limit := by
  rw [← h.size_eq] at hi hj
  obtain ⟨ys, hys⟩ := exists_exchange hi hj
  unfold swap
  rw [hys, Option.map_some]
  refine ⟨_, rfl, run_snoc h.replay hys, fun p hp => ?_⟩
  obtain hp | hp := List.mem_append.mp hp
  · exact h.near p hp
  · rw [List.mem_singleton.mp hp]
    exact hnear

/-- What every turn of a loop does and keeps, the loop does and keeps. -/
theorem turns.spec {turn : Shuffle α → Nat → Option (Shuffle α)} {P : Shuffle α → Prop}
    {n i bound : Nat} (hbound : i + n ≤ bound)
    (hturn : ∀ s i, P s → i < bound → ∃ s', turn s i = some s' ∧ P s') (hs : P s) :
    ∃ s', turns keepRunning turn n i s = some s' ∧ P s' := by
  induction n generalizing i s with
  | zero => exact ⟨s, rfl, hs⟩
  | succ n ih =>
    unfold turns
    split
    · obtain ⟨t, ht, hPt⟩ := hturn s i hs (by omega)
      rw [ht, Option.bind_some]
      exact ih (by omega) hPt
    · exact ⟨s, rfl, hs⟩

/-! ## The shuffle -/

theorem randomizeTurn.spec (hsize : xs.size < 2 ^ 31) (h : s.Swapped xs xs.size) {i : Nat}
    (hi : i < xs.size - 2) :
    ∃ s', randomizeTurn rand_r xs.size s i = some s' ∧ s'.Swapped xs xs.size := by
  have hbound : sub64 xs.size 2 = xs.size - 2 := sub64_of_le (by omega) (by omega)
  have hleft : sub64 xs.size i = xs.size - i := sub64_of_le (by omega) (by omega)
  have hj := Nat.mod_lt (rand_r s.drawn) (show 0 < xs.size - i by omega)
  unfold randomizeTurn
  rw [hbound, hleft, if_pos ⟨hi, by omega⟩]
  dsimp only
  rw [if_pos (by omega)]
  exact swap.spec (h.drew _) (by omega) (by omega) (by omega)

theorem positionContainerRandomize.spec (hsize : xs.size < 2 ^ 31) :
    ∃ s, positionContainerRandomize rand_r keepRunning (start xs) = some s ∧
      s.positions.Perm xs := by
  unfold positionContainerRandomize positionsRandomize
  dsimp only [start]
  split
  · have hbound : sub64 xs.size 2 = xs.size - 2 := sub64_of_le (by omega) (by omega)
    obtain ⟨s, hturns, hs⟩ : ∃ s, turns keepRunning (randomizeTurn rand_r xs.size) (xs.size - 2) 0
        (start xs) = some s ∧ s.Swapped xs xs.size :=
      turns.spec (P := fun s => s.Swapped xs xs.size) (Nat.zero_add _).le
        (fun s i hs hi => randomizeTurn.spec hsize hs hi) (start_swapped xs xs.size)
    exact ⟨s, by rw [hbound]; exact hturns, hs.perm⟩
  · exact ⟨_, rfl, .refl xs⟩

/-! ## The swaps with a position nearby -/

theorem probthres.spec {inprob : ℚ} (hpos : 0 < inprob) (hlt : inprob < 1) :
    0 < probthres inprob ∧ probthres inprob ≤ RAND_MAX := by
  have hleft : 0 < float.f64 (1 - inprob) := float.f64_pos (by linarith)
  have hle : float.f64 (1 - inprob) ≤ (1 : ℕ) :=
    float.f64_le_natCast (by linarith) (by rw [Nat.cast_one]; linarith) (by decide)
  rw [Nat.cast_one] at hle
  have hmax : (0 : ℚ) < RAND_MAX := by norm_num [RAND_MAX]
  have hprod : 0 < float.f64 (1 - inprob) * RAND_MAX := mul_pos hleft hmax
  refine ⟨Int.ceil_pos.mpr (float.f64_pos hprod), Int.ceil_le.mpr ?_⟩
  exact float.f64_le_natCast hprod (mul_le_of_le_one_left hmax.le hle) (by decide)

theorem clampedRange.spec {inrange sz : Nat} (hrange : 0 < inrange) (hmax : inrange < 2 ^ 64)
    (hpos : 0 < sz) (hsz : sz < 2 ^ 31) : ∃ range : Nat,
      clampedRange inrange sz = range ∧ 0 < range ∧ range ≤ sz ∧ range ≤ inrange := by
  have hlong : long sz = sz := if_pos (by omega)
  refine ⟨(clampedRange inrange sz).toNat, ?_⟩
  unfold clampedRange
  rw [hlong]
  unfold long
  dsimp only
  split <;> split <;> split <;> omega

/-- The difference of indices is right, also when the unsigned one wraps. -/
theorem long_sub {i k : Nat} (hi : i < 2 ^ 31) (hk : k < 2 ^ 31) :
    long (sub64 (sub64 i 1) k) = (i : Int) - 1 - k := by
  unfold long sub64
  split <;> omega

theorem nearby.spec {range count drawn i : Nat} (hrange : 0 < range) (hle : range ≤ count)
    (hcount : count < 2 ^ 31) (hi : i < count) :
    ∃ j : Nat, nearby rand_r range count drawn i = some ((j : Int), drawn + 1) ∧ j < count ∧
      i ≤ j + range ∧ j ≤ i + range := by
  have hlong : long count = count := if_pos (by omega)
  have hlast : long (sub64 count 1) = (count : Int) - 1 := by
    rw [sub64_of_le (by omega) (by omega)]
    unfold long
    split <;> omega
  have hrrr := Int.emod_lt_of_pos (rand_r drawn : Int) (show (0 : Int) < 2 * range by omega)
  have hnonneg := Int.emod_nonneg (rand_r drawn : Int) (show (2 * range : Int) ≠ 0 by omega)
  unfold nearby
  dsimp only
  rw [if_pos (by omega)]
  generalize (rand_r drawn : Int) % (2 * range) = rrr at hrrr hnonneg ⊢
  have hnewj : (if rrr < range then long (sub64 (sub64 i 1) (rrr / 2).toNat)
      else long ((i + 1 + (rrr / 2).toNat) % 2 ^ 64)) =
      if rrr < range then (i : Int) - 1 - rrr / 2 else i + 1 + rrr / 2 := by
    split
    · rw [long_sub (by omega) (by omega)]
      omega
    · unfold long
      split <;> omega
  rw [hnewj, hlong, hlast]
  -- the place before the clamp is between one and `range` entries away
  obtain ⟨newj, hj, hgap⟩ : ∃ newj : Int, (if rrr < range then (i : Int) - 1 - rrr / 2
      else i + 1 + rrr / 2) = newj ∧ newj ≠ i ∧ i - range ≤ newj ∧ newj ≤ i + range :=
    ⟨_, rfl, by split <;> omega⟩
  rw [hj, if_pos (by split <;> omega)]
  refine ⟨(if (count : Int) ≤ if newj < 0 then 0 else newj then (count : Int) - 1
    else if newj < 0 then 0 else newj).toNat, ?_⟩
  split <;> split <;> grind

theorem probandTurn.spec {range : Nat} {thres : Int} (hrange : 0 < range) (hle : range ≤ xs.size)
    (hlimit : range ≤ limit) (hsize : xs.size < 2 ^ 31) (h : s.Swapped xs limit) {i : Nat}
    (hi : i < xs.size) :
    ∃ s', probandTurn rand_r range thres xs.size s i = some s' ∧ s'.Swapped xs limit := by
  unfold probandTurn
  split
  · obtain ⟨j, hnearby, hj, hnear⟩ :=
      @nearby.spec rand_r range xs.size (s.drawn + 1) i hrange hle hsize hi
    rw [hnearby, Option.bind_some]
    dsimp only
    rw [if_pos (Int.natCast_nonneg j)]
    exact swap.spec (h.drew _) hi (by rwa [Int.toNat_natCast])
      (by rw [Int.toNat_natCast]; omega)
  · exact ⟨_, rfl, h.drew _⟩

theorem positionContainerRandomizeProbandRange.spec (hpos : 0 < xs.size)
    (hsize : xs.size < 2 ^ 31) {inprob : ℚ} (hprob : 0 < inprob ∧ inprob < 1) {inrange : Nat}
    (hrange : 0 < inrange) (hmax : inrange < 2 ^ 64) :
    ∃ s, positionContainerRandomizeProbandRange rand_r keepRunning inprob inrange (start xs) =
      some s ∧ s.Swapped xs inrange := by
  obtain ⟨range, hclamped, hone, hle, hlimit⟩ := clampedRange.spec hrange hmax hpos hsize
  have hthres := probthres.spec hprob.1 hprob.2
  unfold positionContainerRandomizeProbandRange
  dsimp only [start]
  rw [if_neg hrange.ne', if_pos ⟨hprob.1.le, hprob.2.le, hthres⟩, hclamped]
  exact turns.spec (P := fun s => s.Swapped xs inrange) (Nat.zero_add _).le
    (fun s i hs hi => probandTurn.spec hone hle hlimit hsize hs hi) (start_swapped xs inrange)

/-! ## The shuffle in blocks -/

theorem jumbleTurn.spec {jumble i2 j : Nat} (hsize : xs.size < 2 ^ 31) (hj : j < jumble)
    (hblock : i2 + jumble < xs.size) (h : s.Swapped xs xs.size) :
    ∃ s', jumbleTurn rand_r jumble xs.size i2 s j = some s' ∧ s'.Swapped xs xs.size := by
  have hdraw := Nat.mod_lt (rand_r s.drawn) (show 0 < jumble by omega)
  unfold jumbleTurn
  dsimp only
  rw [Nat.mod_eq_of_lt (show i2 + j < 2 ^ 64 by omega),
    Nat.mod_eq_of_lt (show i2 + rand_r s.drawn % jumble < 2 ^ 64 by omega), if_pos (by omega)]
  exact swap.spec (h.drew _) (by omega) (by omega) (by omega)

theorem jumbleFrom.spec {jumble : Nat} (hsize : xs.size < 2 ^ 31) (hpos : 0 < jumble)
    (hle : jumble ≤ xs.size) (i2 : Nat) (h : s.Swapped xs xs.size) :
    ∃ fuel s', jumbleFrom rand_r jumble xs.size fuel i2 s = some s' ∧
      s'.Swapped xs xs.size := by
  have hbound : sub64 xs.size jumble = xs.size - jumble := sub64_of_le hle (by omega)
  induction hn : xs.size - i2 using Nat.strong_induction_on generalizing i2 s with
  | _ n ih =>
    by_cases hblock : i2 < xs.size - jumble
    · have hall : machine.Along (jumbleTurn rand_r jumble xs.size i2) (fun _ j => j < jumble) s
          (List.range jumble) := machine.along_of_mem _ (fun j hj _ => List.mem_range.mp hj) s
      obtain ⟨t, hrun, ht⟩ := machine.exists_run_along (P := fun s => s.Swapped xs xs.size)
        (fun s j hs hj => jumbleTurn.spec hsize hj (by omega) hs) hall h
      obtain ⟨fuel, s', hrest, hs'⟩ := ih (xs.size - (i2 + jumble)) (by omega) (i2 + jumble) ht rfl
      refine ⟨fuel + 1, s', ?_, hs'⟩
      rw [jumbleFrom, hbound, if_pos hblock, hrun, Option.bind_some,
        Nat.mod_eq_of_lt (show i2 + jumble < 2 ^ 64 by omega)]
      exact hrest
    · refine ⟨1, s, ?_, h⟩
      rw [jumbleFrom, hbound, if_neg hblock]

theorem positionContainerJumble.spec {jumble : Nat} (hsize : xs.size < 2 ^ 31) (hpos : 1 ≤ jumble)
    (hle : jumble ≤ xs.size) :
    ∃ fuel s, positionContainerJumble rand_r fuel jumble (start xs) = some s ∧
      s.positions.Perm xs := by
  obtain ⟨fuel, s, hfrom, hs⟩ := @jumbleFrom.spec α rand_r xs (start xs) jumble hsize hpos hle 0
    (start_swapped xs xs.size)
  exact ⟨fuel, s, (if_pos hpos).trans hfrom, hs.perm⟩

theorem jumbleTurn_size {jumble count i2 j : Nat} {t : Shuffle α}
    (h : jumbleTurn rand_r jumble count i2 s j = some t) : t.positions.size = s.positions.size := by
  unfold jumbleTurn at h
  dsimp only at h
  split at h
  · obtain ⟨ys, hys, rfl⟩ := Option.map_eq_some_iff.mp h
    exact (exchange_perm hys).size_eq
  · cases h
    rfl

/-- A block longer than the container reaches behind it, when the generator gives zeros. -/
theorem positionContainerJumble_none {jumble : Nat} (hpos : 0 < xs.size) (hsize : xs.size < 2 ^ 31)
    (hlt : xs.size < jumble) (hmax : jumble < 2 ^ 64) (fuel : Nat) :
    positionContainerJumble (fun _ => 0) fuel jumble (start xs) = none := by
  have hbound : 0 < sub64 xs.size jumble := by
    unfold sub64
    omega
  have hnone : machine.run (jumbleTurn (fun _ => 0) jumble xs.size 0) (start xs)
      (List.range jumble) = none := by
    by_contra hsome
    obtain ⟨u, hrun⟩ := Option.ne_none_iff_exists'.mp hsome
    obtain ⟨before, after, hsplit⟩ := List.append_of_mem (List.mem_range.mpr hlt)
    rw [hsplit, machine.run_append] at hrun
    obtain ⟨t, hbefore, hrun⟩ := Option.bind_eq_some_iff.mp hrun
    have ht : t.positions.size = xs.size :=
      machine.invariant (P := fun s => s.positions.size = xs.size)
        (fun s j t hs hstep => (jumbleTurn_size hstep).trans hs) hbefore rfl
    obtain ⟨v, hturn, -⟩ := machine.run_cons_some _ hrun
    unfold jumbleTurn at hturn
    dsimp only at hturn
    rw [Nat.zero_mod, Nat.zero_add, Nat.zero_mod, if_pos hpos, Nat.zero_add,
      Nat.mod_eq_of_lt (by omega), swap, exchange_none (by rw [ht])] at hturn
    cases hturn
  unfold positionContainerJumble
  rw [if_pos (by omega)]
  dsimp only [start] at hnone ⊢
  cases fuel with
  | zero => rfl
  | succ fuel => rw [jumbleFrom, if_pos hbound, hnone, Option.bind_none]

/-! ## All three -/

/-- The three ways end within bounds with a permutation, for every value of the generator, and
no swap with a position nearby goes further than its range, exactly when no block is longer than
the container. -/
theorem positions_are_permuted_iff_no_block_is_longer (hpos : 0 < xs.size)
    (hsize : xs.size < 2 ^ 31) {inprob : ℚ} (hprob : 0 < inprob ∧ inprob < 1) {inrange : Nat}
    (hrange : 0 < inrange ∧ inrange < 2 ^ 64) {jumble : Nat}
    (hjumble : 1 ≤ jumble ∧ jumble < 2 ^ 64) :
    (∀ (rand_r : Nat → Nat) (keepRunning : Nat → Bool), (∀ n, rand_r n ≤ RAND_MAX) →
      (∃ s, positionContainerRandomize rand_r keepRunning (start xs) = some s ∧
        s.positions.Perm xs) ∧
      (∃ s, positionContainerRandomizeProbandRange rand_r keepRunning inprob inrange (start xs) =
        some s ∧ s.positions.Perm xs ∧ s.Swapped xs inrange) ∧
      ∃ fuel s, positionContainerJumble rand_r fuel jumble (start xs) = some s ∧
        s.positions.Perm xs) ↔ jumble ≤ xs.size := by
  constructor
  · intro h
    by_contra hlt
    obtain ⟨-, -, fuel, s, hjumbled, -⟩ := h (fun _ => 0) (fun _ => true) (fun _ => Nat.zero_le _)
    rw [positionContainerJumble_none hpos hsize (Nat.lt_of_not_le hlt) hjumble.2] at hjumbled
    cases hjumbled
  · intro hle rand_r keepRunning _
    obtain ⟨s, hnearby, hs⟩ := @positionContainerRandomizeProbandRange.spec α rand_r keepRunning xs
      hpos hsize inprob hprob inrange hrange.1 hrange.2
    exact ⟨positionContainerRandomize.spec hsize, ⟨s, hnearby, hs.perm, hs⟩,
      positionContainerJumble.spec hsize hjumble.1 hle⟩

/-- One position, and blocks of two: with zeros from the generator, the second swap is with
`positions[1]`. -/
theorem a_block_of_two_reaches_behind_one_position :
    ¬ ∃ fuel s, positionContainerJumble (fun _ => 0) fuel 2 (start #[0]) = some s := by
  rintro ⟨fuel, s, hs⟩
  rw [positionContainerJumble_none (by decide) (by decide) (by decide) (by decide)] at hs
  cases hs

theorem three_positions_are_permuted :
    (∀ (rand_r : Nat → Nat) (keepRunning : Nat → Bool), (∀ n, rand_r n ≤ RAND_MAX) →
      (∃ s, positionContainerRandomize rand_r keepRunning (start #[1, 2, 3]) = some s ∧
        s.positions.Perm #[1, 2, 3]) ∧
      (∃ s, positionContainerRandomizeProbandRange rand_r keepRunning (1 / 2) 2
        (start #[1, 2, 3]) = some s ∧ s.positions.Perm #[1, 2, 3] ∧ s.Swapped #[1, 2, 3] 2) ∧
      ∃ fuel s, positionContainerJumble rand_r fuel 2 (start #[1, 2, 3]) = some s ∧
        s.positions.Perm #[1, 2, 3]) ↔ 2 ≤ (#[1, 2, 3] : Array Nat).size :=
  positions_are_permuted_iff_no_block_is_longer (by decide) (by decide) (by norm_num) (by decide)
    (by decide)

end Shuffle

end stutools.spit.shuffle
