-- The shares of the workers of one workload: each worker takes its part of the whole
-- blocks of the range. The parts are those blocks, each once, as long as the product
-- of blocks and workers fits 64 bits.
import Stutools.Jobs

namespace stutools

/-- The largest size that the command line takes. -/
def I64_MAX : Nat := 2 ^ 63 - 1

/-! ## Cutting a count into even parts -/

/-- Where part `i` starts when `n` things are cut into `k` parts. -/
def cut (n k i : Nat) : Nat := n * i / k

variable {n k : Nat}

theorem cut_zero (n k : Nat) : cut n k 0 = 0 := by simp [cut]

theorem cut_all (hk : 0 < k) : cut n k k = n := Nat.mul_div_cancel n hk

theorem cut_mono {i j : Nat} (h : i ≤ j) : cut n k i ≤ cut n k j :=
  Nat.div_le_div_right (Nat.mul_le_mul_left n h)

theorem cut_le {i : Nat} (hk : 0 < k) (h : i ≤ k) : cut n k i ≤ n := by
  have hle := cut_mono (n := n) (k := k) h
  rwa [cut_all hk] at hle

/-- Every part holds the quotient, or one more. -/
theorem cut_succ (hk : 0 < k) (i : Nat) :
    cut n k i + n / k ≤ cut n k (i + 1) ∧ cut n k (i + 1) ≤ cut n k i + n / k + 1 := by
  unfold cut
  rw [Nat.mul_succ, Nat.add_div hk]
  split <;> omega

/-- A place between the ends of a chain lies between two neighbours. -/
theorem exists_between {f : Nat → Nat} {x : Nat} (h0 : f 0 ≤ x) (hk : x < f k) :
    ∃ i < k, f i ≤ x ∧ x < f (i + 1) := by
  induction k with
  | zero => omega
  | succ k ih =>
    by_cases hx : x < f k
    · obtain ⟨i, hi, h⟩ := ih hx
      exact ⟨i, by omega, h⟩
    · exact ⟨k, by omega, by omega, hk⟩

/-! ## The ranges of the workers -/

/-- The ranges of `workers` workers are the first `blocks` blocks from `lo` on, each
in one range, in order, and as evenly as whole blocks allow. -/
structure Tiled (block blocks workers lo hi : Nat) (range : Nat → Nat × Nat) : Prop where
  aligned : ∀ i < workers, ∃ a b, range i = (lo + a * block, lo + b * block)
  contiguous : ∀ i, i + 1 < workers → (range i).2 = (range (i + 1)).1
  inside : ∀ i < workers, lo ≤ (range i).1 ∧ (range i).1 ≤ (range i).2 ∧ (range i).2 ≤ hi
  disjoint : ∀ i < workers, ∀ j < workers, i ≠ j →
    (range i).2 ≤ (range j).1 ∨ (range j).2 ≤ (range i).1
  covered : ∀ x, (∃ i < workers, (range i).1 ≤ x ∧ x < (range i).2) ↔
    lo ≤ x ∧ x < lo + blocks * block
  even : ∀ i < workers, ∀ j < workers,
    (range i).2 - (range i).1 ≤ (range j).2 - (range j).1 + block

theorem cut_mul_le {block blocks : Nat} {i : Nat} (hk : 0 < k) (hi : i ≤ k) :
    cut blocks k i * block ≤ blocks * block :=
  Nat.mul_le_mul_right block (cut_le hk hi)

theorem tiled_of_cut {block blocks workers lo hi : Nat} (hworkers : 0 < workers)
    (hroom : lo + blocks * block ≤ hi) {range : Nat → Nat × Nat}
    (hrange : ∀ i < workers, range i =
      (lo + cut blocks workers i * block, lo + cut blocks workers (i + 1) * block)) :
    Tiled block blocks workers lo hi range := by
  have hmono : ∀ i j, i ≤ j → cut blocks workers i * block ≤ cut blocks workers j * block :=
    fun i j h => Nat.mul_le_mul_right block (cut_mono h)
  refine ⟨fun i hi => ⟨_, _, hrange i hi⟩, ?_, ?_, ?_, ?_, ?_⟩
  · intro i hi
    rw [hrange i (by omega), hrange (i + 1) hi]
  · intro i hi
    rw [hrange i hi]
    have h1 := hmono i (i + 1) (by omega)
    have h2 : cut blocks workers (i + 1) * block ≤ blocks * block := cut_mul_le hworkers hi
    exact ⟨by simp, by simpa using h1, by dsimp only; omega⟩
  · intro i hi j hj hne
    rw [hrange i hi, hrange j hj]
    dsimp only
    obtain h | h := Nat.lt_or_gt_of_ne hne
    · have := hmono (i + 1) j h
      omega
    · have := hmono (j + 1) i h
      omega
  · intro x
    constructor
    · rintro ⟨i, hi, h1, h2⟩
      rw [hrange i hi] at h1 h2
      have h3 : cut blocks workers (i + 1) * block ≤ blocks * block := cut_mul_le hworkers hi
      dsimp only at h1 h2
      omega
    · rintro ⟨h1, h2⟩
      have h0 : lo + cut blocks workers 0 * block ≤ x := by
        rw [cut_zero]
        omega
      have hlast : x < lo + cut blocks workers workers * block := by
        rw [cut_all hworkers]
        exact h2
      obtain ⟨i, hi, h3, h4⟩ :=
        exists_between (f := fun i => lo + cut blocks workers i * block) h0 hlast
      refine ⟨i, hi, ?_⟩
      rw [hrange i hi]
      exact ⟨h3, h4⟩
  · intro i hi j hj
    rw [hrange i hi, hrange j hj]
    dsimp only
    have h1 := Nat.mul_le_mul_right block (cut_succ (n := blocks) hworkers i).2
    have h2 := Nat.mul_le_mul_right block (cut_succ (n := blocks) hworkers j).1
    rw [Nat.add_mul, Nat.add_mul] at h1
    rw [Nat.add_mul] at h2
    omega

theorem Tiled.congr {block blocks workers lo hi : Nat} {range range' : Nat → Nat × Nat}
    (h : Tiled block blocks workers lo hi range) (heq : ∀ i < workers, range i = range' i) :
    Tiled block blocks workers lo hi range' := by
  refine ⟨?_, ?_, ?_, ?_, ?_, ?_⟩
  · intro i hi
    rw [← heq i hi]
    exact h.aligned i hi
  · intro i hi
    rw [← heq i (by omega), ← heq (i + 1) hi]
    exact h.contiguous i hi
  · intro i hi
    rw [← heq i hi]
    exact h.inside i hi
  · intro i hi j hj
    rw [← heq i hi, ← heq j hj]
    exact h.disjoint i hi j hj
  · intro x
    rw [← h.covered x]
    constructor
    · rintro ⟨i, hi, hx⟩
      exact ⟨i, hi, by rwa [heq i hi]⟩
    · rintro ⟨i, hi, hx⟩
      exact ⟨i, hi, by rwa [← heq i hi]⟩
  · intro i hi j hj
    rw [← heq i hi, ← heq j hj]
    exact h.even i hi j hj

/-- The last range of tiled workers reaches the end of the blocks. -/
theorem Tiled.last {block blocks workers lo hi : Nat} {range : Nat → Nat × Nat}
    (h : Tiled block blocks (workers + 1) lo hi range) (hsome : 0 < blocks * block) :
    lo + blocks * block ≤ (range workers).2 := by
  have hup : ∀ d i, i + d = workers → (range i).2 ≤ (range workers).2 := by
    intro d
    induction d with
    | zero =>
      rintro i rfl
      exact Nat.le_refl _
    | succ d ih =>
      intro i hi
      have hnext := ih (i + 1) (by omega)
      rw [h.contiguous i (by omega)]
      exact Nat.le_trans (h.inside (i + 1) (by omega)).2.1 hnext
  obtain ⟨i, hi, h1, h2⟩ := (h.covered (lo + (blocks * block - 1))).mpr (by omega)
  have := hup (workers - i) i (by omega)
  omega

/-- The blocks of a workload's range. -/
def Workload.blocks (w : Workload) (lo hi : Nat) : Nat := (hi - lo) / w.block

/-- The range of a worker with a range of its own. -/
theorem worker_range_eq {w : Workload} {index target_lo target_hi lo hi : Nat}
    (hrange : w.range.getD (target_lo, target_hi) = (lo, hi))
    (hfits : target_lo ≤ lo ∧ lo < hi ∧ hi ≤ target_hi)
    (hown : (w.shared_range && !w.split_range) = false) :
    worker_range w index target_lo target_hi false =
      .ok ((lo + w.blocks lo hi * index % U64 / w.workers * w.block) % U64,
        (lo + w.blocks lo hi * (index + 1) % U64 / w.workers * w.block) % U64) := by
  unfold worker_range
  rw [hrange]
  dsimp only
  rw [if_neg (by omega), Bool.false_or, if_neg (by simp [hown])]
  rfl

/-- The parts of the range that the workers of `w` get. -/
def Workload.ranges (w : Workload) (lo hi index : Nat) : Nat × Nat :=
  ((lo + w.blocks lo hi * index % U64 / w.workers * w.block) % U64,
    (lo + w.blocks lo hi * (index + 1) % U64 / w.workers * w.block) % U64)

theorem blocks_le {w : Workload} {lo hi : Nat} (h : lo < hi) :
    lo + w.blocks lo hi * w.block ≤ hi := by
  have := Nat.div_mul_le_self (hi - lo) w.block
  unfold Workload.blocks
  omega

/-- While the products fit, no word of the arithmetic wraps. -/
theorem ranges_eq_cut {w : Workload} {lo hi : Nat} (hlt : lo < hi) (hhi : hi ≤ I64_MAX)
    (hfit : w.blocks lo hi * w.workers < U64) (i : Nat) (hi' : i < w.workers) :
    w.ranges lo hi i = (lo + cut (w.blocks lo hi) w.workers i * w.block,
      lo + cut (w.blocks lo hi) w.workers (i + 1) * w.block) := by
  have hword : ∀ j ≤ w.workers, (lo + w.blocks lo hi * j % U64 / w.workers * w.block) % U64 =
      lo + cut (w.blocks lo hi) w.workers j * w.block := by
    intro j hj
    have hprod : w.blocks lo hi * j < U64 :=
      Nat.lt_of_le_of_lt (Nat.mul_le_mul_left _ hj) hfit
    rw [Nat.mod_eq_of_lt hprod]
    change (lo + cut _ _ j * w.block) % U64 = _
    have h1 : cut (w.blocks lo hi) w.workers j * w.block ≤ w.blocks lo hi * w.block :=
      cut_mul_le (by omega) hj
    have h2 := blocks_le (w := w) hlt
    have hmax : I64_MAX < U64 := by decide
    exact Nat.mod_eq_of_lt (by omega)
  unfold Workload.ranges
  rw [hword i (by omega), hword (i + 1) hi']

/-- Once the product passes 64 bits, the last worker stops short of the last block. -/
theorem ranges_short {w : Workload} {lo hi : Nat} (hlt : lo < hi) (hhi : hi ≤ I64_MAX)
    (hblock : 0 < w.block) {k : Nat} (hk : w.workers = k + 1)
    (hover : U64 ≤ w.blocks lo hi * w.workers) :
    (w.ranges lo hi k).2 < lo + w.blocks lo hi * w.block := by
  unfold Workload.ranges
  dsimp only
  rw [← hk]
  have hmod : w.blocks lo hi * w.workers % U64 < w.blocks lo hi * w.workers :=
    Nat.lt_of_lt_of_le (Nat.mod_lt _ (by unfold U64; omega)) hover
  have hdiv : w.blocks lo hi * w.workers % U64 / w.workers < w.blocks lo hi :=
    (Nat.div_lt_iff_lt_mul (by omega)).mpr hmod
  have hmul := (Nat.mul_lt_mul_right hblock).mpr hdiv
  have h2 := blocks_le (w := w) hlt
  have hmax : I64_MAX < U64 := by decide
  rw [Nat.mod_eq_of_lt (by omega)]
  omega

theorem tiled_iff {w : Workload} {lo hi : Nat} (hlt : lo < hi) (hhi : hi ≤ I64_MAX)
    (hblock : 0 < w.block) (hworkers : 0 < w.workers) :
    Tiled w.block (w.blocks lo hi) w.workers lo hi (w.ranges lo hi) ↔
      w.blocks lo hi * w.workers < U64 := by
  constructor
  · intro h
    by_contra hover
    obtain ⟨k, hk⟩ : ∃ k, w.workers = k + 1 := ⟨w.workers - 1, by omega⟩
    have hshort := ranges_short hlt hhi hblock hk (by omega)
    have hpos : 0 < w.blocks lo hi := by
      apply Nat.pos_of_ne_zero
      intro h0
      rw [h0, Nat.zero_mul] at hover
      exact hover (by unfold U64; omega)
    rw [hk] at h
    have := h.last (Nat.mul_pos hpos hblock)
    omega
  · intro hfit
    exact tiled_of_cut hworkers (blocks_le hlt) (ranges_eq_cut hlt hhi hfit)

/-- For every range up to the largest size, every workload the parser gives and workers
with a range of their own: the ranges tile the whole blocks and no product passes 64
bits exactly if the product of all blocks and all workers fits 64 bits. Where it does not
fit, it is the tiling that is lost. -/
theorem the_workers_tile_the_range_iff_the_product_fits {w : Workload} (hw : w.Parsed)
    {target_lo target_hi lo hi : Nat} (hmax : target_hi ≤ I64_MAX)
    (hrange : w.range.getD (target_lo, target_hi) = (lo, hi))
    (hfits : target_lo ≤ lo ∧ lo < hi ∧ hi ≤ target_hi)
    (hown : (w.shared_range && !w.split_range) = false) :
    ((∃ ranges : Nat → Nat × Nat,
      (∀ index < w.workers, worker_range w index target_lo target_hi false = .ok (ranges index)) ∧
      Tiled w.block ((hi - lo) / w.block) w.workers lo hi ranges ∧
      ∀ index < w.workers, (hi - lo) / w.block * (index + 1) < U64) ↔
      (hi - lo) / w.block * w.workers < U64) ∧
    (∀ ranges : Nat → Nat × Nat,
      (∀ index < w.workers, worker_range w index target_lo target_hi false = .ok (ranges index)) →
      Tiled w.block ((hi - lo) / w.block) w.workers lo hi ranges →
      (hi - lo) / w.block * w.workers < U64) := by
  have hblock := hw.block_pos
  have hworkers := hw.workers_pos
  have hhi : hi ≤ I64_MAX := by omega
  have hok : ∀ index, worker_range w index target_lo target_hi false = .ok (w.ranges lo hi index) :=
    fun index => worker_range_eq hrange hfits hown
  have hneeds : ∀ ranges : Nat → Nat × Nat,
      (∀ index < w.workers, worker_range w index target_lo target_hi false = .ok (ranges index)) →
      Tiled w.block ((hi - lo) / w.block) w.workers lo hi ranges →
      (hi - lo) / w.block * w.workers < U64 := by
    intro ranges hranges htiled
    have hsame : ∀ index < w.workers, ranges index = w.ranges lo hi index := by
      intro index hindex
      have h := hranges index hindex
      rw [hok] at h
      exact (Except.ok.inj h).symm
    exact (tiled_iff hfits.2.1 hhi hblock hworkers).mp (htiled.congr hsame)
  refine ⟨⟨fun ⟨ranges, hranges, htiled, _⟩ => hneeds ranges hranges htiled, fun hfit => ?_⟩, hneeds⟩
  refine ⟨w.ranges lo hi, fun index _ => hok index,
    (tiled_iff hfits.2.1 hhi hblock hworkers).mpr hfit, fun index hindex => ?_⟩
  exact Nat.lt_of_le_of_lt (Nat.mul_le_mul_left _ hindex) hfit

/-- Three workers over 23 blocks of 512 bytes, the last block cut short. -/
def three_workers : Workload := { block := 512, max_block := 512, workers := 3 }

theorem three_workers_parsed : three_workers.Parsed :=
  ⟨{ w := three_workers, probability := some (1 / 2) },
    ⟨by decide, by decide, by decide, by decide, by decide, by decide, by decide, by decide,
      by decide⟩, by rfl⟩

theorem three_workers_tile_a_file : ∃ ranges : Nat → Nat × Nat,
    (∀ index < 3, worker_range three_workers index 100 12000 false = .ok (ranges index)) ∧
    Tiled 512 23 3 100 12000 ranges ∧ ∀ index < 3, 23 * (index + 1) < U64 := by
  have h := (@the_workers_tile_the_range_iff_the_product_fits three_workers three_workers_parsed
    100 12000 100 12000 (by decide) rfl (by decide) rfl).1.mpr (by decide)
  exact h

/-- Three workers of one-byte blocks, as `j3k0.0009765625` asks for. -/
def three_byte_workers : Workload := { block := 1, max_block := 1, workers := 3 }

theorem three_byte_workers_parsed : three_byte_workers.Parsed :=
  ⟨{ w := three_byte_workers, probability := some (1 / 2) },
    ⟨by decide, by decide, by decide, by decide, by decide, by decide, by decide, by decide,
      by decide⟩, by rfl⟩

/-- Of the largest range in single bytes, the last worker's product wraps and its range
ends before it starts. -/
theorem the_last_of_three_byte_workers_wraps : three_byte_workers.Parsed ∧
    ¬ ∃ ranges : Nat → Nat × Nat,
      (∀ index < 3, worker_range three_byte_workers index 0 I64_MAX false = .ok (ranges index)) ∧
      Tiled 1 I64_MAX 3 0 I64_MAX ranges ∧ ∀ index < 3, I64_MAX * (index + 1) < U64 := by
  refine ⟨three_byte_workers_parsed, ?_⟩
  rintro ⟨ranges, hranges, htiled, -⟩
  have hwraps : worker_range three_byte_workers 2 0 I64_MAX false =
      .ok (6148914691236517204, 3074457345618258601) := by rfl
  have hlast := hranges 2 (by decide)
  rw [hwraps] at hlast
  have hinside := (htiled.inside 2 (by decide)).2.1
  rw [← Except.ok.inj hlast] at hinside
  omega

end stutools
