-- Blocks of one size in their order: every block of the range has one entry. The
-- rotation, the shuffles and the shift of a pass only permute the blocks, so the
-- operations of a pass never meet, and cover the range if the table is large enough.
import Stutools.Calls
import Mathlib.Data.Nat.ModEq

namespace stutools

open memory

namespace positions

/-! ## The blocks of the range -/

/-- The extent of block `k`. -/
def block_at (work : Workload) (lo k : Nat) : Nat × Nat := (lo + k * work.block, work.block)

/-- Distinct blocks of the range. -/
structure Spread (work : Workload) (lo hi : Nat) (es : List (Nat × Nat)) : Prop where
  nodup : es.Nodup
  blocks : ∀ e ∈ es, ∃ k < (hi - lo) / work.block, e = block_at work lo k

variable {work : Workload} {lo hi : Nat}

theorem Spread.perm {es es' : List (Nat × Nat)} (h : Spread work lo hi es) (hp : es'.Perm es) :
    Spread work lo hi es' :=
  ⟨hp.nodup_iff.mpr h.nodup, fun e he => h.blocks e (hp.mem_iff.mp he)⟩

theorem turned_inj {s n k k' : Nat} (hk : k < n) (hk' : k' < n) (h : (k + s) % n = (k' + s) % n) :
    k = k' := by
  have hmod : Nat.ModEq n k k' := Nat.ModEq.add_right_cancel' s h
  exact hmod.eq_of_lt_of_lt hk hk'

section Blocks

variable (hb : 0 < work.block)

include hb

theorem block_at_inj {k k' : Nat} (h : block_at work lo k = block_at work lo k') : k = k' := by
  simp only [block_at, Prod.mk.injEq, Nat.add_left_cancel_iff, and_true] at h
  exact Nat.eq_of_mul_eq_mul_right hb h

/-- The slots of an entry of one block are the blocks of the range. -/
theorem slots_eq {k : Nat} (hk : k < (hi - lo) / work.block) :
    (hi - lo - work.block) / work.block + 1 = (hi - lo) / work.block := by
  have hone : 1 ≤ (hi - lo) / work.block := by omega
  have hle : work.block ≤ hi - lo := by
    have := (Nat.le_div_iff_mul_le hb).mp hone
    omega
  exact (Nat.div_eq_sub_div hb hle).symm

/-- Turning every block by the same count gives distinct blocks again. -/
theorem Spread.turned {es : List (Nat × Nat)} (h : Spread work lo hi es) {s : Nat}
    {f : Nat × Nat → Nat × Nat} (hf : ∀ k < (hi - lo) / work.block, f (block_at work lo k) =
      block_at work lo ((k + s) % ((hi - lo) / work.block))) :
    Spread work lo hi (es.map f) := by
  refine ⟨h.nodup.map_on ?_, ?_⟩
  · intro e he e' he' hee
    obtain ⟨k, hk, rfl⟩ := h.blocks e he
    obtain ⟨k', hk', rfl⟩ := h.blocks e' he'
    rw [hf k hk, hf k' hk'] at hee
    rw [turned_inj hk hk' (block_at_inj hb hee)]
  · intro e he
    obtain ⟨e', he', rfl⟩ := List.mem_map.mp he
    obtain ⟨k, hk, rfl⟩ := h.blocks e' he'
    exact ⟨_, Nat.mod_lt _ (by omega), hf k hk⟩

omit hb in
theorem block_at_apart {k k' : Nat} (h : k ≠ k') :
    ¬ Overlap (block_at work lo k).1 (block_at work lo k).2 (block_at work lo k').1
      (block_at work lo k').2 := by
  rintro ⟨h1, h2⟩
  simp only [block_at] at h1 h2
  rcases Nat.lt_or_gt_of_ne h with hlt | hlt
  · have := Nat.mul_le_mul_right work.block hlt
    rw [Nat.succ_mul] at this
    omega
  · have := Nat.mul_le_mul_right work.block hlt
    rw [Nat.succ_mul] at this
    omega

/-! ## The entries that are drawn -/

variable (hsize : work.block = work.max_block) (hmode : work.mode = .First)

include hsize hmode

/-- The loop draws the blocks of the range in their order, as many as wanted. -/
theorem draw_first (wanted n i c : Nat) (rng : UInt64) :
    (draw work lo hi wanted n i (c * work.block) rng).1.map Request.extent =
      (List.range' c (min n ((hi - lo) / work.block - c))).map (block_at work lo) := by
  induction n generalizing i c rng with
  | zero => simp [draw]
  | succ n ih =>
    have hlen := (draw_len_le hb (Nat.le_of_eq hsize) rng).2 hsize
    have hnext : (c + 1) * work.block = c * work.block + work.block := Nat.succ_mul _ _
    unfold draw
    rcases hd : draw_len work rng with ⟨len, rng'⟩
    rw [hd] at hlen
    obtain rfl : len = work.block := hlen
    simp only [draw_offset, hmode]
    by_cases hroom : hi - lo < c * work.block + work.block
    · -- the next block does not fit: the source leaves the loop
      have hnone : (hi - lo) / work.block - c = 0 := by
        have : (hi - lo) / work.block < c + 1 := by
          rw [Nat.div_lt_iff_lt_mul hb, hnext]
          exact hroom
        omega
      simp [hroom, hnone]
    · have hsome : min (n + 1) ((hi - lo) / work.block - c) =
          min n ((hi - lo) / work.block - (c + 1)) + 1 := by
        have : c + 1 ≤ (hi - lo) / work.block := by
          rw [Nat.le_div_iff_mul_le hb, hnext]
          omega
        omega
      simp only [if_neg hroom, List.map_cons, hsome, List.range'_succ]
      rw [← hnext, ih (i + 1) (c + 1)]
      rfl

omit hsize hmode in
theorem rotate_spread {entries : List Request} (rng : UInt64)
    (h : Spread work lo hi (entries.map Request.extent)) :
    Spread work lo hi ((rotate work lo hi entries rng).1.map Request.extent) := by
  unfold rotate
  split_ifs
  · exact h
  · dsimp only
    generalize (pattern.random rng).1.toNat % ((hi - lo) / work.block) = s
    have hmap : (entries.map (rotated work.block lo hi s)).map Request.extent =
        (entries.map Request.extent).map fun e =>
          (lo + ((e.1 - lo) / work.block + s) % ((hi - lo - e.2) / work.block + 1) * work.block,
            e.2) := by
      rw [List.map_map, List.map_map]
      rfl
    rw [hmap]
    refine h.turned hb (s := s) fun k hk => ?_
    simp only [block_at, Nat.add_sub_cancel_left, Nat.mul_div_cancel _ hb, slots_eq hb hk]

theorem generated_spread (seed : UInt64) (capacity : Nat) :
    Spread work lo hi ((generated work lo hi seed capacity).1.map Request.extent) ∧
      (generated work lo hi seed capacity).1.length =
        min (min (work.positions.getD capacity) capacity) ((hi - lo) / work.block) := by
  have hdraw := @draw_first work lo hi hb hsize hmode
    (min (work.positions.getD capacity) capacity) (min (work.positions.getD capacity) capacity)
    0 0 seed
  rw [Nat.zero_mul, Nat.sub_zero] at hdraw
  unfold generated
  dsimp only
  generalize draw work lo hi _ _ 0 0 seed = drawn at hdraw
  have hspread : Spread work lo hi (drawn.1.map Request.extent) := by
    rw [hdraw]
    refine ⟨List.Nodup.map (fun k k' hk => block_at_inj hb hk) List.nodup_range', ?_⟩
    intro e he
    obtain ⟨k, hk, rfl⟩ := List.mem_map.mp he
    have := (List.mem_range'_1.mp hk).2
    exact ⟨k, by omega, rfl⟩
  have hlength := congrArg List.length hdraw
  simp only [List.length_map, List.length_range'] at hlength
  have hrot := rotate_spread hb drawn.2 hspread
  have hrotlen : (rotate work lo hi drawn.1 drawn.2).1.length = drawn.1.length := by
    unfold rotate
    split_ifs
    · rfl
    · exact List.length_map _
  generalize rotate work lo hi drawn.1 drawn.2 = turned at hrot hrotlen
  split_ifs
  · have hperm := jumble_perm (min |work.sequential| 1) (turned.1.length - 1) turned
    exact ⟨hrot.perm (hperm.map _), by rw [hperm.length_eq, hrotlen, hlength]⟩
  · exact ⟨hrot, by rw [hrotlen, hlength]⟩

end Blocks

theorem numbered_map (work : Workload) (seed : UInt64) (entries : List Request) :
    (numbered work seed entries).map Request.extent = entries.map Request.extent := by
  apply List.ext_getElem
  · simp [numbered]
  · intro i h1 h2
    simp [numbered, Request.extent]

end positions

open positions

namespace Positions

variable {work : Workload} {lo hi : Nat} {seed : UInt64} {capacity : Nat} {p : Positions}

/-- A pass keeps the blocks distinct. -/
theorem moved_block (hb : 0 < p.work.block) (pass : Nat) {k : Nat}
    (hk : k < (p.hi - p.lo) / p.work.block) : p.moved pass (block_at p.work p.lo k) =
      block_at p.work p.lo ((k + if p.work.shift then pass % ((p.hi - p.lo) / p.work.block) else 0) %
        ((p.hi - p.lo) / p.work.block)) := by
  unfold moved
  split_ifs
  · simp only [block_at, Nat.add_sub_cancel_left, Nat.mul_div_cancel _ hb, slots_eq hb hk]
  · rw [Nat.add_zero, Nat.mod_eq_of_lt hk]

/-- The blocks of a pass, row by row. -/
def pass_blocks (p : Positions) (pass : Nat) : List (Nat × Nat) :=
  (p.enter_pass pass).extents.map (p.moved pass)

theorem pass_blocks_spread (hb : 0 < p.work.block) (h : Spread p.work p.lo p.hi p.extents)
    (pass : Nat) : Spread p.work p.lo p.hi (p.pass_blocks pass) :=
  (h.perm (p.enter_pass_rearranged pass).extents).turned hb fun _ hk => moved_block hb pass hk

theorem pass_blocks_length (p : Positions) (pass : Nat) :
    (p.pass_blocks pass).length = p.entries.length := by
  simp [pass_blocks, extents]

theorem get_within {pass i : Nat} {ds : List Call} (hds : ∀ c ∈ ds, Call.Within p pass c)
    (hi : i ∈ p.indexes pass) :
    ((p.after ds).get i).1.extent = (p.pass_blocks pass).getD (p.mapped i).1 (0, 0) := by
  have hlt := p.mapped_lt i
  have h1 : (p.mapped i).1 < (p.enter_pass pass).extents.length := by simpa [extents] using hlt
  have h2 : (p.mapped i).1 < (p.pass_blocks pass).length := by rwa [pass_blocks_length]
  rw [p.get_extent_within hds hi, List.getD_eq_getElem _ _ h1, List.getD_eq_getElem _ _ h2]
  simp [pass_blocks]

/-- Two rows of distinct blocks lie apart. -/
theorem pass_blocks_apart (hb : 0 < p.work.block) (h : Spread p.work p.lo p.hi p.extents)
    (pass : Nat) {r r' : Nat} (hr : r < p.entries.length) (hr' : r' < p.entries.length)
    (hne : r ≠ r') :
    ¬ Overlap ((p.pass_blocks pass).getD r (0, 0)).1 ((p.pass_blocks pass).getD r (0, 0)).2
      ((p.pass_blocks pass).getD r' (0, 0)).1 ((p.pass_blocks pass).getD r' (0, 0)).2 := by
  have hspread := pass_blocks_spread hb h pass
  rw [← p.pass_blocks_length pass] at hr hr'
  rw [List.getD_eq_getElem _ _ hr, List.getD_eq_getElem _ _ hr']
  obtain ⟨k, _, hk⟩ := hspread.blocks _ (List.getElem_mem hr)
  obtain ⟨k', _, hk'⟩ := hspread.blocks _ (List.getElem_mem hr')
  have hkk : k ≠ k' := by
    intro he
    rw [he, ← hk'] at hk
    exact hne (hspread.nodup.getElem_inj_iff.mp hk)
  rw [hk, hk']
  exact block_at_apart hkk

/-- With an entry for every block, every block has a row. -/
theorem exists_row (hb : 0 < p.work.block) (h : Spread p.work p.lo p.hi p.extents) (pass : Nat)
    (hlen : (p.hi - p.lo) / p.work.block ≤ p.entries.length) {k : Nat}
    (hk : k < (p.hi - p.lo) / p.work.block) :
    ∃ r < p.entries.length, (p.pass_blocks pass).getD r (0, 0) = block_at p.work p.lo k := by
  have hspread := pass_blocks_spread hb h pass
  -- the rows are distinct blocks and no fewer than the blocks
  have hsub : p.pass_blocks pass ⊆
      (List.range ((p.hi - p.lo) / p.work.block)).map (block_at p.work p.lo) := by
    intro e he
    obtain ⟨k', hk', rfl⟩ := hspread.blocks e he
    exact List.mem_map.mpr ⟨k', List.mem_range.mpr hk', rfl⟩
  have hperm := (hspread.nodup.subperm hsub).perm_of_length_le (by
    simpa [pass_blocks_length] using hlen)
  have hmem : block_at p.work p.lo k ∈ p.pass_blocks pass :=
    hperm.mem_iff.mpr (List.mem_map.mpr ⟨k, List.mem_range.mpr hk, rfl⟩)
  obtain ⟨r, hr, he⟩ := List.mem_iff_getElem.mp hmem
  refine ⟨r, by rwa [← p.pass_blocks_length pass], ?_⟩
  rw [List.getD_eq_getElem _ _ hr, he]

theorem new_spread (h : new work lo hi seed capacity [] = .ok p) (hb : 0 < work.block)
    (hsize : work.block = work.max_block) (hmode : work.mode = .First) :
    Spread work lo hi p.extents ∧ p.entries.length =
      min (min (work.positions.getD capacity) capacity) ((hi - lo) / work.block) := by
  obtain ⟨_, _, _, _, _, ⟨hne, _⟩ | ⟨_, he⟩⟩ := new_cases h
  · exact absurd rfl hne
  · obtain ⟨h1, h2⟩ := @generated_spread work lo hi hb hsize hmode seed capacity
    refine ⟨?_, ?_⟩
    · rw [extents, he, numbered_map]
      exact h1
    · rw [he, ← h2]
      simp [numbered]

/-- The parser never sets `unique_verify` without `verify`. -/
theorem verify_of_unique (hw : work.Parsed) (hu : work.unique_verify = true) :
    work.verify = true := hw.verify_iff.mpr (.inr (.inl hu))

/-- Blocks of one size in their order: after any calls, the operations of a pass lie
apart, whatever is called between them, and with room in the table for every block
each block of the range is the extent of one operation of the pass. -/
theorem a_pass_covers_every_block_once (h : new work lo hi seed capacity [] = .ok p)
    (hw : work.Parsed) (hsize : work.block = work.max_block) (hmode : work.mode = .First)
    (cs : List Call) (pass : Nat) :
    (∀ i ∈ p.indexes pass, ∀ j ∈ p.indexes pass,
      (p.mapped i).2 = false → (p.mapped j).2 = false → i ≠ j →
      ∀ ds es : List Call, (∀ c ∈ ds, Call.Within p pass c) → (∀ c ∈ es, Call.Within p pass c) →
        ¬ Overlap (((p.after cs).after ds).get i).1.offset (((p.after cs).after ds).get i).1.len
          (((p.after cs).after es).get j).1.offset (((p.after cs).after es).get j).1.len) ∧
    ((hi - lo) / work.block ≤ capacity → (∀ n, work.positions = some n →
        (hi - lo) / work.block ≤ n) →
      ∀ k < (hi - lo) / work.block, ∃! i, i ∈ p.indexes pass ∧ (p.mapped i).2 = false ∧
        ∀ ds : List Call, (∀ c ∈ ds, Call.Within p pass c) →
          (((p.after cs).after ds).get i).1.extent = (lo + k * work.block, work.block)) := by
  obtain ⟨hwork, hlo, hhi, _⟩ := new_cases h
  obtain ⟨hspread, hlength⟩ := new_spread h hw.block_pos hsize hmode
  have hunique : p.work.unique_verify = true → p.work.verify = true := by
    rw [hwork]
    exact verify_of_unique hw
  have hre := p.after_rearranged cs
  generalize p.after cs = q at hre
  have hb : 0 < q.work.block := by
    rw [hre.work, hwork]
    exact hw.block_pos
  have hq : Spread q.work q.lo q.hi q.extents := by
    rw [hre.work, hre.lo, hre.hi, hwork, hlo, hhi]
    exact hspread.perm hre.extents
  have hget : ∀ i ∈ p.indexes pass, ∀ ds : List Call, (∀ c ∈ ds, Call.Within p pass c) →
      ((q.after ds).get i).1.extent = (q.pass_blocks pass).getD (p.mapped i).1 (0, 0) := by
    intro i hi ds hds
    rw [← hre.mapped_eq]
    exact get_within (fun c hc => hre.within (hds c hc)) ((hre.indexes_eq pass).symm ▸ hi)
  -- an operation of the pass is the only one of its row
  have hrow : ∀ i ∈ p.indexes pass, ∀ j ∈ p.indexes pass, (p.mapped i).2 = false →
      (p.mapped j).2 = false → (p.mapped i).1 = (p.mapped j).1 → i = j := by
    intro i hi j hj hop hop' hsame
    exact (exists_unique_op hunique pass (p.mapped_lt i)).unique ⟨hi, Prod.ext rfl hop⟩
      ⟨hj, Prod.ext hsame.symm hop'⟩
  have hlt : ∀ i, (p.mapped i).1 < q.entries.length := fun i => hre.length ▸ p.mapped_lt i
  constructor
  · intro i hi j hj hop hop' hne ds es hds hes
    have hapart := pass_blocks_apart hb hq pass (hlt i) (hlt j)
      fun hsame => hne (hrow i hi j hj hop hop' hsame)
    rw [← hget i hi ds hds, ← hget j hj es hes] at hapart
    exact hapart
  · intro hcap hpos k hk
    have hpositions : (hi - lo) / work.block ≤ work.positions.getD capacity := by
      cases hp : work.positions with
      | none => exact hcap
      | some n => exact hpos n hp
    have hfull : (q.hi - q.lo) / q.work.block ≤ q.entries.length := by
      rw [hre.work, hre.lo, hre.hi, hwork, hlo, hhi, hre.length, hlength]
      omega
    obtain ⟨r, hr, hblock⟩ := exists_row hb hq pass hfull (k := k) (by
      rwa [hre.work, hre.lo, hre.hi, hwork, hlo, hhi])
    have hk' : block_at q.work q.lo k = (lo + k * work.block, work.block) := by
      rw [block_at, hre.work, hre.lo, hwork, hlo]
    rw [hk'] at hblock
    obtain ⟨i, ⟨hi, hm⟩, _⟩ := exists_unique_op hunique pass (hre.length ▸ hr)
    refine ⟨i, ⟨hi, by rw [hm], fun ds hds => by rw [hget i hi ds hds, hm, hblock]⟩, ?_⟩
    rintro j ⟨hj, hop, hext⟩
    apply hrow j hj i hi hop (by rw [hm])
    by_contra hne
    have hapart := pass_blocks_apart hb hq pass (hlt j) (hlt i) hne
    have hnone : ∀ c ∈ ([] : List Call), Call.Within p pass c := fun c hc => by cases hc
    have hjext := hext [] hnone
    rw [hget j hj [] hnone] at hjext
    rw [hjext, hm, hblock] at hapart
    have := hw.block_pos
    exact hapart ⟨by simp only; omega, by simp only; omega⟩

/-- `k0.5nNs0`: half-kilobyte blocks, shuffled in every pass and shifted by it. -/
def shuffled_blocks : Workload :=
  { block := 512, max_block := 512, shuffle := true, shift := true, sequential := 0 }

theorem shuffled_blocks_parsed : shuffled_blocks.Parsed :=
  ⟨{ w := shuffled_blocks, explicit_sequential := true },
    ⟨by decide, by decide, by decide, by decide, by decide, by simp, by decide, by decide,
      by decide⟩, rfl⟩

/-- Five blocks and a partial one: in pass three, after a get of pass one, each of the
five is the extent of one operation. -/
theorem five_blocks_are_covered : ∃ p, new shuffled_blocks 512 3172 7 8 [] = .ok p ∧
    ∀ k < 5, ∃! i, i ∈ p.indexes 3 ∧ (p.mapped i).2 = false ∧
      ∀ ds : List Call, (∀ c ∈ ds, Call.Within p 3 c) →
        (((p.after [.get 5]).after ds).get i).1.extent = (512 + k * 512, 512) := by
  obtain ⟨p, hp⟩ := @new_ok shuffled_blocks 512 3172 8 (by decide) (by decide) (by decide)
    (by decide) (by decide) 7
  exact ⟨p, hp, (a_pass_covers_every_block_once hp shuffled_blocks_parsed rfl rfl [.get 5] 3).2
    (by decide) (fun n hn => by cases hn)⟩

/-- `P1` of two blocks: a count of positions below the blocks leaves one out, however
large the table may be. -/
theorem a_count_of_positions_leaves_blocks_out :
    ¬ ∀ (work : Workload) (lo hi : Nat) (seed : UInt64) (capacity : Nat) (p : Positions),
      new work lo hi seed capacity [] = .ok p → work.Parsed → work.block = work.max_block →
      work.mode = .First → (hi - lo) / work.block ≤ capacity →
      ∀ k < (hi - lo) / work.block, ∃ i ∈ p.indexes 0, (p.mapped i).2 = false ∧
        (p.get i).1.extent = (lo + k * work.block, work.block) := by
  intro hall
  have hparsed : Workload.Parsed { shuffled_blocks with positions := some 1 } :=
    ⟨{ w := { shuffled_blocks with positions := some 1 }, explicit_sequential := true },
      ⟨by decide, by decide, by decide, by decide, by decide, by simp, by decide, by decide,
        by decide⟩, rfl⟩
  obtain ⟨p, hp⟩ := @new_ok { shuffled_blocks with positions := some 1 } 0 1024 2 (by decide)
    (by decide) (by decide) (by decide) (by decide) 7
  have hcover := hall _ 0 1024 7 2 p hp hparsed rfl rfl (by decide)
  have hlength : p.entries.length = 1 := (new_spread hp (by decide) rfl rfl).2
  have hlen : p.len = 1 := by
    rw [len, hlength, new_work hp]
    rfl
  have hzero : ∀ i ∈ p.indexes 0, i = 0 := by
    rintro i ⟨_, hi⟩
    omega
  obtain ⟨i, hi, _, h0⟩ := hcover 0 (by decide)
  obtain ⟨j, hj, _, h1⟩ := hcover 1 (by decide)
  rw [hzero i hi] at h0
  rw [hzero j hj, h0] at h1
  exact absurd h1 (by decide)

end Positions

end stutools
