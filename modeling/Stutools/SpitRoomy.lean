-- The jobs whose positions are created in their range whatever is drawn (src/c/spit/positions.c):
-- the regions, the samples and the copies lie in it, and the places of random positions begin at
-- a multiple of the alignment.
import Stutools.SpitRounds

namespace stutools.spit.create

namespace Job

variable (job : Job)

/-! ## Conditions -/

/-- The beginning of the range is a place for random positions. -/
def Aligned : Prop := 2 ^ job.alignbits ∣ job.minbdSize

/-- Every length fits into the range. -/
def LengthsFit : Prop := job.maxbs ≤ job.maxbdSize - job.minbdSize

/-- There is one region, which does not begin behind the range. -/
def OneRegion : Prop := job.regions = 1 ∧ job.positionsStart 0 ≤ job.minbdSize

/-- No length runs out of the range at the places of the only region. -/
def RegionFits : Prop := job.minbdSize ≤ job.positionsStart 0 ∨ job.LengthsFit

/-- The limit of a region leaves the whole range open. -/
def Unlimited : Prop :=
  job.sf_maxsizebytes = 0 ∨
    job.maxbdSize ≤ job.positionsStart 0 + job.sf_maxsizebytes + job.minbs

/-- The room that a job has for whatever is drawn. -/
structure Roomy : Prop where
  starting : job.startingBlock ≤ 0 ∨ job.copyMode ∨
    ∃ i < job.regions, job.positionsStart i + job.maxbs ≤ job.positionsEnd i
  redrawn : job.Redrawn → job.Aligned ∧ job.LengthsFit
  copies : job.copyMode → ¬ job.Redrawn → job.CopiesFit
  regions_inside : ¬ job.copyMode → ¬ job.Redrawn → job.linearSubSample = 0 →
    job.randomSubSample = 0 → ∀ i < job.regions,
      job.positionsStart i + job.minbs ≤ job.positionsEnd i →
        job.minbdSize ≤ job.positionsStart i ∧ job.positionsEnd i ≤ job.maxbdSize
  samples : ¬ job.copyMode → job.linearSubSample ≠ 0 →
    job.OneRegion ∧ job.Unlimited ∧ job.LengthsFit ∧ (job.linearAlternate → job.sz % 2 = 0) ∧
      ∀ q < job.sz, 0 < q → q + 1 < job.linearSubSample →
        job.minbdSize ≤ job.samplePlace q ∧ job.samplePlace q + job.maxbs ≤ job.maxbdSize
  random_sample : ¬ job.copyMode → job.linearSubSample = 0 → job.randomSubSample ≠ 0 →
    job.OneRegion ∧ job.Unlimited ∧ job.Aligned ∧ job.RegionFits
  resets : ¬ job.copyMode → job.resetSizes ≠ [] → 0 < job.sf →
    job.OneRegion ∧ job.Aligned ∧ job.RegionFits

/-! ## Random places -/

variable {job}

/-- A random place for a length lies in the range. -/
theorem randomBlock.spec (haligned : job.Aligned) {thislen value : Nat}
    (hlen : thislen ≤ job.maxbdSize - job.minbdSize) (hvalue : value ≤ job.randomRange thislen) :
    ∃ pos, job.randomBlock thislen value = some pos ∧ job.minbdSize ≤ pos ∧
      pos + thislen ≤ job.maxbdSize := by
  have hrange := job.range_le
  have hsize := job.size_lt
  have hhi : sub64 job.maxbdSize thislen = job.maxbdSize - thislen :=
    sub64_of_le (by omega) (by omega)
  unfold randomRange at hvalue
  rw [hhi, sub64_of_le (by omega) (by omega)] at hvalue
  unfold randomBlock
  rw [hhi]
  unfold randomBlockSize
  by_cases hzero : job.maxbdSize - thislen = 0
  · rw [if_pos hzero]
    exact ⟨0, rfl, by omega, by omega⟩
  · have hlo : job.minbdSize / 2 ^ job.alignbits * 2 ^ job.alignbits = job.minbdSize :=
      Nat.div_mul_cancel haligned
    have hpart : value / 2 ^ job.alignbits * 2 ^ job.alignbits ≤ value := Nat.div_mul_le_self _ _
    -- a multiple of the alignment, from the beginning of the range on
    have hplace : ∀ k, k * 2 ^ job.alignbits = job.minbdSize ∨
        k * 2 ^ job.alignbits = job.minbdSize + value / 2 ^ job.alignbits * 2 ^ job.alignbits →
      ∃ pos, (if k * 2 ^ job.alignbits % 2 ^ 64 ≥ job.minbdSize ∧
          k * 2 ^ job.alignbits % 2 ^ 64 ≤ job.maxbdSize - thislen then
        some (k * 2 ^ job.alignbits % 2 ^ 64) else none) = some pos ∧ job.minbdSize ≤ pos ∧
          pos + thislen ≤ job.maxbdSize := by
      intro k hk
      have hbounds : job.minbdSize ≤ k * 2 ^ job.alignbits ∧
          k * 2 ^ job.alignbits ≤ job.maxbdSize - thislen := by omega
      rw [Nat.mod_eq_of_lt (by omega), if_pos hbounds]
      exact ⟨_, rfl, hbounds.1, by omega⟩
    rw [if_neg hzero]
    dsimp only
    split
    · exact hplace _ (.inr (by rw [Nat.add_mul, hlo]))
    · exact hplace _ (.inl hlo)

/-! ## The turns of the loop -/

/-- A position of the range, with a length of the job's set. -/
def Placed (job : Job) (b : Block) : Prop := job.Inside b ∧ job.minbs ≤ b.len ∧ b.len ≤ job.maxbs

variable {d : Draws job}

section
variable (hroomy : job.Roomy) (hcopy : ¬ job.copyMode)
include hroomy hcopy

theorem alter.spec (hlinear : job.linearSubSample ≠ 0) {q : Nat} (hq : q < job.sz) :
    job.Placed (job.alter d q) := by
  obtain ⟨-, -, hlengths, -, hplaces⟩ := hroomy.samples hcopy hlinear
  have hrange := job.range_le
  have hsize := job.size_lt
  have hroom : ∀ l ∈ job.lengths, l ≤ job.maxbdSize - job.minbdSize :=
    fun l hl => (job.bounds_of_mem hl).2.trans hlengths
  have hsub := job.sub_sample hlinear
  unfold alter
  split
  · -- the last sample ends with the range
    have hl := hroom _ (d.sample_mem 1)
    refine ⟨⟨?_, ?_⟩, job.bounds_of_mem (d.sample_mem 1)⟩ <;> dsimp only <;>
      rw [sub64_of_le (by omega) (by omega)] <;> omega
  · split
    · have hl := hroom _ (d.sample_mem 0)
      exact ⟨⟨Nat.le_refl _, by dsimp only; omega⟩, job.bounds_of_mem (d.sample_mem 0)⟩
    · rename_i hlast hfirst
      obtain ⟨hge, hle⟩ := hplaces q hq (by omega) (by omega)
      have hl := job.bounds_of_mem (d.sample_mem (q + 1))
      exact ⟨⟨hge, by dsimp only; omega⟩, hl⟩

theorem sampled.spec (hlinear : job.linearSubSample ≠ 0) {q : Nat} (hq : q < job.sz) :
    job.Placed (job.sampled d q) := by
  obtain ⟨-, -, hlengths, heven, -⟩ := hroomy.samples hcopy hlinear
  have halter {q : Nat} (hq : q < job.sz) : job.Placed (job.alter d q) :=
    alter.spec hroomy hcopy hlinear hq
  unfold sampled
  split
  · rename_i halternate
    have hhalf : q / 2 < job.sz / 2 := by
      have heven := heven halternate
      omega
    rw [if_pos hhalf]
    have hplaced : job.Placed (if q % 2 = 0 then job.alter d (q / 2)
        else job.alter d (job.sz - 1 - q / 2)) := by
      split
      · exact halter (by omega)
      · exact halter (by omega)
    dsimp only
    generalize (if q % 2 = 0 then job.alter d (q / 2) else job.alter d (job.sz - 1 - q / 2)) = b
      at hplaced
    split
    · obtain ⟨-, hmin, hmax⟩ := hplaced
      have hrange := job.range_le
      have hsize := job.size_lt
      have hl : b.len ≤ job.maxbdSize - job.minbdSize := hmax.trans hlengths
      refine ⟨⟨?_, ?_⟩, hmin, hmax⟩ <;> dsimp only <;>
        rw [sub64_of_le (by omega) (by omega)] <;> omega
    · exact hplaced
  · exact halter hq

/-- A turn takes a position that passes the assertions of the loop. -/
theorem choose.spec {g : Gen} {i thislen : Nat} (hi : i < job.regions)
    (hroom : g.poss.length < job.sz) (hstart : job.positionsStart i ≤ g.positionsCurrent i)
    (hlen : job.minbs ≤ thislen ∧ thislen ≤ job.maxbs)
    (hend : g.positionsCurrent i + thislen ≤ job.positionsEnd i) :
    ∃ b current, job.choose d i thislen g = some (b, current) ∧
      (job.positionsStart i ≤ b.pos ∧ b.pos < job.positionsEnd i ∧
        (job.sf_maxsizebytes ≠ 0 → b.pos ≤ job.positionsStart i + job.sf_maxsizebytes)) ∧
      job.minbs ≤ b.len ∧ b.len ≤ job.maxbs ∧ (¬ job.Redrawn → job.Inside b) ∧
      job.positionsStart i ≤ current ∧
      (job.OneRegion → job.RegionFits → b.len ≤ job.maxbdSize - job.minbdSize) := by
  have hpos := job.minbs_pos
  have hrange := job.range_le
  -- a place in the range passes the assertions when the range is one region
  have hone (hregion : job.OneRegion) (hlimit : job.Unlimited) {b : Block}
      (hb : job.Inside b) (hmin : job.minbs ≤ b.len) :
      job.positionsStart i ≤ b.pos ∧ b.pos < job.positionsEnd i ∧
        (job.sf_maxsizebytes ≠ 0 → b.pos ≤ job.positionsStart i + job.sf_maxsizebytes) := by
    obtain ⟨hregions, hstart⟩ := hregion
    obtain ⟨hge, hle⟩ := hb
    obtain rfl : i = 0 := by omega
    unfold positionsEnd
    rw [if_neg (by omega)]
    unfold Unlimited at hlimit
    exact ⟨by omega, by omega, fun hmax => by omega⟩
  have hfit (hregion : job.OneRegion) (hfits : job.RegionFits) :
      thislen ≤ job.maxbdSize - job.minbdSize := by
    obtain ⟨hregions, -⟩ := hregion
    obtain hbegin | hlengths := hfits
    · obtain rfl : i = 0 := by omega
      unfold positionsEnd at hend
      rw [if_neg (by omega)] at hend
      omega
    · exact hlen.2.trans hlengths
  unfold choose
  dsimp only
  by_cases hlinear : job.linearSubSample ≠ 0
  · obtain ⟨hregion, hlimit, -⟩ := hroomy.samples hcopy hlinear
    obtain ⟨hinside, hmin, hmax⟩ := sampled.spec (d := d) hroomy hcopy hlinear hroom
    have hplace : job.minbdSize ≤ (job.sampled d g.poss.length).pos ∧
        (job.sampled d g.poss.length).pos + (job.sampled d g.poss.length).len ≤ job.maxbdSize :=
      hinside
    rw [if_pos hlinear, if_pos hplace]
    exact ⟨_, _, rfl, hone hregion hlimit hinside hmin, hmin, hmax, fun _ => hinside, hstart,
      fun _ _ => by omega⟩
  · rw [if_neg hlinear]
    by_cases hrandom : job.randomSubSample ≠ 0
    · obtain ⟨hregion, hlimit, haligned, hregionfits⟩ :=
        hroomy.random_sample hcopy (not_not.mp hlinear) hrandom
      obtain ⟨pos, hblock, hge, hle⟩ := randomBlock.spec haligned (hfit hregion hregionfits)
        (d.block_le g.turns _)
      rw [if_pos hrandom, hblock, Option.bind_some, if_pos ⟨hge, hle⟩]
      exact ⟨_, _, rfl, hone hregion hlimit (b := ⟨pos, thislen⟩) ⟨hge, hle⟩ hlen.1, hlen.1, hlen.2,
        fun _ => ⟨hge, hle⟩, hstart, fun _ _ => hfit hregion hregionfits⟩
    · rw [if_neg hrandom]
      have hkept (hkept : ¬ job.Redrawn) := hroomy.regions_inside hcopy hkept (not_not.mp hlinear)
        (not_not.mp hrandom) i hi (by omega)
      split
      · refine ⟨_, _, rfl, ⟨Nat.le_refl _, by dsimp only; omega, fun _ => Nat.le_add_right _ _⟩,
          hlen.1, hlen.2, fun h => ?_, Nat.le_refl _, hfit⟩
        obtain ⟨hge, hle⟩ := hkept h
        exact ⟨hge, by dsimp only; omega⟩
      · rename_i hnot
        refine ⟨_, _, rfl, ⟨hstart, by dsimp only; omega, fun hmax => by dsimp only; omega⟩,
          hlen.1, hlen.2, fun h => ?_, hstart, hfit⟩
        obtain ⟨hge, hle⟩ := hkept h
        exact ⟨by dsimp only; omega, by dsimp only; omega⟩

end

/-! ## The loop -/

/-- What the loop keeps: no region is before its beginning, what is stored lies in the range, and
while nothing is stored, every region is at its beginning. -/
structure Sound (job : Job) (g : Gen) : Prop where
  current : ∀ i < job.regions, job.positionsStart i ≤ g.positionsCurrent i
  blocks : ∀ b ∈ g.poss, job.minbs ≤ b.len ∧ b.len ≤ job.maxbs ∧ (¬ job.Redrawn → job.Inside b)
  count : g.poss.length ≤ job.sz
  fresh : g.poss = [] → g.positionsCurrent = job.positionsStart

theorem current_update {g : Gen} (hg : job.Sound g) {i pos : Nat}
    (hpos : i < job.regions → job.positionsStart i ≤ pos) :
    ∀ k < job.regions, job.positionsStart k ≤ Function.update g.positionsCurrent i pos k := by
  intro k hk
  by_cases hki : k = i
  · subst hki
    rw [Function.update_self]
    exact hpos hk
  · rw [Function.update_of_ne hki]
    exact hg.current k hk

theorem start_sound : job.Sound job.start :=
  ⟨fun _ _ => Nat.le_refl _, by simp [start], Nat.zero_le _, fun _ => rfl⟩

section
variable (hroomy : job.Roomy) (hcopy : ¬ job.copyMode)
include hroomy hcopy

theorem advance.spec {g : Gen} (hg : job.Sound g) (hroom : g.poss.length < job.sz) {i : Nat}
    (hi : i < job.regions) {b : Block} {current : Nat}
    (hb : job.minbs ≤ b.len ∧ b.len ≤ job.maxbs ∧ (¬ job.Redrawn → job.Inside b))
    (hcurrent : job.positionsStart i ≤ current)
    (hlen : job.OneRegion → job.RegionFits → b.len ≤ job.maxbdSize - job.minbdSize) :
    ∃ g', job.advance d i b current g = some g' ∧ job.Sound g' ∧
      g'.poss.length = g.poss.length + 1 := by
  have hblocks : ∀ x ∈ g.poss ++ [b],
      job.minbs ≤ x.len ∧ x.len ≤ job.maxbs ∧ (¬ job.Redrawn → job.Inside x) := by
    intro x hx
    obtain hx | hx := List.mem_append.mp hx
    · exact hg.blocks x hx
    · rw [List.mem_singleton.mp hx]
      exact hb
  have hcount : (g.poss ++ [b]).length = g.poss.length + 1 := List.length_append
  have hfresh : g.poss ++ [b] ≠ [] := List.append_ne_nil_of_right_ne_nil _ (List.cons_ne_nil _ _)
  unfold advance
  dsimp only
  split
  · rename_i hreset
    obtain ⟨hregion, haligned, hregionfits⟩ := hroomy.resets hcopy hreset.1 hreset.2.1
    obtain ⟨pos, hblock, hge, -⟩ := randomBlock.spec haligned (hlen hregion hregionfits)
      (d.resetBlock_le g.turns _)
    rw [hblock]
    refine ⟨_, rfl, ⟨current_update hg fun _ => ?_, hblocks, by dsimp only; omega,
      fun h => absurd h hfresh⟩, hcount⟩
    have hzero : i = 0 := by
      have := hregion.1
      omega
    subst hzero
    exact hregion.2.trans hge
  · have hmoved : job.positionsStart i ≤ current + b.len := hcurrent.trans (Nat.le_add_right _ _)
    exact ⟨_, rfl, ⟨current_update hg fun _ => hmoved, hblocks, by dsimp only; omega,
      fun h => absurd h hfresh⟩, hcount⟩

/-- A turn passes its assertions. It stores a position when the longest length has room. -/
theorem turn.spec {g : Gen} (hg : job.Sound g) {i : Nat} (hi : i < job.regions) :
    ∃ g', job.turn d g i = some g' ∧ job.Sound g' ∧ g.poss.length ≤ g'.poss.length ∧
      (g.positionsCurrent i + job.maxbs ≤ job.positionsEnd i → g'.poss ≠ []) := by
  unfold turn
  by_cases hfull : job.sz ≤ g.poss.length
  · rw [if_pos hfull]
    refine ⟨g, rfl, hg, Nat.le_refl _, fun _ hnil => ?_⟩
    rw [hnil] at hfull
    exact absurd hfull (not_le.mpr job.sz_pos)
  · have hlen : job.minbs ≤ job.thislen d g ∧ job.thislen d g ≤ job.maxbs := by
      unfold thislen
      split
      · exact job.bounds_of_mem (d.length_mem g.turns)
      · exact ⟨Nat.le_refl _, job.minbs_le_maxbs⟩
    rw [if_neg hfull, if_pos (hg.current i hi)]
    dsimp only
    generalize job.thislen d g = thislen at hlen ⊢
    split
    · rename_i hend
      obtain ⟨b, current, hchoose, hasserts, hmin, hmax, hinside, hcurrent, hfit⟩ :=
        choose.spec (d := d) hroomy hcopy hi (by omega) (hg.current i hi) hlen hend
      obtain ⟨g', hadvance, hg', hcount⟩ := advance.spec (d := d) hroomy hcopy hg (by omega) hi
        ⟨hmin, hmax, hinside⟩ hcurrent hfit
      rw [hchoose, Option.bind_some]
      dsimp only
      rw [if_pos hasserts]
      refine ⟨g', hadvance, hg', by omega, fun _ hnil => ?_⟩
      rw [hnil] at hcount
      cases hcount
    · rename_i hend
      exact ⟨_, rfl, ⟨hg.current, hg.blocks, hg.count, hg.fresh⟩, Nat.le_refl _,
        fun hroom => by omega⟩

theorem turns.spec {g : Gen} (hg : job.Sound g) {l : List Nat} (hl : ∀ i ∈ l, i < job.regions) :
    ∃ g', machine.run (job.turn d) g l = some g' ∧ job.Sound g' ∧
      g.poss.length ≤ g'.poss.length := by
  have hall : machine.Along (job.turn d) (fun _ i => i < job.regions) g l :=
    machine.along_of_mem _ (fun i hi _ => hl i hi) g
  refine machine.exists_run_along (P := fun g' => job.Sound g' ∧ g.poss.length ≤ g'.poss.length)
    ?_ hall ⟨hg, Nat.le_refl _⟩
  rintro g₁ i ⟨hg₁, hle⟩ hi
  obtain ⟨g₂, hturn, hg₂, hle', -⟩ := turn.spec (d := d) hroomy hcopy hg₁ hi
  exact ⟨g₂, hturn, hg₂, hle.trans hle'⟩

/-- A pass stores something when a region has room for the longest length. -/
theorem pass.spec {g : Gen} (hg : job.Sound g) :
    ∃ g', job.pass d g = some g' ∧ job.Sound g' ∧ g.poss.length ≤ g'.poss.length ∧
      ((∃ i < job.regions, job.positionsStart i + job.maxbs ≤ job.positionsEnd i) →
        g'.poss ≠ []) := by
  have hall : ∀ i ∈ List.range job.regions, i < job.regions := fun i => List.mem_range.mp
  obtain ⟨g', hrun, hg', hle⟩ := turns.spec (d := d) hroomy hcopy hg hall
  refine ⟨g', hrun, hg', hle, ?_⟩
  rintro ⟨i, hi, hroom⟩
  obtain ⟨before, after, hsplit⟩ := List.append_of_mem (List.mem_range.mpr hi)
  rw [hsplit] at hall
  obtain ⟨g₁, hrun₁, hg₁, -⟩ := turns.spec (d := d) hroomy hcopy hg (l := before)
    fun k hk => hall k (List.mem_append_left _ hk)
  obtain ⟨g₂, hturn, hg₂, hle₂, hstores⟩ := turn.spec (d := d) hroomy hcopy hg₁ hi
  obtain ⟨g₃, hrun₃, -, hle₃⟩ := turns.spec (d := d) hroomy hcopy hg₂ (l := after)
    fun k hk => hall k (List.mem_append_right _ (List.mem_cons_of_mem _ hk))
  rw [hsplit, machine.run_append, hrun₁, Option.bind_some, machine.run_cons, hturn,
    Option.bind_some, hrun₃] at hrun
  cases hrun
  -- the region is at its beginning when its turn comes, if nothing is stored before
  have hstored : g₂.poss ≠ [] := by
    by_cases hnil : g₁.poss = []
    · exact hstores (by rw [hg₁.fresh hnil]; exact hroom)
    · exact fun h => hnil (List.eq_nil_of_length_eq_zero (by rw [h] at hle₂; exact Nat.le_zero.mp hle₂))
  exact fun h => hstored (List.eq_nil_of_length_eq_zero (by rw [h] at hle₃; exact Nat.le_zero.mp hle₃))

theorem fill.spec {g : Gen} (hg : job.Sound g) :
    ∃ g', job.fill d g = some g' ∧ job.Sound g' ∧ g.poss.length ≤ g'.poss.length ∧
      ((∃ i < job.regions, job.positionsStart i + job.maxbs ≤ job.positionsEnd i) →
        g'.poss ≠ []) := by
  induction hn : job.sz - g.poss.length using Nat.strong_induction_on generalizing g with
  | _ n ih =>
    rw [fill]
    split
    · rename_i hroom
      obtain ⟨g₁, hpass, hg₁, hle, hstores⟩ := pass.spec (d := d) hroomy hcopy hg
      rw [hpass, Option.bind_some]
      split
      · rename_i hgrown
        obtain ⟨g', hfill, hg', hle', -⟩ := ih (job.sz - g₁.poss.length) (by omega) hg₁ rfl
        refine ⟨g', hfill, hg', hle.trans hle', fun _ hnil => ?_⟩
        rw [hnil, List.length_nil] at hle'
        omega
      · exact ⟨g₁, rfl, hg₁, hle, hstores⟩
    · rename_i hfull
      refine ⟨g, rfl, hg, Nat.le_refl _, fun _ hnil => ?_⟩
      rw [hnil] at hfull
      exact absurd job.sz_pos hfull

end

/-! ## The creation -/

theorem Roomy.array_fits (hroomy : job.Roomy) (hfourk : ¬ 0 < job.fourkEveryMiB) {poss : List Block}
    (hposs : ∀ b ∈ poss, job.minbs ≤ b.len ∧ b.len ≤ job.maxbs)
    (hstarting : poss ≠ [] ∨ job.startingBlock ≤ 0) : job.ArrayFits d poss := by
  refine ⟨fun hnil => hstarting.resolve_left fun h => h hnil, fun hredrawn i b hb => ?_,
    fun h => absurd h hfourk⟩
  obtain ⟨haligned, hlengths⟩ := hroomy.redrawn hredrawn
  have hmem : b ∈ poss := (rotate_perm poss).mem_iff.mp (List.mem_of_getElem? hb)
  obtain ⟨hmin, hmax⟩ := hposs b hmem
  obtain ⟨pos, hblock, hge, hle⟩ := randomBlock.spec haligned hlengths (d.redraw_le i _)
  obtain ⟨hdrawn, rfl⟩ := randomBlock_eq_some_iff.mp hblock
  refine ⟨hdrawn, fun _ => ⟨⟨hge, ?_⟩, fun _ => ?_⟩⟩
  · dsimp only
    omega
  · have := job.minbs_pos
    dsimp only
    omega

/-- A job with room, and without 4 KiB operations, has its positions in its range whatever the
generators give. -/
theorem Roomy.fits (hroomy : job.Roomy) (hfourk : ¬ 0 < job.fourkEveryMiB) (d : Draws job) :
    job.Fits d := by
  have hmin := job.minbs_pos
  unfold Fits
  by_cases hcopy : job.copyMode
  · rw [if_pos hcopy]
    obtain ⟨hlength, -, hmem⟩ := copied.spec job
    refine ⟨fun hfinal => hroomy.copies hcopy hfinal.1, hroomy.array_fits hfourk (fun b hb => ?_)
      (.inl fun hnil => ?_)⟩
    · have hle := job.minbs_le_maxbs
      obtain ⟨i, -, rfl⟩ | ⟨i, -, rfl⟩ := (hmem b).mp hb
      · exact ⟨Nat.le_refl _, hle⟩
      · exact ⟨hle, Nat.le_refl _⟩
    · rw [hnil] at hlength
      exact absurd job.sz_pos (by rw [← hlength]; exact lt_irrefl 0)
  · rw [if_neg hcopy, FillFits.iff fun _ => List.forall_mem_nil _]
    obtain ⟨g, hfill, hg, -, hstored⟩ := fill.spec (d := d) hroomy hcopy start_sound
    refine ⟨g, hfill, fun hfinal b hb => ?_, hroomy.array_fits hfourk (fun b hb => ?_) ?_⟩
    · obtain ⟨hlen, -, hinside⟩ := hg.blocks b hb
      exact ⟨hinside hfinal.1, fun _ => by omega⟩
    · obtain ⟨hlen, hle, -⟩ := hg.blocks b hb
      exact ⟨hlen, hle⟩
    · obtain hstart | hmode | hroom := hroomy.starting
      · exact .inr hstart
      · exact absurd hmode hcopy
      · exact .inl (hstored hroom)

end Job

end stutools.spit.create
