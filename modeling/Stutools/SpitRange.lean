-- Where the positions of a job are (src/c/spit/positions.c): what each turn of the loop over the
-- regions asks of the state before it, and the copy mode of its job, for the assertions to hold
-- and for the places to lie in the range of the job.
import Mathlib.Data.List.Induction
import Mathlib.Tactic.Linarith
import Stutools.SpitCreate

namespace stutools.spit.create

/-! ## Lengths and differences -/

theorem sub64_of_le {a b : Nat} (h : b ≤ a) (ha : a < 2 ^ 64) : sub64 a b = a - b := by
  unfold sub64
  omega

theorem lengthsMin_le {lengths : List Nat} {l : Nat} (h : l ∈ lengths) :
    lengthsMin lengths ≤ l := by
  induction lengths with
  | nil => cases h
  | cons a lengths ih =>
    unfold lengthsMin at ih ⊢
    rw [List.foldr_cons]
    obtain rfl | h := List.mem_cons.mp h
    · exact Nat.min_le_left _ _
    · exact (Nat.min_le_right _ _).trans (ih h)

theorem le_lengthsMax {lengths : List Nat} {l : Nat} (h : l ∈ lengths) :
    l ≤ lengthsMax lengths := by
  induction lengths with
  | nil => cases h
  | cons a lengths ih =>
    unfold lengthsMax at ih ⊢
    rw [List.foldr_cons]
    obtain rfl | h := List.mem_cons.mp h
    · exact Nat.le_max_left _ _
    · exact (ih h).trans (Nat.le_max_right _ _)

theorem lengthsMax_lt {lengths : List Nat} {n : Nat} (hn : 0 < n) (h : ∀ l ∈ lengths, l < n) :
    lengthsMax lengths < n := by
  induction lengths with
  | nil => exact hn
  | cons a lengths ih =>
    obtain ⟨ha, h⟩ := List.forall_mem_cons.mp h
    unfold lengthsMax at ih ⊢
    rw [List.foldr_cons]
    exact max_lt ha (ih h)

theorem lengthsMin_pos {lengths : List Nat} (h : ∀ l ∈ lengths, 0 < l) :
    0 < lengthsMin lengths := by
  induction lengths with
  | nil => decide
  | cons a lengths ih =>
    obtain ⟨ha, h⟩ := List.forall_mem_cons.mp h
    unfold lengthsMin at ih ⊢
    rw [List.foldr_cons]
    exact lt_min ha (ih h)

namespace Job

variable (job : Job)

theorem minbs_pos : 0 < job.minbs := lengthsMin_pos fun l hl => (job.lengths_pos l hl).1

theorem maxbs_lt : job.maxbs < 2 ^ 32 :=
  lengthsMax_lt (by decide) fun l hl => (job.lengths_pos l hl).2

theorem bounds_of_mem {l : Nat} (h : l ∈ job.lengths) : job.minbs ≤ l ∧ l ≤ job.maxbs :=
  ⟨lengthsMin_le h, le_lengthsMax h⟩

theorem minbs_le_maxbs : job.minbs ≤ job.maxbs := by
  obtain ⟨l, hl⟩ := List.exists_mem_of_ne_nil _ job.lengths_ne_nil
  exact (job.bounds_of_mem hl).1.trans (job.bounds_of_mem hl).2

/-! ## Places -/

/-- The position lies in the range. -/
def Inside (b : Block) : Prop := job.minbdSize ≤ b.pos ∧ b.pos + b.len ≤ job.maxbdSize

instance (b : Block) : Decidable (job.Inside b) := inferInstanceAs (Decidable (_ ∧ _))

/-- The position lies in the range, and has a length if that is checked. -/
def Fine (b : Block) : Prop := job.Inside b ∧ (job.resetSizes = [] → b.len ≠ 0)

/-- The place that a random value gives to a length: so many blocks of the alignment behind the one
with the beginning of the range, if the last place for the length is in another block. -/
def place (thislen value : Nat) : Nat :=
  let first := job.minbdSize / 2 ^ job.alignbits
  let last := sub64 job.maxbdSize thislen
  if last = 0 then 0
  else
    (first + if first < last / 2 ^ job.alignbits then value / 2 ^ job.alignbits else 0) *
      2 ^ job.alignbits % 2 ^ 64

/-- A place for the length lies between the beginning of the range and the last place for it. -/
def Drawn (thislen value : Nat) : Prop :=
  sub64 job.maxbdSize thislen = 0 ∨
    job.minbdSize ≤ job.place thislen value ∧
      job.place thislen value ≤ sub64 job.maxbdSize thislen

/-- The 4 KiB operations move positions. -/
def Moving : Prop := 0 < job.fourkEveryMiB ∧ job.jumpKiB ≠ 0

/-- Nothing but the direction changes the places of the loop and of the copies. -/
def Final : Prop := ¬ job.Redrawn ∧ ¬ job.Moving

variable {job}

theorem randomBlock_eq_some_iff {thislen value pos : Nat} :
    job.randomBlock thislen value = some pos ↔
      job.Drawn thislen value ∧ pos = job.place thislen value := by
  unfold randomBlock randomBlockSize Drawn place
  by_cases hlast : sub64 job.maxbdSize thislen = 0
  · simp only [hlast, if_true, true_or, true_and, Option.some.injEq, eq_comm]
  · simp only [hlast, if_false, false_or]
    have hblocks : (if sub64 job.maxbdSize thislen / 2 ^ job.alignbits >
          job.minbdSize / 2 ^ job.alignbits then
        job.minbdSize / 2 ^ job.alignbits + value / 2 ^ job.alignbits
        else job.minbdSize / 2 ^ job.alignbits) =
      job.minbdSize / 2 ^ job.alignbits +
        if job.minbdSize / 2 ^ job.alignbits < sub64 job.maxbdSize thislen / 2 ^ job.alignbits then
          value / 2 ^ job.alignbits else 0 := by
      split <;> rfl
    rw [hblocks, Option.ite_none_right_eq_some, Option.some.injEq]
    exact and_congr_right fun _ => eq_comm

/-- A place that leaves room for the length is no later than the last one. -/
theorem Inside.drawn {thislen value : Nat} (h : job.Inside ⟨job.place thislen value, thislen⟩) :
    job.Drawn thislen value := by
  obtain ⟨hge, hle⟩ := h
  have hsize := job.size_lt
  dsimp only at hge hle
  refine .inr ⟨hge, ?_⟩
  rw [sub64_of_le (by omega) (by omega)]
  omega

/-! ## The turns of the loop -/

variable (job) (d : Draws job)

/-- The turn has a position to take. -/
def Takes (g : Gen) (i : Nat) : Prop :=
  g.poss.length < job.sz ∧ g.positionsCurrent i + job.thislen d g ≤ job.positionsEnd i

instance (g : Gen) (i : Nat) : Decidable (job.Takes d g i) := inferInstanceAs (Decidable (_ ∧ _))

/-- The region has reached its limit, and begins again. -/
def Rewinds (g : Gen) (i : Nat) : Prop :=
  job.linearSubSample = 0 ∧ job.randomSubSample = 0 ∧ job.sf_maxsizebytes ≠ 0 ∧
    g.positionsCurrent i + job.thislen d g > job.positionsStart i + job.sf_maxsizebytes

instance (g : Gen) (i : Nat) : Decidable (job.Rewinds d g i) :=
  inferInstanceAs (Decidable (_ ∧ _))

/-- The position that a turn takes: a sample, a random one, or the next one of its region. -/
def taken (g : Gen) (i : Nat) : Block :=
  if job.linearSubSample ≠ 0 then job.sampled d g.poss.length
  else
    { pos :=
        if job.randomSubSample ≠ 0 then
          job.place (job.thislen d g) (d.block g.turns (job.randomRange (job.thislen d g)))
        else if job.Rewinds d g i then job.positionsStart i
        else g.positionsCurrent i
      len := job.thislen d g }

/-- The lengths of the region reach the threshold. -/
def Resets (g : Gen) (i : Nat) : Prop :=
  job.resetSizes ≠ [] ∧ 0 < job.sf ∧
    d.resetThres g.turns ≤ (g.positionsSizeSum i + (job.taken d g i).len) % 2 ^ 64

/-- What the assertions of a turn ask: its region is not before its beginning, a sample lies in the
range, every position begins in its region, and so does a region that goes to another place find
one for the length. -/
structure Passes (g : Gen) (i : Nat) : Prop where
  current : g.poss.length < job.sz → job.positionsStart i ≤ g.positionsCurrent i
  sample : job.Takes d g i → job.linearSubSample ≠ 0 ∨ job.randomSubSample ≠ 0 →
    job.Inside (job.taken d g i)
  region : job.Takes d g i → job.positionsStart i ≤ (job.taken d g i).pos ∧
    (job.taken d g i).pos < job.positionsEnd i ∧
      (job.sf_maxsizebytes ≠ 0 →
        (job.taken d g i).pos ≤ job.positionsStart i + job.sf_maxsizebytes)
  reset : job.Takes d g i → job.Resets d g i → job.Drawn (job.taken d g i).len
    (d.resetBlock g.turns (job.randomRange (job.taken d g i).len))

/-- What a turn asks of the state before it. -/
def TurnFits (g : Gen) (i : Nat) : Prop :=
  job.Passes d g i ∧ (job.Takes d g i → job.Final → job.Fine (job.taken d g i))

variable {job d} {g g' : Gen} {i : Nat}

theorem choose.iff (hroom : g.positionsCurrent i + job.thislen d g ≤ job.positionsEnd i)
    {p : Block × Nat} :
    job.choose d i (job.thislen d g) g = some p ↔
      (job.linearSubSample ≠ 0 ∨ job.randomSubSample ≠ 0 → job.Inside (job.taken d g i)) ∧
        p = (job.taken d g i, if job.Rewinds d g i then job.positionsStart i
          else g.positionsCurrent i) := by
  unfold choose
  dsimp only
  by_cases hlinear : job.linearSubSample ≠ 0
  · have htaken : job.taken d g i = job.sampled d g.poss.length := if_pos hlinear
    have hrewinds : ¬ job.Rewinds d g i := fun h => hlinear h.1
    rw [if_pos hlinear, htaken, if_neg hrewinds, Option.ite_none_right_eq_some, Option.some.injEq]
    exact and_congr ⟨fun h _ => h, fun h => h (.inl hlinear)⟩ eq_comm
  · by_cases hrandom : job.randomSubSample ≠ 0
    · have htaken : job.taken d g i =
          ⟨job.place (job.thislen d g) (d.block g.turns (job.randomRange (job.thislen d g))),
            job.thislen d g⟩ := by
        unfold taken
        rw [if_neg hlinear, if_pos hrandom]
      have hrewinds : ¬ job.Rewinds d g i := fun h => hrandom h.2.1
      rw [if_neg hlinear, if_pos hrandom, htaken, if_neg hrewinds, Option.bind_eq_some_iff]
      simp only [randomBlock_eq_some_iff, Option.ite_none_right_eq_some, Option.some.injEq]
      constructor
      · rintro ⟨pos, ⟨-, rfl⟩, hinside, rfl⟩
        exact ⟨fun _ => hinside, rfl⟩
      · rintro ⟨hinside, rfl⟩
        exact ⟨_, ⟨(hinside (.inr hrandom)).drawn, rfl⟩, hinside (.inr hrandom), rfl⟩
    · have hnone : ¬ (job.linearSubSample ≠ 0 ∨ job.randomSubSample ≠ 0) :=
        not_or.mpr ⟨hlinear, hrandom⟩
      have hover : (g.positionsCurrent i + job.thislen d g > job.positionsEnd i ∨
          job.sf_maxsizebytes ≠ 0 ∧ g.positionsCurrent i + job.thislen d g >
            job.positionsStart i + job.sf_maxsizebytes) ↔ job.Rewinds d g i := by
        unfold Rewinds
        constructor
        · rintro (hend | ⟨hlimit, hbehind⟩)
          · exact absurd hroom (not_le.mpr hend)
          · exact ⟨not_not.mp hlinear, not_not.mp hrandom, hlimit, hbehind⟩
        · exact fun h => .inr h.2.2
      unfold taken
      rw [if_neg hlinear, if_neg hrandom, if_neg hlinear, if_neg hrandom]
      by_cases hrewinds : job.Rewinds d g i
      · rw [if_pos (hover.mpr hrewinds), if_pos hrewinds, Option.some.injEq]
        exact ⟨fun h => ⟨fun hsample => absurd hsample hnone, h.symm⟩, fun h => h.2.symm⟩
      · rw [if_neg (mt hover.mp hrewinds), if_neg hrewinds, Option.some.injEq]
        exact ⟨fun h => ⟨fun hsample => absurd hsample hnone, h.symm⟩, fun h => h.2.symm⟩

/-- A position is passed over when a region that goes to another place finds one. -/
theorem advance.iff {current : Nat} :
    (∃ g', job.advance d i (job.taken d g i) current g = some g') ↔
      (job.Resets d g i → job.Drawn (job.taken d g i).len
        (d.resetBlock g.turns (job.randomRange (job.taken d g i).len))) := by
  unfold advance
  dsimp only
  split
  · rename_i hreset
    simp only [Option.map_eq_some_iff, randomBlock_eq_some_iff]
    constructor
    · rintro ⟨-, pos, ⟨hdrawn, -⟩, -⟩ -
      exact hdrawn
    · exact fun h => ⟨_, _, ⟨h hreset, rfl⟩, rfl⟩
  · rename_i hreset
    exact ⟨fun _ h => absurd h hreset, fun _ => ⟨_, rfl⟩⟩

theorem advance_poss {b : Block} {current : Nat} (h : job.advance d i b current g = some g') :
    g'.poss = g.poss ++ [b] := by
  unfold advance at h
  dsimp only at h
  split at h
  · obtain ⟨pos, -, rfl⟩ := Option.map_eq_some_iff.mp h
    rfl
  · cases h
    rfl

/-- A turn that takes a position stores it, and passes it over. -/
theorem turn_of_takes (htakes : job.Takes d g i)
    (hstart : job.positionsStart i ≤ g.positionsCurrent i) :
    job.turn d g i = some g' ↔
      (job.linearSubSample ≠ 0 ∨ job.randomSubSample ≠ 0 → job.Inside (job.taken d g i)) ∧
        (job.positionsStart i ≤ (job.taken d g i).pos ∧
          (job.taken d g i).pos < job.positionsEnd i ∧
            (job.sf_maxsizebytes ≠ 0 →
              (job.taken d g i).pos ≤ job.positionsStart i + job.sf_maxsizebytes)) ∧
          job.advance d i (job.taken d g i)
            (if job.Rewinds d g i then job.positionsStart i else g.positionsCurrent i) g =
              some g' := by
  unfold turn
  rw [if_neg (not_le.mpr htakes.1), if_pos hstart]
  dsimp only
  rw [if_pos htakes.2, Option.bind_eq_some_iff]
  simp only [Option.ite_none_right_eq_some]
  constructor
  · rintro ⟨p, hchoose, hregion, hadvance⟩
    obtain ⟨hsample, rfl⟩ := (choose.iff htakes.2).mp hchoose
    exact ⟨hsample, hregion, hadvance⟩
  · rintro ⟨hsample, hregion, hadvance⟩
    exact ⟨_, (choose.iff htakes.2).mpr ⟨hsample, rfl⟩, hregion, hadvance⟩

theorem turn_of_not_takes (hnot : ¬ job.Takes d g i)
    (hstart : g.poss.length < job.sz → job.positionsStart i ≤ g.positionsCurrent i) :
    ∃ g', job.turn d g i = some g' ∧ g'.poss = g.poss := by
  unfold turn
  by_cases hfull : job.sz ≤ g.poss.length
  · rw [if_pos hfull]
    exact ⟨g, rfl, rfl⟩
  · have hroom : ¬ g.positionsCurrent i + job.thislen d g ≤ job.positionsEnd i :=
      fun h => hnot ⟨not_le.mp hfull, h⟩
    rw [if_neg hfull, if_pos (hstart (not_le.mp hfull))]
    dsimp only
    rw [if_neg hroom]
    exact ⟨_, rfl, rfl⟩

theorem turn_start (h : job.turn d g i = some g') (hroom : g.poss.length < job.sz) :
    job.positionsStart i ≤ g.positionsCurrent i := by
  unfold turn at h
  rw [if_neg (not_le.mpr hroom)] at h
  exact (Option.ite_none_right_eq_some.mp h).1

theorem turn_poss (h : job.turn d g i = some g') :
    g'.poss = if job.Takes d g i then g.poss ++ [job.taken d g i] else g.poss := by
  by_cases htakes : job.Takes d g i
  · rw [if_pos htakes]
    exact advance_poss ((turn_of_takes htakes (turn_start h htakes.1)).mp h).2.2
  · obtain ⟨g'', hturn, hposs⟩ := turn_of_not_takes htakes (turn_start h)
    rw [if_neg htakes, ← hposs, Option.some.inj (h.symm.trans hturn)]

theorem turn.iff : (∃ g', job.turn d g i = some g') ↔ job.Passes d g i := by
  constructor
  · rintro ⟨g', hturn⟩
    have htake (htakes : job.Takes d g i) :=
      (turn_of_takes htakes (turn_start hturn htakes.1)).mp hturn
    exact ⟨turn_start hturn, fun h => (htake h).1, fun h => (htake h).2.1,
      fun h => advance.iff.mp ⟨g', (htake h).2.2⟩⟩
  · intro hpasses
    by_cases htakes : job.Takes d g i
    · obtain ⟨g', hadvance⟩ := advance.iff.mpr (hpasses.reset htakes)
      exact ⟨g', (turn_of_takes htakes (hpasses.current htakes.1)).mpr
        ⟨hpasses.sample htakes, hpasses.region htakes, hadvance⟩⟩
    · obtain ⟨g', hturn, -⟩ := turn_of_not_takes htakes hpasses.current
      exact ⟨g', hturn⟩

/-! ## The loop -/

theorem turn_subset (h : job.turn d g i = some g') : g.poss ⊆ g'.poss := by
  rw [turn_poss h]
  split
  · exact List.subset_append_left _ _
  · exact List.Subset.refl _

theorem positionsEnd_lt (i : Nat) : job.positionsEnd i < 2 ^ 64 := by
  have hsize := job.size_lt
  unfold positionsEnd
  split
  · exact Nat.mod_lt _ (by decide)
  · omega

theorem turn_lt (h : job.turn d g i = some g') (hg : ∀ b ∈ g.poss, b.pos < 2 ^ 64) :
    ∀ b ∈ g'.poss, b.pos < 2 ^ 64 := by
  rw [turn_poss h]
  split
  · rename_i htakes
    refine List.forall_mem_append.mpr ⟨hg, ?_⟩
    rw [List.forall_mem_singleton]
    exact ((turn.iff.mp ⟨g', h⟩).region htakes).2.1.trans (positionsEnd_lt i)
  · exact hg

theorem TurnFits.iff (hg : job.Final → ∀ b ∈ g.poss, job.Fine b) :
    job.TurnFits d g i ↔
      ∃ g', job.turn d g i = some g' ∧ (job.Final → ∀ b ∈ g'.poss, job.Fine b) := by
  constructor
  · rintro ⟨hpasses, hfine⟩
    obtain ⟨g', hturn⟩ := turn.iff.mpr hpasses
    refine ⟨g', hturn, fun hfinal => ?_⟩
    rw [turn_poss hturn]
    split
    · rename_i htakes
      refine List.forall_mem_append.mpr ⟨hg hfinal, ?_⟩
      rw [List.forall_mem_singleton]
      exact hfine htakes hfinal
    · exact hg hfinal
  · rintro ⟨g', hturn, hg'⟩
    refine ⟨turn.iff.mp ⟨g', hturn⟩, fun htakes hfinal => hg' hfinal _ ?_⟩
    rw [turn_poss hturn, if_pos htakes]
    exact List.mem_append_right _ (List.mem_singleton_self _)

theorem pass.iff (hg : job.Final → ∀ b ∈ g.poss, job.Fine b) :
    machine.Along (job.turn d) (job.TurnFits d) g (List.range job.regions) ↔
      ∃ g', job.pass d g = some g' ∧ (job.Final → ∀ b ∈ g'.poss, job.Fine b) :=
  machine.along_iff_run (P := fun g => job.Final → ∀ b ∈ g.poss, job.Fine b)
    (fun _ _ => TurnFits.iff)
    (fun _ _ _ hturn h hfinal b hb => h hfinal b (turn_subset hturn hb)) hg

variable (job d) in
/-- Every turn of the loop fits the state before it, and the array that the last one leaves fits
what is done to it. -/
def FillFits (after : List Block → Prop) (g : Gen) : Prop :=
  if g.poss.length < job.sz then
    machine.Along (job.turn d) (job.TurnFits d) g (List.range job.regions) ∧
      ∀ g', job.pass d g = some g' →
        if g.poss.length < g'.poss.length then FillFits after g' else after g'.poss
  else after g.poss
termination_by job.sz - g.poss.length

/-- What every turn keeps of the array, the loop keeps. -/
theorem fill_invariant {P : List Block → Prop}
    (hturn : ∀ g i g', job.turn d g i = some g' → P g.poss → P g'.poss)
    (h : job.fill d g = some g') (hg : P g.poss) : P g'.poss := by
  induction hn : job.sz - g.poss.length using Nat.strong_induction_on generalizing g with
  | _ n ih =>
    rw [fill] at h
    split at h
    · rename_i hroom
      obtain ⟨g₁, hpass, h⟩ := Option.bind_eq_some_iff.mp h
      have hg₁ : P g₁.poss := machine.invariant (P := fun g => P g.poss)
        (fun g i g' hP h => hturn g i g' h hP) hpass hg
      split at h
      · exact ih _ (by omega) h hg₁ rfl
      · cases h
        exact hg₁
    · cases h
      exact hg

theorem fill_subset (h : job.fill d g = some g') : g.poss ⊆ g'.poss :=
  fill_invariant (P := fun poss => g.poss ⊆ poss)
    (fun _ _ _ hturn hsub => List.Subset.trans hsub (turn_subset hturn)) h (List.Subset.refl _)

theorem fill_lt (h : job.fill d job.start = some g) : ∀ b ∈ g.poss, b.pos < 2 ^ 64 :=
  fill_invariant (P := fun poss => ∀ b ∈ poss, b.pos < 2 ^ 64)
    (fun _ _ _ hturn hlt => turn_lt hturn hlt) h (List.forall_mem_nil _)

theorem FillFits.iff {after : List Block → Prop} (hg : job.Final → ∀ b ∈ g.poss, job.Fine b) :
    job.FillFits d after g ↔
      ∃ g', job.fill d g = some g' ∧ (job.Final → ∀ b ∈ g'.poss, job.Fine b) ∧ after g'.poss := by
  induction hn : job.sz - g.poss.length using Nat.strong_induction_on generalizing g with
  | _ n ih =>
    rw [fill, FillFits]
    split
    · rename_i hroom
      rw [pass.iff hg]
      constructor
      · rintro ⟨⟨g₁, hpass, hg₁⟩, hafter⟩
        specialize hafter g₁ hpass
        rw [hpass, Option.bind_some]
        split at hafter
        · rename_i hgrown
          rw [if_pos hgrown]
          exact (ih _ (by omega) hg₁ rfl).mp hafter
        · rename_i hsame
          rw [if_neg hsame]
          exact ⟨g₁, rfl, hg₁, hafter⟩
      · rintro ⟨g', hfill, hg', hafter⟩
        obtain ⟨g₁, hpass, hfill⟩ := Option.bind_eq_some_iff.mp hfill
        by_cases hgrown : g.poss.length < g₁.poss.length
        · rw [if_pos hgrown] at hfill
          have hg₁ : job.Final → ∀ b ∈ g₁.poss, job.Fine b :=
            fun hfinal b hb => hg' hfinal b (fill_subset hfill hb)
          refine ⟨⟨g₁, hpass, hg₁⟩, fun g₂ hpass₂ => ?_⟩
          obtain rfl := Option.some.inj (hpass.symm.trans hpass₂)
          rw [if_pos hgrown]
          exact (ih _ (by omega) hg₁ rfl).mpr ⟨g', hfill, hg', hafter⟩
        · rw [if_neg hgrown] at hfill
          cases hfill
          refine ⟨⟨g', hpass, hg'⟩, fun g₂ hpass₂ => ?_⟩
          obtain rfl := Option.some.inj (hpass.symm.trans hpass₂)
          rwa [if_neg hgrown]
    · constructor
      · exact fun h => ⟨g, rfl, hg, h⟩
      · rintro ⟨g', hfill, -, hafter⟩
        cases hfill
        exact hafter

/-! ## The copies -/

variable (job) in
/-- The reads of the copy mode for each of its writes. -/
def readsPerWrite : Nat := (job.maxbs + job.minbs - 1) / job.minbs

variable (job) in
/-- The writes of the copy mode. -/
def copyWrites : Nat := job.sz / (job.readsPerWrite + 1)

variable (job) in
/-- The last of the reads and the last of the writes end in the range, and the writes do not begin
before it. -/
def CopiesFit : Prop :=
  job.minbdSize + (job.sz - job.copyWrites) * job.minbs ≤ job.maxbdSize ∧
    (0 < job.copyWrites → job.minbdSize ≤ job.copyStart.posw ∧
      job.copyStart.posw + job.copyWrites * job.maxbs ≤ job.maxbdSize)

/-- The state of the copy mode after `w` writes, with `q` reads before each, and `k` reads more. -/
structure Copied (job : Job) (c : Copy) (w k : Nat) : Prop where
  part : k ≤ job.readsPerWrite
  count : c.poss.length = w * (job.readsPerWrite + 1) + k
  posr : c.posr = job.minbdSize + (w * job.readsPerWrite + k) * job.minbs
  posw : c.posw = job.copyStart.posw + w * job.maxbs
  readSum : c.readSum = k * job.minbs
  mem_iff : ∀ b, b ∈ c.poss ↔
    (∃ i < w * job.readsPerWrite + k, b = ⟨job.minbdSize + i * job.minbs, job.minbs⟩) ∨
      ∃ i < w, b = ⟨job.copyStart.posw + i * job.maxbs, job.maxbs⟩

theorem lt_readsPerWrite_iff (job : Job) (k : Nat) :
    k < job.readsPerWrite ↔ k * job.minbs < job.maxbs := by
  have hpos := job.minbs_pos
  unfold readsPerWrite
  rw [Nat.lt_iff_add_one_le, Nat.le_div_iff_mul_le hpos, Nat.succ_mul]
  omega

theorem readsPerWrite_pos (job : Job) : 0 < job.readsPerWrite := by
  rw [lt_readsPerWrite_iff, Nat.zero_mul]
  exact job.minbs_pos.trans_le job.minbs_le_maxbs

theorem Copied.turn {c : Copy} {w k : Nat} (h : job.Copied c w k) :
    ∃ w' k', job.Copied (job.copyTurn c) w' k' ∧
      w' * (job.readsPerWrite + 1) + k' = w * (job.readsPerWrite + 1) + k + 1 := by
  obtain ⟨hpart, hcount, hposr, hposw, hsum, hmem⟩ := h
  unfold copyTurn
  by_cases hread : c.readSum < job.maxbs
  · rw [hsum, ← lt_readsPerWrite_iff] at hread
    rw [if_pos (by rwa [hsum, ← lt_readsPerWrite_iff])]
    refine ⟨w, k + 1, ⟨hread, ?_, ?_, hposw, ?_, ?_⟩, rfl⟩
    · dsimp only
      rw [List.length_append, hcount]
      rfl
    · dsimp only
      rw [hposr]
      ring
    · dsimp only
      rw [hsum]
      ring
    · intro b
      rw [List.mem_append, List.mem_singleton, hmem, hposr, or_right_comm, ← Nat.add_assoc,
        Nat.exists_lt_succ_right]
  · have hfull : k = job.readsPerWrite := by
      rw [hsum, ← lt_readsPerWrite_iff] at hread
      omega
    rw [if_neg hread]
    subst hfull
    refine ⟨w + 1, 0, ⟨Nat.zero_le _, ?_, ?_, ?_, (Nat.zero_mul _).symm, ?_⟩, by ring⟩
    · dsimp only
      rw [List.length_append, hcount, List.length_singleton]
      ring
    · dsimp only
      rw [hposr]
      ring
    · dsimp only
      rw [hposw]
      ring
    · intro b
      rw [List.mem_append, List.mem_singleton, hmem, hposw, or_assoc, Nat.exists_lt_succ_right,
        Nat.succ_mul, Nat.add_zero]

theorem copied_turns (job : Job) (n : Nat) :
    ∃ w k, job.Copied ((List.range n).foldl (fun c _ => job.copyTurn c) job.copyStart) w k ∧
      w * (job.readsPerWrite + 1) + k = n := by
  induction n with
  | zero =>
    refine ⟨0, 0, ⟨Nat.zero_le _, ?_, ?_, ?_, ?_, ?_⟩, ?_⟩ <;> simp [copyStart]
  | succ n ih =>
    obtain ⟨w, k, hcopied, hn⟩ := ih
    obtain ⟨w', k', hcopied', hn'⟩ := hcopied.turn
    rw [List.range_succ, List.foldl_append]
    exact ⟨w', k', hcopied', by rw [hn', hn]⟩

/-- The copies are so many reads from the beginning of the range on, and so many writes. -/
theorem copied.spec (job : Job) : job.copied.length = job.sz ∧ 0 < job.sz - job.copyWrites ∧
    ∀ b, b ∈ job.copied ↔
      (∃ i < job.sz - job.copyWrites, b = ⟨job.minbdSize + i * job.minbs, job.minbs⟩) ∨
        ∃ i < job.copyWrites, b = ⟨job.copyStart.posw + i * job.maxbs, job.maxbs⟩ := by
  obtain ⟨w, k, ⟨hpart, hcount, -, -, -, hmem⟩, hn⟩ := copied_turns job job.sz
  have hreads := readsPerWrite_pos job
  have hwrites : job.copyWrites = w := by
    unfold copyWrites
    rw [← hn, Nat.mul_comm, Nat.mul_add_div (by omega), Nat.div_eq_of_lt (by omega), Nat.add_zero]
  have hrest : job.sz - w = w * job.readsPerWrite + k := by
    rw [← hn, Nat.mul_add, Nat.mul_one]
    omega
  have hsz := job.sz_pos
  have hsome : 0 < w * job.readsPerWrite + k := by
    obtain rfl | hw := Nat.eq_zero_or_pos w
    · omega
    · exact Nat.add_pos_left (Nat.mul_pos hw hreads) k
  rw [hwrites, hrest]
  exact ⟨hcount.trans hn, hsome, hmem⟩

theorem alignedNumber_le (num alignment : Nat) :
    alignedNumber num alignment ≤ num + alignment := by
  have hpart := Nat.div_mul_le_self num alignment
  unfold alignedNumber
  split
  · dsimp only
    split
    · rw [Nat.succ_mul]
      omega
    · omega
  · omega

/-- The array is too short for a copy to come round the device addresses. -/
theorem copied_lt (job : Job) : ∀ b ∈ job.copied, b.pos < 2 ^ 64 := by
  intro b hb
  have hrange := job.range_le
  have hsize := job.size_lt
  have hsz := job.sz_lt
  have hmin := job.minbs_le_maxbs
  have hmax := job.maxbs_lt
  obtain ⟨i, hi, rfl⟩ | ⟨i, hi, rfl⟩ := ((copied.spec job).2.2 b).mp hb
  · have hread : i * job.minbs < 2 ^ 31 * 2 ^ 32 := Nat.mul_lt_mul'' (by omega) (by omega)
    dsimp only
    omega
  · have hpart : job.copyWrites ≤ job.sz / 2 :=
      Nat.div_le_div_left (by have := readsPerWrite_pos job; omega) (by decide)
    have hwrite : i * job.maxbs < 2 ^ 30 * 2 ^ 32 := Nat.mul_lt_mul'' (by omega) hmax
    have hfirst := alignedNumber_le (job.minbdSize + (job.maxbdSize - job.minbdSize) / 2) 4096
    unfold copyStart
    dsimp only
    omega

theorem CopiesFit.iff : job.CopiesFit ↔ ∀ b ∈ job.copied, job.Fine b := by
  obtain ⟨-, hreads, hmem⟩ := copied.spec job
  have hmin := job.minbs_pos
  have hmax := job.minbs_pos.trans_le job.minbs_le_maxbs
  constructor
  · rintro ⟨hend, hwrites⟩ b hb
    obtain ⟨i, hi, rfl⟩ | ⟨i, hi, rfl⟩ := (hmem b).mp hb
    · have hle := Nat.mul_le_mul_right job.minbs hi
      rw [Nat.succ_mul] at hle
      exact ⟨⟨Nat.le_add_right _ _, by dsimp only; omega⟩, fun _ => hmin.ne'⟩
    · obtain ⟨hge, hend⟩ := hwrites (by omega)
      have hle := Nat.mul_le_mul_right job.maxbs hi
      rw [Nat.succ_mul] at hle
      exact ⟨⟨hge.trans (Nat.le_add_right _ _), by dsimp only; omega⟩, fun _ => hmax.ne'⟩
  · intro hfine
    refine ⟨?_, fun hsome => ?_⟩
    · obtain ⟨⟨-, hend⟩, -⟩ := hfine _ ((hmem _).mpr
        (.inl ⟨job.sz - job.copyWrites - 1, by omega, rfl⟩))
      dsimp only at hend
      rwa [Nat.add_assoc, ← Nat.succ_mul, Nat.succ_eq_add_one, Nat.sub_add_cancel hreads] at hend
    · obtain ⟨⟨hge, -⟩, -⟩ := hfine _ ((hmem _).mpr (.inr ⟨0, hsome, rfl⟩))
      obtain ⟨⟨-, hend⟩, -⟩ := hfine _ ((hmem _).mpr
        (.inr ⟨job.copyWrites - 1, by omega, rfl⟩))
      dsimp only at hge hend
      rw [Nat.zero_mul, Nat.add_zero] at hge
      rw [Nat.add_assoc, ← Nat.succ_mul, Nat.succ_eq_add_one, Nat.sub_add_cancel hsome] at hend
      exact ⟨hge, hend⟩

end Job

end stutools.spit.create
