-- A job's positions over its rounds (src/c/spit/positions.c): what is done to the array of the
-- loop, the 4 KiB operations, and the rounds, and what each of them asks of the array before it
-- for the positions to lie in the range. The wrap of `positionAddBlockSize` does not know the
-- beginning of it.
import Mathlib.Data.List.GetD
import Mathlib.Data.List.Rotate
import Stutools.SpitRange

namespace stutools.spit.create

namespace Job

variable (job : Job) (d : Draws job)

/-! ## Conditions -/

/-- The number of the position that comes first. -/
def first (count : Nat) : Nat := (job.offset d count).getD 0

/-- The positions at random places. -/
def redrawn (positions : List Block) : List Block :=
  positions.mapIdx fun i b =>
    { b with pos := job.place job.maxbs (d.redraw i (job.randomRange job.maxbs)) }

/-- The array of the loop in the order of the container, at the places of the container. -/
def arranged (poss : List Block) : List Block :=
  let rotated := rotate poss (job.first d poss.length)
  let positions := if job.Redrawn then job.redrawn d rotated else rotated
  let positions := if job.sf < 0 then positions.map job.reverse else positions
  if job.firstPPositions ≠ 0 ∧ job.sf = 0 then job.randomize d positions else positions

/-- Every position lies in the range, at the place it is moved to if it is moved. -/
def MovesFit (last cumjump : Nat) : List Block → Prop
  | [] => True
  | b :: rest =>
    if job.Jumps last b then
      let cumjump := cumjump + alignedNumber (job.jumpKiB * 1024 % 2 ^ 64) 4096
      let pos := (b.pos + cumjump) % 2 ^ 64
      job.Fine { b with pos } ∧ MovesFit pos cumjump rest
    else job.Fine b ∧ MovesFit last cumjump rest

/-- The operations that are inserted lie in the range, and so do the positions that are moved
instead. -/
def FourkFits : List Block → Prop
  | [] => True
  | b :: rest =>
    let count := job.countJumps b.pos (b :: rest)
    if job.jumpKiB = 0 then ∀ i < count, job.Inside ⟨d.rand_r i % count * 4096, 4096⟩
    else job.MovesFit b.pos 0 (b :: rest)

/-- What is done to the array asks of it that there is a first position if one is asked for, that
random places are taken between the beginning of the range and the last place for the longest
length, and leave room for the length that is kept, and that the 4 KiB operations fit. -/
structure ArrayFits (poss : List Block) : Prop where
  starting : poss = [] → job.startingBlock ≤ 0
  redrawn : job.Redrawn → ∀ i b, (rotate poss (job.first d poss.length))[i]? = some b →
    job.Drawn job.maxbs (d.redraw i (job.randomRange job.maxbs)) ∧
      (¬ job.Moving → job.Fine
        { b with pos := job.place job.maxbs (d.redraw i (job.randomRange job.maxbs)) })
  fourk : 0 < job.fourkEveryMiB → job.FourkFits d (job.arranged d poss)

/-- What the creation of the positions asks of its job and of the values that are drawn, at each of
its steps of the state before it. -/
def Fits : Prop :=
  if job.copyMode then (job.Final → job.CopiesFit) ∧ job.ArrayFits d job.copied
  else job.FillFits d (job.ArrayFits d) job.start

variable {job d}

variable (job) in
/-- What a round asks of the positions before it: a place that is drawn has room in the range for
the length that is drawn and for the one that is kept, and a position that is passed on ends in it,
or comes to a place of it when it is wrapped. -/
def RoundFits (positions : List Block) : Round job → Prop
  | .randomSubSample d => ∀ i (b : Block), positions[i]? = some b →
      let pos := job.place (d.resample i) (d.block i (job.randomRange (d.resample i)))
      job.Inside ⟨pos, d.resample i⟩ ∧ job.Inside { b with pos }
  | .addBlockSize n => ∀ b ∈ positions,
      let pos := (b.pos + n) % 2 ^ 64
      job.Inside { b with pos } ∨ job.maxbdSize < pos + b.len ∧ job.Inside { b with pos := n }

/-! ## The array -/

/-- The first position can be chosen when there is one, or when none is asked for. -/
theorem offset.spec {count : Nat} (h : count = 0 → job.startingBlock ≤ 0) :
    ∃ n, job.offset d count = some n ∧ (count ≠ 0 → n < count) := by
  unfold offset
  by_cases hcount : count = 0
  · have hstarting := h hcount
    rw [if_neg (by omega)]
    exact ⟨0, rfl, fun h => absurd hcount h⟩
  · have hpos : 0 < count := Nat.pos_of_ne_zero hcount
    rw [if_pos (.inl hcount), if_neg hcount]
    split
    · exact ⟨_, rfl, fun _ => Nat.mod_lt _ hpos⟩
    · split
      · exact ⟨_, rfl, fun _ => Nat.mod_lt _ hpos⟩
      · refine ⟨_, rfl, fun _ => ?_⟩
        have hlt := Int.emod_lt_of_pos (((count : Int) + job.startingBlock) % 2 ^ 64)
          (show (0 : Int) < count by omega)
        have hnonneg := Int.emod_nonneg (((count : Int) + job.startingBlock) % 2 ^ 64)
          (show (count : Int) ≠ 0 by omega)
        omega

theorem offset_eq_some_iff {count n : Nat} :
    job.offset d count = some n ↔ (count = 0 → job.startingBlock ≤ 0) ∧ n = job.first d count := by
  constructor
  · intro h
    refine ⟨fun hcount => ?_, by rw [first, h, Option.getD_some]⟩
    by_contra hstarting
    rw [offset, if_pos (.inr (not_le.mp hstarting)), if_pos hcount] at h
    cases h
  · rintro ⟨hstarting, rfl⟩
    obtain ⟨n, hoffset, -⟩ := offset.spec (d := d) hstarting
    rw [first, hoffset, Option.getD_some]

theorem rotate_eq {poss : List Block} {n : Nat} (hn : poss.length ≠ 0 → n < poss.length) :
    rotate poss n = poss.rotate n := by
  unfold rotate
  apply List.ext_getElem
  · rw [List.length_map, List.length_range, List.length_rotate]
  · intro i hi hi'
    rw [List.length_map, List.length_range] at hi
    have hn := hn (by omega)
    rw [List.getElem_map, List.getElem_range, List.getElem_rotate]
    dsimp only
    have hindex : (if i + n ≥ poss.length then i + n - poss.length else i + n) =
        (i + n) % poss.length := by
      split
      · rw [Nat.mod_eq_sub_mod (by omega), Nat.mod_eq_of_lt (by omega)]
      · rw [Nat.mod_eq_of_lt (by omega)]
    rw [hindex, List.getD_eq_getElem]

theorem rotate_perm (poss : List Block) : (rotate poss (job.first d poss.length)).Perm poss := by
  by_cases hnil : poss = []
  · rw [hnil]
    exact List.Perm.refl _
  · obtain ⟨n, hoffset, hn⟩ := offset.spec (d := d) fun h =>
      absurd (List.eq_nil_of_length_eq_zero h) hnil
    rw [first, hoffset, Option.getD_some, rotate_eq hn]
    exact List.rotate_perm poss n

theorem swapTurn_perm {positions : List Block} {i : Nat} (hi : i < positions.length) :
    (job.swapTurn d positions.length positions i).Perm positions := by
  have hj : i + d.rand_r (i + 1) % (positions.length - i) < positions.length := by
    have := Nat.mod_lt (d.rand_r (i + 1)) (show 0 < positions.length - i by omega)
    omega
  unfold swapTurn
  dsimp only
  rw [List.getD_eq_getElem _ _ hi, List.getD_eq_getElem _ _ hj]
  exact List.set_set_perm hi hj

/-- A shuffle moves positions about. -/
theorem randomize_perm (positions : List Block) : (job.randomize d positions).Perm positions := by
  unfold randomize
  split
  · have hturns : ∀ n ≤ positions.length - 2,
        ((List.range n).foldl (job.swapTurn d positions.length) positions).Perm positions := by
      intro n hn
      induction n with
      | zero => exact List.Perm.refl _
      | succ n ih =>
        have hperm := ih (by omega)
        rw [List.range_succ, List.foldl_append, List.foldl_cons, List.foldl_nil]
        generalize (List.range n).foldl (job.swapTurn d positions.length) positions = l at hperm
        have hswap : (job.swapTurn d l.length l n).Perm l :=
          swapTurn_perm (by rw [hperm.length_eq]; omega)
        rw [hperm.length_eq] at hswap
        exact hswap.trans hperm
    exact hturns _ (Nat.le_refl _)
  · exact List.Perm.refl _

theorem redrawAll.iff {i : Nat} {l l' : List Block} :
    job.redrawAll d i l = some l' ↔
      (∀ k < l.length, job.Drawn job.maxbs (d.redraw (i + k) (job.randomRange job.maxbs))) ∧
        l' = l.mapIdx fun k b =>
          { b with pos := job.place job.maxbs (d.redraw (i + k) (job.randomRange job.maxbs)) } := by
  induction l generalizing i l' with
  | nil => simp [redrawAll, eq_comm]
  | cons b rest ih =>
    have hshift (k : Nat) : i + 1 + k = i + (k + 1) := by omega
    unfold redrawAll
    simp only [Option.bind_eq_some_iff, randomBlock_eq_some_iff, Option.map_eq_some_iff, ih, hshift]
    rw [List.mapIdx_cons]
    constructor
    · rintro ⟨pos, ⟨hdrawn, rfl⟩, l'', ⟨hrest, rfl⟩, rfl⟩
      refine ⟨fun k hk => ?_, rfl⟩
      cases k with
      | zero => exact hdrawn
      | succ k => exact hrest k (by rw [List.length_cons] at hk; omega)
    · rintro ⟨hdrawn, rfl⟩
      refine ⟨_, ⟨hdrawn 0 (Nat.zero_lt_succ _), rfl⟩, _, ⟨fun k hk => ?_, rfl⟩, rfl⟩
      exact hdrawn (k + 1) (by rw [List.length_cons]; omega)

/-- A place counted from the end of the range lies in it when the place itself does. -/
theorem reverse.iff {b : Block} (hb : b.pos < 2 ^ 64) :
    job.Fine (job.reverse b) ↔ job.Fine b := by
  have hrange := job.range_le
  have hsize := job.size_lt
  refine and_congr ?_ Iff.rfl
  unfold Inside reverse sub64
  dsimp only
  omega

theorem placed.iff {l l' : List Block} :
    (if job.Redrawn then job.redrawAll d 0 l else some l) = some l' ↔
      (job.Redrawn → ∀ i < l.length,
        job.Drawn job.maxbs (d.redraw i (job.randomRange job.maxbs))) ∧
          l' = if job.Redrawn then job.redrawn d l else l := by
  by_cases hredrawn : job.Redrawn
  · rw [if_pos hredrawn, if_pos hredrawn, redrawAll.iff]
    simp only [Nat.zero_add]
    exact and_congr ⟨fun h _ => h, fun h => h hredrawn⟩ Iff.rfl
  · rw [if_neg hredrawn, if_neg hredrawn, Option.some.injEq]
    exact ⟨fun h => ⟨fun h' => absurd h' hredrawn, h.symm⟩, fun h => h.2.symm⟩

/-- The assertions on the array leave it arranged. -/
theorem arrange.iff {poss positions : List Block} :
    job.arrange d poss = some positions ↔
      (poss = [] → job.startingBlock ≤ 0) ∧
        (job.Redrawn → ∀ i < poss.length,
          job.Drawn job.maxbs (d.redraw i (job.randomRange job.maxbs))) ∧
          positions = job.arranged d poss := by
  have hlength : (rotate poss (job.first d poss.length)).length = poss.length :=
    (rotate_perm poss).length_eq
  unfold arrange
  rw [Option.bind_eq_some_iff]
  constructor
  · rintro ⟨n, hoffset, hmap⟩
    obtain ⟨hstarting, rfl⟩ := offset_eq_some_iff.mp hoffset
    obtain ⟨l, hplaced, rfl⟩ := Option.map_eq_some_iff.mp hmap
    obtain ⟨hdrawn, rfl⟩ := placed.iff.mp hplaced
    rw [hlength] at hdrawn
    exact ⟨fun hnil => hstarting (by rw [hnil, List.length_nil]), hdrawn, rfl⟩
  · rintro ⟨hstarting, hdrawn, rfl⟩
    refine ⟨_, offset_eq_some_iff.mpr
      ⟨fun h => hstarting (List.eq_nil_of_length_eq_zero h), rfl⟩, ?_⟩
    rw [placed.iff.mpr ⟨by rwa [hlength], rfl⟩]
    rfl

/-- The positions of the container lie in the range when the random places do, or, if no places are
redrawn, those of the loop. -/
theorem arranged.iff {poss : List Block} (hlt : ∀ b ∈ poss, b.pos < 2 ^ 64) :
    (∀ b ∈ job.arranged d poss, job.Fine b) ↔
      (job.Redrawn → ∀ i (b : Block), (rotate poss (job.first d poss.length))[i]? = some b →
        job.Fine
          { b with pos := job.place job.maxbs (d.redraw i (job.randomRange job.maxbs)) }) ∧
      (¬ job.Redrawn → ∀ b ∈ poss, job.Fine b) := by
  have hrotated : ∀ b, b ∈ rotate poss (job.first d poss.length) ↔ b ∈ poss :=
    fun b => (rotate_perm poss).mem_iff
  have hshuffled (l : List Block) : (∀ b ∈ if job.firstPPositions ≠ 0 ∧ job.sf = 0 then
      job.randomize d l else l, job.Fine b) ↔ ∀ b ∈ l, job.Fine b := by
    split
    · exact forall_congr' fun b => by rw [(randomize_perm l).mem_iff]
    · rfl
  unfold arranged
  dsimp only
  rw [hshuffled]
  by_cases hredrawn : job.Redrawn
  · have hforward : ¬ job.sf < 0 := by
      rw [hredrawn.2]
      exact lt_irrefl 0
    rw [if_pos hredrawn, if_neg hforward]
    generalize rotate poss (job.first d poss.length) = rotated
    simp only [redrawn, List.mem_mapIdx, forall_exists_index, hredrawn, forall_const, not_true,
      false_imp_iff, and_true, List.getElem?_eq_some_iff]
    constructor
    · rintro h i b hi rfl
      exact h _ i hi rfl
    · rintro h b i hi rfl
      exact h i _ hi rfl
  · have hreversed : (∀ b ∈ if job.sf < 0 then
        (rotate poss (job.first d poss.length)).map job.reverse
        else rotate poss (job.first d poss.length), job.Fine b) ↔ ∀ b ∈ poss, job.Fine b := by
      split
      · rw [List.forall_mem_map]
        exact forall_congr' fun b => by
          rw [hrotated]
          exact forall_congr' fun hb => reverse.iff (hlt b hb)
      · exact forall_congr' fun b => by rw [hrotated]
    rw [if_neg hredrawn, hreversed]
    exact ⟨fun h => ⟨fun h' => absurd h' hredrawn, fun _ => h⟩, fun h => h.2 hredrawn⟩

/-! ## 4 KiB operations -/

theorem MovesFit.iff {last cumjump : Nat} {l : List Block} :
    job.MovesFit last cumjump l ↔ ∀ b ∈ job.moveAll last cumjump l, job.Fine b := by
  induction l generalizing last cumjump with
  | nil => simp [MovesFit, moveAll]
  | cons b rest ih =>
    unfold MovesFit moveAll
    dsimp only
    split
    · rw [List.forall_mem_cons, ih]
    · rw [List.forall_mem_cons, ih]

/-- The operations are put in between the positions. -/
theorem insertAll.spec {count i last : Nat} {l : List Block}
    (hcount : job.countJumps last l ≠ 0 → count ≠ 0) :
    ∃ l', job.insertAll d count i last l = some l' ∧ ∀ b, b ∈ l' ↔
      b ∈ l ∨ ∃ k < job.countJumps last l, b = ⟨d.rand_r (i + k) % count * 4096, 4096⟩ := by
  induction l generalizing i last with
  | nil => exact ⟨[], rfl, by simp [countJumps]⟩
  | cons b rest ih =>
    unfold countJumps at hcount ⊢
    unfold insertAll
    by_cases hjumps : job.Jumps last b
    · rw [if_pos hjumps] at hcount
      obtain ⟨l', hl', hmem⟩ := @ih (i + 1) b.pos fun _ => hcount (by omega)
      rw [if_pos hjumps, if_pos hjumps, if_neg (hcount (by omega)), hl']
      refine ⟨_, rfl, fun x => ?_⟩
      have hshift : (∃ k < job.countJumps b.pos rest + 1,
          x = ⟨d.rand_r (i + k) % count * 4096, 4096⟩) ↔
            x = ⟨d.rand_r i % count * 4096, 4096⟩ ∨ ∃ k < job.countJumps b.pos rest,
              x = ⟨d.rand_r (i + 1 + k) % count * 4096, 4096⟩ := by
        rw [Nat.exists_lt_succ_left, Nat.add_zero]
        simp only [Nat.add_right_comm i, Nat.add_assoc i]
      rw [List.mem_cons, List.mem_cons, List.mem_cons, hmem, hshift]
      exact (or_left_comm.trans (or_congr_right or_assoc)).symm
    · rw [if_neg hjumps] at hcount
      obtain ⟨l', hl', hmem⟩ := ih (i := i) hcount
      rw [if_neg hjumps, if_neg hjumps, hl']
      refine ⟨_, rfl, fun x => ?_⟩
      rw [List.mem_cons, List.mem_cons, hmem, or_assoc]

theorem insertFourkEveryMiB.iff {positions : List Block} (hinsert : 0 < job.fourkEveryMiB) :
    (∃ positions', job.insertFourkEveryMiB d positions = some positions' ∧
        ∀ b ∈ positions', job.Fine b) ↔
      (¬ job.Moving → ∀ b ∈ positions, job.Fine b) ∧ job.FourkFits d positions := by
  cases positions with
  | nil => simp [insertFourkEveryMiB, FourkFits]
  | cons first rest =>
    unfold insertFourkEveryMiB FourkFits
    dsimp only
    by_cases hjump : job.jumpKiB = 0
    · have hstill : ¬ job.Moving := fun h => h.2 hjump
      obtain ⟨l', hl', hmem⟩ := @insertAll.spec job d
        (job.countJumps first.pos (first :: rest)) 0 first.pos (first :: rest) id
      simp only [if_pos hjump, hl', Option.some.injEq, exists_eq_left', hmem, hstill, not_false_iff,
        forall_const, Nat.zero_add]
      constructor
      · exact fun h => ⟨fun b hb => h b (.inl hb), fun i hi => (h _ (.inr ⟨i, hi, rfl⟩)).1⟩
      · rintro ⟨hkept, hinserted⟩ b (hb | ⟨i, hi, rfl⟩)
        · exact hkept b hb
        · exact ⟨hinserted i hi, fun _ => (by decide : 4096 ≠ 0)⟩
    · have hmoving : job.Moving := ⟨hinsert, hjump⟩
      simp only [if_neg hjump, Option.some.injEq, exists_eq_left', hmoving, not_true, false_imp_iff,
        true_and]
      exact MovesFit.iff.symm

theorem check_eq_some_iff {positions positions' : List Block} :
    job.check positions = some positions' ↔
      (job.resetSizes = [] → ∀ b ∈ positions, b.len ≠ 0) ∧ positions' = positions := by
  unfold check
  split
  · rename_i hfails
    obtain ⟨hreset, b, hb, hlen⟩ := hfails
    exact ⟨fun h => (by cases h), fun h => absurd hlen (h.1 hreset b hb)⟩
  · rename_i hpasses
    rw [Option.some.injEq]
    exact ⟨fun h => ⟨fun hreset b hb hlen => hpasses ⟨hreset, b, hb, hlen⟩, h.symm⟩,
      fun h => h.2.symm⟩

/-- The check is passed, with every position in the range, by positions that are fine. -/
theorem checked.iff {x : Option (List Block)} :
    (∃ positions, x.bind job.check = some positions ∧ ∀ b ∈ positions, job.Inside b) ↔
      ∃ positions, x = some positions ∧ ∀ b ∈ positions, job.Fine b := by
  constructor
  · rintro ⟨positions, hx, hinside⟩
    obtain ⟨positions', rfl, hcheck⟩ := Option.bind_eq_some_iff.mp hx
    obtain ⟨hlen, rfl⟩ := check_eq_some_iff.mp hcheck
    exact ⟨_, rfl, fun b hb => ⟨hinside b hb, fun hreset => hlen hreset b hb⟩⟩
  · rintro ⟨positions, rfl, hfine⟩
    exact ⟨positions, check_eq_some_iff.mpr ⟨fun hreset b hb => (hfine b hb).2 hreset, rfl⟩,
      fun b hb => (hfine b hb).1⟩

/-! ## The creation -/

/-- The container of an array has its positions in the range exactly when the array fits what is
done to it. -/
theorem ArrayFits.iff {poss : List Block} (hlt : ∀ b ∈ poss, b.pos < 2 ^ 64) :
    (∃ positions, ((job.arrange d poss).bind fun positions =>
        (if 0 < job.fourkEveryMiB then job.insertFourkEveryMiB d positions
          else some positions).bind job.check) = some positions ∧
        ∀ b ∈ positions, job.Inside b) ↔
      (job.Final → ∀ b ∈ poss, job.Fine b) ∧ job.ArrayFits d poss := by
  have hfourk {positions : List Block} :
      (∃ positions', (if 0 < job.fourkEveryMiB then job.insertFourkEveryMiB d positions
          else some positions) = some positions' ∧ ∀ b ∈ positions', job.Fine b) ↔
        (¬ job.Moving → ∀ b ∈ positions, job.Fine b) ∧
          (0 < job.fourkEveryMiB → job.FourkFits d positions) := by
    by_cases hinsert : 0 < job.fourkEveryMiB
    · rw [if_pos hinsert, insertFourkEveryMiB.iff hinsert]
      exact and_congr_right fun _ => ⟨fun h _ => h, fun h => h hinsert⟩
    · have hstill : ¬ job.Moving := fun h => hinsert h.1
      simp [hinsert, hstill]
  rw [← Option.bind_assoc, checked.iff]
  constructor
  · rintro ⟨positions, hbind, hfine⟩
    obtain ⟨arranged, harrange, hend⟩ := Option.bind_eq_some_iff.mp hbind
    obtain ⟨hstarting, hdrawn, rfl⟩ := arrange.iff.mp harrange
    obtain ⟨hstill, hinserted⟩ := hfourk.mp ⟨positions, hend, hfine⟩
    have hplaces (h : ¬ job.Moving) := (arranged.iff hlt).mp (hstill h)
    refine ⟨fun hfinal => (hplaces hfinal.2).2 hfinal.1, hstarting, fun hredrawn i b hb => ?_,
      hinserted⟩
    refine ⟨hdrawn hredrawn i ?_, fun h => (hplaces h).1 hredrawn i b hb⟩
    rw [← (rotate_perm (d := d) poss).length_eq]
    exact (List.getElem?_eq_some_iff.mp hb).1
  · rintro ⟨hfinal, hfits⟩
    have harrange : job.arrange d poss = some (job.arranged d poss) := by
      refine arrange.iff.mpr ⟨hfits.starting, fun hredrawn i hi => ?_, rfl⟩
      rw [← (rotate_perm (d := d) poss).length_eq] at hi
      exact (hfits.redrawn hredrawn i _ (List.getElem?_eq_getElem hi)).1
    rw [harrange, Option.bind_some]
    refine hfourk.mpr ⟨fun hstill => (arranged.iff hlt).mpr ⟨fun hredrawn i b hb => ?_, ?_⟩,
      hfits.fourk⟩
    · exact (hfits.redrawn hredrawn i b hb).2 hstill
    · exact fun hkept => hfinal ⟨hkept, hstill⟩

theorem positionContainerCreatePositions.iff :
    (∃ positions, job.positionContainerCreatePositions d = some positions ∧
        ∀ b ∈ positions, job.Inside b) ↔ job.Fits d := by
  unfold positionContainerCreatePositions build Fits
  rw [Option.bind_assoc]
  by_cases hcopy : job.copyMode
  · rw [if_pos hcopy, if_pos hcopy, Option.bind_some, ArrayFits.iff (copied_lt job)]
    exact and_congr_left fun _ => forall_congr' fun _ => CopiesFit.iff.symm
  · rw [if_neg hcopy, if_neg hcopy, FillFits.iff fun _ => List.forall_mem_nil _]
    constructor
    · rintro ⟨positions, hbind, hinside⟩
      obtain ⟨poss, hmap, hend⟩ := Option.bind_eq_some_iff.mp hbind
      obtain ⟨g, hfill, rfl⟩ := Option.map_eq_some_iff.mp hmap
      exact ⟨g, hfill, (ArrayFits.iff (fill_lt hfill)).mp ⟨positions, hend, hinside⟩⟩
    · rintro ⟨g, hfill, hfits⟩
      rw [hfill, Option.map_some, Option.bind_some]
      exact (ArrayFits.iff (fill_lt hfill)).mpr hfits

/-! ## The rounds -/

theorem resampleAll.iff {i : Nat} {l : List Block} :
    (∃ l', job.resampleAll d i l = some l' ∧ ∀ b ∈ l', job.Inside b) ↔
      ∀ k (b : Block), l[k]? = some b →
        let pos := job.place (d.resample (i + k))
          (d.block (i + k) (job.randomRange (d.resample (i + k))))
        job.Inside ⟨pos, d.resample (i + k)⟩ ∧ job.Inside { b with pos } := by
  induction l generalizing i with
  | nil => simp [resampleAll]
  | cons b rest ih =>
    have hshift (k : Nat) : i + 1 + k = i + (k + 1) := by omega
    specialize ih (i := i + 1)
    simp only [hshift] at ih
    unfold resampleAll
    simp only [Option.bind_eq_some_iff, randomBlock_eq_some_iff, Option.ite_none_right_eq_some,
      Option.map_eq_some_iff]
    constructor
    · rintro ⟨l', ⟨pos, ⟨-, rfl⟩, hdrawn, l'', hrest, rfl⟩, hinside⟩
      obtain ⟨hb, hinside⟩ := List.forall_mem_cons.mp hinside
      intro k x hx
      cases k with
      | zero =>
        cases hx
        exact ⟨hdrawn, hb⟩
      | succ k => exact ih.mp ⟨l'', hrest, hinside⟩ k x hx
    · intro hl
      obtain ⟨hdrawn, hb⟩ := hl 0 b rfl
      obtain ⟨l', hl', hinside⟩ := ih.mpr fun k x hx => hl (k + 1) x hx
      exact ⟨_, ⟨_, ⟨hdrawn.drawn, rfl⟩, hdrawn, l', hl', rfl⟩,
        List.forall_mem_cons.mpr ⟨hb, hinside⟩⟩

theorem addSize.iff {n : Nat} {b : Block} (hb : job.Inside b) :
    job.Inside (job.addSize n b) ↔
      job.Inside { b with pos := (b.pos + n) % 2 ^ 64 } ∨
        job.maxbdSize < (b.pos + n) % 2 ^ 64 + b.len ∧ job.Inside { b with pos := n } := by
  obtain ⟨hge, hle⟩ := hb
  have hsize := job.size_lt
  unfold addSize Inside
  dsimp only
  split
  · dsimp only
    omega
  · dsimp only
    omega

theorem RoundFits.iff {positions : List Block} {r : Round job}
    (hinside : ∀ b ∈ positions, job.Inside b) :
    job.RoundFits positions r ↔
      ∃ positions', job.round positions r = some positions' ∧ ∀ b ∈ positions', job.Inside b := by
  cases r with
  | randomSubSample d =>
    unfold RoundFits round
    rw [resampleAll.iff]
    simp only [Nat.zero_add]
  | addBlockSize n =>
    unfold RoundFits round
    simp only [Option.some.injEq, exists_eq_left', List.forall_mem_map]
    exact forall_congr' fun b => forall_congr' fun hb => (addSize.iff (hinside b hb)).symm

/-- Two copies in 8 KiB that begin at 1 MiB. -/
def twoCopies : Job where
  lengths := [4096]
  alignment := 4096
  startingBlock := 0
  minbdSize := 1048576
  maxbdSize := 1056768
  sf := 1
  sf_maxsizebytes := 0
  fourkEveryMiB := 0
  jumpKiB := 0
  firstPPositions := 0
  randomSubSample := 0
  linearSubSample := 0
  linearAlternate := false
  copyMode := true
  resetSizes := []
  sz := 2
  lengths_pos := by decide
  lengths_ne_nil := by decide
  alignment_pos := Nat.two_pow_pos 12
  sz_pos := by decide
  sz_lt := by decide
  sub_sample := by decide
  alternate := by decide
  range_le := by decide
  size_lt := by decide
  room := by decide

def twoCopies.draws : Draws twoCopies where
  length _ := 4096
  sample _ := 4096
  resample _ := 4096
  resetThres _ := 0
  block _ _ := 0
  resetBlock _ _ := 0
  redraw _ _ := 0
  rand_r _ := 0
  length_mem _ := by decide
  sample_mem _ := by decide
  resample_mem _ := by decide
  resetThres_mem h := absurd rfl h
  block_le _ _ := Nat.zero_le _
  resetBlock_le _ _ := Nat.zero_le _
  redraw_le _ _ := Nat.zero_le _

theorem twoCopies.fits : twoCopies.Fits twoCopies.draws := by
  have hkept : ¬ twoCopies.Redrawn := by decide
  refine ⟨fun _ => by unfold CopiesFit; decide, ?_, fun h => absurd h hkept, fun h => ?_⟩
  · exact fun _ => Int.le_refl 0
  · exact absurd h (lt_irrefl _)

end Job

end stutools.spit.create
