-- The order in which a pass visits the table. The stripes only permute the rows,
-- so a pass names every entry once as an operation, and once as a check if it
-- verifies.
import Stutools.Marks
import Mathlib.Data.Fintype.EquivFin
import Mathlib.Tactic.Ring

namespace stutools

namespace Positions

/-! ## Stripes -/

/-- The stripes that the table runs in. -/
def stripes (p : Positions) : Nat :=
  min (max ⌊|p.work.sequential|⌋.toNat 1) p.entries.length

/-- The first row of stripe `s`: every stripe before it has `rows` entries, and
the first `extra` of them one more. -/
def stripe_start (rows extra s : Nat) : Nat := s * rows + min s extra

theorem stripe_start_mono {rows extra s t : Nat} (h : s ≤ t) :
    stripe_start rows extra s ≤ stripe_start rows extra t := by
  have hmul := Nat.mul_le_mul_right rows h
  unfold stripe_start
  omega

theorem stripes_pos (p : Positions) : 0 < p.stripes := by
  have := p.entries_pos
  unfold stripes
  omega

/-- Both formulas of the source are one: an entry `pos / stripes` down its stripe. -/
theorem striped_eq (p : Positions) {pos : Nat} (h : pos < p.entries.length) :
    p.striped pos = stripe_start (p.entries.length / p.stripes) (p.entries.length % p.stripes)
      (pos % p.stripes) + pos / p.stripes := by
  have hk := p.stripes_pos
  unfold striped
  dsimp only
  rw [show min (max ⌊|p.work.sequential|⌋.toNat 1) p.entries.length = p.stripes from rfl]
  generalize p.stripes = k at hk
  generalize p.entries.length = n at h
  unfold stripe_start
  split_ifs with h1 h2
  · rfl
  · -- the last partial row
    have hdm := Nat.div_add_mod n k
    have he : n % k < k := Nat.mod_lt _ hk
    rw [Nat.mul_comm] at hdm
    have hlt : pos - n / k * k < k := by omega
    have hpos : pos = k * (n / k) + (pos - n / k * k) := by
      rw [Nat.mul_comm k]
      omega
    have hmod : pos % k = pos - n / k * k := by
      rw [hpos, Nat.mul_add_mod, Nat.mul_comm k, Nat.add_sub_cancel_left, Nat.mod_eq_of_lt hlt]
    have hdiv : pos / k = n / k := by
      rw [hpos, Nat.mul_add_div hk, Nat.div_eq_of_lt hlt, Nat.add_zero]
    have hmin : min (pos % k) (n % k) = pos % k := Nat.min_eq_left (by omega)
    rw [hmin, hmod, hdiv]
    generalize pos - n / k * k = x
    generalize n / k = rows
    have hmul : (x + 1) * (rows + 1) = x * rows + x + rows + 1 := by ring
    rw [hmul, Nat.add_sub_cancel]
  · have hone : k = 1 := by omega
    simp [hone, Nat.mod_one]

/-- An entry lies before the next stripe. -/
theorem striped_lt_next (p : Positions) {pos : Nat} (h : pos < p.entries.length) :
    p.striped pos < stripe_start (p.entries.length / p.stripes) (p.entries.length % p.stripes)
      (pos % p.stripes + 1) := by
  have hk := p.stripes_pos
  rw [p.striped_eq h]
  generalize p.stripes = k at hk
  generalize p.entries.length = n at h
  have hdm := Nat.div_add_mod n k
  have hpm := Nat.div_add_mod pos k
  have hle : pos / k ≤ n / k := Nat.div_le_div_right (Nat.le_of_lt h)
  unfold stripe_start
  rw [Nat.add_mul, Nat.one_mul]
  by_cases hd : pos / k = n / k
  · -- only the first `extra` stripes reach the last row
    rw [hd] at hpm
    have : pos % k < n % k := by omega
    omega
  · omega

theorem striped_injOn (p : Positions) {pos pos' : Nat} (h : pos < p.entries.length)
    (h' : pos' < p.entries.length) (he : p.striped pos = p.striped pos') : pos = pos' := by
  -- entries of two stripes are apart, whichever of them comes first
  have hapart : ∀ {a b : Nat}, a < p.entries.length → b < p.entries.length →
      a % p.stripes < b % p.stripes → p.striped a < p.striped b := by
    intro a b ha hb hlt
    calc p.striped a
        < stripe_start (p.entries.length / p.stripes) (p.entries.length % p.stripes)
            (a % p.stripes + 1) := p.striped_lt_next ha
      _ ≤ stripe_start (p.entries.length / p.stripes) (p.entries.length % p.stripes)
            (b % p.stripes) := stripe_start_mono hlt
      _ ≤ p.striped b := by
        rw [p.striped_eq hb]
        exact Nat.le_add_right _ _
  have hs : pos % p.stripes = pos' % p.stripes := by
    rcases Nat.lt_trichotomy (pos % p.stripes) (pos' % p.stripes) with hlt | heq | hgt
    · have := hapart h h' hlt
      omega
    · exact heq
    · have := hapart h' h hgt
      omega
  rw [p.striped_eq h, p.striped_eq h', hs] at he
  rw [← Nat.div_add_mod pos p.stripes, ← Nat.div_add_mod pos' p.stripes, hs,
    Nat.add_left_cancel he]

/-! ## The row of a place in the pass -/

/-- The row of place `pos`: a negative `s` runs the table from its end. -/
def row (p : Positions) (pos : Nat) : Nat :=
  if p.work.sequential < 0 then p.entries.length - 1 - p.striped pos else p.striped pos

theorem row_lt (p : Positions) {pos : Nat} (h : pos < p.entries.length) :
    p.row pos < p.entries.length := by
  have hlt := p.striped_lt h
  unfold row
  split_ifs <;> omega

theorem row_injOn (p : Positions) {pos pos' : Nat} (h : pos < p.entries.length)
    (h' : pos' < p.entries.length) (he : p.row pos = p.row pos') : pos = pos' := by
  have h1 := p.striped_lt h
  have h2 := p.striped_lt h'
  apply p.striped_injOn h h'
  unfold row at he
  split_ifs at he <;> omega

/-- Every row has a place. -/
theorem row_surj (p : Positions) {r : Nat} (h : r < p.entries.length) :
    ∃ pos < p.entries.length, p.row pos = r := by
  let f : Fin p.entries.length → Fin p.entries.length := fun i => ⟨p.row i, p.row_lt i.isLt⟩
  have hinj : Function.Injective f := fun i j he =>
    Fin.ext (p.row_injOn i.isLt j.isLt (Fin.mk.inj he))
  obtain ⟨i, hi⟩ := Finite.surjective_of_injective hinj ⟨r, h⟩
  exact ⟨i, i.isLt, congrArg Fin.val hi⟩

/-- The place in its pass of the entry that an index names. -/
def place (p : Positions) (index : Nat) : Nat :=
  if p.work.unique_verify then index % p.len / 2 else index % p.len % p.entries.length

theorem mapped_row (p : Positions) (index : Nat) : (p.mapped index).1 = p.row (p.place index) := by
  unfold mapped row place
  split_ifs <;> rfl

/-! ## A pass -/

/-- The plan indexes of a pass. -/
def indexes (p : Positions) (pass : Nat) : Set Nat :=
  Set.Ico (pass * p.len) (pass * p.len + p.len)

theorem mem_indexes {p : Positions} {pass i : Nat} : i ∈ p.indexes pass ↔ i / p.len = pass := by
  rw [indexes, Set.mem_Ico, Nat.div_eq_iff p.len_pos]
  have := p.len_pos
  omega

/-- The index of the operation at a place. -/
def op_at (p : Positions) (pass pos : Nat) : Nat :=
  pass * p.len + if p.work.unique_verify then 2 * pos else pos

section Pass

variable {p : Positions} (h : p.work.unique_verify = true → p.work.verify = true)

include h

/-- Whether an index is a check, in every order of the plan. -/
theorem mapped_is_check (i : Nat) : (p.mapped i).2 =
    if p.work.unique_verify then decide (i % p.len % 2 = 1)
    else decide (p.entries.length ≤ i % p.len) := by
  by_cases hv : p.work.verify = true
  · exact mapped_check_eq hv i
  · have hu : ¬ p.work.unique_verify = true := fun hu => hv (h hu)
    have hlen : p.len = p.entries.length := by simp [len, hv]
    have hlt := Nat.mod_lt i p.len_pos
    have hge : ¬ p.entries.length ≤ i % p.len := by omega
    simp [mapped, hu, hv, hge]

theorem op_at.spec (pass : Nat) {pos : Nat} (hpos : pos < p.entries.length) :
    p.op_at pass pos ∈ p.indexes pass ∧ p.place (p.op_at pass pos) = pos ∧
      (p.mapped (p.op_at pass pos)).2 = false := by
  have hcheck := mapped_is_check h (p.op_at pass pos)
  have hlt : (if p.work.unique_verify then 2 * pos else pos) < p.len := by
    unfold len
    split_ifs with hu hv
    · omega
    · exact absurd (h hu) hv
    · omega
    · omega
  have hmod : p.op_at pass pos % p.len = if p.work.unique_verify then 2 * pos else pos := by
    rw [op_at, Nat.mul_comm, Nat.mul_add_mod, Nat.mod_eq_of_lt hlt]
  refine ⟨⟨Nat.le_add_right _ _, Nat.add_lt_add_left hlt _⟩, ?_, ?_⟩
  · unfold place
    rw [hmod]
    split_ifs
    · omega
    · exact Nat.mod_eq_of_lt hpos
  · rw [hcheck, hmod]
    split_ifs
    · simp
    · simpa using hpos

/-- An operation of a pass is the one at its place. -/
theorem eq_op_at {pass i : Nat} (hi : i ∈ p.indexes pass) (hop : (p.mapped i).2 = false) :
    p.place i < p.entries.length ∧ i = p.op_at pass (p.place i) := by
  have hlt := Nat.mod_lt i p.len_pos
  have hdm := Nat.div_add_mod i p.len
  rw [mem_indexes.mp hi, Nat.mul_comm] at hdm
  rw [mapped_is_check h] at hop
  unfold op_at place
  split_ifs at hop ⊢ with hu
  · have hlen := len_of_verify (h hu)
    simp only [decide_eq_false_iff_not] at hop
    omega
  · simp only [decide_eq_false_iff_not, Nat.not_le] at hop
    rw [Nat.mod_eq_of_lt hop]
    omega

theorem exists_unique_op (pass : Nat) {pos : Nat} (hpos : pos < p.entries.length) :
    ∃! i, i ∈ p.indexes pass ∧ p.mapped i = (pos, false) := by
  obtain ⟨k, hk, hrow⟩ := p.row_surj hpos
  obtain ⟨h1, h2, h3⟩ := op_at.spec h pass hk
  refine ⟨p.op_at pass k, ⟨h1, Prod.ext ?_ h3⟩, ?_⟩
  · rw [mapped_row, h2, hrow]
  · rintro i ⟨hi, hm⟩
    obtain ⟨h4, h5⟩ := eq_op_at h hi (by rw [hm])
    have hsame : p.row (p.place i) = p.row k := by rw [← mapped_row, hm, hrow]
    rw [h5, p.row_injOn h4 hk hsame]

omit h in
/-- Every check of a pass is the check of an operation before it, of the same row. -/
theorem check_is_check_of (hv : p.work.verify = true) {pass j pos : Nat}
    (hj : j ∈ p.indexes pass) (hm : p.mapped j = (pos, true)) :
    ∃ i, p.check_of i = j ∧ i < j ∧ i ∈ p.indexes pass ∧ p.mapped i = (pos, false) := by
  have hrem : 0 < p.phase_remaining j := by
    have := Nat.mod_lt j p.entries_pos
    unfold phase_remaining
    split_ifs <;> omega
  obtain ⟨i, h1, h2, h3⟩ := @op_of_check p hv j 0 hrem (by rw [Nat.add_zero, hm])
  obtain ⟨h4, h5, _⟩ := check_of.spec hv h2
  rw [Nat.add_zero] at h1
  rw [h1] at h4 h5
  refine ⟨i, h1, h3, mem_indexes.mpr (h5.symm.trans (mem_indexes.mp hj)), Prod.ext ?_ h2⟩
  rw [hm] at h4
  exact (Prod.mk.inj h4).1.symm

theorem exists_unique_check (hv : p.work.verify = true) (pass : Nat) {pos : Nat}
    (hpos : pos < p.entries.length) : ∃! i, i ∈ p.indexes pass ∧ p.mapped i = (pos, true) := by
  obtain ⟨i, ⟨hi, hm⟩, huniq⟩ := exists_unique_op h pass hpos
  obtain ⟨h1, h2, _⟩ := check_of.spec hv (i := i) (by rw [hm])
  refine ⟨p.check_of i, ⟨mem_indexes.mpr (h2.trans (mem_indexes.mp hi)), by rw [h1, hm]⟩, ?_⟩
  rintro j ⟨hj, hjm⟩
  obtain ⟨i', h3, _, h4, h5⟩ := check_is_check_of hv hj hjm
  rw [← h3, huniq i' ⟨h4, h5⟩]

end Pass

/-- The table `q` is `p` but for the mark of one row. -/
def Touched (p q : Positions) (pos : Nat) (verify : Bool) : Prop :=
  q.entries.length = p.entries.length ∧ ∀ i < p.entries.length,
    q.entries.getD i Request.default =
      if i = pos then { p.entries.getD i Request.default with verify := verify }
      else p.entries.getD i Request.default

theorem set_verify_touched (p : Positions) (pos : Nat) (verify : Bool) :
    Touched p (p.set_verify pos verify) pos verify := by
  refine ⟨(p.set_verify_frame pos verify).length, fun i hi => ?_⟩
  rw [set_verify_row]
  simp [hi]

theorem touched_self {p : Positions} {pos : Nat} {verify : Bool}
    (h : (p.entries.getD pos Request.default).verify = verify) : Touched p p pos verify := by
  refine ⟨rfl, fun i _ => ?_⟩
  split_ifs with hi
  · rw [hi, ← h]
  · rfl

theorem written_touched (p : Positions) (index : Nat) :
    Touched p (p.written index) (p.mapped index).1 true := by
  unfold written
  dsimp only
  split_ifs with hm
  · exact touched_self hm
  · exact p.set_verify_touched _ true

theorem checked_touched (p : Positions) (index : Nat) :
    Touched p (p.checked index) (p.mapped index).1 false := by
  unfold checked
  dsimp only
  split_ifs with hm
  · exact p.set_verify_touched _ false
  · exact touched_self (by simpa using hm)

theorem get_mapped (p : Positions) (index i : Nat) : (p.get index).2.mapped i = p.mapped i := by
  have hstriped : ∀ pos, (p.get index).2.striped pos = p.striped pos := by
    intro pos
    simp only [striped, get_work, get_length]
  unfold mapped
  simp only [hstriped, get_len, get_work, get_length]

/-- Every pass names every entry once as an operation and, if the plan verifies,
once as a check, which comes after the operation; and the marks that `written`
and `checked` set and clear at an index are those of the entry it names. -/
theorem a_pass_names_every_entry_once (p : Positions)
    (h : p.work.unique_verify = true → p.work.verify = true) (pass pos : Nat)
    (hpos : pos < p.entries.length) :
    (∃! i, i ∈ p.indexes pass ∧ p.mapped i = (pos, false)) ∧
    (p.work.verify = true → ∃! i, i ∈ p.indexes pass ∧ p.mapped i = (pos, true)) ∧
    (p.work.verify = false → ∀ i, (p.mapped i).2 = false) ∧
    (∀ i ∈ p.indexes pass, ∀ j ∈ p.indexes pass,
      p.mapped i = (pos, false) → p.mapped j = (pos, true) → i < j) ∧
    ∀ i ∈ p.indexes pass, (p.mapped i).1 = pos →
      Touched (p.get i).2 ((p.get i).2.written i) pos true ∧
      Touched (p.get i).2 ((p.get i).2.checked i) pos false ∧
      Touched p (p.written i) pos true ∧ Touched p (p.checked i) pos false := by
  have hnone : p.work.verify = false → ∀ i, (p.mapped i).2 = false := by
    intro hv i
    have hu : ¬ p.work.unique_verify = true := by
      intro hu
      rw [h hu] at hv
      cases hv
    simp [mapped, hu, hv]
  refine ⟨exists_unique_op h pass hpos, fun hv => exists_unique_check h hv pass hpos, hnone, ?_, ?_⟩
  · intro i hi j hj hop hcheck
    have hv : p.work.verify = true := by
      by_contra hv
      rw [Bool.not_eq_true] at hv
      have := hnone hv j
      rw [hcheck] at this
      cases this
    obtain ⟨i', _, hlt, hi', hop'⟩ := check_is_check_of hv hj hcheck
    rwa [(exists_unique_op h pass hpos).unique ⟨hi, hop⟩ ⟨hi', hop'⟩]
  · rintro i - rfl
    have hw := (p.get i).2.written_touched i
    have hc := (p.get i).2.checked_touched i
    rw [get_mapped] at hw hc
    exact ⟨hw, hc, p.written_touched i, p.checked_touched i⟩

/-- A table of the same entry `n + 1` times. -/
def repeated (work : Workload) (n : Nat) : Positions :=
  { entries := List.replicate (n + 1) Request.default, rng := 0, pass := 0, lo := 0, hi := 4096
    work := work, pending_checks := 0, entries_pos := by simp }

/-- Seven entries, from the last on in three stripes, are each checked once in pass two. -/
theorem seven_entries_are_checked_once :
    6 < (repeated { sequential := -3, verify := true } 6).entries.length ∧
    ∃! i, i ∈ (repeated { sequential := -3, verify := true } 6).indexes 2 ∧
      (repeated { sequential := -3, verify := true } 6).mapped i = (6, true) :=
  ⟨by decide, (a_pass_names_every_entry_once (repeated { sequential := -3, verify := true } 6)
    (fun hu => by cases hu) 2 6 (by decide)).2.1 rfl⟩

/-- With `unique_verify` but not `verify`, which no command line sets, half the slots
of a pass are checks: of two entries the second is never an operation. -/
theorem an_entry_is_skipped_without_verify :
    ¬ ∀ (p : Positions) (pass pos : Nat), pos < p.entries.length →
      ∃! i, i ∈ p.indexes pass ∧ p.mapped i = (pos, false) := by
  intro hall
  obtain ⟨i, ⟨_, hi⟩, _⟩ := hall (repeated { unique_verify := true } 1) 0 1 (by decide)
  have hplace : (repeated { unique_verify := true } 1).place i = 0 :=
    Nat.div_eq_of_lt (Nat.mod_lt i (by decide))
  have hrow := (repeated { unique_verify := true } 1).mapped_row i
  rw [hplace, hi] at hrow
  simp [row, striped, repeated] at hrow

end Positions

end stutools
