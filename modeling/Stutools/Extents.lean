-- Where the entries of a table lie. What holds of every extent that is drawn
-- or loaded, and of every shift of it, holds of every request the table gives.
import Stutools.Positions
import Mathlib.Tactic.Linarith

namespace stutools

namespace Positions

/-! ## Every index names a row -/

theorem striped_lt (p : Positions) {pos : Nat} (h : pos < p.entries.length) :
    p.striped pos < p.entries.length := by
  have hn := p.entries_pos
  unfold striped
  dsimp only
  generalize hk : min (max ⌊|p.work.sequential|⌋.toNat 1) p.entries.length = k
  generalize p.entries.length = n at h hn
  split_ifs with h1 h2
  · -- a full row of stripes: the stripes before this one hold at most `rows + 1` each
    have hdm := Nat.div_add_mod n k
    have hr : pos % k < k := Nat.mod_lt _ (by omega)
    have hd : pos / k < n / k := by
      rw [Nat.div_lt_iff_lt_mul (by omega)]
      exact h2
    have hs : (pos % k + 1) * (n / k) ≤ k * (n / k) := Nat.mul_le_mul_right _ hr
    rw [Nat.add_mul, Nat.one_mul] at hs
    have hm : min (pos % k) (n % k) ≤ n % k := Nat.min_le_right _ _
    omega
  · -- the entries left over: one more at the end of each of the first stripes
    have hdm := Nat.div_add_mod n k
    have he : n % k < k := Nat.mod_lt _ (by omega)
    rw [Nat.mul_comm] at hdm
    have hx : pos - n / k * k + 1 ≤ n % k := by omega
    have hle := Nat.mul_le_mul_right (n / k + 1) hx
    have hlast : n % k * (n / k + 1) ≤ n := by
      have := Nat.mul_le_mul_right (n / k) (Nat.le_of_lt he)
      rw [Nat.mul_add, Nat.mul_one]
      rw [Nat.mul_comm k] at this
      omega
    have hpos : 0 < (pos - n / k * k + 1) * (n / k + 1) := Nat.mul_pos (Nat.succ_pos _) (Nat.succ_pos _)
    omega
  · exact h

theorem mapped_lt (p : Positions) (index : Nat) : (p.mapped index).1 < p.entries.length := by
  have hn := p.entries_pos
  have hlen := p.len_pos
  have hloc := Nat.mod_lt index hlen
  unfold mapped
  dsimp only
  have hpos : (if p.work.unique_verify = true then
      (index % p.len / 2, index % p.len % 2 == 1)
      else (index % p.len % p.entries.length,
        p.work.verify && decide (p.entries.length ≤ index % p.len))).1 < p.entries.length := by
    split_ifs
    · have hle : p.len ≤ 2 * p.entries.length := by
        unfold len
        split_ifs <;> omega
      show index % p.len / 2 < p.entries.length
      omega
    · exact Nat.mod_lt _ hn
  have hstriped := p.striped_lt hpos
  split_ifs
  all_goals
    simp_all
    try omega

theorem getD_mem (p : Positions) {pos : Nat} (h : pos < p.entries.length) :
    p.entries.getD pos Request.default ∈ p.entries := by
  rw [List.getD_eq_getElem _ _ h]
  exact List.getElem_mem h

/-! ## What holds of every extent -/

/-- Every entry's extent meets `Q`. -/
def All (Q : Nat → Nat → Prop) (p : Positions) : Prop := ∀ e ∈ p.entries, Q e.offset e.len

/-- A pass may move an entry to any block of the range that it fits. -/
def Shiftable (Q : Nat → Nat → Prop) (work : Workload) (lo hi : Nat) : Prop :=
  ∀ offset len k, Q offset len → k ≤ (hi - lo - len) / work.block → Q (lo + k * work.block) len

variable {Q : Nat → Nat → Prop} {p : Positions}

theorem shifted_extent (hs : Shiftable Q p.work p.lo p.hi) {r : Request} (pass : Nat)
    (h : Q r.offset r.len) : Q (p.shifted r pass).offset (p.shifted r pass).len := by
  unfold shifted
  split_ifs
  · exact hs _ _ _ h (Nat.lt_succ_iff.mp (Nat.mod_lt _ (Nat.succ_pos _)))
  · exact h

theorem request_at_extent (ha : All Q p) (hs : Shiftable Q p.work p.lo p.hi) {pos : Nat}
    (h : pos < p.entries.length) (check : Bool) (pass : Nat) :
    Q (p.request_at pos check pass).offset (p.request_at pos check pass).len := by
  have hrow := ha _ (p.getD_mem h)
  unfold request_at
  apply shifted_extent hs
  split_ifs <;> exact hrow

@[simp] theorem enter_pass_range (p : Positions) (pass : Nat) :
    (p.enter_pass pass).lo = p.lo ∧ (p.enter_pass pass).hi = p.hi := by
  unfold enter_pass
  split_ifs <;> exact ⟨rfl, rfl⟩

theorem enter_pass_perm (p : Positions) (pass : Nat) :
    (p.enter_pass pass).entries.Perm p.entries := by
  unfold enter_pass
  split_ifs
  · exact List.Perm.refl _
  · exact positions.shuffled_perm _ _
  · exact List.Perm.refl _

/-- A request of the plan meets `Q`, and the table after it still does. -/
theorem get_extent (ha : All Q p) (hs : Shiftable Q p.work p.lo p.hi) (index : Nat) :
    Q (p.get index).1.offset (p.get index).1.len ∧ All Q (p.get index).2 := by
  have hall : All Q (p.enter_pass (index / p.len)) := fun e he =>
    ha e ((p.enter_pass_perm _).mem_iff.mp he)
  refine ⟨?_, hall⟩
  obtain ⟨h1, h2⟩ := p.enter_pass_range (index / p.len)
  have hs' : Shiftable Q (p.enter_pass (index / p.len)).work (p.enter_pass (index / p.len)).lo
      (p.enter_pass (index / p.len)).hi := by
    rw [enter_pass_work, h1, h2]
    exact hs
  exact request_at_extent hall hs' (mapped_lt _ index) _ _

theorem set_verify_extent (pos : Nat) (verify : Bool) (h : All Q p) :
    All Q (p.set_verify pos verify) := by
  intro e he
  obtain ⟨i, hi, rfl⟩ := List.mem_iff_getElem.mp he
  have hi' : i < p.entries.length := by simpa [set_verify, with_entries] using hi
  have hmem := h _ (List.getElem_mem hi')
  simp only [set_verify, with_entries, List.getElem_modify]
  split_ifs <;> exact hmem

/-- The parts of a table that marking its rows leaves as they are. -/
structure Frame (p q : Positions) : Prop where
  work : q.work = p.work
  lo : q.lo = p.lo
  hi : q.hi = p.hi
  pass : q.pass = p.pass
  length : q.entries.length = p.entries.length

theorem Frame.refl (p : Positions) : Frame p p := ⟨rfl, rfl, rfl, rfl, rfl⟩

theorem Frame.trans {p q r : Positions} (h1 : Frame p q) (h2 : Frame q r) : Frame p r :=
  ⟨h2.work.trans h1.work, h2.lo.trans h1.lo, h2.hi.trans h1.hi, h2.pass.trans h1.pass,
    h2.length.trans h1.length⟩

theorem set_verify_frame (p : Positions) (pos : Nat) (verify : Bool) :
    Frame p (p.set_verify pos verify) :=
  ⟨rfl, rfl, rfl, rfl, by simp [set_verify, with_entries]⟩

theorem written_frame (p : Positions) (index : Nat) : Frame p (p.written index) := by
  have h := p.set_verify_frame (p.mapped index).1 true
  unfold written
  dsimp only
  split_ifs
  · exact Frame.refl p
  · exact ⟨h.work, h.lo, h.hi, h.pass, h.length⟩

theorem checked_frame (p : Positions) (index : Nat) : Frame p (p.checked index) := by
  have h := p.set_verify_frame (p.mapped index).1 false
  unfold checked
  dsimp only
  split_ifs
  · exact ⟨h.work, h.lo, h.hi, h.pass, h.length⟩
  · exact Frame.refl p

theorem written_extent (index : Nat) (h : All Q p) : All Q (p.written index) := by
  unfold written
  dsimp only
  split_ifs
  · exact h
  · exact set_verify_extent _ _ h

theorem checked_extent (index : Nat) (h : All Q p) : All Q (p.checked index) := by
  unfold checked
  dsimp only
  split_ifs
  · exact set_verify_extent _ _ h
  · exact h

theorem take_pending_check_extent (ha : All Q p) (hs : Shiftable Q p.work p.lo p.hi)
    (n cursor : Nat) : (∀ r, (take_pending_check_from n p cursor).1 = some r → Q r.offset r.len) ∧
      All Q (take_pending_check_from n p cursor).2.2 := by
  induction n generalizing cursor with
  | zero => exact ⟨by simp [take_pending_check_from], ha⟩
  | succ n ih =>
    unfold take_pending_check_from
    split_ifs with h1 h2
    · exact ⟨by simp, ha⟩
    · have hlt : cursor < p.entries.length := by
        by_contra hge
        exact h1 (.inr (by omega))
      have hrow := ha _ (p.getD_mem hlt)
      refine ⟨fun r hr => ?_, set_verify_extent _ _ ha⟩
      cases hr
      exact shifted_extent hs _ hrow
    · exact ih (cursor + 1)

/-! ## The entries that are drawn -/

end Positions

/-- The place of a drawn entry: on a block of the range, inside it, and one of
the lengths the workload allows. -/
structure Placed (work : Workload) (lo hi offset len : Nat) : Prop where
  lo_le : lo ≤ offset
  le_hi : offset + len ≤ hi
  aligned : work.block ∣ offset - lo
  len_le : len ≤ work.max_block
  len_eq : work.block = work.max_block → len = work.block

theorem Placed.shiftable (work : Workload) (lo hi : Nat) :
    Positions.Shiftable (Placed work lo hi) work lo hi := by
  rintro offset len k ⟨h1, h2, _, h4, h5⟩ hk
  have hle : k * work.block ≤ hi - lo - len := Nat.le_trans (Nat.mul_le_mul_right _ hk)
    (Nat.div_mul_le_self _ _)
  refine ⟨by omega, by omega, ?_, h4, h5⟩
  rw [Nat.add_sub_cancel_left]
  exact Nat.dvd_mul_left _ _

/-- A drawn entry: placed, and of a whole number of blocks. -/
structure Drawn (work : Workload) (lo hi offset len : Nat) : Prop extends
    Placed work lo hi offset len where
  len_dvd : work.block ∣ len
  block_le : work.block ≤ len

theorem Drawn.shiftable (work : Workload) (lo hi : Nat) :
    Positions.Shiftable (Drawn work lo hi) work lo hi := by
  rintro offset len k h hk
  exact ⟨Placed.shiftable work lo hi offset len k h.toPlaced hk, h.len_dvd, h.block_le⟩

namespace positions

open pattern (random)

variable {work : Workload} {lo hi : Nat}

theorem draw_len_le (hb : 0 < work.block) (hm : work.block ≤ work.max_block) (rng : UInt64) :
    (draw_len work rng).1 ≤ work.max_block ∧
      (work.block = work.max_block → (draw_len work rng).1 = work.block) := by
  have hq : 0 < work.max_block / work.block := Nat.div_pos hm hb
  unfold draw_len
  dsimp only
  split_ifs
  · generalize (random rng).1.toNat = x
    have hx : x % (Nat.log2 (work.max_block / work.block) + 1) ≤
        Nat.log2 (work.max_block / work.block) := Nat.lt_succ_iff.mp (Nat.mod_lt _ (Nat.succ_pos _))
    constructor
    · rw [Nat.shiftLeft_eq]
      calc work.block * 2 ^ (x % (Nat.log2 (work.max_block / work.block) + 1))
          ≤ work.block * 2 ^ Nat.log2 (work.max_block / work.block) :=
            Nat.mul_le_mul_left _ (Nat.pow_le_pow_right (by omega) hx)
        _ ≤ work.block * (work.max_block / work.block) :=
            Nat.mul_le_mul_left _ (Nat.log2_self_le (by omega))
        _ ≤ work.max_block := Nat.mul_div_le _ _
    · intro he
      have hone : work.max_block / work.block = 1 := by rw [← he]; exact Nat.div_self hb
      have hlog : Nat.log2 1 = 0 := by decide
      rw [hone, hlog, Nat.mod_one, Nat.shiftLeft_zero]
  · generalize (random rng).1.toNat = x
    have hx := Nat.mod_lt x hq
    constructor
    · calc work.block * (1 + x % (work.max_block / work.block))
          ≤ work.block * (work.max_block / work.block) := Nat.mul_le_mul_left _ (by omega)
        _ ≤ work.max_block := Nat.mul_div_le _ _
    · intro he
      have hone : work.max_block / work.block = 1 := by rw [← he]; exact Nat.div_self hb
      rw [hone, Nat.mod_one, Nat.add_zero, Nat.mul_one]

theorem draw_len_dvd (work : Workload) (rng : UInt64) : work.block ∣ (draw_len work rng).1 := by
  unfold draw_len
  dsimp only
  split_ifs
  · rw [Nat.shiftLeft_eq]
    exact Nat.dvd_mul_right _ _
  · exact Nat.dvd_mul_right _ _

theorem block_le_draw_len (work : Workload) (rng : UInt64) :
    work.block ≤ (draw_len work rng).1 := by
  unfold draw_len
  dsimp only
  split_ifs
  · rw [Nat.shiftLeft_eq]
    exact Nat.le_mul_of_pos_right _ (Nat.two_pow_pos _)
  · exact Nat.le_mul_of_pos_right _ (by omega)

/-- A block number of the range, in bytes, leaves room for the entry. -/
theorem block_fits {span len k : Nat} (hlen : len ≤ span) (hk : k ≤ (span - len) / work.block) :
    k * work.block + len ≤ span := by
  have h1 : k * work.block ≤ span - len :=
    Nat.le_trans (Nat.mul_le_mul_right _ hk) (Nat.div_mul_le_self _ _)
  omega

theorem spaced_le {pos blocks wanted : Nat} (hpos : pos < wanted) (hw : ¬ wanted ≤ 1) :
    pos * (blocks - 1) / (wanted - 1) ≤ blocks - 1 := by
  apply Nat.div_le_of_le_mul
  exact Nat.mul_le_mul_right _ (by omega)

theorem draw_offset_placed {span wanted i len cursor : Nat} {rng : UInt64} {offset cursor' : Nat}
    {rng' : UInt64} (hlen : len ≤ span) (hi : i < wanted) (hc : work.block ∣ cursor)
    (hd : work.block ∣ len)
    (h : draw_offset work span wanted i len cursor rng = some (offset, cursor', rng')) :
    offset + len ≤ span ∧ work.block ∣ offset ∧ work.block ∣ cursor' := by
  unfold draw_offset at h
  cases hmode : work.mode with
  | Sample =>
    simp only [hmode, Option.some.injEq, Prod.mk.injEq] at h
    obtain ⟨rfl, rfl, _⟩ := h
    refine ⟨block_fits hlen (Nat.lt_succ_iff.mp (Nat.mod_lt _ (Nat.succ_pos _))), ?_, hc⟩
    exact Nat.dvd_mul_left _ _
  | Spaced =>
    simp only [hmode, Option.some.injEq, Prod.mk.injEq] at h
    obtain ⟨rfl, rfl, _⟩ := h
    split_ifs with hw
    · exact ⟨by omega, Nat.dvd_zero _, hc⟩
    · exact ⟨block_fits hlen (spaced_le hi hw), Nat.dvd_mul_left _ _, hc⟩
  | Alternating =>
    simp only [hmode, Option.some.injEq, Prod.mk.injEq] at h
    obtain ⟨rfl, rfl, _⟩ := h
    split_ifs with hw he
    · exact ⟨by omega, Nat.dvd_zero _, hc⟩
    · exact ⟨block_fits hlen (spaced_le (by omega) hw), Nat.dvd_mul_left _ _, hc⟩
    · exact ⟨block_fits hlen (spaced_le (by omega) hw), Nat.dvd_mul_left _ _, hc⟩
  | First =>
    simp only [hmode] at h
    split_ifs at h with hroom
    simp only [Option.some.injEq, Prod.mk.injEq] at h
    obtain ⟨rfl, rfl, _⟩ := h
    exact ⟨by omega, hc, Nat.dvd_add hc hd⟩

/-- Every entry that the loop draws is placed. -/
theorem draw_placed (hb : 0 < work.block) (hm : work.block ≤ work.max_block)
    (hfit : work.max_block ≤ hi - lo) (wanted n i cursor : Nat) (rng : UInt64)
    (hn : i + n ≤ wanted) (hc : work.block ∣ cursor) :
    ∀ e ∈ (draw work lo hi wanted n i cursor rng).1, Placed work lo hi e.offset e.len := by
  induction n generalizing i cursor rng with
  | zero => simp [draw]
  | succ n ih =>
    obtain ⟨hle, heq⟩ := draw_len_le hb hm rng
    have hdvd := draw_len_dvd work rng
    intro e he
    unfold draw at he
    dsimp only at he
    split at he
    · cases he
    · rename_i offset cursor' rng' hoff
      have hlen : (draw_len work rng).1 ≤ hi - lo := Nat.le_trans hle hfit
      have hiw : i < wanted := by omega
      obtain ⟨h1, h2, h3⟩ := draw_offset_placed hlen hiw hc hdvd hoff
      rcases List.mem_cons.mp he with rfl | he
      · refine ⟨Nat.le_add_right _ _, ?_, ?_, hle, heq⟩
        · show lo + offset + (draw_len work rng).1 ≤ hi
          omega
        · show work.block ∣ lo + offset - lo
          rw [Nat.add_sub_cancel_left]
          exact h2
      · exact ih _ _ _ (by omega) h3 e he

/-- What holds of every length that may be drawn holds of every entry. -/
theorem draw_lens {R : Nat → Prop} (hR : ∀ rng, R (draw_len work rng).1) (lo hi wanted n i : Nat)
    (cursor : Nat) (rng : UInt64) :
    ∀ e ∈ (draw work lo hi wanted n i cursor rng).1, R e.len := by
  induction n generalizing i cursor rng with
  | zero => simp [draw]
  | succ n ih =>
    intro e he
    unfold draw at he
    dsimp only at he
    split at he
    · cases he
    · rcases List.mem_cons.mp he with rfl | he
      · exact hR rng
      · exact ih _ _ _ e he

theorem draw_length_le (work : Workload) (lo hi wanted n i cursor : Nat) (rng : UInt64) :
    (draw work lo hi wanted n i cursor rng).1.length ≤ n := by
  induction n generalizing i cursor rng with
  | zero => simp [draw]
  | succ n ih =>
    unfold draw
    dsimp only
    split
    · exact Nat.zero_le _
    · exact Nat.succ_le_succ (ih _ _ _)

theorem rotated_len (block lo hi shift : Nat) (e : Request) :
    (rotated block lo hi shift e).len = e.len := rfl

theorem rotated_placed (shift : Nat) {e : Request} (h : Placed work lo hi e.offset e.len) :
    Placed work lo hi (rotated work.block lo hi shift e).offset
      (rotated work.block lo hi shift e).len := by
  unfold rotated
  exact Placed.shiftable work lo hi e.offset e.len _ h
    (Nat.lt_succ_iff.mp (Nat.mod_lt _ (Nat.succ_pos _)))

/-- Every entry of a generated table is placed. -/
theorem generated_placed (hb : 0 < work.block) (hm : work.block ≤ work.max_block)
    (hfit : work.max_block ≤ hi - lo) (seed : UInt64) (capacity : Nat) :
    ∀ e ∈ (generated work lo hi seed capacity).1, Placed work lo hi e.offset e.len := by
  have hdraw := draw_placed hb hm hfit (min (work.positions.getD capacity) capacity)
    (min (work.positions.getD capacity) capacity) 0 0 seed (by omega) (Nat.dvd_zero _)
  unfold generated
  dsimp only
  generalize draw work lo hi _ _ 0 0 seed = drawn at hdraw
  have hrot : ∀ e ∈ (rotate work lo hi drawn.1 drawn.2).1, Placed work lo hi e.offset e.len := by
    unfold rotate
    dsimp only
    split_ifs
    · exact hdraw
    · intro e he
      obtain ⟨e', he', rfl⟩ := List.mem_map.mp he
      exact rotated_placed _ (hdraw e' he')
  generalize rotate work lo hi drawn.1 drawn.2 = turned at hrot
  split_ifs
  · intro e he
    exact hrot e ((jumble_perm _ _ _).mem_iff.mp he)
  · exact hrot

/-- The lengths of a generated table are all drawn. -/
theorem generated_lens {R : Nat → Prop} (hR : ∀ rng, R (draw_len work rng).1) (lo hi : Nat)
    (seed : UInt64) (capacity : Nat) :
    ∀ e ∈ (generated work lo hi seed capacity).1, R e.len := by
  have hdraw := draw_lens hR lo hi (min (work.positions.getD capacity) capacity)
    (min (work.positions.getD capacity) capacity) 0 0 seed
  unfold generated
  dsimp only
  generalize draw work lo hi _ _ 0 0 seed = drawn at hdraw
  have hrot : ∀ e ∈ (rotate work lo hi drawn.1 drawn.2).1, R e.len := by
    unfold rotate
    dsimp only
    split_ifs
    · exact hdraw
    · intro e he
      obtain ⟨e', he', rfl⟩ := List.mem_map.mp he
      rw [rotated_len]
      exact hdraw e' he'
  generalize rotate work lo hi drawn.1 drawn.2 = turned at hrot
  split_ifs
  · intro e he
    exact hrot e ((jumble_perm _ _ _).mem_iff.mp he)
  · exact hrot

theorem generated_length_le (work : Workload) (lo hi : Nat) (seed : UInt64) (capacity : Nat) :
    (generated work lo hi seed capacity).1.length ≤ capacity := by
  have hdraw := draw_length_le work lo hi (min (work.positions.getD capacity) capacity)
    (min (work.positions.getD capacity) capacity) 0 0 seed
  unfold generated
  dsimp only
  generalize draw work lo hi _ _ 0 0 seed = drawn at hdraw
  have hrot : (rotate work lo hi drawn.1 drawn.2).1.length = drawn.1.length := by
    unfold rotate
    split_ifs
    · rfl
    · exact List.length_map _
  generalize rotate work lo hi drawn.1 drawn.2 = turned at hrot
  split_ifs
  · rw [(jumble_perm _ _ _).length_eq]
    dsimp only
    omega
  · dsimp only
    omega

/-- The first entry always fits. -/
theorem generated_ne_nil (hb : 0 < work.block) (hm : work.block ≤ work.max_block)
    (hfit : work.max_block ≤ hi - lo) {capacity : Nat} (hcap : 0 < capacity)
    (hpos : work.positions ≠ some 0) (seed : UInt64) :
    (generated work lo hi seed capacity).1 ≠ [] := by
  obtain ⟨n, hn⟩ : ∃ n, min (work.positions.getD capacity) capacity = n + 1 := by
    apply Nat.exists_eq_add_one_of_ne_zero
    cases hp : work.positions with
    | none => simp; omega
    | some m =>
      have : m ≠ 0 := fun h0 => hpos (by rw [hp, h0])
      simp
      omega
  have hdraw : (draw work lo hi (n + 1) (n + 1) 0 0 seed).1 ≠ [] := by
    have hlen : (draw_len work seed).1 ≤ hi - lo := Nat.le_trans (draw_len_le hb hm seed).1 hfit
    unfold draw draw_offset
    cases work.mode with
    | First =>
      simp [Nat.not_lt.mpr hlen]
    | Sample => simp
    | Spaced => simp
    | Alternating => simp
  unfold generated
  rw [hn]
  dsimp only
  generalize draw work lo hi _ _ 0 0 seed = drawn at hdraw
  have hrot : (rotate work lo hi drawn.1 drawn.2).1 ≠ [] := by
    unfold rotate
    split_ifs
    · exact hdraw
    · simpa using hdraw
  generalize rotate work lo hi drawn.1 drawn.2 = turned at hrot
  split_ifs
  · intro hnil
    have hperm := jumble_perm (min |work.sequential| 1) (turned.1.length - 1) turned
    rw [hnil] at hperm
    exact hrot hperm.nil_eq.symm
  · exact hrot

theorem numbered_extent {Q : Nat → Nat → Prop} (seed : UInt64) {entries : List Request}
    (h : ∀ e ∈ entries, Q e.offset e.len) : ∀ e ∈ numbered work seed entries, Q e.offset e.len := by
  intro e he
  obtain ⟨i, hi, rfl⟩ := List.mem_mapIdx.mp he
  have hold := h _ (List.getElem_mem hi)
  exact hold

end positions

namespace Positions

variable {work : Workload} {lo hi : Nat} {seed : UInt64} {capacity : Nat} {loaded : List Request}
  {p : Positions}

/-- A table that is generated: every entry is placed. -/
theorem new_placed (h : new work lo hi seed capacity [] = .ok p) (hb : 0 < work.block)
    (hm : work.block ≤ work.max_block) (hfit : work.max_block ≤ hi - lo) :
    All (Placed work lo hi) p := by
  obtain ⟨_, _, _, _, _, hentries⟩ := new_cases h
  rcases hentries with ⟨hne, _⟩ | ⟨_, hentries⟩
  · exact absurd rfl hne
  · unfold All
    rw [hentries]
    exact positions.numbered_extent seed (positions.generated_placed hb hm hfit seed capacity)

theorem new_drawn (h : new work lo hi seed capacity [] = .ok p) (hb : 0 < work.block)
    (hm : work.block ≤ work.max_block) (hfit : work.max_block ≤ hi - lo) :
    All (Drawn work lo hi) p ∧ p.entries.length ≤ capacity := by
  obtain ⟨_, _, _, _, _, ⟨hne, _⟩ | ⟨_, hentries⟩⟩ := new_cases h
  · exact absurd rfl hne
  · have hplaced := positions.generated_placed hb hm hfit seed capacity
    have hdvd := positions.generated_lens (positions.draw_len_dvd work) lo hi seed capacity
    have hle := positions.generated_lens (positions.block_le_draw_len work) lo hi seed capacity
    refine ⟨?_, ?_⟩
    · unfold All
      rw [hentries]
      exact positions.numbered_extent seed fun e he => ⟨hplaced e he, hdvd e he, hle e he⟩
    · have hlength := positions.generated_length_le work lo hi seed capacity
      simpa [hentries, positions.numbered] using hlength

/-- A range with room for the largest block always gives a table. -/
theorem new_ok (hb : 0 < work.block) (hm : work.block ≤ work.max_block)
    (hfit : work.max_block ≤ hi - lo) (hcap : 0 < capacity) (hpos : work.positions ≠ some 0)
    (seed : UInt64) : ∃ p, new work lo hi seed capacity [] = .ok p := by
  have hne := positions.generated_ne_nil hb hm hfit hcap hpos seed
  unfold new
  rcases hg : positions.generated work lo hi seed capacity with ⟨entries, rng⟩
  rw [hg] at hne
  exact ⟨_, by simp [hne]; rfl⟩

/-- A table that is loaded keeps the loaded extents. -/
theorem new_loaded {Q : Nat → Nat → Prop} (h : new work lo hi seed capacity loaded = .ok p)
    (hl : loaded ≠ []) (hall : ∀ e ∈ loaded, Q e.offset e.len) : All Q p := by
  obtain ⟨_, _, _, _, _, hentries⟩ := new_cases h
  rcases hentries with ⟨_, _, hentries⟩ | ⟨he, _⟩
  · unfold All
    rw [hentries]
    exact positions.numbered_extent seed hall
  · exact absurd he hl

end Positions

end stutools
