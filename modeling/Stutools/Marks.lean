-- The marks of the position table: a row is marked while its write is owed a
-- check. The table counts its marks, and every mark belongs to an operation of
-- this pass whose check slot is still to come.
import Stutools.Extents

namespace stutools

namespace Positions

/-- Whether the write of a row is owed a check. -/
def marked (p : Positions) (pos : Nat) : Bool := (p.entries.getD pos Request.default).verify

/-- The count of the table is the number of its marks. -/
def Counted (p : Positions) : Prop := p.pending_checks = p.entries.countP (·.verify)

/-- The read that `take_pending_check` gives for a row. -/
def recheck (p : Positions) (pos : Nat) : Request :=
  p.shifted { p.entries.getD pos Request.default with write := false, verify := true } p.pass

/-- The reads of the marked rows from the cursor on, in the order of the table. -/
def pending (p : Positions) (cursor : Nat) : List Request :=
  ((List.range' cursor (p.entries.length - cursor)).filter p.marked).map p.recheck

variable {p q : Positions}

theorem marked_lt {pos : Nat} (h : p.marked pos = true) : pos < p.entries.length := by
  by_contra hge
  have hnone : p.entries[pos]? = none := List.getElem?_eq_none (by omega)
  simp [marked, List.getD_eq_getElem?_getD, hnone, Request.default] at h

/-! ## What marking a row changes -/

/-- A row without its mark. -/
def bare (r : Request) : Request := { r with verify := false }

/-- The same table with other marks. -/
structure Remarked (p q : Positions) : Prop extends Frame p q where
  rows : ∀ pos, bare (q.entries.getD pos Request.default) =
    bare (p.entries.getD pos Request.default)

theorem Remarked.refl (p : Positions) : Remarked p p := ⟨Frame.refl p, fun _ => rfl⟩

theorem Remarked.trans {r : Positions} (h1 : Remarked p q) (h2 : Remarked q r) : Remarked p r :=
  ⟨h1.toFrame.trans h2.toFrame, fun pos => (h2.rows pos).trans (h1.rows pos)⟩

namespace Remarked

variable (h : Remarked p q)

include h

theorem len_eq : q.len = p.len := by simp only [len, h.work, h.length]

theorem striped_eq (pos : Nat) : q.striped pos = p.striped pos := by
  simp only [striped, h.work, h.length]

theorem mapped_eq (index : Nat) : q.mapped index = p.mapped index := by
  unfold mapped
  simp only [h.striped_eq, h.len_eq, h.work, h.length]

theorem shifted_eq (r : Request) (pass : Nat) : q.shifted r pass = p.shifted r pass := by
  simp only [shifted, h.work, h.lo, h.hi]

theorem fields (pos : Nat) :
    (q.entries.getD pos Request.default).offset = (p.entries.getD pos Request.default).offset ∧
    (q.entries.getD pos Request.default).len = (p.entries.getD pos Request.default).len ∧
    (q.entries.getD pos Request.default).write = (p.entries.getD pos Request.default).write ∧
    (q.entries.getD pos Request.default).seed = (p.entries.getD pos Request.default).seed ∧
    (q.entries.getD pos Request.default).state = (p.entries.getD pos Request.default).state := by
  have hrow := h.rows pos
  simp only [bare, Request.mk.injEq] at hrow
  obtain ⟨h1, h2, h3, -, h4, h5⟩ := hrow
  exact ⟨h1, h2, h3, h4, h5⟩

theorem recheck_eq (pos : Nat) : q.recheck pos = p.recheck pos := by
  obtain ⟨h1, h2, -, h3, h4⟩ := h.fields pos
  simp only [recheck, h.pass, h.shifted_eq, h1, h2, h3, h4]

end Remarked

theorem set_verify_row (p : Positions) (pos i : Nat) (verify : Bool) :
    (p.set_verify pos verify).entries.getD i Request.default =
      if i = pos ∧ i < p.entries.length then
        { p.entries.getD i Request.default with verify := verify }
      else p.entries.getD i Request.default := by
  simp only [set_verify, with_entries, List.getD_eq_getElem?_getD, List.getElem?_modify]
  by_cases hi : i < p.entries.length
  · rw [List.getElem?_eq_getElem hi]
    by_cases he : pos = i
    · simp [he, hi]
    · have hne : i ≠ pos := fun hc => he hc.symm
      simp [he, hne]
  · rw [List.getElem?_eq_none (by omega)]
    simp [hi]

theorem set_verify_marked (p : Positions) {pos : Nat} (hpos : pos < p.entries.length) (i : Nat)
    (verify : Bool) :
    (p.set_verify pos verify).marked i = if i = pos then verify else p.marked i := by
  simp only [marked, set_verify_row]
  by_cases hi : i = pos
  · simp [hi, hpos]
  · simp [hi]

theorem set_verify_remarked (p : Positions) (pos : Nat) (verify : Bool) :
    Remarked p (p.set_verify pos verify) := by
  refine ⟨p.set_verify_frame pos verify, fun i => ?_⟩
  rw [set_verify_row]
  split_ifs <;> rfl

theorem countP_set_verify (p : Positions) {pos : Nat} (hpos : pos < p.entries.length)
    (verify : Bool) : (p.set_verify pos verify).entries.countP (·.verify) + (p.marked pos).toNat =
      p.entries.countP (·.verify) + verify.toNat := by
  have hsplit : p.entries = p.entries.take pos ++ p.entries.getD pos Request.default ::
      p.entries.drop (pos + 1) := by
    rw [List.getD_eq_getElem _ _ hpos, ← List.drop_eq_getElem_cons hpos, List.take_append_drop]
  have hset : (p.set_verify pos verify).entries = p.entries.take pos ++
      { p.entries.getD pos Request.default with verify := verify } ::
        p.entries.drop (pos + 1) := by
    simp only [set_verify, with_entries]
    rw [List.modify_eq_take_cons_drop hpos, List.getD_eq_getElem _ _ hpos]
  rw [hset]
  conv_rhs => rw [hsplit]
  simp only [List.countP_append, List.countP_cons, marked]
  cases (p.entries.getD pos Request.default).verify <;> cases verify <;> simp [Nat.add_assoc]

theorem set_verify_counted (h : p.Counted) {pos : Nat} (hpos : pos < p.entries.length)
    {verify : Bool} {count : Nat}
    (hcount : count + (p.marked pos).toNat = p.pending_checks + verify.toNat) :
    Counted { p.set_verify pos verify with pending_checks := count } := by
  have hset := p.countP_set_verify hpos verify
  unfold Counted at h ⊢
  show count = (p.set_verify pos verify).entries.countP (·.verify)
  omega

/-- `written` marks the row of its index, and changes nothing else. -/
theorem written.spec (p : Positions) (index : Nat) : Remarked p (p.written index) ∧
    (p.Counted → (p.written index).Counted) ∧
    ∀ i, (p.written index).marked i = (decide (i = (p.mapped index).1) || p.marked i) := by
  have hpos := p.mapped_lt index
  have hset := p.set_verify_remarked (p.mapped index).1 true
  unfold written
  dsimp only
  split_ifs with hm
  · refine ⟨Remarked.refl p, id, fun i => ?_⟩
    by_cases hi : i = (p.mapped index).1
    · rw [hi]
      simpa [marked] using hm
    · simp [hi]
  · refine ⟨⟨⟨hset.work, hset.lo, hset.hi, hset.pass, hset.length⟩, hset.rows⟩, fun h => ?_, ?_⟩
    · apply set_verify_counted h hpos
      have hm' : p.marked (p.mapped index).1 = false := by simpa [marked] using hm
      simp [hm']
    · intro i
      have hi := p.set_verify_marked hpos i true
      simp only [marked] at hi ⊢
      rw [hi]
      by_cases he : i = (p.mapped index).1 <;> simp [he]

/-- `checked` takes the mark of its row away, and changes nothing else. -/
theorem checked.spec (p : Positions) (index : Nat) : Remarked p (p.checked index) ∧
    (p.Counted → (p.checked index).Counted) ∧
    ∀ i, (p.checked index).marked i = (decide (i ≠ (p.mapped index).1) && p.marked i) := by
  have hpos := p.mapped_lt index
  have hset := p.set_verify_remarked (p.mapped index).1 false
  unfold checked
  dsimp only
  split_ifs with hm
  · refine ⟨⟨⟨hset.work, hset.lo, hset.hi, hset.pass, hset.length⟩, hset.rows⟩, fun h => ?_, ?_⟩
    · apply set_verify_counted h hpos
      have hm' : p.marked (p.mapped index).1 = true := hm
      have hcount : 0 < p.entries.countP (·.verify) :=
        List.countP_pos_iff.mpr ⟨_, p.getD_mem hpos, hm⟩
      unfold Counted at h
      simp [hm']
      omega
    · intro i
      have hi := p.set_verify_marked hpos i false
      simp only [marked] at hi ⊢
      rw [hi]
      by_cases he : i = (p.mapped index).1 <;> simp [he]
  · refine ⟨Remarked.refl p, id, fun i => ?_⟩
    by_cases hi : i = (p.mapped index).1
    · rw [hi]
      simpa [marked] using hm
    · simp [hi]

/-! ## The scan at the end -/

/-- No row before the cursor is marked. -/
def Clean (p : Positions) (cursor : Nat) : Prop := ∀ i < cursor, p.marked i = false

theorem pending_cons {cursor : Nat} (h : p.marked cursor = true) :
    p.pending cursor = p.recheck cursor :: p.pending (cursor + 1) := by
  have hlt := marked_lt h
  have hlen : p.entries.length - cursor = (p.entries.length - (cursor + 1)) + 1 := by omega
  rw [pending, hlen, List.range'_succ, List.filter_cons_of_pos h, List.map_cons, pending]

theorem pending_skip {cursor : Nat} (hlt : cursor < p.entries.length)
    (h : p.marked cursor = false) : p.pending cursor = p.pending (cursor + 1) := by
  have hlen : p.entries.length - cursor = (p.entries.length - (cursor + 1)) + 1 := by omega
  rw [pending, hlen, List.range'_succ, List.filter_cons_of_neg (by simp [h]), pending]

theorem pending_congr (h : Remarked p q) {cursor : Nat}
    (hm : ∀ i, cursor ≤ i → q.marked i = p.marked i) : q.pending cursor = p.pending cursor := by
  unfold pending
  rw [h.length, List.filter_congr fun i hi => hm i (List.mem_range'_1.mp hi).1]
  exact List.map_congr_left fun i _ => h.recheck_eq i

theorem pending_of_count (h : p.Counted) (h0 : p.pending_checks = 0) (cursor : Nat) :
    p.pending cursor = [] := by
  have hnone : ∀ i, p.marked i = false := by
    intro i
    by_contra hm
    rw [Bool.not_eq_false] at hm
    have hpos : 0 < p.entries.countP (·.verify) :=
      List.countP_pos_iff.mpr ⟨_, p.getD_mem (marked_lt hm), hm⟩
    unfold Counted at h
    omega
  simp [pending, hnone]

/-- A table without a mark from a clean cursor on counts none. -/
theorem count_of_pending (h : p.Counted) {cursor : Nat} (hc : p.Clean cursor)
    (hp : p.pending cursor = []) : p.pending_checks = 0 := by
  rw [h, List.countP_eq_zero]
  intro e he hv
  obtain ⟨i, hi, rfl⟩ := List.mem_iff_getElem.mp he
  have hm : p.marked i = true := by
    rw [marked, List.getD_eq_getElem _ _ hi]
    exact hv
  rcases Nat.lt_or_ge i cursor with hlt | hge
  · rw [hc i hlt] at hm
    cases hm
  · have hmem : i ∈ (List.range' cursor (p.entries.length - cursor)).filter p.marked := by
      rw [List.mem_filter, List.mem_range'_1]
      exact ⟨⟨hge, by omega⟩, hm⟩
    rw [List.map_eq_nil_iff.mp hp] at hmem
    cases hmem

/-- A pending check that is taken is the first from a clean cursor on, and its
row loses its mark. -/
theorem take_pending_check_from.spec (h : p.Counted) {o : Option Request} {n cursor cursor' : Nat}
    (hn : n = p.entries.length - cursor) (hc : p.Clean cursor)
    (ht : take_pending_check_from n p cursor = (o, cursor', q)) :
    Remarked p q ∧ q.Counted ∧ q.Clean cursor' ∧
      p.pending cursor = o.toList ++ q.pending cursor' ∧ (o = none → q.pending_checks = 0) := by
  induction n generalizing cursor with
  | zero =>
    have hp : p.pending cursor = [] := by simp [pending, ← hn]
    cases ht
    exact ⟨Remarked.refl p, h, hc, rfl, fun _ => count_of_pending h hc hp⟩
  | succ n ih =>
    unfold take_pending_check_from at ht
    split_ifs at ht with h1 h2
    · cases ht
      refine ⟨Remarked.refl p, h, hc, rfl, fun _ => ?_⟩
      rcases h1 with h1 | h1
      · exact h1
      · omega
    · cases ht
      have hm : p.marked cursor = true := h2
      have hlt := marked_lt hm
      have hset := p.set_verify_remarked cursor false
      have hmarks : ∀ i, (p.set_verify cursor false).marked i =
          if i = cursor then false else p.marked i := fun i => p.set_verify_marked hlt i false
      have hre : Remarked p { p.set_verify cursor false with
          pending_checks := p.pending_checks - 1 } :=
        ⟨⟨hset.work, hset.lo, hset.hi, hset.pass, hset.length⟩, hset.rows⟩
      refine ⟨hre, ?_, ?_, ?_, by simp⟩
      · apply set_verify_counted h hlt
        have hcount : 0 < p.entries.countP (·.verify) :=
          List.countP_pos_iff.mpr ⟨_, p.getD_mem hlt, hm⟩
        unfold Counted at h
        simp [hm]
        omega
      · intro i hi
        have hi' := hmarks i
        split_ifs at hi' with he
        · exact hi'
        · exact hi'.trans (hc i (by omega))
      · rw [pending_cons hm, pending_congr hre fun i hi => ?_]
        · rfl
        · have hi' := hmarks i
          rw [if_neg (by omega)] at hi'
          exact hi'
    · have hm : p.marked cursor = false := by simpa [marked] using h2
      simp only [not_or, Nat.not_le] at h1
      rw [pending_skip h1.2 hm]
      refine ih (by omega) (fun i hi => ?_) ht
      rcases Nat.lt_or_ge i cursor with hlt | hge
      · exact hc i hlt
      · rw [show i = cursor by omega]
        exact hm

/-! ## Phases -/

/-- The plan index that checks the operation at an index. -/
def check_of (p : Positions) (i : Nat) : Nat :=
  if p.work.unique_verify then i + 1 else i + p.entries.length

/-- An operation of this pass that was handed out, and its check was not. -/
structure Due (p : Positions) (index i : Nat) : Prop where
  op : (p.mapped i).2 = false
  before : i < index
  after : index ≤ p.check_of i
  pass : i / p.len = p.pass

section Phases

theorem add_div_of_lt {i j n : Nat} (h : i % n + j < n) : (i + j) / n = i / n := by
  have hn : 0 < n := by omega
  have h1 := Nat.div_add_mod i n
  rw [Nat.div_eq_iff hn, Nat.mul_comm]
  constructor <;> omega

theorem add_mod_of_lt {i j n : Nat} (h : i % n + j < n) : (i + j) % n = i % n + j := by
  rw [Nat.add_mod, Nat.mod_eq_of_lt (a := j) (by omega), Nat.mod_eq_of_lt h]

variable (hv : p.work.verify = true)

include hv

theorem len_of_verify : p.len = 2 * p.entries.length := by simp [len, hv, Nat.mul_comm]

theorem mapped_check_eq (i : Nat) : (p.mapped i).2 =
    if p.work.unique_verify then decide (i % p.len % 2 = 1)
    else decide (p.entries.length ≤ i % p.len) := by
  by_cases hu : p.work.unique_verify = true
  · simp only [mapped, hu, if_true]
    rfl
  · simp only [mapped, hu, hv, Bool.false_eq_true, if_false, Bool.true_and]

/-- The slots of one phase are all operations or all checks, of one pass. -/
theorem phase_uniform {index j : Nat} (hj : j < p.phase_remaining index) :
    (p.mapped (index + j)).2 = (p.mapped index).2 ∧ (index + j) / p.len = index / p.len := by
  have hn := p.entries_pos
  have hlen := len_of_verify hv
  rw [mapped_check_eq hv, mapped_check_eq hv]
  unfold phase_remaining at hj
  split_ifs at hj ⊢ with hu
  · rw [show j = 0 by omega]
    exact ⟨rfl, rfl⟩
  · have hmod : index % p.len % p.entries.length = index % p.entries.length := by
      rw [hlen, Nat.mod_mul_left_mod]
    have hlt := Nat.mod_lt index p.len_pos
    have hsum : index % p.len + j < p.len := by
      by_cases hc : p.entries.length ≤ index % p.len
      · have h2 : index % p.len % p.entries.length = index % p.len - p.entries.length := by
          rw [Nat.mod_eq_sub_mod hc, Nat.mod_eq_of_lt (by omega)]
        omega
      · omega
    refine ⟨?_, add_div_of_lt hsum⟩
    rw [add_mod_of_lt hsum]
    by_cases hc : p.entries.length ≤ index % p.len
    · simp [hc, Nat.le_add_right_of_le hc]
    · have h2 : index % p.len % p.entries.length = index % p.len := Nat.mod_eq_of_lt (by omega)
      have h3 : ¬ p.entries.length ≤ index % p.len + j := by omega
      simp [hc, h3]

/-- The check of an operation reads its row, later in the same pass. -/
theorem check_of.spec {i : Nat} (h : (p.mapped i).2 = false) :
    p.mapped (p.check_of i) = ((p.mapped i).1, true) ∧ p.check_of i / p.len = i / p.len ∧
      i < p.check_of i := by
  have hn := p.entries_pos
  have hlen := len_of_verify hv
  have hlt := Nat.mod_lt i p.len_pos
  rw [mapped_check_eq hv] at h
  have hcheck := mapped_check_eq hv (p.check_of i)
  unfold check_of at hcheck ⊢
  by_cases hu : p.work.unique_verify = true
  · simp only [hu, if_true, decide_eq_false_iff_not] at h hcheck ⊢
    have hsum : i % p.len + 1 < p.len := by omega
    refine ⟨Prod.ext ?_ ?_, add_div_of_lt hsum, by omega⟩
    · apply (mapped_unique p hu (i + 1)).2
      rw [add_mod_of_lt hsum]
      omega
    · rw [hcheck, add_mod_of_lt hsum]
      simp only [decide_eq_true_eq]
      omega
  · simp only [hu, Bool.false_eq_true, if_false, decide_eq_false_iff_not] at h hcheck ⊢
    have hsum : i % p.len + p.entries.length < p.len := by omega
    refine ⟨Prod.ext ?_ ?_, add_div_of_lt hsum, by omega⟩
    · simp only [mapped, hu, Bool.false_eq_true, if_false, add_mod_of_lt hsum, Nat.add_mod_right]
    · rw [hcheck, add_mod_of_lt hsum]
      simp

/-- Every check slot is the check of an operation, and in a phase of checks of
an operation before the phase. -/
theorem op_of_check {index j : Nat} (hj : j < p.phase_remaining index)
    (h : (p.mapped (index + j)).2 = true) :
    ∃ i, p.check_of i = index + j ∧ (p.mapped i).2 = false ∧ i < index := by
  have hn := p.entries_pos
  have hlen := len_of_verify hv
  have hle := Nat.mod_le (index + j) p.len
  have hlt := Nat.mod_lt (index + j) p.len_pos
  have hdm := Nat.div_add_mod (index + j) p.len
  rw [mapped_check_eq hv] at h
  unfold phase_remaining at hj
  simp only [mapped_check_eq hv, check_of]
  split_ifs at h hj ⊢ with hu
  · simp only [decide_eq_true_eq] at h
    refine ⟨index + j - 1, by omega, ?_, by omega⟩
    have hmod : (index + j - 1) % p.len = (index + j) % p.len - 1 := by
      rw [show index + j - 1 = p.len * ((index + j) / p.len) + ((index + j) % p.len - 1) by omega,
        Nat.mul_add_mod, Nat.mod_eq_of_lt (by omega)]
    rw [hmod]
    simp only [decide_eq_false_iff_not]
    omega
  · simp only [decide_eq_true_eq] at h
    refine ⟨index + j - p.entries.length, by omega, ?_, by omega⟩
    have hmod : (index + j - p.entries.length) % p.len =
        (index + j) % p.len - p.entries.length := by
      rw [show index + j - p.entries.length =
          p.len * ((index + j) / p.len) + ((index + j) % p.len - p.entries.length) by omega,
        Nat.mul_add_mod, Nat.mod_eq_of_lt (by omega)]
    rw [hmod]
    simp only [decide_eq_false_iff_not]
    omega

theorem Due.of_next {index n i : Nat} (hn : n ≤ p.phase_remaining index)
    (h : p.Due (index + n) i) :
    p.Due index i ∨ ((p.mapped index).2 = false ∧ ∃ j < n, i = index + j) := by
  rcases Nat.lt_or_ge i index with hlt | hge
  · have := h.after
    exact .inl ⟨h.op, hlt, by omega, h.pass⟩
  · have hj : i - index < n := by
      have := h.before
      omega
    have hi : i = index + (i - index) := by omega
    have hop := h.op
    rw [hi, (phase_uniform hv (by omega)).1] at hop
    exact .inr ⟨hop, i - index, hj, hi⟩

/-- A phase of operations passes no check. -/
theorem Due.next_of_op {index n i : Nat} (hn : n ≤ p.phase_remaining index)
    (hop : (p.mapped index).2 = false) (h : p.Due index i) : p.Due (index + n) i := by
  refine ⟨h.op, Nat.lt_of_lt_of_le h.before (Nat.le_add_right _ _), ?_, h.pass⟩
  by_contra hlt
  have hcheck := (check_of.spec hv h.op).1
  have hj : p.check_of i = index + (p.check_of i - index) := by
    have := h.after
    omega
  have hlt' : p.check_of i - index < p.phase_remaining index := by omega
  have huniform := (phase_uniform hv hlt').1
  rw [← hj, hcheck, hop] at huniform
  cases huniform

theorem due_of_op {index n j : Nat} (hn : n ≤ p.phase_remaining index)
    (hpass : p.pass = index / p.len) (hop : (p.mapped index).2 = false) (hj : j < n) :
    p.Due (index + n) (index + j) := by
  have hj' : j < p.phase_remaining index := by omega
  obtain ⟨h1, h2⟩ := phase_uniform hv hj'
  rw [hop] at h1
  obtain ⟨h3, h4, h5⟩ := check_of.spec hv h1
  refine ⟨h1, by omega, ?_, by rw [h2, hpass]⟩
  by_contra hlt
  have hk : p.check_of (index + j) = index + (p.check_of (index + j) - index) := by omega
  have hlt' : p.check_of (index + j) - index < p.phase_remaining index := by omega
  have huniform := (phase_uniform hv hlt').1
  rw [← hk, h3, hop] at huniform
  cases huniform

/-- The checks of a phase are those of operations that are due. -/
theorem due_of_check {index k : Nat} (hk : k < p.phase_remaining index)
    (hpass : p.pass = index / p.len) (hcheck : (p.mapped index).2 = true) :
    ∃ i, p.Due index i ∧ (p.mapped i).1 = (p.mapped (index + k)).1 := by
  obtain ⟨h1, h2⟩ := phase_uniform hv hk
  rw [hcheck] at h1
  obtain ⟨i, h3, h4, h5⟩ := op_of_check hv hk h1
  obtain ⟨h6, h7, _⟩ := check_of.spec hv h4
  rw [h3] at h6 h7
  exact ⟨i, ⟨h4, h5, by omega, by rw [← h7, h2, hpass]⟩, by rw [h6]⟩

/-- After a batch of a phase, the table is in the pass of the index or at its end. -/
theorem pass_next {index n : Nat} (hn : n ≤ p.phase_remaining index)
    (hpass : p.pass = index / p.len) : p.pass ≤ (index + n) / p.len ∧
      ((index + n) % p.len = 0 ∨ p.pass = (index + n) / p.len) := by
  refine ⟨by rw [hpass]; exact Nat.div_le_div_right (Nat.le_add_right _ _), ?_⟩
  cases n with
  | zero => exact .inr hpass
  | succ n =>
    obtain ⟨_, h2⟩ := phase_uniform hv hn
    rw [← Nat.add_assoc, Nat.succ_div]
    split_ifs with hdvd
    · exact .inl (Nat.mod_eq_zero_of_dvd hdvd)
    · exact .inr (by rw [hpass, h2, Nat.add_zero])

end Phases

theorem Remarked.check_of_eq (h : Remarked p q) (i : Nat) : q.check_of i = p.check_of i := by
  simp only [check_of, h.work, h.length]

theorem Remarked.due_iff (h : Remarked p q) (index i : Nat) : q.Due index i ↔ p.Due index i := by
  constructor
  · rintro ⟨h1, h2, h3, h4⟩
    rw [h.mapped_eq] at h1
    rw [h.check_of_eq] at h3
    rw [h.len_eq, h.pass] at h4
    exact ⟨h1, h2, h3, h4⟩
  · rintro ⟨h1, h2, h3, h4⟩
    exact ⟨by rw [h.mapped_eq]; exact h1, h2, by rw [h.check_of_eq]; exact h3, by
      rw [h.len_eq, h.pass]; exact h4⟩

/-- What holds of the table between two batches of a verifying plan. -/
structure Phased (p : Positions) (index : Nat) : Prop where
  pass_le : p.pass ≤ index / p.len
  boundary : index % p.len = 0 ∨ p.pass = index / p.len
  due : ∀ pos, p.marked pos = true → ∃ i, p.Due index i ∧ (p.mapped i).1 = pos ∧
    (p.entries.getD pos Request.default).write = true

/-- A new table has no mark. -/
theorem new_unmarked {work : Workload} {lo hi : Nat} {seed : UInt64} {capacity : Nat}
    {loaded : List Request} (h : new work lo hi seed capacity loaded = .ok p) (pos : Nat) :
    p.marked pos = false := by
  have hnumbered : ∀ entries : List Request,
      ((positions.numbered work seed entries).getD pos Request.default).verify = false := by
    intro entries
    rw [List.getD_eq_getElem?_getD, positions.numbered, List.getElem?_mapIdx]
    cases entries[pos]? <;> rfl
  obtain ⟨_, _, _, _, _, ⟨_, _, he⟩ | ⟨_, he⟩⟩ := new_cases h
  all_goals
    rw [marked, he]
    exact hnumbered _

/-- A table without marks that counts none. -/
theorem counted_of_unmarked (h : ∀ pos, p.marked pos = false) (h0 : p.pending_checks = 0) :
    p.Counted := by
  rw [Counted, h0, eq_comm, List.countP_eq_zero]
  intro e he
  obtain ⟨i, hi, rfl⟩ := List.mem_iff_getElem.mp he
  have hm := h i
  rw [marked, List.getD_eq_getElem _ _ hi] at hm
  simp [hm]

theorem enter_pass_counted (h : p.Counted) (pass : Nat) : (p.enter_pass pass).Counted := by
  have hcount : (p.enter_pass pass).pending_checks = p.pending_checks := by
    unfold enter_pass
    split_ifs <;> rfl
  rw [Counted, hcount, (p.enter_pass_perm pass).countP_eq]
  exact h

theorem enter_pass_unmarked (h : ∀ pos, p.marked pos = false) (pass pos : Nat) :
    (p.enter_pass pass).marked pos = false := by
  by_contra hm
  rw [Bool.not_eq_false] at hm
  have hmem := (p.enter_pass_perm pass).mem_iff.mp (getD_mem _ (marked_lt hm))
  obtain ⟨i, hi, he⟩ := List.mem_iff_getElem.mp hmem
  have hi' := h i
  rw [marked, List.getD_eq_getElem _ _ hi, he] at hi'
  rw [marked, hi'] at hm
  cases hm

/-- The table enters the pass of its index with the marks it has; another pass
starts without marks. -/
theorem Phased.enter_pass (hv : p.work.verify = true) {index : Nat} (h : p.Phased index) :
    p.enter_pass (index / p.len) = p ∨
      (index % p.len = 0 ∧ (∀ pos, p.marked pos = false) ∧
        ∀ pos, (p.enter_pass (index / p.len)).marked pos = false) := by
  by_cases hp : p.pass = index / p.len
  · exact .inl (enter_pass_self hp)
  · have hnone : ∀ pos, p.marked pos = false := by
      intro pos
      by_contra hm
      rw [Bool.not_eq_false] at hm
      obtain ⟨i, hdue, _, _⟩ := h.due pos hm
      -- the check of the mark would be in the new pass, but its operation is in the old one
      obtain ⟨_, hpass, _⟩ := check_of.spec hv hdue.op
      have hle := Nat.div_le_div_right (c := p.len) hdue.after
      rw [hpass, hdue.pass] at hle
      have := h.pass_le
      omega
    exact .inr ⟨h.boundary.resolve_right hp, hnone, enter_pass_unmarked hnone _⟩

/-- A request of the current pass moves the block that the scan would read for its row. -/
theorem request_at_block (p : Positions) (pos : Nat) (check : Bool) :
    (p.request_at pos check p.pass).block = (p.recheck pos).block := by
  unfold request_at recheck shifted Request.block
  dsimp only
  split_ifs <;> rfl

end Positions

end stutools
