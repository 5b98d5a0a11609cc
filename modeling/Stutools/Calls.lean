-- The calls a worker makes on its table, in any order. A call may shuffle the
-- entries and mark them, but moves none: the extents of the table stay, and
-- within a pass they stay in their rows.
import Stutools.Rows

namespace stutools

/-- Where a request lies. -/
def Request.extent (r : Request) : Nat × Nat := (r.offset, r.len)

namespace Positions

/-- The calls of a worker on its table. -/
inductive Call where
  | get (index : Nat)
  | written (index : Nat)
  | checked (index : Nat)
  | take_pending_check (cursor : Nat)
deriving DecidableEq

/-- One call: the request it returns, if it returns one, and the table after it. -/
def call (p : Positions) : Call → Option Request × Positions
  | .get index => (some (p.get index).1, (p.get index).2)
  | .written index => (none, p.written index)
  | .checked index => (none, p.checked index)
  | .take_pending_check cursor =>
    ((p.take_pending_check cursor).1, (p.take_pending_check cursor).2.2)

/-- The table after the calls. -/
def after (p : Positions) : List Call → Positions
  | [] => p
  | c :: cs => (p.call c).2.after cs

/-- What every call keeps, the table keeps. -/
theorem after_keeps {I : Positions → Prop} {ok : Call → Prop}
    (hstep : ∀ p c, ok c → I p → I (p.call c).2) {cs : List Call} (hcs : ∀ c ∈ cs, ok c)
    {p : Positions} (h : I p) : I (p.after cs) := by
  induction cs generalizing p with
  | nil => exact h
  | cons c cs ih =>
    have hrest : ∀ c' ∈ cs, ok c' := fun c' hc' => hcs c' (List.mem_cons_of_mem c hc')
    exact ih hrest (hstep p c (hcs c List.mem_cons_self) h)

/-! ## The extents stay -/

/-- The extents of the table, row by row. -/
def extents (p : Positions) : List (Nat × Nat) := p.entries.map Request.extent

theorem getD_extent (p : Positions) {pos : Nat} (h : pos < p.entries.length) :
    (p.entries.getD pos Request.default).extent = p.extents.getD pos (0, 0) := by
  have h' : pos < p.extents.length := by simpa [extents] using h
  rw [List.getD_eq_getElem _ _ h, List.getD_eq_getElem _ _ h']
  simp [extents]

theorem set_verify_extents (p : Positions) (pos : Nat) (verify : Bool) :
    (p.set_verify pos verify).extents = p.extents := by
  apply List.ext_getElem
  · simp [extents, set_verify, with_entries]
  · intro i h1 h2
    simp only [extents, set_verify, with_entries, List.getElem_map, List.getElem_modify]
    split_ifs <;> rfl

/-- The same table but for its marks and their count. -/
structure Kept (p q : Positions) : Prop extends Frame p q where
  rng : q.rng = p.rng
  extents : q.extents = p.extents

theorem Kept.refl (p : Positions) : Kept p p := ⟨Frame.refl p, rfl, rfl⟩

theorem set_verify_kept (p : Positions) (pos count : Nat) (verify : Bool) :
    Kept p { p.set_verify pos verify with pending_checks := count } := by
  have h := p.set_verify_frame pos verify
  exact ⟨⟨h.work, h.lo, h.hi, h.pass, h.length⟩, rfl, p.set_verify_extents pos verify⟩

theorem written_kept (p : Positions) (index : Nat) : Kept p (p.written index) := by
  unfold written
  dsimp only
  split_ifs
  · exact Kept.refl p
  · exact p.set_verify_kept _ _ true

theorem checked_kept (p : Positions) (index : Nat) : Kept p (p.checked index) := by
  unfold checked
  dsimp only
  split_ifs
  · exact p.set_verify_kept _ _ false
  · exact Kept.refl p

theorem take_pending_check_from_kept (p : Positions) (n cursor : Nat) :
    Kept p (take_pending_check_from n p cursor).2.2 := by
  induction n generalizing cursor with
  | zero => exact Kept.refl p
  | succ n ih =>
    unfold take_pending_check_from
    split_ifs
    · exact Kept.refl p
    · exact p.set_verify_kept cursor _ false
    · exact ih (cursor + 1)

/-- The same workload and range, and the same extents in some order. -/
structure Rearranged (p q : Positions) : Prop where
  work : q.work = p.work
  lo : q.lo = p.lo
  hi : q.hi = p.hi
  extents : q.extents.Perm p.extents

theorem Rearranged.refl (p : Positions) : Rearranged p p := ⟨rfl, rfl, rfl, List.Perm.refl _⟩

theorem Rearranged.trans {p q r : Positions} (h1 : Rearranged p q) (h2 : Rearranged q r) :
    Rearranged p r :=
  ⟨h2.work.trans h1.work, h2.lo.trans h1.lo, h2.hi.trans h1.hi, h2.extents.trans h1.extents⟩

theorem Rearranged.length {p q : Positions} (h : Rearranged p q) :
    q.entries.length = p.entries.length := by
  simpa [Positions.extents] using h.extents.length_eq

theorem Rearranged.mapped_eq {p q : Positions} (h : Rearranged p q) (index : Nat) :
    q.mapped index = p.mapped index := by
  have hlen : q.len = p.len := by simp only [len, h.work, h.length]
  have hstriped : ∀ pos, q.striped pos = p.striped pos := by
    intro pos
    simp only [striped, h.work, h.length]
  unfold mapped
  simp only [hstriped, hlen, h.work, h.length]

theorem Rearranged.indexes_eq {p q : Positions} (h : Rearranged p q) (pass : Nat) :
    q.indexes pass = p.indexes pass := by
  simp only [indexes, len, h.work, h.length]

theorem Kept.rearranged {p q : Positions} (h : Kept p q) : Rearranged p q :=
  ⟨h.work, h.lo, h.hi, h.extents ▸ List.Perm.refl _⟩

theorem enter_pass_rearranged (p : Positions) (pass : Nat) : Rearranged p (p.enter_pass pass) := by
  obtain ⟨h1, h2⟩ := p.enter_pass_range pass
  exact ⟨p.enter_pass_work pass, h1, h2, (p.enter_pass_perm pass).map _⟩

theorem call_rearranged (p : Positions) (c : Call) : Rearranged p (p.call c).2 := by
  cases c with
  | get index => exact p.enter_pass_rearranged _
  | written index => exact (p.written_kept index).rearranged
  | checked index => exact (p.checked_kept index).rearranged
  | take_pending_check cursor => exact (p.take_pending_check_from_kept _ cursor).rearranged

theorem after_rearranged (p : Positions) (cs : List Call) : Rearranged p (p.after cs) :=
  @after_keeps (Rearranged p) (fun _ => True) (fun q c _ h => h.trans (q.call_rearranged c)) cs
    (fun _ _ => trivial) p (Rearranged.refl p)

/-! ## Within a pass they stay in their rows -/

theorem swap_map {α β : Type*} (f : α → β) (l : List α) (i j : Nat) :
    (vec.swap l i j).map f = vec.swap (l.map f) i j := by
  unfold vec.swap
  rw [List.getElem?_map, List.getElem?_map]
  cases l[i]? with
  | none => rfl
  | some a =>
    cases l[j]? with
    | none => rfl
    | some b => simp [List.map_set]

theorem swapped_map {l l' : List Request} (rng : UInt64) (i : Nat)
    (h : l.map Request.extent = l'.map Request.extent) :
    (positions.swapped (l, rng) i).1.map Request.extent =
        (positions.swapped (l', rng) i).1.map Request.extent ∧
      (positions.swapped (l, rng) i).2 = (positions.swapped (l', rng) i).2 := by
  unfold positions.swapped
  generalize pattern.random rng = drawn
  refine ⟨?_, rfl⟩
  rw [swap_map, swap_map, h]

/-- The swaps depend on the length of the table only: marks move with their rows. -/
theorem shuffled_map (is : List Nat) {l l' : List Request} (rng : UInt64)
    (h : l.map Request.extent = l'.map Request.extent) :
    (is.foldl positions.swapped (l, rng)).1.map Request.extent =
      (is.foldl positions.swapped (l', rng)).1.map Request.extent := by
  induction is generalizing l l' rng with
  | nil => exact h
  | cons i is ih =>
    obtain ⟨h1, h2⟩ := swapped_map rng i h
    rw [List.foldl_cons, List.foldl_cons, ← Prod.mk.eta (p := positions.swapped (l, rng) i),
      ← Prod.mk.eta (p := positions.swapped (l', rng) i), h2]
    exact ih _ h1

theorem enter_pass_entries (p : Positions) (pass : Nat) : (p.enter_pass pass).entries =
    if pass ≠ p.pass ∧ p.work.shuffle = true then
      (positions.shuffled (p.entries.length - 1) (p.entries, p.rng)).1
    else p.entries := by
  unfold enter_pass
  by_cases h1 : pass = p.pass
  · rw [if_pos h1, if_neg fun h => h.1 h1]
  · rw [if_neg h1]
    by_cases h2 : p.work.shuffle = true
    · rw [if_pos h2, if_pos ⟨h1, h2⟩]
      rfl
    · rw [if_neg h2, if_neg fun h => h2 h.2]

theorem Kept.enter_pass {p q : Positions} (h : Kept p q) (pass : Nat) :
    (q.enter_pass pass).extents = (p.enter_pass pass).extents := by
  unfold Positions.extents
  rw [enter_pass_entries, enter_pass_entries, h.pass, h.work, h.rng, h.length]
  split_ifs
  · exact shuffled_map _ _ h.extents
  · exact h.extents

/-- A call that reads no other pass than this one. -/
def Call.Within (p : Positions) (pass : Nat) : Call → Prop
  | .get index => index ∈ p.indexes pass
  | _ => True

theorem Rearranged.within {p q : Positions} (h : Rearranged p q) {pass : Nat} {c : Call}
    (hc : Call.Within p pass c) : Call.Within q pass c := by
  cases c with
  | get index =>
    show index ∈ q.indexes pass
    rw [h.indexes_eq]
    exact hc
  | _ => trivial

theorem call_enter_pass (p : Positions) {pass : Nat} {c : Call} (hc : Call.Within p pass c) :
    ((p.call c).2.enter_pass pass).extents = (p.enter_pass pass).extents := by
  cases c with
  | get index =>
    have hpass : index / p.len = pass := mem_indexes.mp hc
    have hget : (p.call (.get index)).2 = p.enter_pass pass := by rw [← hpass]; rfl
    rw [hget, enter_pass_self (enter_pass_pass p pass)]
  | written index => exact (p.written_kept index).enter_pass pass
  | checked index => exact (p.checked_kept index).enter_pass pass
  | take_pending_check cursor => exact (p.take_pending_check_from_kept _ cursor).enter_pass pass

/-- Until the next pass, the rows of a pass keep their extents. -/
theorem after_enter_pass (p : Positions) {pass : Nat} {cs : List Call}
    (hcs : ∀ c ∈ cs, Call.Within p pass c) :
    ((p.after cs).enter_pass pass).extents = (p.enter_pass pass).extents := by
  refine (after_keeps (I := fun q => Rearranged p q ∧
    (q.enter_pass pass).extents = (p.enter_pass pass).extents) ?_ hcs ⟨Rearranged.refl p, rfl⟩).2
  rintro q c hc ⟨h1, h2⟩
  refine ⟨h1.trans (q.call_rearranged c), ?_⟩
  rw [← h2]
  exact call_enter_pass q (h1.within hc)

/-! ## The extent of a request -/

/-- Where a pass moves an extent. -/
def moved (p : Positions) (pass : Nat) (e : Nat × Nat) : Nat × Nat :=
  if p.work.shift then
    let slots := (p.hi - p.lo - e.2) / p.work.block + 1
    (p.lo + ((e.1 - p.lo) / p.work.block + pass % slots) % slots * p.work.block, e.2)
  else e

theorem shifted_moved (p : Positions) (r : Request) (pass : Nat) :
    (p.shifted r pass).extent = p.moved pass r.extent := by
  unfold shifted moved
  split_ifs <;> rfl

theorem request_at_moved (p : Positions) {pos : Nat} (h : pos < p.entries.length) (check : Bool)
    (pass : Nat) : (p.request_at pos check pass).extent = p.moved pass (p.extents.getD pos (0, 0)) := by
  rw [← p.getD_extent h]
  unfold request_at
  rw [shifted_moved]
  split_ifs <;> rfl

theorem Rearranged.moved_eq {p q : Positions} (h : Rearranged p q) (pass : Nat) (e : Nat × Nat) :
    q.moved pass e = p.moved pass e := by
  simp only [moved, h.work, h.lo, h.hi]

/-- A request of a pass lies where its row did when the pass began, moved by the pass. -/
theorem get_extent_within (p : Positions) {pass i : Nat} {cs : List Call}
    (hcs : ∀ c ∈ cs, Call.Within p pass c) (hi : i ∈ p.indexes pass) :
    ((p.after cs).get i).1.extent =
      p.moved pass ((p.enter_pass pass).extents.getD (p.mapped i).1 (0, 0)) := by
  have hre := p.after_rearranged cs
  have hpass : i / (p.after cs).len = pass := by
    rw [← mem_indexes, hre.indexes_eq]
    exact hi
  have hre' := hre.trans ((p.after cs).enter_pass_rearranged pass)
  have hget : ((p.after cs).get i).1 = ((p.after cs).enter_pass pass).request_at
      (((p.after cs).enter_pass pass).mapped i).1
      (((p.after cs).enter_pass pass).mapped i).2 pass := by
    rw [← hpass]
    rfl
  rw [hget, request_at_moved _ (mapped_lt _ i), after_enter_pass p hcs, hre'.moved_eq,
    hre'.mapped_eq]

end Positions

end stutools
