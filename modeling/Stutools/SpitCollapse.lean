-- The collapse of position logs (src/c/spit/positions.c): the completed positions are
-- sorted, copies are skipped, and of the writes that run into each other those are marked
-- that another one may have changed since. What `qsort` makes of equal elements is left open.
import Mathlib.Data.List.Forall2
import Stutools.SpitPositions

namespace stutools.spit.collapse

/-- A position on a device, with its latencies and padding as one number. -/
structure Entry extends positionType where
  rest : Nat
deriving DecidableEq

/-! ## The order of the positions -/

def poscompare (p1 p2 : Entry) : Ordering :=
  if p1.deviceid < p2.deviceid then .lt
  else if p1.deviceid > p2.deviceid then .gt
  else if p1.pos < p2.pos then .lt
  else if p1.pos > p2.pos then .gt
  else if p1.len < p2.len then .lt
  else if p1.len > p2.len then .gt
  else if p1.finishTime > p2.finishTime then .lt
  else if p1.finishTime < p2.finishTime then .gt
  else .eq

/-- What `qsort` promises. -/
def Sorts (qsort : List Entry → List Entry) : Prop :=
  ∀ l, (qsort l).Perm l ∧ (qsort l).Pairwise fun a b => poscompare a b ≠ .gt

/-! ## The collapse -/

/-- One turn of the first loop: a completed position moves down. -/
def compact_turn (s : List Entry × Nat) (i : Nat) : List Entry × Nat :=
  match s.1[i]? with
  | none => s
  | some p =>
    if p.finishTime ≠ 0 then (if s.2 ≠ i then s.1.set s.2 p else s.1, s.2 + 1) else s

/-- The positions after the first loop, and `newstart`. -/
def compact (positions : List Entry) : List Entry × Nat :=
  (List.range positions.length).foldl compact_turn (positions, 0)

def with_action (p : Entry) (action : Char) : Entry := { p with action }

/-- The number of comparisons with the next position: `(int) sz - 1`. -/
def skip_bound (sz : Nat) : Nat :=
  ((if sz % 2 ^ 32 < 2 ^ 31 then (sz % 2 ^ 32 : Int) else sz % 2 ^ 32 - 2 ^ 32) - 1).toNat

/-- "if identical with the next then skip the first one" -/
def skip_identical : Nat → List Entry → List Entry
  | n + 1, p :: q :: rest =>
    (if p = q then with_action p 'S' else p) :: skip_identical n (q :: rest)
  | _, l => l

/-- The position, length and seed of two positions are the same. -/
def same_block (a b : Entry) : Bool := a.pos == b.pos && a.len == b.len && a.seed == b.seed

/-- The actions that two positions get when they meet. -/
def overlap (a b : Entry) : Entry × Entry :=
  if a.finishTime ≤ b.submitTime then (with_action a '1', b)
  else if a.submitTime ≥ b.finishTime then (a, with_action b '2')
  else if a.submitTime ≥ b.submitTime then (with_action a '3', with_action b '3')
  else (with_action a '4', with_action b '4')

/-- The body of the inner loop. "if it's a not a write, move to the next one" -/
def meet (a b : Entry) : Entry × Entry :=
  if b.action = 'R' ∨ b.finishTime = 0 then (a, b)
  else if same_block a b then (a, b)
  else overlap a b

/-- Where a position ends, as the sum of two `size_t` says it. A position that runs up to
`2 ^ 64` or past it ends before it begins. -/
def past (p : Entry) : Nat := (p.pos + p.len) % 2 ^ 64

/-- The inner loop: position `a` against those after it, while they begin inside it. -/
def against (a : Entry) : List Entry → Entry × List Entry
  | [] => (a, [])
  | b :: rest =>
    if b.pos < past a ∧ a.deviceid = b.deviceid then
      let (a', rest') := against (meet a b).1 rest
      (a', (meet a b).2 :: rest')
    else (a, b :: rest)

theorem against_length (a : Entry) (l : List Entry) : (against a l).2.length = l.length := by
  induction l generalizing a with
  | nil => rfl
  | cons b rest ih =>
    unfold against
    dsimp only
    split
    · rw [List.length_cons, List.length_cons, ih]
    · rfl

/-- The outer loop. -/
def collapse_conflicts : List Entry → List Entry
  | [] => []
  | a :: rest =>
    if a.action.toUpper ≠ 'R' ∧ 0 < a.finishTime then
      (against a rest).1 :: collapse_conflicts (against a rest).2
    else a :: collapse_conflicts rest
termination_by l => l.length
decreasing_by
  · rw [against_length]
    exact Nat.lt_succ_self _
  · exact Nat.lt_succ_self _

/-- `positionContainerCollapse`: the positions of the container afterwards. -/
def positionContainerCollapse (qsort : List Entry → List Entry) (positions : List Entry) :
    List Entry :=
  let (positions, sz) := compact positions
  collapse_conflicts (skip_identical (skip_bound sz) (qsort (positions.take sz)))

/-- `positionContainerMerge`: the positions of the containers, collapsed. -/
def positionContainerMerge (qsort : List Entry → List Entry) (containers : List (List Entry)) :
    List Entry :=
  positionContainerCollapse qsort containers.flatten

/-! ## The first loop -/

/-- The positions that completed, which stay in their order. -/
def completed (positions : List Entry) : List Entry := positions.filter (·.finishTime ≠ 0)

theorem completed_length_le (positions : List Entry) :
    (completed positions).length ≤ positions.length := List.length_filter_le _ _

theorem completed_take_succ {positions : List Entry} {n : Nat} (hlt : n < positions.length) :
    completed (positions.take (n + 1)) = completed (positions.take n) ++
      if positions[n].finishTime ≠ 0 then [positions[n]] else [] := by
  rw [List.take_add_one, List.getElem?_eq_getElem hlt, Option.toList_some]
  unfold completed
  rw [List.filter_append]
  congr 1
  by_cases h : positions[n].finishTime = 0 <;> simp [h]

/-- After some turns the completed positions stand first, and the rest is untouched. -/
theorem compact_turns (positions : List Entry) (n : Nat) (hn : n ≤ positions.length) :
    (List.range n).foldl compact_turn (positions, 0) =
      (completed (positions.take n) ++ positions.drop (completed (positions.take n)).length,
        (completed (positions.take n)).length) := by
  induction n with
  | zero => simp [completed]
  | succ n ih =>
    have hlt : n < positions.length := hn
    rw [List.range_succ, List.foldl_append, ih (Nat.le_of_lt hlt), List.foldl_cons, List.foldl_nil]
    have hle : (completed (positions.take n)).length ≤ n :=
      (completed_length_le _).trans (by simp)
    rw [completed_take_succ hlt]
    generalize completed (positions.take n) = c at hle
    have hget : (c ++ positions.drop c.length)[n]? = some positions[n] := by
      rw [List.getElem?_append_right hle, List.getElem?_drop, Nat.add_sub_cancel' hle,
        List.getElem?_eq_getElem hlt]
    unfold compact_turn
    dsimp only
    rw [hget]
    dsimp only
    by_cases hfinish : positions[n].finishTime ≠ 0
    · rw [if_pos hfinish, if_pos hfinish, List.length_append, List.length_singleton,
        List.append_assoc]
      congr 1
      have hc : c.length < positions.length := hle.trans_lt hlt
      rw [List.drop_eq_getElem_cons hc]
      by_cases hmoves : c.length = n
      · subst hmoves
        rw [if_neg (not_not.mpr rfl)]
        rfl
      · rw [if_pos hmoves, List.set_append_right _ _ (Nat.le_refl _), Nat.sub_self,
          List.set_cons_zero]
        rfl
    · rw [if_neg hfinish, if_neg hfinish, List.append_nil]

theorem compact.spec (positions : List Entry) :
    (compact positions).1.take (compact positions).2 = completed positions := by
  unfold compact
  rw [compact_turns positions _ (Nat.le_refl _), List.take_length]
  exact List.take_left

theorem compact_sz (positions : List Entry) :
    (compact positions).2 = (completed positions).length := by
  unfold compact
  rw [compact_turns positions _ (Nat.le_refl _), List.take_length]

/-! ## Positions that meet -/

/-- Of two positions of a device, the later one begins before the end of the other. The later
of two that begin together is the longer one. -/
def Meets (a b : Entry) : Prop :=
  a.deviceid = b.deviceid ∧
    (a.pos < b.pos ∧ b.pos < past a ∨ b.pos < a.pos ∧ a.pos < past b ∨
      a.pos = b.pos ∧ (a.len ≤ b.len ∧ a.pos < past a ∨ b.len ≤ a.len ∧ b.pos < past b))

instance (a b : Entry) : Decidable (Meets a b) := inferInstanceAs (Decidable (_ ∧ _))

/-- The second runs over a part of the first and is no copy of its block: it did not finish
before the first was submitted. -/
def Beaten (p q : Entry) : Prop :=
  Meets p q ∧ same_block p q = false ∧ ¬ q.finishTime ≤ p.submitTime

instance (p q : Entry) : Decidable (Beaten p q) := inferInstanceAs (Decidable (_ ∧ _))

/-- The position counts as a write in the scan. -/
def Active (p : Entry) : Prop := p.action ≠ 'R'

instance (p : Entry) : Decidable (Active p) := inferInstanceAs (Decidable (_ ≠ _))

/-- The order of the scan. -/
def Follows (a b : Entry) : Prop :=
  a.deviceid < b.deviceid ∨ a.deviceid = b.deviceid ∧
    (a.pos < b.pos ∨ a.pos = b.pos ∧ a.len ≤ b.len)

/-- In the order of the scan, two positions meet when the later one begins inside the other. -/
theorem meets_iff {a b : Entry} (h : Follows a b) :
    Meets a b ↔ a.deviceid = b.deviceid ∧ b.pos < past a := by
  have hsame : a.pos = b.pos → a.len = b.len → past a = past b := fun hpos hlen => by
    unfold past
    rw [hpos, hlen]
  unfold Follows at h
  unfold Meets
  constructor
  · rintro ⟨hdev, hmeets⟩
    exact ⟨hdev, by omega⟩
  · rintro ⟨hdev, hlt⟩
    exact ⟨hdev, by omega⟩

theorem meets_comm {a b : Entry} : Meets a b ↔ Meets b a := by
  unfold Meets
  constructor <;> rintro ⟨hdev, hmeets⟩ <;> exact ⟨hdev.symm, by omega⟩

theorem same_block_comm (a b : Entry) : same_block a b = same_block b a := by
  unfold same_block
  rw [Bool.eq_iff_iff]
  simp only [Bool.and_eq_true, beq_iff_eq]
  constructor <;> rintro ⟨⟨hpos, hlen⟩, hseed⟩ <;> exact ⟨⟨hpos.symm, hlen.symm⟩, hseed.symm⟩

/-- What comes after a position that begins behind the end of `a` does not meet `a`. -/
theorem not_meets_of_follows {a b k : Entry} (hab : Follows a b) (hbk : Follows b k)
    (h : ¬ Meets a b) : ¬ Meets a k := by
  have hak : Follows a k := by
    unfold Follows at *
    omega
  rw [meets_iff hab] at h
  rw [meets_iff hak]
  unfold Follows at *
  omega

/-! ## One position against those after it -/

/-- The position has a mark of the scan, or it is as it was. -/
def Relabelled (P : Prop) (o f : Entry) : Prop :=
  (P → ∃ c, c ∈ ['1', '2', '3', '4'] ∧ f = with_action o c) ∧ (¬ P → f = o)

theorem Relabelled.of_not {P : Prop} (h : ¬ P) (o : Entry) : Relabelled P o o :=
  ⟨fun hP => absurd hP h, fun _ => rfl⟩

theorem Relabelled.congr {P Q : Prop} {o f : Entry} (h : Relabelled P o f) (hiff : P ↔ Q) :
    Relabelled Q o f := ⟨fun hQ => h.1 (hiff.mpr hQ), fun hQ => h.2 fun hP => hQ (hiff.mp hP)⟩

/-- Two changes, one after the other. -/
theorem Relabelled.trans {P Q : Prop} {o m f : Entry} (h : Relabelled P o m)
    (h' : Relabelled Q m f) : Relabelled (P ∨ Q) o f := by
  by_cases hP : P
  · obtain ⟨c, hc, rfl⟩ := h.1 hP
    refine ⟨fun _ => ?_, fun hnot => absurd (.inl hP) hnot⟩
    by_cases hQ : Q
    · exact h'.1 hQ
    · exact ⟨c, hc, h'.2 hQ⟩
  · have hm := h.2 hP
    subst hm
    exact h'.congr ⟨.inr, fun h => h.resolve_left hP⟩

/-- What the inner loop makes of a position that it comes to. -/
def hit (a b : Entry) : Entry :=
  if Meets a b ∧ Active b ∧ same_block a b = false then (overlap a b).2 else b

theorem overlap_fst {a b : Entry} (ha : a.submitTime < a.finishTime)
    (hb : b.submitTime < b.finishTime) :
    Relabelled (¬ b.finishTime ≤ a.submitTime) a (overlap a b).1 := by
  unfold overlap
  split
  · rename_i h1
    have hnot : ¬ b.finishTime ≤ a.submitTime := not_le.mpr (ha.trans_le (h1.trans hb.le))
    exact ⟨fun _ => ⟨'1', by decide, rfl⟩, fun h => absurd hnot h⟩
  · split
    · rename_i h2
      exact .of_not (not_not.mpr h2) a
    · rename_i h2
      split
      · exact ⟨fun _ => ⟨'3', by decide, rfl⟩, fun h => absurd h2 h⟩
      · exact ⟨fun _ => ⟨'4', by decide, rfl⟩, fun h => absurd h2 h⟩

theorem overlap_snd (a b : Entry) :
    Relabelled (¬ a.finishTime ≤ b.submitTime) b (overlap a b).2 := by
  unfold overlap
  split
  · rename_i h1
    exact .of_not (not_not.mpr h1) b
  · rename_i h1
    split
    · exact ⟨fun _ => ⟨'2', by decide, rfl⟩, fun h => absurd h1 h⟩
    · split
      · exact ⟨fun _ => ⟨'3', by decide, rfl⟩, fun h => absurd h1 h⟩
      · exact ⟨fun _ => ⟨'4', by decide, rfl⟩, fun h => absurd h1 h⟩

/-- A position that is hit is marked when the other one beats it. -/
theorem hit.spec (a b : Entry) : Relabelled (Active b ∧ Beaten b a) b (hit a b) := by
  unfold hit
  split
  · rename_i h
    obtain ⟨hmeets, hactive, hblock⟩ := h
    refine (overlap_snd a b).congr ⟨fun hlt => ?_, fun hbeaten => hbeaten.2.2.2⟩
    exact ⟨hactive, meets_comm.mp hmeets, (same_block_comm b a).trans hblock, hlt⟩
  · rename_i h
    refine .of_not (fun hbeaten => h ?_) b
    obtain ⟨hactive, hmeets, hblock, -⟩ := hbeaten
    exact ⟨meets_comm.mp hmeets, hactive, (same_block_comm a b).trans hblock⟩

/-- Each position was submitted before it finished. -/
def Timed (p : Entry) : Prop := p.submitTime < p.finishTime

theorem Timed.finished {p : Entry} (h : Timed p) : 0 < p.finishTime :=
  lt_of_le_of_lt p.submitTime.2 h

theorem Relabelled.cases {P : Prop} {o f : Entry} (h : Relabelled P o f) :
    f = o ∨ ∃ c, c ∈ ['1', '2', '3', '4'] ∧ f = with_action o c := by
  by_cases hP : P
  · exact .inr (h.1 hP)
  · exact .inl (h.2 hP)

theorem hit_with_action (a : Entry) (c : Char) : hit (with_action a c) = hit a := by
  funext b
  have hsnd : (overlap (with_action a c) b).2 = (overlap a b).2 := by
    unfold overlap with_action
    dsimp only
    split
    · rfl
    · split
      · rfl
      · split <;> rfl
  unfold hit
  rw [hsnd]
  rfl

theorem meet.spec {a b : Entry} (hmeets : Meets a b) (ha : Timed a) (hb : Timed b) :
    (meet a b).2 = hit a b ∧ Relabelled (Active b ∧ Beaten a b) a (meet a b).1 := by
  have hfinished : b.finishTime ≠ 0 := hb.finished.ne'
  unfold meet hit
  by_cases hread : b.action = 'R'
  · have hactive : ¬ Active b := not_not.mpr hread
    rw [if_pos (.inl hread), if_neg fun h => hactive h.2.1]
    exact ⟨rfl, .of_not (fun h => hactive h.1) a⟩
  · rw [if_neg (not_or.mpr ⟨hread, hfinished⟩)]
    cases hblock : same_block a b with
    | true =>
      rw [if_pos rfl, if_neg (by simp)]
      exact ⟨rfl, .of_not (fun h => by simp [Beaten, hblock] at h) a⟩
    | false =>
      rw [if_neg Bool.false_ne_true, if_pos ⟨hmeets, hread, rfl⟩]
      refine ⟨rfl, (overlap_fst ha hb).congr ⟨fun hlate => ?_, fun h => h.2.2.2⟩⟩
      exact ⟨hread, hmeets, hblock, hlate⟩

/-- The inner loop hits every position after `a`, and marks `a` when one of them beats it. -/
theorem against.spec {a : Entry} {rest : List Entry} (hfollows : ∀ b ∈ rest, Follows a b)
    (hsorted : rest.Pairwise Follows) (ha : Timed a) (htimed : ∀ b ∈ rest, Timed b) :
    (against a rest).2 = rest.map (hit a) ∧
      Relabelled (∃ b ∈ rest, Active b ∧ Beaten a b) a (against a rest).1 := by
  induction rest generalizing a with
  | nil => exact ⟨rfl, .of_not (by simp) a⟩
  | cons b rest ih =>
    obtain ⟨hb, hrest⟩ := List.forall_mem_cons.mp hfollows
    obtain ⟨hbrest, hsorted⟩ := List.pairwise_cons.mp hsorted
    obtain ⟨htb, htrest⟩ := List.forall_mem_cons.mp htimed
    unfold against
    split
    · rename_i hinside
      obtain ⟨hmeet, hmark⟩ := meet.spec ((meets_iff hb).mpr hinside.symm) ha htb
      -- the rest does not see whether `a` was marked
      have hafter : (against (meet a b).1 rest).2 = rest.map (hit a) ∧
          Relabelled (∃ k ∈ rest, Active k ∧ Beaten a k) (meet a b).1
            (against (meet a b).1 rest).1 := by
        obtain hsame | ⟨c, -, hmarked⟩ := hmark.cases
        · rw [hsame]
          exact ih hrest hsorted ha htrest
        · rw [hmarked, ← hit_with_action a c]
          exact ih hrest hsorted ha htrest
      refine ⟨congrArg₂ List.cons hmeet hafter.1, (hmark.trans hafter.2).congr ?_⟩
      rw [List.exists_mem_cons_iff]
    · rename_i hbehind
      have hnot : ¬ Meets a b := fun h => hbehind ((meets_iff hb).mp h).symm
      have hnone : ∀ k ∈ b :: rest, ¬ Meets a k := by
        refine List.forall_mem_cons.mpr ⟨hnot, fun k hk => ?_⟩
        exact not_meets_of_follows hb (hbrest k hk) hnot
      constructor
      · refine (List.map_id _).symm.trans (List.map_congr_left fun k hk => ?_)
        exact (if_neg fun h => hnone k hk h.1).symm
      · exact .of_not (fun ⟨k, hk, _, hbeaten⟩ => hnone k hk hbeaten.1) a

/-! ## The scan -/

/-- An action that the scan takes for a read is one. -/
def Plain (p : Entry) : Prop := p.action.toUpper = 'R' → p.action = 'R'

/-- A position of the scan after some turns: only its action may differ, and it is still a read
or not a read. -/
theorem Relabelled.active_iff {P : Prop} {o f : Entry} (h : Relabelled (Active o ∧ P) o f) :
    Active f ↔ Active o := by
  obtain ⟨hmark, hkeep⟩ := h
  by_cases hP : Active o ∧ P
  · obtain ⟨c, hc, rfl⟩ := hmark hP
    refine iff_of_true (fun hread => ?_) hP.1
    subst hread
    revert hc
    decide
  · rw [hkeep hP]

theorem Relabelled.plain {P : Prop} {o f : Entry} (h : Relabelled P o f) (ho : Plain o) :
    Plain f := by
  obtain rfl | ⟨c, hc, rfl⟩ := h.cases
  · exact ho
  · intro hread
    have hall : ['1', '2', '3', '4'].all fun c => c.toUpper ≠ 'R' := by decide
    exact absurd hread (of_decide_eq_true (List.all_eq_true.mp hall c hc))

theorem Relabelled.beaten_iff {P Q : Prop} {o f k g : Entry} (hf : Relabelled P o f)
    (hg : Relabelled Q k g) : Beaten f g ↔ Beaten o k := by
  obtain rfl | ⟨c, -, rfl⟩ := hf.cases <;> obtain rfl | ⟨c', -, rfl⟩ := hg.cases <;> rfl

theorem Relabelled.follows_iff {P Q : Prop} {o f k g : Entry} (hf : Relabelled P o f)
    (hg : Relabelled Q k g) : Follows f g ↔ Follows o k := by
  obtain rfl | ⟨c, -, rfl⟩ := hf.cases <;> obtain rfl | ⟨c', -, rfl⟩ := hg.cases <;> rfl

theorem Relabelled.timed {P : Prop} {o f : Entry} (h : Relabelled P o f) (ho : Timed o) :
    Timed f := by
  obtain rfl | ⟨c, -, rfl⟩ := h.cases <;> exact ho

/-- A position is no rival of its own. -/
theorem not_beaten_self (p : Entry) : ¬ Beaten p p := fun h => by simp [Beaten, same_block] at h

/-- What an active position does to those after it, before the scan goes on. -/
theorem hit_then {a o f : Entry} {rest : List Entry} (ha : Active a)
    (h : Relabelled (Active (hit a o) ∧ ∃ k ∈ rest.map (hit a), Active k ∧ Beaten (hit a o) k)
      (hit a o) f) :
    Relabelled (Active o ∧ ∃ k ∈ a :: rest, Active k ∧ Beaten o k) o f := by
  refine ((hit.spec a o).trans h).congr ?_
  have hrest : (∃ k ∈ rest.map (hit a), Active k ∧ Beaten (hit a o) k) ↔
      ∃ k ∈ rest, Active k ∧ Beaten o k := by
    simp only [List.mem_map, exists_exists_and_eq_and]
    refine exists_congr fun k => and_congr_right fun _ => ?_
    exact and_congr (hit.spec a k).active_iff ((hit.spec a o).beaten_iff (hit.spec a k))
  rw [hrest, (hit.spec a o).active_iff, List.exists_mem_cons_iff, and_or_left]
  exact or_congr_left ⟨fun h => ⟨h.1, ha, h.2⟩, fun h => ⟨h.1, h.2.2⟩⟩

/-- The scan marks those that are not reads and that another one beats. -/
theorem collapse_conflicts.spec {l : List Entry} (hsorted : l.Pairwise Follows)
    (htimed : ∀ p ∈ l, Timed p) (hplain : ∀ p ∈ l, Plain p) :
    List.Forall₂ (fun o f => Relabelled (Active o ∧ ∃ k ∈ l, Active k ∧ Beaten o k) o f) l
      (collapse_conflicts l) := by
  induction hn : l.length generalizing l with
  | zero =>
    rw [List.length_eq_zero_iff.mp hn, collapse_conflicts]
    exact .nil
  | succ n ih =>
    cases l with
    | nil => cases hn
    | cons a rest =>
      have hlength : rest.length = n := Nat.succ.inj hn
      obtain ⟨hfollows, hsorted⟩ := List.pairwise_cons.mp hsorted
      obtain ⟨ha, htrest⟩ := List.forall_mem_cons.mp htimed
      obtain ⟨hpa, hprest⟩ := List.forall_mem_cons.mp hplain
      rw [collapse_conflicts]
      by_cases hread : a.action.toUpper = 'R'
      · -- a read is passed over, and beats nothing
        have hactive : ¬ Active a := not_not.mpr (hpa hread)
        rw [if_neg fun h => h.1 hread]
        refine .cons (.of_not (fun h => hactive h.1) a) ?_
        refine (ih hsorted htrest hprest hlength).imp fun o f h => h.congr ?_
        rw [List.exists_mem_cons_iff, or_iff_right fun h => hactive h.1]
      · have hactive : Active a := fun h => hread (by rw [h]; decide)
        rw [if_pos ⟨hread, ha.finished⟩]
        obtain ⟨hhit, hmark⟩ := against.spec hfollows hsorted ha htrest
        refine .cons (hmark.congr ?_) ?_
        · rw [List.exists_mem_cons_iff, or_iff_right fun h => not_beaten_self a h.2,
            and_iff_right hactive]
        · rw [hhit]
          have hrest := ih (l := rest.map (hit a))
            (List.pairwise_map.mpr (hsorted.imp fun {p q} h =>
              ((hit.spec a p).follows_iff (hit.spec a q)).mpr h))
            (List.forall_mem_map.mpr fun p hp => (hit.spec a p).timed (htrest p hp))
            (List.forall_mem_map.mpr fun p hp => (hit.spec a p).plain (hprest p hp))
            (by rw [List.length_map, hlength])
          exact (List.forall₂_map_left_iff.mp hrest).imp fun o f h => hit_then hactive h

/-! ## The marks, whatever the times -/

/-- The position has a mark, or it is as it was. -/
def Marked (o f : Entry) : Prop := f = o ∨ ∃ c ∈ ['S', '1', '2', '3', '4'], f = with_action o c

theorem Marked.refl (o : Entry) : Marked o o := .inl rfl

theorem Marked.mark (o : Entry) {c : Char} (hc : c ∈ ['S', '1', '2', '3', '4']) :
    Marked o (with_action o c) := .inr ⟨c, hc, rfl⟩

theorem Marked.trans {o m f : Entry} (h : Marked o m) (h' : Marked m f) : Marked o f := by
  obtain rfl | ⟨c, hc, rfl⟩ := h'
  · exact h
  · obtain rfl | ⟨c', -, rfl⟩ := h
    · exact .mark _ hc
    · exact .mark o hc

/-- A read was not marked. -/
theorem Marked.read {o f : Entry} (h : Marked o f) (hf : f.action = 'R') : f = o := by
  obtain rfl | ⟨c, hc, rfl⟩ := h
  · rfl
  · obtain rfl : c = 'R' := hf
    exact absurd hc (by decide)

theorem forall₂_trans {α : Type} {R : α → α → Prop} (htrans : ∀ a b c, R a b → R b c → R a c)
    {l l' l'' : List α} (h : List.Forall₂ R l l') (h' : List.Forall₂ R l' l'') :
    List.Forall₂ R l l'' := by
  induction h generalizing l'' with
  | nil => exact h'
  | cons hab _ ih =>
    cases h' with
    | cons hbc htail => exact .cons (htrans _ _ _ hab hbc) (ih htail)

theorem meet_marked (a b : Entry) : Marked a (meet a b).1 ∧ Marked b (meet a b).2 := by
  unfold meet
  split
  · exact ⟨.refl a, .refl b⟩
  · split
    · exact ⟨.refl a, .refl b⟩
    · unfold overlap
      split_ifs
      · exact ⟨.mark a (by decide), .refl b⟩
      · exact ⟨.refl a, .mark b (by decide)⟩
      · exact ⟨.mark a (by decide), .mark b (by decide)⟩
      · exact ⟨.mark a (by decide), .mark b (by decide)⟩

theorem against_marked (a : Entry) (l : List Entry) :
    Marked a (against a l).1 ∧ List.Forall₂ Marked l (against a l).2 := by
  induction l generalizing a with
  | nil => exact ⟨.refl a, .nil⟩
  | cons b rest ih =>
    unfold against
    split
    · obtain ⟨ha, hb⟩ := meet_marked a b
      obtain ⟨hrest, hmarks⟩ := ih (meet a b).1
      exact ⟨ha.trans hrest, .cons hb hmarks⟩
    · exact ⟨.refl a, List.forall₂_same.mpr fun x _ => .refl x⟩

theorem collapse_conflicts_marked (l : List Entry) :
    List.Forall₂ Marked l (collapse_conflicts l) := by
  fun_induction collapse_conflicts l with
  | case1 => exact .nil
  | case2 a rest _ ih =>
    obtain ⟨ha, hrest⟩ := against_marked a rest
    exact .cons ha (forall₂_trans (fun _ _ _ h h' => h.trans h') hrest ih)
  | case3 a rest _ ih => exact .cons (.refl a) ih

theorem skip_identical_marked (n : Nat) (l : List Entry) :
    List.Forall₂ Marked l (skip_identical n l) := by
  fun_induction skip_identical n l with
  | case1 n p q rest ih =>
    refine .cons ?_ ih
    split
    · exact .mark p (by decide)
    · exact .refl p
  | case2 _ l => exact List.forall₂_same.mpr fun x _ => .refl x

end stutools.spit.collapse
