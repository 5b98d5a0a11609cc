-- What is left of the writes after a collapse (src/c/spit/positions.c): the order of the
-- positions is a total one on a key, of adjacent copies the last one stays, and a write stays
-- one when no other write that runs over it finished after it was submitted.
import Mathlib.Data.List.Nodup
import Mathlib.Data.List.Sort
import Mathlib.Data.Prod.Lex
import Stutools.SpitCollapse

namespace stutools.spit.collapse

/-! ## The order -/

/-- What the order looks at, with the latest finish first. -/
def key (p : Entry) : ℕ ×ₗ ℕ ×ₗ ℕ ×ₗ ℚ≥0ᵒᵈ :=
  toLex (p.deviceid, toLex (p.pos, toLex (p.len, OrderDual.toDual p.finishTime)))

theorem key_lt_iff {a b : Entry} : key a < key b ↔ poscompare a b = .lt := by
  unfold key poscompare
  simp only [Prod.Lex.toLex_lt_toLex, OrderDual.toDual_lt_toDual]
  grind

theorem poscompare_lt_iff (a b : Entry) : poscompare a b = .lt ↔ poscompare b a = .gt := by
  unfold poscompare
  grind

theorem key_le_iff {a b : Entry} : key a ≤ key b ↔ poscompare a b ≠ .gt := by
  rw [← not_lt, key_lt_iff, poscompare_lt_iff]

theorem follows_of_key_le {a b : Entry} (h : key a ≤ key b) : Follows a b := by
  rw [key_le_iff] at h
  unfold poscompare at h
  unfold Follows
  grind

theorem poscompare_le_total (a b : Entry) : poscompare a b ≠ .gt ∨ poscompare b a ≠ .gt := by
  rw [← key_le_iff, ← key_le_iff]
  exact le_total _ _

/-- A sort by insertion. -/
def sort_by_insertion (l : List Entry) : List Entry :=
  l.insertionSort fun a b => poscompare a b ≠ .gt

instance : Std.Total fun a b : Entry => poscompare a b ≠ .gt := ⟨poscompare_le_total⟩

instance : IsTrans Entry fun a b => poscompare a b ≠ .gt :=
  ⟨fun _ _ _ hab hbc => key_le_iff.mp ((key_le_iff.mpr hab).trans (key_le_iff.mpr hbc))⟩

theorem sort_by_insertion.spec : Sorts sort_by_insertion :=
  fun l => ⟨List.perm_insertionSort _ l, List.pairwise_insertionSort _ l⟩

/-! ## Lists side by side -/

theorem forall₂_mem_left {α β : Type} {R : α → β → Prop} {l : List α} {l' : List β}
    (h : List.Forall₂ R l l') {a : α} (ha : a ∈ l) : ∃ b ∈ l', R a b := by
  induction h with
  | nil => cases ha
  | @cons x y _ _ hxy _ ih =>
    obtain rfl | ha := List.mem_cons.mp ha
    · exact ⟨y, List.mem_cons_self, hxy⟩
    · obtain ⟨b, hb, hab⟩ := ih ha
      exact ⟨b, List.mem_cons_of_mem y hb, hab⟩

theorem forall₂_getElem? {α β : Type} {R : α → β → Prop} {l : List α} {l' : List β}
    (h : List.Forall₂ R l l') {i : Nat} {a : α} {b : β} (ha : l[i]? = some a)
    (hb : l'[i]? = some b) : R a b := by
  induction h generalizing i with
  | nil => cases ha
  | cons hxy _ ih =>
    cases i with
    | zero =>
      cases ha
      cases hb
      exact hxy
    | succ i => exact ih ha hb

theorem forall₂_getElem?_right {α β : Type} {R : α → β → Prop} {l : List α} {l' : List β}
    (h : List.Forall₂ R l l') {i : Nat} {b : β} (hb : l'[i]? = some b) :
    ∃ a, l[i]? = some a ∧ R a b := by
  induction h generalizing i with
  | nil => cases hb
  | @cons x _ _ _ hxy _ ih =>
    cases i with
    | zero =>
      cases hb
      exact ⟨x, rfl, hxy⟩
    | succ i => exact ih hb

theorem countP_le_of_forall₂ {α β : Type} {p : α → Bool} {q : β → Bool} {l : List α}
    {l' : List β} (h : List.Forall₂ (fun a b => q b = true → p a = true) l l') :
    l'.countP q ≤ l.countP p := by
  induction h with
  | nil => exact Nat.le_refl _
  | @cons a b _ _ hab _ ih =>
    rw [List.countP_cons, List.countP_cons]
    cases hq : q b with
    | false => exact ih.trans (Nat.le_add_right _ _)
    | true => exact Nat.add_le_add ih (by rw [hab hq])

theorem forall₂_mem_right {α β : Type} {R : α → β → Prop} {l : List α} {l' : List β}
    (h : List.Forall₂ R l l') {b : β} (hb : b ∈ l') : ∃ a ∈ l, R a b :=
  forall₂_mem_left h.flip hb

/-! ## The copies -/

/-- The copy at index `i` is skipped for the one after it. -/
def Skips (n : Nat) (l : List Entry) (i : Nat) (p : Entry) : Prop := i < n ∧ l[i + 1]? = some p

instance (n : Nat) (l : List Entry) (i : Nat) (p : Entry) : Decidable (Skips n l i p) :=
  inferInstanceAs (Decidable (_ ∧ _))

theorem skip_identical.spec (n : Nat) (l : List Entry) (i : Nat) :
    (skip_identical n l)[i]? =
      l[i]?.map fun p => if Skips n l i p then with_action p 'S' else p := by
  induction n, l using skip_identical.induct generalizing i with
  | case1 n p q rest ih =>
    unfold skip_identical
    cases i with
    | zero => simp [Skips, eq_comm]
    | succ i =>
      rw [List.getElem?_cons_succ, List.getElem?_cons_succ, ih]
      refine congrArg₂ _ (funext fun x => if_congr ?_ rfl rfl) rfl
      exact and_congr_left fun _ => Nat.succ_lt_succ_iff.symm
  | case2 n l hstop =>
    have hkeep : ∀ p, l[i]? = some p → ¬ Skips n l i p := by
      rintro p hp ⟨hlt, hnext⟩
      obtain _ | n := n
      · exact absurd hlt (Nat.not_lt_zero i)
      obtain _ | ⟨a, _ | ⟨b, rest⟩⟩ := l
      · cases hp
      · cases hnext
      · exact hstop n a b rest rfl rfl
    have hsame : skip_identical n l = l := by
      unfold skip_identical
      split
      · exact absurd rfl (hstop _ _ _ _ rfl)
      · rfl
    rw [hsame]
    cases hget : l[i]? with
    | none => rfl
    | some p => rw [Option.map_some, if_neg (hkeep p hget)]

theorem skip_identical_keys (n : Nat) (l : List Entry) :
    (skip_identical n l).map key = l.map key := by
  fun_induction skip_identical n l with
  | case1 n p q rest ih =>
    refine congrArg₂ List.cons ?_ ih
    split <;> rfl
  | case2 => rfl

/-- Skipping changes actions only. -/
theorem mem_skip_identical {n : Nat} {l : List Entry} {f : Entry} (hf : f ∈ skip_identical n l) :
    ∃ p ∈ l, f = p ∨ f = with_action p 'S' := by
  obtain ⟨i, hi⟩ := List.mem_iff_getElem?.mp hf
  rw [skip_identical.spec] at hi
  obtain ⟨p, hp, rfl⟩ := Option.map_eq_some_iff.mp hi
  refine ⟨p, List.mem_of_getElem? hp, ?_⟩
  split
  · exact .inr rfl
  · exact .inl rfl

/-- Of adjacent copies the last one is not skipped. -/
theorem exists_last_copy {l : List Entry} {p : Entry} (hp : p ∈ l) :
    ∃ i, l[i]? = some p ∧ l[i + 1]? ≠ some p := by
  induction l with
  | nil => cases hp
  | cons a rest ih =>
    by_cases hrest : p ∈ rest
    · obtain ⟨i, hi, hnext⟩ := ih hrest
      exact ⟨i + 1, hi, hnext⟩
    · obtain rfl | h := List.mem_cons.mp hp
      · exact ⟨0, rfl, fun h => hrest (List.mem_of_getElem? h)⟩
      · exact absurd h hrest

/-- The writes are those of the list. -/
theorem mem_skip_identical_write {n : Nat} {l : List Entry} {p : Entry} (hp : p.action = 'W') :
    p ∈ skip_identical n l ↔ p ∈ l := by
  constructor
  · intro hmem
    obtain ⟨q, hq, rfl | rfl⟩ := mem_skip_identical hmem
    · exact hq
    · exact absurd hp (by decide : 'S' ≠ 'W')
  · intro hmem
    obtain ⟨i, hi, hlast⟩ := exists_last_copy hmem
    refine List.mem_iff_getElem?.mpr ⟨i, ?_⟩
    rw [skip_identical.spec, hi, Option.map_some, if_neg fun h => hlast h.2]

theorem Relabelled.unmarked {P : Prop} {o f : Entry} (h : Relabelled P o f) (hf : f.action = 'W') :
    ¬ P ∧ f = o := by
  have hnot : ¬ P := by
    intro hP
    obtain ⟨c, hc, rfl⟩ := h.1 hP
    obtain rfl : c = 'W' := hf
    exact absurd hc (by decide)
  exact ⟨hnot, h.2 hnot⟩

theorem count_skip_identical_le {k : Entry} (hk : k.action ≠ 'S') (n : Nat) (l : List Entry) :
    (skip_identical n l).count k ≤ l.count k := by
  fun_induction skip_identical n l with
  | case1 n p q rest ih =>
    rw [List.count_cons, List.count_cons (b := p)]
    refine Nat.add_le_add ih ?_
    split
    · rw [if_neg]
      · exact Nat.zero_le _
      · intro h
        exact hk (by rw [← eq_of_beq h]; rfl)
    · exact Nat.le_refl _
  | case2 => exact Nat.le_refl _

/-- Nothing is skipped but what stands in the list twice. -/
theorem Skips.two_le_count {n i : Nat} {l : List Entry} {p : Entry} (hi : l[i]? = some p)
    (h : Skips n l i p) : 2 ≤ l.count p := by
  have hdrop : l.drop i = p :: p :: l.drop (i + 2) := by
    rw [List.drop_eq_getElem?_toList_append, hi, List.drop_eq_getElem?_toList_append, h.2]
    rfl
  calc 2 ≤ (l.drop i).count p := by rw [hdrop, List.count_cons_self, List.count_cons_self]; omega
    _ ≤ l.count p := (List.drop_sublist i l).count_le p

/-! ## The whole collapse -/

/-- A position that is not a read, or a skipped copy of one, beats `p`. -/
def Rivalled (n : Nat) (s : List Entry) (p : Entry) : Prop :=
  ∃ k ∈ skip_identical n s, Active k ∧ Beaten p k

theorem rivalled_iff {n : Nat} {s : List Entry} {p : Entry} :
    Rivalled n s p ↔
      ∃ i k, s[i]? = some k ∧ (Active k ∨ Skips n s i k) ∧ Beaten p k := by
  unfold Rivalled
  simp only [List.mem_iff_getElem?, skip_identical.spec, Option.map_eq_some_iff]
  constructor
  · rintro ⟨f, ⟨i, k, hk, rfl⟩, hactive, hbeaten⟩
    refine ⟨i, k, hk, ?_⟩
    by_cases hskip : Skips n s i k
    · rw [if_pos hskip] at hbeaten
      exact ⟨.inr hskip, hbeaten⟩
    · rw [if_neg hskip] at hactive hbeaten
      exact ⟨.inl hactive, hbeaten⟩
  · rintro ⟨i, k, hk, hactive, hbeaten⟩
    refine ⟨_, ⟨i, k, hk, rfl⟩, ?_⟩
    by_cases hskip : Skips n s i k
    · rw [if_pos hskip]
      exact ⟨(by decide : 'S' ≠ 'R'), hbeaten⟩
    · rw [if_neg hskip]
      exact ⟨hactive.resolve_right hskip, hbeaten⟩

section
variable {qsort : List Entry → List Entry} (hqsort : Sorts qsort) {positions : List Entry}
include hqsort

/-- What the scan goes over. -/
theorem sorted_by_key (l : List Entry) : (qsort l).Pairwise fun a b => key a ≤ key b :=
  (hqsort l).2.imp key_le_iff.mpr

theorem mem_sorted {l : List Entry} {p : Entry} : p ∈ qsort l ↔ p ∈ l := (hqsort l).1.mem_iff

/-- Entry by entry: a copy is skipped, and what is not a read is marked when something
beats it. -/
theorem collapse_get (htimed : ∀ p ∈ completed positions, Timed p)
    (hplain : ∀ p ∈ completed positions, Plain p) {n : Nat} {s : List Entry}
    (hn : n = skip_bound (completed positions).length) (hs : s = qsort (completed positions)) :
    List.Forall₂ (fun o f => Relabelled (Active o ∧ Rivalled n s o) o f) (skip_identical n s)
      (positionContainerCollapse qsort positions) := by
  unfold positionContainerCollapse
  dsimp only
  rw [compact.spec, compact_sz, ← hn, ← hs]
  have hmem : ∀ p ∈ s, p ∈ completed positions := fun p hp => (mem_sorted hqsort).mp (hs ▸ hp)
  apply collapse_conflicts.spec
  · have hkeys : ((skip_identical n s).map key).Pairwise (· ≤ ·) := by
      rw [skip_identical_keys, hs, List.pairwise_map]
      exact sorted_by_key hqsort _
    exact (List.pairwise_map.mp hkeys).imp follows_of_key_le
  · intro f hf
    obtain ⟨p, hp, rfl | rfl⟩ := mem_skip_identical hf
    · exact htimed f (hmem f hp)
    · exact htimed p (hmem p hp)
  · intro f hf
    obtain ⟨p, hp, rfl | rfl⟩ := mem_skip_identical hf
    · exact hplain f (hmem f hp)
    · exact fun h => absurd h (by decide : 'S'.toUpper ≠ 'R')

/-- The writes that survive are those of the log that nothing beats. -/
theorem survives_iff (htimed : ∀ p ∈ completed positions, Timed p)
    (hplain : ∀ p ∈ completed positions, Plain p) {n : Nat} {s : List Entry}
    (hn : n = skip_bound (completed positions).length) (hs : s = qsort (completed positions))
    {p : Entry} (hp : p.action = 'W') :
    p ∈ positionContainerCollapse qsort positions ↔ p ∈ completed positions ∧ ¬ Rivalled n s p := by
  have hscan := collapse_get hqsort htimed hplain hn hs
  have hactive : Active p := by
    unfold Active
    rw [hp]
    decide
  have hlog : p ∈ completed positions ↔ p ∈ skip_identical n s := by
    rw [mem_skip_identical_write hp, hs, mem_sorted hqsort]
  rw [hlog]
  constructor
  · intro hmem
    obtain ⟨o, ho, hmark⟩ := forall₂_mem_right hscan hmem
    obtain ⟨hnot, rfl⟩ := hmark.unmarked hp
    exact ⟨ho, fun hrival => hnot ⟨hactive, hrival⟩⟩
  · rintro ⟨hmem, hnot⟩
    obtain ⟨f, hf, hmark⟩ := forall₂_mem_left hscan hmem
    rw [← hmark.2 fun h => hnot h.2]
    exact hf

/-- The collapse leaves a log of the same kind. -/
theorem collapse_keeps (htimed : ∀ p ∈ completed positions, Timed p)
    (hplain : ∀ p ∈ completed positions, Plain p) {f : Entry}
    (hf : f ∈ positionContainerCollapse qsort positions) : Timed f ∧ Plain f := by
  obtain ⟨o, ho, hmark⟩ := forall₂_mem_right (collapse_get hqsort htimed hplain rfl rfl) hf
  obtain ⟨p, hp, rfl | rfl⟩ := mem_skip_identical ho
  · have hmem : o ∈ completed positions := (mem_sorted hqsort).mp hp
    exact ⟨hmark.timed (htimed o hmem), hmark.plain (hplain o hmem)⟩
  · have hmem : p ∈ completed positions := (mem_sorted hqsort).mp hp
    exact ⟨hmark.timed (htimed p hmem), hmark.plain fun h => absurd h (by decide : 'S'.toUpper ≠ 'R')⟩
end

/-- Without a skipped read, only the other writes of the log count. -/
theorem rivalled_iff_of_reads {n : Nat} {s : List Entry} {p : Entry}
    (hreads : ∀ i k, s[i]? = some k → Skips n s i k → Active k) :
    Rivalled n s p ↔ ∃ k ∈ s, Active k ∧ Beaten p k := by
  rw [rivalled_iff]
  constructor
  · rintro ⟨i, k, hk, hactive | hskip, hbeaten⟩
    · exact ⟨k, List.mem_of_getElem? hk, hactive, hbeaten⟩
    · exact ⟨k, List.mem_of_getElem? hk, hreads i k hk hskip, hbeaten⟩
  · rintro ⟨k, hk, hactive, hbeaten⟩
    obtain ⟨i, hi⟩ := List.mem_iff_getElem?.mp hk
    exact ⟨i, k, hi, .inl hactive, hbeaten⟩

/-! ## The claim of the collapse -/

/-- The extents of two positions of a device have a byte in common. -/
def Overlaps (a b : Entry) : Prop :=
  a.deviceid = b.deviceid ∧ a.pos < b.pos + b.len ∧ b.pos < a.pos + a.len

/-- Where no sum goes past `2 ^ 64`, the scan sees the overlaps. -/
theorem meets_iff_overlaps {a b : Entry} (ha : 0 < a.len) (hb : 0 < b.len)
    (haends : a.pos + a.len < 2 ^ 64) (hbends : b.pos + b.len < 2 ^ 64) :
    Meets a b ↔ Overlaps a b := by
  unfold Meets Overlaps past
  rw [Nat.mod_eq_of_lt haends, Nat.mod_eq_of_lt hbends]
  refine and_congr_right fun _ => ?_
  omega

/-- Every other completed write that overlaps it, and is not the same block, finished before
the write was submitted. -/
def Unchallenged (positions : List Entry) (p : Entry) : Prop :=
  ∀ q ∈ positions, q.finishTime ≠ 0 → q.action = 'W' → Overlaps p q →
    ¬ (p.pos = q.pos ∧ p.len = q.len ∧ p.seed = q.seed) → q.finishTime ≤ p.submitTime

theorem same_block_iff {a b : Entry} :
    same_block a b = true ↔ a.pos = b.pos ∧ a.len = b.len ∧ a.seed = b.seed := by
  simp [same_block, and_assoc]

theorem mem_completed {positions : List Entry} {p : Entry} :
    p ∈ completed positions ↔ p ∈ positions ∧ p.finishTime ≠ 0 := by
  rw [completed, List.mem_filter, decide_eq_true_iff]

theorem plain_of_reads_and_writes {l : List Entry}
    (hactions : ∀ p ∈ l, p.action = 'R' ∨ p.action = 'W') : ∀ p ∈ l, Plain p := by
  intro p hp hread
  obtain h | h := hactions p hp
  · exact h
  · rw [h] at hread
    exact absurd hread (by decide)

section
variable {positions : List Entry} (hactions : ∀ p ∈ positions, p.action = 'R' ∨ p.action = 'W')
include hactions

theorem plain_of_actions {p : Entry} (hp : p ∈ completed positions) : Plain p :=
  plain_of_reads_and_writes hactions p (mem_completed.mp hp).1

theorem active_iff_write {p : Entry} (hp : p ∈ completed positions) :
    Active p ↔ p.action = 'W' := by
  unfold Active
  obtain h | h := hactions p (mem_completed.mp hp).1 <;> simp [h]

theorem unchallenged_iff (hlengths : ∀ p ∈ positions, 0 < p.len)
    (hends : ∀ p ∈ positions, p.pos + p.len < 2 ^ 64) {p : Entry}
    (hp : p ∈ completed positions) :
    Unchallenged positions p ↔ ¬ ∃ k ∈ completed positions, Active k ∧ Beaten p k := by
  have hmeets {k : Entry} (hk : k ∈ positions) : Meets p k ↔ Overlaps p k :=
    meets_iff_overlaps (hlengths p (mem_completed.mp hp).1) (hlengths k hk)
      (hends p (mem_completed.mp hp).1) (hends k hk)
  constructor
  · rintro hfree ⟨k, hk, hactive, hmeet, hblock, hlate⟩
    obtain ⟨hmem, hfinished⟩ := mem_completed.mp hk
    refine hlate (hfree k hmem hfinished ((active_iff_write hactions hk).mp hactive) ?_ ?_)
    · exact (hmeets hmem).mp hmeet
    · rw [← same_block_iff, hblock]
      exact Bool.false_ne_true
  · intro hnone q hmem hfinished hwrite hoverlaps hblock
    have hq : q ∈ completed positions := mem_completed.mpr ⟨hmem, hfinished⟩
    by_contra hlate
    refine hnone ⟨q, hq, (active_iff_write hactions hq).mpr hwrite, ?_, ?_, hlate⟩
    · exact (hmeets hmem).mpr hoverlaps
    · exact Bool.eq_false_iff.mpr fun h => hblock (same_block_iff.mp h)

end

/-- The reads of a log that differ from each other: none is skipped. -/
theorem skipped_active {n i : Nat} {l : List Entry} {k : Entry}
    (hreads : ∀ r : Entry, r.action = 'R' → l.count r ≤ 1) (hk : l[i]? = some k)
    (hskip : Skips n l i k) : Active k := by
  intro hread
  have htwice : 2 ≤ l.count k := hskip.two_le_count hk
  exact absurd (htwice.trans (hreads k hread)) (by decide)

theorem sorted_reads {qsort : List Entry → List Entry} (hqsort : Sorts qsort) {l : List Entry}
    (hreads : ∀ r : Entry, r.action = 'R' → l.count r ≤ 1) (r : Entry) (hr : r.action = 'R') :
    (qsort l).count r ≤ 1 := by
  rw [(hqsort l).1.count_eq]
  exact hreads r hr

theorem read_count_le {l : List Entry} (hreads : (l.filter (·.action = 'R')).Nodup) {r : Entry}
    (hr : r.action = 'R') : l.count r ≤ 1 := by
  rw [← List.count_filter (l := l) (p := fun p => decide (p.action = 'R')) (by simpa using hr)]
  exact List.nodup_iff_count_le_one.mp hreads r

section
variable {qsort : List Entry → List Entry} (hqsort : Sorts qsort) {positions : List Entry}
  (htimed : ∀ p ∈ completed positions, Timed p) (hplain : ∀ p ∈ completed positions, Plain p)
  (hreads : ∀ r : Entry, r.action = 'R' → (completed positions).count r ≤ 1)
include hqsort htimed hplain hreads

/-- With the reads all different, a write survives when no position that is not a read beats
it. -/
theorem survives_iff_of_reads {p : Entry} (hp : p.action = 'W') :
    p ∈ positionContainerCollapse qsort positions ↔
      p ∈ completed positions ∧ ¬ ∃ k ∈ completed positions, Active k ∧ Beaten p k := by
  have hsorted := sorted_reads hqsort hreads
  rw [survives_iff hqsort htimed hplain rfl rfl hp,
    rivalled_iff_of_reads fun i k => skipped_active hsorted]
  simp only [mem_sorted hqsort]

/-- No read comes up twice for the collapse. -/
theorem collapse_reads {r : Entry} (hr : r.action = 'R') :
    (positionContainerCollapse qsort positions).count r ≤ 1 := by
  have hskip : r.action ≠ 'S' := by
    rw [hr]
    decide
  calc (positionContainerCollapse qsort positions).count r
      ≤ (skip_identical (skip_bound (completed positions).length)
          (qsort (completed positions))).count r := by
        refine countP_le_of_forall₂ ((collapse_get hqsort htimed hplain rfl rfl).imp ?_)
        intro o f hmark hf
        rw [beq_iff_eq] at hf ⊢
        subst hf
        by_cases hactive : Active o
        · exact absurd hr (hmark.active_iff.mpr hactive)
        · exact (hmark.2 fun h => hactive h.1).symm
    _ ≤ (qsort (completed positions)).count r := count_skip_identical_le hskip _ _
    _ = (completed positions).count r := (hqsort _).1.count_eq r
    _ ≤ 1 := hreads r hr

/-- The rivals of a position are the same for a second collapse. -/
theorem collapse_rivals {p : Entry} :
    (∃ k ∈ positionContainerCollapse qsort positions, Active k ∧ Beaten p k) ↔
      ∃ k ∈ completed positions, Active k ∧ Beaten p k := by
  have hscan := collapse_get hqsort htimed hplain rfl rfl
  have hsorted := sorted_reads hqsort hreads
  have hrivalled := rivalled_iff_of_reads (p := p)
    (n := skip_bound (completed positions).length) fun i k => skipped_active hsorted (i := i)
  simp only [mem_sorted hqsort] at hrivalled
  rw [← hrivalled]
  constructor
  · rintro ⟨f, hf, hactive, hbeaten⟩
    obtain ⟨o, ho, hmark⟩ := forall₂_mem_right hscan hf
    exact ⟨o, ho, hmark.active_iff.mp hactive,
      ((Relabelled.of_not not_false p).beaten_iff hmark).mp hbeaten⟩
  · rintro ⟨o, ho, hactive, hbeaten⟩
    obtain ⟨f, hf, hmark⟩ := forall₂_mem_left hscan ho
    exact ⟨f, hf, hmark.active_iff.mpr hactive,
      ((Relabelled.of_not not_false p).beaten_iff hmark).mpr hbeaten⟩

end

theorem completed_reads {positions : List Entry}
    (hreads : (positions.filter (·.action = 'R')).Nodup) {r : Entry} (hr : r.action = 'R') :
    (completed positions).count r ≤ 1 :=
  (List.filter_sublist.count_le r).trans (read_count_le hreads hr)

theorem completed_timed {positions : List Entry}
    (htimed : ∀ p ∈ positions, p.finishTime ≠ 0 → p.submitTime < p.finishTime) {p : Entry}
    (hp : p ∈ completed positions) : Timed p :=
  htimed p (mem_completed.mp hp).1 (mem_completed.mp hp).2

section
variable {qsort : List Entry → List Entry} (hqsort : Sorts qsort) {positions : List Entry}
  (hactions : ∀ p ∈ positions, p.action = 'R' ∨ p.action = 'W')
  (hlengths : ∀ p ∈ positions, 0 < p.len)
  (hends : ∀ p ∈ positions, p.pos + p.len < 2 ^ 64)
  (hreads : (positions.filter (·.action = 'R')).Nodup)
  (htimed : ∀ p ∈ positions, p.finishTime ≠ 0 → p.submitTime < p.finishTime)
include hqsort hactions hlengths hends hreads htimed

theorem survives_iff_unchallenged {p : Entry} (hp : p.action = 'W') :
    p ∈ positionContainerCollapse qsort positions ↔
      p ∈ completed positions ∧ Unchallenged positions p := by
  rw [survives_iff_of_reads hqsort (fun p => completed_timed htimed)
    (fun p => plain_of_actions hactions) (fun r => completed_reads hreads) hp]
  exact and_congr_right fun hmem => (unchallenged_iff hactions hlengths hends hmem).symm

/-- One entry of the sorted log, and what becomes of it. -/
theorem entry_of_collapse {i : Nat} {o f : Entry} (ho : (qsort (completed positions))[i]? = some o)
    (hf : (positionContainerCollapse qsort positions)[i]? = some f) :
    (∃ c, f = with_action o c) ∧ (o.action = 'R' → f = o) ∧
      (o.action = 'W' → ¬ Skips (skip_bound (completed positions).length)
        (qsort (completed positions)) i o → (f.action = 'W' ↔ Unchallenged positions o)) := by
  have hmem : o ∈ completed positions := (mem_sorted hqsort).mp (List.mem_of_getElem? ho)
  have hsorted := sorted_reads hqsort fun r => completed_reads hreads (r := r)
  have hskipped := skip_identical.spec (skip_bound (completed positions).length)
    (qsort (completed positions)) i
  rw [ho, Option.map_some] at hskipped
  have hmark := forall₂_getElem? (collapse_get hqsort (fun p => completed_timed htimed)
    (fun p => plain_of_actions hactions) rfl rfl) hskipped hf
  refine ⟨?_, fun hread => ?_, fun hwrite hkept => ?_⟩
  · split at hmark
    · obtain rfl | ⟨c, -, rfl⟩ := hmark.cases
      · exact ⟨'S', rfl⟩
      · exact ⟨c, rfl⟩
    · obtain rfl | ⟨c, -, rfl⟩ := hmark.cases
      · exact ⟨f.action, rfl⟩
      · exact ⟨c, rfl⟩
  · have hactive : ¬ Active o := not_not.mpr hread
    rw [if_neg fun h => hactive (skipped_active hsorted ho h)] at hmark
    exact hmark.2 fun h => hactive h.1
  · rw [if_neg hkept, rivalled_iff_of_reads fun i k => skipped_active hsorted] at hmark
    simp only [mem_sorted hqsort] at hmark
    rw [unchallenged_iff hactions hlengths hends hmem]
    have hactive : Active o := (active_iff_write hactions hmem).mpr hwrite
    constructor
    · exact fun hf hrival => (hmark.unmarked hf).1 ⟨hactive, hrival⟩
    · intro hnone
      rw [hmark.2 fun h => hnone h.2]
      exact hwrite

/-- Of two writes that overlap, and are not the same block, one is not left. -/
theorem survivors_same_block {p q : Entry} (hp : p ∈ positionContainerCollapse qsort positions)
    (hq : q ∈ positionContainerCollapse qsort positions) (hpw : p.action = 'W')
    (hqw : q.action = 'W') (hoverlaps : Overlaps p q) :
    p.pos = q.pos ∧ p.len = q.len ∧ p.seed = q.seed := by
  have hsurvives {k : Entry} := survives_iff_unchallenged hqsort hactions hlengths hends hreads htimed
    (p := k)
  obtain ⟨hpc, hpfree⟩ := (hsurvives hpw).mp hp
  obtain ⟨hqc, hqfree⟩ := (hsurvives hqw).mp hq
  obtain ⟨hpmem, hpfinished⟩ := mem_completed.mp hpc
  obtain ⟨hqmem, hqfinished⟩ := mem_completed.mp hqc
  by_contra hblock
  have hfirst : q.finishTime ≤ p.submitTime :=
    hpfree q hqmem hqfinished hqw hoverlaps hblock
  have hsecond : p.finishTime ≤ q.submitTime := by
    refine hqfree p hpmem hpfinished hpw ⟨hoverlaps.1.symm, hoverlaps.2.symm⟩ fun h => hblock ?_
    exact ⟨h.1.symm, h.2.1.symm, h.2.2.symm⟩
  have hp := htimed p hpmem hpfinished
  have hq := htimed q hqmem hqfinished
  exact absurd (hfirst.trans_lt (hp.trans_le hsecond)) (not_lt.mpr hq.le)

end

/-- The collapse is exact for reads and writes that end below `2 ^ 64`. -/
theorem a_write_survives_when_no_other_write_ran_over_it {qsort : List Entry → List Entry}
    (hqsort : Sorts qsort) {positions : List Entry}
    (hactions : ∀ p ∈ positions, p.action = 'R' ∨ p.action = 'W')
    (hlengths : ∀ p ∈ positions, 0 < p.len)
    (hends : ∀ p ∈ positions, p.pos + p.len < 2 ^ 64)
    (hreads : (positions.filter (·.action = 'R')).Nodup)
    (htimed : ∀ p ∈ positions, p.finishTime ≠ 0 → p.submitTime < p.finishTime) :
    let s := qsort (completed positions)
    let r := positionContainerCollapse qsort positions
    s.Perm (completed positions) ∧ (s.Pairwise fun a b => poscompare a b ≠ .gt) ∧
    r.length = s.length ∧
    (∀ i o f, s[i]? = some o → r[i]? = some f →
      (∃ c, f = with_action o c) ∧ (o.action = 'R' → f = o) ∧
      (o.action = 'W' → ¬ Skips (skip_bound s.length) s i o →
        (f.action = 'W' ↔ Unchallenged positions o))) ∧
    (∀ p ∈ r, ∀ q ∈ r, p.action = 'W' → q.action = 'W' → Overlaps p q →
      p.pos = q.pos ∧ p.len = q.len ∧ p.seed = q.seed) ∧
    ∀ p : Entry, p.action = 'W' → (p ∈ positionContainerCollapse qsort r ↔ p ∈ r) := by
  have htimed' := fun p => completed_timed htimed (p := p)
  have hplain := fun p => plain_of_actions hactions (p := p)
  have hreads' := fun r => completed_reads hreads (r := r)
  refine ⟨(hqsort _).1, (hqsort _).2, ?_, fun i o f ho hf => ?_, fun p hp q hq hpw hqw => ?_,
    fun p hp => ?_⟩
  · rw [← (collapse_get hqsort htimed' hplain rfl rfl).length_eq, ← List.length_map key,
      skip_identical_keys, List.length_map]
  · rw [(hqsort _).1.length_eq]
    exact entry_of_collapse hqsort hactions hlengths hends hreads htimed ho hf
  · exact survivors_same_block hqsort hactions hlengths hends hreads htimed hp hq hpw hqw
  · have hkeeps := fun f => collapse_keeps hqsort htimed' hplain (f := f)
    have hagain : completed (positionContainerCollapse qsort positions) =
        positionContainerCollapse qsort positions :=
      List.filter_eq_self.mpr fun f hf => by simpa using (hkeeps f hf).1.finished.ne'
    rw [survives_iff_of_reads hqsort (by rw [hagain]; exact fun f hf => (hkeeps f hf).1)
      (by rw [hagain]; exact fun f hf => (hkeeps f hf).2)
      (by rw [hagain]; exact fun r => collapse_reads hqsort htimed' hplain hreads') hp, hagain,
      collapse_rivals hqsort htimed' hplain hreads']
    refine and_iff_left_of_imp fun hmem => ?_
    exact ((survives_iff_of_reads hqsort htimed' hplain hreads' hp).mp hmem).2

/-- A completed position of a device. -/
def entry (pos len seed submitTime finishTime : Nat) (action : Char) : Entry :=
  { positionType.zero with pos, len, seed, submitTime, finishTime, action, rest := 0 }

/-- Two writes, of which the second runs into the first after it, and a read of them. -/
def two_writes : List Entry :=
  [entry 0 4096 1 1 2 'W', entry 2048 4096 2 3 4 'W', entry 0 8192 0 5 6 'R']

theorem two_writes_collapse :
    (positionContainerCollapse sort_by_insertion two_writes).length = 3 ∧
      ∀ p ∈ two_writes, p.action = 'W' →
        (p ∈ positionContainerCollapse sort_by_insertion
            (positionContainerCollapse sort_by_insertion two_writes) ↔
          p ∈ positionContainerCollapse sort_by_insertion two_writes) := by
  obtain ⟨-, -, hlength, -, -, hagain⟩ := a_write_survives_when_no_other_write_ran_over_it
    sort_by_insertion.spec (by decide : ∀ p ∈ two_writes, p.action = 'R' ∨ p.action = 'W')
    (by decide) (by decide) (by decide) (by decide)
  exact ⟨hlength.trans (by decide), fun p _ => hagain p⟩

/-- Two writes of the last block before `2 ^ 64`, which run into each other. -/
def last_block : List Entry :=
  [entry (2 ^ 64 - 4096) 4096 1 1 2 'W', entry (2 ^ 64 - 4096) 4096 2 1 3 'W']

/-- The scan sees no end of them, and both are left. -/
theorem the_writes_of_the_last_block_are_both_left :
    Sorts sort_by_insertion ∧ (∀ p ∈ last_block, 0 < p.len ∧ p.submitTime < p.finishTime) ∧
    (∀ p ∈ last_block, p.action = 'W' ∧ p ∈ positionContainerCollapse sort_by_insertion last_block) ∧
    ∃ p ∈ last_block, ∃ q ∈ last_block, Overlaps p q ∧ p.seed ≠ q.seed ∧
      ¬ Unchallenged last_block p := by
  have hactions : ∀ p ∈ last_block, p.action = 'R' ∨ p.action = 'W' := by decide
  have htimed : ∀ p ∈ last_block, p.finishTime ≠ 0 → p.submitTime < p.finishTime := by decide
  have hwrite : ∀ p ∈ last_block, p.action = 'W' := by decide
  refine ⟨sort_by_insertion.spec, by decide, fun p hp => ⟨hwrite p hp, ?_⟩,
    entry (2 ^ 64 - 4096) 4096 1 1 2 'W', by decide, entry (2 ^ 64 - 4096) 4096 2 1 3 'W', by decide,
    ⟨rfl, by decide, by decide⟩, by decide, fun hfree => ?_⟩
  · rw [survives_iff_of_reads sort_by_insertion.spec (fun p => completed_timed htimed)
      (fun p => plain_of_actions hactions) (fun r => completed_reads (by decide)) (hwrite p hp)]
    have hnone : ∀ p ∈ last_block, p ∈ completed last_block ∧
        ¬ ∃ k ∈ completed last_block, Active k ∧ Beaten p k := by decide
    exact hnone p hp
  · have hlate := hfree (entry (2 ^ 64 - 4096) 4096 2 1 3 'W') (by decide) (by decide) rfl
      ⟨rfl, by decide, by decide⟩ (by decide)
    exact absurd hlate (by decide)

end stutools.spit.collapse
