-- The merge of position logs (src/c/spit/positions.c): what it leaves of a set of records.
-- A read that stands in the logs twice loses its action to the mark of a skipped copy, and the
-- scan then takes it for a write.
import Stutools.SpitSurvivors

namespace stutools.spit.collapse

/-- What a record of the log says of its position. -/
def record (p : Entry) : Nat × Nat × Nat × Nat × ℚ≥0 × ℚ≥0 :=
  (p.deviceid, p.pos, p.len, p.seed, p.submitTime, p.finishTime)

/-- The records of the entries that are left as writes. -/
def survivors (positions : List Entry) : Set (Nat × Nat × Nat × Nat × ℚ≥0 × ℚ≥0) :=
  {x | ∃ p ∈ positions, p.action = 'W' ∧ record p = x}

theorem beaten_of_record {a b k : Entry} (h : record a = record b) : Beaten a k ↔ Beaten b k := by
  unfold record at h
  simp only [Prod.mk.injEq] at h
  obtain ⟨hdev, hpos, hlen, hseed, hsubmit, -⟩ := h
  unfold Beaten Meets same_block past
  rw [hdev, hpos, hlen, hseed, hsubmit]

/-- Another write of the log beats the position. -/
def Overwritten (l : List Entry) (w : Entry) : Prop := ∃ k ∈ l, k.action = 'W' ∧ Beaten w k

/-- A read of the log that is in it again, with fewer positions before it in the order than
there are comparisons with the next one, beats a write that no other write beats. -/
def RepeatedReadBeats (l : List Entry) : Prop :=
  ∃ r ∈ l, r.action = 'R' ∧ 2 ≤ l.count r ∧
    l.countP (fun p => poscompare p r = .lt) < skip_bound l.length ∧
    ∃ w ∈ l, w.action = 'W' ∧ ¬ Overwritten l w ∧ Beaten w r

/-! ## What a sort may do with copies -/

section
variable (r : Entry) (l : List Entry)

/-- The positions before `r` in the order, and the rest. -/
def before : List Entry := l.filter fun p => decide (poscompare p r = .lt)
def not_before : List Entry := l.filter fun p => !decide (poscompare p r = .lt)

/-- A sort that puts the copies of `r` before the positions that compare equal to it. -/
def huddled : List Entry :=
  sort_by_insertion (before r l) ++ ((not_before r l).filter (· == r) ++
    sort_by_insertion ((not_before r l).filter fun p => !(p == r)))

theorem huddled_perm : (huddled r l).Perm l := by
  have hcopies : ((not_before r l).filter (· == r) ++
      sort_by_insertion ((not_before r l).filter fun p => !(p == r))).Perm (not_before r l) :=
    (List.Perm.append_left _ (sort_by_insertion.spec _).1).trans (List.filter_append_perm _ _)
  exact ((sort_by_insertion.spec _).1.append hcopies).trans (List.filter_append_perm _ _)

theorem poscompare_of_not_before {p : Entry} (hp : p ∈ not_before r l) : poscompare r p ≠ .gt := by
  have hnot := (List.mem_filter.mp hp).2
  rw [Bool.not_eq_true', decide_eq_false_iff_not, ← key_lt_iff, not_lt] at hnot
  exact key_le_iff.mp hnot

theorem huddled_sorted : (huddled r l).Pairwise fun a b => poscompare a b ≠ .gt := by
  have hcopy : ∀ {a}, a ∈ (not_before r l).filter (· == r) → a = r := fun ha =>
    eq_of_beq (List.mem_filter.mp ha).2
  have hself : poscompare r r ≠ .gt := key_le_iff.mp le_rfl
  unfold huddled
  rw [List.pairwise_append, List.pairwise_append]
  refine ⟨(sort_by_insertion.spec _).2, ⟨?_, (sort_by_insertion.spec _).2, ?_⟩, ?_⟩
  · exact List.pairwise_of_forall_mem_list fun a ha b hb => by rwa [hcopy ha, hcopy hb]
  · intro a ha b hb
    rw [hcopy ha]
    have hb := (sort_by_insertion.spec _).1.mem_iff.mp hb
    exact poscompare_of_not_before r l (List.mem_of_mem_filter hb)
  · intro a ha b hb
    have ha := (sort_by_insertion.spec _).1.mem_iff.mp ha
    have hlt : key a < key r := key_lt_iff.mpr (by simpa [before] using (List.mem_filter.mp ha).2)
    have hle : key r ≤ key b := by
      rw [List.mem_append] at hb
      obtain hb | hb := hb
      · rw [hcopy hb]
      · have hb := (sort_by_insertion.spec _).1.mem_iff.mp hb
        exact key_le_iff.mpr (poscompare_of_not_before r l (List.mem_of_mem_filter hb))
    exact key_le_iff.mp (hlt.trans_le hle).le

theorem huddled.spec : Sorts (huddled r) := fun l => ⟨huddled_perm r l, huddled_sorted r l⟩

/-- Two copies of `r` stand side by side right after the positions before them. -/
theorem huddled_copies (h : 2 ≤ l.count r) :
    (huddled r l)[(before r l).length]? = some r ∧
      (huddled r l)[(before r l).length + 1]? = some r := by
  have hcount : (not_before r l).count r = l.count r := by
    have hself : ¬ poscompare r r = .lt := fun h => absurd (key_lt_iff.mpr h) (lt_irrefl _)
    exact List.count_filter (by simpa using hself)
  have hcopies : (not_before r l).filter (· == r) = List.replicate (l.count r) r := by
    rw [List.filter_beq, hcount]
  have hlength : (sort_by_insertion (before r l)).length = (before r l).length :=
    (sort_by_insertion.spec _).1.length_eq
  unfold huddled
  rw [hcopies]
  constructor
  · rw [List.getElem?_append_right (by omega), hlength, Nat.sub_self,
      List.getElem?_append_left (by rw [List.length_replicate]; omega),
      List.getElem?_replicate_of_lt (by omega)]
  · rw [List.getElem?_append_right (by omega), hlength, Nat.add_sub_cancel_left,
      List.getElem?_append_left (by rw [List.length_replicate]; omega),
      List.getElem?_replicate_of_lt (by omega)]

end

/-- In a sorted list, the positions before an entry in the order stand before it. -/
theorem countP_before_le {s : List Entry} (hs : s.Pairwise fun a b => poscompare a b ≠ .gt)
    {i : Nat} {k : Entry} (hk : s[i]? = some k) :
    s.countP (fun p => poscompare p k = .lt) ≤ i := by
  have hdrop : (s.drop i).countP (fun p => poscompare p k = .lt) = 0 := by
    rw [List.countP_eq_zero]
    intro p hp
    rw [decide_eq_true_iff]
    rw [List.drop_eq_getElem?_toList_append, hk] at hp
    have hrest := hs.sublist (List.drop_sublist i s)
    rw [List.drop_eq_getElem?_toList_append, hk] at hrest
    intro hlt
    have hlt := key_lt_iff.mpr hlt
    obtain rfl | hp := List.mem_cons.mp hp
    · exact lt_irrefl _ hlt
    · exact absurd hlt (not_lt.mpr (key_le_iff.mpr ((List.pairwise_cons.mp hrest).1 p hp)))
  calc s.countP (fun p => poscompare p k = .lt)
      = (s.take i).countP (fun p => poscompare p k = .lt) := by
        rw [← List.take_append_drop i s, List.countP_append, hdrop, Nat.add_zero,
          List.take_append_drop]
    _ ≤ (s.take i).length := List.countP_le_length
    _ ≤ i := List.length_take_le i s

/-! ## Which writes are left -/

/-- A position that counts as a write beats this one. -/
def Struck (l : List Entry) (w : Entry) : Prop := ∃ k ∈ l, Active k ∧ Beaten w k

/-- A read that is in the list again, with fewer positions before it in the order than there are
comparisons with the next one. -/
def Repeated (l : List Entry) (r : Entry) : Prop :=
  r.action = 'R' ∧ 2 ≤ l.count r ∧
    l.countP (fun p => poscompare p r = .lt) < skip_bound l.length

section
variable {qsort : List Entry → List Entry} (hqsort : Sorts qsort) {l : List Entry}

/-- A rival of a position is one that counts as a write, or a read that was skipped. -/
theorem rivalled_iff_struck (hqsort : Sorts qsort) {n : Nat} {w : Entry} :
    Rivalled n (qsort l) w ↔ Struck l w ∨
      ∃ i k, (qsort l)[i]? = some k ∧ k.action = 'R' ∧ Skips n (qsort l) i k ∧ Beaten w k := by
  rw [rivalled_iff]
  constructor
  · rintro ⟨i, k, hk, hrival, hbeaten⟩
    by_cases hread : k.action = 'R'
    · exact .inr ⟨i, k, hk, hread, hrival.resolve_left (not_not.mpr hread), hbeaten⟩
    · exact .inl ⟨k, (mem_sorted hqsort).mp (List.mem_of_getElem? hk), hread, hbeaten⟩
  · rintro (⟨k, hk, hactive, hbeaten⟩ | ⟨i, k, hk, -, hskip, hbeaten⟩)
    · obtain ⟨i, hi⟩ := List.mem_iff_getElem?.mp ((mem_sorted hqsort).mpr hk)
      exact ⟨i, k, hi, .inl hactive, hbeaten⟩
    · exact ⟨i, k, hk, .inr hskip, hbeaten⟩

/-- What is skipped is repeated. -/
theorem Skips.repeated (hqsort : Sorts qsort) {i : Nat} {k : Entry} (hk : (qsort l)[i]? = some k)
    (hread : k.action = 'R') (hskip : Skips (skip_bound l.length) (qsort l) i k) :
    k ∈ l ∧ Repeated l k := by
  refine ⟨(mem_sorted hqsort).mp (List.mem_of_getElem? hk), hread, ?_, ?_⟩
  · rw [← (hqsort l).1.count_eq]
    exact hskip.two_le_count hk
  · rw [← (hqsort l).1.countP_eq]
    exact (countP_before_le (hqsort l).2 hk).trans_lt hskip.1

variable (hplain : ∀ p ∈ l, Plain p) (htimed : ∀ p ∈ l, Timed p)
include htimed

theorem completed_eq_self : completed l = l :=
  List.filter_eq_self.mpr fun p hp => by simpa using (htimed p hp).finished.ne'

include hqsort hplain

theorem write_survives_iff {w : Entry} (hw : w.action = 'W') :
    w ∈ positionContainerCollapse qsort l ↔
      w ∈ l ∧ ¬ Rivalled (skip_bound l.length) (qsort l) w := by
  have hcompleted := completed_eq_self htimed
  rw [survives_iff hqsort (by rwa [hcompleted]) (by rwa [hcompleted]) rfl rfl hw, hcompleted]

/-- When the repeated reads beat a write only if something else does, its other rivals count. -/
theorem write_survives_of_repeated {w : Entry} (hw : w.action = 'W')
    (hrepeated : ∀ r ∈ l, Repeated l r → w ∈ l → Beaten w r → Struck l w) :
    w ∈ positionContainerCollapse qsort l ↔ w ∈ l ∧ ¬ Struck l w := by
  rw [write_survives_iff hqsort hplain htimed hw, rivalled_iff_struck hqsort]
  refine and_congr_right fun hmem => not_congr (or_iff_left_of_imp ?_)
  rintro ⟨i, k, hk, hread, hskip, hbeaten⟩
  obtain ⟨hkl, hrep⟩ := hskip.repeated hqsort hk hread
  exact hrepeated k hkl hrep hmem hbeaten

end

/-- A sort may put the copies of a repeated read side by side, and then it beats what it can. -/
theorem write_lost_to_repeated {l : List Entry} (hplain : ∀ p ∈ l, Plain p)
    (htimed : ∀ p ∈ l, Timed p) {r w : Entry} (hr : Repeated l r) (hw : w.action = 'W')
    (hbeaten : Beaten w r) : w ∉ positionContainerCollapse (huddled r) l := by
  obtain ⟨hread, htwice, hbound⟩ := hr
  obtain ⟨hcopy, hnext⟩ := huddled_copies r l htwice
  rw [write_survives_iff (huddled.spec r) hplain htimed hw, rivalled_iff_struck (huddled.spec r)]
  refine fun hsurvives => hsurvives.2 (.inr ⟨_, r, hcopy, hread, ⟨?_, hnext⟩, hbeaten⟩)
  rwa [before, ← List.countP_eq_length_filter]

/-! ## A merge of a set of records -/

theorem struck_iff_overwritten {l : List Entry}
    (hactions : ∀ p ∈ l, p.action = 'R' ∨ p.action = 'W') {w : Entry} :
    Struck l w ↔ Overwritten l w := by
  refine exists_congr fun k => and_congr_right fun hk => and_congr_left fun _ => ?_
  unfold Active
  obtain h | h := hactions k hk <;> simp [h]

/-- Without repetitions a write survives when no other one beats it. -/
theorem survives_once {records : List Entry} (hrecords : records.Nodup)
    (hactions : ∀ p ∈ records, p.action = 'R' ∨ p.action = 'W')
    (htimed : ∀ p ∈ records, p.submitTime < p.finishTime) {qsort : List Entry → List Entry}
    (hqsort : Sorts qsort) {w : Entry} (hw : w.action = 'W') :
    w ∈ positionContainerMerge qsort [records] ↔ w ∈ records ∧ ¬ Overwritten records w := by
  unfold positionContainerMerge
  rw [List.flatten_singleton, ← struck_iff_overwritten hactions]
  refine write_survives_of_repeated hqsort (plain_of_reads_and_writes hactions) htimed hw ?_
  rintro r - ⟨-, htwice, -⟩
  exact absurd (htwice.trans (List.nodup_iff_count_le_one.mp hrecords r)) (by decide)

theorem survivors_eq_of_iff {l l' : List Entry}
    (h : ∀ w : Entry, w.action = 'W' → (w ∈ l ↔ w ∈ l')) : survivors l = survivors l' := by
  ext x
  refine exists_congr fun p => ⟨fun ⟨hp, hw, hx⟩ => ?_, fun ⟨hp, hw, hx⟩ => ?_⟩
  · exact ⟨(h p hw).mp hp, hw, hx⟩
  · exact ⟨(h p hw).mpr hp, hw, hx⟩

/-- The merge of logs depends on the set of their records alone when no repeated read beats a
write, and only then. -/
theorem a_merge_is_of_the_records_until_a_repeated_read_beats_a_write {records : List Entry}
    (hrecords : records.Nodup) (hactions : ∀ p ∈ records, p.action = 'R' ∨ p.action = 'W')
    (htimed : ∀ p ∈ records, p.submitTime < p.finishTime) {containers : List (List Entry)}
    (hsame : ∀ p, p ∈ containers.flatten ↔ p ∈ records) :
    (∀ qsort qsort', Sorts qsort → Sorts qsort' →
      survivors (positionContainerMerge qsort containers) =
        survivors (positionContainerMerge qsort' [records])) ↔
      ¬ RepeatedReadBeats containers.flatten := by
  have hactions' : ∀ p ∈ containers.flatten, p.action = 'R' ∨ p.action = 'W' :=
    fun p hp => hactions p ((hsame p).mp hp)
  have htimed' : ∀ p ∈ containers.flatten, p.submitTime < p.finishTime :=
    fun p hp => htimed p ((hsame p).mp hp)
  have hplain := plain_of_reads_and_writes hactions'
  have hoverwritten {w : Entry} : Overwritten containers.flatten w ↔ Overwritten records w :=
    exists_congr fun k => and_congr_left fun _ => hsame k
  constructor
  · rintro hequal ⟨r, -, hread, htwice, hbound, w, hw, hwrite, hfree, hbeaten⟩
    have hsurvives : record w ∈ survivors (positionContainerMerge sort_by_insertion [records]) := by
      refine ⟨w, ?_, hwrite, rfl⟩
      rw [survives_once hrecords hactions htimed sort_by_insertion.spec hwrite, ← hoverwritten]
      exact ⟨(hsame w).mp hw, hfree⟩
    rw [← hequal (huddled r) _ (huddled.spec r) sort_by_insertion.spec] at hsurvives
    obtain ⟨w', hw', hwrite', hrecord⟩ := hsurvives
    exact write_lost_to_repeated hplain htimed' ⟨hread, htwice, hbound⟩ hwrite'
      ((beaten_of_record hrecord).mpr hbeaten) hw'
  · intro hnone qsort qsort' hqsort hqsort'
    refine survivors_eq_of_iff fun w hwrite => ?_
    rw [survives_once hrecords hactions htimed hqsort' hwrite, ← hoverwritten, ← hsame,
      ← struck_iff_overwritten hactions']
    unfold positionContainerMerge
    refine write_survives_of_repeated hqsort hplain htimed' hwrite ?_
    rintro r hr ⟨hread, htwice, hbound⟩ hw hbeaten
    by_contra hfree
    rw [struck_iff_overwritten hactions'] at hfree
    exact hnone ⟨r, hr, hread, htwice, hbound, w, hw, hwrite, hfree, hbeaten⟩

/-- A write. -/
def one_write : Entry := entry 0 4096 1 1 2 'W'

/-- A read of a part of it, submitted with it. -/
def one_read : Entry := entry 2048 4096 2 1 3 'R'

/-- A write that is loaded twice changes nothing, and neither does another sort. -/
theorem a_write_repeated_changes_nothing :
    survivors (positionContainerMerge (huddled one_write) [[one_write, one_read], [one_write]]) =
      survivors (positionContainerMerge sort_by_insertion [[one_write, one_read]]) := by
  refine (a_merge_is_of_the_records_until_a_repeated_read_beats_a_write (by decide) (by decide)
    (by decide) ?_).mpr ?_ _ _ (huddled.spec _) sort_by_insertion.spec
  · intro p
    show p ∈ [one_write, one_read, one_write] ↔ p ∈ [one_write, one_read]
    grind
  · rintro ⟨r, hr, hread, htwice, -⟩
    have hall : ∀ r ∈ [one_write, one_read, one_write],
        r.action = 'R' → [one_write, one_read, one_write].count r < 2 := by decide
    exact absurd htwice (not_le.mpr (hall r hr hread))

/-- A log that is loaded twice loses its write, for the read of it counts as a write then. -/
theorem a_log_loaded_twice_loses_its_write :
    Sorts sort_by_insertion ∧ [one_write, one_read].Nodup ∧
    (∀ p ∈ [one_write, one_read], (p.action = 'R' ∨ p.action = 'W') ∧
      p.submitTime < p.finishTime) ∧
    record one_write ∈ survivors
      (positionContainerMerge sort_by_insertion [[one_write, one_read]]) ∧
    record one_write ∉ survivors (positionContainerMerge sort_by_insertion
      [[one_write, one_read], [one_write, one_read]]) := by
  refine ⟨sort_by_insertion.spec, by decide, by decide, ⟨one_write, ?_, rfl, rfl⟩, ?_⟩
  · rw [survives_once (by decide) (by decide) (by decide) sort_by_insertion.spec rfl]
    exact ⟨List.mem_cons_self, by unfold Overwritten; decide⟩
  · rintro ⟨p, hp, hwrite, -⟩
    unfold positionContainerMerge at hp
    rw [write_survives_iff sort_by_insertion.spec (plain_of_reads_and_writes (by decide))
      (by unfold Timed; decide) hwrite, rivalled_iff_struck sort_by_insertion.spec] at hp
    have honly : ∀ p ∈ [[one_write, one_read], [one_write, one_read]].flatten,
        p.action = 'W' → Beaten p one_read := by decide
    exact hp.2 (.inr ⟨2, one_read, by decide, rfl, by decide, honly p hp.1 hwrite⟩)

end stutools.spit.collapse
