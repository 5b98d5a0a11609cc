-- A position file that a run saved, and its verification (src/c/spit/positions.c, verify.c): the
-- verifier comes to the same writes when no position failed and no read turns into a copy.
import Stutools.SpitReload

open texts stdio

namespace stutools.spit.collapse

/-! ## What a merged log is like -/

/-- A collapse marks some of the sorted positions. -/
theorem collapse_marked (qsort : List Entry → List Entry) (positions : List Entry) :
    List.Forall₂ Marked (qsort (completed positions))
      (positionContainerCollapse qsort positions) := by
  unfold positionContainerCollapse
  dsimp only
  rw [compact.spec]
  exact forall₂_trans (fun _ _ _ h h' => h.trans h') (skip_identical_marked _ _)
    (collapse_conflicts_marked _)

theorem Marked.key {o f : Entry} (h : Marked o f) : key f = key o := by
  obtain rfl | ⟨c, -, rfl⟩ := h <;> rfl

theorem keys_of_marked {l l' : List Entry} (h : List.Forall₂ Marked l l') :
    l'.map key = l.map key := by
  induction h with
  | nil => rfl
  | cons h _ ih => rw [List.map_cons, List.map_cons, ih, h.key]

/-- What a merge of reads and writes leaves of their actions. -/
def left_actions : List Char := ['R', 'W', 'S', '1', '2', '3', '4']

section
variable {qsort : List Entry → List Entry} (hqsort : Sorts qsort) {positions : List Entry}
include hqsort

theorem collapse_sorted :
    (positionContainerCollapse qsort positions).Pairwise fun a b => poscompare a b ≠ .gt := by
  have hsorted := sorted_by_key hqsort (completed positions)
  rw [← List.pairwise_map, ← keys_of_marked (collapse_marked qsort positions),
    List.pairwise_map] at hsorted
  exact hsorted.imp key_le_iff.mp

theorem mem_collapse {f : Entry} (hf : f ∈ positionContainerCollapse qsort positions) :
    ∃ o ∈ completed positions, Marked o f := by
  obtain ⟨o, ho, hmark⟩ := forall₂_mem_right (collapse_marked qsort positions) hf
  exact ⟨o, (mem_sorted hqsort).mp ho, hmark⟩

theorem collapse_actions (hactions : ∀ p ∈ positions, p.action = 'R' ∨ p.action = 'W') {f : Entry}
    (hf : f ∈ positionContainerCollapse qsort positions) : f.action ∈ left_actions := by
  obtain ⟨o, ho, rfl | ⟨c, hc, rfl⟩⟩ := mem_collapse hqsort hf
  · obtain h | h := hactions f (mem_completed.mp ho).1 <;> rw [h] <;> decide
  · exact List.mem_cons_of_mem _ (List.mem_cons_of_mem _ hc)

/-- Of two adjacent copies of a read, the first one was skipped. -/
theorem collapse_reads_apart {i : Nat} {r : Entry} (hread : r.action = 'R')
    (hi : (positionContainerCollapse qsort positions)[i]? = some r)
    (hnext : (positionContainerCollapse qsort positions)[i + 1]? = some r) :
    ¬ i < skip_bound (positionContainerCollapse qsort positions).length := by
  intro hlt
  rw [← (collapse_marked qsort positions).length_eq, (hqsort _).1.length_eq] at hlt
  have hscan : List.Forall₂ Marked
      (skip_identical (skip_bound (completed positions).length) (qsort (completed positions)))
      (positionContainerCollapse qsort positions) := by
    unfold positionContainerCollapse
    dsimp only
    rw [compact.spec, compact_sz]
    exact collapse_conflicts_marked _
  -- neither of the two is marked
  obtain ⟨o, ho, hmark⟩ := forall₂_getElem?_right hscan hi
  obtain rfl := hmark.read hread
  obtain ⟨o', ho', hmark'⟩ := forall₂_getElem?_right hscan hnext
  obtain rfl := hmark'.read hread
  rw [skip_identical.spec] at ho ho'
  obtain ⟨p, hp, hskip⟩ := Option.map_eq_some_iff.mp ho
  obtain ⟨q, hq, hskip'⟩ := Option.map_eq_some_iff.mp ho'
  have hkept {n j : Nat} {x : Entry} (h : (if Skips n (qsort (completed positions)) j x then
      with_action x 'S' else x) = r) : x = r ∧ ¬ Skips n (qsort (completed positions)) j x := by
    split at h
    · rw [← h] at hread
      exact absurd hread (by decide : 'S' ≠ 'R')
    · exact ⟨h, by assumption⟩
  obtain ⟨rfl, hnot⟩ := hkept hskip
  exact hnot ⟨hlt, by rw [hq, (hkept hskip').1]⟩

end

/-- A sort that leaves the sorted list `l` as it is. -/
def keep_sorted (l : List Entry) (l' : List Entry) : List Entry :=
  if l' = l then l else sort_by_insertion l'

theorem keep_sorted.spec {l : List Entry} (h : l.Pairwise fun a b => poscompare a b ≠ .gt) :
    Sorts (keep_sorted l) := by
  intro l'
  unfold keep_sorted
  split
  · rename_i heq
    rw [heq]
    exact ⟨List.Perm.refl l, h⟩
  · exact sort_by_insertion.spec l'

/-- A merged log that is collapsed again, in its order, keeps the writes that nothing beats. -/
theorem write_survives_of_merged {qsort : List Entry → List Entry} (hqsort : Sorts qsort)
    {positions l : List Entry} (hl : l = positionContainerCollapse qsort positions)
    (hplain : ∀ p ∈ l, Plain p) (htimed : ∀ p ∈ l, Timed p) {w : Entry} (hw : w.action = 'W') :
    w ∈ positionContainerCollapse (keep_sorted l) l ↔ w ∈ l ∧ ¬ Struck l w := by
  have hkeep : Sorts (keep_sorted l) := keep_sorted.spec (by rw [hl]; exact collapse_sorted hqsort)
  have hself : keep_sorted l l = l := if_pos rfl
  rw [write_survives_iff hkeep hplain htimed hw, rivalled_iff_struck hkeep, hself]
  refine and_congr_right fun _ => not_congr (or_iff_left ?_)
  rintro ⟨i, k, hk, hread, ⟨hlt, hnext⟩, -⟩
  rw [hl] at hk hnext hlt
  exact collapse_reads_apart hqsort hread hk hnext hlt

end stutools.spit.collapse

namespace stutools.spit.file

open stutools.spit.collapse

/-- A merged log of completed reads and writes, some of which may have failed, that a run saves:
the devices of its job, by the first job on each, and what the fields of a position hold. -/
structure Log where
  devices : List (List Char)
  positions : List collapse.Entry
  maxbdSize : Nat
  names : ∀ name ∈ devices, name ≠ [] ∧ Solid name ∧ name.length < 1000
  ids : ∀ p ∈ positions, p.deviceid < devices.length ∧
    devices.idxOf (device devices p.topositionType) = p.deviceid
  widths : ∀ p ∈ positions, p.pos < 2 ^ 64 ∧ p.deviceid < 2 ^ 16 ∧ p.len < 2 ^ 32 ∧ p.seed < 2 ^ 16
  maxbdSize_lt : maxbdSize < 2 ^ 64
  exact : ∀ p ∈ positions, (∃ n : Nat, (p.submitTime : ℚ) * 10 ^ 8 = n) ∧
    ∃ n : Nat, (p.finishTime : ℚ) * 10 ^ 8 = n
  outcomes : ∀ p ∈ positions, p.success = 1 ∨ p.success = 2
  merged : ∃ qsort containers, Sorts qsort ∧
    (∀ p ∈ containers.flatten, p.action = 'R' ∨ p.action = 'W') ∧
    positions = positionContainerMerge qsort containers

section
variable (log : Log)

theorem Log.actions : ∀ p ∈ log.positions, p.action ∈ left_actions := by
  obtain ⟨qsort, containers, hqsort, hactions, hmerged⟩ := log.merged
  intro p hp
  rw [hmerged] at hp
  exact collapse_actions hqsort hactions hp

theorem Log.plain : ∀ p ∈ log.positions, Plain p := by
  intro p hp hread
  have hall : left_actions.all fun c => c.toUpper = 'R' → c = 'R' := by decide
  exact of_decide_eq_true (List.all_eq_true.mp hall p.action (log.actions p hp)) hread

theorem Log.finished : ∀ p ∈ log.positions, 0 < p.finishTime := by
  obtain ⟨qsort, containers, hqsort, -, hmerged⟩ := log.merged
  intro p hp
  rw [hmerged] at hp
  obtain ⟨o, ho, rfl | ⟨c, -, rfl⟩⟩ := mem_collapse hqsort hp
  · exact pos_of_ne_zero (mem_completed.mp ho).2
  · exact pos_of_ne_zero (mem_completed.mp ho).2

theorem Log.sorted : log.positions.Pairwise fun a b => poscompare a b ≠ .gt := by
  obtain ⟨qsort, containers, hqsort, -, hmerged⟩ := log.merged
  rw [hmerged]
  exact collapse_sorted hqsort

theorem device_mem {p : collapse.Entry} (hp : p ∈ log.positions) :
    device log.devices p.topositionType ∈ log.devices := by
  have hid := (log.ids p hp).1
  unfold device
  rw [List.getD_eq_getElem?_getD, List.getElem?_eq_getElem hid]
  exact List.getElem_mem hid

theorem Log.writable : ∀ p ∈ log.positions,
    Writable (device log.devices p.topositionType) p.topositionType := by
  intro p hp
  obtain ⟨hne, hsolid, -⟩ := log.names _ (device_mem log hp)
  obtain ⟨hpos, -, hlen, hseed⟩ := log.widths p hp
  obtain ⟨hsubmit, hfinish⟩ := log.exact p hp
  have haction : Solid left_actions := solid_of_all (by decide)
  exact ⟨hsolid, hne, hpos, hlen, hseed,
    haction _ (log.actions p hp), hsubmit, hfinish, log.finished p hp⟩

/-- The names of the devices in the order in which they come up in the file. -/
def Log.loaded : List (List Char) := (names_of log.devices log.positions).foldl enlist []

theorem mem_loaded {name : List Char} :
    name ∈ log.loaded ↔ ∃ p ∈ log.positions, device log.devices p.topositionType = name := by
  unfold Log.loaded names_of
  rw [mem_foldl_enlist]
  simp

/-- Names stand for numbers of devices. -/
theorem device_inj {p q : collapse.Entry} (hp : p ∈ log.positions) (hq : q ∈ log.positions) :
    device log.devices p.topositionType = device log.devices q.topositionType ↔
      p.deviceid = q.deviceid := by
  constructor
  · intro h
    rw [← (log.ids p hp).2, ← (log.ids q hq).2, h]
  · intro h
    unfold device
    rw [h]

theorem loaded_length_le : log.loaded.length ≤ 2 ^ 16 := by
  have hnodup : (log.loaded.map log.devices.idxOf).Nodup := by
    refine List.Nodup.map_on ?_ (nodup_foldl_enlist List.nodup_nil _)
    intro a ha b _ hab
    obtain ⟨p, hp, rfl⟩ := (mem_loaded log).mp ha
    exact (List.idxOf_inj (device_mem log hp)).mp hab
  have hbound : log.loaded.map log.devices.idxOf ⊆ List.range (2 ^ 16) := by
    intro k hk
    obtain ⟨name, hname, rfl⟩ := List.mem_map.mp hk
    obtain ⟨p, hp, rfl⟩ := (mem_loaded log).mp hname
    rw [List.mem_range, (log.ids p hp).2]
    exact (log.widths p hp).2.1
  have hle := (List.subperm_of_subset hnodup hbound).length_le
  rwa [List.length_map, List.length_range] at hle

theorem mem_takeWhile_of_sorted {l : List collapse.Entry}
    (hsorted : l.Pairwise fun a b => a.deviceid ≤ b.deviceid) {p : collapse.Entry} (hp : p ∈ l)
    {k : Nat} (hlt : p.deviceid < k) : p ∈ l.takeWhile fun x => x.deviceid < k := by
  induction l with
  | nil => cases hp
  | cons a l ih =>
    obtain ⟨hfirst, hsorted⟩ := List.pairwise_cons.mp hsorted
    obtain rfl | hmem := List.mem_cons.mp hp
    · rw [List.takeWhile_cons_of_pos (by simpa using hlt)]
      exact List.mem_cons_self
    · have ha : a.deviceid < k := (hfirst p hmem).trans_lt hlt
      rw [List.takeWhile_cons_of_pos (by simpa using ha)]
      exact List.mem_cons_of_mem a (ih hsorted hmem)

/-- The new numbers are in the order of the old ones. -/
theorem renumber_lt {p q : collapse.Entry} (hp : p ∈ log.positions) (hlt : p.deviceid < q.deviceid)
    (hq : q ∈ log.positions) :
    log.loaded.idxOf (device log.devices p.topositionType) <
      log.loaded.idxOf (device log.devices q.topositionType) := by
  have hsorted : log.positions.Pairwise fun a b => a.deviceid ≤ b.deviceid := by
    refine log.sorted.imp fun {a b} h => ?_
    have hfollows := follows_of_key_le (key_le_iff.mpr h)
    unfold Follows at hfollows
    omega
  have hsplit : names_of log.devices log.positions =
      names_of log.devices (log.positions.takeWhile fun x => x.deviceid < q.deviceid) ++
        names_of log.devices (log.positions.dropWhile fun x => x.deviceid < q.deviceid) := by
    unfold names_of
    rw [← List.map_append, List.takeWhile_append_dropWhile]
  unfold Log.loaded
  rw [hsplit]
  apply idxOf_lt_of_first
  · exact List.mem_map_of_mem (mem_takeWhile_of_sorted hsorted hp hlt)
  · intro hmem
    obtain ⟨x, hx, hname⟩ := List.mem_map.mp hmem
    have hid := (device_inj log ((List.takeWhile_sublist _).subset hx) hq).mp hname
    have hbefore := List.mem_takeWhile_imp hx
    rw [decide_eq_true_eq, hid] at hbefore
    exact lt_irrefl _ hbefore

theorem renumber_inj {p q : collapse.Entry} (hp : p ∈ log.positions) (hq : q ∈ log.positions) :
    log.loaded.idxOf (device log.devices p.topositionType) =
        log.loaded.idxOf (device log.devices q.topositionType) ↔ p.deviceid = q.deviceid := by
  rw [← device_inj log hp hq, List.idxOf_inj ((mem_loaded log).mpr ⟨p, hp, rfl⟩)]

/-! ## The loaded log -/

/-- The positions that are loaded when every line is valid. -/
def Log.reloaded : List collapse.Entry := log.positions.map (reload log.devices log.loaded)

/-- What the file says of a position, with its device by name. -/
def named (devices : List (List Char)) (p : positionType) :
    List Char × Nat × Nat × Nat × ℚ≥0 × ℚ≥0 :=
  (device devices p, p.pos, p.len, p.seed, p.submitTime, p.finishTime)

theorem device_reload {p : collapse.Entry} (hp : p ∈ log.positions) :
    device log.loaded (reload log.devices log.loaded p).topositionType =
      device log.devices p.topositionType := by
  have hmem : device log.devices p.topositionType ∈ log.loaded := (mem_loaded log).mpr ⟨p, hp, rfl⟩
  show log.loaded.getD (log.loaded.idxOf (device log.devices p.topositionType)) [] = _
  rw [List.getD_eq_getElem?_getD, List.getElem?_idxOf hmem]
  rfl

theorem named_reload {p : collapse.Entry} (hp : p ∈ log.positions) :
    named log.loaded (reload log.devices log.loaded p).topositionType =
      named log.devices p.topositionType :=
  congrArg (·, p.pos, p.len, p.seed, p.submitTime, p.finishTime) (device_reload log hp)

section
variable {log} {p q : collapse.Entry} (hp : p ∈ log.positions) (hq : q ∈ log.positions)
include hp hq

theorem poscompare_reload :
    poscompare (reload log.devices log.loaded p) (reload log.devices log.loaded q) =
      poscompare p q := by
  have hlt : (reload log.devices log.loaded p).deviceid <
      (reload log.devices log.loaded q).deviceid ↔ p.deviceid < q.deviceid := by
    constructor
    · intro h
      by_contra hnot
      obtain heq | hgt := (not_lt.mp hnot).eq_or_lt
      · exact h.ne ((renumber_inj log hp hq).mpr heq.symm)
      · exact lt_asymm h (renumber_lt log hq hgt hp)
    · exact fun h => renumber_lt log hp h hq
  have hgt : (reload log.devices log.loaded p).deviceid >
      (reload log.devices log.loaded q).deviceid ↔ p.deviceid > q.deviceid := by
    constructor
    · intro h
      by_contra hnot
      obtain heq | hgt := (not_lt.mp hnot).eq_or_lt
      · exact h.ne' ((renumber_inj log hp hq).mpr heq)
      · exact lt_asymm h (renumber_lt log hp hgt hq)
    · exact fun h => renumber_lt log hq h hp
  unfold poscompare
  simp only [hlt, hgt]
  rfl

theorem beaten_reload :
    Beaten (reload log.devices log.loaded p) (reload log.devices log.loaded q) ↔ Beaten p q := by
  have hid : (reload log.devices log.loaded p).deviceid =
      (reload log.devices log.loaded q).deviceid ↔ p.deviceid = q.deviceid := renumber_inj log hp hq
  unfold Beaten Meets
  rw [hid]
  rfl

theorem reload_eq_iff :
    reload log.devices log.loaded p = reload log.devices log.loaded q ↔
      p.action = q.action ∧ record p = record q := by
  have hid : (reload log.devices log.loaded p).deviceid =
      (reload log.devices log.loaded q).deviceid ↔ p.deviceid = q.deviceid := renumber_inj log hp hq
  unfold record
  rw [Prod.mk.injEq, ← hid]
  unfold reload
  simp only [collapse.Entry.mk.injEq, positionType.mk.injEq, Prod.mk.injEq]
  tauto

end

theorem struck_reload {w : collapse.Entry} (hw : w ∈ log.positions) :
    Struck log.reloaded (reload log.devices log.loaded w) ↔ Struck log.positions w := by
  unfold Struck Log.reloaded
  simp only [List.mem_map, exists_exists_and_eq_and]
  refine exists_congr fun k => and_congr_right fun hk => and_congr_right fun _ => ?_
  exact beaten_reload hw hk

/-- The read is in the log again, as far as the file tells its positions apart, with fewer
positions before it in the order than there are comparisons with the next one. -/
def Reread (l : List collapse.Entry) (r : collapse.Entry) : Prop :=
  r.action = 'R' ∧ 2 ≤ l.countP (fun q => q.action = 'R' ∧ record q = record r) ∧
    l.countP (fun q => poscompare q r = .lt) < skip_bound l.length

theorem repeated_reload {r : collapse.Entry} (hr : r ∈ log.positions) :
    Repeated log.reloaded (reload log.devices log.loaded r) ↔ Reread log.positions r := by
  unfold Repeated Reread Log.reloaded
  refine and_congr_right fun hread => ?_
  have hread : r.action = 'R' := hread
  rw [List.count_eq_countP, List.countP_map, List.countP_map, List.length_map]
  have hcopies : log.positions.countP ((· == reload log.devices log.loaded r) ∘
      reload log.devices log.loaded) =
        log.positions.countP fun q => q.action = 'R' ∧ record q = record r := by
    refine List.countP_congr fun q hq => ?_
    rw [Function.comp_apply, beq_iff_eq, reload_eq_iff hq hr, hread, decide_eq_true_eq]
  have hbefore : log.positions.countP
      ((fun q => decide (poscompare q (reload log.devices log.loaded r) = .lt)) ∘
        reload log.devices log.loaded) =
        log.positions.countP fun q => poscompare q r = .lt := by
    refine List.countP_congr fun q hq => ?_
    rw [Function.comp_apply, poscompare_reload hq hr]
  rw [hcopies, hbefore]

/-- A read of the log that is in it again beats a write that nothing else beats. -/
def RereadBeats (l : List collapse.Entry) : Prop :=
  ∃ r ∈ l, Reread l r ∧ ∃ w ∈ l, w.action = 'W' ∧ ¬ Struck l w ∧ Beaten w r

/-- Copies are copies in the file, too. -/
theorem reread_of_repeated {l : List collapse.Entry} {r : collapse.Entry} (h : Repeated l r) :
    Reread l r := by
  obtain ⟨hread, htwice, hbound⟩ := h
  refine ⟨hread, htwice.trans ?_, hbound⟩
  rw [List.count_eq_countP]
  refine List.countP_mono_left fun q _ hq => ?_
  obtain rfl := eq_of_beq hq
  exact decide_eq_true ⟨hread, rfl⟩

/-! ## The verification -/

/-- The writes that are left, with their devices by name. -/
def writes_left (devices : List (List Char)) (l : List collapse.Entry) :
    Set (List Char × Nat × Nat × Nat × ℚ≥0 × ℚ≥0) :=
  {x | ∃ w ∈ l, w.action = 'W' ∧ named devices w.topositionType = x}

/-- The writes of the log that no position beats which counts as a write. -/
def Log.standing : Set (List Char × Nat × Nat × Nat × ℚ≥0 × ℚ≥0) :=
  {x | ∃ w ∈ log.positions, w.action = 'W' ∧ ¬ Struck log.positions w ∧
    named log.devices w.topositionType = x}

variable {log}

theorem writes_left_saved {left : List collapse.Entry}
    (h : ∀ w : collapse.Entry, w.action = 'W' →
      (w ∈ left ↔ w ∈ log.positions ∧ ¬ Struck log.positions w)) :
    writes_left log.devices left = log.standing := by
  ext x
  constructor
  · rintro ⟨w, hmem, hw, hx⟩
    obtain ⟨hlog, hfree⟩ := (h w hw).mp hmem
    exact ⟨w, hlog, hw, hfree, hx⟩
  · rintro ⟨w, hlog, hw, hfree, hx⟩
    exact ⟨w, (h w hw).mpr ⟨hlog, hfree⟩, hw, hx⟩

theorem writes_left_reloaded {left : List collapse.Entry}
    (h : ∀ w : collapse.Entry, w.action = 'W' →
      (w ∈ left ↔ w ∈ log.reloaded ∧ ¬ Struck log.reloaded w)) :
    writes_left log.loaded left = log.standing := by
  ext x
  constructor
  · rintro ⟨w', hmem, hw, hx⟩
    obtain ⟨hlog, hfree⟩ := (h w' hw).mp hmem
    obtain ⟨w, hwlog, rfl⟩ := List.mem_map.mp hlog
    rw [struck_reload log hwlog] at hfree
    exact ⟨w, hwlog, hw, hfree, (named_reload log hwlog).symm.trans hx⟩
  · rintro ⟨w, hlog, hw, hfree, hx⟩
    have hmem : reload log.devices log.loaded w ∈ log.reloaded := List.mem_map_of_mem hlog
    refine ⟨_, (h (reload log.devices log.loaded w) hw).mpr ⟨hmem, ?_⟩, hw,
      (named_reload log hlog).trans hx⟩
    rwa [struck_reload log hlog]

theorem reloaded_plain : ∀ p ∈ log.reloaded, Plain p := List.forall_mem_map.mpr log.plain

section
variable (htimed : ∀ p ∈ log.positions, Timed p)
include htimed

theorem reloaded_timed : ∀ p ∈ log.reloaded, Timed p := List.forall_mem_map.mpr htimed

/-- Without such a read the verifier comes to the same writes. -/
theorem writes_left_same (hnone : ¬ RereadBeats log.positions)
    {qsort qsort' : List collapse.Entry → List collapse.Entry} (hqsort : Sorts qsort)
    (hqsort' : Sorts qsort') :
    writes_left log.devices (positionContainerCollapse qsort log.positions) =
      writes_left log.loaded (positionContainerCollapse qsort' log.reloaded) := by
  have hfree {r w : collapse.Entry} (hr : r ∈ log.positions) (hread : Reread log.positions r)
      (hw : w ∈ log.positions) (hwrite : w.action = 'W') (hbeaten : Beaten w r) :
      Struck log.positions w := by
    by_contra hstands
    exact hnone ⟨r, hr, hread, w, hw, hwrite, hstands, hbeaten⟩
  rw [writes_left_saved fun w hw => ?_, writes_left_reloaded fun w hw => ?_]
  · refine write_survives_of_repeated hqsort' reloaded_plain (reloaded_timed htimed) hw ?_
    intro r' hr' hrepeated hw' hbeaten
    obtain ⟨r, hr, rfl⟩ := List.mem_map.mp hr'
    obtain ⟨w, hwlog, rfl⟩ := List.mem_map.mp hw'
    rw [struck_reload log hwlog]
    exact hfree hr ((repeated_reload log hr).mp hrepeated) hwlog hw
      ((beaten_reload hwlog hr).mp hbeaten)
  · refine write_survives_of_repeated hqsort log.plain htimed hw ?_
    intro r hr hrepeated hwlog hbeaten
    exact hfree hr (reread_of_repeated hrepeated) hwlog hw hbeaten

/-- With one, a sort may put it where the verifier loses a write. -/
theorem no_reread_of_same (hsame : ∀ qsort qsort', Sorts qsort → Sorts qsort' →
      writes_left log.devices (positionContainerCollapse qsort log.positions) =
        writes_left log.loaded (positionContainerCollapse qsort' log.reloaded)) :
    ¬ RereadBeats log.positions := by
  rintro ⟨r, hr, hread, w, hw, hwrite, hstands, hbeaten⟩
  obtain ⟨qsort, containers, hqsort, -, hmerged⟩ := log.merged
  have hrepeated := (repeated_reload log hr).mpr hread
  have hleft : named log.devices w.topositionType ∈ log.standing := ⟨w, hw, hwrite, hstands, rfl⟩
  rw [← writes_left_saved fun w hw => write_survives_of_merged hqsort hmerged log.plain htimed hw,
    hsame _ _ (keep_sorted.spec log.sorted) (huddled.spec (reload log.devices log.loaded r))]
    at hleft
  obtain ⟨w', hleft, hwrite', hname⟩ := hleft
  have hmem := ((write_survives_iff (huddled.spec _) reloaded_plain (reloaded_timed htimed)
    hwrite').mp hleft).1
  obtain ⟨v, hv, rfl⟩ := List.mem_map.mp hmem
  -- it is a copy of the write, as far as names go, and so for the numbers
  have hrecord : record v = record w := by
    rw [named_reload log hv] at hname
    unfold named at hname
    unfold record
    simp only [Prod.mk.injEq] at hname ⊢
    rwa [device_inj log hv hw] at hname
  have hbeaten' : Beaten v r := (beaten_of_record hrecord).mpr hbeaten
  exact write_lost_to_repeated reloaded_plain (reloaded_timed htimed) hrepeated hwrite'
    ((beaten_reload hv hr).mpr hbeaten') hleft

end

/-- The position is read back. -/
def ReadBack (devices loaded : List (List Char)) (p : collapse.Entry) (q : positionType) : Prop :=
  device devices p.topositionType = device loaded q ∧ p.pos = q.pos ∧ p.len = q.len ∧
    p.action = q.action ∧ p.seed = q.seed ∧ p.success = q.success ∧
    p.submitTime = q.submitTime ∧ p.finishTime = q.finishTime

/-- The saved log verifies like the one in memory: every line is read back in its order, and with
times as a completed position has them, a collapse leaves the same writes. -/
def Log.Verifies (latencies : collapse.Entry → Latencies) (log : Log) : Prop :=
  let loaded := positionContainerLoad
    (positionContainerSave latencies log.devices log.positions log.maxbdSize 0)
  loaded.lineswitherrors = 0 ∧
    List.Forall₂ (ReadBack log.devices loaded.devices) log.positions loaded.positions ∧
    ((∀ p ∈ log.positions, Timed p) → ∀ es : List collapse.Entry,
      es.map collapse.Entry.topositionType = loaded.positions → (∀ e ∈ es, e.rest = 0) →
      ∀ qsort qsort', Sorts qsort → Sorts qsort' →
        writes_left log.devices (positionContainerCollapse qsort log.positions) =
          writes_left loaded.devices (positionContainerCollapse qsort' es))

theorem load_log (latencies : collapse.Entry → Latencies) (log : Log) :
    positionContainerLoad
        (positionContainerSave latencies log.devices log.positions log.maxbdSize 0) =
      log.positions.foldl (Loaded.take log.devices log.maxbdSize) Loaded.init := by
  refine load_save log.writable (fun p hp => ?_) log.maxbdSize_lt
  obtain h | h := log.outcomes p hp <;> rw [h] <;> decide

/-- The reader takes every line when no position failed, and none was submitted at 0. -/
theorem errors_eq_zero_iff (latencies : collapse.Entry → Latencies) (log : Log) :
    (positionContainerLoad (positionContainerSave latencies log.devices log.positions
        log.maxbdSize 0)).lineswitherrors = 0 ↔
      ∀ p ∈ log.positions, p.success ≠ 2 ∧ 0 < p.submitTime := by
  rw [load_log, take_errors]
  simp [Loaded.init, List.countP_eq_zero, pos_iff_ne_zero]

theorem load_valid (latencies : collapse.Entry → Latencies) {log : Log}
    (hvalid : ∀ p ∈ log.positions, p.success ≠ 2 ∧ 0 < p.submitTime) :
    let loaded := positionContainerLoad
      (positionContainerSave latencies log.devices log.positions log.maxbdSize 0)
    loaded.devices = log.loaded ∧
      loaded.positions = log.reloaded.map collapse.Entry.topositionType := by
  dsimp only
  rw [load_log]
  obtain ⟨hdevices, hpositions⟩ := @take_valid log.devices log.maxbdSize log.positions hvalid
    (fun p hp => (log.widths p hp).2.2) Loaded.init List.nodup_nil (loaded_length_le log)
  refine ⟨hdevices, hpositions.trans ?_⟩
  unfold Log.reloaded
  rw [List.map_map]
  rfl

/-- Positions without latencies are told by what the file says of them. -/
theorem eq_of_topositionType {l es : List collapse.Entry}
    (h : es.map collapse.Entry.topositionType = l.map collapse.Entry.topositionType)
    (hes : ∀ e ∈ es, e.rest = 0) (hl : ∀ e ∈ l, e.rest = 0) : es = l := by
  induction es generalizing l with
  | nil => exact (List.map_eq_nil_iff.mp h.symm).symm
  | cons e es ih =>
    cases l with
    | nil => cases h
    | cons e' l =>
      obtain ⟨he, hes⟩ := List.forall_mem_cons.mp hes
      obtain ⟨he', hl⟩ := List.forall_mem_cons.mp hl
      obtain ⟨hhead, htail⟩ := List.cons_eq_cons.mp h
      rw [ih htail hes hl]
      congr 1
      cases e
      cases e'
      dsimp only at hhead he he'
      subst hhead he he'
      rfl

/-- A saved log verifies like the one in memory when nothing in it failed, nothing was submitted
at 0, and no read of it that the file does not tell from another one beats a write. -/
theorem a_saved_log_verifies_when_nothing_failed_and_no_reread_beats_a_write
    (latencies : collapse.Entry → Latencies) (log : Log) :
    log.Verifies latencies ↔
      (∀ p ∈ log.positions, p.success ≠ 2) ∧ (∀ p ∈ log.positions, 0 < p.submitTime) ∧
        ((∀ p ∈ log.positions, Timed p) → ¬ RereadBeats log.positions) := by
  have hrest : ∀ e ∈ log.reloaded, e.rest = 0 := List.forall_mem_map.mpr fun _ _ => rfl
  unfold Log.Verifies
  dsimp only
  rw [errors_eq_zero_iff]
  constructor
  · rintro ⟨hvalid, -, hsame⟩
    obtain ⟨hdevices, hpositions⟩ := load_valid latencies hvalid
    rw [hdevices, hpositions] at hsame
    refine ⟨fun p hp => (hvalid p hp).1, fun p hp => (hvalid p hp).2, fun htimed => ?_⟩
    exact no_reread_of_same htimed (hsame htimed log.reloaded rfl hrest)
  · rintro ⟨hsuccess, hsubmit, hnone⟩
    have hvalid : ∀ p ∈ log.positions, p.success ≠ 2 ∧ 0 < p.submitTime :=
      fun p hp => ⟨hsuccess p hp, hsubmit p hp⟩
    obtain ⟨hdevices, hpositions⟩ := load_valid latencies hvalid
    rw [hdevices, hpositions]
    refine ⟨hvalid, ?_, fun htimed es hes hzero qsort qsort' hqsort hqsort' => ?_⟩
    · unfold Log.reloaded
      rw [List.forall₂_map_right_iff, List.forall₂_map_right_iff, List.forall₂_same]
      intro p hp
      have hsucceeded : p.success = 1 := (log.outcomes p hp).resolve_right (hsuccess p hp)
      exact ⟨(device_reload log hp).symm, rfl, rfl, rfl, rfl, hsucceeded, rfl, rfl⟩
    · rw [eq_of_topositionType hes hzero hrest]
      exact writes_left_same htimed (hnone htimed) hqsort hqsort'

end

/-- A write of the first block. -/
def first_write (success : Nat) : collapse.Entry := { entry 0 4096 1 1 2 'W' with success }

theorem merge_first_write (success : Nat) :
    positionContainerMerge sort_by_insertion [[first_write success]] = [first_write success] := by
  have hsorted : skip_identical (skip_bound 1) (sort_by_insertion [first_write success]) =
      [first_write success] := rfl
  have hactive : (first_write success).action.toUpper ≠ 'R' ∧ 0 < (first_write success).finishTime :=
    ⟨(by decide : 'W'.toUpper ≠ 'R'), (by decide : (0 : ℚ≥0) < 2)⟩
  show collapse_conflicts (skip_identical (skip_bound 1) (sort_by_insertion [first_write success])) = _
  rw [hsorted, collapse_conflicts, if_pos hactive]
  show first_write success :: collapse_conflicts [] = _
  rw [collapse_conflicts]

/-- A run of one write. -/
def one_write_log (success : Nat) (h : success = 1 ∨ success = 2) : Log :=
  { devices := [['d']]
    positions := [first_write success]
    maxbdSize := 8192
    names := by
      intro name hname
      obtain rfl := List.mem_singleton.mp hname
      exact ⟨by decide, solid_of_all (by decide), by decide⟩
    ids := by
      intro p hp
      obtain rfl := List.mem_singleton.mp hp
      exact ⟨Nat.zero_lt_one, rfl⟩
    widths := by
      intro p hp
      obtain rfl := List.mem_singleton.mp hp
      exact ⟨Nat.two_pow_pos 64, Nat.two_pow_pos 16, (by decide : 4096 < 2 ^ 32), (by decide : 1 < 2 ^ 16)⟩
    maxbdSize_lt := by decide
    exact := by
      intro p hp
      obtain rfl := List.mem_singleton.mp hp
      refine ⟨⟨10 ^ 8, ?_⟩, ⟨2 * 10 ^ 8, ?_⟩⟩ <;> norm_num [first_write, entry]
    outcomes := by
      intro p hp
      obtain rfl := List.mem_singleton.mp hp
      exact h
    merged := by
      refine ⟨sort_by_insertion, [[first_write success]], sort_by_insertion.spec, ?_,
        (merge_first_write success).symm⟩
      intro p hp
      obtain rfl := List.mem_singleton.mp hp
      exact .inr rfl }

/-- A write that was done verifies. -/
theorem a_write_that_was_done_verifies : (one_write_log 1 (.inl rfl)).Verifies fun _ => ⟨0, []⟩ := by
  apply (a_saved_log_verifies_when_nothing_failed_and_no_reread_beats_a_write _ _).mpr
  have honly : ∀ p ∈ (one_write_log 1 (.inl rfl)).positions, p = first_write 1 :=
    fun p hp => List.mem_singleton.mp hp
  refine ⟨fun p hp => ?_, fun p hp => ?_, ?_⟩
  · rw [honly p hp]
    decide
  · rw [honly p hp]
    decide
  · rintro - ⟨r, hr, hreread, -⟩
    obtain rfl := honly r hr
    exact absurd hreread.1 (by decide)

/-- The line of a failed write is no line to the reader. -/
theorem a_failed_write_is_not_loaded : ¬ (one_write_log 2 (.inr rfl)).Verifies fun _ => ⟨0, []⟩ := by
  rintro ⟨hvalid, -⟩
  rw [errors_eq_zero_iff] at hvalid
  exact (hvalid (first_write 2) List.mem_cons_self).1 rfl

end stutools.spit.file
