-- Batched runs read back what they write. Each completed write is answered by
-- a read of its block that is checked, or its row of the table is marked, and
-- the scan at the end takes every mark once.
import Stutools.Batches
import Stutools.Marks

namespace stutools

/-! ## The scan at the end -/

namespace Positions

variable {p : Positions}

/-- What one round of `verify_pending` takes is what is pending first, and an
empty round leaves no mark. -/
theorem take_pending.spec (h : p.Counted) {cursor : Nat} (hc : p.Clean cursor) (n : Nat) :
    Remarked p (take_pending n p cursor).2.2 ∧ (take_pending n p cursor).2.2.Counted ∧
    (take_pending n p cursor).2.2.Clean (take_pending n p cursor).2.1 ∧
    p.pending cursor = (take_pending n p cursor).1 ++
      (take_pending n p cursor).2.2.pending (take_pending n p cursor).2.1 ∧
    (0 < n → (take_pending n p cursor).1 = [] →
      (take_pending n p cursor).2.2.pending_checks = 0) := by
  induction n generalizing p cursor with
  | zero => exact ⟨Remarked.refl p, h, hc, rfl, by simp⟩
  | succ n ih =>
    rcases ht : p.take_pending_check cursor with ⟨o, cursor', q⟩
    obtain ⟨h1, h2, h3, h4, h5⟩ := take_pending_check_from.spec h rfl hc ht
    unfold take_pending
    rw [ht]
    cases o with
    | none => exact ⟨h1, h2, h3, h4, fun _ _ => h5 rfl⟩
    | some r =>
      obtain ⟨i1, i2, i3, i4, _⟩ := ih h2 h3
      refine ⟨h1.trans i1, i2, i3, ?_, by simp⟩
      rw [h4, i4]
      rfl

end Positions

namespace Run

/-- Completions and checks touch the table and the counts of a run, no other part. -/
theorem completes_parts (requests : List Request) (reports : List (Nat × ℚ)) (run : Run) :
    ∃ p stats, reports.foldl (complete requests) run =
      { run with generated := p, stats := stats } := by
  induction reports generalizing run with
  | nil => exact ⟨_, _, rfl⟩
  | cons report reports ih =>
    obtain ⟨p, stats, h⟩ := ih (run.complete requests report)
    exact ⟨p, stats, h⟩

theorem verify_reads_parts (slots : Slots) (requests : List Request) (i : Nat) (run : Run) :
    ∃ p stats, run.verify_reads slots requests i =
      { run with generated := p, stats := stats } := by
  induction requests generalizing i run with
  | nil => exact ⟨_, _, rfl⟩
  | cons r rest ih =>
    unfold verify_reads
    dsimp only
    split_ifs
    all_goals
      obtain ⟨p, stats, h⟩ := ih (i + 1) _
      exact ⟨p, stats, h⟩

theorem verify_all_parts (slots : Slots) (requests : List Request) (i : Nat) (run : Run) :
    ∃ stats, run.verify_all slots requests i = { run with stats := stats } := by
  induction requests generalizing i run with
  | nil => exact ⟨_, rfl⟩
  | cons r rest ih =>
    obtain ⟨stats, h⟩ := ih (i + 1) (run.check ((slots i).read 0 r.len) r)
    exact ⟨stats, h⟩

/-! ## The marks of a batch -/

theorem completes_counted (requests : List Request) (reports : List (Nat × ℚ)) {run : Run}
    (h : run.generated.Counted) :
    (reports.foldl (complete requests) run).generated.Counted := by
  induction reports generalizing run with
  | nil => exact h
  | cons report reports ih =>
    apply ih
    unfold complete
    dsimp only
    split_ifs
    · exact (Positions.written.spec _ _).2.1 h
    · exact h

theorem verify_reads_counted (slots : Slots) (requests : List Request) (i : Nat) {run : Run}
    (h : run.generated.Counted) : (run.verify_reads slots requests i).generated.Counted := by
  induction requests generalizing i run with
  | nil => exact h
  | cons r rest ih =>
    unfold verify_reads
    dsimp only
    split_ifs
    · exact ih (i + 1) h
    · exact ih (i + 1) ((Positions.checked.spec _ _).2.1 h)
    · exact ih (i + 1) h

theorem fill_batch_counted {run : Run} (h : run.generated.Counted) (limit : Nat) :
    (run.fill_batch limit).2.generated.Counted := by
  refine (fill_batch_induct (P := fun _ a => a.generated.Counted) (R := fun _ _ => True) ?_ ?_ limit
    run h).2.1
  · intro i a ha _
    exact ⟨trivial, Positions.enter_pass_counted ha _⟩
  · intro i a ha _
    refine ⟨trivial, ?_⟩
    unfold wv_next
    split <;> exact ha

/-- Only completions of a verifying plan mark rows. -/
theorem completes_table (requests : List Request) (reports : List (Nat × ℚ)) {run : Run}
    (h : run.work.verify = false ∨ run.work.write_verify = true) :
    (reports.foldl (complete requests) run).generated = run.generated := by
  induction reports generalizing run with
  | nil => rfl
  | cons report reports ih =>
    rw [List.foldl_cons, @ih (run.complete requests report) h]
    unfold complete
    dsimp only
    rcases h with h | h <;> simp [h]

theorem verify_reads_table (slots : Slots) (requests : List Request) (i : Nat) {run : Run}
    (h : run.work.write_verify = true) :
    (run.verify_reads slots requests i).generated = run.generated := by
  induction requests generalizing i run with
  | nil => rfl
  | cons r rest ih =>
    unfold verify_reads
    dsimp only
    split_ifs with h1 h2
    · exact @ih (i + 1) (run.check ((slots i).read 0 r.len) r) h
    · exact absurd h h2
    · exact ih (i + 1) h

/-- The completions of a batch of the plan mark the rows of its writes. -/
theorem completes_marks (requests : List Request) (reports : List (Nat × ℚ)) {run : Run}
    (hv : run.work.verify = true) (hw : run.work.write_verify = false) :
    Positions.Remarked run.generated (reports.foldl (complete requests) run).generated ∧
    ∀ pos, (reports.foldl (complete requests) run).generated.marked pos = true ↔
      run.generated.marked pos = true ∨ ∃ report ∈ reports,
        (requests.getD report.1 Request.default).write = true ∧
        (run.generated.mapped (run.index + report.1)).1 = pos := by
  induction reports generalizing run with
  | nil => exact ⟨Positions.Remarked.refl _, fun pos => by simp⟩
  | cons report reports ih =>
    obtain ⟨h1, h2⟩ := @ih (run.complete requests report) hv hw
    have hone : Positions.Remarked run.generated (run.complete requests report).generated ∧
        ∀ pos, (run.complete requests report).generated.marked pos = true ↔
          run.generated.marked pos = true ∨
            ((requests.getD report.1 Request.default).write = true ∧
              (run.generated.mapped (run.index + report.1)).1 = pos) := by
      obtain ⟨h3, _, h4⟩ := Positions.written.spec run.generated (run.index + report.1)
      simp only [complete, hv, hw, Bool.and_true, Bool.not_false]
      split_ifs with hwrite
      · refine ⟨h3, fun pos => ?_⟩
        rw [h4]
        simp only [hwrite, Bool.or_eq_true, decide_eq_true_eq, true_and]
        tauto
      · exact ⟨Positions.Remarked.refl _, fun pos => by
          simp only [hwrite, Bool.false_eq_true, false_and, or_false]⟩
    refine ⟨hone.1.trans h1, fun pos => ?_⟩
    rw [List.foldl_cons, h2, hone.2]
    simp only [hone.1.mapped_eq, List.mem_cons, exists_eq_or_imp, or_assoc]
    rfl

/-- The checks of a batch of the plan take the marks of their rows away. -/
theorem verify_reads_marks (slots : Slots) (requests : List Request) (i : Nat) {run : Run}
    (hw : run.work.write_verify = false) :
    Positions.Remarked run.generated (run.verify_reads slots requests i).generated ∧
    ∀ pos, (run.verify_reads slots requests i).generated.marked pos = true ↔
      run.generated.marked pos = true ∧ ∀ k r, requests[k]? = some r → is_read_back r = true →
        (run.generated.mapped (run.index + (i + k))).1 ≠ pos := by
  induction requests generalizing i run with
  | nil => exact ⟨Positions.Remarked.refl _, fun pos => by simp [verify_reads]⟩
  | cons r rest ih =>
    have hcons : ∀ (p : Positions) pos, (∀ k q, (r :: rest)[k]? = some q → is_read_back q = true →
        (p.mapped (run.index + (i + k))).1 ≠ pos) ↔
        (is_read_back r = true → (p.mapped (run.index + i)).1 ≠ pos) ∧
        ∀ k q, rest[k]? = some q → is_read_back q = true →
          (p.mapped (run.index + (i + 1 + k))).1 ≠ pos := by
      intro p pos
      refine ⟨fun h => ⟨h 0 r rfl, fun k q hk hq => ?_⟩, fun ⟨h0, h⟩ k q hk hq => ?_⟩
      · have := h (k + 1) q hk hq
        rwa [show i + (k + 1) = i + 1 + k by omega] at this
      · cases k with
        | zero =>
          cases hk
          exact h0 hq
        | succ k =>
          rw [show i + (k + 1) = i + 1 + k by omega]
          exact h k q hk hq
    unfold verify_reads
    dsimp only
    split_ifs with hr hwv
    · rw [show (run.check ((slots i).read 0 r.len) r).work = run.work from rfl, hw] at hwv
      cases hwv
    · obtain ⟨h3, _, h4⟩ := Positions.checked.spec run.generated (run.index + i)
      obtain ⟨h1, h2⟩ := @ih (i + 1) ({ run.check ((slots i).read 0 r.len) r with
        generated := run.generated.checked (run.index + i) }) hw
      refine ⟨h3.trans h1, fun pos => (h2 pos).trans ?_⟩
      rw [hcons]
      simp only [h3.mapped_eq]
      rw [h4]
      simp only [is_read_back, hr, Bool.and_eq_true, decide_eq_true_eq, true_imp_iff]
      constructor
      · rintro ⟨⟨h5, h6⟩, h7⟩
        exact ⟨h6, fun he => h5 he.symm, h7⟩
      · rintro ⟨h5, h6, h7⟩
        exact ⟨⟨fun he => h6 he.symm, h5⟩, h7⟩
    · obtain ⟨h1, h2⟩ := ih (i + 1) hw
      refine ⟨h1, fun pos => (h2 pos).trans ?_⟩
      rw [hcons]
      simp only [is_read_back, hr, Bool.false_eq_true, false_imp_iff, true_and]

/-- The marks after a batch of the plan. -/
theorem batch_marks {requests : List Request} {reports : List (Nat × ℚ)} {run : Run}
    (hv : run.work.verify = true) (hw : run.work.write_verify = false) {slots : Slots}
    {g : Positions}
    (hg : ((reports.foldl (complete requests) run).verify_reads slots requests 0).generated = g) :
    Positions.Remarked run.generated g ∧
    ∀ pos, g.marked pos = true ↔
      (run.generated.marked pos = true ∨ ∃ report ∈ reports,
        (requests.getD report.1 Request.default).write = true ∧
        (run.generated.mapped (run.index + report.1)).1 = pos) ∧
      ∀ k r, requests[k]? = some r → is_read_back r = true →
        (run.generated.mapped (run.index + k)).1 ≠ pos := by
  obtain ⟨h1, h2⟩ := completes_marks requests reports hv hw
  obtain ⟨p, stats, hparts⟩ := completes_parts requests reports run
  have hw' : (reports.foldl (complete requests) run).work.write_verify = false := by
    rw [hparts]
    exact hw
  have hindex : (reports.foldl (complete requests) run).index = run.index := by rw [hparts]
  obtain ⟨h3, h4⟩ := verify_reads_marks slots requests 0 hw'
  rw [hg] at h3 h4
  refine ⟨h1.trans h3, fun pos => ?_⟩
  rw [h4, h2]
  simp only [hindex, h1.mapped_eq, Nat.zero_add]

/-! ## The requests of a batch -/

/-- A batch of a verifying plan enters the pass of its index, and its requests
are those of one phase, in order. -/
theorem fill_batch_phase {run : Run} (hv : run.generated.work.verify = true)
    (hw : run.work.write_verify = false) {limit : Nat}
    (hlimit : limit ≤ run.generated.phase_remaining run.index) {requests : List Request} {a : Run}
    (hfill : run.fill_batch limit = (requests, a)) {q : Positions}
    (hq : run.generated.enter_pass (run.index / run.generated.len) = q) :
    a.index = run.index ∧ (a.generated = q ∨ (requests = [] ∧ a.generated = run.generated)) ∧
    requests.length ≤ q.phase_remaining run.index ∧ q.pass = run.index / q.len ∧
    ∀ k r, requests[k]? = some r →
      r = q.request_at (q.mapped (run.index + k)).1 (q.mapped run.index).2 q.pass := by
  have hqpass : q.pass = run.index / run.generated.len := by
    rw [← hq, Positions.enter_pass_pass]
  have hqwork : q.work = run.generated.work := by rw [← hq, Positions.enter_pass_work]
  have hqlen : q.len = run.generated.len := by
    rw [← hq]
    simp [Positions.len]
  have hrem : q.phase_remaining run.index = run.generated.phase_remaining run.index := by
    rw [← hq]
    simp [Positions.phase_remaining]
  have hget : ∀ i, i < q.phase_remaining run.index →
      q.get (run.index + i) =
        (q.request_at (q.mapped (run.index + i)).1 (q.mapped run.index).2 q.pass, q) := by
    intro i hi
    obtain ⟨h1, h2⟩ := Positions.phase_uniform (by rw [hqwork]; exact hv) hi
    rw [Positions.get, h2, hqlen, ← hqpass, Positions.enter_pass_self rfl, ← h1]
  have hnext : ∀ i (a : Run), i < q.phase_remaining run.index → a.index = run.index →
      (a.generated = q ∨ (i = 0 ∧ a.generated = run.generated)) → a.plan_next i =
        (q.request_at (q.mapped (run.index + i)).1 (q.mapped run.index).2 q.pass,
          { a with generated := q }) := by
    intro i a hi h4 h5
    unfold plan_next
    rw [h4]
    rcases h5 with h5 | ⟨rfl, h5⟩
    · rw [h5, hget i hi]
    · -- the first request of the batch enters the pass
      have hfirst : run.generated.get (run.index + 0) = q.get (run.index + 0) := by
        rw [hget 0 hi, Positions.get, Nat.add_zero, hq, hqpass]
      rw [h5, hfirst, hget 0 hi]
  obtain ⟨h1, h2, _⟩ := fill_batch_induct
    (P := fun i a => a.index = run.index ∧ a.work = run.work ∧
      (i ≤ q.phase_remaining run.index →
        a.generated = q ∨ (i = 0 ∧ a.generated = run.generated)))
    (R := fun k r => k < q.phase_remaining run.index →
      r = q.request_at (q.mapped (run.index + k)).1 (q.mapped run.index).2 q.pass)
    (fun i a ha _ => ⟨fun hi => by rw [hnext i a hi ha.1 (ha.2.2 (Nat.le_of_lt hi))], ha.1, ha.2.1,
      fun hi => by
        rw [hnext i a hi ha.1 (ha.2.2 (Nat.le_of_lt hi))]
        exact .inl rfl⟩)
    (fun i a ha hwv => by
      rw [ha.2.1, hw] at hwv
      cases hwv) limit run ⟨rfl, rfl, fun _ => .inr ⟨rfl, rfl⟩⟩
  have hle := run.fill_batch_length_le limit
  rw [hfill] at h1 h2 hle
  have hn : requests.length ≤ q.phase_remaining run.index := by
    rw [hrem]
    exact Nat.le_trans hle hlimit
  refine ⟨h2.1, ?_, hn, by rw [hqlen]; exact hqpass, fun k r hk => ?_⟩
  · rcases h2.2.2 hn with h4 | ⟨h4, h5⟩
    · exact .inl h4
    · exact .inr ⟨List.eq_nil_of_length_eq_zero h4, h5⟩
  · obtain ⟨hlt, _⟩ := List.getElem?_eq_some_iff.mp hk
    exact h1 k r hk (Nat.lt_of_lt_of_le hlt hn)

/-- A batch inside one phase: marks come with operations, and go with checks. -/
theorem phase_batch {run : Run} (hrun : run.work = run.generated.work)
    (hv : run.work.verify = true) (hw : run.work.write_verify = false)
    (halt : run.work.alternate = false) {requests : List Request} {reports : List (Nat × ℚ)}
    (hn : requests.length ≤ run.generated.phase_remaining run.index)
    (hpass : run.generated.pass = run.index / run.generated.len)
    (hdue : ∀ pos, run.generated.marked pos = true → ∃ i, run.generated.Due run.index i ∧
      (run.generated.mapped i).1 = pos ∧
        (run.generated.entries.getD pos Request.default).write = true)
    (hreq : ∀ k r, requests[k]? = some r → r = run.generated.request_at
      (run.generated.mapped (run.index + k)).1 (run.generated.mapped run.index).2
        run.generated.pass)
    (hreports : ∀ report ∈ reports, report.1 < requests.length) {slots : Slots} {g : Positions}
    (hg : ((reports.foldl (complete requests) run).verify_reads slots requests 0).generated = g) :
    g.Phased (run.index + requests.length) ∧
    (∀ pos, run.generated.marked pos = true → g.marked pos = true ∨
      ∃ r ∈ requests, is_read_back r = true ∧ r.block = (run.generated.recheck pos).block) ∧
    ∀ report ∈ reports, (requests.getD report.1 Request.default).write = true →
      ∃ pos, g.marked pos = true ∧
        (g.recheck pos).block = (requests.getD report.1 Request.default).block := by
  obtain ⟨hre, hmarks⟩ := batch_marks hv hw hg
  rw [hrun] at hv halt
  have hflags := fun k r (hk : requests[k]? = some r) =>
    (congrArg Request.write (hreq k r hk)).trans (Positions.request_at_flags _ halt _ _ _).1
  have hverify := fun k r (hk : requests[k]? = some r) =>
    (congrArg Request.verify (hreq k r hk)).trans (Positions.request_at_flags _ halt _ _ _).2
  have hblock : ∀ k r, requests[k]? = some r →
      r.block = (run.generated.recheck (run.generated.mapped (run.index + k)).1).block := by
    intro k r hk
    rw [hreq k r hk, Positions.request_at_block]
  have hgetD : ∀ report ∈ reports,
      requests[report.1]? = some (requests.getD report.1 Request.default) := by
    intro report hr
    rw [List.getD_eq_getElem _ _ (hreports report hr), List.getElem?_eq_getElem]
  obtain ⟨hle, hboundary⟩ := Positions.pass_next hv hn hpass
  rw [← hre.pass, ← hre.len_eq] at hle hboundary
  -- what is left of a row's mark after the batch
  have hdue' : ∀ pos i, run.generated.Due (run.index + requests.length) i →
      (run.generated.mapped i).1 = pos →
      (run.generated.entries.getD pos Request.default).write = true →
      ∃ i, g.Due (run.index + requests.length) i ∧ (g.mapped i).1 = pos ∧
        (g.entries.getD pos Request.default).write = true := by
    intro pos i h1 h2 h3
    refine ⟨i, (hre.due_iff _ _).mpr h1, ?_, ?_⟩
    · rw [hre.mapped_eq]
      exact h2
    · rw [(hre.fields pos).2.2.1]
      exact h3
  cases hphase : (run.generated.mapped run.index).2 with
  | false =>
    rw [hphase] at hflags hverify
    have hmarks' : ∀ pos, g.marked pos = true ↔ run.generated.marked pos = true ∨
        ∃ report ∈ reports, (requests.getD report.1 Request.default).write = true ∧
          (run.generated.mapped (run.index + report.1)).1 = pos := by
      intro pos
      rw [hmarks]
      refine and_iff_left fun k r hk hr => ?_
      have hread := hverify k r hk
      rw [((is_read_back_iff r).mp hr).1] at hread
      cases hread
    refine ⟨⟨hle, hboundary, fun pos hm => ?_⟩, fun pos hm => ?_, fun report hr hwrite => ?_⟩
    · rcases (hmarks' pos).mp hm with hold | ⟨report, hr, hwrite, hpos⟩
      · obtain ⟨i, h1, h2, h3⟩ := hdue pos hold
        exact hdue' pos i (h1.next_of_op hv hn hphase) h2 h3
      · have hrow := hflags _ _ (hgetD report hr)
        rw [hwrite, hpos] at hrow
        exact hdue' pos _ (Positions.due_of_op hv hn hpass hphase (hreports report hr)) hpos
          (by simpa using hrow.symm)
    · exact .inl ((hmarks' pos).mpr (.inl hm))
    · refine ⟨_, (hmarks' _).mpr (.inr ⟨report, hr, hwrite, rfl⟩), ?_⟩
      rw [hre.recheck_eq, hblock _ _ (hgetD report hr)]
  | true =>
    rw [hphase] at hflags hverify
    have hmarks' : ∀ pos, g.marked pos = true ↔ run.generated.marked pos = true ∧
        ∀ k r, requests[k]? = some r → is_read_back r = true →
          (run.generated.mapped (run.index + k)).1 ≠ pos := by
      intro pos
      rw [hmarks]
      refine and_congr_left fun _ => or_iff_left ?_
      rintro ⟨report, hr, hwrite, _⟩
      rw [hflags _ _ (hgetD report hr)] at hwrite
      cases hwrite
    refine ⟨⟨hle, hboundary, fun pos hm => ?_⟩, fun pos hm => ?_, fun report hr hwrite => ?_⟩
    · obtain ⟨hold, hnot⟩ := (hmarks' pos).mp hm
      obtain ⟨i, h1, h2, h3⟩ := hdue pos hold
      refine hdue' pos i ⟨h1.op, Nat.lt_of_lt_of_le h1.before (Nat.le_add_right _ _), ?_, h1.pass⟩
        h2 h3
      -- otherwise the check of the mark is in the batch
      by_contra hlt
      have hafter := h1.after
      have hk : run.generated.check_of i - run.index < requests.length := by omega
      have hget := List.getElem?_eq_getElem hk
      have hmapped := (Positions.check_of.spec hv h1.op).1
      rw [show run.generated.check_of i =
        run.index + (run.generated.check_of i - run.index) by omega, h2] at hmapped
      apply hnot _ _ hget
      · rw [is_read_back_iff, hverify _ _ hget, hflags _ _ hget, hmapped, h3]
        exact ⟨rfl, rfl⟩
      · rw [hmapped]
    · by_cases hm' : g.marked pos = true
      · exact .inl hm'
      · have hread := mt (hmarks' pos).mpr hm'
        push Not at hread
        obtain ⟨k, r, hk, hr, hpos⟩ := hread hm
        exact .inr ⟨r, List.mem_of_getElem? hk, hr, by rw [hblock k r hk, hpos]⟩
    · rw [hflags _ _ (hgetD report hr)] at hwrite
      cases hwrite

/-- A batch of a verifying plan keeps the marks with their checks still to come.
A mark stays or its row is read back, and every completed write has its row marked. -/
theorem batch_phased {run : Run} (hrun : run.work = run.generated.work)
    (hv : run.work.verify = true) (hw : run.work.write_verify = false)
    (halt : run.work.alternate = false) (h : run.generated.Phased run.index) {limit : Nat}
    (hlimit : limit ≤ run.generated.phase_remaining run.index) {requests : List Request} {a : Run}
    (hfill : run.fill_batch limit = (requests, a)) {reports : List (Nat × ℚ)}
    (hreports : ∀ report ∈ reports, report.1 < requests.length) (slots : Slots) {g : Positions}
    (hg : ((reports.foldl (complete requests) a).verify_reads slots requests 0).generated = g) :
    g.Phased (run.index + requests.length) ∧
    (∀ pos, run.generated.marked pos = true →
      (g.marked pos = true ∧ g.recheck pos = run.generated.recheck pos) ∨
        ∃ r ∈ requests, is_read_back r = true ∧ r.block = (run.generated.recheck pos).block) ∧
    ∀ report ∈ reports, (requests.getD report.1 Request.default).write = true →
      ∃ pos, g.marked pos = true ∧
        (g.recheck pos).block = (requests.getD report.1 Request.default).block := by
  rw [hrun] at hv halt
  generalize hq : run.generated.enter_pass (run.index / run.generated.len) = q
  obtain ⟨hindex, htable, hn, hpass, hreq⟩ := fill_batch_phase hv hw hlimit hfill hq
  have hawork : a.work = run.work := by
    have hframe := run.fill_batch_frame limit
    rw [hfill] at hframe
    exact hframe.work
  rcases htable with htable | ⟨rfl, htable⟩
  · -- the batch has entered the pass of its index, with the marks that are left
    have henter : (∀ pos, q.marked pos = true → ∃ i, q.Due run.index i ∧ (q.mapped i).1 = pos ∧
          (q.entries.getD pos Request.default).write = true) ∧
        ∀ pos, run.generated.marked pos = true →
          q.marked pos = true ∧ q.recheck pos = run.generated.recheck pos := by
      rcases h.enter_pass hv with hsame | ⟨_, hnone, hnone'⟩
      · rw [hq] at hsame
        rw [hsame]
        exact ⟨h.due, fun pos hm => ⟨hm, rfl⟩⟩
      · rw [hq] at hnone'
        refine ⟨fun pos hm => ?_, fun pos hm => ?_⟩
        · rw [hnone' pos] at hm
          cases hm
        · rw [hnone pos] at hm
          cases hm
    have hqwork : q.work = run.generated.work := by rw [← hq, Positions.enter_pass_work]
    have hwork : a.work = a.generated.work := by rw [hawork, htable, hqwork, hrun]
    rw [← htable] at hn hpass hreq henter
    rw [← hindex] at hn hpass hreq henter ⊢
    obtain ⟨h1, h2, h3⟩ := phase_batch hwork (by rw [hawork, hrun]; exact hv)
      (by rw [hawork]; exact hw) (by rw [hawork, hrun]; exact halt) hn hpass henter.1 hreq hreports hg
    refine ⟨h1, fun pos hm => ?_, h3⟩
    obtain ⟨hm', hrecheck⟩ := henter.2 pos hm
    rw [← hrecheck]
    have hre := (batch_marks (by rw [hawork, hrun]; exact hv) (by rw [hawork]; exact hw) hg).1
    exact (h2 pos hm').imp (fun hmark => ⟨hmark, hre.recheck_eq pos⟩) id
  · have hnone : reports = [] := List.eq_nil_iff_forall_not_mem.mpr fun report hr =>
      Nat.not_lt_zero _ (hreports report hr)
    subst hnone
    have hsame : g = run.generated := by rw [← hg, ← htable]; rfl
    rw [hsame]
    exact ⟨h, fun pos hm => .inl ⟨hm, rfl⟩, by simp⟩

/-- A `v` batch hands out the read that was pending, and reads each of its
writes back unless that read is pending now. -/
theorem fill_write_verify_answers (room : Nat → Bool) (n i bytes : Nat) (run : Run)
    (hp : ∀ r, run.wv_pending = some r → r.write = false) :
    (∀ r, run.wv_pending = some r → r ∈ (fill wv_next room n i bytes run).1 ∨
      (fill wv_next room n i bytes run).2.wv_pending = some r) ∧
    (∀ w ∈ (fill wv_next room n i bytes run).1, w.write = true →
      read_back_of w ∈ (fill wv_next room n i bytes run).1 ∨
        (fill wv_next room n i bytes run).2.wv_pending = some (read_back_of w)) ∧
    (∀ r, (fill wv_next room n i bytes run).2.wv_pending = some r → r.write = false) ∧
    (fill wv_next room n i bytes run).2.generated = run.generated ∧
    (fill wv_next room n i bytes run).2.index = run.index := by
  induction n generalizing i bytes run with
  | zero => exact ⟨fun r hr => .inr hr, by simp [fill], hp, rfl, rfl⟩
  | succ n ih =>
    unfold fill
    split_ifs
    · cases hpend : run.wv_pending with
      | some read =>
        have hnext : run.wv_next i = (read, { run with wv_pending := none }) := by
          simp only [wv_next, hpend]
        obtain ⟨h1, h2, h3, h4, h5⟩ := ih (i + 1) (bytes + read.len)
          { run with wv_pending := none } (by simp)
        rw [hnext]
        refine ⟨fun r hr => ?_, fun w hmem hwrite => ?_, h3, h4, h5⟩
        · cases hr
          exact .inl List.mem_cons_self
        · rcases List.mem_cons.mp hmem with rfl | hmem
          · rw [hp _ hpend] at hwrite
            cases hwrite
          · exact (h2 w hmem hwrite).imp (List.mem_cons_of_mem _) id
      | none =>
        rcases hreq : write_verify_request run.work run.wv_lo run.wv_hi run.wv_count run.wv_state
          with ⟨request, count, state⟩
        have hnext : run.wv_next i = (request,
            { run with wv_count := count, wv_state := state
                       wv_pending := some (read_back_of request) }) := by
          simp only [wv_next, hpend, hreq]
        obtain ⟨h1, h2, h3, h4, h5⟩ := ih (i + 1) (bytes + request.len)
          { run with wv_count := count, wv_state := state
                     wv_pending := some (read_back_of request) } (by
            intro r hr
            cases hr
            rfl)
        rw [hnext]
        refine ⟨by simp, fun w hmem hwrite => ?_, h3, h4, h5⟩
        rcases List.mem_cons.mp hmem with rfl | hmem
        · exact (h1 _ rfl).imp (List.mem_cons_of_mem _) id
        · exact (h2 w hmem hwrite).imp (List.mem_cons_of_mem _) id
    · exact ⟨fun r hr => .inr hr, by simp, hp, rfl, rfl⟩

theorem fill_batch_unmarked {run : Run} (h : ∀ pos, run.generated.marked pos = false)
    (limit : Nat) : ∀ pos, (run.fill_batch limit).2.generated.marked pos = false := by
  refine (fill_batch_induct (P := fun _ a => ∀ pos, a.generated.marked pos = false)
    (R := fun _ _ => True) ?_ ?_ limit run h).2.1
  · intro i a ha _
    exact ⟨trivial, Positions.enter_pass_unmarked ha _⟩
  · intro i a ha _
    refine ⟨trivial, ?_⟩
    unfold wv_next
    split <;> exact ha

theorem fill_batch_kept {run : Run} (hp : ∀ r, run.wv_pending = some r → r.write = false)
    (limit : Nat) : (∀ r, (run.fill_batch limit).2.wv_pending = some r → r.write = false) ∧
      (run.fill_batch limit).2.index = run.index := by
  refine (fill_batch_induct (P := fun _ a => (∀ r, a.wv_pending = some r → r.write = false) ∧
    a.index = run.index) (R := fun _ _ => True) ?_ ?_ limit run ⟨hp, rfl⟩).2.1
  · intro i a ha _
    exact ⟨trivial, ha⟩
  · intro i a ha _
    refine ⟨trivial, ?_⟩
    unfold wv_next
    split
    · exact ⟨by simp, ha.2⟩
    · refine ⟨fun r hr => ?_, ha.2⟩
      cases hr
      rfl

end Run

namespace Batches

variable {b c : Batches}

theorem getD_write_of_reads {requests : List Request} (h : ∀ r ∈ requests, r.write = false)
    (i : Nat) : (requests.getD i Request.default).write = false := by
  rw [List.getD_eq_getElem?_getD]
  cases hr : requests[i]? with
  | none => rfl
  | some r => exact h r (List.mem_of_getElem? hr)

/-- What the scan at the end does: it adds calls and reads, and no write. -/
structure Scanned (b c : Batches) (taken : List Request) : Prop where
  frame : Run.Frame b.run c.run
  wv_pending : c.run.wv_pending = b.run.wv_pending
  done : ∀ e ∈ c.done, e.2.write = true → e ∈ b.done
  checked : ∃ new, c.checked = b.checked ++ new ∧ new.map Prod.snd = taken ∧
    ∀ e ∈ new, b.calls < e.1 ∧ e.2.write = false

/-- `verify_pending` keeps the count of the marks, and unless it fails it reads
each marked row once, in the order of the table, and leaves no mark. -/
theorem verify_pending.spec {respond : Nat → List Request → Execution} {round cursor : Nat}
    (hd : 0 < b.run.work.depth) (hcount : b.run.generated.Counted)
    (hclean : b.run.generated.Clean cursor) (h : verify_pending respond b round cursor = some c) :
    c.run.generated.Counted ∧ (b.error = false → c.error = false →
      c.run.generated.pending_checks = 0 ∧ Scanned b c (b.run.generated.pending cursor)) := by
  fun_induction Batches.verify_pending respond b round cursor with
  | case1 b round cursor requests after hnil =>
    obtain ⟨h1, h2, _, h4, h5⟩ := Positions.take_pending.spec hcount hclean b.run.work.depth
    rw [← Option.some.inj h]
    refine ⟨h2, fun _ _ => ⟨h5 hd hnil, ?_⟩⟩
    rw [Positions.pending_of_count h2 (h5 hd hnil), List.append_nil] at h4
    exact ⟨Run.Frame.of_table h1.toFrame, rfl, fun e he _ => he, [], by simp [after, taken], by
      rw [h4]
      exact hnil.symm, by simp⟩
  | case2 b round cursor requests after hne hl hf =>
    obtain ⟨_, h2, _⟩ := Positions.take_pending.spec hcount hclean b.run.work.depth
    rw [← Option.some.inj h]
    refine ⟨h2, fun _ herr => ?_⟩
    rw [show (after.execute requests (respond round requests)).error = true from hf] at herr
    cases herr
  | case3 b round cursor requests after hne hl hf ih =>
    obtain ⟨h1, h2, h3, h4, _⟩ := Positions.take_pending.spec hcount hclean b.run.work.depth
    have hreads : ∀ r ∈ requests, r.write = false := fun r hr =>
      ((is_read_back_iff r).mp (Positions.take_pending_reads _ _ _ r hr)).2
    have htable : ((after.execute requests (respond round requests)).rechecked
        requests).run.generated = after.run.generated := Run.verify_all_generated _ _ _ _
    have hframe : Run.Frame b.run ((after.execute requests (respond round requests)).rechecked
        requests).run :=
      (Run.Frame.of_table h1.toFrame).trans (Run.verify_all_frame _ _ _ _)
    rw [hframe.work, htable] at ih
    obtain ⟨i1, i2⟩ := ih hd h2 h3 h
    refine ⟨i1, fun _ herr => ?_⟩
    have hfailed : (respond round requests).failed = false := by simpa using hf
    obtain ⟨i3, i4⟩ := i2 hfailed herr
    obtain ⟨new, i5, i6, i7⟩ := i4.checked
    refine ⟨i3, hframe.trans i4.frame, ?_, fun e he hw => ?_,
      requests.map (fun r => (b.calls + 1, r)) ++ new, ?_, ?_, fun e he => ?_⟩
    · obtain ⟨stats, hall⟩ := Run.verify_all_parts
        (after.execute requests (respond round requests)).slots requests 0 after.run
      have hpending := congrArg Run.wv_pending hall
      rw [i4.wv_pending]
      exact hpending
    · rcases List.mem_append.mp (i4.done e he hw) with hold | hnew
      · exact hold
      · obtain ⟨report, _, rfl⟩ := List.mem_map.mp hnew
        rw [getD_write_of_reads hreads] at hw
        cases hw
    · rw [i5]
      simp [rechecked, execute, after, taken]
    · rw [List.map_append, i6, h4, List.map_map]
      congr 1
      exact List.map_id _
    · rcases List.mem_append.mp he with he | he
      · obtain ⟨r, hr, rfl⟩ := List.mem_map.mp he
        exact ⟨Nat.lt_succ_self _, hreads r hr⟩
      · obtain ⟨h6, h7⟩ := i7 e he
        exact ⟨Nat.lt_of_succ_lt h6, h7⟩
  | case4 => cases h

/-! ## One batch -/

/-- A batch up to the checks of its reads. -/
def read (b : Batches) (requests : List Request) (a : Run) (x : Execution) : Batches :=
  (((b.filled requests a).execute requests x).completed requests x).verified requests

theorem read_kept (b : Batches) (requests : List Request) (a : Run) (x : Execution) :
    (b.read requests a x).run.wv_pending = a.wv_pending ∧
      (b.read requests a x).run.index = a.index := by
  obtain ⟨p, stats, h1⟩ := Run.completes_parts requests x.reports a
  obtain ⟨q, stats', h2⟩ := Run.verify_reads_parts ((b.filled requests a).execute requests x).slots
    requests 0 (x.reports.foldl (Run.complete requests) a)
  rw [show (b.read requests a x).run =
    Run.verify_reads ((b.filled requests a).execute requests x).slots requests 0
      (x.reports.foldl (Run.complete requests) a) from rfl, h2, h1]
  exact ⟨rfl, rfl⟩

/-- A batch that ends without an error executed its requests, checked its reads
and compacted its writes. -/
theorem batch_ok {x y : Execution} {flushed : Bool} (h : b.batch x flushed y = some c)
    (herr : c.error = false) : ∃ requests a, b.run.fill_batch b.run.batch_limit = (requests, a) ∧
      x.Legal requests.length ∧ x.failed = false ∧
      (b.read requests a x).compact requests y = some c := by
  obtain ⟨requests, a, hfill, hlegal, d, rfl, ⟨hx, rfl⟩ | ⟨_, rfl⟩ | ⟨hx, hc⟩⟩ := batch_cases h
  · rw [show (((b.filled requests a).execute requests x).completed requests x).error = true
      from hx] at herr
    cases herr
  · cases herr
  · exact ⟨requests, a, hfill, hlegal, hx, hc⟩

/-- The writes of a batch are compacted and read back with `-v` alone. -/
theorem compact_ok {requests : List Request} {y : Execution} (h : b.compact requests y = some c)
    (herr : c.error = false) :
    (c = b.advanced requests.length ∧
      (b.run.verify = false ∨ b.run.work.verify = true ∨ Run.compacted requests = [])) ∨
    (b.run.work.verify = false ∧ y.failed = false ∧
      c = ((b.execute (Run.compacted requests) y).rechecked
        (Run.compacted requests)).advanced requests.length) := by
  rcases compact_cases h with h1 | ⟨_, h2, _, ⟨hy, rfl⟩ | ⟨hy, rfl⟩⟩
  · exact .inl h1
  · rw [show (b.execute (Run.compacted requests) y).error = true from hy] at herr
    cases herr
  · exact .inr ⟨h2, hy, rfl⟩

theorem compact_kept {requests : List Request} {y : Execution} (h : b.compact requests y = some c)
    (herr : c.error = false) : c.run.generated = b.run.generated ∧
      c.run.wv_pending = b.run.wv_pending ∧ c.run.index = b.run.index + requests.length := by
  rcases compact_ok h herr with ⟨rfl, _⟩ | ⟨_, _, rfl⟩
  · exact ⟨rfl, rfl, rfl⟩
  · obtain ⟨stats, hparts⟩ := Run.verify_all_parts (b.execute (Run.compacted requests) y).slots
      (Run.compacted requests) 0 b.run
    have hrun : (((b.execute (Run.compacted requests) y).rechecked
        (Run.compacted requests)).advanced requests.length).run =
        { b.run with stats := stats, index := b.run.index + requests.length } := by
      simp only [advanced, rechecked]
      rw [show (b.execute (Run.compacted requests) y).run = b.run from rfl, hparts]
    rw [hrun]
    exact ⟨rfl, rfl, rfl⟩

/-- A read that was checked answers for a write that completed: it read the
block in a later call, or in the call of the write where a `v` batch holds both. -/
def Answers (work : Workload) (w r : Nat × Request) : Prop :=
  r.2.write = false ∧ r.2.block = w.2.block ∧
    (w.1 < r.1 ∨ (w.1 = r.1 ∧ work.write_verify = true ∧ 2 ≤ work.depth))

/-- The check of a write is still to come: its read is pending, or its row is marked. -/
def Owed (b : Batches) (w : Request) : Prop :=
  (b.run.work.write_verify = true ∧ b.run.wv_pending = some (read_back_of w)) ∨
    ∃ pos, b.run.generated.marked pos = true ∧ (b.run.generated.recheck pos).block = w.block

/-- Every completed write of a verified workload was read back, or its check is
still to come. -/
structure Accounted (run : Run) (b : Batches) : Prop where
  frame : Run.Frame run b.run
  calls : ∀ e ∈ b.done, e.1 ≤ b.calls
  pending : ∀ r, b.run.wv_pending = some r → r.write = false
  phased : run.work.verify = true → run.work.write_verify = false →
    b.run.generated.Phased b.run.index
  unmarked : ¬ (run.work.verify = true ∧ run.work.write_verify = false) →
    ∀ pos, b.run.generated.marked pos = false
  done : run.verify = true ∨ run.work.verify = true → ∀ e ∈ b.done, e.2.write = true →
    (∃ r ∈ b.checked, Answers run.work e r) ∨ b.Owed e.2

variable {run : Run}

theorem batch_limit_le_phase (run : Run) :
    run.batch_limit ≤ run.generated.phase_remaining run.index := Nat.min_le_right _ _

/-- The completions of a batch are those of the run before it and its reports. -/
theorem calls_of_batch (h : ∀ e ∈ b.done, e.1 ≤ b.calls) (requests : List Request) (x : Execution) :
    ∀ e ∈ (b.execute requests x).done, e.1 ≤ (b.execute requests x).calls := by
  intro e he
  rcases List.mem_append.mp he with he | he
  · exact Nat.le_succ_of_le (h e he)
  · obtain ⟨report, _, rfl⟩ := List.mem_map.mp he
    exact Nat.le_refl _

theorem read_frame {requests : List Request} {a : Run} {limit : Nat}
    (hfill : b.run.fill_batch limit = (requests, a)) (x : Execution) :
    Run.Frame b.run (b.read requests a x).run := by
  have hframe := b.run.fill_batch_frame limit
  rw [hfill] at hframe
  exact (hframe.trans (Run.completes_frame requests x.reports a)).trans
    (Run.verify_reads_frame _ _ _ _)

/-- What a checked read answers for, it answers for with more checks. -/
theorem answered_append {work : Workload} {e : Nat × Request} {checked new : List (Nat × Request)}
    (h : ∃ r ∈ checked, Answers work e r) : ∃ r ∈ checked ++ new, Answers work e r := by
  obtain ⟨r, hr, ha⟩ := h
  exact ⟨r, List.mem_append_left _ hr, ha⟩

theorem two_le_length {l : List Request} {r w : Request} (hr : r ∈ l) (hw : w ∈ l) (hne : r ≠ w) :
    2 ≤ l.length := by
  match l with
  | [] => cases hr
  | [e] =>
    rw [List.mem_singleton.mp hr, List.mem_singleton.mp hw] at hne
    exact absurd rfl hne
  | _ :: _ :: _ => simp

theorem compacted_mem {requests : List Request} {w : Request} (h : w ∈ requests)
    (hw : w.write = true) : { w with write := false } ∈ Run.compacted requests :=
  List.mem_map_of_mem (f := fun r : Request => { r with write := false })
    (List.mem_filter.mpr ⟨h, hw⟩)

section

variable {x : Execution} {requests : List Request} {a : Run}
  (hfill : b.run.fill_batch b.run.batch_limit = (requests, a)) (hlegal : x.Legal requests.length)

include hfill hlegal

/-- A batch of the plan of a verifying workload, up to its index. -/
theorem Accounted.read_plan (h : b.Accounted run) (hwork : run.work = run.generated.work)
    (hv : run.work.verify = true) (hw : run.work.write_verify = false)
    (halt : run.work.alternate = false) :
    ((b.read requests a x).advanced requests.length).Accounted run := by
  have hpwork : b.run.work = b.run.generated.work := by
    rw [h.frame.work, h.frame.table_work, hwork]
  obtain ⟨hkept, hnext⟩ := b.read_kept requests a x
  obtain ⟨hpending, hindex⟩ := Run.fill_batch_kept h.pending b.run.batch_limit
  rw [hfill] at hpending hindex
  obtain ⟨h1, h2, h3⟩ := Run.batch_phased hpwork (by rw [h.frame.work]; exact hv)
    (by rw [h.frame.work]; exact hw) (by rw [h.frame.work]; exact halt) (h.phased hv hw)
    (batch_limit_le_phase b.run) hfill hlegal.2.1 ((b.filled requests a).execute requests x).slots
    (g := (b.read requests a x).run.generated) rfl
  have hbound := calls_of_batch h.calls requests x
  refine ⟨(h.frame.trans (read_frame hfill x)).trans (advanced_frame _ _), hbound, ?_, ?_,
    fun hc => absurd ⟨hv, hw⟩ hc, fun hverified e he hwrite => ?_⟩
  · exact fun r hr => hpending r (hkept.symm.trans hr)
  · intro _ _
    simp only [advanced, hnext.trans hindex]
    exact h1
  · rcases List.mem_append.mp he with hold | hnew
    · rcases h.done hverified e hold hwrite with hanswered | ⟨hpair, _⟩ | ⟨pos, hm, hblock⟩
      · exact .inl (answered_append hanswered)
      · rw [h.frame.work, hw] at hpair
        cases hpair
      · rcases h2 pos hm with ⟨hm', hrecheck⟩ | ⟨r, hr, hread, hrblock⟩
        · exact .inr (.inr ⟨pos, hm', by rw [← hblock, ← hrecheck]; rfl⟩)
        · -- the batch has read the row back
          refine .inl ⟨(b.calls + 1, r), List.mem_append_right _ ?_,
            ((is_read_back_iff r).mp hread).2, hrblock.trans hblock, .inl ?_⟩
          · exact List.mem_map_of_mem (List.mem_filter.mpr ⟨hr, hread⟩)
          · exact Nat.lt_succ_of_le (h.calls e hold)
    · obtain ⟨report, hr, rfl⟩ := List.mem_map.mp hnew
      obtain ⟨pos, hm, hblock⟩ := h3 report hr hwrite
      exact .inr (.inr ⟨pos, hm, hblock⟩)

/-- A `v` batch: the table is not touched, and each write is read back in the
batch or its read is pending. -/
theorem Accounted.read_pairs (h : b.Accounted run) (hw : run.work.write_verify = true)
    (hd : 0 < run.work.depth) :
    ((b.read requests a x).advanced requests.length).Accounted run := by
  obtain ⟨hkept, hnext⟩ := b.read_kept requests a x
  obtain ⟨hpending, hindex⟩ := Run.fill_batch_kept h.pending b.run.batch_limit
  have hbw : b.run.work.write_verify = true := by rw [h.frame.work]; exact hw
  have hmode : ¬ (run.work.verify = true ∧ run.work.write_verify = false) := by simp [hw]
  have hbatch : b.run.fill_batch b.run.batch_limit =
      Run.fill Run.wv_next (fun _ => true) b.run.batch_limit 0 0 b.run := by
    simp only [Run.fill_batch, hbw, if_true, Run.fill_write_verify]
  obtain ⟨h1, h2, _, h4, _⟩ := Run.fill_write_verify_answers (fun _ => true) b.run.batch_limit 0 0
    b.run h.pending
  have hlen := b.run.fill_batch_length_le b.run.batch_limit
  have hdepth := b.run.batch_limit_le (by rw [h.frame.work]; exact hd)
  rw [h.frame.work] at hdepth
  rw [← hbatch, hfill] at h1 h2 h4
  rw [hfill] at hpending hindex hlen
  have haw : a.work.write_verify = true := by
    have hframe := b.run.fill_batch_frame b.run.batch_limit
    rw [hfill] at hframe
    rw [hframe.work]
    exact hbw
  have hcompleted : (x.reports.foldl (Run.complete requests) a).work.write_verify = true := by
    rw [(Run.completes_frame requests x.reports a).work]
    exact haw
  have htable : (b.read requests a x).run.generated = b.run.generated :=
    (Run.verify_reads_table _ requests 0 hcompleted).trans
      ((Run.completes_table requests x.reports (.inr haw)).trans h4)
  have hcwork : (b.read requests a x).run.work.write_verify = true := by
    rw [(read_frame hfill x).work]
    exact hbw
  refine ⟨(h.frame.trans (read_frame hfill x)).trans (advanced_frame _ _),
    calls_of_batch h.calls requests x, fun r hr => hpending r (hkept.symm.trans hr), ?_, ?_, ?_⟩
  · exact fun _ hc => absurd hc (by simp [hw])
  · intro _ pos
    show (b.read requests a x).run.generated.marked pos = false
    rw [htable]
    exact h.unmarked hmode pos
  · intro hverified e he hwrite
    rcases List.mem_append.mp he with hold | hnew
    · rcases h.done hverified e hold hwrite with hanswered | ⟨_, hpair⟩ | ⟨pos, hm, _⟩
      · exact .inl (answered_append hanswered)
      · rcases h1 _ hpair with hmem | hpair'
        · refine .inl ⟨(b.calls + 1, read_back_of e.2), List.mem_append_right _ ?_, rfl, rfl,
            .inl (Nat.lt_succ_of_le (h.calls e hold))⟩
          exact List.mem_map_of_mem (List.mem_filter.mpr ⟨hmem, rfl⟩)
        · exact .inr (.inl ⟨hcwork, hkept.trans hpair'⟩)
      · rw [h.unmarked hmode pos] at hm
        cases hm
    · obtain ⟨report, hr, rfl⟩ := List.mem_map.mp hnew
      have hlt := hlegal.2.1 report hr
      have hw' : requests.getD report.1 Request.default ∈ requests := by
        rw [List.getD_eq_getElem _ _ hlt]
        exact List.getElem_mem hlt
      rcases h2 _ hw' hwrite with hmem | hpair
      · -- the batch holds the write and its read-back
        have htwo : 2 ≤ requests.length := two_le_length hw' hmem (by
          intro heq
          rw [heq] at hwrite
          cases hwrite)
        refine .inl ⟨(b.calls + 1, read_back_of (requests.getD report.1 Request.default)),
          List.mem_append_right _ ?_, rfl, rfl, .inr ⟨rfl, hw, ?_⟩⟩
        · exact List.mem_map_of_mem (List.mem_filter.mpr ⟨hmem, rfl⟩)
        · exact Nat.le_trans htwo (Nat.le_trans hlen hdepth)
      · exact .inr (.inl ⟨hcwork, hkept.trans hpair⟩)

/-- A batch of a plan that does not verify: with `-v` its writes are read back
in the next call. -/
theorem Accounted.batch_plain (h : b.Accounted run) (hv : run.work.verify = false)
    (hw : run.work.write_verify = false) {y : Execution}
    (hc : (b.read requests a x).compact requests y = some c) (herr : c.error = false) :
    c.Accounted run := by
  obtain ⟨hkept, _⟩ := b.read_kept requests a x
  obtain ⟨hpending, _⟩ := Run.fill_batch_kept h.pending b.run.batch_limit
  have hmode : ¬ (run.work.verify = true ∧ run.work.write_verify = false) := by simp [hv]
  have hunmarked := Run.fill_batch_unmarked (h.unmarked hmode) b.run.batch_limit
  have hframe := h.frame.trans (read_frame hfill x)
  have hawork : a.work = run.work := by
    have hfilled := b.run.fill_batch_frame b.run.batch_limit
    rw [hfill] at hfilled
    rw [hfilled.work, h.frame.work]
  rw [hfill] at hpending hunmarked
  have htable : ∀ pos, (b.read requests a x).run.generated.marked pos = false := by
    intro pos
    have hcompleted := Run.completes_frame requests x.reports a
    have hreads := (Run.verify_reads_marks ((b.filled requests a).execute requests x).slots requests
      0 (by rw [hcompleted.work, hawork]; exact hw)).2 pos
    rw [Run.completes_table requests x.reports (.inl (by rw [hawork]; exact hv))] at hreads
    rw [Bool.eq_false_iff]
    intro hm
    have hm' := (hreads.mp hm).1
    rw [hunmarked pos] at hm'
    cases hm'
  -- the writes of the runs before it, and its own
  have hdone : run.verify = true ∨ run.work.verify = true → ∀ e ∈ (b.read requests a x).done,
      e.2.write = true → (∃ r ∈ (b.read requests a x).checked, Answers run.work e r) ∨
        (e.1 = b.calls + 1 ∧ e.2 ∈ requests) := by
    intro hverified e he hwrite
    rcases List.mem_append.mp he with hold | hnew
    · rcases h.done hverified e hold hwrite with hanswered | ⟨hpair, _⟩ | ⟨pos, hm, _⟩
      · exact .inl (answered_append hanswered)
      · rw [h.frame.work, hw] at hpair
        cases hpair
      · rw [h.unmarked hmode pos] at hm
        cases hm
    · obtain ⟨report, hr, rfl⟩ := List.mem_map.mp hnew
      have hlt := hlegal.2.1 report hr
      refine .inr ⟨rfl, ?_⟩
      rw [List.getD_eq_getElem _ _ hlt]
      exact List.getElem_mem hlt
  have hcalls := calls_of_batch h.calls requests x
  rcases compact_ok hc herr with ⟨rfl, hnone⟩ | ⟨_, hy, rfl⟩
  · refine ⟨hframe.trans (advanced_frame _ _), hcalls,
      fun r hr => hpending r (hkept.symm.trans hr), fun hc _ => absurd hc (by simp [hv]),
      fun _ => htable, fun hverified e he hwrite => ?_⟩
    rcases hdone hverified e he hwrite with hanswered | ⟨_, hmem⟩
    · exact .inl hanswered
    · rw [hframe.verify, hframe.work] at hnone
      have hread := compacted_mem hmem hwrite
      rcases hnone with hnone | hnone | hnone
      · rw [hnone, hv] at hverified
        simp at hverified
      · rw [hnone] at hv
        cases hv
      · rw [hnone] at hread
        cases hread
  · have hall : Run.Frame (b.read requests a x).run
        (((b.read requests a x).execute (Run.compacted requests) y).rechecked
          (Run.compacted requests)).run := Run.verify_all_frame _ _ _ _
    obtain ⟨stats, hparts⟩ := Run.verify_all_parts
      ((b.read requests a x).execute (Run.compacted requests) y).slots (Run.compacted requests) 0
      (b.read requests a x).run
    have htable' := congrArg Run.generated hparts
    have hkept' := congrArg Run.wv_pending hparts
    refine ⟨(hframe.trans hall).trans (advanced_frame _ _),
      calls_of_batch hcalls (Run.compacted requests) y,
      fun r hr => hpending r (hkept.symm.trans (hkept'.symm.trans hr)),
      fun hc _ => absurd hc (by simp [hv]), fun _ pos => ?_, fun hverified e he hwrite => ?_⟩
    · show (Run.verify_all _ _ 0 (b.read requests a x).run).generated.marked pos = false
      rw [Run.verify_all_generated]
      exact htable pos
    · rcases List.mem_append.mp he with he | he
      · rcases hdone hverified e he hwrite with hanswered | ⟨hcall, hmem⟩
        · exact .inl (answered_append hanswered)
        · refine .inl ⟨(b.calls + 2, { e.2 with write := false }), List.mem_append_right _ ?_, rfl,
            rfl, .inl (by rw [hcall]; exact Nat.lt_succ_self _)⟩
          exact List.mem_map_of_mem (compacted_mem hmem hwrite)
      · obtain ⟨report, _, rfl⟩ := List.mem_map.mp he
        rw [getD_write_of_reads fun r hr => compacted_reads hr] at hwrite
        cases hwrite

end

/-! ## Whole runs -/

/-- What a run that ended without an error has done. -/
structure Complete (run : Run) (b : Batches) : Prop where
  pending_checks : b.run.generated.pending_checks = 0
  done : run.verify = true ∨ run.work.verify = true → ∀ w ∈ b.done, w.2.write = true →
    (∃ r ∈ b.checked, Answers run.work w r) ∨
      (run.work.write_verify = true ∧ b.run.wv_pending = some (read_back_of w.2))

variable {platform : Platform} {p : Plan}

/-- A prepared run is at the start of a new table. -/
theorem prepare_start (hrun : Run.prepare platform p = .ok run) : run.index = 0 ∧
    run.wv_pending = none ∧ run.generated.pass = 0 ∧ run.generated.Counted ∧
    ∀ pos, run.generated.marked pos = false := by
  unfold Run.prepare at hrun
  split at hrun
  · cases hrun
  · rename_i g hg
    cases hrun
    obtain ⟨_, _, _, hpass, hzero, _⟩ := Positions.new_cases hg
    have hunmarked := Positions.new_unmarked hg
    exact ⟨rfl, rfl, hpass, Positions.counted_of_unmarked hunmarked hzero, hunmarked⟩

theorem Accounted.start (hrun : Run.prepare platform p = .ok run) : (start run).Accounted run := by
  obtain ⟨hindex, hnone, hpass, _, hunmarked⟩ := prepare_start hrun
  refine ⟨Run.Frame.refl run, by simp [Batches.start], by simp [Batches.start, hnone],
    fun _ _ => ⟨?_, .inl ?_, fun pos hm => ?_⟩, fun _ => hunmarked, by simp [Batches.start]⟩
  · simp [Batches.start, hpass]
  · simp [Batches.start, hindex]
  · rw [show (Batches.start run).run = run from rfl, hunmarked pos] at hm
    cases hm

theorem Accounted.batch (hp : p.work.Parsed) (hrun : Run.prepare platform p = .ok run)
    (h : b.Accounted run) {x y : Execution} {flushed : Bool} (hb : b.batch x flushed y = some c)
    (herr : c.error = false) : c.Accounted run := by
  obtain ⟨requests, a, hfill, hlegal, _, hc⟩ := batch_ok hb herr
  obtain ⟨hwork, htable⟩ := Run.prepare_work hrun
  have hread : run.work.verify = true →
      c = (b.read requests a x).advanced requests.length := by
    intro hv
    rcases compact_ok hc herr with ⟨hc, _⟩ | ⟨hnot, _⟩
    · exact hc
    · rw [((h.frame.trans (read_frame hfill x)).work), hv] at hnot
      cases hnot
  by_cases hv : run.work.verify = true
  · rw [hread hv]
    by_cases hw : run.work.write_verify = true
    · exact h.read_pairs hfill hlegal hw (by rw [hwork]; exact hp.depth_pos)
    · exact h.read_plan hfill hlegal (by rw [hwork, htable]) hv (by simpa using hw)
        (by rw [hwork] at hv ⊢; exact hp.not_alternate hv)
  · have hw : run.work.write_verify = false := by
      rw [Bool.eq_false_iff]
      intro hc
      rw [hwork] at hv hc
      exact hv (hp.verify_iff.mpr (.inl hc))
    exact h.batch_plain hfill hlegal (by simpa using hv) hw hc herr

/-- The count of the marks holds through a batch, also one that fails. -/
theorem batch_counted (h : b.run.generated.Counted) {x y : Execution} {flushed : Bool}
    (hb : b.batch x flushed y = some c) : c.run.generated.Counted := by
  obtain ⟨requests, a, hfill, _, d, hd, hcases⟩ := batch_cases hb
  have hfilled := Run.fill_batch_counted h b.run.batch_limit
  rw [hfill] at hfilled
  have hdone : d.run.generated.Counted := by
    rw [hd]
    exact Run.completes_counted requests x.reports hfilled
  rcases hcases with ⟨_, rfl⟩ | ⟨_, rfl⟩ | ⟨_, hc⟩
  · exact hdone
  · exact hdone
  · have hread : (d.verified requests).run.generated.Counted :=
      Run.verify_reads_counted d.slots requests 0 hdone
    rcases compact_cases hc with ⟨rfl, _⟩ | ⟨_, _, _, ⟨_, rfl⟩ | ⟨_, rfl⟩⟩
    · exact hread
    · exact hread
    · show (Run.verify_all _ _ 0 (d.verified requests).run).generated.Counted
      rw [Run.verify_all_generated]
      exact hread

theorem clean_zero (p : Positions) : p.Clean 0 := fun _ hi => absurd hi (Nat.not_lt_zero _)

theorem finish_counted (hd : b.error = false → 0 < b.run.work.depth)
    (h : b.run.generated.Counted) {respond : Nat → List Request → Execution}
    (hf : b.finish respond = some c) : c.run.generated.Counted := by
  rcases finish_cases hf with ⟨_, herr, _, d, hd', rfl⟩ | ⟨_, rfl⟩
  · exact (verify_pending.spec (hd herr) h (clean_zero _) hd').1
  · exact h

theorem batch_ended {x y : Execution} {flushed : Bool} (h : b.batch x flushed y = some c) :
    c.ended = b.ended := by
  obtain ⟨requests, a, _, _, d, rfl, ⟨_, rfl⟩ | ⟨_, rfl⟩ | ⟨_, hc⟩⟩ := batch_cases h
  · rfl
  · rfl
  · rcases compact_cases hc with ⟨rfl, _⟩ | ⟨_, _, _, ⟨_, rfl⟩ | ⟨_, rfl⟩⟩ <;> rfl

/-- A run that ends without an error had none before its end. -/
theorem finish_error {respond : Nat → List Request → Execution} (h : b.finish respond = some c)
    (herr : c.error = false) : b.error = false := by
  rcases finish_cases h with ⟨_, h1, _⟩ | ⟨_, rfl⟩
  · exact h1
  · exact herr

/-- The scan at the end answers for every write that is still owed a check. -/
theorem Accounted.finish (h : b.Accounted run) (hd : 0 < run.work.depth)
    (hcount : b.run.generated.Counted) (herr : b.error = false)
    {respond : Nat → List Request → Execution} (hf : b.finish respond = some c)
    (herr' : c.error = false) : Complete run c := by
  rcases finish_cases hf with ⟨hv, _, hw, d, hd', rfl⟩ | ⟨hnot, rfl⟩
  · obtain ⟨_, hspec⟩ := verify_pending.spec (by rw [h.frame.work]; exact hd) hcount (clean_zero _) hd'
    obtain ⟨hzero, hscan⟩ := hspec herr herr'
    obtain ⟨new, h1, h2, h3⟩ := hscan.checked
    refine ⟨hzero, fun hverified w hmem hwrite => .inl ?_⟩
    have hold := hscan.done w hmem hwrite
    show ∃ r ∈ d.checked, _
    rw [h1]
    rcases h.done hverified w hold hwrite with hanswered | ⟨hpair, _⟩ | ⟨pos, hm, hblock⟩
    · exact answered_append hanswered
    · rw [hw] at hpair
      cases hpair
    · have hpending : b.run.generated.recheck pos ∈ b.run.generated.pending 0 := by
        refine List.mem_map_of_mem (List.mem_filter.mpr ⟨?_, hm⟩)
        rw [List.mem_range'_1]
        have := Positions.marked_lt hm
        omega
      rw [← h2] at hpending
      obtain ⟨r, hr, hrecheck⟩ := List.mem_map.mp hpending
      obtain ⟨hlater, hread⟩ := h3 r hr
      refine ⟨r, List.mem_append_right _ hr, hread, by rw [hrecheck, hblock], .inl ?_⟩
      exact Nat.lt_of_le_of_lt (h.calls w hold) hlater
  · have hmode : ¬ (run.work.verify = true ∧ run.work.write_verify = false) := by
      rw [h.frame.work] at hnot
      rintro ⟨h1, h2⟩
      rcases hnot with h3 | h3 | h3
      · rw [h1] at h3
        cases h3
      · rw [herr] at h3
        cases h3
      · rw [h2] at h3
        cases h3
    have hunmarked := h.unmarked hmode
    refine ⟨Positions.count_of_pending hcount (clean_zero _) ?_, fun hverified w hmem hwrite => ?_⟩
    · simp [Positions.pending, hunmarked]
    · rcases h.done hverified w hmem hwrite with hanswered | ⟨hpair, hpending⟩ | ⟨pos, hm, _⟩
      · exact .inl hanswered
      · rw [h.frame.work] at hpair
        exact .inr ⟨hpair, hpending⟩
      · rw [hunmarked pos] at hm
        cases hm

/-- After a run that ends without an error, every completed write of a verified
workload was read back and checked in a later call, or in its own call where a
`v` batch holds both; only a `v` read that was still pending is left. In every
state the count of the table is the number of its marks, and the scan at the
end reads each marked row once and leaves none. -/
theorem a_completed_write_is_read_back (hp : p.work.Parsed)
    (hrun : Run.prepare platform p = .ok run) {es : List Event}
    (hb : machine.run step (start run) es = some b) :
    b.run.generated.pending_checks = b.run.generated.entries.countP (·.verify) ∧
    (∀ env respond c, step b (.finish env respond) = some c → run.work.verify = true →
      run.work.write_verify = false → b.error = false → c.error = false →
      c.checked.map Prod.snd = b.checked.map Prod.snd ++ b.run.generated.pending 0 ∧
        c.run.generated.pending_checks = 0) ∧
    (b.ended = true → b.error = false → Complete run b) := by
  have hdepth : 0 < run.work.depth := by
    rw [(Run.prepare_work hrun).1]
    exact hp.depth_pos
  obtain ⟨_, _, _, hcount, _⟩ := prepare_start hrun
  have hinv := machine.invariant (P := fun b : Batches => b.run.generated.Counted ∧
    (b.error = false → b.ended = false → b.Accounted run) ∧
    (b.ended = true → b.error = false → Complete run b)) ?_ hb
    ⟨hcount, fun _ _ => Accounted.start hrun, by simp [start]⟩
  · obtain ⟨h1, h2, h3⟩ := hinv
    refine ⟨h1, fun env respond c hs hv hw herr herr' => ?_, h3⟩
    obtain ⟨hended, ⟨_, _, _, _, hc, _⟩ | ⟨_, _, hc, _, hf⟩⟩ := step_cases hs
    · cases hc
    · cases hc
      have hacc := h2 herr hended
      rcases finish_cases hf with ⟨_, _, _, d, hd, rfl⟩ | ⟨hnot, _⟩
      · obtain ⟨hzero, hscan⟩ := (verify_pending.spec (by rw [hacc.frame.work]; exact hdepth) h1
          (clean_zero _) hd).2 herr herr'
        obtain ⟨new, h4, h5, _⟩ := hscan.checked
        refine ⟨?_, hzero⟩
        rw [← h5, ← List.map_append, ← h4]
      · rw [hacc.frame.work, hv, herr, hw] at hnot
        simp at hnot
  · rintro b e c ⟨h1, h2, h3⟩ hs
    obtain ⟨hended, ⟨env, x, flushed, y, rfl, herr, _, hbatch⟩ | ⟨env, respond, rfl, _, hf⟩⟩ :=
      step_cases hs
    · have hacc := h2 herr hended
      have hcend : c.ended = false := by rw [batch_ended hbatch, hended]
      refine ⟨batch_counted h1 hbatch, fun herr' _ => hacc.batch hp hrun hbatch herr', ?_⟩
      intro hc
      rw [hcend] at hc
      cases hc
    · have hcend : c.ended = true := by
        rcases finish_cases hf with ⟨_, _, _, d, _, rfl⟩ | ⟨_, rfl⟩ <;> rfl
      have hdepth' : b.error = false → 0 < b.run.work.depth := by
        intro herr
        rw [(h2 herr hended).frame.work]
        exact hdepth
      refine ⟨finish_counted hdepth' h1 hf, fun _ hc => ?_, fun _ herr' => ?_⟩
      · rw [hcend] at hc
        cases hc
      · have herr : b.error = false := finish_error hf herr'
        exact (h2 herr hended).finish hdepth h1 herr hf herr'

/-- Two blocks, written from a loaded table with a flush after each batch. -/
def flushedPlan (work : Workload) (verify : Bool) : Plan :=
  { Plan.sample { work with flush := true } with
    loaded := [{ Request.default with len := 4096, write := true },
      { Request.default with offset := 4096, len := 4096, write := true }]
    verify := verify
    position_capacity := 2 }

/-- A call that completes two requests, the second first, and reads zeros. -/
def secondFirst : Execution :=
  { answers := fun _ => memory.Memory.zero, reports := [(1, 0), (0, 0)], failed := false }

/-- One batch of two requests, and an interrupt. -/
def oneBatch : List Event :=
  [.batch .calm secondFirst true secondFirst,
    .finish { interrupted := true, elapsed := 0 } fun _ _ => secondFirst]

theorem flushed_writes_parsed :
    (flushedPlan { read_probability := 0, depth := 2 } true).work.Parsed := by
  refine ⟨{ w := { depth := 2, flush := true }, probability := some 0 },
    ⟨by decide, by decide, by decide, by decide, by decide, by decide, by decide, by decide,
      by decide⟩, rfl⟩

/-- With `-v`, two writes are read back in the next call. -/
theorem two_writes_are_read_back : ∃ run b,
    Run.prepare .Linux (flushedPlan { read_probability := 0, depth := 2 } true) = .ok run ∧
    machine.run step (start run) oneBatch = some b ∧ b.done.length = 4 ∧
    b.run.generated.pending_checks = 0 ∧
    ∀ w ∈ b.done, w.2.write = true → ∃ r ∈ b.checked, w.1 < r.1 ∧ r.2.block = w.2.block := by
  obtain ⟨run, b, hrun, hb, hlen, hverify, hw, hended, herr⟩ : ∃ run b,
      Run.prepare .Linux (flushedPlan { read_probability := 0, depth := 2 } true) = .ok run ∧
      machine.run step (start run) oneBatch = some b ∧ b.done.length = 4 ∧ run.verify = true ∧
      run.work.write_verify = false ∧ b.ended = true ∧ b.error = false :=
    ⟨_, _, rfl, rfl, rfl, rfl, rfl, rfl, rfl⟩
  obtain ⟨_, _, hcomplete⟩ := a_completed_write_is_read_back flushed_writes_parsed hrun hb
  obtain ⟨hzero, hdone⟩ := hcomplete hended herr
  refine ⟨run, b, hrun, hb, hlen, hzero, fun w hmem hwrite => ?_⟩
  rcases hdone (.inl hverify) w hmem hwrite with ⟨r, hr, _, hblock, hlater | ⟨_, hc, _⟩⟩ | ⟨hc, _⟩
  · exact ⟨r, hr, hlater, hblock⟩
  · rw [hw] at hc
    cases hc
  · rw [hw] at hc
    cases hc

theorem flushed_pairs_parsed :
    (flushedPlan (.pairs 4096 2 none) false).work.Parsed := by
  refine ⟨{ w := { depth := 2, flush := true }, write_verify := true, explicit_depth := true },
    ⟨by decide, by decide, by decide, by decide, by decide, by decide, by decide, by decide,
      by decide⟩, rfl⟩

/-- A `v` batch of two holds a write and its read-back: the read completes
before the write, and is the only read of the block that is checked. -/
theorem a_read_back_completes_before_its_write : ∃ run b w,
    (flushedPlan (.pairs 4096 2 none) false).work.Parsed ∧
    Run.prepare .Linux (flushedPlan (.pairs 4096 2 none) false) = .ok run ∧
    run.streamed = false ∧ machine.run step (start run) oneBatch = some b ∧ b.ended = true ∧
    b.error = false ∧ run.work.verify = true ∧ w.write = true ∧
    b.done = [(1, read_back_of w), (1, w)] ∧ b.checked = [(1, read_back_of w)] :=
  ⟨_, _, _, flushed_pairs_parsed, rfl, rfl, rfl, rfl, rfl, rfl, rfl, rfl, rfl⟩

end Batches

end stutools
