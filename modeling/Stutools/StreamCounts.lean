-- The operations a streamed run counts. A read-back counts if it completes
-- before the limit is reached, so the count is exact only when no read-back
-- is still on its way at that moment.
import Stutools.StreamRuns

namespace stutools

namespace Streaming

/-! ## Runs that only the operation limit ends -/

/-- The byte limit is not reached. -/
def BytesLeft (s : Stream) : Prop := ∀ m, s.byte_limit = some m → s.queued_bytes < m

/-- No interrupt, no deadline and no byte limit stops the run at this call. -/
def Calm (w : Streaming) : Event → Prop
  | .source env => env.interrupted = false ∧
      (∀ d, w.stream.duration = some d → env.elapsed < d) ∧ BytesLeft w.stream
  | .finish _ _ _ _ => BytesLeft w.stream

/-- The run is over, and only the operation limit ended it. -/
def Ended (s : Stream) (depth : Nat) (w : Streaming) : Prop :=
  ∃ events env t, machine.run (step depth) (start s) events = some w ∧
    machine.Along (step depth) Calm (start s) events ∧ Calm w (.source env) ∧
    w.stream.source env = (.done, t)

theorem limit_reached_eq {s : Stream} {n : Nat} (hn : s.limit = some n) (hb : BytesLeft s) :
    s.limit_reached = decide (n ≤ s.ops) := by
  unfold Stream.limit_reached
  rw [hn]
  cases hm : s.byte_limit with
  | none => simp
  | some m =>
    have := hb m hm
    simp
    omega

theorem stopped_eq {w : Streaming} {env : Env} {n : Nat} (hn : w.stream.limit = some n)
    (hc : w.Calm (.source env)) : w.stream.stopped env = decide (n ≤ w.stream.ops) := by
  obtain ⟨h1, h2, h3⟩ := hc
  unfold Stream.stopped
  rw [h1, limit_reached_eq hn h3]
  cases hd : w.stream.duration with
  | none => simp
  | some d =>
    have := h2 d hd
    simp
    intro hle
    exact absurd this (not_lt.mpr hle)

/-! ## The record of completions -/

/-- Every request handed out is in a slot or completed, under its place. -/
structure Recorded (w : Streaming) : Prop where
  records : (w.out.map Prod.swap ++ w.completions.map fun d => (d.request, d.seq)).Perm
    w.issued.zipIdx
  operations : w.stream.stats.operations = w.completions.countP (·.counted)
  moment : ∀ d ∈ w.completions, d.seq < d.moment

theorem Recorded.start {s : Stream} (h : Begun s) : Recorded (Streaming.start s) := by
  refine ⟨?_, ?_, ?_⟩
  · simp [Streaming.start]
  · simp [Streaming.start, h.stats, Stats.operations]
  · simp [Streaming.start]

theorem Recorded.source {w : Streaming} {env : Env} {n : Next} {t : Stream} (h : Recorded w)
    (hn : w.stream.source env = (n, t)) : Recorded (w.asked n t) := by
  have hstats := (Stream.source_sent hn).2.2
  refine ⟨?_, ?_, h.moment⟩
  · cases n with
    | request r =>
      simp only [asked, Next.handed, List.map_cons, List.map_nil,
        List.zipIdx_append, List.cons_append]
      have h1 := h.records.cons (r, w.issued.length)
      refine h1.trans (List.perm_append_singleton _ _).symm |>.trans ?_
      simp
    | wait => simpa [asked, Next.handed] using h.records
    | done => simpa [asked, Next.handed] using h.records
  · have ht : (w.asked n t).stream.stats = w.stream.stats := hstats
    rw [ht]
    exact h.operations

theorem Recorded.finish {w : Streaming} {env : Env} {i seq : Nat} {state : UInt8}
    {buffer : List UInt8} {r : Request} {t : Stream} (h : Recorded w)
    (hi : w.out[i]? = some (seq, r))
    (hf : w.stream.finish env buffer { r with state := state } = some t) :
    Recorded (w.completed i seq r t) := by
  have hops := Stream.finish_operations hf
  have hseq : seq < w.issued.length := by
    have hmem : (r, seq) ∈ w.issued.zipIdx := by
      rw [← h.records.mem_iff, List.mem_append, List.mem_map]
      exact .inl ⟨(seq, r), List.mem_of_getElem? hi, rfl⟩
    simpa using (List.mem_zipIdx hmem).2.1
  refine ⟨?_, ?_, ?_⟩
  · have hout := (vec.perm_eraseIdx_of_getElem? hi).map Prod.swap
    have h1 := (hout.append_right (w.completions.map fun d => (d.request, d.seq))).symm.trans
      h.records
    simp only [completed, List.map_append, List.map_cons, List.map_nil]
    rw [← List.append_assoc]
    exact (List.perm_append_singleton _ _).trans h1
  · have hops' : t.stats.operations = w.stream.stats.operations + _ := hops
    simp only [completed, List.countP_append, List.countP_singleton, ← h.operations,
      decide_eq_true_eq]
    split_ifs at hops' ⊢ <;> omega
  · intro d hd
    rcases List.mem_append.mp hd with hd | hd
    · exact h.moment d hd
    · rw [List.mem_singleton.mp hd]
      exact hseq

/-- Which completions are counted. -/
theorem completed_counted {w : Streaming} {env : Env} (i seq : Nat) {state : UInt8}
    {buffer : List UInt8} {r : Request} {t : Stream}
    (hf : w.stream.finish env buffer { r with state := state } = some t) :
    ∀ d ∈ (w.completed i seq r t).completions, d ∈ w.completions ∨
      d = { seq := seq
            request := r
            counted := !is_read_back r || (w.stream.counted_read_backs && !w.stream.limit_reached)
            moment := w.issued.length } := by
  intro d hd
  rcases List.mem_append.mp hd with hd | hd
  · exact .inl hd
  · right
    rw [List.mem_singleton.mp hd]
    have hops := Stream.finish_operations hf
    have hsame : is_read_back { r with state := state } = is_read_back r := rfl
    rw [hsame] at hops
    unfold Stats.operations
    cases hc : (!is_read_back r || (w.stream.counted_read_backs && !w.stream.limit_reached))
    all_goals
      simp only [hc, Bool.false_eq_true, if_false, if_true] at hops
      simp
      omega

/-- The count is exact: `n` operations, which are the first `n` requests handed out. -/
def Exact (n : Nat) (w : Streaming) : Prop :=
  w.stream.stats.operations = n ∧ ∀ d ∈ w.completions, d.counted = true ↔ d.seq < n

theorem countP_range_lt (n k : Nat) : (List.range (n + k)).countP (fun i => decide (i < n)) = n := by
  rw [List.range_add, List.countP_append]
  have h1 : (List.range n).countP (fun i => decide (i < n)) = (List.range n).length := by
    rw [List.countP_eq_length]
    intro i hi
    simpa using hi
  have h2 : ((List.range k).map (n + ·)).countP (fun i => decide (i < n)) = 0 := by
    rw [List.countP_eq_zero]
    intro i hi
    obtain ⟨j, _, rfl⟩ := List.mem_map.mp hi
    simp
  rw [h1, h2, List.length_range, Nat.add_zero]

/-- The places of the completions are those of the requests handed out. -/
theorem Recorded.seqs {w : Streaming} (h : Recorded w) (hout : w.out = []) :
    (w.completions.map Completion.seq).Perm (List.range w.issued.length) := by
  have h1 := h.records.map Prod.snd
  rw [hout, List.zipIdx_map_snd] at h1
  rw [List.range_eq_range']
  simpa [Function.comp_def] using h1

theorem Recorded.exact {w : Streaming} (h : Recorded w) (hout : w.out = []) {n : Nat}
    (hn : n ≤ w.issued.length) (hc : ∀ d ∈ w.completions, d.counted = true ↔ d.seq < n) :
    Exact n w := by
  refine ⟨?_, hc⟩
  obtain ⟨k, hk⟩ := Nat.exists_eq_add_of_le hn
  calc w.stream.stats.operations
      = w.completions.countP (·.counted) := h.operations
    _ = w.completions.countP (fun d => decide (d.seq < n)) :=
        List.countP_congr fun d hd => by simpa using hc d hd
    _ = (w.completions.map Completion.seq).countP (fun i => decide (i < n)) := by
        rw [List.countP_map]
        rfl
    _ = (List.range (n + k)).countP (fun i => decide (i < n)) := by
        rw [(h.seqs hout).countP_eq, hk]
    _ = n := countP_range_lt n k

/-- Each request handed out has its completion at the end. -/
theorem Recorded.completion {w : Streaming} (h : Recorded w) (hout : w.out = []) {k : Nat}
    {r : Request} (hk : w.issued[k]? = some r) :
    ∃ d ∈ w.completions, d.seq = k ∧ d.request = r := by
  have hmem : (r, k) ∈ w.issued.zipIdx := by
    rw [List.mk_mem_zipIdx_iff_getElem?]
    exact hk
  rw [← h.records.mem_iff, hout] at hmem
  obtain ⟨d, hd, heq⟩ := List.mem_map.mp hmem
  simp only [Prod.mk.injEq] at heq
  exact ⟨d, hd, heq.2, heq.1⟩

/-! ## Write-verify: the limit counts what is handed out -/

/-- The last request before the limit is a read-back. -/
def LimitOnReadBack (n : Nat) (w : Streaming) : Prop :=
  0 < n ∧ ∃ q, w.issued[n - 1]? = some q ∧ is_read_back q = true

structure Paired (n : Nat) (w : Streaming) : Prop where
  ops : w.stream.wv_ops = w.issued.length
  counted : ∀ d ∈ w.completions, d.counted = (!is_read_back d.request || decide (d.moment < n))
  held : w.stream.held_plan ≠ [] → n ≤ w.issued.length → LimitOnReadBack n w
  late : ∀ k r, n ≤ k → w.issued[k]? = some r → is_read_back r = false → LimitOnReadBack n w

theorem LimitOnReadBack.asked {n : Nat} {w : Streaming} (h : LimitOnReadBack n w) (next : Next)
    (t : Stream) : LimitOnReadBack n (w.asked next t) := by
  obtain ⟨hpos, q, hq, hrb⟩ := h
  obtain ⟨hlt, _⟩ := List.getElem?_eq_some_iff.mp hq
  exact ⟨hpos, q, by simpa only [Streaming.asked, List.getElem?_append_left hlt] using hq, hrb⟩

theorem Paired.source {s₀ : Stream} {n : Nat} {w : Streaming} {env : Env} {next : Next} {t : Stream}
    (h : Paired n w) (ht : Tracked s₀ w) (hw : w.stream.work.write_verify = true)
    (hl : w.stream.limit = some n) (hc : w.Calm (.source env))
    (hn : w.stream.source env = (next, t)) : Paired n (w.asked next t) := by
  have hops : (w.asked next t).stream.wv_ops = (w.asked next t).issued.length := by
    simp [Streaming.asked, Stream.source_wv_ops hn hw, h.ops]
  have hlen : (w.asked next t).issued.length = w.issued.length + next.handed.length := by
    simp [Streaming.asked]
  have hstream : (w.asked next t).stream = t := rfl
  rcases Stream.source_new ht.shaped hn with hsame | ⟨_, _, hstop, _, hnone⟩
  · refine ⟨hops, h.counted, ?_, ?_⟩
    · intro hheld hle
      rw [hstream] at hheld
      have hold : w.stream.held_plan ≠ [] := by
        rw [← hsame]
        exact fun h0 => hheld (List.append_eq_nil_iff.mp h0).2
      by_cases hlt : n ≤ w.issued.length
      · exact (h.held hold hlt).asked next t
      · -- the call reached the limit, and what it handed out is not the held request
        cases next with
        | request q =>
          have hlen' : w.issued.length = n - 1 := by
            simp only [hlen, Next.handed, List.length_singleton] at hle
            omega
          refine ⟨by omega, q, by simp [Streaming.asked, Next.handed, ← hlen'], ?_⟩
          by_contra hq
          have hq' : is_read_back q = false := by simpa using hq
          have hshape := congrArg List.length hsame
          simp only [Next.handed, List.filter_cons, hq', Bool.not_false, if_true, List.filter_nil,
            List.length_append, List.length_singleton] at hshape
          have hone := ht.shaped.held_plan_le
          have hpos := List.length_pos_of_ne_nil hheld
          omega
        | wait => simp only [hlen, Next.handed, List.length_nil] at hle; omega
        | done => simp only [hlen, Next.handed, List.length_nil] at hle; omega
    · intro k r hk hr hrb
      by_cases hlt : k < w.issued.length
      · have hr' : w.issued[k]? = some r := by
          simpa only [Streaming.asked, List.getElem?_append_left hlt] using hr
        exact (h.late k r hk hr' hrb).asked next t
      · have hmem : r ∈ next.handed := by
          rw [Streaming.asked, List.getElem?_append_right (by omega)] at hr
          exact List.mem_of_getElem? hr
        have hold : w.stream.held_plan ≠ [] := by
          rw [← hsame]
          intro h0
          have h1 := (List.append_eq_nil_iff.mp h0).1
          rw [List.filter_eq_nil_iff] at h1
          exact h1 r hmem (by simp [hrb])
        have hk' : k < (w.asked next t).issued.length := (List.getElem?_eq_some_iff.mp hr).1
        have hone : next.handed.length ≤ 1 := by cases next <;> simp [Next.handed]
        exact (h.held hold (by omega)).asked next t
  · -- a new request: the limit is not reached before it is handed out
    have hbefore : w.issued.length < n := by
      rw [stopped_eq hl hc] at hstop
      have : ¬ n ≤ w.stream.ops := by simpa using hstop
      simp only [Stream.ops, hw, if_true, h.ops] at this
      omega
    have hone : next.handed.length ≤ 1 := by cases next <;> simp [Next.handed]
    refine ⟨hops, h.counted, ?_, ?_⟩
    · intro hheld hle
      rcases hnone with hnone | hnone
      · rw [hlen, hnone, List.length_nil] at hle
        omega
      · exact absurd hnone hheld
    · intro k r hk hr _
      have hk' : k < (w.asked next t).issued.length := (List.getElem?_eq_some_iff.mp hr).1
      omega

theorem Paired.finish {n : Nat} {w : Streaming} {env : Env} {i seq : Nat}
    {state : UInt8} {buffer : List UInt8} {r : Request} {t : Stream} (h : Paired n w)
    (hw : w.stream.work.write_verify = true) (hl : w.stream.limit = some n)
    (hcount : w.stream.counted_read_backs = true) (hb : BytesLeft w.stream)
    (hf : w.stream.finish env buffer { r with state := state } = some t) :
    Paired n (w.completed i seq r t) := by
  have hfin := Stream.finish.spec hf
  have hheld : (w.completed i seq r t).stream.held_plan = w.stream.held_plan := by
    simp only [completed, Stream.held_plan, hfin.held]
  refine ⟨hfin.cursors.wv_ops.trans h.ops, ?_, ?_, h.late⟩
  · intro d hd
    rcases completed_counted i seq hf d hd with hd | rfl
    · exact h.counted d hd
    · simp only [hcount, limit_reached_eq hl hb, Stream.ops, hw, if_true, h.ops, Bool.true_and]
      congr 1
      rw [← decide_not]
      exact decide_eq_decide.mpr not_le
  · rw [hheld]
    exact h.held

theorem Paired.start {s : Stream} {n : Nat} (h : Begun s) : Paired n (Streaming.start s) := by
  refine ⟨h.wv_ops, ?_, ?_, ?_⟩
  · simp [Streaming.start]
  · simp [Streaming.start, Stream.held_plan, h.held]
  · simp [Streaming.start]

/-- For write-verify the count is exact just when every read-back among the
first `n` requests completes before the `n`-th is handed out. -/
theorem Paired.exact_iff {n : Nat} {w : Streaming} (h : Paired n w) (hr : Recorded w)
    (hout : w.out = []) (hn : n ≤ w.issued.length) :
    Exact n w ↔ ∀ d ∈ w.completions, is_read_back d.request = true → d.seq < n → d.moment < n := by
  constructor
  · intro hex d hd hrb hseq
    have hc := (hex.2 d hd).mpr hseq
    rw [h.counted d hd, hrb] at hc
    simpa using hc
  · intro hcond
    refine hr.exact hout hn fun d hd => ?_
    have hseq := hr.moment d hd
    rw [h.counted d hd]
    cases hrb : is_read_back d.request with
    | true =>
      have := hcond d hd hrb
      simp only [Bool.not_true, Bool.false_or, decide_eq_true_eq]
      omega
    | false =>
      simp only [Bool.not_false, Bool.true_or, true_iff]
      by_contra hlate
      -- a plan request after the limit: the request at the limit is a read-back
      have hissued : w.issued[d.seq]? = some d.request := by
        rw [← List.mk_mem_zipIdx_iff_getElem?, ← hr.records.mem_iff, List.mem_append]
        exact .inr (List.mem_map.mpr ⟨d, hd, rfl⟩)
      obtain ⟨hpos, q, hq, hqrb⟩ := h.late d.seq d.request (by omega) hissued hrb
      obtain ⟨e, he, heseq, hereq⟩ := hr.completion hout hq
      have hmoment := hr.moment e he
      have := hcond e he (hereq ▸ hqrb) (by omega)
      omega

end Streaming

end stutools
