-- A stream with one slot: each request completes before the next is asked
-- for, so the run goes through its phases in one order. `U` always counts
-- exactly, and two runs of one workload count the same.
import Stutools.StreamCounts

namespace stutools

/-- With nothing held or in flight, a call hands out the oldest owed read-back,
else the plan's next request. -/
theorem Stream.source_idle {s : Stream} (env : Env) (hs : s.Shaped) (hheld : s.held = [])
    (hin : s.in_flight = []) (hout : s.outstanding = 0) :
    (∃ d rest, s.due = d :: rest ∧
      s.source env = (.request d, { s with due := rest }.hand_out d)) ∨
    (s.due = [] ∧ s.stopped env = true ∧ s.source env = (.done, s)) ∨
    (s.due = [] ∧ s.stopped env = false ∧
      ∃ u, s.plan_request = (none, u) ∧ s.source env = (.done, u)) ∨
    (s.due = [] ∧ s.stopped env = false ∧
      ∃ r u, s.plan_request = (some r, u) ∧ s.source env = (.request r, u.hand_out r)) := by
  cases hd : s.due with
  | cons d rest =>
    have hread : d.write = false := ((is_read_back_iff d).mp (hs.due d (by simp [hd]))).2
    have hfree : ∀ e ∈ rest, e.write = false := fun e he =>
      ((is_read_back_iff e).mp (hs.due e (by simp [hd, he]))).2
    left
    refine ⟨d, rest, rfl, ?_⟩
    have hblocked : blocked { s with due := rest } d = false := by
      simp only [blocked, overlaps, hout, hin, Nat.lt_irrefl, decide_false, Bool.and_false,
        List.any_nil, Bool.false_or, Bool.and_eq_false_iff]
      right
      rw [List.any_eq_false]
      intro e he
      simp [gates, conflict_reads hread (hfree e he)]
    simpa [source, candidate, owed_first, hheld, hd, hread] using hblocked
  | nil =>
    right
    by_cases hstop : s.stopped env = true
    · left
      exact ⟨rfl, hstop, by simp [source, candidate, hheld, hd, hstop, hout]⟩
    · right
      have hstop' : s.stopped env = false := by simpa using hstop
      rcases hp : s.plan_request with ⟨o, u⟩
      obtain ⟨hplan, _⟩ := plan_request.spec hp
      cases o with
      | none =>
        left
        refine ⟨rfl, hstop', u, rfl, ?_⟩
        simp [source, candidate, hheld, hd, hstop', hp, hplan.outstanding, hout]
      | some r =>
        right
        refine ⟨rfl, hstop', r, u, rfl, ?_⟩
        have hfirst : u.owed_first r = (r, u) := by
          simp [owed_first, hplan.due, hd]
        have hblocked : u.blocked r = false := by
          simp [blocked, overlaps, hplan.outstanding, hout, hplan.in_flight, hin, hplan.due, hd]
        simp [source, candidate, hheld, hd, hstop', hp, hfirst, hblocked]

namespace Streaming

/-- A free slot among one: nothing is in flight. -/
theorem Tracked.nothing_out {s₀ : Stream} {w : Streaming} (h : Tracked s₀ w) (hout : w.out = []) :
    w.stream.in_flight = [] ∧ w.stream.outstanding = 0 := by
  have hsent : w.sent = [] := by simp [sent, hout]
  have h1 := h.in_flight
  rw [hsent] at h1
  exact ⟨by simpa using h1, by simpa [hout] using h.outstanding⟩

/-- The one slot in use is the one that completes. -/
theorem only_slot {l : List (Nat × Request)} {i : Nat} {x y : Nat × Request} (hx : l = [x])
    (hi : l[i]? = some y) : x = y ∧ l.eraseIdx i = [] := by
  subst hx
  have hi0 : i = 0 := by
    by_contra hne
    rw [List.getElem?_eq_none (by simp; omega)] at hi
    cases hi
  subst hi0
  exact ⟨by simpa using hi, rfl⟩

/-! ## `U`: every operation, then its check -/

/-- A `U` workload that reads back and counts up to `n`. -/
structure Unique (n : Nat) (s : Stream) : Prop where
  write_verify : s.work.write_verify = false
  read_back : s.read_back = true
  counted : s.counted_read_backs = true
  race : s.race = false
  limit : s.limit = some n
  unique_verify : s.generated.work.unique_verify = true
  verify : s.generated.work.verify = true
  alternate : s.generated.work.alternate = false

/-- Whether the plan's next slot is the check of a write. -/
def nextIsCheck (s : Stream) : Bool := is_read_back (s.generated.get s.index).1

/-- Where a run of `U` stands. The place of each request is its slot in the plan. -/
inductive UniquePhase (w : Streaming) : Prop
  | idle (hout : w.out = []) (hdue : w.stream.due = [])
      (hlen : w.issued.length = w.stream.index) (hnext : nextIsCheck w.stream = false)
  | running (seq : Nat) (r : Request) (hout : w.out = [(seq, r)]) (hdue : w.stream.due = [])
      (hr : is_read_back r = false) (hseq : seq + 1 = w.stream.index)
      (hlen : w.issued.length = w.stream.index) (hnext : nextIsCheck w.stream = r.write)
  | owed (d : Request) (hout : w.out = []) (hdue : w.stream.due = [d])
      (hlen : w.issued.length = w.stream.index) (hnext : nextIsCheck w.stream = true)
  | reading (seq : Nat) (d : Request) (hout : w.out = [(seq, d)]) (hdue : w.stream.due = [])
      (hd : is_read_back d = true) (hseq : seq = w.stream.index)
      (hlen : w.issued.length = w.stream.index + 1) (hnext : nextIsCheck w.stream = true)
  | checked (hout : w.out = []) (hdue : w.stream.due = [])
      (hlen : w.issued.length = w.stream.index + 1) (hnext : nextIsCheck w.stream = true)

structure UniqueRun (n : Nat) (w : Streaming) : Prop where
  held : w.stream.held = []
  index : w.stream.index ≤ n
  phase : UniquePhase w
  counted : ∀ d ∈ w.completions, d.counted = true ↔ d.seq < n

section

variable {s₀ : Stream} {n : Nat} {w : Streaming} {env : Env} {t : Stream}

theorem Unique.generated (h : Unique n s₀) (ht : Tracked s₀ w) :
    w.stream.generated.work = s₀.generated.work := by
  rw [← ht.plan.generated h.write_verify, Positions.gets_work]

/-- After a slot is read, the next is a check exactly if it wrote. -/
theorem Unique.next (h : Unique n s₀) (ht : Tracked s₀ w) (i : Nat) :
    is_read_back ((w.stream.generated.get i).2.get (i + 1)).1 = (w.stream.generated.get i).1.write := by
  have hwork := h.generated ht
  exact Positions.next_is_check (by rw [hwork]; exact h.unique_verify)
    (by rw [hwork]; exact h.verify) (by rw [hwork]; exact h.alternate) i

/-- The plan loop of a `U` workload stops at the slot `n`. -/
theorem Unique.plan_request (h : Unique n s₀) (ht : Tracked s₀ w) (hb : BytesLeft w.stream) :
    w.stream.plan_request =
      let read := plan_from (fun i => decide (n ≤ i)) w.stream.generated w.stream.index
      (read.1, { w.stream with generated := read.2.1, index := read.2.2 }) := by
  have hw : w.stream.work.write_verify = false := by rw [ht.frame.work]; exact h.write_verify
  have hlimit : (fun i => Stream.limit_reached { w.stream with index := i }) =
      fun i => decide (n ≤ i) := by
    funext i
    have h1 := limit_reached_eq (s := { w.stream with index := i })
      (ht.frame.limit.trans h.limit) hb
    simpa [Stream.ops, hw] using h1
  simp [Stream.plan_request, hw, hlimit]

theorem Unique.stopped (h : Unique n s₀) (ht : Tracked s₀ w) (hc : w.Calm (.source env)) :
    w.stream.stopped env = decide (n ≤ w.stream.index) := by
  have hw : w.stream.work.write_verify = false := by rw [ht.frame.work]; exact h.write_verify
  rw [stopped_eq (ht.frame.limit.trans h.limit) hc]
  simp [Stream.ops, hw]

/-- Handing out a request of the plan starts its phase. -/
theorem UniqueRun.take (h : UniqueRun n w) (hu : Unique n s₀) (ht : Tracked s₀ w)
    (hout : w.out = []) (hdue : w.stream.due = []) {p : Positions} {i : Nat}
    (hlen : w.issued.length = i) (hi : i < n) (hr : is_read_back (p.get i).1 = false)
    (hnext : is_read_back ((p.get i).2.get (i + 1)).1 = (p.get i).1.write) :
    UniqueRun n (w.asked (.request (p.get i).1)
      ({ w.stream with generated := (p.get i).2, index := i + 1 }.hand_out (p.get i).1)) := by
  have hrace : w.stream.race = false := ht.frame.race.trans hu.race
  refine ⟨h.held, hi, .running i (p.get i).1 ?_ ?_ hr rfl ?_ hnext, h.counted⟩
  · simp [asked, Next.handed, hout, hlen]
  · simp [asked, Stream.hand_out, hrace, hdue]
  · simp [asked, Next.handed, hlen, Stream.hand_out]

theorem UniqueRun.source (h : UniqueRun n w) (hu : Unique n s₀) (ht : Tracked s₀ w)
    (hfree : w.out.length < 1) (hc : w.Calm (.source env)) {next : Next}
    (hn : w.stream.source env = (next, t)) : UniqueRun n (w.asked next t) := by
  have hout : w.out = [] := List.eq_nil_of_length_eq_zero (by omega)
  obtain ⟨hin, houts⟩ := ht.nothing_out hout
  have hrace : w.stream.race = false := ht.frame.race.trans hu.race
  have hstop := hu.stopped ht hc
  have hplan := hu.plan_request ht hc.2.2
  rcases Stream.source_idle env ht.shaped h.held hin houts with ⟨d, rest, hd, hs⟩ |
    ⟨hd, _, hs⟩ | ⟨hd, hgo, u, hu', hs⟩ | ⟨hd, hgo, r, u, hu', hs⟩
  · rw [hn] at hs
    cases hs
    cases h.phase with
    | idle _ hdue => simp [hd] at hdue
    | running _ _ ho => simp [hout] at ho
    | owed d' _ hdue hlen hnext =>
      have hd' : d = d' ∧ rest = [] := by simpa [hd] using hdue
      obtain ⟨rfl, rfl⟩ := hd'
      have hrb : is_read_back d = true := ht.shaped.due d (by simp [hd])
      refine ⟨h.held, h.index, .reading w.issued.length d ?_ ?_ hrb hlen ?_ hnext, h.counted⟩
      · simp [asked, Next.handed, hout]
      · simp [asked, Stream.hand_out, hrace]
      · simp [asked, Next.handed, hlen, Stream.hand_out]
    | reading _ _ ho => simp [hout] at ho
    | checked _ hdue => simp [hd] at hdue
  · rw [hn] at hs
    cases hs
    have hsame : w.asked .done w.stream = w := by simp [asked, Next.handed]
    rw [hsame]
    exact h
  · rw [hn] at hs
    cases hs
    have hlt : ¬ n ≤ w.stream.index := by simpa [hstop] using hgo
    have hl : decide (n ≤ w.stream.index) = false := by simpa using hlt
    rw [hplan] at hu'
    cases h.phase with
    | idle _ _ hlen hnext =>
      rw [plan_from_operation hl hnext] at hu'
      simp at hu'
    | running _ _ ho => simp [hout] at ho
    | owed d' _ hdue => simp [hd] at hdue
    | reading _ _ ho => simp [hout] at ho
    | checked _ _ hlen hnext =>
      have hwrite := ((is_read_back_iff _).mp hnext).2
      have hop := (hu.next ht w.stream.index).trans hwrite
      rw [plan_from_check hl hnext] at hu'
      by_cases hl' : n ≤ w.stream.index + 1
      · rw [plan_from_limited (by simpa using hl')] at hu'
        simp only [Prod.mk.injEq, true_and] at hu'
        subst hu'
        refine ⟨h.held, by simp only [asked]; omega, .idle ?_ ?_ ?_ hop, h.counted⟩
        · simp [asked, Next.handed, hout]
        · simpa [asked] using hd
        · simp [asked, Next.handed, hlen]
      · rw [plan_from_operation (by simpa using hl') hop] at hu'
        simp at hu'
  · rw [hn] at hs
    cases hs
    have hlt : ¬ n ≤ w.stream.index := by simpa [hstop] using hgo
    have hl : decide (n ≤ w.stream.index) = false := by simpa using hlt
    rw [hplan] at hu'
    cases h.phase with
    | idle _ _ hlen hnext =>
      rw [plan_from_operation hl hnext] at hu'
      simp only [Prod.mk.injEq, Option.some.injEq] at hu'
      obtain ⟨rfl, rfl⟩ := hu'
      exact h.take hu ht hout hd hlen (by omega) hnext (hu.next ht _)
    | running _ _ ho => simp [hout] at ho
    | owed d' _ hdue => simp [hd] at hdue
    | reading _ _ ho => simp [hout] at ho
    | checked _ _ hlen hnext =>
      have hwrite := ((is_read_back_iff _).mp hnext).2
      have hop := (hu.next ht w.stream.index).trans hwrite
      rw [plan_from_check hl hnext] at hu'
      by_cases hl' : n ≤ w.stream.index + 1
      · rw [plan_from_limited (by simpa using hl')] at hu'
        simp at hu'
      · rw [plan_from_operation (by simpa using hl') hop] at hu'
        simp only [Prod.mk.injEq, Option.some.injEq] at hu'
        obtain ⟨rfl, rfl⟩ := hu'
        refine h.take hu ht hout hd hlen (by omega) hop ?_
        have hwork : (w.stream.generated.get w.stream.index).2.work = s₀.generated.work := by
          rw [Positions.get_work, hu.generated ht]
        exact Positions.next_is_check (by rw [hwork]; exact hu.unique_verify)
          (by rw [hwork]; exact hu.verify) (by rw [hwork]; exact hu.alternate) _

theorem UniqueRun.finish (h : UniqueRun n w) (hu : Unique n s₀) (ht : Tracked s₀ w)
    (hb : BytesLeft w.stream) {i seq : Nat} {state : UInt8} {buffer : List UInt8} {r : Request}
    (hi : w.out[i]? = some (seq, r))
    (hf : w.stream.finish env buffer { r with state := state } = some t) :
    UniqueRun n (w.completed i seq r t) := by
  have hfin := Stream.finish.spec hf
  have hindex : t.index = w.stream.index := hfin.cursors.index
  have hnext : nextIsCheck t = nextIsCheck w.stream := by
    rw [nextIsCheck, nextIsCheck, hfin.cursors.generated, hindex]
  have hlimit : w.stream.limit_reached = decide (n ≤ w.stream.index) := by
    have hw : w.stream.work.write_verify = false := by rw [ht.frame.work]; exact hu.write_verify
    rw [limit_reached_eq (ht.frame.limit.trans hu.limit) hb]
    simp [Stream.ops, hw]
  have hcrb : w.stream.counted_read_backs = true := ht.frame.counted_read_backs.trans hu.counted
  have hcounted := completed_counted i seq hf
  rw [hcrb, hlimit] at hcounted
  have hdue := hfin.due
  rw [ht.frame.read_back, hu.read_back, ht.frame.race, hu.race] at hdue
  refine ⟨hfin.held.trans h.held, by simpa only [completed, hindex] using h.index, ?_, ?_⟩
  · cases h.phase with
    | idle ho => simp [ho] at hi
    | owed _ ho => simp [ho] at hi
    | checked ho => simp [ho] at hi
    | running seq' r' ho hd hr hseq hlen hn =>
      obtain ⟨heq, hout⟩ := only_slot ho hi
      cases heq
      have hlen' : (w.completed i seq r t).issued.length = t.index := hlen.trans hindex.symm
      rw [hd] at hdue
      cases hw : r.write with
      | true =>
        refine .owed (read_back_of { r with state := state }) hout ?_ hlen' ?_
        · simpa [completed, hw] using hdue
        · exact hnext.trans (hn.trans hw)
      | false =>
        refine .idle hout ?_ hlen' ?_
        · simpa [completed, hw] using hdue
        · exact hnext.trans (hn.trans hw)
    | reading seq' d ho hd hrb hseq hlen hn =>
      obtain ⟨heq, hout⟩ := only_slot ho hi
      cases heq
      have hw : r.write = false := ((is_read_back_iff r).mp hrb).2
      rw [hd] at hdue
      refine .checked hout ?_ ?_ (hnext.trans hn)
      · simpa [completed, hw] using hdue
      · simpa only [completed, hindex] using hlen
  · intro d hd
    rcases hcounted d hd with hd | rfl
    · exact h.counted d hd
    · have hle := h.index
      cases h.phase with
      | idle ho => simp [ho] at hi
      | owed _ ho => simp [ho] at hi
      | checked ho => simp [ho] at hi
      | running seq' r' ho _ hr hseq _ _ =>
        obtain ⟨heq, _⟩ := only_slot ho hi
        cases heq
        simp [hr]
        omega
      | reading seq' d ho _ hrb hseq _ _ =>
        obtain ⟨heq, _⟩ := only_slot ho hi
        cases heq
        simp [hrb]
        omega

theorem UniqueRun.start (hs : Begun s₀) (hu : Unique n s₀) : UniqueRun n (Streaming.start s₀) := by
  have hnext : nextIsCheck s₀ = false := by
    rw [nextIsCheck, hs.index, is_read_back,
      Positions.even_slot_not_check hu.unique_verify hu.verify 0 rfl, Bool.false_and]
  refine ⟨hs.held, ?_, .idle rfl hs.due ?_ hnext, by simp [Streaming.start]⟩
  · simp [Streaming.start, hs.index]
  · simp [Streaming.start, hs.index]

/-! ## `v`: each write, then its read-back -/

/-- Where a run of `v` with one slot stands. -/
inductive PairPhase (n : Nat) (w : Streaming) : Prop
  | idle (hout : w.out = []) (hdue : w.stream.due = []) (heven : w.issued.length % 2 = 0)
      (hle : w.issued.length ≤ n + 1)
  | writing (seq : Nat) (r : Request) (hout : w.out = [(seq, r)]) (hw : r.write = true)
      (hdue : w.stream.due.length = if w.stream.race then 1 else 0)
      (hlen : w.issued.length = seq + 1) (heven : seq % 2 = 0) (hle : w.issued.length ≤ n)
  | owed (hout : w.out = []) (hdue : w.stream.due.length = 1) (hodd : w.issued.length % 2 = 1)
      (hle : w.issued.length ≤ n)
  | reading (seq : Nat) (d : Request) (hout : w.out = [(seq, d)]) (hd : is_read_back d = true)
      (hdue : w.stream.due = []) (hlen : w.issued.length = seq + 1) (hodd : seq % 2 = 1)
      (hle : w.issued.length ≤ n + 1)

structure PairRun (n : Nat) (w : Streaming) : Prop where
  held : w.stream.held = []
  phase : PairPhase n w
  completions : ∀ d ∈ w.completions, d.moment = d.seq + 1 ∧
    (d.request.write = decide (d.seq % 2 = 0)) ∧ is_read_back d.request = decide (d.seq % 2 = 1)

/-- A `v` or `V` workload that counts up to `n`. -/
structure Pairs (n : Nat) (s : Stream) : Prop where
  write_verify : s.work.write_verify = true
  read_back : s.read_back = true
  counted : s.counted_read_backs = true
  limit : s.limit = some n

theorem PairRun.source (h : PairRun n w) (hp : Pairs n s₀) (ht : Tracked s₀ w) (hops : Paired n w)
    (hfree : w.out.length < 1) (hc : w.Calm (.source env)) {next : Next}
    (hn : w.stream.source env = (next, t)) : PairRun n (w.asked next t) := by
  have hout : w.out = [] := List.eq_nil_of_length_eq_zero (by omega)
  obtain ⟨hin, houts⟩ := ht.nothing_out hout
  have hwv : w.stream.work.write_verify = true := by rw [ht.frame.work]; exact hp.write_verify
  have hrb : w.stream.read_back = true := ht.frame.read_back.trans hp.read_back
  have hstop : w.stream.stopped env = decide (n ≤ w.issued.length) := by
    rw [stopped_eq (ht.frame.limit.trans hp.limit) hc]
    simp [Stream.ops, hwv, hops.ops]
  rcases Stream.source_idle env ht.shaped h.held hin houts with ⟨d, rest, hd, hs⟩ |
    ⟨hd, _, hs⟩ | ⟨hd, hgo, u, hu', hs⟩ | ⟨hd, hgo, r, u, hu', hs⟩
  · rw [hn] at hs
    cases hs
    have hdrb : is_read_back d = true := ht.shaped.due d (by simp [hd])
    have hdw := ((is_read_back_iff d).mp hdrb).2
    cases h.phase with
    | idle _ hdue => simp [hd] at hdue
    | writing _ _ ho => simp [hout] at ho
    | owed _ hdue hodd hle =>
      have hrest : rest = [] := by simpa [hd] using hdue
      subst hrest
      refine ⟨h.held, .reading w.issued.length d ?_ hdrb ?_ ?_ hodd ?_, h.completions⟩
      · simp [asked, Next.handed, hout]
      · simp [asked, Stream.hand_out, hdw]
      · simp [asked, Next.handed]
      · simp [asked, Next.handed]; omega
    | reading _ _ ho => simp [hout] at ho
  · rw [hn] at hs
    cases hs
    have hsame : w.asked .done w.stream = w := by simp [asked, Next.handed]
    rw [hsame]
    exact h
  · simp [Stream.plan_request, hwv] at hu'
  · rw [hn] at hs
    cases hs
    have hlt : w.issued.length < n := by
      rw [hstop] at hgo
      simpa using hgo
    have hplan := (Stream.plan_request.spec hu').1
    have hw : r.write = true := by
      simp only [Stream.plan_request, hwv, if_true, Prod.mk.injEq, Option.some.injEq] at hu'
      rw [← hu'.1]
      rfl
    cases h.phase with
    | idle _ _ heven _ =>
      refine ⟨hplan.held.trans h.held, .writing w.issued.length r ?_ hw ?_ ?_ heven ?_,
        h.completions⟩
      · simp [asked, Next.handed, hout]
      · simp only [asked, Stream.hand_out, hplan.race, hplan.read_back, hw, hrb, hplan.due, hd]
        split_ifs <;> simp_all
      · simp [asked, Next.handed]
      · simp [asked, Next.handed]; omega
    | writing _ _ ho => simp [hout] at ho
    | owed _ hdue => simp [hd] at hdue
    | reading _ _ ho => simp [hout] at ho

theorem PairRun.finish (h : PairRun n w) (hp : Pairs n s₀) (ht : Tracked s₀ w) {i seq : Nat}
    {state : UInt8} {buffer : List UInt8} {r : Request} (hi : w.out[i]? = some (seq, r))
    (hf : w.stream.finish env buffer { r with state := state } = some t) :
    PairRun n (w.completed i seq r t) := by
  have hfin := Stream.finish.spec hf
  have hrb : w.stream.read_back = true := ht.frame.read_back.trans hp.read_back
  have hdue := hfin.due
  rw [hrb] at hdue
  refine ⟨hfin.held.trans h.held, ?_, ?_⟩
  · cases h.phase with
    | idle ho => simp [ho] at hi
    | owed ho => simp [ho] at hi
    | writing seq' r' ho hw hd hlen heven hle =>
      obtain ⟨heq, hout⟩ := only_slot ho hi
      cases heq
      refine .owed hout ?_ ?_ hle
      · simp only [completed, hdue, List.length_append, hd, hw]
        cases w.stream.race <;> rfl
      · simp only [completed]
        omega
    | reading seq' d ho hd hdue' hlen hodd hle =>
      obtain ⟨heq, hout⟩ := only_slot ho hi
      cases heq
      have hw : r.write = false := ((is_read_back_iff r).mp hd).2
      refine .idle hout ?_ ?_ hle
      · simp [completed, hdue, hdue', hw]
      · simp only [completed]
        omega
  · intro d hd
    rcases completed_counted i seq hf d hd with hd | rfl
    · exact h.completions d hd
    · cases h.phase with
      | idle ho => simp [ho] at hi
      | owed ho => simp [ho] at hi
      | writing seq' r' ho hw _ hlen heven _ =>
        obtain ⟨heq, _⟩ := only_slot ho hi
        cases heq
        simp [hlen, hw, heven, not_read_back_of_write hw]
      | reading seq' d ho hd _ hlen hodd _ =>
        obtain ⟨heq, _⟩ := only_slot ho hi
        cases heq
        have hw : r.write = false := ((is_read_back_iff r).mp hd).2
        simp [hlen, hw, hodd, hd]

theorem PairRun.start (hs : Begun s₀) : PairRun n (Streaming.start s₀) := by
  refine ⟨hs.held, .idle rfl hs.due rfl ?_, by simp [Streaming.start]⟩
  simp [Streaming.start]

/-! ## Whole runs -/

/-- What every step of a calm run keeps, its end has. -/
theorem Ended.invariant {P : Streaming → Prop} {depth : Nat} (h : Ended s₀ depth w)
    (hs : Begun s₀) (h0 : P (Streaming.start s₀))
    (hsource : ∀ w env, Tracked s₀ w → P w → w.out.length < depth → w.Calm (.source env) →
      P (w.asked (w.stream.source env).1 (w.stream.source env).2))
    (hfinish : ∀ w env i seq state buffer r t, Tracked s₀ w → P w → BytesLeft w.stream →
      w.out[i]? = some (seq, r) →
      w.stream.finish env buffer { r with state := state } = some t → P (w.completed i seq r t)) :
    P w := by
  obtain ⟨events, env, t, hrun, halong, _, _⟩ := h
  have hboth := machine.invariant_along (P := fun w => Tracked s₀ w ∧ P w) ?_ hrun halong
    ⟨Tracked.start hs, h0⟩
  · exact hboth.2
  · intro w e u hw hc hstep
    refine ⟨hw.1.step hstep, ?_⟩
    cases e with
    | source env =>
      simp only [step] at hstep
      split_ifs at hstep with hd
      cases hstep
      exact hsource w env hw.1 hw.2 (by omega) hc
    | finish env i state buffer =>
      simp only [step] at hstep
      split at hstep
      · rename_i seq r hi
        obtain ⟨t, hf, rfl⟩ := Option.map_eq_some_iff.mp hstep
        exact hfinish w env i seq state buffer r t hw.1 hw.2 hc hi hf
      · cases hstep

theorem Ended.recorded {depth : Nat} (h : Ended s₀ depth w) (hs : Begun s₀) : Recorded w :=
  h.invariant hs (Recorded.start hs) (fun _ _ _ hp _ _ => hp.source rfl)
    (fun _ _ _ _ _ _ _ _ _ hp _ hi hf => hp.finish hi hf)

/-- At the end no slot is in use, and nothing is owed. -/
theorem Ended.empty {depth : Nat} (h : Ended s₀ depth w) (hs : Begun s₀) :
    w.out = [] ∧ w.stream.due = [] := by
  obtain ⟨events, env, t, hrun, _, _, hdone⟩ := h
  have ht := tracked_of_run hs hrun
  obtain ⟨_, hdue, _, _, _, hout⟩ := source_done hdone
  exact ⟨List.eq_nil_of_length_eq_zero (ht.outstanding ▸ hout), hdue⟩

/-- A `v` run at its end has reached the limit, and its counts follow the pairs. -/
theorem Ended.paired {depth : Nat} (h : Ended s₀ depth w) (hs : Begun s₀) (hp : Pairs n s₀) :
    Paired n w ∧ n ≤ w.issued.length := by
  have hpaired : Paired n w := by
    refine h.invariant hs (Paired.start hs) ?_ ?_
    · intro w env ht hw _ hc
      exact hw.source ht (by rw [ht.frame.work]; exact hp.write_verify)
        (ht.frame.limit.trans hp.limit) hc rfl
    · intro w env i seq state buffer r t ht hw hb _ hf
      exact hw.finish (by rw [ht.frame.work]; exact hp.write_verify)
        (ht.frame.limit.trans hp.limit) (ht.frame.counted_read_backs.trans hp.counted) hb hf
  refine ⟨hpaired, ?_⟩
  obtain ⟨events, env, t, hrun, _, hc, hdone⟩ := h
  have ht := tracked_of_run hs hrun
  have hwv : w.stream.work.write_verify = true := by rw [ht.frame.work]; exact hp.write_verify
  rcases Stream.source_cases hdone with ⟨hcand, _⟩ | ⟨_, _, _, _, _, _, ⟨_, hn, _⟩ | ⟨_, hn, _⟩⟩
  · rcases Stream.candidate_cases hcand with ⟨_, _, _, hq, _⟩ | ⟨_, _, _, _, hq, _⟩ |
      ⟨_, _, hstop, _, _⟩ | ⟨_, _, _, hplan⟩
    · cases hq
    · cases hq
    · rw [stopped_eq (ht.frame.limit.trans hp.limit) hc] at hstop
      simpa [Stream.ops, hwv, hpaired.ops] using hstop
    · simp [Stream.plan_request, hwv] at hplan
  · cases hn
  · cases hn

theorem Ended.pairRun (h : Ended s₀ 1 w) (hs : Begun s₀) (hp : Pairs n s₀) : PairRun n w := by
  have hboth : Paired n w ∧ PairRun n w := by
    refine h.invariant (P := fun w => Paired n w ∧ PairRun n w) hs
      ⟨Paired.start hs, PairRun.start hs⟩ ?_ ?_
    · intro w env ht hw hfree hc
      refine ⟨?_, hw.2.source hp ht hw.1 hfree hc rfl⟩
      exact hw.1.source ht (by rw [ht.frame.work]; exact hp.write_verify)
        (ht.frame.limit.trans hp.limit) hc rfl
    · intro w env i seq state buffer r t ht hw hb hi hf
      refine ⟨?_, hw.2.finish hp ht hi hf⟩
      exact hw.1.finish (by rw [ht.frame.work]; exact hp.write_verify)
        (ht.frame.limit.trans hp.limit) (ht.frame.counted_read_backs.trans hp.counted) hb hf
  exact hboth.2

theorem Ended.uniqueRun (h : Ended s₀ 1 w) (hs : Begun s₀) (hu : Unique n s₀) : UniqueRun n w :=
  h.invariant hs (UniqueRun.start hs hu)
    (fun _ _ ht hp hfree hc => hp.source hu ht hfree hc rfl)
    (fun _ _ _ _ _ _ _ _ ht hp hb hi hf => hp.finish hu ht hb hi hf)

/-- A `U` run at its end has read the plan up to the limit, and no further. -/
theorem Ended.unique_plan (h : Ended s₀ 1 w) (hs : Begun s₀) (hu : Unique n s₀) :
    n ≤ w.issued.length ∧ (w.issued.filter fun r => !is_read_back r) = s₀.planned n := by
  have hrun := h.uniqueRun hs hu
  obtain ⟨hout, hdue⟩ := h.empty hs
  obtain ⟨events, env, t, hrun', _, hc, hdone⟩ := h
  have ht := tracked_of_run hs hrun'
  have hafter := hrun.source hu ht (by simp [hout]) hc hdone
  obtain ⟨_, _, hheld, hdue', _, _⟩ := source_done hdone
  have hindex : n ≤ t.index := by
    rcases Stream.source_cases hdone with ⟨hcand, _⟩ | ⟨_, _, _, _, _, _, ⟨_, hn, _⟩ | ⟨_, hn, _⟩⟩
    · rcases Stream.candidate_cases hcand with ⟨_, _, _, hq, _⟩ | ⟨_, _, _, _, hq, _⟩ |
        ⟨_, _, hstop, _, rfl⟩ | ⟨_, _, _, hplan⟩
      · cases hq
      · cases hq
      · rw [hu.stopped ht hc] at hstop
        simpa using hstop
      · rcases hfrom : plan_from (fun i => decide (n ≤ i)) w.stream.generated w.stream.index
          with ⟨o, q, j⟩
        rw [hu.plan_request ht hc.2.2, hfrom] at hplan
        simp only [Prod.mk.injEq] at hplan
        obtain ⟨rfl, rfl⟩ := hplan
        simpa using plan_from_none hfrom
    · cases hn
    · cases hn
  have hle : t.index ≤ n := hafter.index
  have hlen : (w.asked .done t).issued = w.issued := by simp [asked, Next.handed]
  constructor
  · cases hafter.phase with
    | idle _ _ h1 => rw [hlen] at h1; simp only [asked] at h1; omega
    | checked _ _ h1 => rw [hlen] at h1; simp only [asked] at h1; omega
    | running _ _ ho => simp [asked, Next.handed, hout] at ho
    | reading _ _ ho => simp [asked, Next.handed, hout] at ho
    | owed _ _ hd => simp [asked, hdue'] at hd
  · have hlist := (ht.source hdone).plan.list
    have hslots : t.slots = n := by
      have hw : t.work.write_verify = false := by
        rw [(Stream.source_frame hdone).work, ht.frame.work]
        exact hu.write_verify
      simp only [Stream.slots, hw, Bool.false_eq_true, if_false]
      omega
    simpa [asked, Next.handed, Stream.held_plan, hheld, hslots] using hlist

/-- A `U` run counts exactly. -/
theorem Ended.unique_exact (h : Ended s₀ 1 w) (hs : Begun s₀) (hu : Unique n s₀) : Exact n w :=
  (h.recorded hs).exact (h.empty hs).1 (h.unique_plan hs hu).1 (h.uniqueRun hs hu).counted

/-- The writes that a run at its end has completed are those it handed out. -/
theorem Ended.completed_writes {depth : Nat} (h : Ended s₀ depth w) (hs : Begun s₀) :
    w.stream.stats.completed_writes = w.issued.countP (·.write) := by
  have hout := (h.empty hs).1
  obtain ⟨events, env, t, hrun, _, _, _⟩ := h
  have ht := tracked_of_run hs hrun
  have hperm : w.issued.Perm w.returned := by simpa [sent, hout] using ht.issued
  rw [ht.completed_writes, hperm.countP_eq]

theorem Ended.unique_counts {w' : Streaming} (h : Ended s₀ 1 w) (h' : Ended s₀ 1 w') (hs : Begun s₀)
    (hu : Unique n s₀) : w.stream.stats.completed_reads = w'.stream.stats.completed_reads ∧
      w.stream.stats.completed_writes = w'.stream.stats.completed_writes := by
  have hplanned : ∀ {w}, Ended s₀ 1 w →
      w.stream.stats.completed_writes = (s₀.planned n).countP (·.write) := by
    intro w hw
    rw [hw.completed_writes hs, ← (hw.unique_plan hs hu).2, List.countP_filter]
    apply List.countP_congr
    intro r _
    by_cases hr : r.write = true
    · simp [hr, not_read_back_of_write hr]
    · simp [hr]
  have hops := (h.unique_exact hs hu).1
  have hops' := (h'.unique_exact hs hu).1
  have hw := hplanned h
  have hw' := hplanned h'
  unfold Stats.operations at hops hops'
  omega

/-- At the end of a `v` run with one slot, the number of requests is fixed. -/
theorem Ended.pair_length (h : Ended s₀ 1 w) (hs : Begun s₀) (hp : Pairs n s₀) :
    w.issued.length = 2 * ((n + 1) / 2) := by
  obtain ⟨hout, hdue⟩ := h.empty hs
  have hn := (h.paired hs hp).2
  cases (h.pairRun hs hp).phase with
  | idle _ _ heven hle => omega
  | writing _ _ ho => simp [hout] at ho
  | owed _ hd => simp [hdue] at hd
  | reading _ _ ho => simp [hout] at ho

theorem Ended.pair_counts {w' : Streaming} (h : Ended s₀ 1 w) (h' : Ended s₀ 1 w') (hs : Begun s₀)
    (hp : Pairs n s₀) : w.stream.stats.completed_reads = w'.stream.stats.completed_reads ∧
      w.stream.stats.completed_writes = w'.stream.stats.completed_writes := by
  have hfixed : ∀ {w}, Ended s₀ 1 w →
      w.stream.stats.operations = (List.range (2 * ((n + 1) / 2))).countP
        (fun i => decide (i % 2 = 0) || decide (i + 1 < n)) ∧
      w.stream.stats.completed_writes = (List.range (2 * ((n + 1) / 2))).countP
        (fun i => decide (i % 2 = 0)) := by
    intro w hw
    have hseqs := (hw.recorded hs).seqs (hw.empty hs).1
    rw [hw.pair_length hs hp] at hseqs
    have hrun := (hw.pairRun hs hp).completions
    constructor
    · rw [(hw.recorded hs).operations, ← hseqs.countP_eq, List.countP_map]
      apply List.countP_congr
      intro d hd
      obtain ⟨h1, _, h3⟩ := hrun d hd
      rw [(hw.paired hs hp).1.counted d hd, h1, h3]
      simp
    · obtain ⟨events, env, t, hrun', _, _, _⟩ := hw
      rw [(tracked_of_run hs hrun').completed_writes, returned, List.countP_map, ← hseqs.countP_eq,
        List.countP_map]
      apply List.countP_congr
      intro d hd
      obtain ⟨_, h2, _⟩ := hrun d hd
      simp [h2]
  obtain ⟨h1, h2⟩ := hfixed h
  obtain ⟨h3, h4⟩ := hfixed h'
  unfold Stats.operations at h1 h3
  omega

end

theorem unique_of_prepare {platform : Platform} {p : Plan} {run : Run}
    (hprep : Run.prepare platform p = .ok run) (hp : p.work.Parsed)
    (hw : p.work.write_verify = false) (hu : p.work.unique_verify = true) {n : Nat}
    (hn : run.limit = some n) (endpoints : Nat) : Unique n (run.stream_of endpoints) := by
  obtain ⟨h1, h2⟩ := Run.prepare_work hprep
  have hv : p.work.verify = true := hp.verify_iff.mpr (.inr (.inl hu))
  have hrace : p.work.write_verify_race = false := by
    rw [Bool.eq_false_iff]
    intro h
    rw [hp.write_verify_of_race h] at hw
    cases hw
  refine ⟨?_, ?_, ?_, ?_, hn, ?_, ?_, ?_⟩
  · simp [Run.stream_of, h1, hw]
  · simp [Run.stream_of, h1, hv]
  · simp [Run.stream_of, h1, hv]
  · simp [Run.stream_of, h1, hrace]
  · simp [Run.stream_of, h2, hu]
  · simp [Run.stream_of, h2, hv]
  · simp [Run.stream_of, h2, hp.not_alternate hv]

theorem pairs_of_prepare {platform : Platform} {p : Plan} {run : Run}
    (hprep : Run.prepare platform p = .ok run) (hw : p.work.write_verify = true) {n : Nat}
    (hn : run.limit = some n) (endpoints : Nat) : Pairs n (run.stream_of endpoints) := by
  have h1 := (Run.prepare_work hprep).1
  refine ⟨?_, ?_, ?_, hn⟩ <;> simp [Run.stream_of, h1, hw]

/-- When the count of a streamed workload with counted read-backs is exact. A
run that its limit `n` ends counts `n` operations, the first `n` requests
handed out, just when, for `v` and `V`, every read-back among those `n`
completes before the `n`-th request is handed out; a `U` run always does. With
one slot, two runs count the same reads and writes. -/
theorem a_count_is_exact_unless_a_read_back_meets_the_limit {platform : Platform} {p : Plan}
    {run : Run} (hprep : Run.prepare platform p = .ok run) (hp : p.work.Parsed)
    (hv : p.work.write_verify = true ∨ p.work.unique_verify = true) {n : Nat}
    (hn : run.limit = some n) (endpoints : Nat) :
    (∀ w, Ended (run.stream_of endpoints) p.work.depth w →
      (Exact n w ↔ (p.work.write_verify = true → ∀ d ∈ w.completions,
        is_read_back d.request = true → d.seq < n → d.moment < n))) ∧
    (p.work.depth = 1 → ∀ w w', Ended (run.stream_of endpoints) p.work.depth w →
      Ended (run.stream_of endpoints) p.work.depth w' →
      w.stream.stats.completed_reads = w'.stream.stats.completed_reads ∧
      w.stream.stats.completed_writes = w'.stream.stats.completed_writes) := by
  have hs := begun_of_prepare hprep endpoints
  by_cases hw : p.work.write_verify = true
  · have hpairs := pairs_of_prepare hprep hw hn endpoints
    constructor
    · intro w hend
      obtain ⟨hpaired, hlen⟩ := hend.paired hs hpairs
      rw [hpaired.exact_iff (hend.recorded hs) (hend.empty hs).1 hlen]
      exact ⟨fun h _ => h, fun h => h hw⟩
    · intro hd w w' h h'
      rw [hd] at h h'
      exact h.pair_counts h' hs hpairs
  · have hw' : p.work.write_verify = false := by simpa using hw
    have hu : p.work.unique_verify = true := hv.resolve_left hw
    have hunique := unique_of_prepare hprep hp hw' hu hn endpoints
    have hd : p.work.depth = 1 := hp.depth_of_unique (hp.unique_of_unique_verify hu)
    rw [hd]
    refine ⟨fun w hend => ?_, fun _ w w' h h' => h.unique_counts h' hs hunique⟩
    exact ⟨fun _ h => absurd h hw, fun _ => hend.unique_exact hs hunique⟩

/-! ## One pair and its limit -/

/-- Without a deadline or a byte limit, only an interrupt disturbs a run. -/
theorem along_calm {depth : Nat} {w : Streaming} (hb : w.stream.byte_limit = none)
    (hd : w.stream.duration = none) (events : List Event)
    (hev : ∀ env, .source env ∈ events → env.interrupted = false) :
    machine.Along (step depth) Calm w events := by
  induction events generalizing w with
  | nil => trivial
  | cons e events ih =>
    have hbytes : BytesLeft w.stream := by simp [BytesLeft, hb]
    constructor
    · cases e with
      | source env => exact ⟨hev env (by simp), by simp [hd], hbytes⟩
      | finish env i state buffer => exact hbytes
    · intro u hu
      have hf : Stream.Frame w.stream u.stream := by
        cases e with
        | source env =>
          simp only [step] at hu
          split_ifs at hu
          cases hu
          exact Stream.source_frame rfl
        | finish env i state buffer =>
          simp only [step] at hu
          split at hu
          · obtain ⟨t, ht, rfl⟩ := Option.map_eq_some_iff.mp hu
            exact (Stream.finish.spec ht).toFrame
          · cases hu
      exact ih (hf.byte_limit.trans hb) (hf.duration.trans hd) fun env henv =>
        hev env (List.mem_cons_of_mem e henv)

/-- A pair of a `v` workload ends a run whose limit is one or two, and counts one operation. -/
theorem pair_ends (n : Nat) (hn : n = 1 ∨ n = 2) : ∃ run w,
    Run.prepare .Linux (.sample (.pairs 4096 1 (some n))) = .ok run ∧
    run.limit = some n ∧ Ended (run.stream_of 1) 1 w ∧ w.stream.stats.operations = 1 ∧
    w.completions.map (fun d => (d.seq, is_read_back d.request)) = [(0, false), (1, true)] := by
  obtain ⟨run, hrun, hlimit, hb, hd⟩ : ∃ run,
      Run.prepare .Linux (.sample (.pairs 4096 1 (some n))) = .ok run ∧
      run.limit = some n ∧ run.byte_limit = none ∧ run.duration = none := by
    rcases hn with rfl | rfl <;> exact ⟨_, rfl, rfl, rfl, rfl⟩
  have hends : ((machine.run (step 1) (start (run.stream_of 1)) onePair).map fun w =>
      ((w.stream.source .calm).1, w.stream.stats.operations,
        w.completions.map fun d => (d.seq, is_read_back d.request))) =
      some (.done, 1, [(0, false), (1, true)]) := by
    rcases hn with rfl | rfl <;> cases hrun <;> decide +kernel
  obtain ⟨w, hw, heq⟩ := Option.map_eq_some_iff.mp hends
  simp only [Prod.mk.injEq] at heq
  have hf := (tracked_of_run (begun_of_prepare hrun 1) hw).frame
  refine ⟨run, w, hrun, hlimit, ⟨onePair, .calm, (w.stream.source .calm).2, hw, ?_, ?_, ?_⟩,
    heq.2.1, heq.2.2⟩
  · exact along_calm hb hd onePair (by simp [onePair, Env.calm])
  · refine ⟨rfl, ?_, ?_⟩
    · rw [hf.duration, Run.stream_of, hd]
      simp
    · rw [BytesLeft, hf.byte_limit, Run.stream_of, hb]
      simp
  · exact Prod.ext heq.1 rfl

/-- With a limit of one operation the count of a pair is exact. -/
theorem a_pair_counts_its_write : ∃ run w,
    Run.prepare .Linux (.sample (.pairs 4096 1 (some 1))) = .ok run ∧
    Ended (run.stream_of 1) 1 w ∧ Exact 1 w := by
  obtain ⟨run, w, hrun, hlimit, hend, _, hdone⟩ := pair_ends 1 (.inl rfl)
  refine ⟨run, w, hrun, hend, ?_⟩
  have hiff := (a_count_is_exact_unless_a_read_back_meets_the_limit hrun
    (Workload.pairs_parsed 4096 (some 1) (by decide) (by decide) (by decide)) (.inl rfl) hlimit 1).1 w hend
  refine hiff.mpr fun _ d hd hrb hseq => ?_
  have hmem : (d.seq, is_read_back d.request) ∈ [(0, false), (1, true)] := by
    rw [← hdone]
    exact List.mem_map_of_mem hd
  simp [hrb] at hmem
  omega

/-- With a limit of two, the read-back is not counted, and the count is one short. -/
theorem a_pair_counts_one_short : ∃ run w,
    Run.prepare .Linux (.sample (.pairs 4096 1 (some 2))) = .ok run ∧
    run.limit = some 2 ∧ run.streamed = true ∧ Ended (run.stream_of 1) 1 w ∧
    w.stream.stats.operations = 1 ∧ ¬ Exact 2 w := by
  obtain ⟨run, w, hrun, hlimit, hend, hops, _⟩ := pair_ends 2 (.inr rfl)
  refine ⟨run, w, hrun, hlimit, ?_, hend, hops, fun hexact => ?_⟩
  · cases hrun
    rfl
  · rw [hexact.1] at hops
    cases hops

end Streaming

end stutools
