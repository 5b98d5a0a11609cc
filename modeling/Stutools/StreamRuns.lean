-- Whole streamed runs: the calls of a backend with a number of slots, in any
-- order. When a run is over, nothing was lost or repeated, and every write
-- that is read back was read back once.
import Stutools.Machine
import Stutools.StreamLists

namespace stutools

/-- A request that completed. -/
structure Completion where
  /-- Its place among the requests handed out. -/
  seq : Nat
  request : Request
  /-- Whether the counts of operations took it. -/
  counted : Bool
  /-- How many requests had been handed out when it completed. -/
  moment : Nat

/-- A stream and the record of its run. -/
structure Streaming where
  stream : Stream
  /-- The requests in the backend's slots, each with its place. -/
  out : List (Nat × Request)
  /-- Every request handed out, in order. -/
  issued : List Request
  /-- Every completion, in order. -/
  completions : List Completion

/-- The operations counted so far. -/
def Stats.operations (s : Stats) : Nat := s.completed_reads + s.completed_writes

namespace Streaming

inductive Event where
  | source (env : Env)
  | finish (env : Env) (i : Nat) (state : UInt8) (buffer : List UInt8)

def start (s : Stream) : Streaming := { stream := s, out := [], issued := [], completions := [] }

/-- The run after one call of `source`. -/
def asked (w : Streaming) (n : Next) (t : Stream) : Streaming :=
  { w with
    stream := t
    out := n.handed.map (fun r => (w.issued.length, r)) ++ w.out
    issued := w.issued ++ n.handed }

/-- The run after the completion of the request in slot `i`. -/
def completed (w : Streaming) (i seq : Nat) (r : Request) (t : Stream) : Streaming :=
  { w with
    stream := t
    out := w.out.eraseIdx i
    completions := w.completions ++
      [{ seq := seq
         request := r
         counted := decide (w.stream.stats.operations < t.stats.operations)
         moment := w.issued.length }] }

/-- The backend asks for a request only while a slot is free, and reports each
request in a slot once. -/
def step (depth : Nat) (w : Streaming) : Event → Option Streaming
  | .source env =>
    if depth ≤ w.out.length then none
    else some (w.asked (w.stream.source env).1 (w.stream.source env).2)
  | .finish env i state buffer =>
    match w.out[i]? with
    | some (seq, r) =>
      (w.stream.finish env buffer { r with state := state }).map fun t => w.completed i seq r t
    | none => none

/-! ## Counting the requests of one block -/

/-- The writes of a block: an extent and a seed. -/
def writes (b : Nat × Nat × UInt16) (l : List Request) : Nat :=
  l.countP fun r => r.write && r.block == b

/-- The read-backs of a block. -/
def readBacks (b : Nat × Nat × UInt16) (l : List Request) : Nat :=
  l.countP fun r => is_read_back r && r.block == b

section

variable (b : Nat × Nat × UInt16)

@[simp] theorem writes_append (l m : List Request) : writes b (l ++ m) = writes b l + writes b m :=
  List.countP_append

@[simp] theorem readBacks_append (l m : List Request) :
    readBacks b (l ++ m) = readBacks b l + readBacks b m :=
  List.countP_append

theorem writes_perm {l m : List Request} (h : l.Perm m) : writes b l = writes b m :=
  h.countP_eq _

theorem readBacks_perm {l m : List Request} (h : l.Perm m) : readBacks b l = readBacks b m :=
  h.countP_eq _

@[simp] theorem writes_nil : writes b [] = 0 := rfl

@[simp] theorem readBacks_nil : readBacks b [] = 0 := rfl

theorem readBacks_filter (l : List Request) :
    readBacks b (l.filter is_read_back) = readBacks b l := by
  unfold readBacks
  rw [List.countP_filter]
  apply List.countP_congr
  intro r _
  simp only [Bool.and_eq_true]
  tauto

/-- The read-backs of some writes, block by block. -/
theorem readBacks_of_writes (l : List Request) :
    readBacks b ((l.filter (·.write)).map read_back_of) = writes b l := by
  unfold readBacks writes
  rw [List.countP_map, List.countP_filter]
  apply List.countP_congr
  intro r _
  simp [and_comm]

theorem readBacks_read_back_of {r : Request} (hw : r.write = true) :
    readBacks b [read_back_of r] = writes b [r] := by
  simp [readBacks, writes, hw]

end

/-- If each block is read back as often as it is written, there are as many
read-backs as writes. -/
theorem countP_of_blocks {l : List Request} (h : ∀ b, readBacks b l = writes b l) :
    l.countP is_read_back = l.countP (·.write) := by
  have hperm : ((l.filter is_read_back).map Request.block).Perm
      ((l.filter (·.write)).map Request.block) := by
    rw [List.perm_iff_count]
    intro b
    have hb := h b
    unfold readBacks writes at hb
    rw [List.count_eq_countP, List.count_eq_countP, List.countP_map, List.countP_map,
      List.countP_filter, List.countP_filter]
    simpa [Function.comp_def, and_comm, Bool.and_comm] using hb
  rw [List.countP_eq_length_filter, List.countP_eq_length_filter]
  simpa using hperm.length_eq

/-! ## The record agrees with the stream -/

/-- The requests in the slots. -/
def sent (w : Streaming) : List Request := w.out.map Prod.snd

/-- The requests that completed, in order. -/
def returned (w : Streaming) : List Request := w.completions.map Completion.request

/-- The read-backs that the run owes in all: those of the writes issued if
they race, else those of the writes completed. -/
def due (s₀ : Stream) (w : Streaming) (b : Nat × Nat × UInt16) : Nat :=
  if s₀.race then writes b w.issued else writes b w.returned

structure Tracked (s₀ : Stream) (w : Streaming) : Prop where
  frame : Stream.Frame s₀ w.stream
  shaped : w.stream.Shaped
  outstanding : w.stream.outstanding = w.out.length
  in_flight : (w.stream.in_flight.map Request.io).Perm
    (if s₀.read_back then w.sent.map Request.io else [])
  plan : Stream.PlanAt s₀ w.stream
    ((w.issued.filter fun r => !is_read_back r) ++ w.stream.held_plan)
  issued : w.issued.Perm (w.sent ++ w.returned)
  owed : s₀.read_back = true → ∀ b,
    readBacks b w.stream.owed + readBacks b w.sent + readBacks b w.returned = w.due s₀ b
  order : s₀.read_back = true → s₀.race = false → ∀ b k,
    readBacks b (w.returned.take k) ≤ writes b (w.returned.take k)
  verified : w.stream.stats.verified = w.returned.countP is_read_back
  completed_writes : w.stream.stats.completed_writes = w.returned.countP (·.write)

/-- A stream before its first call, with all its counts at zero. -/
structure Begun (s : Stream) : Prop extends s.Fresh where
  index : s.index = 0
  wv_count : s.wv_count = 0
  wv_ops : s.wv_ops = 0
  stats : s.stats = {}

theorem begun_of_prepare {platform : Platform} {p : Plan} {run : Run}
    (h : Run.prepare platform p = .ok run) (endpoints : Nat) : Begun (run.stream_of endpoints) := by
  unfold Run.prepare at h
  split at h
  · cases h
  · cases h
    exact ⟨⟨rfl, rfl, rfl, rfl⟩, rfl, rfl, rfl, rfl⟩

theorem Tracked.start {s : Stream} (h : Begun s) : Tracked s (Streaming.start s) := by
  have hheld : s.held_plan = [] := by simp [Stream.held_plan, h.held]
  have howed : s.owed = [] := by simp [Stream.owed, h.due, h.held]
  have hslots : s.slots = 0 := by
    unfold Stream.slots
    split_ifs
    · exact h.wv_count
    · exact h.index
  have hplan : Stream.PlanAt s s [] := by
    refine ⟨?_, fun _ => ?_, fun _ => ?_⟩
    · rw [hslots, Stream.planned]
      split_ifs <;> rfl
    · rw [hslots]
      rfl
    · rw [hslots]
      rfl
  refine ⟨Stream.Frame.refl s, h.shaped, ?_, ?_, ?_, ?_, ?_, ?_, ?_, ?_⟩
  · simpa [Streaming.start] using h.outstanding
  · simp [Streaming.start, h.in_flight, sent]
  · simpa [Streaming.start, hheld] using hplan
  · simp [Streaming.start, sent, returned]
  · simp [Streaming.start, sent, returned, howed, due]
  · simp [Streaming.start, returned]
  · simp [Streaming.start, returned, h.stats]
  · simp [Streaming.start, returned, h.stats]

/-! ## One call keeps the record -/

theorem Tracked.source {s₀ : Stream} {w : Streaming} {env : Env} {n : Next} {t : Stream}
    (h : Tracked s₀ w) (hn : w.stream.source env = (n, t)) : Tracked s₀ (w.asked n t) := by
  obtain ⟨h1, h2, h3⟩ := Stream.source_sent hn
  have hf := Stream.source_frame hn
  have hsent : (w.asked n t).sent = n.handed ++ w.sent := by
    simp [sent, asked, Function.comp_def]
  have hreturned : (w.asked n t).returned = w.returned := rfl
  have hperm : (w.issued ++ n.handed).Perm (n.handed ++ w.sent ++ w.returned) := by
    rw [List.append_assoc]
    exact List.perm_append_comm.trans (h.issued.append_left _)
  refine ⟨h.frame.trans hf, h.shaped.source hn, ?_, ?_, ?_, ?_, ?_, h.order, ?_, ?_⟩
  · have hout : (w.asked n t).out.length = n.handed.length + w.out.length := by simp [asked]
    rw [hout, Nat.add_comm, ← h.outstanding]
    exact h2
  · have hin : (w.asked n t).stream.in_flight = t.in_flight := rfl
    have hold := h.in_flight
    rw [hin, h1, hsent, h.frame.read_back, List.map_append, List.map_append]
    split_ifs at hold ⊢ with hb
    · exact List.perm_append_comm.trans (hold.append_left _)
    · simpa using hold
  · obtain ⟨new, hnew, hlist⟩ := h.plan.source h.frame h.shaped hn
    have heq : (w.issued ++ n.handed).filter (fun r => !is_read_back r) ++ t.held_plan =
        (w.issued.filter fun r => !is_read_back r) ++ w.stream.held_plan ++ new := by
      rw [List.filter_append, List.append_assoc, hlist, List.append_assoc]
    rw [← heq] at hnew
    exact hnew
  · rw [hsent, hreturned]
    exact hperm
  · intro hb b
    have howed := readBacks_perm b (Stream.source_owed h.shaped hn)
    have hold := h.owed hb b
    rw [readBacks_append, readBacks_append, readBacks_filter] at howed
    have hraced : readBacks b (w.stream.raced n.handed) =
        if s₀.race then writes b n.handed else 0 := by
      rw [Stream.raced, h.frame.race, h.frame.read_back, hb]
      cases s₀.race
      · simp
      · simpa using readBacks_of_writes b n.handed
    have hdue : (w.asked n t).due s₀ b = w.due s₀ b + if s₀.race then writes b n.handed else 0 := by
      unfold due
      split_ifs
      · simp [asked]
      · rfl
    have ht : (w.asked n t).stream = t := rfl
    rw [hsent, hreturned, hdue, ht, readBacks_append]
    omega
  · exact (congrArg Stats.verified h3).trans h.verified
  · exact (congrArg Stats.completed_writes h3).trans h.completed_writes

theorem Tracked.finish {s₀ : Stream} {w : Streaming} {env : Env} {i seq : Nat} {state : UInt8}
    {buffer : List UInt8} {r : Request} {t : Stream} (h : Tracked s₀ w)
    (hi : w.out[i]? = some (seq, r))
    (hf : w.stream.finish env buffer { r with state := state } = some t) :
    Tracked s₀ (w.completed i seq r t) := by
  have hfin := Stream.finish.spec hf
  obtain ⟨c1, c2, _⟩ := Stream.finish_counts hf
  have hout := vec.perm_eraseIdx_of_getElem? hi
  have hsent : w.sent.Perm (r :: (w.completed i seq r t).sent) := hout.map Prod.snd
  have hreturned : (w.completed i seq r t).returned = w.returned ++ [r] := by
    simp [returned, completed]
  have ht : (w.completed i seq r t).stream = t := rfl
  have howed := Stream.finish_owed hf
  refine ⟨h.frame.trans hfin.toFrame, h.shaped.finish hf, ?_, ?_, ?_, ?_, ?_, ?_, ?_, ?_⟩
  · have hlen := hout.length_eq
    have hold := h.outstanding
    rw [List.length_cons] at hlen
    rw [ht, hfin.outstanding]
    simp only [completed]
    omega
  · have hold := h.in_flight
    rw [ht]
    by_cases hb : s₀.read_back = true
    · obtain ⟨f, hio, hp⟩ := hfin.in_flight (h.frame.read_back.trans hb)
      rw [if_pos hb] at hold ⊢
      have h1 := ((hp.map Request.io).symm.trans hold).trans (hsent.map Request.io)
      rw [List.map_cons, List.map_cons, hio] at h1
      exact h1.cons_inv
    · have hb' : w.stream.read_back = false := by rw [h.frame.read_back]; simpa using hb
      rw [if_neg hb] at hold ⊢
      rw [hfin.in_flight_unused hb']
      exact hold
  · have hheld : t.held_plan = w.stream.held_plan := by
      rw [Stream.held_plan, Stream.held_plan, hfin.held]
    have hplan := h.plan.of_cursors hfin.work hfin.cursors
    rw [ht, hheld]
    exact hplan
  · rw [hreturned]
    have h1 := h.issued.trans (hsent.append_right w.returned)
    refine h1.trans ?_
    rw [← List.append_assoc, List.cons_append]
    exact (List.perm_append_singleton r _).symm
  · intro hb b
    have hold := h.owed hb b
    have hreads := readBacks_perm b hsent
    have hall := readBacks_perm b howed
    have hone : ∀ l, readBacks b (r :: l) = readBacks b [r] + readBacks b l := fun l =>
      readBacks_append b [r] l
    have hnew : readBacks b (if r.write && w.stream.read_back && !w.stream.race then
        [read_back_of { r with state := state }] else []) =
        if s₀.race then 0 else writes b [r] := by
      rw [h.frame.read_back, h.frame.race, hb]
      cases s₀.race with
      | true => simp
      | false =>
        by_cases hw : r.write = true
        · rw [if_pos (by simp [hw])]
          exact readBacks_read_back_of (r := { r with state := state }) b hw
        · simp [hw, writes]
    have hdue : (w.completed i seq r t).due s₀ b =
        w.due s₀ b + if s₀.race then 0 else writes b [r] := by
      unfold due
      rw [hreturned]
      split_ifs
      · rfl
      · exact writes_append b _ _
    rw [ht, hreturned, hdue, readBacks_append]
    rw [readBacks_append] at hall
    rw [hone] at hreads
    simp only at hall hnew
    omega
  · intro hb hr b k
    have hold := h.order hb hr b
    rw [hreturned]
    by_cases hk : k ≤ w.returned.length
    · rw [List.take_append_of_le_length hk]
      exact hold k
    · -- the whole record: a read-back in flight leaves its write ahead
      have hall := h.owed hb b
      have hreads := readBacks_perm b hsent
      have hone : ∀ l, readBacks b (r :: l) = readBacks b [r] + readBacks b l := fun l =>
        readBacks_append b [r] l
      rw [hone] at hreads
      rw [List.take_of_length_le (by simp; omega), readBacks_append, writes_append]
      simp only [due, hr, Bool.false_eq_true, if_false] at hall
      omega
  · rw [ht, c1, hreturned, List.countP_append, h.verified]
    simp [is_read_back]
  · rw [ht, c2, hreturned, List.countP_append, h.completed_writes]
    simp

theorem Tracked.step {s₀ : Stream} {depth : Nat} {w u : Streaming} {e : Event} (h : Tracked s₀ w)
    (hs : step depth w e = some u) : Tracked s₀ u := by
  cases e with
  | source env =>
    simp only [Streaming.step] at hs
    split_ifs at hs
    cases hs
    exact h.source rfl
  | finish env i state buffer =>
    simp only [Streaming.step] at hs
    split at hs
    · rename_i seq r hi
      obtain ⟨t, ht, rfl⟩ := Option.map_eq_some_iff.mp hs
      exact h.finish hi ht
    · cases hs

theorem tracked_of_run {s : Stream} (hs : Begun s) {depth : Nat} {events : List Event}
    {w : Streaming} (hrun : machine.run (step depth) (start s) events = some w) : Tracked s w :=
  machine.invariant (fun _ _ _ h hstep => h.step hstep) hrun (Tracked.start hs)

/-! ## The end of a run -/

/-- `source` is done only when it has nothing left to hand out or to wait for. -/
theorem source_done {s t : Stream} {env : Env} (h : s.source env = (.done, t)) :
    s.held = [] ∧ s.due = [] ∧ t.held = [] ∧ t.due = [] ∧ t.outstanding = 0 ∧
      s.outstanding = 0 := by
  rcases Stream.source_cases h with ⟨hc, hn⟩ | ⟨_, _, _, _, _, _, ⟨_, hn, _⟩ | ⟨_, hn, _⟩⟩
  · have hout : t.outstanding = 0 := by
      by_contra hne
      rw [if_neg hne] at hn
      cases hn
    have hsame := (Stream.candidate_sent hc).2.1
    rcases Stream.candidate_cases hc with ⟨_, _, _, hq, _⟩ | ⟨_, _, _, _, hq, _⟩ |
      ⟨hh, hd, _, _, rfl⟩ | ⟨hh, hd, _, hp⟩
    · cases hq
    · cases hq
    · exact ⟨hh, hd, hh, hd, hout, hout⟩
    · have hplan := (Stream.plan_request.spec hp).1
      exact ⟨hh, hd, hplan.held.trans hh, hplan.due.trans hd, hout, hsame.symm.trans hout⟩
  · cases hn
  · cases hn

/-- A run that is over lost and repeated nothing, whenever and why it stopped:
no request is held, owed or in flight; what was handed out of the plan is the
part of the plan that was read, in its order; every request handed out
completed once; and each block was read back as often as it was written, never
before its write unless they race. -/
theorem nothing_is_lost_or_repeated (s : Stream) (hs : Begun s) (depth : Nat) {events : List Event}
    {w : Streaming} (hrun : machine.run (step depth) (start s) events = some w) {env : Env}
    {t : Stream} (hdone : w.stream.source env = (.done, t)) :
    (t.outstanding = 0 ∧ t.held = [] ∧ t.due = [] ∧ t.in_flight = [] ∧ w.out = []) ∧
    (w.issued.filter fun r => !is_read_back r) = s.planned t.slots ∧
    w.issued.Perm w.returned ∧
    (s.read_back = true → ∀ b, readBacks b w.returned = writes b w.returned) ∧
    (s.read_back = true → s.race = false → ∀ b k,
      readBacks b (w.returned.take k) ≤ writes b (w.returned.take k)) ∧
    (s.read_back = true → t.stats.verified = w.returned.countP (·.write)) ∧
    t.stats.completed_writes = w.returned.countP (·.write) := by
  have hw := tracked_of_run hs hrun
  have ht : Tracked s (w.asked .done t) := hw.source hdone
  obtain ⟨_, _, hheld, hdue, hout, hout'⟩ := source_done hdone
  have hempty : w.out = [] := List.eq_nil_of_length_eq_zero (hw.outstanding ▸ hout')
  have hsent : w.sent = [] := by simp [sent, hempty]
  have howed : t.owed = [] := by simp [Stream.owed, hheld, hdue]
  have hreads : s.read_back = true → ∀ b, readBacks b w.returned = writes b w.returned := by
    intro hb b
    have h1 : readBacks b t.owed + readBacks b w.sent + readBacks b w.returned =
      (w.asked .done t).due s b := ht.owed hb b
    have h2 : writes b w.issued = writes b w.returned := by
      simpa [hsent] using writes_perm b hw.issued
    have h3 : (w.asked .done t).due s b = writes b w.returned := by
      unfold due
      split_ifs
      · simpa [asked, Next.handed] using h2
      · rfl
    rw [howed, hsent, h3] at h1
    simpa using h1
  refine ⟨⟨hout, hheld, hdue, ?_, hempty⟩, ?_, ?_, hreads, hw.order, ?_, ?_⟩
  · have h1 := ht.in_flight
    have h2 : (w.asked .done t).sent = [] := by simpa [sent, asked, Next.handed] using hempty
    rw [h2] at h1
    simpa [asked] using h1
  · have h1 := ht.plan.list
    simpa [asked, Next.handed, Stream.held_plan, hheld] using h1
  · simpa [hsent] using hw.issued
  · intro hb
    exact ht.verified.trans (countP_of_blocks (hreads hb))
  · exact ht.completed_writes

/-- One pair of a `v` workload, up to its limit of one operation. -/
def onePair : List Event :=
  [.source .calm, .finish .calm 0 0 [], .source .calm, .finish .calm 0 0 []]

theorem one_pair_ends : ∃ w t,
    machine.run (step 1) (start (Stream.sample (.pairs 8 1 none) Request.default 16 (some 1))) onePair =
      some w ∧
    w.stream.source .calm = (.done, t) ∧
    w.issued = [{ Request.default with len := 8, write := true },
      { Request.default with len := 8, verify := true }] := by
  have hends : ((machine.run (step 1)
      (start (Stream.sample (.pairs 8 1 none) Request.default 16 (some 1))) onePair).map fun w =>
        ((w.stream.source .calm).1, w.issued)) =
      some (.done, [{ Request.default with len := 8, write := true },
        { Request.default with len := 8, verify := true }]) := by
    rfl
  obtain ⟨w, hw, heq⟩ := Option.map_eq_some_iff.mp hends
  simp only [Prod.mk.injEq] at heq
  exact ⟨w, (w.stream.source .calm).2, hw, Prod.ext heq.1 rfl, heq.2⟩

/-- The pair is handed out once, and its write is read back once. -/
theorem one_pair_loses_nothing : ∃ w t,
    machine.run (step 1) (start (Stream.sample (.pairs 8 1 none) Request.default 16 (some 1))) onePair =
      some w ∧
    w.stream.source .calm = (.done, t) ∧ t.stats.verified = 1 := by
  obtain ⟨w, t, hrun, hdone, hissued⟩ := one_pair_ends
  obtain ⟨_, _, hperm, _, _, hverified, _⟩ := nothing_is_lost_or_repeated _
    ⟨⟨rfl, rfl, rfl, rfl⟩, rfl, rfl, rfl, rfl⟩ 1 hrun hdone
  refine ⟨w, t, hrun, hdone, ?_⟩
  rw [hverified rfl, ← hperm.countP_eq, hissued]
  rfl

/-- The plan of `vs0` with blocks of 512 bytes, up to its limit of one operation. -/
def vs0 : Plan :=
  { record_latency := false
    work := { Workload.pairs 512 1 (some 1) with sequential := 0 }
    lo := 0
    hi := 4096
    loaded := []
    seed := 1
    backend := .Uring
    duration := none
    verify := true
    max_len := 512
    position_capacity := 8 }

/-- A `v` workload hands out its own writes, and no part of the table: it writes at 512, and the
table begins with the block at 2560. -/
theorem a_v_workload_reads_no_table : ∃ run w t,
    Run.prepare .Linux vs0 = .ok run ∧
    machine.run (step 1) (start (run.stream_of 1)) onePair = some w ∧
    w.stream.source .calm = (.done, t) ∧
    ∀ n, (w.issued.filter fun r => !is_read_back r) ≠
      ((run.generated.gets n).1.filter fun r => !is_read_back r) := by
  have heval : (Run.prepare .Linux vs0).toOption.bind (fun run =>
      (machine.run (step 1) (start (run.stream_of 1)) onePair).map fun w =>
        ((w.stream.source .calm).1, (run.generated.get 0).1.offset,
          is_read_back (run.generated.get 0).1,
          (w.issued.filter fun r => !is_read_back r).map Request.offset)) =
      some (.done, 2560, false, [512]) := by
    decide +kernel
  obtain ⟨run, hprepared, hrun⟩ := Option.bind_eq_some_iff.mp heval
  obtain ⟨w, hw, heq⟩ := Option.map_eq_some_iff.mp hrun
  simp only [Prod.mk.injEq] at heq
  obtain ⟨hdone, hfirst, hplanned, hissued⟩ := heq
  have hprepare : Run.prepare .Linux vs0 = .ok run := by
    cases h : Run.prepare .Linux vs0 with
    | error e => rw [h] at hprepared; cases hprepared
    | ok run' => rw [h] at hprepared; cases hprepared; rfl
  refine ⟨run, w, (w.stream.source .calm).2, hprepare, hw, Prod.ext hdone rfl, fun n hn => ?_⟩
  rw [hn] at hissued
  cases n with
  | zero => cases hissued
  | succ n =>
    obtain ⟨rest, hrest⟩ := Positions.gets_head run.generated n
    rw [hrest, List.filter_cons_of_pos (by rw [hplanned]; rfl), List.map_cons, hfirst] at hissued
    cases hissued

end Streaming

end stutools
