-- What a write carries: the pattern of its extent and seed, whatever earlier
-- reads left in its slot. Where payloads are prepared once and only stamped,
-- this needs every read to bring the pattern back.
import Stutools.Ranges

open memory

namespace stutools

open pattern (byte_at bytes_of template_of)

/-- The bytes of a slot between the heads of its sectors are those of the seed. -/
def Body (m : Memory) (n : Nat) (seed : UInt64) : Prop :=
  ∀ k, k < n → 8 ≤ k % 512 → m k = byte_at k seed

/-- `pattern::fill` over the extent of a request, with the seed of its payload. -/
def payload_of (work : Workload) (seed : UInt64) (r : Request) : List UInt8 :=
  pattern.fill (List.replicate r.len 0) r.offset (payload_seed r work seed)

theorem payload_of_eq (work : Workload) (seed : UInt64) (r : Request) :
    payload_of work seed r = bytes_of r.offset r.len (payload_seed r work seed) := by
  rw [payload_of, pattern.fill.spec, List.length_replicate]

/-! ## One slot -/

namespace Run

variable {run : Run}

/-- What `prepare` leaves true of the parts of a run that payloads use. -/
structure Prepared (run : Run) : Prop where
  template : run.template = template_of run.seed
  unique : run.reusable = true → run.work.unique = false

/-- With `reusable` every request is one block, on a 4 KiB boundary. -/
def Whole (run : Run) (offset len : Nat) : Prop :=
  run.reusable = true → offset % 4096 = 0 ∧ len = run.work.block

/-- With `reusable` the body of the slot is intact. -/
def Intact (run : Run) (m : Memory) : Prop :=
  run.reusable = true → Body m run.work.block run.seed

theorem payload_read (hp : run.Prepared) {r : Request} {m : Memory} (hw : r.write = true)
    (hr : run.Whole r.offset r.len) (hm : run.Intact m) :
    (run.payload r m).read 0 r.len = payload_of run.work run.seed r := by
  have hbytes : write_pattern (m.read 0 r.len) r run.work run.seed run.reusable run.template =
      bytes_of r.offset r.len (payload_seed r run.work run.seed) := by
    unfold write_pattern
    dsimp only
    split_ifs with h1 h2
    · -- only the heads are stamped: the body is already that of the seed
      obtain ⟨hoffset, hlen⟩ := hr h1
      have hseed : payload_seed r run.work run.seed = run.seed := by
        simp [payload_seed, hp.unique h1]
      rw [hseed, pattern.stamp.spec _ _ _ (by omega)]
      apply List.ext_getElem
      · simp
      · intro i h3 h4
        simp only [pattern.bytes_of_length] at h4
        rw [List.getElem_mapIdx, pattern.bytes_of_getElem]
        split_ifs with h5
        · rfl
        · have hbody := hm h1 i (by omega) (by omega)
          simp only [Memory.read, List.getElem_map, List.getElem_range, Nat.zero_add]
          rw [hbody, ← pattern.byte_at_mod (r.offset + i) _ (by omega),
            ← pattern.byte_at_mod i _ (by omega)]
          congr 1
          omega
    · rw [pattern.fill.spec, Memory.read_length]
    · have hseed : payload_seed r run.work run.seed = run.seed := by simp [payload_seed, h2]
      rw [hseed, hp.template, pattern.fill_cached.spec, Memory.read_length]
  rw [payload_of_eq, payload, if_pos hw, hbytes]
  have hself := Memory.read_write_self m 0 (bytes_of r.offset r.len (payload_seed r run.work run.seed))
  rwa [pattern.bytes_of_length] at hself

/-- The bytes of a payload, one by one. -/
theorem payload_apply (hp : run.Prepared) {r : Request} {m : Memory} (hw : r.write = true)
    (hr : run.Whole r.offset r.len) (hm : run.Intact m) {k : Nat} (hk : k < r.len) :
    run.payload r m k = byte_at (r.offset + k) (payload_seed r run.work run.seed) := by
  have hread := payload_read hp hw hr hm
  have h1 := Memory.read_getElem? (run.payload r m) 0 r.len k hk
  rw [hread, payload_of_eq] at h1
  simpa [bytes_of, hk] using h1.symm

/-- A payload leaves the body of its slot intact. -/
theorem payload_intact (hp : run.Prepared) {r : Request} {m : Memory}
    (hr : run.Whole r.offset r.len) (hm : run.Intact m) : run.Intact (run.payload r m) := by
  by_cases hw : r.write = true
  · intro hreuse k hk h8
    obtain ⟨hoffset, hlen⟩ := hr hreuse
    have hseed : payload_seed r run.work run.seed = run.seed := by
      simp [payload_seed, hp.unique hreuse]
    rw [payload_apply hp hw hr hm (by omega), hseed,
      ← pattern.byte_at_mod (r.offset + k) _ (by omega), ← pattern.byte_at_mod k _ (by omega)]
    congr 1
    omega
  · rw [payload, if_neg hw]
    exact hm

/-- So does a read that brings the pattern back. -/
theorem landed_intact {r : Request} {answer m : Memory} (hr : run.Whole r.offset r.len)
    (ha : r.write = false → run.Intact answer) (hm : run.Intact m) :
    run.Intact (r.landed answer m) := by
  unfold Request.landed
  split_ifs with hw
  · exact hm
  · intro hreuse k hk h8
    obtain ⟨_, hlen⟩ := hr hreuse
    rw [Memory.write_zero_apply (by simpa [hlen] using hk)]
    simp only [Memory.read, List.getElem_map, List.getElem_range, Nat.zero_add]
    exact ha (by simpa using hw) hreuse k hk h8

/-- The slots that `prepare` filled. -/
theorem slots_intact (run : Run) {i : Nat} (hi : i < run.work.depth) : run.Intact (run.slots i) := by
  intro hreuse k hk _
  rw [slots, if_pos ⟨hreuse, hi⟩, pattern.fill.spec, List.length_replicate]
  rw [Memory.write_zero_apply (by simpa using hk), pattern.bytes_of_getElem, Nat.zero_add]

end Run

/-! ## The requests of a prepared run -/

/-- What the parser and the checks of a target promise of a plan. -/
structure Plan.Checked (p : Plan) : Prop where
  work : p.work.Parsed
  generated : p.loaded = [] → p.work.max_block ≤ p.hi - p.lo

namespace Run

variable {run : Run} {platform : Platform} {p : Plan}

theorem reusable_cases (h : reusable_of p = true) : p.work.unique = false ∧
    p.work.block = p.work.max_block ∧ p.loaded = [] ∧ p.work.block % 4096 = 0 ∧ p.lo % 4096 = 0 := by
  simp only [reusable_of, Bool.and_eq_true, Bool.not_eq_true', beq_iff_eq, List.isEmpty_iff] at h
  obtain ⟨⟨⟨⟨⟨⟨_, h2⟩, h3⟩, h4⟩, _⟩, h6⟩, h7⟩ := h
  exact ⟨h2, h3, h4, h6, h7⟩

theorem fill_template (seed : UInt64) :
    pattern.fill (List.replicate 4096 0) 0 seed = template_of seed := by
  rw [pattern.fill.spec, List.length_replicate, template_of]

theorem prepare_prepared (h : prepare platform p = .ok run) : run.Prepared := by
  unfold prepare at h
  split at h
  · cases h
  · cases h
    exact ⟨fill_template p.seed, fun hr => (reusable_cases hr).1⟩

theorem block_boundary {lo block : Nat} (hb : block % 4096 = 0) (hlo : lo % 4096 = 0) (k : Nat) :
    (lo + k * block) % 4096 = 0 := by
  rw [Nat.add_mod, Nat.mul_mod, hb, hlo]
  simp

/-- With `reusable` every request of the plan is one block on a 4 KiB boundary. -/
theorem supplies_whole (hp : p.Checked) (h : prepare platform p = .ok run) :
    Supplies run.Whole run.work run.wv_lo run.wv_hi run.generated := by
  by_cases hr : run.reusable = true
  · unfold prepare at h
    split at h
    · cases h
    · rename_i g hg
      cases h
      obtain ⟨_, h2, h3, h4, h5⟩ := reusable_cases hr
      obtain ⟨hw, hlo, hhi, _⟩ := Positions.new_cases hg
      refine ⟨fun e he _ => ?_, ?_, fun _ k _ _ => ⟨block_boundary h4 h5 k, rfl⟩⟩
      · rw [h3] at hg
        obtain ⟨h6, _, ⟨k, hk⟩, _, h9⟩ := Positions.new_placed hg hp.work.block_pos hp.work.block_le
          (hp.generated h3) e he
        have hoffset : e.offset = p.lo + k * p.work.block := by
          rw [Nat.mul_comm]
          omega
        rw [hoffset]
        exact ⟨block_boundary h4 h5 k, h9 h2⟩
      · rw [hw, hlo, hhi]
        intro offset len k hq hk hreuse
        exact ⟨block_boundary h4 h5 k, (hq hreuse).2⟩
  · exact ⟨fun _ _ hc => absurd hc hr, fun _ _ _ _ _ hc => absurd hc hr,
      fun _ _ _ hc => absurd hc hr⟩

end Run

/-! ## Streamed runs with their slots -/

/-- A streamed run, and the slots of its queue. -/
structure Slotted where
  stream : Stream
  slots : Slots
  /-- The slots in use, each with its request. -/
  busy : List (Nat × Request)
  /-- Every request handed to the backend, and the bytes of its slot then. -/
  sent : List (Request × List UInt8)

namespace Slotted

inductive Event where
  | source (env : Env) (i : Nat)
  | finish (env : Env) (i : Nat) (state : UInt8) (answer : Memory)

def start (run : Run) (endpoints : Nat) : Slotted :=
  { stream := run.stream_of endpoints, slots := run.slots, busy := [], sent := [] }

/-- A request is prepared in a free slot and handed to the backend. -/
def handed (run : Run) (w : Slotted) (i : Nat) (r : Request) (t : Stream) : Slotted :=
  { stream := t
    slots := Function.update w.slots i (run.payload r (w.slots i))
    busy := (i, r) :: w.busy
    sent := w.sent ++ [(r, (run.payload r (w.slots i)).read 0 r.len)] }

/-- The request of a slot completed. -/
def returned (w : Slotted) (i : Nat) (r : Request) (answer : Memory) (t : Stream) : Slotted :=
  { w with
    stream := t
    slots := Function.update w.slots i (r.landed answer (w.slots i))
    busy := w.busy.eraseP (·.1 == i) }

/-- The backend asks for a request for any free slot, and returns any slot in use. -/
def step (run : Run) (w : Slotted) : Event → Option Slotted
  | .source env i =>
    if i < run.work.depth ∧ i ∉ w.busy.map Prod.fst then
      match w.stream.source env with
      | (.request r, t) => some (handed run w i r t)
      | (_, t) => some { w with stream := t }
    else none
  | .finish env i state answer =>
    match w.busy.lookup i with
    | some r =>
      (w.stream.finish env ((r.landed answer (w.slots i)).read 0 r.len) { r with state := state }).map
        fun t => w.returned i r answer t
    | none => none

/-- A read brings the pattern of the seed back, where slots rely on it. -/
def Brings (run : Run) (w : Slotted) : Event → Prop
  | .source _ _ => True
  | .finish _ i _ answer => ∀ r, w.busy.lookup i = some r → r.write = false → run.Intact answer

theorem brings_of_not_reusable {run : Run} (h : ¬ run.reusable = true) (w : Slotted) (e : Event) :
    Brings run w e := by
  cases e with
  | source => trivial
  | finish => exact fun _ _ _ hc => absurd hc h

structure Seeded (run : Run) (w : Slotted) : Prop where
  stream : w.stream.Carries run.Whole
  busy : ∀ e ∈ w.busy, run.Whole e.2.offset e.2.len
  slots : ∀ i, i < run.work.depth → run.Intact (w.slots i)
  sent : ∀ e ∈ w.sent, e.1.write = true → e.2 = payload_of run.work run.seed e.1

variable {run : Run} {w v : Slotted}

theorem update_intact {slots : Slots} (h : ∀ i, i < run.work.depth → run.Intact (slots i)) {j : Nat}
    {m : Memory} (hm : j < run.work.depth → run.Intact m) :
    ∀ i, i < run.work.depth → run.Intact (Function.update slots j m i) := by
  intro i hi
  by_cases hij : i = j
  · subst hij
    rw [Function.update_self]
    exact hm hi
  · rw [Function.update_of_ne hij]
    exact h i hi

theorem Seeded.handed (hp : run.Prepared) (h : w.Seeded run) {i : Nat} (hi : i < run.work.depth)
    {r : Request} {t : Stream} (ht : t.Carries run.Whole) (hr : run.Whole r.offset r.len) :
    (handed run w i r t).Seeded run := by
  have hm := h.slots i hi
  refine ⟨ht, ?_, update_intact h.slots fun _ => Run.payload_intact hp hr hm, ?_⟩
  · intro e he
    rcases List.mem_cons.mp he with rfl | he
    · exact hr
    · exact h.busy e he
  · intro e he hw
    rcases List.mem_append.mp he with he | he
    · exact h.sent e he hw
    · rw [List.mem_singleton.mp he] at hw ⊢
      exact Run.payload_read hp hw hr hm

theorem Seeded.step (hp : run.Prepared) (h : w.Seeded run) {e : Event} (hb : Brings run w e)
    (hs : step run w e = some v) : v.Seeded run := by
  cases e with
  | source env i =>
    simp only [Slotted.step] at hs
    split_ifs at hs with hi
    have hn : w.stream.source env = ((w.stream.source env).1, (w.stream.source env).2) := rfl
    obtain ⟨h1, h2⟩ := h.stream.source hn
    split at hs
    · rename_i r t hr
      cases hs
      rw [hr] at h1 h2
      exact h.handed hp hi.1 h2 (h1 r (by simp [Next.handed]))
    · rename_i n t hr
      cases hs
      rw [hr] at h2
      exact ⟨h2, h.busy, h.slots, h.sent⟩
  | finish env i state answer =>
    simp only [Slotted.step] at hs
    split at hs
    · rename_i r hbusy
      obtain ⟨t, ht, rfl⟩ := Option.map_eq_some_iff.mp hs
      obtain ⟨before, after, hmem, _⟩ := List.lookup_eq_some_iff.mp hbusy
      have hr : run.Whole r.offset r.len := h.busy (i, r) (by simp [hmem])
      have hstream := h.stream.finish (r := { r with state := state }) hr ht
      refine ⟨hstream, fun e he => h.busy e (List.mem_of_mem_eraseP he), ?_, h.sent⟩
      apply update_intact h.slots
      intro hi
      exact Run.landed_intact hr (hb r hbusy) (h.slots i hi)
    · cases hs

/-- Every write of a streamed run carries its payload if the reads bring the
pattern back. -/
theorem sent_payload {platform : Platform} {p : Plan} (hp : p.Checked)
    (hrun : Run.prepare platform p = .ok run) {endpoints : Nat} {es : List Event}
    (hw : machine.run (Slotted.step run) (Slotted.start run endpoints) es = some w)
    (hb : machine.Along (Slotted.step run) (Brings run) (Slotted.start run endpoints) es) :
    ∀ e ∈ w.sent, e.1.write = true → e.2 = payload_of run.work run.seed e.1 := by
  have hprep := Run.prepare_prepared hrun
  have hstart : (Slotted.start run endpoints).Seeded run :=
    ⟨⟨Run.supplies_whole hp hrun, by simp [Slotted.start, Run.stream_of],
      by simp [Slotted.start, Run.stream_of]⟩, by simp [Slotted.start],
      fun i hi => run.slots_intact hi, by simp [Slotted.start]⟩
  exact (machine.invariant_along (fun _ _ _ h hok hs => Seeded.step hprep h hok hs) hw hb hstart).sent

end Slotted

/-! ## Batched runs -/

namespace Batches

variable {run : Run} {b c : Batches}

/-- The reads of a batch, and those that compact its writes, bring the pattern
of the seed back, where slots rely on it. -/
def Brings (run : Run) (b : Batches) : Event → Prop
  | .batch _ x _ y =>
    (∀ i r, (b.run.fill_batch b.run.batch_limit).1[i]? = some r → r.write = false →
      run.Intact (x.answers i)) ∧
    (run.verify = true → run.work.verify = false → ∀ i r,
      (Run.compacted (b.run.fill_batch b.run.batch_limit).1)[i]? = some r →
        run.Intact (y.answers i))
  | .finish _ _ => True

theorem brings_of_not_reusable {run : Run} (h : ¬ run.reusable = true) (b : Batches) (e : Event) :
    Brings run b e := by
  cases e with
  | batch => exact ⟨fun _ _ _ _ hc => absurd hc h, fun _ _ _ _ _ hc => absurd hc h⟩
  | finish => trivial

structure Seeded (run : Run) (b : Batches) : Prop where
  frame : Run.Frame run b.run
  carries : b.Carries run.Whole
  slots : ∀ i, i < run.work.depth → run.Intact (b.slots i)
  sent : ∀ e ∈ b.sent, e.1.write = true → e.2 = payload_of run.work run.seed e.1

theorem payloads_apply {a : Run} (hf : Run.Frame run a) (requests : List Request) (slots : Slots)
    {i : Nat} {r : Request} (hi : requests[i]? = some r) :
    a.payloads requests slots i = run.payload r (slots i) := by
  simp only [Run.payloads, hi, Run.payload, hf.work, hf.seed, hf.reusable, hf.template]

/-- A batch with its payloads written. -/
theorem Seeded.filled (hp : run.Prepared) (h : b.Seeded run) {a : Run} (hf : Run.Frame run a)
    (ha : a.Carries run.Whole) {requests : List Request}
    (hr : ∀ r ∈ requests, run.Whole r.offset r.len) : (b.filled requests a).Seeded run := by
  refine ⟨hf, ⟨ha, h.carries.sent⟩, fun i hi => ?_, h.sent⟩
  cases hreq : requests[i]? with
  | none =>
    simp only [Batches.filled, Run.payloads, hreq]
    exact h.slots i hi
  | some r =>
    simp only [Batches.filled, payloads_apply hf requests b.slots hreq]
    exact Run.payload_intact hp (hr r (List.mem_of_getElem? hreq)) (h.slots i hi)

/-- Executing requests whose slots hold their payloads. -/
theorem Seeded.execute (h : b.Seeded run) (requests : List Request)
    (hr : ∀ r ∈ requests, run.Whole r.offset r.len)
    (hpay : ∀ i r, requests[i]? = some r → r.write = true →
      (b.slots i).read 0 r.len = payload_of run.work run.seed r)
    {x : Execution} (hx : ∀ i r, requests[i]? = some r → r.write = false → run.Intact (x.answers i)) :
    (b.execute requests x).Seeded run := by
  refine ⟨h.frame, h.carries.execute hr x, fun i hi => ?_, fun e he hw => ?_⟩
  · cases hreq : requests[i]? with
    | none =>
      simp only [Batches.execute, Execution.reads, hreq]
      exact h.slots i hi
    | some r =>
      simp only [Batches.execute, Execution.reads, hreq]
      exact Run.landed_intact (hr r (List.mem_of_getElem? hreq)) (hx i r hreq) (h.slots i hi)
  · rcases List.mem_append.mp he with he | he
    · exact h.sent e he hw
    · obtain ⟨i, hi, rfl⟩ := List.mem_mapIdx.mp he
      exact hpay i _ (List.getElem?_eq_getElem hi) hw

theorem Seeded.compact (h : b.Seeded run) {requests : List Request}
    (hr : ∀ r ∈ requests, run.Whole r.offset r.len) {y : Execution}
    (hy : run.verify = true → run.work.verify = false → ∀ i r,
      (Run.compacted requests)[i]? = some r → run.Intact (y.answers i))
    (hc : b.compact requests y = some c) : c.Seeded run := by
  have hcarries := h.carries.compact hr hc
  rcases compact_cases hc with ⟨rfl, _⟩ | ⟨hv, hwv, _, hcases⟩
  · exact ⟨h.frame.trans (b.advanced_frame _), hcarries, h.slots, h.sent⟩
  · rw [h.frame.verify] at hv
    rw [h.frame.work] at hwv
    have hexec := h.execute (Run.compacted requests) (compacted_extent hr)
      (fun i r hi hw => by rw [compacted_reads (List.mem_of_getElem? hi)] at hw; cases hw)
      (fun i r hi _ => hy hv hwv i r hi)
    rcases hcases with ⟨_, rfl⟩ | ⟨_, rfl⟩
    · exact hexec
    · have hall : Run.Frame (b.execute (Run.compacted requests) y).run
          ((b.execute (Run.compacted requests) y).rechecked (Run.compacted requests)).run :=
        Run.verify_all_frame _ _ _ _
      exact ⟨(hexec.frame.trans hall).trans (advanced_frame _ _), hcarries, hexec.slots, hexec.sent⟩

theorem Seeded.batch (hp : run.Prepared) (hdepth : 0 < run.work.depth) (h : b.Seeded run) {x y : Execution} {flushed : Bool}
    {env : Env} (hx : Brings run b (.batch env x flushed y)) (hb : b.batch x flushed y = some c) :
    c.Seeded run := by
  obtain ⟨requests, a, hfill, _, d, hd, hcases⟩ := batch_cases hb
  obtain ⟨h1, h2⟩ := h.carries.run.fill_batch b.run.batch_limit
  have hframe := b.run.fill_batch_frame b.run.batch_limit
  simp only [Brings] at hx
  rw [hfill] at h1 h2 hframe hx
  have hf := h.frame.trans hframe
  have hle : requests.length ≤ run.work.depth := by
    have h3 := b.run.fill_batch_length_le b.run.batch_limit
    have h4 := b.run.batch_limit_le (by rw [h.frame.work]; exact hdepth)
    rw [hfill] at h3
    rw [h.frame.work] at h4
    exact Nat.le_trans h3 h4
  have hfilled := h.filled hp hf h2 h1
  have hexec := hfilled.execute requests h1 (fun i r hi hw => by
    obtain ⟨hlt, _⟩ := List.getElem?_eq_some_iff.mp hi
    simp only [Batches.filled, payloads_apply hf requests b.slots hi]
    exact Run.payload_read hp hw (h1 r (List.mem_of_getElem? hi)) (h.slots i (by omega))) hx.1
  have hdone : d.Seeded run := by
    rw [hd]
    exact ⟨hexec.frame.trans (Run.completes_frame _ _ _), hexec.carries.completed requests x,
      hexec.slots, hexec.sent⟩
  rcases hcases with ⟨_, rfl⟩ | ⟨_, rfl⟩ | ⟨_, hc⟩
  · exact hdone
  · exact ⟨hdone.frame, ⟨hdone.carries.run, hdone.carries.sent⟩, hdone.slots, hdone.sent⟩
  · have hver : (d.verified requests).Seeded run :=
      ⟨hdone.frame.trans (Run.verify_reads_frame _ _ _ _),
        ⟨hdone.carries.run.verify_reads d.slots requests 0, hdone.carries.sent⟩, hdone.slots,
        hdone.sent⟩
    exact hver.compact h1 hx.2 hc

/-- The checks at the end of a run write nothing. -/
theorem verify_pending_sent {respond : Nat → List Request → Execution} {round cursor : Nat}
    (h : verify_pending respond b round cursor = some c) :
    ∀ e ∈ c.sent, e.1.write = true → e ∈ b.sent := by
  have hexec : ∀ (a : Batches) (requests : List Request) (x : Execution),
      (∀ r ∈ requests, is_read_back r = true) →
      ∀ e ∈ (a.execute requests x).sent, e.1.write = true → e ∈ a.sent := by
    intro a requests x hreads e he hw
    rcases List.mem_append.mp he with he | he
    · exact he
    · obtain ⟨i, hi, rfl⟩ := List.mem_mapIdx.mp he
      have hread := ((is_read_back_iff _).mp (hreads _ (List.getElem_mem hi))).2
      rw [hread] at hw
      cases hw
  fun_induction Batches.verify_pending respond b round cursor with
  | case1 b round cursor requests after hnil =>
    rw [← Option.some.inj h]
    exact fun e he _ => he
  | case2 b round cursor requests after hne hl hf =>
    rw [← Option.some.inj h]
    exact hexec after requests _ (Positions.take_pending_reads _ _ _)
  | case3 b round cursor requests after hne hl hf ih =>
    intro e he hw
    exact hexec after requests (respond round requests) (Positions.take_pending_reads _ _ _) e
      (ih h e he hw) hw
  | case4 => cases h

/-- Every write of a batched run carries its payload if the reads bring the
pattern back. -/
theorem sent_payload {platform : Platform} {p : Plan} (hp : p.Checked)
    (hrun : Run.prepare platform p = .ok run) {es : List Event}
    (hb : machine.run step (start run) es = some b)
    (hx : machine.Along step (Brings run) (start run) es) :
    ∀ e ∈ b.sent, e.1.write = true → e.2 = payload_of run.work run.seed e.1 := by
  have hprep := Run.prepare_prepared hrun
  have hwhole := Run.supplies_whole hp hrun
  have hdepth : 0 < run.work.depth := by
    rw [(Run.prepare_work hrun).1]
    exact hp.work.depth_pos
  have hnone : run.wv_pending = none := by
    unfold Run.prepare at hrun
    split at hrun
    · cases hrun
    · cases hrun
      rfl
  have hstart : (start run).Seeded run :=
    ⟨Run.Frame.refl run, ⟨⟨hwhole, by simp [start, hnone]⟩, by simp [start]⟩,
      fun i hi => run.slots_intact hi, by simp [start]⟩
  -- once a run has ended its slots are no longer used
  have hinv := machine.invariant_along (P := fun b : Batches => (b.ended = false → b.Seeded run) ∧
    ∀ e ∈ b.sent, e.1.write = true → e.2 = payload_of run.work run.seed e.1) ?_ hb hx
    ⟨fun _ => hstart, hstart.sent⟩
  · exact hinv.2
  · rintro b e c ⟨h1, h2⟩ hok hs
    obtain ⟨hended, hcases⟩ := step_cases hs
    rcases hcases with ⟨env, x, flushed, y, rfl, _, _, hbatch⟩ | ⟨env, respond, rfl, _, hfin⟩
    · have hc := (h1 hended).batch hprep hdepth hok hbatch
      exact ⟨fun _ => hc, hc.sent⟩
    · rcases finish_cases hfin with ⟨_, _, _, d, hd, rfl⟩ | ⟨_, rfl⟩
      · refine ⟨by simp, fun e he hw => ?_⟩
        exact h2 e (verify_pending_sent hd e he hw) hw
      · exact ⟨by simp, h2⟩

end Batches

/-- Every write handed to the backend carries exactly the pattern of its extent
and seed, in every streamed and every batched run, if payloads are not reusable
or every read brings the pattern of the seed back into its slot. -/
theorem a_write_carries_its_pattern_if_reads_bring_it_back {p : Plan} (hp : p.Checked)
    {platform : Platform} {run : Run} (hrun : Run.prepare platform p = .ok run) :
    (∀ endpoints es w, machine.run (Slotted.step run) (Slotted.start run endpoints) es = some w →
      (run.reusable = true → machine.Along (Slotted.step run) (Slotted.Brings run)
        (Slotted.start run endpoints) es) →
      ∀ e ∈ w.sent, e.1.write = true → e.2 = payload_of run.work run.seed e.1) ∧
    ∀ es b, machine.run Batches.step (Batches.start run) es = some b →
      (run.reusable = true →
        machine.Along Batches.step (Batches.Brings run) (Batches.start run) es) →
      ∀ e ∈ b.sent, e.1.write = true → e.2 = payload_of run.work run.seed e.1 := by
  refine ⟨fun endpoints es w hw hb => ?_, fun es b hb hx => ?_⟩
  · apply Slotted.sent_payload hp hrun hw
    by_cases hr : run.reusable = true
    · exact hb hr
    · exact machine.along_of_forall _ (Slotted.brings_of_not_reusable hr) _ _
  · apply Batches.sent_payload hp hrun hb
    by_cases hr : run.reusable = true
    · exact hx hr
    · exact machine.along_of_forall _ (Batches.brings_of_not_reusable hr) _ _

/-- Where payloads are only stamped, a write carries on what the last read left. -/
theorem stale_payload {run : Run} (hr : run.reusable = true) {r q : Request} (hw : r.write = true)
    (hq : q.write = false) (answer m : Memory) (ho : r.offset % 512 = 0) {k : Nat} (hk : k < r.len)
    (hkq : k < q.len) (h8 : 8 ≤ k % 512) :
    ((run.payload r (q.landed answer m)).read 0 r.len)[k]? = some (answer k) := by
  have hland : q.landed answer m k = answer k := by
    rw [Request.landed, if_neg (by simp [hq]), Memory.write_zero_apply (by simpa using hkq)]
    simp [Memory.read]
  generalize q.landed answer m = left at hland
  rw [Memory.read_getElem? _ _ _ _ hk, Run.payload, if_pos hw, write_pattern, if_pos hr,
    pattern.stamp.spec _ _ _ ho, Nat.zero_add,
    Memory.write_zero_apply (by simpa using hk), List.getElem_mapIdx, if_neg (by omega)]
  simp [Memory.read, hland]

/-- A `v` workload of one slot over two blocks. -/
def Plan.pairs : Plan :=
  { record_latency := false
    work := .pairs 4096 1 none
    lo := 0
    hi := 8192
    loaded := []
    seed := 0
    backend := .Uring
    duration := none
    verify := true
    max_len := 4096
    position_capacity := 1 }

theorem Plan.pairs_checked : Plan.pairs.Checked :=
  ⟨Workload.pairs_parsed 4096 none (by decide) (by decide) (by decide), fun _ => by decide⟩

/-- A write and its read-back, up to the answer of that. -/
def pairSent (answer : Memory) : List Slotted.Event :=
  [.source .calm 0, .finish .calm 0 0 answer, .source .calm 0]

/-- The answer of the read-back, and the next write. -/
def pairAnswer (answer : Memory) : List Slotted.Event :=
  [.finish .calm 0 0 answer, .source .calm 0]

/-- The write of one of the two blocks. -/
def pairWrite (offset : Nat) : Request :=
  { Request.default with offset := offset, len := 4096, write := true }

/-- A stream of pairs with one read-back out and nothing else on its way. -/
structure PairOut (s : Stream) : Prop where
  work : s.work = .pairs 4096 1 none
  wv_count : s.wv_count = 1
  range : s.lo = 0 ∧ s.hi = 8192
  unlimited : s.limit = none ∧ s.byte_limit = none ∧ s.duration = none
  read_back : s.read_back = true
  in_flight : s.in_flight = [read_back_of (pairWrite 0)]
  due : s.due = []
  held : s.held = []
  outstanding : s.outstanding = 1

theorem pair_sent (answer : Memory) : ∃ run w, Run.prepare .Linux .pairs = .ok run ∧ run.seed = 0 ∧
    run.reusable = true ∧ run.work.depth = 1 ∧
    machine.run (Slotted.step run) (Slotted.start run 1) (pairSent answer) = some w ∧
    w.busy = [(0, read_back_of (pairWrite 0))] ∧ PairOut w.stream :=
  ⟨_, _, rfl, rfl, rfl, rfl, rfl, rfl, ⟨rfl, rfl, ⟨rfl, rfl⟩, ⟨rfl, rfl, rfl⟩, rfl, rfl, rfl, rfl, rfl⟩⟩

/-- Once the read-back completes, the next call hands out the write of the second block. -/
theorem PairOut.next {s : Stream} (h : PairOut s) (buffer : List UInt8) :
    ∃ t, s.finish .calm buffer (read_back_of (pairWrite 0)) = some t ∧
      (t.source .calm).1 = .request (pairWrite 4096) := by
  have hsome : (s.finish .calm buffer (read_back_of (pairWrite 0))).isSome = true :=
    Stream.finish_isSome buffer fun _ => by simp [h.in_flight]
  obtain ⟨t, ht⟩ := Option.isSome_iff_exists.mp hsome
  refine ⟨t, ht, ?_⟩
  have hf := Stream.finish.spec ht
  have hflight : t.in_flight = [] := by
    obtain ⟨f, _, hperm⟩ := hf.in_flight h.read_back
    rw [h.in_flight] at hperm
    simpa using hperm.length_eq
  have hdue : t.due = [] := by rw [hf.due, h.due]; rfl
  have hheld : t.held = [] := by rw [hf.held, h.held]
  have hwork : t.work = .pairs 4096 1 none := hf.work.trans h.work
  have hstop : t.stopped .calm = false := by
    simp [Stream.stopped, Stream.limit_reached, hf.limit, hf.byte_limit, hf.duration, h.unlimited,
      Env.calm]
  have hplan : t.plan_request = (some (pairWrite 4096), { t with wv_count := 2 }) := by
    unfold Stream.plan_request
    rw [hwork, hf.lo, hf.hi, hf.cursors.wv_count, h.wv_count, h.range.1, h.range.2]
    rfl
  have hblocked : Stream.blocked { t with wv_count := 2 } (pairWrite 4096) = false := by
    simp [Stream.blocked, Stream.overlaps, hwork, hflight, hdue, Workload.pairs]
  have howed : Stream.owed_first { t with wv_count := 2 } (pairWrite 4096) =
      (pairWrite 4096, { t with wv_count := 2 }) := by
    simp [Stream.owed_first, hdue]
  have hcand : t.candidate .calm = t.plan_request := by
    unfold Stream.candidate
    simp only [hheld, hdue, hstop, Bool.false_eq_true, if_false]
  unfold Stream.source
  rw [hcand, hplan]
  dsimp only
  rw [howed]
  dsimp only
  rw [hblocked]
  rfl

/-- Whatever the read-back brings, the slot of the next write holds it. -/
theorem pair_then_write (answer : Memory) : ∃ run w m, Run.prepare .Linux .pairs = .ok run ∧
    run.seed = 0 ∧ run.reusable = true ∧
    machine.run (Slotted.step run) (Slotted.start run 1) 
      (pairSent answer ++ pairAnswer answer) = some w ∧
    (pairWrite 4096, (run.payload (pairWrite 4096)
      ((read_back_of (pairWrite 0)).landed answer m)).read 0 4096) ∈ w.sent := by
  obtain ⟨run, v, hrun, hseed, hreuse, hdepth, hv, hbusy, hnext⟩ := pair_sent answer
  obtain ⟨t, ht, hsource⟩ :=
    hnext.next (((read_back_of (pairWrite 0)).landed answer (v.slots 0)).read 0 4096)
  have hfinish : Slotted.step run v (.finish .calm 0 0 answer) =
      some (v.returned 0 (read_back_of (pairWrite 0)) answer t) := by
    simp only [Slotted.step, hbusy, List.lookup_cons_self]
    exact Option.map_eq_some_iff.mpr ⟨t, ht, rfl⟩
  have hnone : (v.returned 0 (read_back_of (pairWrite 0)) answer t).busy = [] := by
    simp [Slotted.returned, hbusy]
  have hlast : Slotted.step run (v.returned 0 (read_back_of (pairWrite 0)) answer t)
      (.source .calm 0) = some (Slotted.handed run
        (v.returned 0 (read_back_of (pairWrite 0)) answer t) 0 (pairWrite 4096)
        (t.source .calm).2) := by
    have hpair : t.source .calm = (.request (pairWrite 4096), (t.source .calm).2) :=
      Prod.ext hsource rfl
    simp only [Slotted.step, hnone, hdepth]
    show (if 0 < 1 ∧ 0 ∉ List.map Prod.fst [] then match t.source .calm with
      | (.request r, t) => _ | (_, t) => _ else none) = _
    rw [hpair]
    simp
  refine ⟨run, Slotted.handed run (v.returned 0 (read_back_of (pairWrite 0)) answer t) 0
    (pairWrite 4096) (t.source .calm).2, v.slots 0, hrun, hseed, hreuse, ?_,
    List.mem_append_right _ ?_⟩
  · rw [machine.run_append, hv]
    simp only [Option.bind_some, pairAnswer, machine.run, hfinish, hlast]
  · simp [Slotted.returned, pairWrite]

/-- A pair and the next write, with the same answer each time. -/
def pairRun (answer : Memory) : List Slotted.Event := pairSent answer ++ pairAnswer answer

/-- The next write after a read-back of the pattern carries its own pattern. -/
theorem a_write_after_a_good_read_back : ∃ run w, Run.prepare .Linux .pairs = .ok run ∧
    machine.run (Slotted.step run) (Slotted.start run 1) (pairRun fun k => byte_at k 0) = some w ∧
    ∃ e ∈ w.sent, e.1 = pairWrite 4096 ∧ e.2 = payload_of run.work run.seed (pairWrite 4096) := by
  obtain ⟨run, w, m, hrun, hseed, _, hw, hmem⟩ := pair_then_write fun k => byte_at k 0
  refine ⟨run, w, hrun, hw, _, hmem, rfl, ?_⟩
  have hgood : ∀ v, Slotted.Brings run v (.finish .calm 0 0 fun k => byte_at k 0) := by
    intro v r _ _ _ k _ _
    rw [hseed]
  refine (a_write_carries_its_pattern_if_reads_bring_it_back Plan.pairs_checked hrun).1 1
    (pairRun fun k => byte_at k 0) w hw (fun _ => ?_) _ hmem rfl
  exact ⟨trivial, fun _ _ => ⟨hgood _, fun _ _ => ⟨trivial, fun _ _ => ⟨hgood _, fun _ _ =>
    ⟨trivial, fun _ _ => trivial⟩⟩⟩⟩⟩

/-- The next write after a corrupted read-back carries the bytes of that read. -/
theorem a_write_after_a_corrupted_read_back : ∃ run w, Run.prepare .Linux .pairs = .ok run ∧
    machine.run (Slotted.step run) (Slotted.start run 1) (pairRun Memory.zero) = some w ∧
    ∃ e ∈ w.sent, e.1.write = true ∧ e.2 ≠ payload_of run.work run.seed e.1 := by
  obtain ⟨run, w, m, hrun, hseed, hreuse, hw, hmem⟩ := pair_then_write Memory.zero
  refine ⟨run, w, hrun, hw, _, hmem, rfl, fun h => ?_⟩
  have hstale := stale_payload hreuse (r := pairWrite 4096) (q := read_back_of (pairWrite 0)) rfl rfl
    Memory.zero m rfl (k := 8) (by decide) (by decide) (by decide)
  have hunique : run.work.unique = false := by
    rw [(Run.prepare_work hrun).1]
    rfl
  have hseed' : payload_seed (pairWrite 4096) run.work run.seed = 0 := by
    simp [payload_seed, hunique, hseed]
  rw [show (pairWrite 4096).len = 4096 from rfl, show Memory.zero 8 = 0 from rfl] at hstale
  dsimp only at h
  rw [h, payload_of_eq, hseed'] at hstale
  -- the ninth byte of the pattern is not zero
  have hbyte : byte_at 4104 0 ≠ 0 := by decide
  simp [bytes_of, pairWrite, hbyte] at hstale

end stutools
