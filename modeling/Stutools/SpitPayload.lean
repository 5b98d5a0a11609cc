-- What a write of the C engine carries: its slot's buffer holds the position, the UUID and,
-- byte by byte, the pattern of the seed that the byte was last filled for. A slot is filled
-- again only for another seed, and only as far as the position at hand is long, so that a write
-- carries its own pattern while every byte it sends was last filled for its seed.
import Stutools.SpitSlots

open memory

namespace stutools.spit

variable {rand_r : Nat → Nat × Nat} {c : Arguments}

/-- What a write has to carry. -/
def payload (rand_r : Nat → Nat × Nat) (p : positionType) (UUID : Nat) : List UInt8 :=
  bytes.le 8 p.pos ++ bytes.le 8 UUID ++ pattern rand_r p.seed 16 (p.len - 16)

/-- A position for which the engine sees to the buffer of a slot. -/
def Fills (c : Arguments) (p : positionType) : Prop :=
  p.action = 'W' ∨ p.action = 'R' ∧ c.stringcompare = true

instance (c : Arguments) (p : positionType) : Decidable (Fills c p) :=
  inferInstanceAs (Decidable (_ ∨ _))

namespace Engine

variable {s t u : Engine} {source : Nat → Nat → Nat}

/-! ## What a slot was filled for -/

/-- The seeds that the bytes of the slots were last filled for, after a step from `s` to `t`: a
slot whose seed changes is filled as far as the position at hand is long. -/
def sources (s t : Engine) (source : Nat → Nat → Nat) (slot j : Nat) : Nat :=
  if t.dataseed.getD slot 0 ≠ s.dataseed.getD slot 0 ∧ j < span (s.position s.pos).len then
    t.dataseed.getD slot 0
  else source slot j

theorem sources_same (h : t.dataseed = s.dataseed) (source : Nat → Nat → Nat) :
    sources s t source = source := by
  funext slot j
  simp [sources, h]

theorem sources_congr (h : t.dataseed = u.dataseed) (source : Nat → Nat → Nat) :
    sources s t source = sources s u source := by
  funext slot j
  simp [sources, h]

/-- The position at hand finds every byte that it needs filled for its seed, or fills it. -/
def Fresh (c : Arguments) (source : Nat → Nat → Nat) (s : Engine) : Prop :=
  ∀ j < (s.taken c).len, 16 ≤ j → (s.taken c).seed ≠ s.dataseed.getD s.head_slot 0 ∨
    source s.head_slot j = (s.taken c).seed

instance (c : Arguments) (source : Nat → Nat → Nat) (s : Engine) : Decidable (Fresh c source s) :=
  inferInstanceAs (Decidable (∀ j < (s.taken c).len, 16 ≤ j → _ ∨ _))

/-- The slot that is filled for the position at hand has room for the fill, or is the only one. -/
def Contained (c : Arguments) (s : Engine) : Prop :=
  Fills c (s.taken c) → (s.taken c).seed ≠ s.dataseed.getD s.head_slot 0 →
    span (s.taken c).len ≤ s.maxSize ∨ s.QD = 1

instance (c : Arguments) (s : Engine) : Decidable (Contained c s) :=
  inferInstanceAs (Decidable (_ → _ → _ ∨ _))

theorem contained_of_whole (hwhole : Whole s.maxSize) (hlen : (s.position s.pos).len ≤ s.maxSize) :
    s.Contained c := by
  intro _ _
  rw [(taken_same c s).len]
  exact Or.inl (span_le_of_whole hlen hwhole)

/-! ## What a fill writes -/

theorem refill_data (s : Engine) (qdIndex : Nat) (p : positionType) (x : Nat) :
    (s.refill rand_r qdIndex p).data x =
      if p.seed ≠ s.dataseed.getD qdIndex 0 ∧ s.buffer qdIndex ≤ x ∧
          x < s.buffer qdIndex + span p.len then pattern_byte rand_r p.seed (x - s.buffer qdIndex)
      else s.data x := by
  unfold refill
  by_cases hseed : p.seed ≠ s.dataseed.getD qdIndex 0
  · rw [if_pos hseed]
    dsimp only
    rw [generateRandomBuffer.spec]
    simp only [hseed, ne_eq, not_false_eq_true, true_and]
  · rw [if_neg hseed]
    simp only [hseed, false_and, if_false]

theorem refill_dataseed (s : Engine) (qdIndex : Nat) (p : positionType)
    (h : qdIndex < s.dataseed.length) (slot : Nat) :
    (s.refill rand_r qdIndex p).dataseed.getD slot 0 =
      if slot = qdIndex then p.seed else s.dataseed.getD slot 0 := by
  unfold refill
  split
  · dsimp only
    rw [List.getD_eq_getElem?_getD, List.getElem?_set]
    split
    · rename_i heq
      rw [if_pos heq.symm]
      simp
    · rename_i heq
      rw [if_neg fun h => heq h.symm, List.getD_eq_getElem?_getD]
  · rename_i heq
    split
    · rename_i hslot
      rw [hslot]
      exact (not_not.mp heq).symm
    · rfl

theorem refill_dataseed_length (s : Engine) (qdIndex : Nat) (p : positionType) :
    (s.refill rand_r qdIndex p).dataseed.length = s.dataseed.length := by
  unfold refill
  split
  · exact List.length_set
  · rfl

theorem refill_buffer (s : Engine) (qdIndex : Nat) (p : positionType) (slot : Nat) :
    (s.refill rand_r qdIndex p).buffer slot = s.buffer slot := by
  unfold refill
  split <;> rfl

theorem encode_frame {qdIndex pos x : Nat}
    (hx : ¬ (s.buffer qdIndex ≤ x ∧ x < s.buffer qdIndex + 16)) :
    (s.encode qdIndex pos).data x = s.data x := by
  unfold encode
  dsimp only
  by_cases hlo : x < s.buffer qdIndex
  · rw [Memory.write_apply_of_lt (by omega), Memory.write_apply_of_lt hlo]
  · rw [Memory.write_apply_of_ge (by simp; omega), Memory.write_apply_of_ge (by simp; omega)]

/-- The header of an encoded buffer. -/
theorem encode_header (qdIndex pos : Nat) : (s.encode qdIndex pos).data.read (s.buffer qdIndex) 16 =
    bytes.le 8 pos ++ bytes.le 8 s.UUID := by
  unfold encode
  dsimp only
  rw [show (16 : Nat) = 8 + 8 from rfl, Memory.read_append]
  congr 1
  · rw [Memory.read_write_disjoint (by simp [Overlap])]
    have h := Memory.read_write_self s.data (s.buffer qdIndex) (bytes.le 8 pos)
    rwa [bytes.le_length] at h
  · have h := Memory.read_write_self (s.data.write (s.buffer qdIndex) (bytes.le 8 pos))
      (s.buffer qdIndex + 8) (bytes.le 8 s.UUID)
    rwa [bytes.le_length] at h

/-! ## A request that is set up -/

/-- The engine with the slot at the head of the queue filled for the position taken. -/
theorem Ready.data (hu : Ready rand_r c s u) :
    (u.data = s.data ∧ u.dataseed = s.dataseed ∧ ¬ Fills c (s.taken c)) ∨
    (Fills c (s.taken c) ∧
      u.dataseed = ((s.taken_put c).refill rand_r s.head_slot (s.taken c)).dataseed ∧
      ((s.taken c).action ≠ 'W' ∧
        u.data = ((s.taken_put c).refill rand_r s.head_slot (s.taken c)).data ∨
      u.data = (((s.taken_put c).refill rand_r s.head_slot (s.taken c)).encode s.head_slot
        (s.taken c).pos).data)) := by
  cases hu with
  | read hR =>
    have hne : (s.taken c).action ≠ 'W' := by simp [hR]
    by_cases hcmp : c.stringcompare = true
    · obtain ⟨cb, hu⟩ : ∃ cb, s.read_ready rand_r c =
          prep ((s.taken_put c).refill rand_r s.head_slot (s.taken c)) s.head_slot cb := by
        unfold read_ready
        dsimp only
        rw [if_pos hcmp]
        exact ⟨_, rfl⟩
      rw [hu]
      exact Or.inr ⟨Or.inr ⟨hR, hcmp⟩, rfl, Or.inl ⟨hne, rfl⟩⟩
    · obtain ⟨cb, hu⟩ : ∃ cb, s.read_ready rand_r c = prep (s.taken_put c) s.head_slot cb := by
        unfold read_ready
        dsimp only
        rw [if_neg hcmp]
        exact ⟨_, rfl⟩
      rw [hu]
      exact Or.inl ⟨rfl, rfl, by simp [Fills, hR, hcmp]⟩
  | flush hF => exact Or.inl ⟨rfl, rfl, by simp [Fills, hF]⟩
  | write hW =>
    have hforget : ∀ (e : Engine) (i : Nat), (e.forget i).data = e.data ∧
        (e.forget i).dataseed = e.dataseed := by
      intro e i
      unfold forget
      dsimp only
      split <;> exact ⟨rfl, rfl⟩
    have hprep : ∀ (e : Engine) (q : Nat) (cb : iocb), (e.prep q cb).data = e.data ∧
        (e.prep q cb).dataseed = e.dataseed := fun _ _ _ => ⟨rfl, rfl⟩
    have hencode : ∀ (e : Engine) (q pos : Nat), (e.encode q pos).dataseed = e.dataseed :=
      fun _ _ _ => rfl
    unfold write_ready
    dsimp only
    exact Or.inr ⟨Or.inl hW, (hprep _ _ _).2.trans ((hforget _ _).2.trans (hencode _ _ _)),
      Or.inr ((hprep _ _ _).1.trans (hforget _ _).1)⟩

theorem taken_refill_data (rand_r : Nat → Nat × Nat) (c : Arguments) (s : Engine) (x : Nat) :
    ((s.taken_put c).refill rand_r s.head_slot (s.taken c)).data x =
      if (s.taken c).seed ≠ s.dataseed.getD s.head_slot 0 ∧ s.buffer s.head_slot ≤ x ∧
          x < s.buffer s.head_slot + span (s.taken c).len then
        pattern_byte rand_r (s.taken c).seed (x - s.buffer s.head_slot)
      else s.data x :=
  refill_data (s.taken_put c) s.head_slot (s.taken c) x

/-- The buffers change only where the slot at the head of the queue is filled and encoded. -/
theorem Ready.frame (hu : Ready rand_r c s u) {x : Nat}
    (hheader : ¬ (s.buffer s.head_slot ≤ x ∧ x < s.buffer s.head_slot + 16))
    (hfill : Fills c (s.taken c) → (s.taken c).seed ≠ s.dataseed.getD s.head_slot 0 →
      ¬ (s.buffer s.head_slot ≤ x ∧ x < s.buffer s.head_slot + span (s.taken c).len)) :
    u.data x = s.data x := by
  obtain ⟨h, -, -⟩ | ⟨hfills, -, hdata⟩ := hu.data
  · rw [h]
  · have hrefill : ((s.taken_put c).refill rand_r s.head_slot (s.taken c)).data x = s.data x := by
      rw [taken_refill_data, if_neg fun h => hfill hfills h.1 h.2]
    obtain ⟨-, h⟩ | h := hdata
    · rw [h, hrefill]
    · rw [h, encode_frame, hrefill]
      rw [refill_buffer]
      exact hheader

/-- The seed of the slot at the head of the queue, and its bytes behind the header. -/
theorem Ready.head (hu : Ready rand_r c s u) (hslot : s.head_slot < s.dataseed.length) :
    u.dataseed.length = s.dataseed.length ∧
    (∀ slot, u.dataseed.getD slot 0 = if slot = s.head_slot ∧ Fills c (s.taken c) then
      (s.taken c).seed else s.dataseed.getD slot 0) ∧
    ∀ j, 16 ≤ j → u.data (s.buffer s.head_slot + j) = if Fills c (s.taken c) ∧
        (s.taken c).seed ≠ s.dataseed.getD s.head_slot 0 ∧ j < span (s.taken c).len then
      pattern_byte rand_r (s.taken c).seed j else s.data (s.buffer s.head_slot + j) := by
  obtain ⟨hdata, hseed, hnot⟩ | ⟨hfills, hseed, hdata⟩ := hu.data
  · refine ⟨by rw [hseed], fun slot => ?_, fun j _ => ?_⟩
    · rw [hseed, if_neg fun h => hnot h.2]
    · rw [hdata, if_neg fun h => hnot h.1]
  · have hseeds := @refill_dataseed rand_r (s.taken_put c) s.head_slot (s.taken c) hslot
    have hlength := @refill_dataseed_length rand_r (s.taken_put c) s.head_slot (s.taken c)
    have hbytes : ∀ j, ((s.taken_put c).refill rand_r s.head_slot (s.taken c)).data
        (s.buffer s.head_slot + j) = if Fills c (s.taken c) ∧
          (s.taken c).seed ≠ s.dataseed.getD s.head_slot 0 ∧ j < span (s.taken c).len then
        pattern_byte rand_r (s.taken c).seed j else s.data (s.buffer s.head_slot + j) := by
      intro j
      rw [taken_refill_data]
      by_cases hj : (s.taken c).seed ≠ s.dataseed.getD s.head_slot 0 ∧ j < span (s.taken c).len
      · rw [if_pos ⟨hj.1, by omega, by omega⟩, if_pos ⟨hfills, hj⟩, Nat.add_sub_cancel_left]
      · rw [if_neg fun h => hj ⟨h.1, by omega⟩, if_neg fun h => hj h.2]
    refine ⟨by rw [hseed]; exact hlength, fun slot => ?_, fun j hj => ?_⟩
    · rw [hseed, hseeds]
      simp only [hfills, and_true]
      rfl
    · rw [← hbytes]
      obtain ⟨-, h⟩ | h := hdata
      · rw [h]
      · have hbuf := @refill_buffer rand_r (s.taken_put c) s.head_slot (s.taken c) s.head_slot
        rw [h]
        refine encode_frame ?_
        rw [hbuf]
        change ¬ (s.buffer s.head_slot ≤ _ ∧ _ < s.buffer s.head_slot + 16)
        omega

/-- The buffer of a write that is set up starts with the header. -/
theorem Ready.header (hu : Ready rand_r c s u) (hW : (s.taken c).action = 'W') :
    u.data.read (s.buffer s.head_slot) 16 = bytes.le 8 (s.taken c).pos ++ bytes.le 8 s.UUID := by
  obtain ⟨-, -, hnot⟩ | ⟨-, -, ⟨hne, -⟩ | hdata⟩ := hu.data
  · exact absurd (Or.inl hW) hnot
  · exact absurd hW hne
  · have h := @encode_header ((s.taken_put c).refill rand_r s.head_slot (s.taken c)) s.head_slot
      (s.taken c).pos
    rw [refill_buffer, (@quiet_refill rand_r c (s.taken_put c) s.head_slot (s.taken c)).UUID] at h
    rw [hdata]
    exact h

/-- What a slot that is set up was last filled for. -/
theorem Ready.sources (hu : Ready rand_r c s u) (hslot : s.head_slot < s.dataseed.length)
    (source : Nat → Nat → Nat) (slot j : Nat) : sources s u source slot j =
      if slot = s.head_slot ∧ Fills c (s.taken c) ∧
          (s.taken c).seed ≠ s.dataseed.getD s.head_slot 0 ∧ j < span (s.taken c).len then
        (s.taken c).seed else source slot j := by
  unfold Engine.sources
  rw [(hu.head hslot).2.1, ← (taken_same c s).len]
  by_cases hhead : slot = s.head_slot ∧ Fills c (s.taken c)
  · obtain ⟨rfl, hfills⟩ := hhead
    simp only [hfills, and_self, if_true, true_and]
  · rw [if_neg hhead, if_neg fun h => h.1 rfl, if_neg fun h => hhead ⟨h.1, h.2.1⟩]

theorem Ready.fresh (hu : Ready rand_r c s u) (hslot : s.head_slot < s.dataseed.length)
    (hfills : Fills c (s.taken c)) (hfresh : s.Fresh c source) {j : Nat} (h1 : 16 ≤ j)
    (h2 : j < (s.taken c).len) : Engine.sources s u source s.head_slot j = (s.taken c).seed := by
  have hspan := le_span (s.taken c).len
  rw [hu.sources hslot]
  by_cases hchange : (s.taken c).seed ≠ s.dataseed.getD s.head_slot 0
  · rw [if_pos ⟨rfl, hfills, hchange, by omega⟩]
  · rw [if_neg fun h => hchange h.2.2.1]
    exact (hfresh j h2 h1).resolve_left hchange

/-! ## The buffers of a run -/

/-- What the buffers hold in a run over the positions `ps`. -/
structure Filled (rand_r : Nat → Nat × Nat) (c : Arguments) (ps : List positionType)
    (source : Nat → Nat → Nat) (s : Engine) : Prop where
  length : s.positions.length = ps.length
  same : ∀ i, Same c (ps.getD i default) (s.position i)
  size : s.maxSize = longest ps
  seeds : s.dataseed.length = s.QD
  /-- Past its header, a slot holds the patterns that it was filled with. -/
  filled : ∀ slot < s.QD, ∀ j, 16 ≤ j → j < s.maxSize →
    s.data (s.buffer slot + j) = pattern_byte rand_r (source slot j) j
  headed : ∀ r ∈ s.kernel, r.cb.opcode = .pwrite → s.data.read r.cb.buf 16 =
    bytes.le 8 (s.position r.cb.data).pos ++ bytes.le 8 s.UUID
  past : Whole s.maxSize → ∀ x, s.maxSize * s.QD ≤ x → s.data x = 0

/-- The bytes of every write in flight were last filled for its seed. -/
def Own (source : Nat → Nat → Nat) (s : Engine) : Prop :=
  ∀ r ∈ s.kernel, r.cb.opcode = .pwrite → ∀ j, 16 ≤ j → j < r.cb.nbytes →
    source r.obj j = (s.position r.cb.data).seed

variable {ps : List positionType}

theorem Held.obj_lt (hs : s.Held) {r : Request} (hr : r ∈ s.kernel) : r.obj < s.QD :=
  List.mem_range.mp (hs.slots.subset (List.mem_append_right _ (List.mem_map_of_mem hr)))

theorem Held.in_flight (hs : s.Held) {r : Request} (hr : r ∈ s.kernel) :
    (s.position r.cb.data).inFlight = true :=
  mem_in_flight.mp (hs.flagged.mem_iff.mpr (List.mem_map_of_mem hr))

theorem Filled.mem (hf : s.Filled rand_r c ps source) {i : Nat} (hi : i < s.positions.length) :
    ps.getD i default ∈ ps := by
  have hlt : i < ps.length := by
    rw [← hf.length]
    exact hi
  rw [List.getD_eq_getElem _ _ hlt]
  exact List.getElem_mem hlt

theorem Filled.quiet (hf : s.Filled rand_r c ps source) (hs : s.Held) (h : Quiet c s t)
    (hdata : t.data = s.data) (hseed : t.dataseed = s.dataseed) : t.Filled rand_r c ps source := by
  have hbuffer : ∀ i, t.buffer i = s.buffer i := fun i => by unfold buffer; rw [h.maxSize]
  refine ⟨h.length.trans hf.length, fun i => (hf.same i).trans (h.same i), h.maxSize.trans hf.size,
    ?_, ?_, ?_, ?_⟩
  · rw [hseed, h.QD]
    exact hf.seeds
  · rw [h.QD, h.maxSize, hdata]
    intro slot hslot j h1 h2
    rw [hbuffer]
    exact hf.filled slot hslot j h1 h2
  · intro r hr hop
    rw [h.kernel] at hr
    rw [hdata, h.flying _ (hs.in_flight hr), h.UUID]
    exact hf.headed r hr hop
  · rw [h.maxSize, h.QD, hdata]
    exact hf.past

/-- The bytes of another slot. -/
theorem Ready.other (hu : Ready rand_r c s u) (hin : s.Contained c) (hheader : 16 ≤ s.maxSize)
    (hslot : s.head_slot < s.QD) {slot j : Nat} (hlt : slot < s.QD) (hne : slot ≠ s.head_slot)
    (hj : j < s.maxSize) : u.data (s.buffer slot + j) = s.data (s.buffer slot + j) := by
  have hapart : ¬ (s.buffer s.head_slot ≤ s.buffer slot + j ∧
      s.buffer slot + j < s.buffer s.head_slot + s.maxSize) := by
    intro hx
    refine buffer_apart (s := s) hne ?_
    unfold Overlap
    omega
  refine hu.frame (by omega) fun hfills hchange => ?_
  obtain hspan | hone := hin hfills hchange
  · omega
  · omega

/-- Setting up a request fills no more than the slot at the head of the queue. -/
theorem Ready.filled (hu : Ready rand_r c s u) (hf : s.Filled rand_r c ps source) (hs : s.Held)
    (hin : s.Contained c) (hheader : ∀ p ∈ ps, 16 ≤ p.len) (hpos : s.pos < s.positions.length)
    (hidle : (s.position s.pos).inFlight = false) (hslot : s.head_slot < s.QD)
    (hfree : ∀ r ∈ s.kernel, r.obj ≠ s.head_slot) :
    u.Filled rand_r c ps (Engine.sources s u source) := by
  have hquiet := hu.quiet hpos hidle hfree
  have hfits : (s.position s.pos).len ≤ s.maxSize := hs.fits _ (position_mem hpos)
  have h16 : 16 ≤ s.maxSize := by
    have h := hheader _ (hf.mem hpos)
    rw [← (hf.same s.pos).len] at h
    omega
  have hseeds : s.head_slot < s.dataseed.length := by
    rw [hf.seeds]
    exact hslot
  obtain ⟨hlength, -, hbytes⟩ := hu.head hseeds
  have hbuffer : ∀ i, u.buffer i = s.buffer i := fun i => by unfold buffer; rw [hquiet.maxSize]
  refine ⟨hquiet.length.trans hf.length, fun i => (hf.same i).trans (hquiet.same i),
    hquiet.maxSize.trans hf.size, ?_, ?_, ?_, ?_⟩
  · rw [hquiet.QD, hlength]
    exact hf.seeds
  · intro slot hlt j h1 h2
    rw [hquiet.QD] at hlt
    rw [hquiet.maxSize] at h2
    rw [hbuffer, hu.sources hseeds]
    by_cases hhead : slot = s.head_slot
    · subst hhead
      rw [hbytes j h1]
      by_cases hfill : Fills c (s.taken c) ∧
          (s.taken c).seed ≠ s.dataseed.getD s.head_slot 0 ∧ j < span (s.taken c).len
      · rw [if_pos hfill, if_pos ⟨rfl, hfill⟩]
      · rw [if_neg hfill, if_neg fun h => hfill h.2]
        exact hf.filled _ hlt j h1 h2
    · rw [if_neg fun h => hhead h.1, hu.other hin h16 hslot hlt hhead h2]
      exact hf.filled slot hlt j h1 h2
  · intro r hr hop
    rw [hquiet.kernel] at hr
    obtain ⟨hbuf, -⟩ := hs.buffers r hr (Or.inr hop)
    rw [hquiet.flying _ (hs.in_flight hr), hquiet.UUID, ← hf.headed r hr hop]
    apply Memory.read_congr
    intro x hx1 hx2
    obtain ⟨j, rfl⟩ : ∃ j, x = s.buffer r.obj + j := ⟨x - s.buffer r.obj, by omega⟩
    exact hu.other hin h16 hslot (hs.obj_lt hr) (hfree r hr) (by omega)
  · intro hwhole x hx
    rw [hquiet.maxSize] at hwhole hx
    rw [hquiet.QD] at hx
    have hend : s.buffer s.head_slot + s.maxSize ≤ s.maxSize * s.QD := by
      unfold buffer
      rw [← Nat.mul_succ]
      exact Nat.mul_le_mul_left _ hslot
    have hspan : span (s.taken c).len ≤ s.maxSize := by
      rw [(taken_same c s).len]
      exact span_le_of_whole hfits hwhole
    rw [hu.frame (by omega) fun _ _ => by omega]
    exact hf.past hwhole x hx

/-! ## Every step -/

/-- What the buffers keep to, between two steps. -/
structure Buffered (rand_r : Nat → Nat × Nat) (c : Arguments) (ps : List positionType)
    (source : Nat → Nat → Nat) (s : Engine) : Prop where
  conserved : s.Conserved
  header : ∀ p ∈ ps, 16 ≤ p.len
  filled : s.Filled rand_r c ps source

theorem nextpos_data (c : Arguments) (s : Engine) :
    (s.nextpos c).data = s.data ∧ (s.nextpos c).dataseed = s.dataseed := by
  unfold nextpos
  dsimp only
  split <;> exact ⟨rfl, rfl⟩

theorem trim_data (c : Arguments) (s : Engine) (now done : ℚ≥0) (left : List UInt8) :
    (s.trim c now done left).data = s.data ∧ (s.trim c now done left).dataseed = s.dataseed := by
  unfold trim
  split <;> exact ⟨rfl, rfl⟩

/-- A step that fills nothing, and leaves the requests alone. -/
theorem Buffered.quiet (hs : s.Buffered rand_r c ps source) (h : Quiet c s t) (hdata : t.data = s.data)
    (hseed : t.dataseed = s.dataseed) (hpos : t.pos < t.positions.length) :
    t.Buffered rand_r c ps source :=
  ⟨hs.conserved.quiet h hpos, hs.header, hs.filled.quiet hs.conserved.held h hdata hseed⟩

/-- A step that fills nothing leaves what the slots were filled for. -/
theorem Buffered.kept (ht : t.Buffered rand_r c ps source) (hseed : t.dataseed = s.dataseed) :
    t.Buffered rand_r c ps (sources s t source) := by
  rw [sources_same hseed]
  exact ht

theorem Buffered.nextpos (hs : s.Buffered rand_r c ps source) :
    (s.nextpos c).Buffered rand_r c ps source :=
  hs.quiet (quiet_nextpos c s) (nextpos_data c s).1 (nextpos_data c s).2
    (nextpos_pos (Nat.zero_lt_of_lt hs.conserved.pos))

theorem Buffered.quiet_nextpos (hs : s.Buffered rand_r c ps source) (h : Quiet c s t)
    (hdata : t.data = s.data) (hseed : t.dataseed = s.dataseed) :
    (t.nextpos c).Buffered rand_r c ps source := by
  have hlen : 0 < t.positions.length := by
    rw [h.length]
    exact Nat.zero_lt_of_lt hs.conserved.pos
  exact hs.quiet (h.trans (Engine.quiet_nextpos c t)) ((nextpos_data c t).1.trans hdata)
    ((nextpos_data c t).2.trans hseed) (nextpos_pos hlen)

theorem Buffered.ready (hs : s.Buffered rand_r c ps source) (hopen : s.Open) (hin : s.Contained c)
    (hu : Ready rand_r c s.begun u) : u.Buffered rand_r c ps (sources s u source) := by
  obtain ⟨hquiet, -, hlt⟩ := hs.conserved.ready hopen hu
  obtain ⟨hslot, hfree⟩ := hs.conserved.held.head_free (hs.conserved.open hopen)
  have hbegun : s.begun.Buffered rand_r c ps source :=
    hs.quiet (quiet_begun s) rfl rfl hs.conserved.pos
  refine ⟨hs.conserved.quiet hquiet hlt, hs.header, ?_⟩
  exact hu.filled hbegun.filled hbegun.conserved.held hin hs.header hs.conserved.pos hopen.idle
    hslot hfree

/-- The request of the kernel that is new, when it is a write. -/
theorem Conserved.new_write (hs : s.Conserved) (hopen : s.Open) (hu : Ready rand_r c s.begun u)
    (hop : (u.cbs.getD u.head_slot default).opcode = .pwrite) :
    (s.taken c).action = 'W' ∧ (u.cbs.getD u.head_slot default).buf = s.buffer s.head_slot ∧
      (u.cbs.getD u.head_slot default).nbytes = (s.taken c).len ∧
      ∃ verify, u.position u.pos = { s.taken c with verify := verify } := by
  obtain ⟨hquiet, hpos, -⟩ := hs.ready hopen hu
  obtain ⟨hslot, -, hdescribes, howns⟩ := hs.block hopen hu
  obtain ⟨verify, hposition⟩ := hu.position hs.pos
  have hat : u.position u.pos = { s.taken c with verify := verify } := by
    rw [hpos]
    exact hposition
  refine ⟨?_, ?_, ?_, verify, hat⟩
  · have h := hdescribes.write.mp hop
    rwa [hat] at h
  · rw [(howns (Or.inr hop)).1, hslot]
    unfold buffer
    rw [hquiet.maxSize]
  · rw [(hdescribes.extent (Or.inr hop)).1, hat]

theorem Buffered.accept (hs : s.Buffered rand_r c ps source) (hopen : s.Open) (hin : s.Contained c)
    (hu : Ready rand_r c s.begun u) (now : ℚ≥0) :
    (u.accepted now).Buffered rand_r c ps (sources s u source) := by
  obtain ⟨hquiet, hpos, hlt⟩ := hs.conserved.ready hopen hu
  have hready := hs.ready hopen hin hu
  have hf := hready.filled
  have hsame := accepted_same (c := c) now hlt
  refine ⟨hs.conserved.accept hopen hu now, hs.header, ?_, fun i => (hf.same i).trans (hsame i),
    hf.size, hf.seeds, hf.filled, ?_, hf.past⟩
  · change (u.positions.set _ _).length = ps.length
    rw [List.length_set]
    exact hf.length
  · intro r hr hop
    change u.data.read r.cb.buf 16 =
      bytes.le 8 ((u.accepted now).position r.cb.data).pos ++ bytes.le 8 u.UUID
    rw [(hsame r.cb.data).pos]
    obtain hr | hr := List.mem_append.mp hr
    · exact hf.headed r hr hop
    · -- the request that is new
      have hcb : r.cb = u.cbs.getD u.head_slot default := by
        rw [List.mem_singleton.mp hr]
        rfl
      rw [hcb] at hop ⊢
      obtain ⟨hW, hbuf, -, verify, hat⟩ := hs.conserved.new_write hopen hu hop
      rw [(hs.conserved.block hopen hu).2.1, hat, hbuf, hquiet.UUID]
      exact hu.header hW

/-- What a step asks of its input, so that no fill reaches into another slot. -/
def Contains (c : Arguments) (s : Engine) : Input → Prop
  | .submit a => s.Prepares c a → s.Contained c
  | _ => True

theorem Buffered.turn (hs : s.Buffered rand_r c ps source) {a : Answers} (h : Turn rand_r c a s t)
    (hin : s.Prepares c a → s.Contained c) :
    t.Buffered rand_r c ps (sources s t source) := by
  cases h with
  | stop n phase =>
    exact .kept (hs.quiet (quiet_counters c _ _ _ _ _ _) rfl rfl hs.conserved.pos) rfl
  | pass n =>
    exact .kept (hs.quiet_nextpos (quiet_counters c _ _ _ _ _ _) rfl rfl) (nextpos_data c _).2
  | trim hopen =>
    obtain ⟨hdata, hseed⟩ := trim_data c s.begun a.now a.done a.left
    have hquiet : Quiet c s (s.begun.trim c a.now a.done a.left) :=
      (quiet_begun s).trans (quiet_trim a.now a.done a.left hopen.idle)
    exact .kept (hs.quiet_nextpos hquiet hdata hseed) ((nextpos_data c _).2.trans hseed)
  | skip pos hopen =>
    have hput : Quiet c s (s.begun.taken_put c) := (quiet_begun s).trans (quiet_taken_put hopen.idle)
    exact .kept (hs.quiet_nextpos (hput.trans (quiet_counters c _ _ _ _ _ _)) rfl rfl)
      (nextpos_data c _).2
  | limit hopen hu hprepares =>
    have hready := hs.ready hopen (hin hprepares) hu
    exact hready.quiet (quiet_counters c _ _ _ _ _ _) rfl rfl hready.conserved.pos
  | @refuse u hopen hu hret hprepares =>
    have hidle := hs.conserved.ready_idle hopen hu
    rw [sources_congr (nextpos_data c _).2]
    exact (hs.ready hopen (hin hprepares) hu).quiet_nextpos (quiet_refused hidle) rfl rfl
  | @give_up u hopen hu hret hprepares =>
    have hidle := hs.conserved.ready_idle hopen hu
    have hready := hs.ready hopen (hin hprepares) hu
    have hrefused : Quiet c u u.refused := quiet_refused hidle
    refine hready.quiet (hrefused.trans (quiet_counters c _ _ _ _ _ _)) rfl rfl ?_
    change u.pos < u.refused.positions.length
    rw [hrefused.length]
    exact hready.conserved.pos
  | accept hopen hu hsubmits =>
    rw [sources_congr (nextpos_data c _).2]
    exact (hs.accept hopen (hin hsubmits.1) hu a.now).nextpos

theorem Filled.completed {now : ℚ≥0} {e : io_event} {r : Request} (hf : s.Filled rand_r c ps source)
    (hs : s.Held) (h : Completed c s now e r t) : t.Filled rand_r c ps source := by
  have hbuffer : ∀ i, t.buffer i = s.buffer i := fun i => by unfold buffer; rw [h.maxSize]
  refine ⟨h.positions_length.trans hf.length, fun i => (hf.same i).trans (h.same hs i),
    h.maxSize.trans hf.size, ?_, ?_, ?_, ?_⟩
  · rw [h.dataseed, h.QD]
    exact hf.seeds
  · rw [h.QD, h.maxSize, h.data]
    intro slot hslot j h1 h2
    rw [hbuffer]
    exact hf.filled slot hslot j h1 h2
  · intro r' hr' hop
    have hmem : r' ∈ s.kernel := (h.perm hs).mem_iff.mpr (List.mem_cons_of_mem _ hr')
    rw [h.data, h.UUID, h.position_ne (h.data_ne hs hr')]
    exact hf.headed r' hmem hop
  · rw [h.maxSize, h.QD, h.data]
    exact hf.past

theorem events_dataseed {now : ℚ≥0} {events : List io_event} (hs : s.Held)
    (h : s.receive_all c now events = some t ∨ s.drain_turn c now events = some t) :
    t.data = s.data ∧ t.dataseed = s.dataseed := by
  refine events_rule (P := fun t => t.data = s.data ∧ t.dataseed = s.dataseed) ?_ ?_ hs
    ⟨rfl, rfl⟩ h
  · rintro u v e r - - ⟨hdata, hseed⟩ hr
    exact ⟨hr.data.trans hdata, hr.dataseed.trans hseed⟩
  · intro u n phase count errors hP
    exact hP

theorem Buffered.events (hs : s.Buffered rand_r c ps source) {now : ℚ≥0} {events : List io_event}
    (hcons : t.Conserved)
    (h : s.receive_all c now events = some t ∨ s.drain_turn c now events = some t) :
    t.Buffered rand_r c ps (sources s t source) := by
  refine Buffered.kept ?_ (events_dataseed hs.conserved.held h).2
  refine ⟨hcons, hs.header, events_rule (P := fun t => t.Filled rand_r c ps source) ?_ ?_
    hs.conserved.held hs.filled h⟩
  · intro u v e r _ hu hP hr
    exact hP.completed hu hr
  · intro u n phase count errors hf
    exact ⟨hf.length, hf.same, hf.size, hf.seeds, hf.filled, hf.headed, hf.past⟩

theorem Buffered.perform (hs : s.Buffered rand_r c ps source) {obj : Nat} (h : s.perform obj = some t) :
    t.Buffered rand_r c ps (sources s t source) := by
  have hcons := hs.conserved.perform h
  obtain ⟨r, -, -, -, device, readdata, rfl, -⟩ := perform_cases h
  have hf := hs.filled
  refine Buffered.kept ⟨hcons, hs.header, hf.length, hf.same, hf.size, hf.seeds, hf.filled, ?_,
    hf.past⟩ rfl
  intro r hr hop
  obtain ⟨r', hr', -, hcb, -⟩ := mem_marked_performed hr
  rw [hcb] at hop ⊢
  exact hf.headed r' hr' hop

theorem Buffered.step (hs : s.Buffered rand_r c ps source) {input : Input} (hin : s.Contains c input)
    (h : s.step rand_r c input = some t) : t.Buffered rand_r c ps (sources s t source) := by
  have hcons := hs.conserved.step h
  cases step_moves h with
  | turn keepRunning due n phase =>
    exact .kept (hs.quiet (quiet_counters c _ _ _ _ _ _) rfl rfl hs.conserved.pos) rfl
  | submit hturn => exact hs.turn hturn hin
  | receive hall => exact hs.events hcons (Or.inl hall)
  | drain hdrain => exact hs.events hcons (Or.inr hdrain)
  | perform hperform => exact hs.perform hperform

theorem Buffered.contains_of_whole (hs : s.Buffered rand_r c ps source) (hwhole : Whole (longest ps))
    (input : Input) : s.Contains c input := by
  cases input with
  | submit a =>
    rw [← hs.filled.size] at hwhole
    exact fun _ => contained_of_whole hwhole (hs.conserved.held.fits _ (position_mem hs.conserved.pos))
  | _ => exact trivial

/-! ## The writes of a run -/

/-- What a step asks of its input, so that a write that it submits finds every byte filled for its
seed, or fills it. -/
def Meets (c : Arguments) (source : Nat → Nat → Nat) (s : Engine) : Input → Prop
  | .submit a => s.Submits c a → (s.taken c).action = 'W' → s.Fresh c source
  | _ => True

instance Meets.decidable (c : Arguments) (source : Nat → Nat → Nat) (s : Engine) :
    (input : Input) → Decidable (s.Meets c source input)
  | .submit a => inferInstanceAs (Decidable (s.Submits c a → (s.taken c).action = 'W' → _))
  | .turn .. | .events .. | .perform _ => isTrue trivial

theorem Own.quiet (hown : s.Own source) (hheld : s.Held) (hquiet : Quiet c s t) : t.Own source := by
  intro r hr hop j h1 h2
  rw [hquiet.kernel] at hr
  rw [hquiet.flying _ (hheld.in_flight hr)]
  exact hown r hr hop j h1 h2

/-- A step that fills nothing leaves what the slots were filled for. -/
theorem Own.kept (ht : t.Own source) (hseed : t.dataseed = s.dataseed) : t.Own (sources s t source) := by
  rw [sources_same hseed]
  exact ht

theorem Own.quiet_nextpos (hown : s.Own source) (hheld : s.Held) (hquiet : Quiet c s t) :
    (t.nextpos c).Own source :=
  hown.quiet hheld (hquiet.trans (Engine.quiet_nextpos c t))

/-- A request that is set up fills a slot that no request holds. -/
theorem Buffered.ready_own (hs : s.Buffered rand_r c ps source) (hopen : s.Open)
    (hu : Ready rand_r c s.begun u) (hown : s.Own source) : u.Held ∧ u.Own (sources s u source) := by
  obtain ⟨hquiet, -, hlt⟩ := hs.conserved.ready hopen hu
  obtain ⟨hslot, hfree⟩ := hs.conserved.held.head_free (hs.conserved.open hopen)
  have hseeds : s.begun.head_slot < s.begun.dataseed.length := hs.filled.seeds ▸ hslot
  refine ⟨(hs.conserved.quiet hquiet hlt).held, fun r hr hop j h1 h2 => ?_⟩
  rw [hquiet.kernel] at hr
  rw [hquiet.flying _ (hs.conserved.held.in_flight hr), ← hown r hr hop j h1 h2]
  exact (hu.sources hseeds source r.obj j).trans (if_neg fun h => hfree r hr h.1)

theorem Buffered.accept_own (hs : s.Buffered rand_r c ps source) (hopen : s.Open)
    (hu : Ready rand_r c s.begun u) (hown : s.Own source)
    (hfresh : (s.taken c).action = 'W' → s.Fresh c source) (now : ℚ≥0) :
    (u.accepted now).Own (sources s u source) := by
  obtain ⟨-, -, hlt⟩ := hs.conserved.ready hopen hu
  obtain ⟨hslot, -⟩ := hs.conserved.held.head_free (hs.conserved.open hopen)
  have hseeds : s.begun.head_slot < s.begun.dataseed.length := hs.filled.seeds ▸ hslot
  obtain ⟨-, hready⟩ := hs.ready_own hopen hu hown
  intro r hr hop j h1 h2
  rw [(accepted_same (c := c) now hlt r.cb.data).seed]
  obtain hr | hr := List.mem_append.mp hr
  · exact hready r hr hop j h1 h2
  · -- the request that is new
    obtain rfl := List.mem_singleton.mp hr
    obtain ⟨hW, -, hnbytes, verify, hat⟩ := hs.conserved.new_write hopen hu hop
    obtain ⟨hhead, hdata, -⟩ := hs.conserved.block hopen hu
    have hlen : j < (s.taken c).len := hnbytes ▸ h2
    have hbyte := hu.fresh hseeds (Or.inl hW) (hfresh hW) h1 hlen
    change Engine.sources s u source u.head_slot j =
      (u.position (u.cbs.getD u.head_slot default).data).seed
    rw [hdata, hat, hhead]
    exact hbyte

theorem Buffered.turn_own (hs : s.Buffered rand_r c ps source) (hown : s.Own source) {a : Answers}
    (h : Turn rand_r c a s t) (hmeets : s.Meets c source (.submit a)) :
    t.Own (sources s t source) := by
  have hheld := hs.conserved.held
  cases h with
  | stop n phase => exact .kept (hown.quiet hheld (quiet_counters c _ _ _ _ _ _)) rfl
  | pass n =>
    exact .kept (hown.quiet_nextpos hheld (quiet_counters c _ _ _ _ _ _)) (nextpos_data c _).2
  | trim hopen =>
    obtain ⟨-, hseed⟩ := trim_data c s.begun a.now a.done a.left
    have hquiet : Quiet c s (s.begun.trim c a.now a.done a.left) :=
      (quiet_begun s).trans (quiet_trim a.now a.done a.left hopen.idle)
    exact .kept (hown.quiet_nextpos hheld hquiet) ((nextpos_data c _).2.trans hseed)
  | skip pos hopen =>
    have hput : Quiet c s (s.begun.taken_put c) := (quiet_begun s).trans (quiet_taken_put hopen.idle)
    exact .kept (hown.quiet_nextpos hheld (hput.trans (quiet_counters c _ _ _ _ _ _)))
      (nextpos_data c _).2
  | @limit u hopen hu =>
    obtain ⟨huheld, hready⟩ := hs.ready_own hopen hu hown
    exact hready.quiet huheld (quiet_counters c u _ _ _ _ _)
  | @refuse u hopen hu =>
    obtain ⟨huheld, hready⟩ := hs.ready_own hopen hu hown
    rw [sources_congr (nextpos_data c _).2]
    exact hready.quiet_nextpos huheld (quiet_refused (hs.conserved.ready_idle hopen hu))
  | @give_up u hopen hu =>
    obtain ⟨huheld, hready⟩ := hs.ready_own hopen hu hown
    have hrefused : Quiet c u u.refused := quiet_refused (hs.conserved.ready_idle hopen hu)
    exact hready.quiet huheld (hrefused.trans (quiet_counters c _ _ _ _ _ _))
  | @accept u hopen hu hsubmits =>
    have haccept := hs.accept_own hopen hu hown (hmeets hsubmits) a.now
    rw [sources_congr (nextpos_data c _).2]
    exact haccept.quiet_nextpos (hs.conserved.accept hopen hu a.now).held (Quiet.refl c _)

theorem Own.completed {now : ℚ≥0} {e : io_event} {r : Request} (hown : s.Own source) (hs : s.Held)
    (h : Completed c s now e r t) : t.Own source := by
  intro r' hr' hop j h1 h2
  have hmem : r' ∈ s.kernel := (h.perm hs).mem_iff.mpr (List.mem_cons_of_mem _ hr')
  rw [h.position_ne (h.data_ne hs hr')]
  exact hown r' hmem hop j h1 h2

theorem Own.events (hown : s.Own source) (hs : s.Held) {now : ℚ≥0} {events : List io_event}
    (h : s.receive_all c now events = some t ∨ s.drain_turn c now events = some t) :
    t.Own (sources s t source) := by
  refine .kept (events_rule (P := fun t => t.Own source) ?_ ?_ hs hown h) (events_dataseed hs h).2
  · intro u v e r _ hu hP hr
    exact hP.completed hu hr
  · intro u n phase count errors hP
    exact hP

theorem Own.perform (hown : s.Own source) {obj : Nat} (h : s.perform obj = some t) :
    t.Own (sources s t source) := by
  obtain ⟨r, -, -, -, device, readdata, rfl, -⟩ := perform_cases h
  refine .kept (fun r hr hop => ?_) rfl
  obtain ⟨r', hr', hobj, hcb, -⟩ := mem_marked_performed hr
  rw [hobj, hcb]
  exact hown r' hr' (hcb ▸ hop)

/-- A step that meets the condition keeps every write in flight filled for its seed. -/
theorem Buffered.own (hs : s.Buffered rand_r c ps source) (hown : s.Own source) {input : Input}
    (hmeets : s.Meets c source input) (h : s.step rand_r c input = some t) :
    t.Own (sources s t source) := by
  have hheld := hs.conserved.held
  cases step_moves h with
  | turn keepRunning due n phase =>
    exact .kept (hown.quiet hheld (quiet_counters c _ _ _ _ _ _)) rfl
  | submit hturn => exact hs.turn_own hown hturn hmeets
  | receive hall => exact hown.events hheld (Or.inl hall)
  | drain hdrain => exact hown.events hheld (Or.inr hdrain)
  | perform hperform => exact hown.perform hperform

/-! ## The start -/

/-- The first fill puts the pattern into every slot; with slots of a whole size it puts nothing past
them. -/
theorem first_fill.spec (rand_r : Nat → Nat × Nat) {QD maxSize : Nat} (seed : Nat)
    (hpos : 0 < maxSize) (x : Nat) :
    (x < maxSize * max QD 1 →
      first_fill rand_r QD maxSize seed x = pattern_byte rand_r seed (x % maxSize)) ∧
    (Whole maxSize → maxSize * max QD 1 ≤ x → first_fill rand_r QD maxSize seed x = 0) := by
  have hspan := le_span maxSize
  unfold first_fill
  induction QD generalizing x with
  | zero =>
    rw [List.range_zero, List.foldl_nil, generateRandomBuffer.spec]
    rw [Nat.max_eq_right (Nat.zero_le 1), Nat.mul_one]
    refine ⟨fun hx => ?_, fun hwhole hx => ?_⟩
    · rw [if_pos ⟨Nat.zero_le _, by omega⟩, Nat.sub_zero, Nat.mod_eq_of_lt hx]
    · have hspan : span maxSize = maxSize := (span_eq_iff maxSize).mpr hwhole
      rw [if_neg (by omega)]
      rfl
  | succ QD ih =>
    rw [List.range_succ, List.foldl_append, List.foldl_cons, List.foldl_nil]
    by_cases hQD : QD > 0
    · have hmax : max (QD + 1) 1 = QD + 1 := by omega
      have hmax' : max QD 1 = QD := by omega
      have hend : maxSize * (QD + 1) = maxSize * QD + maxSize := Nat.mul_succ _ _
      have hstart : maxSize ≤ maxSize * QD := Nat.le_mul_of_pos_right _ hQD
      rw [hmax'] at ih
      rw [if_pos hQD, hmax]
      refine ⟨fun hx => ?_, fun hwhole hx => ?_⟩
      · by_cases hlo : x < maxSize * QD
        · rw [Memory.write_apply_of_lt hlo, (ih x).1 hlo]
        · obtain ⟨j, rfl⟩ : ∃ j, x = maxSize * QD + j := ⟨x - maxSize * QD, by omega⟩
          have hj : j < maxSize := by omega
          rw [Memory.write_apply_mem (by simpa using hj), Memory.read_getElem, Nat.zero_add,
            (ih j).1 (by omega), Nat.mul_add_mod]
      · rw [Memory.write_apply_of_ge (by simp; omega), (ih x).2 hwhole (by omega)]
    · have hmax : max (QD + 1) 1 = max QD 1 := by omega
      rw [if_neg hQD, hmax]
      exact ih x

theorem start_buffered {pc : positionContainer} {ioerrors : Nat} {device : Memory}
    (hQD : c.QDmax ≤ 65535) (hclear : c.posStart ≠ 0 → ∀ p ∈ pc.positions, p.inFlight = false)
    (hheader : ∀ p ∈ pc.positions, 16 ≤ p.len)
    (h : start rand_r c pc ioerrors device = some s) :
    s.Buffered rand_r c pc.positions (fun _ _ => (pc.positions.getD 0 default).seed) ∧
      s.Own (fun _ _ => (pc.positions.getD 0 default).seed) := by
  refine ⟨⟨start_conserved hQD hclear h, hheader, ?_⟩, ?_⟩
  all_goals
    unfold start at h
    dsimp only at h
    split at h
    · cases h
    rename_i hne
    obtain rfl := Option.some.inj h
  · have hspec := @first_fill.spec rand_r (min c.QDmax pc.positions.length) (longest pc.positions)
      (pc.positions.getD 0 default).seed (by omega)
    have hmax : max (min c.QDmax pc.positions.length) 1 = min c.QDmax pc.positions.length := by
      omega
    rw [hmax] at hspec
    refine ⟨cleared_length c _, cleared_getD_same c _, rfl, by simp, ?_, by simp,
      fun hwhole x hx => (hspec x).2 hwhole hx⟩
    intro slot hslot j h1 h2
    dsimp only at hslot h2
    have hle := Nat.mul_le_mul_left (longest pc.positions) (Nat.succ_le_of_lt hslot)
    rw [Nat.mul_succ] at hle
    change first_fill rand_r _ _ _ (longest pc.positions * slot + j) = _
    rw [(hspec _).1 (by omega), Nat.mul_add_mod, Nat.mod_eq_of_lt h2]
  · intro r hr
    simp at hr

/-! ## The law of the payloads -/

/-- What the buffers of the slots keep to, in every state that a run reaches. -/
structure PayloadLaw (rand_r : Nat → Nat × Nat) (c : Arguments) (s : Engine) : Prop where
  /-- From submission to completion, the buffer of a write holds its payload. -/
  carried : ∀ r ∈ s.kernel, r.cb.opcode = .pwrite →
    s.data.read r.cb.buf r.cb.nbytes = payload rand_r (s.position r.cb.data) s.UUID ∧
    r.cb.buf = s.buffer r.obj ∧ r.cb.nbytes = (s.position r.cb.data).len ∧
    r.cb.offset = (s.position r.cb.data).pos
  /-- Nothing is written past the buffers. -/
  past : ∀ x, s.maxSize * s.QD ≤ x → s.data x = 0
  /-- A step changes the buffer of at most one slot, one that no request holds. -/
  alone : ∀ input t, s.step rand_r c input = some t → t.data = s.data ∨
    ∃ slot < s.QD, (∀ r ∈ s.kernel, r.obj ≠ slot) ∧
      ∀ x, ¬ (s.buffer slot ≤ x ∧ x < s.buffer slot + s.maxSize) → t.data x = s.data x

/-- A write whose bytes were filled for its seed carries its payload. -/
theorem Buffered.carried (hs : s.Buffered rand_r c ps source) (hown : s.Own source) {r : Request}
    (hr : r ∈ s.kernel) (hop : r.cb.opcode = .pwrite) :
    s.data.read r.cb.buf r.cb.nbytes = payload rand_r (s.position r.cb.data) s.UUID := by
  have hheld := hs.conserved.held
  have hf := hs.filled
  obtain ⟨hbuf, hfits⟩ := hheld.buffers r hr (Or.inr hop)
  have hlen := ((hheld.described r hr).extent (Or.inr hop)).1
  have h16 : 16 ≤ r.cb.nbytes := by
    have hlt := lt_of_in_flight (hheld.in_flight hr)
    rw [hlen, (hf.same r.cb.data).len]
    exact hs.header _ (hf.mem hlt)
  obtain ⟨n, hn⟩ : ∃ n, r.cb.nbytes = 16 + n := ⟨r.cb.nbytes - 16, by omega⟩
  unfold payload
  rw [← hlen, ← hf.headed r hr hop, hn, Memory.read_append, Nat.add_sub_cancel_left]
  congr 1
  refine List.map_congr_left fun j hj => ?_
  rw [List.mem_range] at hj
  rw [hbuf, Nat.add_assoc, hf.filled r.obj (hheld.obj_lt hr) (16 + j) (by omega) (by omega),
    hown r hr hop (16 + j) (by omega) (by omega)]

theorem Buffered.ready_alone (hs : s.Buffered rand_r c ps source) (hwhole : Whole s.maxSize)
    (hopen : s.Open) (hu : Ready rand_r c s.begun u) :
    ∃ slot < s.QD, (∀ r ∈ s.kernel, r.obj ≠ slot) ∧
      ∀ x, ¬ (s.buffer slot ≤ x ∧ x < s.buffer slot + s.maxSize) → u.data x = s.data x := by
  obtain ⟨hslot, hfree⟩ := hs.conserved.held.head_free (hs.conserved.open hopen)
  have hlen : (s.position s.pos).len ≤ s.maxSize :=
    hs.conserved.held.fits _ (position_mem hs.conserved.pos)
  have h16 : 16 ≤ s.maxSize := by
    have h := hs.header _ (hs.filled.mem hs.conserved.pos)
    rw [← (hs.filled.same s.pos).len] at h
    omega
  have hspan : span (s.taken c).len ≤ s.maxSize := by
    rw [(taken_same c s).len]
    exact span_le_of_whole hlen hwhole
  refine ⟨s.head_slot, hslot, hfree, fun x hx => hu.frame (fun h => hx ?_) fun _ _ h => hx ?_⟩
  · exact ⟨h.1, Nat.lt_of_lt_of_le h.2 (Nat.add_le_add_left h16 _)⟩
  · exact ⟨h.1, Nat.lt_of_lt_of_le h.2 (Nat.add_le_add_left hspan _)⟩

theorem Buffered.turn_alone (hs : s.Buffered rand_r c ps source) (hwhole : Whole s.maxSize)
    {a : Answers} (h : Turn rand_r c a s t) : t.data = s.data ∨
      ∃ slot < s.QD, (∀ r ∈ s.kernel, r.obj ≠ slot) ∧
        ∀ x, ¬ (s.buffer slot ≤ x ∧ x < s.buffer slot + s.maxSize) → t.data x = s.data x := by
  cases h with
  | stop n phase => exact Or.inl rfl
  | pass n => exact Or.inl (nextpos_data c _).1
  | trim hopen =>
    exact Or.inl ((nextpos_data c _).1.trans (trim_data c s.begun a.now a.done a.left).1)
  | skip pos hopen => exact Or.inl (nextpos_data c _).1
  | limit hopen hu =>
    have halone := hs.ready_alone hwhole hopen hu
    exact Or.inr halone
  | refuse hopen hu =>
    have halone := hs.ready_alone hwhole hopen hu
    rw [(nextpos_data c _).1]
    exact Or.inr halone
  | give_up hopen hu =>
    have halone := hs.ready_alone hwhole hopen hu
    exact Or.inr halone
  | accept hopen hu =>
    have halone := hs.ready_alone hwhole hopen hu
    rw [(nextpos_data c _).1]
    exact Or.inr halone

theorem Buffered.law (hs : s.Buffered rand_r c ps source) (hown : s.Own source)
    (hwhole : Whole (longest ps)) : s.PayloadLaw rand_r c := by
  rw [← hs.filled.size] at hwhole
  have hheld := hs.conserved.held
  refine ⟨fun r hr hop => ?_, hs.filled.past hwhole, fun input t h => ?_⟩
  · exact ⟨hs.carried hown hr hop, (hheld.buffers r hr (Or.inr hop)).1,
      (hheld.described r hr).extent (Or.inr hop)⟩
  · cases step_moves h with
    | turn keepRunning due n phase => exact Or.inl rfl
    | submit hturn => exact hs.turn_alone hwhole hturn
    | receive hall => exact Or.inl (events_dataseed hheld (Or.inl hall)).1
    | drain hdrain => exact Or.inl (events_dataseed hheld (Or.inr hdrain)).1
    | perform hperform =>
      obtain ⟨r, -, -, -, device, readdata, rfl, -⟩ := perform_cases hperform
      exact Or.inl rfl

/-- The engine with the seeds that the bytes of its slots were last filled for. -/
def filling (rand_r : Nat → Nat × Nat) (c : Arguments) :
    Engine × (Nat → Nat → Nat) → Input → Option (Engine × (Nat → Nat → Nat)) :=
  machine.noted (step rand_r c) fun s _ t source => sources s t source

/-- With slots of a whole size, every write carries its payload from submission to completion, and
filling a slot touches no other, the first fill of `data[0]` included, while each write that is
submitted finds the bytes that it sends filled for its seed or fills them. -/
theorem writes_carry_their_payload_while_their_bytes_are_filled_for_their_seed
    (rand_r : Nat → Nat × Nat) (c : Arguments) (pc : positionContainer) (ioerrors : Nat)
    (device : Memory) (hQD : c.QDmax ≤ 65535)
    (hclear : c.posStart ≠ 0 → ∀ p ∈ pc.positions, p.inFlight = false)
    (hheader : ∀ p ∈ pc.positions, 16 ≤ p.len) (hwhole : Whole (longest pc.positions))
    {s t : Engine} {inputs : List Input} (hstart : start rand_r c pc ioerrors device = some s)
    (hrun : machine.run (step rand_r c) s inputs = some t)
    (hmeets : machine.Along (filling rand_r c) (fun s => Meets c s.2 s.1)
      (s, fun _ _ => (pc.positions.getD 0 default).seed) inputs) :
    t.PayloadLaw rand_r c ∧ ∀ m seed x, longest pc.positions ≤ x →
      generateRandomBuffer rand_r m 0 (longest pc.positions) seed x = m x := by
  have hstep : ∀ s source input t, s.Buffered rand_r c pc.positions source ∧ s.Own source →
      Meets c source s input → s.step rand_r c input = some t →
      t.Buffered rand_r c pc.positions (sources s t source) ∧ t.Own (sources s t source) := by
    rintro s source input t ⟨hs, hown⟩ hmeets h
    exact ⟨hs.step (hs.contains_of_whole hwhole input) h, hs.own hown hmeets h⟩
  obtain ⟨source, ht, hown⟩ := machine.noted_invariant hstep hrun hmeets
    (start_buffered hQD hclear hheader hstart)
  refine ⟨ht.law hown hwhole, fun m seed x hx => ?_⟩
  rw [generateRandomBuffer.spec, (span_eq_iff _).mpr hwhole, if_neg (by omega)]

/-! ## Two runs -/

/-- Three writes over one slot: the last two have one seed, and the last one is longer. -/
def longer_again : positionContainer :=
  { positions := [{ positionType.zero with len := 24, seed := 1, action := 'W' },
      { positionType.zero with pos := 512, len := 16, seed := 2, action := 'W' },
      { positionType.zero with pos := 1024, len := 24, seed := 2, action := 'W' }],
    maxbs := 24, writtenBytes := 0, writtenIOs := 0, readBytes := 0, readIOs := 0, UUID := 5 }

/-- Three writes of which the second has the seed of the first one and is shorter. -/
def shorter_again : positionContainer :=
  { longer_again with positions := [{ positionType.zero with len := 24, seed := 1, action := 'W' },
      { positionType.zero with pos := 512, len := 16, seed := 1, action := 'W' },
      { positionType.zero with pos := 1024, len := 16, seed := 2, action := 'W' }] }

def one_slot : Arguments := { two_slots with QDmin := 1, QDmax := 1, posLimit := 3 }

/-- Each write is submitted once the one before it has completed. -/
def third_write (first second : Int) : List Input :=
  [.turn true true, .submit accepting, .submit accepting, .perform 0,
    .events (2 : ℕ) [⟨0, first, 0⟩], .turn true true, .submit accepting, .submit accepting,
    .perform 0, .events (3 : ℕ) [⟨0, second, 0⟩], .turn true true, .submit accepting]

theorem three_writes_of_two_lengths_carry_their_payload : ∃ s t,
    start glibc_rand_r one_slot shorter_again 0 Memory.zero = some s ∧
    machine.run (step glibc_rand_r one_slot) s (third_write 24 16) = some t ∧
    t.kernel.length = 1 ∧ t.PayloadLaw glibc_rand_r one_slot := by
  have hrun : ∃ s t, start glibc_rand_r one_slot shorter_again 0 Memory.zero = some s ∧
      machine.run (step glibc_rand_r one_slot) s (third_write 24 16) = some t ∧
      t.kernel.length = 1 ∧ machine.Along (filling glibc_rand_r one_slot)
        (fun s => Meets one_slot s.2 s.1) (s, fun _ _ => 1) (third_write 24 16) :=
    ⟨_, _, rfl, rfl, rfl, by decide +kernel⟩
  obtain ⟨s, t, hs, ht, hk, hmeets⟩ := hrun
  refine ⟨s, t, hs, ht, hk, ?_⟩
  exact (writes_carry_their_payload_while_their_bytes_are_filled_for_their_seed glibc_rand_r one_slot
    shorter_again 0 Memory.zero (by decide) (fun h => absurd rfl h) (by decide) (by decide) hs ht
    hmeets).1

/-- The slot keeps the bytes of the first seed behind the shorter write, and the
longer write of the same seed carries them. -/
theorem a_longer_write_of_the_same_seed_carries_stale_bytes : ∃ s t r,
    (∀ p ∈ longer_again.positions, 16 ≤ p.len) ∧
    start glibc_rand_r one_slot longer_again 0 Memory.zero = some s ∧
    machine.run (step glibc_rand_r one_slot) s (third_write 24 16) = some t ∧
    t.kernel = [r] ∧ r.cb.opcode = .pwrite ∧ r.cb.nbytes = (t.position r.cb.data).len ∧
    t.data.read r.cb.buf r.cb.nbytes ≠ payload glibc_rand_r (t.position r.cb.data) t.UUID := by
  refine ⟨_, _, _, by decide, rfl, rfl, rfl, rfl, rfl, ?_⟩
  decide +kernel

end Engine

end stutools.spit
