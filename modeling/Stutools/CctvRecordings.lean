-- The recordings of the cameras over every run: they are numbered as the camera takes them,
-- all but its last one are full, and together they hold the blocks that it wrote, in order,
-- each recording beginning with its header.
import Stutools.CctvAccount

namespace stutools.cctv

namespace Setup

/-- The blocks of a full recording. -/
def per_file (c : Setup) : Nat := c.sizes.file_size / c.sizes.block

theorem block_pos (c : Setup) : 0 < c.sizes.block := by
  have := c.sizes.block_le
  omega

theorem per_file_mul (c : Setup) : c.per_file * c.sizes.block = c.sizes.file_size :=
  Nat.div_mul_cancel c.sizes.whole

theorem per_file_pos (c : Setup) : 0 < c.per_file := by
  have h := c.per_file_mul
  have := c.sizes.file_size_pos
  rcases Nat.eq_zero_or_pos c.per_file with hzero | hpos
  · rw [hzero, Nat.zero_mul] at h
    omega
  · exact hpos

/-- The state of `fill` after so many blocks. -/
def random_at (c : Setup) (i : Fin c.count) (k : Nat) : UInt64 :=
  (fun state => (fill c.sizes.block state).2)^[k] (c.random i)

/-- The blocks of a camera, counted from 0: the first of each recording begins with its header. -/
def block_at (c : Setup) (i : Fin c.count) (k : Nat) : List UInt8 :=
  let buffer := (fill c.sizes.block (c.random_at i k)).1
  if k % c.per_file = 0 then c.head i (k / c.per_file + 1) ++ buffer.drop 64 else buffer

/-- The first `k` blocks of recording `q`. -/
def data (c : Setup) (i : Fin c.count) (q k : Nat) : List UInt8 :=
  (List.range k).flatMap fun b => c.block_at i ((q - 1) * c.per_file + b)

theorem head_length (c : Setup) (i : Fin c.count) (q : Nat) : (c.head i q).length = 64 :=
  header_length _ _ _ _

theorem block_at_length (c : Setup) (i : Fin c.count) (k : Nat) :
    (c.block_at i k).length = c.sizes.block := by
  have := c.sizes.block_le
  unfold block_at
  dsimp only
  split_ifs
  · simp [head_length]
    omega
  · simp

theorem data_succ (c : Setup) (i : Fin c.count) (q k : Nat) :
    c.data i q (k + 1) = c.data i q k ++ c.block_at i ((q - 1) * c.per_file + k) := by
  simp [data, List.range_succ]

end Setup

/-! ## The invariant of a lane -/

/-- What the allocator does for a camera: nothing, or it has taken the request, or it holds the
file. -/
inductive Hand where
  | idle
  | asked
  | made
deriving DecidableEq

namespace Lane

def wrote (l : Lane) : Nat := l.fates_of .written

/-- How many files the camera has taken: all that the allocator counts, but the one that it has
not taken yet. -/
def taken (l : Lane) : Nat := if l.need then l.sequence else l.sequence - 1

/-- The blocks of recording `q` that are written. -/
def blocks (c : Setup) (l : Lane) (q : Nat) : Nat := min c.per_file (l.wrote - (q - 1) * c.per_file)

/-- The slot: a request, a file that is being made, or a file, or nothing of the three. -/
structure Slotted (hand : Hand) (l : Lane) : Prop where
  need : l.need = true → hand = .idle ∧ l.value = none
  asked : l.need = false → 0 < l.sequence
  value : ∀ q, l.value = some q → q = l.sequence ∧ hand = .idle

/-- Whether the camera holds a file where it is, and how much of it is written: `n` blocks fit in
the files taken so far. -/
def Held (c : Setup) (l : Lane) (n : Nat) : Prop :=
  match l.pc with
  | .first | .rotating _ _ => l.current = none ∧ l.wrote = n
  | .counted | .waiting | .unstarted | .rotated _ _ | .ready _ | .writing _ =>
    l.current = some l.taken ∧ l.wrote < n
  | .top | .leaving => (l.current = none ∧ l.wrote = n) ∨ (l.current = some l.taken ∧ l.wrote < n)
  | .measuring => l.current = some l.taken ∧ n < l.wrote + c.per_file
  | .closing last | .recording last _ | .sending last =>
    l.current = some l.taken ∧ n < l.wrote + c.per_file ∧ (last = false → l.wrote = n)
  | .ended _ => l.current = none

/-- The thread: the files before the last one taken are full, and it goes on where the last block
ended. -/
structure AtWork (c : Setup) (i : Fin c.count) (l : Lane) : Prop where
  least : l.taken * c.per_file ≤ l.wrote + c.per_file
  most : l.wrote ≤ l.taken * c.per_file
  held : l.Held c (l.taken * c.per_file)
  offset : l.current ≠ none → l.offset + l.pc.unmeasured * c.sizes.block =
    (l.wrote + c.per_file - l.taken * c.per_file) * c.sizes.block
  random : (∀ ok, l.pc ≠ .ended ok) → l.random = c.random_at i l.wrote

/-- A recording with `k` blocks in it, which is still written or waits to be closed, or is closed. -/
structure Holds (c : Setup) (i : Fin c.count) (q k : Nat) (r : Recording) : Prop where
  length : r.content.length = c.sizes.file_size
  content : r.content.take (k * c.sizes.block) = c.data i q k
  stage : (r.stage = .writing (k * c.sizes.block) ∧ r.pending = true) ∨
    (r.stage = .closed ∧ r.pending = false ∧ 0 < k)

/-- The files: those that the camera took hold their blocks, and the next one is in the hands of
the allocator or in the slot, or it was dropped and could not be removed. -/
structure Filed (c : Setup) (i : Fin c.count) (hand : Hand) (l : Lane) : Prop where
  numbers : ∀ q r, l.files q = some r → 0 < q ∧ q ≤ l.sequence
  next : l.need = false → if hand = .made ∨ l.value.isSome then
      ∃ now, l.files l.sequence = some (prepared c i l.sequence now)
    else ∀ r, l.files l.sequence = some r → r.pending = true
  old : ∀ q r, q ≤ l.taken → l.files q = some r → Holds c i q (l.blocks c q) r
  current : ∀ q, l.current = some q → ∃ r, l.files q = some r ∧ r.pending = true
  reached : ∀ q r, l.files q = some r → r.Reached c.ns c.sizes (c.head i q)

/-- The invariant of a lane. -/
structure Good (c : Setup) (i : Fin c.count) (hand : Hand) (l : Lane) : Prop where
  slot : l.Slotted hand
  thread : l.AtWork c i
  files : l.Filed c i hand

section laws

variable {c : Setup} {i : Fin c.count} {hand : Hand} {v : View} {l l' : Lane} {e : Effect c.count}

/-- What the invariant says of the slot and the files does not change. -/
structure Stays (l l' : Lane) : Prop where
  need : l'.need = l.need
  value : l'.value = l.value
  sequence : l'.sequence = l.sequence
  files : l'.files = l.files
  wrote : l'.wrote = l.wrote
  current : l'.current = l.current ∨ l'.current = none

theorem Stays.taken (h : Stays l l') : l'.taken = l.taken := by
  simp [Lane.taken, h.need, h.sequence]

theorem Stays.blocks (h : Stays l l') (q : Nat) : l'.blocks c q = l.blocks c q := by
  simp [Lane.blocks, h.wrote]

theorem Slotted.congr (h : l.Slotted hand) (hstays : Stays l l') : l'.Slotted hand := by
  refine ⟨?_, ?_, ?_⟩
  · simpa [hstays.need, hstays.value] using h.need
  · simpa [hstays.need, hstays.sequence] using h.asked
  · simpa [hstays.value, hstays.sequence] using h.value

theorem Filed.congr (h : l.Filed c i hand) (hstays : Stays l l') : l'.Filed c i hand := by
  refine ⟨?_, ?_, fun q r => ?_, fun q hq => ?_, ?_⟩
  · simpa [hstays.files, hstays.sequence] using h.numbers
  · simpa [hstays.files, hstays.sequence, hstays.value, hstays.need] using h.next
  · rw [hstays.taken, hstays.files, hstays.blocks]
    exact h.old q r
  · rw [hstays.files]
    rcases hstays.current with hcurrent | hcurrent
    · exact h.current q (hcurrent ▸ hq)
    · simp [hcurrent] at hq
  · simpa [hstays.files] using h.reached

/-- A quiet move takes a camera to a place where it holds what it held. -/
theorem Held.quiet {n : Nat} {pc : Pc} {stopping : Bool} (hquiet : Pc.Quiet stopping l.pc pc) (h : l.Held c n) :
    Held c { l with pc } n := by
  unfold Held at h ⊢
  cases hpc : l.pc <;> rw [hpc] at hquiet h <;> cases hquiet <;> first | exact h | exact .inr h

theorem AtWork.congr (h : l.AtWork c i) (hstays : Stays l l') (hheld : l'.Held c (l.taken * c.per_file))
    (hoffset : l'.current ≠ none → l'.offset = l.offset ∧ l'.pc.unmeasured = l.pc.unmeasured)
    (hrandom : (∀ ok, l'.pc ≠ .ended ok) → l'.random = l.random ∧ ∀ ok, l.pc ≠ .ended ok) :
    l'.AtWork c i := by
  refine ⟨?_, ?_, ?_, fun hcurrent => ?_, fun hlive => ?_⟩
  · rw [hstays.taken, hstays.wrote]
    exact h.least
  · rw [hstays.taken, hstays.wrote]
    exact h.most
  · rw [hstays.taken]
    exact hheld
  · obtain ⟨hsame, hpc⟩ := hoffset hcurrent
    rw [hstays.taken, hstays.wrote, hsame, hpc]
    refine h.offset ?_
    rcases hstays.current with heq | hnone
    · rwa [heq] at hcurrent
    · exact absurd hnone hcurrent
  · obtain ⟨hsame, hbefore⟩ := hrandom hlive
    rw [hstays.wrote, hsame]
    exact h.random hbefore

theorem Good.congr (h : l.Good c i hand) (hstays : Stays l l') (hheld : l'.Held c (l.taken * c.per_file))
    (hoffset : l'.current ≠ none → l'.offset = l.offset ∧ l'.pc.unmeasured = l.pc.unmeasured)
    (hrandom : (∀ ok, l'.pc ≠ .ended ok) → l'.random = l.random ∧ ∀ ok, l.pc ≠ .ended ok) :
    l'.Good c i hand :=
  ⟨h.slot.congr hstays, h.thread.congr hstays hheld hoffset hrandom, h.files.congr hstays⟩

/-- The end of the thread. -/
theorem Good.ends (h : l.Good c i hand) (hstays : Stays l l') (hcurrent : l'.current = none)
    (hpc : ∃ ok, l'.pc = .ended ok) : l'.Good c i hand := by
  obtain ⟨ok, hpc⟩ := hpc
  refine h.congr hstays ?_ (fun hne => absurd hcurrent hne) fun hlive => absurd hpc (hlive ok)
  unfold Held
  rw [hpc]
  exact hcurrent

/-- The file that a camera takes is the next one. -/
theorem Good.takes {q : Nat} {pc : Pc} (h : l.Good c i hand) (hvalue : l.value = some q)
    (hpc : l.pc = .first ∧ pc = .counted ∨ ∃ f w, l.pc = .rotating f w ∧ pc = .rotated f w) :
    (l.takes q pc).Good c i hand := by
  obtain ⟨hq, hidle⟩ := h.slot.value q hvalue
  have hneed : l.need = false := by
    by_contra hne
    have := (h.slot.need (by simpa using hne)).2
    simp [hvalue] at this
  have hpos := h.slot.asked hneed
  obtain ⟨now, hfile⟩ := by simpa [hidle, hvalue] using h.files.next hneed
  have htaken : l.taken = l.sequence - 1 := by simp [Lane.taken, hneed]
  have htaken' : (l.takes q pc).taken = l.sequence := by simp [Lane.taken, Lane.takes]
  have hwrote : l.wrote = l.taken * c.per_file := by
    have hheld := h.thread.held
    unfold Held at hheld
    rcases hpc with ⟨hpc, -⟩ | ⟨f, w, hpc, -⟩ <;> (rw [hpc] at hheld; exact hheld.2)
  have hnext : l.sequence * c.per_file = l.wrote + c.per_file := by
    rw [hwrote, htaken, ← Nat.succ_mul]
    congr 1
    omega
  have hN := c.per_file_pos
  refine ⟨⟨fun _ => ⟨hidle, rfl⟩, fun hno => (by simp [Lane.takes] at hno), fun q hq => (by
    simp [Lane.takes] at hq)⟩, ⟨?_, ?_, ?_, ?_, ?_⟩, ⟨h.files.numbers, ?_, ?_, ?_, h.files.reached⟩⟩
  · rw [htaken', hnext]
    exact Nat.le_refl _
  · rw [htaken', hnext]
    exact Nat.le_add_right _ _
  · rw [htaken', hnext]
    unfold Held
    rcases hpc with ⟨hpc, rfl⟩ | ⟨f, w, hpc, rfl⟩
    · exact ⟨by rw [htaken', ← hq]; rfl, Nat.lt_add_of_pos_right hN⟩
    · exact ⟨by rw [htaken', ← hq]; rfl, Nat.lt_add_of_pos_right hN⟩
  · intro _
    have hpc' : (l.takes q pc).pc.unmeasured = 0 := by
      rcases hpc with ⟨-, rfl⟩ | ⟨f, w, -, rfl⟩ <;> rfl
    rw [hpc', htaken', hnext]
    show 0 + 0 * _ = (l.wrote + c.per_file - (l.wrote + c.per_file)) * _
    simp
  · intro _
    refine h.thread.random fun ok => ?_
    rcases hpc with ⟨hpc, -⟩ | ⟨f, w, hpc, -⟩ <;> simp [hpc]
  · intro hno
    simp [Lane.takes] at hno
  · intro p r hle hr
    rw [htaken'] at hle
    rcases Nat.eq_or_lt_of_le hle with rfl | hlt
    · -- the new file holds no block
      have hnone : (l.takes q pc).blocks c l.sequence = 0 := by
        have hw : (l.takes q pc).wrote = l.wrote := rfl
        rw [Lane.blocks, hw, hwrote, htaken]
        simp
      have heq : r = prepared c i l.sequence now := Option.some.inj (hr.symm.trans hfile)
      rw [hnone, heq]
      refine ⟨?_, ?_, .inl ⟨?_, rfl⟩⟩
      · have := c.sizes.block_le
        have := Recording.block_le_file_size c.sizes
        unfold prepared
        dsimp only
        split_ifs
        · simp
        · rw [bytes.patch_length (by simp [c.head_length]; omega)]
          simp
      · simp [Setup.data]
      · simp [prepared]
    · exact h.files.old p r (by omega) hr
  · intro p hp
    have heq : p = q := by simpa [Lane.takes] using hp.symm
    rw [heq, hq]
    exact ⟨_, hfile, rfl⟩

/-- What is stored after the blocks that are there. -/
theorem take_patch_prefix {b w : List UInt8} {n : Nat} (h : n ≤ b.length) :
    (bytes.patch b n w).take n = b.take n := by
  have hlen : (b.take n).length = n := by rw [List.length_take, Nat.min_eq_left h]
  unfold bytes.patch
  rw [List.append_assoc, List.take_append_of_le_length hlen.ge, List.take_take, Nat.min_self]

theorem take_patch_next {b w : List UInt8} {n : Nat} (h : n ≤ b.length) :
    (bytes.patch b n w).take (n + w.length) = b.take n ++ w := by
  have hlen : (b.take n ++ w).length = n + w.length := by
    rw [List.length_append, List.length_take, Nat.min_eq_left h]
  unfold bytes.patch
  rw [← hlen, List.take_left]

/-- The camera that is to write holds the last file it took, which has room for the block. -/
structure Writing (c : Setup) (i : Fin c.count) (l : Lane) (q k : Nat) (r : Recording) : Prop where
  current : q = l.taken
  pos : 0 < q
  blocks : l.blocks c q = k
  wrote : l.wrote = (q - 1) * c.per_file + k
  room : k < c.per_file
  offset : l.offset = k * c.sizes.block
  file : l.files q = some r
  holds : Holds c i q k r
  stage : r.stage = .writing l.offset
  block : l.block c i q = c.block_at i l.wrote
  fits : l.offset + c.sizes.block ≤ c.sizes.file_size

theorem Good.writing {q : Nat} {f : Fetched} (h : l.Good c i hand) (hpc : l.pc = .writing f)
    (hcurrent : l.current = some q) : ∃ k r, Writing c i l q k r := by
  have hheld := h.thread.held
  unfold Held at hheld
  rw [hpc] at hheld
  obtain ⟨htaken, hroom⟩ := hheld
  have hq : q = l.taken := Option.some.inj (hcurrent.symm.trans htaken)
  obtain ⟨r, hr, hpending⟩ := h.files.current q hcurrent
  have hpos := (h.files.numbers q r hr).1
  have hleast := h.thread.least
  have hN := c.per_file_pos
  have hsplit : l.taken * c.per_file = (q - 1) * c.per_file + c.per_file := by
    rw [← Nat.succ_mul, ← hq]
    congr 1
    omega
  have hoffset : l.offset = (l.wrote + c.per_file - l.taken * c.per_file) * c.sizes.block := by
    have := h.thread.offset (by simp [hcurrent])
    simpa [hpc, Pc.unmeasured] using this
  obtain ⟨k, hk⟩ : ∃ k, l.wrote = (q - 1) * c.per_file + k := ⟨l.wrote - (q - 1) * c.per_file, by omega⟩
  have hlt : k < c.per_file := by omega
  have hblocks : l.blocks c q = k := by
    unfold Lane.blocks
    omega
  have hk' : l.offset = k * c.sizes.block := by
    rw [hoffset]
    congr 1
    omega
  have hholds := h.files.old q r (by omega) hr
  rw [hblocks] at hholds
  have hblock := c.block_pos
  have hfull := c.per_file_mul
  have hstage : r.stage = .writing l.offset := by
    rw [hk']
    rcases hholds.stage with hstage | ⟨-, hclosed, -⟩
    · exact hstage.1
    · simp [hpending] at hclosed
  refine ⟨k, r, hq, hpos, hblocks, hk, hlt, hk', hr, hholds, hstage, ?_, ?_⟩
  · have hrandom := h.thread.random (by simp [hpc])
    have hmod : l.wrote % c.per_file = k := by
      rw [hk, Nat.add_comm, Nat.add_mul_mod_self_right, Nat.mod_eq_of_lt hlt]
    have hdiv : l.wrote / c.per_file + 1 = q := by
      rw [hk, Nat.add_comm (_ * _) k, Nat.add_mul_div_right _ _ hN, Nat.div_eq_of_lt hlt]
      omega
    have hzero : l.offset = 0 ↔ k = 0 := by
      rw [hk', Nat.mul_eq_zero]
      omega
    unfold Lane.block Setup.block_at
    rw [hrandom, hmod, hdiv]
    simp only [hzero]
  · rw [hk', ← hfull, ← Nat.succ_mul]
    exact Nat.mul_le_mul_right _ hlt

section writing

variable {q k : Nat} {r : Recording}

theorem stores_self (l : Lane) {v : List UInt8} {now : Nat} {stage : Stage} (h : l.files q = some r) :
    l.stores q v now stage q =
      some { r with content := bytes.patch r.content l.offset v, modified := now, stage } := by
  simp [stores, h]

theorem stores_other (l : Lane) {v : List UInt8} {now p : Nat} {stage : Stage} (hne : p ≠ q) :
    l.stores q v now stage p = l.files p := by
  simp [stores, hne]

/-- A block of the stream begins with the header where it is the first of a recording. -/
theorem Writing.head (h : Writing c i l q k r) : l.offset = 0 →
    (c.block_at i l.wrote).take 64 = c.head i q := by
  intro hoffset
  rw [← h.block, Lane.block, if_pos hoffset]
  rw [List.take_append_of_le_length (by rw [c.head_length]), List.take_of_length_le]
  rw [c.head_length]

/-- The recording with the next block in it. -/
theorem Writing.written (h : Writing c i l q k r) (now : Nat)
    (hreached : r.Reached c.ns c.sizes (c.head i q)) {r' : Recording}
    (hr' : r' = { r with
      content := bytes.patch r.content l.offset (l.block c i q)
      modified := now
      stage := .writing (l.offset + c.sizes.block) }) :
    Holds c i q (k + 1) r' ∧ r'.Reached c.ns c.sizes (c.head i q) := by
  have hlen := c.block_at_length i l.wrote
  have hlength := h.holds.length
  have hfits := h.fits
  subst hr'
  refine ⟨⟨?_, ?_, .inl ⟨?_, ?_⟩⟩, ?_⟩
  · dsimp only
    rw [bytes.patch_length (by rw [h.block, hlen]; omega), hlength]
  · have hsum : (k + 1) * c.sizes.block = l.offset + (l.block c i q).length := by
      rw [h.block, hlen, h.offset, Nat.succ_mul]
    dsimp only
    rw [hsum, take_patch_next (by omega), h.offset, h.holds.content, h.block, c.data_succ, h.wrote]
  · dsimp only
    rw [h.offset, Nat.succ_mul]
  · rcases h.holds.stage with hstage | hstage
    · exact hstage.2
    · rw [h.stage] at hstage
      cases hstage.1
  · rw [h.block]
    refine .written _ now hreached h.stage ?_ hlen h.head
    have := c.block_pos
    omega

/-- The recording with a part of the next block in it. -/
theorem Writing.torn (h : Writing c i l q k r) (n now : Nat)
    (hreached : r.Reached c.ns c.sizes (c.head i q)) {r' : Recording}
    (hr' : r' = { r with
      content := bytes.patch r.content l.offset ((l.block c i q).take n)
      modified := now
      stage := .writing l.offset }) :
    Holds c i q k r' ∧ r'.Reached c.ns c.sizes (c.head i q) := by
  have hlen := c.block_at_length i l.wrote
  have hlength := h.holds.length
  have hfits := h.fits
  subst hr'
  refine ⟨⟨?_, ?_, .inl ⟨?_, ?_⟩⟩, ?_⟩
  · dsimp only
    rw [bytes.patch_length (by rw [h.block, List.length_take, hlen]; omega), hlength]
  · dsimp only
    rw [← h.offset, take_patch_prefix (by omega), h.offset, h.holds.content]
  · dsimp only
    rw [h.offset]
  · rcases h.holds.stage with hstage | hstage
    · exact hstage.2
    · rw [h.stage] at hstage
      cases hstage.1
  · rw [h.block, ← h.stage]
    refine .write _ n now hreached h.stage ?_ hlen h.head
    have := c.block_pos
    omega

end writing

/-- One of the files that the camera took becomes another. -/
theorem Filed.changes {q : Nat} {r r' : Recording} (h : l.Filed c i hand) (hq : q ≤ l.taken)
    (hr : l.files q = some r) (hself : l'.files q = some r')
    (hother : ∀ p, p ≠ q → l'.files p = l.files p) (hneed : l'.need = l.need)
    (hvalue : l'.value = l.value) (hsequence : l'.sequence = l.sequence)
    (hblocks : ∀ p, 0 < p → p < l.taken → l'.blocks c p = l.blocks c p) (hlast : q ≠ l.taken → l'.blocks c l.taken = l.blocks c l.taken)
    (hcurrent : l'.current = l.current ∨ l'.current = none)
    (hpending : l'.current = some q → r'.pending = true) (hholds : Holds c i q (l'.blocks c q) r')
    (hreached : r'.Reached c.ns c.sizes (c.head i q)) : l'.Filed c i hand := by
  have hpos := (h.numbers q r hr).1
  have htaken : l'.taken = l.taken := by simp [Lane.taken, hneed, hsequence]
  have hfile : ∀ p r'', p ≠ q → l'.files p = some r'' → l.files p = some r'' := fun p r'' hp hfile => by
    rw [← hother p hp]
    exact hfile
  refine ⟨fun p r'' hr'' => ?_, fun hno => ?_, fun p r'' hle hr'' => ?_, fun p hp => ?_, fun p r'' hr'' => ?_⟩
  · rw [hsequence]
    by_cases hp : p = q
    · subst hp
      exact h.numbers p r hr
    · exact h.numbers p r'' (hfile p r'' hp hr'')
  · -- it is not the next file
    have hno' : l.need = false := hneed ▸ hno
    have hne : l.sequence ≠ q := by
      simp only [Lane.taken, hno', Bool.false_eq_true, ↓reduceIte] at hq
      omega
    rw [hsequence, hvalue, hother _ hne]
    exact h.next hno'
  · rw [htaken] at hle
    by_cases hp : p = q
    · subst hp
      rw [Option.some.inj (hr''.symm.trans hself)]
      exact hholds
    · have hfile' := hfile p r'' hp hr''
      have hsame : l'.blocks c p = l.blocks c p := by
        rcases Nat.eq_or_lt_of_le hle with rfl | hlt
        · exact hlast (Ne.symm hp)
        · exact hblocks p (h.numbers p r'' hfile').1 hlt
      rw [hsame]
      exact h.old p r'' hle hfile'
  · by_cases hpq : p = q
    · subst hpq
      exact ⟨r', hself, hpending hp⟩
    · rw [hother p hpq]
      rcases hcurrent with heq | hnone
      · exact h.current p (heq ▸ hp)
      · simp [hnone] at hp
  · by_cases hp : p = q
    · subst hp
      rw [Option.some.inj (hr''.symm.trans hself)]
      exact hreached
    · exact h.reached p r'' (hfile p r'' hp hr'')

/-- One of the files that the camera took is removed. -/
theorem Filed.removes {q : Nat} (h : l.Filed c i hand) (hq : q ≤ l.taken) (hpos : 0 < q)
    (hcurrent : l'.current = l.current ∧ l.current ≠ some q ∨ l'.current = none) (hneed : l'.need = l.need)
    (hvalue : l'.value = l.value) (hsequence : l'.sequence = l.sequence) (hwrote : l'.wrote = l.wrote)
    (hfiles : l'.files = Function.update l.files q none) : l'.Filed c i hand := by
  have htaken : l'.taken = l.taken := by simp [Lane.taken, hneed, hsequence]
  have hfile : ∀ p r, l'.files p = some r → l.files p = some r := fun p r hr => by
    rw [hfiles] at hr
    by_cases hp : p = q
    · subst hp
      simp at hr
    · simpa [hp] using hr
  refine ⟨fun p r hr => ?_, fun hno => ?_, fun p r hle hr => ?_, fun p hp => ?_, fun p r hr => ?_⟩
  · rw [hsequence]
    exact h.numbers p r (hfile p r hr)
  · have hno' : l.need = false := hneed ▸ hno
    have hne : l.sequence ≠ q := by
      simp only [Lane.taken, hno', Bool.false_eq_true, ↓reduceIte] at hq
      omega
    rw [hsequence, hvalue, hfiles, Function.update_of_ne hne]
    exact h.next hno'
  · rw [htaken] at hle
    rw [Lane.blocks, hwrote]
    exact h.old p r hle (hfile p r hr)
  · rcases hcurrent with ⟨heq, hne⟩ | hnone
    · have hpq : p ≠ q := by
        rintro rfl
        exact hne (heq ▸ hp)
      rw [hfiles, Function.update_of_ne hpq]
      exact h.current p (heq ▸ hp)
    · simp [hnone] at hp
  · exact h.reached p r (hfile p r hr)

theorem Good.writes {q : Nat} {f : Fetched} {io : Io} (h : l.Good c i hand) (hpc : l.pc = .writing f)
    (hcurrent : l.current = some q) (hok : io.ok = true) : (l.writes c i q f io).1.Good c i hand := by
  obtain ⟨k, r, hw⟩ := h.writing hpc hcurrent
  have hreached := h.files.reached q r hw.file
  obtain ⟨hholds, hreached'⟩ := hw.written io.utc hreached rfl
  have hself := @stores_self q r l (l.block c i q) io.utc (.writing (l.offset + c.sizes.block)) hw.file
  have hother := fun p => @stores_other q l (l.block c i q) io.utc p (.writing (l.offset + c.sizes.block))
  simp only [Lane.writes, hok, ↓reduceIte]
  set l' : Lane := { l with
    random := (fill c.sizes.block l.random).2
    files := l.stores q (l.block c i q) io.utc (.writing (l.offset + c.sizes.block))
    fates := l.fates ++ [⟨f, .written⟩]
    pc := .measuring } with hl'
  have hwrote : l'.wrote = l.wrote + 1 := by
    simp [hl', Lane.wrote, fates_of, List.countP_append]
  have htaken : l'.taken = l.taken := rfl
  have hq := hw.current
  have hN := c.per_file_pos
  have hleast := h.thread.least
  have hmost := h.thread.most
  have hsplit : l.taken * c.per_file = (q - 1) * c.per_file + c.per_file := by
    have hpos := hw.pos
    rw [← Nat.succ_mul, ← hq]
    congr 1
    omega
  have hroom := hw.room
  have hstart := hw.wrote
  have hblocks : l'.blocks c q = k + 1 := by
    unfold Lane.blocks
    rw [hwrote]
    omega
  have hfull : ∀ p, 0 < p → p < l.taken → l'.blocks c p = l.blocks c p := fun p hpos hlt => by
    have hbefore := Nat.mul_le_mul_right c.per_file (by omega : p ≤ q - 1)
    have hp' : p * c.per_file = (p - 1) * c.per_file + c.per_file := by
      rw [← Nat.succ_mul]
      congr 1
      omega
    unfold Lane.blocks
    rw [hwrote]
    omega
  have hpending : ∀ r' : Recording, Holds c i q (k + 1) r' → r'.stage ≠ .closed → r'.pending = true :=
    fun r' hholds hne => by
      rcases hholds.stage with hstage | hstage
      · exact hstage.2
      · exact absurd hstage.1 hne
  refine ⟨⟨h.slot.need, h.slot.asked, h.slot.value⟩, ⟨?_, ?_, ?_, fun _ => ?_, fun _ => ?_⟩, ?_⟩
  · rw [htaken, hwrote]
    omega
  · rw [htaken, hwrote]
    omega
  · unfold Held
    rw [htaken, hwrote]
    exact ⟨by rw [← hq]; exact hcurrent, by omega⟩
  · have hdiff : l.wrote + 1 + c.per_file - l.taken * c.per_file = k + 1 := by omega
    rw [htaken, hwrote, hdiff]
    show l.offset + 1 * _ = _
    rw [hw.offset, Nat.one_mul, Nat.succ_mul]
  · have hrandom := h.thread.random (by simp [hpc])
    rw [hwrote]
    show (fill c.sizes.block l.random).2 = _
    rw [hrandom, Setup.random_at, Setup.random_at, Function.iterate_succ_apply']
  · refine h.files.changes (by omega) hw.file hself hother rfl rfl rfl hfull (fun hne => absurd hq hne)
      (.inl rfl) (fun _ => hpending _ hholds (by simp)) ?_ hreached'
    rw [hblocks]
    exact hholds

theorem Good.write_fails {q : Nat} {f : Fetched} {io : Io} (h : l.Good c i hand)
    (hpc : l.pc = .writing f) (hcurrent : l.current = some q) (hok : io.ok = false) :
    (l.writes c i q f io).1.Good c i hand := by
  obtain ⟨k, r, hw⟩ := h.writing hpc hcurrent
  have hreached := h.files.reached q r hw.file
  obtain ⟨hholds, hreached'⟩ := hw.torn io.stored io.utc hreached rfl
  have hself := @stores_self q r l ((l.block c i q).take io.stored) io.utc (.writing l.offset) hw.file
  have hother := fun p => @stores_other q l ((l.block c i q).take io.stored) io.utc p (.writing l.offset)
  have hheld := h.thread.held
  simp only [Lane.writes, hok, Lane.fails, Lane.ends, Bool.false_eq_true, ↓reduceIte]
  set l' : Lane := { l with
    random := (fill c.sizes.block l.random).2
    files := l.stores q ((l.block c i q).take io.stored) io.utc (.writing l.offset)
    fates := l.fates ++ [⟨f, .abandoned⟩]
    pc := .ended false
    current := none } with hl'
  have hwrote : l'.wrote = l.wrote := by
    simp [hl', Lane.wrote, fates_of, List.countP_append]
  have hblocks : ∀ p, l'.blocks c p = l.blocks c p := fun p => by simp [Lane.blocks, hwrote]
  refine ⟨⟨h.slot.need, h.slot.asked, h.slot.value⟩, ⟨?_, ?_, ?_, fun hne => ?_, fun hlive => ?_⟩, ?_⟩
  · rw [hwrote]
    exact h.thread.least
  · rw [hwrote]
    exact h.thread.most
  · exact rfl
  · exact absurd rfl hne
  · exact absurd rfl (hlive false)
  · refine h.files.changes hw.current.le hw.file hself hother rfl rfl rfl (fun p _ _ => hblocks p)
      (fun _ => hblocks _) (.inr rfl) (fun hp => (by cases hp)) ?_ hreached'
    rw [hblocks, hw.blocks]
    exact hholds

theorem Good.measures {q : Nat} {io : Io} (h : l.Good c i hand) (hpc : l.pc = .measuring)
    (hcurrent : l.current = some q) (hrecord : v.record ≠ .refused) :
    (l.measures c i q v io).1.Good c i hand := by
  have hheld := h.thread.held
  unfold Held at hheld
  rw [hpc] at hheld
  obtain ⟨htaken, hsome⟩ := hheld
  have hoffset := h.thread.offset (by simp [hcurrent])
  rw [hpc] at hoffset
  have hleast := h.thread.least
  have hmost := h.thread.most
  have hfull := c.per_file_mul
  have hblock := c.block_pos
  set offset := l.offset + c.sizes.block with hdef
  have hmeasured : offset = (l.wrote + c.per_file - l.taken * c.per_file) * c.sizes.block := by
    rw [← hoffset, hdef]
    simp [Pc.unmeasured]
  -- the recording is full when its blocks are written
  have hend : offset = c.sizes.file_size ↔ l.wrote = l.taken * c.per_file := by
    rw [hmeasured, ← hfull]
    constructor
    · intro heq
      have := Nat.eq_of_mul_eq_mul_right hblock heq
      omega
    · intro heq
      rw [heq, Nat.add_sub_cancel_left]
  have hnew : ({ l with
      offset
      pc := if offset = c.sizes.file_size then Pc.closing false else .top } : Lane).Good c i hand := by
    have hstays : Stays l { l with
        offset
        pc := if offset = c.sizes.file_size then Pc.closing false else .top } :=
      ⟨rfl, rfl, rfl, rfl, rfl, .inl rfl⟩
    refine ⟨h.slot.congr hstays, ⟨hleast, hmost, ?_, fun _ => ?_, fun _ => ?_⟩, h.files.congr hstays⟩
    · unfold Held
      dsimp only
      by_cases hdone : offset = c.sizes.file_size
      · rw [if_pos hdone]
        exact ⟨htaken, hsome, fun _ => hend.mp hdone⟩
      · rw [if_neg hdone]
        refine .inr ⟨htaken, ?_⟩
        have hne : l.wrote ≠ l.taken * c.per_file := fun heq => hdone (hend.mpr heq)
        show l.wrote < l.taken * c.per_file
        omega
    · have hfree : (if offset = c.sizes.file_size then Pc.closing false else Pc.top).unmeasured = 0 := by
        split_ifs <;> rfl
      show offset + Pc.unmeasured _ * _ = _
      rw [hfree, Nat.zero_mul, Nat.add_zero]
      exact hmeasured
    · exact h.thread.random (by simp [hpc])
  unfold Lane.measures
  cases hr : v.record with
  | refused => exact absurd hr hrecord
  | late => exact hnew
  | measured => exact hnew

/-- Every turn of a camera keeps the invariant. -/
theorem Turned.good (hturned : Turned c i v l l' e) (h : l.Good c i hand) : l'.Good c i hand := by
  have hheld := h.thread.held
  cases hturned with
  | moves pc ready sample hquiet hwrite =>
    refine h.congr ⟨rfl, rfl, rfl, rfl, rfl, .inl rfl⟩ (hheld.quiet hquiet) (fun _ => ⟨rfl, ?_⟩)
      fun _ => ⟨rfl, hquiet.live⟩
    exact hquiet.same.2.1
  | takes q pc hvalue hcurrent hgo hpc => exact h.takes hvalue hpc
  | passes hpc hgo hend =>
    unfold Held at hheld
    rw [hpc] at hheld
    have hwrote : (l.passes (c.clock i) c.drop_after v.elapsed : Lane × Effect c.count).1.wrote = l.wrote := by
      simp [Lane.wrote, fates_of, Lane.passes, List.countP_append, List.countP_map, Function.comp_def]
    refine h.congr ⟨rfl, rfl, rfl, rfl, hwrote, .inl rfl⟩ ?_ (fun _ => ⟨rfl, ?_⟩) fun _ => ⟨rfl, by simp [hpc]⟩
    · unfold Held
      rw [hwrote]
      unfold Lane.passes
      dsimp only
      cases (l.frames.pass (c.clock i) c.drop_after v.elapsed).fetched with
      | none => exact hheld
      | some g =>
        rcases hheld with ⟨hnone, hfull⟩ | ⟨hsome, hroom⟩
        · simp only [hnone, Option.isNone_none, ↓reduceIte]
          exact ⟨trivial, hfull⟩
        · simp only [hsome, Option.isNone_some, Bool.false_eq_true, ↓reduceIte]
          exact ⟨rfl, hroom⟩
    · rw [hpc]
      unfold Lane.passes
      dsimp only
      split
      · rfl
      · split_ifs <;> rfl
  | gives_up f hpc hkind =>
    have hwrote : ({ l with pc := .leaving, fates := l.fates ++ [⟨f, .abandoned⟩] } : Lane).wrote = l.wrote := by
      simp [Lane.wrote, fates_of, List.countP_append]
    unfold Held at hheld
    refine h.congr ⟨rfl, rfl, rfl, rfl, hwrote, .inl rfl⟩ ?_ (fun _ => ⟨rfl, ?_⟩) fun _ => ⟨rfl, ?_⟩
    · unfold Held
      dsimp only
      rw [hwrote]
      rcases hkind with ⟨⟨w, hpc⟩, -⟩ | hpc
      · rw [hpc] at hheld
        exact .inl hheld
      · rw [hpc] at hheld
        exact .inr hheld
    · rcases hkind with ⟨⟨w, hpc⟩, -⟩ | hpc <;> simp [hpc, Pc.unmeasured]
    · rcases hkind with ⟨⟨w, hpc⟩, -⟩ | hpc <;> simp [hpc]
  | writes q f io hpc hcurrent hok => exact h.writes hpc hcurrent hok
  | write_fails q f io hpc hcurrent hok => exact h.write_fails hpc hcurrent hok
  | measures q io hpc hcurrent hrecord => exact h.measures hpc hcurrent hrecord
  | counts last hpc =>
    refine h.congr ⟨rfl, rfl, rfl, rfl, rfl, .inl rfl⟩ ?_ (fun _ => ⟨rfl, ?_⟩) fun _ => ⟨rfl, by simp [hpc]⟩
    · unfold Held at hheld ⊢
      rw [hpc] at hheld
      exact hheld
    · simp [hpc, Pc.unmeasured]
  | sends q last hpc hcurrent hcloser =>
    unfold Held at hheld
    rw [hpc] at hheld
    refine h.congr ⟨rfl, rfl, rfl, rfl, rfl, .inr rfl⟩ ?_ (fun hne => absurd rfl hne) fun _ => ⟨rfl, by simp [hpc]⟩
    cases last with
    | true => exact rfl
    | false => exact .inl ⟨rfl, hheld.2.2 rfl⟩
  | closes q hpc hcurrent hoffset =>
    unfold Held at hheld
    rw [hpc] at hheld
    refine h.congr ⟨rfl, rfl, rfl, rfl, rfl, .inl rfl⟩ ?_ (fun _ => ⟨rfl, ?_⟩) fun _ => ⟨rfl, by simp [hpc]⟩
    · have hwritten := h.thread.offset (by simp [hcurrent])
      rcases hheld with ⟨hnone, -⟩ | ⟨hsome, -⟩
      · simp [hcurrent] at hnone
      · refine ⟨hsome, ?_, fun hlast => (by cases hlast)⟩
        show l.taken * c.per_file < l.wrote + c.per_file
        by_contra hnot
        have hzero : l.wrote + c.per_file - l.taken * c.per_file = 0 := by omega
        rw [hpc, hzero] at hwritten
        simp [Pc.unmeasured] at hwritten
        exact hoffset hwritten
    · simp [hpc, Pc.unmeasured]
  | removes q hpc hcurrent hoffset =>
    have hq : q = l.taken := by
      unfold Held at hheld
      rcases hpc with hpc | hpc
      · rw [hpc] at hheld
        exact Option.some.inj (hcurrent.symm.trans hheld.1)
      · rw [hpc] at hheld
        rcases hheld with ⟨hnone, -⟩ | ⟨hsome, -⟩
        · simp [hcurrent] at hnone
        · exact Option.some.inj (hcurrent.symm.trans hsome)
    obtain ⟨r, hr, -⟩ := h.files.current q hcurrent
    exact ⟨⟨h.slot.need, h.slot.asked, h.slot.value⟩, ⟨h.thread.least, h.thread.most, rfl, fun hne => absurd rfl hne,
        fun hlive => absurd rfl (hlive true)⟩,
      h.files.removes hq.le (h.files.numbers q r hr).1 (.inr rfl) rfl rfl rfl rfl rfl⟩
  | ends hpc hcurrent =>
    exact h.ends ⟨rfl, rfl, rfl, rfl, rfl, .inr rfl⟩ rfl ⟨_, rfl⟩
  | fails hhand hcurrent hlive =>
    exact h.ends ⟨rfl, rfl, rfl, rfl, rfl, .inr rfl⟩ rfl ⟨_, rfl⟩
  | rotation_fails f w hpc =>
    refine h.ends ⟨rfl, rfl, rfl, rfl, ?_, .inr rfl⟩ rfl ⟨_, rfl⟩
    simp [Lane.wrote, fates_of, Lane.fails, Lane.ends, List.countP_append]

/-! ### The other threads -/

/-- The hands of the allocator are full only for a camera whose request it took. -/
theorem Slotted.busy (h : l.Slotted hand) (hhand : hand ≠ .idle) :
    l.need = false ∧ l.value = none ∧ 0 < l.sequence := by
  have hneed : l.need = false := by
    by_contra hne
    exact hhand (h.need (by simpa using hne)).1
  refine ⟨hneed, ?_, h.asked hneed⟩
  cases hvalue : l.value with
  | none => rfl
  | some q => exact absurd (h.value q hvalue).2 hhand

theorem taken_asked (h : l.need = false) : l.taken = l.sequence - 1 := by simp [Lane.taken, h]

theorem taken_needed (h : l.need = true) : l.taken = l.sequence := by simp [Lane.taken, h]

/-- The file that a camera holds is the last one it took. -/
theorem Good.current_eq (h : l.Good c i hand) {q : Nat} (hcurrent : l.current = some q) : q = l.taken := by
  have hheld := h.thread.held
  have heither : l.current = none ∨ l.current = some l.taken := by
    unfold Held at hheld
    split at hheld <;> tauto
  simpa [hcurrent] using heither

/-- Nothing of the thread changes, nor how many files it took. -/
theorem AtWork.same (h : l.AtWork c i) (hsame : l.Same l') (htaken : l'.taken = l.taken) :
    l'.AtWork c i := by
  have hwrote : l'.wrote = l.wrote := by simp [Lane.wrote, fates_of, hsame.fates]
  refine ⟨?_, ?_, ?_, ?_, ?_⟩
  · rw [hwrote, htaken]
    exact h.least
  · rw [hwrote, htaken]
    exact h.most
  · have hheld := h.held
    unfold Held at hheld ⊢
    rw [hsame.pc, hsame.current, hwrote, htaken]
    exact hheld
  · rw [hwrote, htaken, hsame.current, hsame.offset, hsame.pc]
    exact h.offset
  · rw [hwrote, hsame.random, hsame.pc]
    exact h.random

theorem Good.requested (h : l.Good c i .idle) (hneed : l.need = true) : l.requested.Good c i .asked := by
  have htaken : l.requested.taken = l.taken := by
    rw [taken_needed hneed]
    simp [Lane.taken, Lane.requested]
  have hvalue := (h.slot.need hneed).2
  refine ⟨⟨fun hno => ?_, fun _ => Nat.succ_pos _, fun q hq => ?_⟩,
    h.thread.same ⟨rfl, rfl, rfl, rfl, rfl, rfl⟩ htaken, ⟨fun q r hr => ?_, fun _ => ?_, fun q r hle => ?_,
      h.files.current, h.files.reached⟩⟩
  · simp [Lane.requested] at hno
  · have hq' : l.value = some q := hq
    simp [hvalue] at hq'
  · exact ⟨(h.files.numbers q r hr).1, Nat.le_succ_of_le (h.files.numbers q r hr).2⟩
  · have hvalue' : l.requested.value = none := hvalue
    rw [hvalue']
    simp only [reduceCtorEq, Option.isSome_none, Bool.false_eq_true, or_self, ↓reduceIte]
    intro r hr
    -- there is no file with the next number yet
    have hle : l.sequence + 1 ≤ l.sequence := (h.files.numbers _ r hr).2
    omega
  · rw [htaken] at hle
    exact h.files.old q r hle

theorem Good.prepares (h : l.Good c i .asked) (now : Nat) : (l.prepares c i now).Good c i .made := by
  obtain ⟨hneed, hvalue, hpos⟩ := h.slot.busy (by simp)
  have htaken : (l.prepares c i now).taken = l.taken := rfl
  have hnext : l.taken < l.sequence := by
    rw [taken_asked hneed]
    omega
  have hother : ∀ q, q ≠ l.sequence → (l.prepares c i now).files q = l.files q := fun q hq => by
    simp [Lane.prepares, hq]
  have hself : (l.prepares c i now).files l.sequence = some (prepared c i l.sequence now) := by
    simp [Lane.prepares]
  refine ⟨⟨fun hno => ?_, h.slot.asked, fun q hq => ?_⟩, h.thread.same ⟨rfl, rfl, rfl, rfl, rfl, rfl⟩ rfl,
    ⟨fun q r hr => ?_, fun _ => ?_, fun q r hle hr => ?_, fun q hq => ?_, fun q r hr => ?_⟩⟩
  · have hno' : l.need = true := hno
    simp [hneed] at hno'
  · have hq' : l.value = some q := hq
    simp [hvalue] at hq'
  · by_cases hq : q = l.sequence
    · subst hq
      exact ⟨hpos, Nat.le_refl _⟩
    · exact h.files.numbers q r (by rw [← hother q hq]; exact hr)
  · simp only [true_or, ↓reduceIte]
    exact ⟨now, hself⟩
  · rw [htaken] at hle
    exact h.files.old q r hle (by rw [← hother q (by omega)]; exact hr)
  · obtain ⟨r, hr, hpending⟩ := h.files.current q hq
    by_cases hlast : q = l.sequence
    · rw [hlast]
      exact ⟨_, hself, rfl⟩
    · exact ⟨r, by rw [hother q hlast]; exact hr, hpending⟩
  · by_cases hq : q = l.sequence
    · subst hq
      rw [Option.some.inj (hr.symm.trans hself)]
      exact .prepared now (.created now) rfl
    · exact h.files.reached q r (by rw [← hother q hq]; exact hr)

/-- The next file is not closed, wherever it is. -/
theorem Filed.next_pending (h : l.Filed c i hand) (hneed : l.need = false) {r : Recording}
    (hr : l.files l.sequence = some r) : r.pending = true := by
  have hnext := h.next hneed
  split_ifs at hnext
  · obtain ⟨now, heq⟩ := hnext
    rw [hr] at heq
    rw [Option.some.inj heq]
    rfl
  · exact hnext r hr

/-- No one holds the next file any more: what is left of it is not closed. -/
theorem Good.leaves (h : l.Good c i hand) (hneed : l.need = false)
    (hvalue : l'.value = none) (hsame : l.Same l') (hneed' : l'.need = false)
    (hsequence : l'.sequence = l.sequence) (hothers : ∀ q, q ≠ l.sequence → l'.files q = l.files q)
    (hleft : ∀ r, l'.files l.sequence = some r → r.pending = true ∧
      r.Reached c.ns c.sizes (c.head i l.sequence)) : l'.Good c i .idle := by
  have hpos := h.slot.asked hneed
  have htaken : l'.taken = l.taken := by
    rw [taken_asked hneed', taken_asked hneed, hsequence]
  have hnext : l.taken < l.sequence := by
    rw [taken_asked hneed]
    omega
  refine ⟨⟨fun hno => ?_, fun _ => by omega, fun q hq => ?_⟩, h.thread.same hsame htaken,
    ⟨fun q r hr => ?_, fun _ => ?_, fun q r hle hr => ?_, fun q hq => ?_, fun q r hr => ?_⟩⟩
  · simp [hneed'] at hno
  · simp [hvalue] at hq
  · rw [hsequence]
    by_cases hq : q = l.sequence
    · exact ⟨hq ▸ hpos, hq.le⟩
    · exact h.files.numbers q r (hothers q hq ▸ hr)
  · rw [hvalue, hsequence]
    simp only [reduceCtorEq, Option.isSome_none, Bool.false_eq_true, or_self, ↓reduceIte]
    exact fun r hr => (hleft r hr).1
  · have hwrote : l'.wrote = l.wrote := by simp [Lane.wrote, fates_of, hsame.fates]
    rw [htaken] at hle
    rw [Lane.blocks, hwrote]
    exact h.files.old q r hle (hothers q (by omega) ▸ hr)
  · rw [hsame.current] at hq
    have hne : q ≠ l.sequence := by
      have := h.current_eq hq
      omega
    rw [hothers q hne]
    exact h.files.current q hq
  · by_cases hq : q = l.sequence
    · rw [hq] at hr ⊢
      exact (hleft r hr).2
    · exact h.files.reached q r (hothers q hq ▸ hr)

/-- The next file is dropped, and removed or not. -/
theorem Good.discards (h : l.Good c i hand) (hneed : l.need = false) (hvalue : l'.value = none)
    (hsame : l.Same l') (hneed' : l'.need = false) (hsequence : l'.sequence = l.sequence)
    (hfiles : l'.files = Function.update l.files l.sequence none ∨ l'.files = l.files) :
    l'.Good c i .idle := by
  refine h.leaves hneed hvalue hsame hneed' hsequence (fun q hq => ?_) fun r hr => ?_
  · obtain hfiles | hfiles := hfiles <;> simp [hfiles, hq]
  · obtain hfiles | hfiles := hfiles
    · simp [hfiles] at hr
    · rw [hfiles] at hr
      exact ⟨h.files.next_pending hneed hr, h.files.reached _ r hr⟩

theorem discards_files (l : Lane) (removed : Bool) :
    (l.discards l.sequence removed).files = Function.update l.files l.sequence none ∨
      (l.discards l.sequence removed).files = l.files := by
  unfold Lane.discards
  split
  · exact .inl rfl
  · exact .inr rfl

theorem discards_slot (l : Lane) (q : Nat) (removed : Bool) :
    (l.discards q removed).need = l.need ∧ (l.discards q removed).value = l.value ∧
      (l.discards q removed).sequence = l.sequence := by
  unfold Lane.discards
  split <;> exact ⟨rfl, rfl, rfl⟩

/-- What a `prepare` that fails leaves is a file that was being reserved. -/
theorem unfinished_reached (c : Setup) (i : Fin c.count) (q now stored : Nat) :
    (unfinished c i q now stored).Reached c.ns c.sizes (c.head i q) := by
  have hzeroes : Recording.Reached c.ns c.sizes (c.head i q)
      ⟨now, true, bytes.resize [] (min stored c.sizes.file_size), now, .reserving⟩ :=
    .fallback _ now (.created now) rfl
  unfold unfinished
  cases hdirect : c.ns.direct with
  | true => exact hzeroes
  | false => exact .write_head (stored - c.sizes.file_size) now hzeroes rfl hdirect

/-- `prepare` fails, and leaves no file, or one that could not be removed. -/
theorem Good.gives_up (h : l.Good c i .asked) (io : Io) (removed : Bool) :
    (l.gives_up c i io removed).Good c i .idle := by
  obtain ⟨hneed, hvalue, hpos⟩ := h.slot.busy (by simp)
  have hsame := gives_up_same l c i io removed
  unfold Lane.gives_up at hsame ⊢
  split at hsame
  · rename_i hremoved
    rw [if_pos hremoved]
    exact h.discards hneed hvalue hsame hneed rfl (.inr rfl)
  · rename_i hremoved
    rw [if_neg hremoved]
    refine h.leaves hneed hvalue hsame hneed rfl (fun q hq => by simp [hq]) fun r hr => ?_
    simp only [Function.update_self, Option.some.injEq] at hr
    rw [← hr]
    exact ⟨rfl, unfinished_reached c i l.sequence io.utc io.stored⟩

/-- The slot was free. -/
theorem Good.placed (h : l.Good c i .made) (removed : Bool) : (l.placed removed).Good c i .idle := by
  obtain ⟨hneed, hvalue, hpos⟩ := h.slot.busy (by simp)
  have heq : l.placed removed = { l with value := some l.sequence } := by simp [Lane.placed, hvalue]
  rw [heq]
  refine ⟨⟨fun hno => ?_, h.slot.asked, fun q hq => ?_⟩, h.thread.same ⟨rfl, rfl, rfl, rfl, rfl, rfl⟩ rfl,
    ⟨h.files.numbers, fun hno => ?_, h.files.old, h.files.current, h.files.reached⟩⟩
  · simp [hneed] at hno
  · simp only [Option.some.injEq] at hq
    exact ⟨hq.symm, rfl⟩
  · have hnext := h.files.next hneed
    simpa using hnext

theorem Good.dropped (h : l.Good c i hand) (removed : Bool) : (l.dropped removed).Good c i hand := by
  cases hvalue : l.value with
  | none =>
    have heq : l.dropped removed = l := by
      obtain ⟨_, value, _, _, _, _, _, _, _, _⟩ := l
      simp only at hvalue
      subst hvalue
      rfl
    rw [heq]
    exact h
  | some q =>
    obtain ⟨hq, hidle⟩ := h.slot.value q hvalue
    have hneed : l.need = false := by
      by_contra hne
      have := (h.slot.need (by simpa using hne)).2
      simp [hvalue] at this
    have heq : l.dropped removed = { l.discards l.sequence removed with value := none } := by
      simp [Lane.dropped, hvalue, hq]
    obtain ⟨hneed', -, hsequence⟩ := discards_slot l l.sequence removed
    subst hidle
    have hsame := dropped_same l removed
    rw [heq] at hsame ⊢
    exact h.discards hneed rfl hsame (hneed'.trans hneed) hsequence (discards_files l removed)

/-- A recording that waits to be closed: the camera is through with it, and it has blocks in it. -/
structure Waits (l : Lane) (q written : Nat) : Prop where
  taken : q ≤ l.taken
  through : l.current ≠ some q
  file : ∃ r, l.files q = some r ∧ r.stage = .writing written
  written : 0 < written

theorem Good.closed {q written : Nat} (h : l.Good c i hand) (hwaits : l.Waits q written) (now : Nat) :
    (l.closed q now).Good c i hand := by
  obtain ⟨r, hr, hstage⟩ := hwaits.file
  have hholds := h.files.old q r hwaits.taken hr
  have hself : (l.closed q now).files q = some { r with stamp := now, pending := false, stage := .closed } := by
    simp [Lane.closed, hr]
  have hother : ∀ p, p ≠ q → (l.closed q now).files p = l.files p := fun p hp => by
    simp [Lane.closed, hp]
  have hblocks : 0 < l.blocks c q := by
    rcases hholds.stage with ⟨heq, -⟩ | ⟨heq, -⟩
    · rw [hstage] at heq
      have hwritten := hwaits.written
      rw [Stage.writing.inj heq] at hwritten
      exact Nat.pos_of_mul_pos_right hwritten
    · rw [hstage] at heq
      cases heq
  refine ⟨⟨h.slot.need, h.slot.asked, h.slot.value⟩, h.thread.same ⟨rfl, rfl, rfl, rfl, rfl, rfl⟩ rfl, ?_⟩
  refine h.files.changes hwaits.taken hr hself hother rfl rfl rfl (fun p _ _ => rfl) (fun _ => rfl) (.inl rfl)
    (fun hp => absurd hp hwaits.through) ⟨hholds.length, hholds.content, .inr ⟨rfl, rfl, hblocks⟩⟩ ?_
  exact .finish now (h.files.reached q r hr) hstage hwaits.written

theorem Good.pruned (h : l.Good c i hand) (q : Nat) : (l.pruned q).Good c i hand := by
  have hsame : Same l (l.pruned q) := ⟨rfl, rfl, rfl, rfl, rfl, rfl⟩
  -- a file that is not closed stays
  have hkept : (l.files q).filter Recording.pending = l.files q → l.pruned q = l := fun hfilter => by
    unfold Lane.pruned
    rw [hfilter, Function.update_eq_self]
  cases hr : l.files q with
  | none =>
    rw [hkept (by simp [hr])]
    exact h
  | some r =>
    cases hpending : r.pending with
    | true =>
      rw [hkept (by simp [hr, Option.filter, hpending])]
      exact h
    | false =>
      have hfiles : (l.pruned q).files = Function.update l.files q none := by
        simp [Lane.pruned, hr, Option.filter, hpending]
      have htaken : q ≤ l.taken := by
        obtain ⟨hpos, hle⟩ := h.files.numbers q r hr
        by_contra hnot
        have hneed : l.need = false := by
          by_contra hne
          exact hnot (hle.trans (taken_needed (by simpa using hne)).ge)
        have hlast : q = l.sequence := by
          rw [taken_asked hneed] at hnot
          omega
        have hstill := h.files.next_pending hneed (hlast ▸ hr)
        rw [hpending] at hstill
        cases hstill
      have hfree : l.current ≠ some q := fun hcurrent => by
        obtain ⟨r', hr', hpending'⟩ := h.files.current q hcurrent
        rw [Option.some.inj (hr'.symm.trans hr), hpending] at hpending'
        cases hpending'
      exact ⟨⟨h.slot.need, h.slot.asked, h.slot.value⟩, h.thread.same hsame rfl,
        h.files.removes htaken (h.files.numbers q r hr).1 (.inl ⟨rfl, hfree⟩) rfl rfl rfl rfl hfiles⟩

end laws

end Lane

end stutools.cctv
