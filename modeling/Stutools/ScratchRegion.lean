-- The scratch window of the bulk data cases: the blocks before the last three of the LUN,
-- read in full before a case writes and written back after it, in chunks that the Block
-- Limits and the transport allow. A chunk of a 10-byte command can outgrow its count.
import Mathlib.Tactic.Ring
import Stutools.Fabric

open bytes

namespace stutools.scratch_region

/-- Bytes a 12 MiB run moves. -/
def RUN_BYTES : Nat := 12 * 2 ^ 20

/-- Blocks the 1000-command runs touch. -/
def COMMANDS : Nat := 1000

/-! ## The commands -/

/-- `block_io::cdb10`: byte 1 flags, a 32-bit LBA, a 16-bit count. -/
def cdb10 (op flags : UInt8) (lba : UInt32) (count : UInt16) : List UInt8 :=
  [op, flags] ++ be 4 lba.toNat ++ [0] ++ be 2 count.toNat ++ [0]

/-- `block_io::cdb16`: byte 1 flags, a 64-bit LBA, a 32-bit count. -/
def cdb16 (op flags : UInt8) (lba : UInt64) (count : UInt32) : List UInt8 :=
  [op, flags] ++ be 8 lba.toNat ++ be 4 count.toNat ++ [0, 0]

/-- READ (10) or WRITE (10), by the operation code. -/
def is_ten (cdb : List UInt8) : Bool := cdb.getD 0 0 == 0x28 || cdb.getD 0 0 == 0x2a

/-- The LBA field, as a target reads it. -/
def lba_field (cdb : List UInt8) : Nat := of_be (slice cdb 2 (if is_ten cdb then 4 else 8))

/-- The count field, as a target reads it. -/
def count_field (cdb : List UInt8) : Nat :=
  if is_ten cdb then of_be (slice cdb 7 2) else of_be (slice cdb 10 4)

/-- A command as it was sent: its CDB, the bytes it reads and those it writes. -/
structure Command where
  cdb : List UInt8
  read : Nat
  write : Option (List UInt8)
deriving DecidableEq, Repr

/-- The number of bytes a command transfers. -/
def Command.bytes (c : Command) : Nat := c.write.elim c.read List.length

/-- The blocks that the CDB names. -/
def Command.covers (c : Command) : List Nat := List.range' (lba_field c.cdb) (count_field c.cdb)

/-! ## The logical unit -/

/-- What the blocks of a logical unit hold. -/
abbrev Lun (len : Nat) := Nat → Block len

namespace Lun

variable {len : Nat}

/-- The bytes of `n` blocks from `lba` on. -/
def bytes (lun : Lun len) (lba n : Nat) : List UInt8 :=
  (List.range' lba n).flatMap fun b => (lun b).1

/-- The blocks after `n` of them are written from `lba` on, those that the data has. -/
def store (lun : Lun len) (lba n : Nat) (data : List UInt8) : Lun len := fun b =>
  if h : lba ≤ b ∧ b < lba + n ∧ (b - lba) * len + len ≤ data.length then
    ⟨slice data ((b - lba) * len) len, slice_length h.2.2⟩
  else lun b

theorem store_block (lun : Lun len) {lba n b : Nat} {data : List UInt8} (hle : lba ≤ b)
    (hlt : b < lba + n) (hdata : (b - lba) * len + len ≤ data.length) :
    (lun.store lba n data b).1 = slice data ((b - lba) * len) len :=
  congrArg Subtype.val (dif_pos ⟨hle, hlt, hdata⟩)

end Lun

/-- How a command ends: with GOOD, with another status, or with an error of the transport. -/
inductive Answer where
  | good
  | refused (o : { o : scsi.Outcome // o.status ≠ 0 })
  | failed (text : String)

/-- `port::Port`: the nexus to a logical unit whose blocks have `len` bytes, with the answer
to each command by its number. -/
structure Port (len : Nat) where
  lun : Lun len
  /-- The most bytes one command can move, when the transport limits it. -/
  max_transfer : Option UInt32
  answers : Nat → Answer
  sent : List Command

/-- `Port::command`. With GOOD a READ returns its blocks, in a buffer of the length that
was asked for, and a WRITE stores them: the unit returns in full what was last written. -/
def Port.command {len : Nat} (p : Port len) (cdb : List UInt8) (read : Nat)
    (write : Option (List UInt8)) : Except String scsi.Outcome × Port len :=
  let q := { p with sent := p.sent ++ [{ cdb, read, write }] }
  match p.answers p.sent.length with
  | .failed text => (.error text, q)
  | .refused o => (.ok o.1, q)
  | .good =>
    match write with
    | none =>
      let data := resize (p.lun.bytes (lba_field cdb) (count_field cdb)) read
      (.ok { status := 0, sense := [], data, received := read }, q)
    | some data =>
      (.ok { status := 0, sense := [], data := [], received := 0 },
        { q with lun := p.lun.store (lba_field cdb) (count_field cdb) data })

/-! ## The disk -/

/-- `disk::Disk`: the block length, the last LBA and the VPD pages. -/
structure Disk where
  block_len : UInt32
  last_lba : UInt64
  vpd : List (UInt8 × List UInt8)

namespace Disk

abbrev len (disk : Disk) : Nat := disk.block_len.toNat

def page (disk : Disk) (code : UInt8) : Option (List UInt8) :=
  (disk.vpd.find? (·.1 == code)).map Prod.snd

/-- MAXIMUM TRANSFER LENGTH of `limits`, the Block Limits VPD page of 44 bytes or more. -/
def max_transfer (disk : Disk) : Option Nat :=
  (disk.page 0xb0).bind fun d => if 44 ≤ d.length then some (of_be (slice d 8 4)) else none

end Disk

/-- Blocks per command, of which there is one at least. -/
abbrev Chunk := { n : Nat // 0 < n }

/-- The least of 1 MiB, a limit in blocks unless it is zero, and a limit in bytes. -/
def chunk_blocks (bl : Nat) (limit : Option Nat) (bytes : Option UInt32) : Nat :=
  let blocks := max (2 ^ 20 / bl) 1
  let blocks := match limit.filter (0 < ·) with
    | some l => min blocks l
    | none => blocks
  match bytes with
  | some bytes => min blocks (max (bytes.toNat / bl) 1)
  | none => blocks

theorem chunk_blocks_pos (bl : Nat) (limit : Option Nat) (bytes : Option UInt32) :
    0 < chunk_blocks bl limit bytes := by
  unfold chunk_blocks
  have hlimit : ∀ l, limit.filter (0 < ·) = some l → 0 < l := by
    intro l hl
    simpa using (Option.filter_eq_some_iff.mp hl).2
  cases hf : limit.filter (0 < ·) with
  | none => cases bytes <;> simp
  | some l =>
    have := hlimit l hf
    cases bytes <;> simp [this]

/-- The blocks per command: 1 MiB, or less when Block Limits or SG_IO allow less. -/
def chunk {len : Nat} (s : Port len) (disk : Disk) : Chunk :=
  ⟨chunk_blocks (max disk.len 1) disk.max_transfer s.max_transfer, chunk_blocks_pos _ _ _⟩

/-! ## The loops -/

/-- Why reading or writing the window fails. -/
inductive ScratchError where
  /-- The transport's own error. -/
  | port (text : String)
  /-- "LBA past 32 bits for READ (10)" -/
  | read_past_32_bits
  /-- "LBA past 32 bits for WRITE (10)" -/
  | write_past_32_bits
  /-- "READ at {addr}: {o}" -/
  | read (addr : Nat) (o : scsi.Outcome)
  /-- "WRITE at {addr}: {o}" -/
  | write (addr : Nat) (o : scsi.Outcome)
  /-- "the LUN is smaller than twice the {blocks}-block window" -/
  | small (blocks : Nat)
deriving DecidableEq, Repr

/-- The loop `while done < count` of `read_with` and `write`, one command a turn. -/
def in_chunks {σ ε : Type} (chunk : Chunk) (count : Nat) (step : Nat → Nat → σ → Option ε × σ)
    (done : Nat) (s : σ) : Option ε × σ :=
  if done < count then
    let n := min chunk.1 (count - done)
    match step done n s with
    | (some e, s) => (some e, s)
    | (none, s) => in_chunks chunk count step (done + n) s
  else (none, s)
termination_by count - done
decreasing_by
  have := chunk.2
  show count - (done + min chunk.1 (count - done)) < count - done
  omega

section loops

variable {len : Nat}

/-- One turn of `read_with`. The length of the data is a 32-bit product. -/
def read_chunk (ten : Bool) (lba done n : Nat) (s : List UInt8 × Port len) :
    Option ScratchError × (List UInt8 × Port len) :=
  let addr := lba + done
  if ten ∧ 2 ^ 32 ≤ addr then (some .read_past_32_bits, s)
  else
    let cdb :=
      if ten then cdb10 0x28 0 (UInt32.ofNat addr) (UInt16.ofNat n)
      else cdb16 0x88 0 (UInt64.ofNat addr) (UInt32.ofNat n)
    match s.2.command cdb (n * len % 2 ^ 32) none with
    | (.error text, p) => (some (.port text), (s.1, p))
    | (.ok o, p) =>
      if o.status ≠ 0 then (some (.read addr o), (s.1, p)) else (none, (s.1 ++ o.data, p))

/-- Reads `count` blocks from `lba`, with READ (10) when `ten` and READ (16) else. -/
def read_with (s : Port len) (ten : Bool) (lba count : Nat) (chunk : Chunk) :
    Except ScratchError (List UInt8) × Port len :=
  match in_chunks chunk count (read_chunk ten lba) 0 ([], s) with
  | (some e, (_, s)) => (.error e, s)
  | (none, (out, s)) => (.ok out, s)

/-- One turn of `write`. -/
def write_chunk (op flags : UInt8) (lba : Nat) (data : List UInt8) (done n : Nat) (s : Port len) :
    Option ScratchError × Port len :=
  let addr := lba + done
  let bytes := slice data (done * len) (n * len)
  if op = 0x2a ∧ 2 ^ 32 ≤ addr then (some .write_past_32_bits, s)
  else
    let cdb :=
      if op = 0x2a then cdb10 0x2a flags (UInt32.ofNat addr) (UInt16.ofNat n)
      else cdb16 0x8a flags (UInt64.ofNat addr) (UInt32.ofNat n)
    match s.command cdb 0 (some bytes) with
    | (.error text, p) => (some (.port text), p)
    | (.ok o, p) => (if o.status ≠ 0 then some (.write addr o) else none, p)

/-- The whole blocks of data, in 32 bits. -/
def blocks_of (len : Nat) (data : List UInt8) : Nat := data.length / len % 2 ^ 32

/-- Writes `data` from `lba` with WRITE (10), `op` 2Ah, or WRITE (16). -/
def write (s : Port len) (op flags : UInt8) (lba : Nat) (data : List UInt8) (chunk : Chunk) :
    Except ScratchError Unit × Port len :=
  match in_chunks chunk (blocks_of len data) (write_chunk op flags lba data) 0 s with
  | (some e, s) => (.error e, s)
  | (none, s) => (.ok (), s)

end loops

/-- The scratch window and the data it held. -/
structure Scratch (len : Nat) where
  start : Nat
  blocks : Nat
  chunk : Chunk
  original : List UInt8

namespace Scratch

/-- The window for `disk`, read in full. -/
def save (disk : Disk) (s : Port disk.len) : Except ScratchError (Scratch disk.len) × Port disk.len :=
  let blocks := max (RUN_BYTES / max disk.len 1) COMMANDS
  let last := disk.last_lba.toNat - 2
  if last < 2 * blocks then (.error (.small blocks), s)
  else
    let start := last - blocks
    let chunk := scratch_region.chunk s disk
    match read_with s false start blocks chunk with
    | (.error e, s) => (.error e, s)
    | (.ok original, s) => (.ok { start, blocks, chunk, original }, s)

/-- Writes back what the window held. -/
def restore {len : Nat} (w : Scratch len) (s : Port len) : Except ScratchError Unit × Port len :=
  write s 0x8a 0 w.start w.original w.chunk

end Scratch

/-! ## The fields of the commands -/

theorem cdb10_fields {op : UInt8} (hop : op = 0x28 ∨ op = 0x2a) (flags : UInt8) (lba : UInt32)
    (count : UInt16) : lba_field (cdb10 op flags lba count) = lba.toNat ∧
      count_field (cdb10 op flags lba count) = count.toNat := by
  have hten : is_ten (cdb10 op flags lba count) = true := by
    rcases hop with rfl | rfl <;> rfl
  have hlba : slice (cdb10 op flags lba count) 2 4 = be 4 lba.toNat := by
    unfold cdb10
    rw [List.append_assoc ([op, flags] ++ be 4 lba.toNat), List.append_assoc ([op, flags] ++ be 4 lba.toNat)]
    exact slice_middle rfl (be_length _ _)
  have hcount : slice (cdb10 op flags lba count) 7 2 = be 2 count.toNat :=
    slice_middle (by simp) (be_length _ _)
  unfold lba_field count_field
  rw [hten, if_pos rfl, if_pos rfl, hlba, hcount]
  exact ⟨of_be_be_of_lt lba.toNat_lt, of_be_be_of_lt count.toNat_lt⟩

theorem cdb16_fields {op : UInt8} (hop : op = 0x88 ∨ op = 0x8a) (flags : UInt8) (lba : UInt64)
    (count : UInt32) : lba_field (cdb16 op flags lba count) = lba.toNat ∧
      count_field (cdb16 op flags lba count) = count.toNat := by
  have hten : is_ten (cdb16 op flags lba count) = false := by
    rcases hop with rfl | rfl <;> rfl
  have hlba : slice (cdb16 op flags lba count) 2 8 = be 8 lba.toNat := by
    unfold cdb16
    rw [List.append_assoc ([op, flags] ++ be 8 lba.toNat)]
    exact slice_middle rfl (be_length _ _)
  have hcount : slice (cdb16 op flags lba count) 10 4 = be 4 count.toNat :=
    slice_middle (by simp) (be_length _ _)
  unfold lba_field count_field
  rw [hten, if_neg (by decide), if_neg (by decide), hlba, hcount]
  exact ⟨of_be_be_of_lt lba.toNat_lt, of_be_be_of_lt count.toNat_lt⟩

/-! ## One command -/

section command

variable {len : Nat} (p : Port len) (cdb : List UInt8) (read : Nat)

theorem command_sent (write : Option (List UInt8)) :
    (p.command cdb read write).2.sent = p.sent ++ [⟨cdb, read, write⟩] := by
  unfold Port.command
  dsimp only
  split
  · rfl
  · rfl
  · cases write <;> rfl

theorem command_read_lun : (p.command cdb read none).2.lun = p.lun := by
  unfold Port.command
  dsimp only
  split <;> rfl

theorem command_read_good {o : scsi.Outcome} (h : (p.command cdb read none).1 = .ok o)
    (hgood : o.status = 0) :
    o.data = resize (p.lun.bytes (lba_field cdb) (count_field cdb)) read := by
  unfold Port.command at h
  dsimp only at h
  split at h
  · cases h
  · rename_i refused _
    obtain rfl := Except.ok.inj h
    exact absurd hgood refused.2
  · obtain rfl := Except.ok.inj h
    rfl

theorem command_write_frame (write : Option (List UInt8)) {b : Nat}
    (hb : b < lba_field cdb ∨ lba_field cdb + count_field cdb ≤ b) :
    (p.command cdb read write).2.lun b = p.lun b := by
  unfold Port.command
  dsimp only
  split
  · rfl
  · rfl
  · cases write with
    | none => rfl
    | some data => exact dif_neg (by omega)

theorem command_write_good {data : List UInt8} {o : scsi.Outcome}
    (h : (p.command cdb read (some data)).1 = .ok o) (hgood : o.status = 0) :
    (p.command cdb read (some data)).2.lun = p.lun.store (lba_field cdb) (count_field cdb) data := by
  unfold Port.command at h ⊢
  dsimp only at h ⊢
  split at h
  · cases h
  · rename_i refused _
    obtain rfl := Except.ok.inj h
    exact absurd hgood refused.2
  · rfl

end command

/-! ## The loop -/

/-- The rule of the loop: what a turn that goes on keeps holds when the loop ends well, and
what a turn that fails leaves holds when it fails. -/
theorem in_chunks.rule {σ ε : Type} {chunk : Chunk} {count : Nat}
    {step : Nat → Nat → σ → Option ε × σ} (I : Nat → σ → Prop) (E : σ → Prop)
    (hok : ∀ done n s s', done < count → done + n ≤ count → n ≤ chunk.1 → I done s →
      step done n s = (none, s') → I (done + n) s')
    (herror : ∀ done n s e s', done < count → done + n ≤ count → n ≤ chunk.1 → I done s →
      step done n s = (some e, s') → E s')
    {done : Nat} {s : σ} (hle : done ≤ count) (h : I done s) :
    (∀ s', in_chunks chunk count step done s = (none, s') → I count s') ∧
      ∀ e s', in_chunks chunk count step done s = (some e, s') → E s' := by
  fun_induction in_chunks chunk count step done s with
  | case1 done s hlt n e t hstep =>
    refine ⟨fun s' hs' => (by cases hs'), fun e' s' hs' => ?_⟩
    cases hs'
    exact herror done n s e t hlt (by omega) (Nat.min_le_left _ _) h hstep
  | case2 done s hlt n t hstep ih =>
    exact ih (by omega) (hok done n s t hlt (by omega) (Nat.min_le_left _ _) h hstep)
  | case3 done s hge =>
    obtain rfl : done = count := by omega
    refine ⟨fun s' hs' => ?_, fun e s' hs' => (by cases hs')⟩
    cases hs'
    exact h

/-! ## What the commands carry -/

/-- Commands that carry the counts and the lengths they transfer, and whose blocks are
those from `lba` on, each once and in order. -/
structure Covered (len lba k : Nat) (cs : List Command) : Prop where
  exact : ∀ c ∈ cs, c.bytes = count_field c.cdb * len
  covers : cs.flatMap Command.covers = List.range' lba k

theorem Covered.snoc {len lba k n : Nat} {cs : List Command} (h : Covered len lba k cs) {c : Command}
    (hbytes : c.bytes = n * len) (hlba : lba_field c.cdb = lba + k) (hcount : count_field c.cdb = n) :
    Covered len lba (k + n) (cs ++ [c]) := by
  refine ⟨fun d hd => ?_, ?_⟩
  · rcases List.mem_append.mp hd with hd | hd
    · exact h.exact d hd
    · obtain rfl := List.mem_singleton.mp hd
      rw [hbytes, hcount]
  · rw [List.flatMap_append, h.covers, List.flatMap_singleton, Command.covers, hlba, hcount]
    simp

section carries

variable {len : Nat}

/-- The commands that were sent cover the blocks of a transfer from its first on, all of
them when it ended well. -/
def Carries (before after : Port len) (lba count : Nat) (ended : Prop) : Prop :=
  ∃ cs k, after.sent = before.sent ++ cs ∧ Covered len lba k cs ∧ k ≤ count ∧ (ended → k = count)

/-- One command was sent, for `n` blocks at an address and so many bytes. Its count has 16
or 32 bits. -/
def Sends (before after : Port len) (ten : Bool) (addr n bytes : Nat) : Prop :=
  ∃ c : Command, after.sent = before.sent ++ [c] ∧ c.bytes = bytes ∧ lba_field c.cdb = addr ∧
    count_field c.cdb = n % 2 ^ (if ten then 16 else 32)

theorem read_chunk.sent {ten : Bool} {lba done : Nat} (n : Nat) {s : List UInt8 × Port len}
    (hlba : lba + done < 2 ^ 64) :
    2 ^ 32 ≤ lba + done ∧ read_chunk ten lba done n s = (some .read_past_32_bits, s) ∨
      Sends s.2 (read_chunk ten lba done n s).2.2 ten (lba + done) n (n * len % 2 ^ 32) := by
  unfold read_chunk
  dsimp only
  by_cases hpast : ten = true ∧ 2 ^ 32 ≤ lba + done
  · rw [if_pos hpast]
    exact .inl ⟨hpast.2, rfl⟩
  rw [if_neg hpast]
  set cdb := if ten = true then cdb10 0x28 0 (UInt32.ofNat (lba + done)) (UInt16.ofNat n)
    else cdb16 0x88 0 (UInt64.ofNat (lba + done)) (UInt32.ofNat n) with hcdb
  refine .inr ⟨⟨cdb, n * len % 2 ^ 32, none⟩, ?_, rfl, ?_⟩
  · have hsent := command_sent s.2 cdb (n * len % 2 ^ 32) none
    rcases hc : s.2.command cdb (n * len % 2 ^ 32) none with ⟨r, q⟩
    rw [hc] at hsent
    cases r with
    | error text => exact hsent
    | ok o =>
      dsimp only
      split <;> exact hsent
  · cases ten with
    | true =>
      obtain ⟨h1, h2⟩ := cdb10_fields (.inl rfl) 0 (UInt32.ofNat (lba + done)) (UInt16.ofNat n)
      rw [hcdb, if_pos rfl, h1, h2, UInt32.toNat_ofNat', UInt16.toNat_ofNat']
      exact ⟨Nat.mod_eq_of_lt (by simpa using hpast), rfl⟩
    | false =>
      obtain ⟨h1, h2⟩ := cdb16_fields (.inl rfl) 0 (UInt64.ofNat (lba + done)) (UInt32.ofNat n)
      rw [hcdb, if_neg (by decide), h1, h2, UInt64.toNat_ofNat', UInt32.toNat_ofNat']
      exact ⟨Nat.mod_eq_of_lt hlba, rfl⟩

theorem write_chunk.sent {op flags : UInt8} {lba done : Nat} {n : Nat} {data : List UInt8}
    {s : Port len} (hlba : lba + done < 2 ^ 64) (hdata : (done + n) * len ≤ data.length) :
    write_chunk op flags lba data done n s = (some .write_past_32_bits, s) ∨
      Sends s (write_chunk op flags lba data done n s).2 (op = 0x2a) (lba + done) n (n * len) := by
  have hbytes : (slice data (done * len) (n * len)).length = n * len :=
    slice_length (by rw [← Nat.add_mul]; exact hdata)
  unfold write_chunk
  dsimp only
  by_cases hpast : op = 0x2a ∧ 2 ^ 32 ≤ lba + done
  · rw [if_pos hpast]
    exact .inl rfl
  rw [if_neg hpast]
  set cdb := if op = 0x2a then cdb10 0x2a flags (UInt32.ofNat (lba + done)) (UInt16.ofNat n)
    else cdb16 0x8a flags (UInt64.ofNat (lba + done)) (UInt32.ofNat n) with hcdb
  refine .inr ⟨⟨cdb, 0, some (slice data (done * len) (n * len))⟩, ?_, hbytes, ?_⟩
  · have hsent := command_sent s cdb 0 (some (slice data (done * len) (n * len)))
    rcases hc : s.command cdb 0 (some (slice data (done * len) (n * len))) with ⟨r, q⟩
    rw [hc] at hsent
    cases r <;> exact hsent
  · by_cases hop : op = 0x2a
    · obtain ⟨h1, h2⟩ := cdb10_fields (.inr rfl) flags (UInt32.ofNat (lba + done)) (UInt16.ofNat n)
      rw [hcdb, if_pos hop, h1, h2, UInt32.toNat_ofNat', UInt16.toNat_ofNat', decide_eq_true hop]
      exact ⟨Nat.mod_eq_of_lt (Nat.lt_of_not_le fun hge => hpast ⟨hop, hge⟩), rfl⟩
    · obtain ⟨h1, h2⟩ := cdb16_fields (.inr rfl) flags (UInt64.ofNat (lba + done)) (UInt32.ofNat n)
      rw [hcdb, if_neg hop, h1, h2, UInt64.toNat_ofNat', UInt32.toNat_ofNat', decide_eq_false hop]
      exact ⟨Nat.mod_eq_of_lt hlba, rfl⟩

/-- The chunk fits the count of the commands. -/
def FitsCount (ten : Bool) (chunk : Chunk) : Prop := chunk.1 < 2 ^ (if ten then 16 else 32)

/-- Before a turn of a loop, its commands cover the blocks that are done. -/
def Done (before : Port len) (lba done : Nat) (s : Port len) : Prop :=
  ∃ cs, s.sent = before.sent ++ cs ∧ Covered len lba done cs

theorem Done.start (p : Port len) (lba : Nat) : Done p lba 0 p :=
  ⟨[], by simp, fun c hc => (by cases hc), rfl⟩

theorem Done.next {before s t : Port len} {lba done n : Nat} {ten : Bool} {chunk : Chunk}
    (h : Done before lba done s) (hsends : Sends s t ten (lba + done) n (n * len))
    (hfits : FitsCount ten chunk) (hn : n ≤ chunk.1) : Done before lba (done + n) t := by
  obtain ⟨cs, hcs, hcovered⟩ := h
  obtain ⟨c, hc, hbytes, hlba, hcount⟩ := hsends
  rw [Nat.mod_eq_of_lt (Nat.lt_of_le_of_lt hn hfits)] at hcount
  exact ⟨cs ++ [c], by rw [hc, hcs, List.append_assoc], hcovered.snoc hbytes hlba hcount⟩

theorem Done.carries {before s : Port len} {lba done count : Nat} (h : Done before lba done s)
    (hle : done ≤ count) {ended : Prop} (hended : ended → done = count) :
    Carries before s lba count ended := by
  obtain ⟨cs, hcs, hcovered⟩ := h
  exact ⟨cs, done, hcs, hcovered, hle, hended⟩

end carries

/-! ## Reading -/

section reading

variable {len : Nat}

theorem bytes_length (lun : Lun len) (lba n : Nat) : (lun.bytes lba n).length = n * len := by
  unfold Lun.bytes
  rw [List.length_flatMap, List.map_congr_left (g := fun _ => len) (fun b _ => (lun b).2)]
  simp

theorem bytes_append (lun : Lun len) (lba m n : Nat) :
    lun.bytes lba (m + n) = lun.bytes lba m ++ lun.bytes (lba + m) n := by
  unfold Lun.bytes
  rw [← List.flatMap_append]
  congr 1
  simp

theorem resize_self (b : List UInt8) : resize b b.length = b := by
  simp [resize]

/-- A GOOD turn appends the bytes of its blocks, and no turn alters one. -/
theorem read_chunk.spec {ten : Bool} {lba done n : Nat} {s : List UInt8 × Port len}
    (hlba : lba + done < 2 ^ 64) (hn : n < 2 ^ (if ten then 16 else 32)) (hbytes : n * len < 2 ^ 32) :
    (read_chunk ten lba done n s).2.2.lun = s.2.lun ∧
      ((read_chunk ten lba done n s).1 = none →
        (read_chunk ten lba done n s).2.1 = s.1 ++ s.2.lun.bytes (lba + done) n) := by
  unfold read_chunk
  dsimp only
  by_cases hpast : ten = true ∧ 2 ^ 32 ≤ lba + done
  · rw [if_pos hpast]
    exact ⟨rfl, fun h => by cases h⟩
  rw [if_neg hpast]
  set cdb := if ten = true then cdb10 0x28 0 (UInt32.ofNat (lba + done)) (UInt16.ofNat n)
    else cdb16 0x88 0 (UInt64.ofNat (lba + done)) (UInt32.ofNat n) with hcdb
  have hfields : lba_field cdb = lba + done ∧ count_field cdb = n := by
    cases ten with
    | true =>
      obtain ⟨h1, h2⟩ := cdb10_fields (.inl rfl) 0 (UInt32.ofNat (lba + done)) (UInt16.ofNat n)
      rw [hcdb, if_pos rfl, h1, h2, UInt32.toNat_ofNat', UInt16.toNat_ofNat']
      exact ⟨Nat.mod_eq_of_lt (by simpa using hpast), Nat.mod_eq_of_lt hn⟩
    | false =>
      obtain ⟨h1, h2⟩ := cdb16_fields (.inl rfl) 0 (UInt64.ofNat (lba + done)) (UInt32.ofNat n)
      rw [hcdb, if_neg (by decide), h1, h2, UInt64.toNat_ofNat', UInt32.toNat_ofNat']
      exact ⟨Nat.mod_eq_of_lt hlba, Nat.mod_eq_of_lt hn⟩
  have hlun := command_read_lun s.2 cdb (n * len % 2 ^ 32)
  have hgood := @command_read_good _ s.2 cdb (n * len % 2 ^ 32)
  rcases hc : s.2.command cdb (n * len % 2 ^ 32) none with ⟨r, q⟩
  rw [hc] at hlun hgood
  cases r with
  | error text => exact ⟨hlun, fun h => by cases h⟩
  | ok o =>
    dsimp only
    split_ifs with hstatus
    · exact ⟨hlun, fun h => by cases h⟩
    · refine ⟨hlun, fun _ => ?_⟩
      have hdata := hgood rfl (by simpa using hstatus)
      rw [hfields.1, hfields.2, Nat.mod_eq_of_lt hbytes, ← bytes_length s.2.lun (lba + done) n,
        resize_self] at hdata
      show s.1 ++ o.data = _
      rw [hdata]

/-- Reading leaves the unit as it is and returns its blocks; its commands carry what they
transfer where the chunk fits their count. -/
theorem read_with.spec (p : Port len) {ten : Bool} {lba count : Nat} {chunk : Chunk}
    (hlba : lba + count ≤ 2 ^ 64) (hfits : FitsCount ten chunk) (hbytes : chunk.1 * len < 2 ^ 32) :
    (read_with p ten lba count chunk).2.lun = p.lun ∧
      (∀ out, (read_with p ten lba count chunk).1 = .ok out → out = p.lun.bytes lba count) ∧
      Carries p (read_with p ten lba count chunk).2 lba count
        (∃ out, (read_with p ten lba count chunk).1 = .ok out) := by
  have hturn : ∀ done n (s : List UInt8 × Port len), done < count → n ≤ chunk.1 →
      Done p lba done s.2 → (read_chunk ten lba done n s).2.2.lun = s.2.lun ∧
        ((read_chunk ten lba done n s).1 = none →
          (read_chunk ten lba done n s).2.1 = s.1 ++ s.2.lun.bytes (lba + done) n) ∧
        (read_chunk ten lba done n s = (some .read_past_32_bits, s) ∨
          Done p lba (done + n) (read_chunk ten lba done n s).2.2) := by
    intro done n s hlt hn hdone
    have haddr : lba + done < 2 ^ 64 := by omega
    have hlen : n * len < 2 ^ 32 := Nat.lt_of_le_of_lt (Nat.mul_le_mul_right len hn) hbytes
    obtain ⟨hlun, hdata⟩ := read_chunk.spec (s := s) haddr (Nat.lt_of_le_of_lt hn hfits) hlen
    refine ⟨hlun, hdata, (read_chunk.sent n haddr).imp And.right fun hsends => ?_⟩
    rw [Nat.mod_eq_of_lt hlen] at hsends
    exact hdone.next hsends hfits hn
  have hrule := @in_chunks.rule _ _ chunk count (read_chunk ten lba)
    (fun done s => s.2.lun = p.lun ∧ s.1 = p.lun.bytes lba done ∧ Done p lba done s.2)
    (fun s => s.2.lun = p.lun ∧ ∃ k ≤ count, Done p lba k s.2)
    (fun done n s s' hlt _ hn ⟨hlun, hout, hdone⟩ hstep => by
      obtain ⟨h1, h2, h3⟩ := hturn done n s hlt hn hdone
      rw [hstep] at h1 h2 h3
      refine ⟨h1.trans hlun, ?_, h3.resolve_left (by simp)⟩
      rw [h2 rfl, hout, hlun, bytes_append])
    (fun done n s e s' hlt hle hn ⟨hlun, _, hdone⟩ hstep => by
      obtain ⟨h1, -, h3⟩ := hturn done n s hlt hn hdone
      rw [hstep] at h1 h3
      refine ⟨h1.trans hlun, ?_⟩
      rcases h3 with heq | hnext
      · exact ⟨done, by omega, by rw [(Prod.mk.inj heq).2]; exact hdone⟩
      · exact ⟨done + n, hle, hnext⟩)
    0 ([], p) (Nat.zero_le _) ⟨rfl, rfl, Done.start p lba⟩
  unfold read_with
  rcases hloop : in_chunks chunk count (read_chunk ten lba) 0 ([], p) with ⟨_ | e, out, q⟩
  · obtain ⟨hlun, hout, hdone⟩ := hrule.1 _ hloop
    exact ⟨hlun, fun o ho => (Except.ok.inj ho).symm.trans hout, hdone.carries (Nat.le_refl _) fun _ => rfl⟩
  · obtain ⟨hlun, k, hk, hdone⟩ := hrule.2 _ _ hloop
    exact ⟨hlun, fun o ho => (by cases ho), hdone.carries hk fun ⟨o, ho⟩ => (by cases ho)⟩

end reading

/-! ## Writing -/

section writing

variable {len : Nat}

/-- A turn stores blocks inside its own only, and a GOOD turn all that its CDB names. -/
theorem write_chunk.spec {op flags : UInt8} {lba done n : Nat} (data : List UInt8) {s : Port len}
    (hlba : lba + done < 2 ^ 64) :
    (∀ b, b < lba + done ∨ lba + done + n ≤ b →
      (write_chunk op flags lba data done n s).2.lun b = s.lun b) ∧
    ((write_chunk op flags lba data done n s).1 = none →
      (write_chunk op flags lba data done n s).2.lun = s.lun.store (lba + done)
        (n % 2 ^ (if op = 0x2a then 16 else 32)) (slice data (done * len) (n * len))) := by
  unfold write_chunk
  dsimp only
  by_cases hpast : op = 0x2a ∧ 2 ^ 32 ≤ lba + done
  · rw [if_pos hpast]
    exact ⟨fun _ _ => rfl, fun h => by cases h⟩
  rw [if_neg hpast]
  set cdb := if op = 0x2a then cdb10 0x2a flags (UInt32.ofNat (lba + done)) (UInt16.ofNat n)
    else cdb16 0x8a flags (UInt64.ofNat (lba + done)) (UInt32.ofNat n) with hcdb
  have hfields : lba_field cdb = lba + done ∧
      count_field cdb = n % 2 ^ (if op = 0x2a then 16 else 32) := by
    by_cases hop : op = 0x2a
    · obtain ⟨h1, h2⟩ := cdb10_fields (.inr rfl) flags (UInt32.ofNat (lba + done)) (UInt16.ofNat n)
      rw [hcdb, if_pos hop, h1, h2, UInt32.toNat_ofNat', UInt16.toNat_ofNat', if_pos hop]
      exact ⟨Nat.mod_eq_of_lt (Nat.lt_of_not_le fun hge => hpast ⟨hop, hge⟩), rfl⟩
    · obtain ⟨h1, h2⟩ := cdb16_fields (.inr rfl) flags (UInt64.ofNat (lba + done)) (UInt32.ofNat n)
      rw [hcdb, if_neg hop, h1, h2, UInt64.toNat_ofNat', UInt32.toNat_ofNat', if_neg hop]
      exact ⟨Nat.mod_eq_of_lt hlba, rfl⟩
  have hframe := fun b => @command_write_frame _ s cdb 0 (some (slice data (done * len) (n * len))) b
  have hgood := @command_write_good _ s cdb 0 (slice data (done * len) (n * len))
  rcases hc : s.command cdb 0 (some (slice data (done * len) (n * len))) with ⟨r, q⟩
  rw [hc] at hframe hgood
  have hcount := Nat.mod_le n (2 ^ (if op = 0x2a then 16 else 32))
  have houtside : ∀ b, b < lba + done ∨ lba + done + n ≤ b → q.lun b = s.lun b :=
    fun b hb => hframe b (by rw [hfields.1, hfields.2]; omega)
  cases r with
  | error text => exact ⟨houtside, fun h => by cases h⟩
  | ok o =>
    refine ⟨houtside, fun h => ?_⟩
    have hstatus : o.status = 0 := by
      by_contra hne
      simp [hne] at h
    have hstore := hgood rfl hstatus
    rwa [hfields.1, hfields.2] at hstore

theorem blocks_of_mul_le (len : Nat) (data : List UInt8) : blocks_of len data * len ≤ data.length :=
  Nat.le_trans (Nat.mul_le_mul_right len (Nat.mod_le _ _)) (Nat.div_mul_le_self _ _)

/-- Whatever a write does, and however it ends, it is inside its own blocks. -/
theorem write_frame (p : Port len) (op flags : UInt8) {lba : Nat} {data : List UInt8} (chunk : Chunk)
    (hlba : lba + blocks_of len data ≤ 2 ^ 64) {b : Nat}
    (hb : b < lba ∨ lba + blocks_of len data ≤ b) :
    (write p op flags lba data chunk).2.lun b = p.lun b := by
  have hturn : ∀ done n (s : Port len), done < blocks_of len data → done + n ≤ blocks_of len data →
      (write_chunk op flags lba data done n s).2.lun b = s.lun b :=
    fun done n s hlt hle => (write_chunk.spec data (by omega)).1 b (by omega)
  have hrule := @in_chunks.rule _ _ chunk (blocks_of len data) (write_chunk op flags lba data)
    (fun _ s => s.lun b = p.lun b) (fun s => s.lun b = p.lun b)
    (fun done n s s' hlt hle _ h hstep => by
      have := hturn done n s hlt hle
      rw [hstep] at this
      exact this.trans h)
    (fun done n s e s' hlt hle _ h hstep => by
      have := hturn done n s hlt hle
      rw [hstep] at this
      exact this.trans h)
    0 p (Nat.zero_le _) rfl
  unfold write
  rcases hloop : in_chunks chunk (blocks_of len data) (write_chunk op flags lba data) 0 p with
    ⟨_ | e, q⟩
  · exact hrule.1 _ hloop
  · exact hrule.2 _ _ hloop

/-- A write that ends well stored all of its data; its commands carry what they transfer
where the chunk fits their count. -/
theorem write.spec (p : Port len) {op flags : UInt8} {lba : Nat} {data : List UInt8} {chunk : Chunk}
    (hlba : lba + blocks_of len data ≤ 2 ^ 64) (hfits : FitsCount (op = 0x2a) chunk) :
    ((write p op flags lba data chunk).1 = .ok () → ∀ b, lba ≤ b → b < lba + blocks_of len data →
      ((write p op flags lba data chunk).2.lun b).1 = slice data ((b - lba) * len) len) ∧
    Carries p (write p op flags lba data chunk).2 lba (blocks_of len data)
      ((write p op flags lba data chunk).1 = .ok ()) := by
  have hdata : ∀ k, k ≤ blocks_of len data → k * len ≤ data.length := fun k hk =>
    Nat.le_trans (Nat.mul_le_mul_right len hk) (blocks_of_mul_le len data)
  have hnext : ∀ done n (s : Port len), done < blocks_of len data → done + n ≤ blocks_of len data →
      n ≤ chunk.1 → Done p lba done s →
      write_chunk op flags lba data done n s = (some .write_past_32_bits, s) ∨
        Done p lba (done + n) (write_chunk op flags lba data done n s).2 :=
    fun done n s hlt hle hn hdone => (write_chunk.sent (by omega) (hdata _ hle)).imp_right
      fun hsends => hdone.next hsends hfits hn
  have hrule := @in_chunks.rule _ _ chunk (blocks_of len data) (write_chunk op flags lba data)
    (fun done s => (∀ b, lba ≤ b → b < lba + done → (s.lun b).1 = slice data ((b - lba) * len) len) ∧
      Done p lba done s)
    (fun s => ∃ k ≤ blocks_of len data, Done p lba k s)
    (fun done n s s' hlt hle hn ⟨hlun, hdone⟩ hstep => by
      obtain ⟨hframe, hstore⟩ := @write_chunk.spec _ op flags lba done n data s (by omega)
      have hsent := hnext done n s hlt hle hn hdone
      rw [hstep] at hframe hstore hsent
      refine ⟨fun b hb hlt' => ?_, hsent.resolve_left (by simp)⟩
      by_cases hold : b < lba + done
      · rw [hframe b (.inl hold)]
        exact hlun b hb hold
      · have hcount : n % 2 ^ (if op = 0x2a then 16 else 32) = n := by
          refine Nat.mod_eq_of_lt (Nat.lt_of_le_of_lt hn ?_)
          simpa [FitsCount] using hfits
        -- the block is one of this turn's, whose data are a slice of the whole
        obtain ⟨i, rfl⟩ := Nat.exists_eq_add_of_le (Nat.le_of_not_lt hold)
        have hinside : (lba + done + i - (lba + done)) * len + len ≤
            (slice data (done * len) (n * len)).length := by
          rw [slice_length (by rw [← Nat.add_mul]; exact hdata _ hle), Nat.add_sub_cancel_left,
            ← Nat.succ_mul]
          exact Nat.mul_le_mul_right len (by omega)
        rw [hstore rfl, hcount, Lun.store_block _ (by omega) (by omega) hinside]
        rw [slice_length (by rw [← Nat.add_mul]; exact hdata _ hle)] at hinside
        rw [slice_slice _ hinside, ← Nat.add_mul]
        congr 2
        omega)
    (fun done n s e s' hlt hle hn ⟨_, hdone⟩ hstep => by
      have hsent := hnext done n s hlt hle hn hdone
      rw [hstep] at hsent
      rcases hsent with heq | hsent
      · exact ⟨done, by omega, by rw [(Prod.mk.inj heq).2]; exact hdone⟩
      · exact ⟨done + n, hle, hsent⟩)
    0 p (Nat.zero_le _) ⟨fun b hb hlt => by omega, Done.start p lba⟩
  unfold write
  rcases hloop : in_chunks chunk (blocks_of len data) (write_chunk op flags lba data) 0 p with
    ⟨_ | e, q⟩
  · obtain ⟨hlun, hdone⟩ := hrule.1 _ hloop
    exact ⟨fun _ => hlun, hdone.carries (Nat.le_refl _) fun _ => rfl⟩
  · obtain ⟨k, hk, hdone⟩ := hrule.2 _ _ hloop
    exact ⟨fun h => (by cases h), hdone.carries hk fun h => (by cases h)⟩

end writing

/-! ## The chunk and the window -/

theorem chunk_blocks_le (bl : Nat) (limit : Option Nat) (bytes : Option UInt32) :
    chunk_blocks bl limit bytes ≤ max (2 ^ 20 / bl) 1 := by
  unfold chunk_blocks
  dsimp only
  have hlimit : (match limit.filter (0 < ·) with
      | some l => min (max (2 ^ 20 / bl) 1) l
      | none => max (2 ^ 20 / bl) 1) ≤ max (2 ^ 20 / bl) 1 := by
    split
    · exact Nat.min_le_left _ _
    · exact Nat.le_refl _
  cases bytes with
  | none => exact hlimit
  | some b => exact Nat.le_trans (Nat.min_le_left _ _) hlimit

/-- The chunk fits 16 bits by the block length, by the Block Limits or by the transport. -/
theorem chunk_blocks_lt_iff {bl : Nat} (hbl : 0 < bl) (limit : Option Nat) (bytes : Option UInt32) :
    chunk_blocks bl limit bytes < 2 ^ 16 ↔ 17 ≤ bl ∨ (∃ l, limit = some l ∧ 0 < l ∧ l < 2 ^ 16) ∨
      ∃ b, bytes = some b ∧ b.toNat / bl < 2 ^ 16 := by
  have hmib : max (2 ^ 20 / bl) 1 < 2 ^ 16 ↔ 17 ≤ bl := by
    rw [max_lt_iff, Nat.div_lt_iff_lt_mul hbl]
    omega
  have hlimit : (match limit.filter (0 < ·) with
      | some l => min (max (2 ^ 20 / bl) 1) l
      | none => max (2 ^ 20 / bl) 1) < 2 ^ 16 ↔
      17 ≤ bl ∨ ∃ l, limit = some l ∧ 0 < l ∧ l < 2 ^ 16 := by
    cases limit with
    | none => simpa using hmib
    | some l =>
      by_cases hl : 0 < l
      · simp only [Option.filter_some, hl, decide_true, if_true, min_lt_iff, hmib, Option.some.injEq,
          exists_eq_left', true_and]
      · simp only [Option.filter_some, hl, decide_false, Bool.false_eq_true, if_false, hmib,
          Option.some.injEq, exists_eq_left', false_and, or_false]
  unfold chunk_blocks
  cases bytes with
  | none => simpa [or_assoc] using hlimit
  | some b =>
    have hbytes : max (b.toNat / bl) 1 < 2 ^ 16 ↔ b.toNat / bl < 2 ^ 16 := by omega
    simp only [min_lt_iff, hlimit, hbytes, or_assoc, Option.some.injEq, exists_eq_left']

theorem chunk_bytes {disk : Disk} (p : Port disk.len) : (chunk p disk).1 * disk.len < 2 ^ 32 := by
  have hle := chunk_blocks_le (max disk.len 1) disk.max_transfer p.max_transfer
  have hlen := disk.block_len.toNat_lt
  have hmib : 2 ^ 20 / max disk.len 1 * max disk.len 1 ≤ 2 ^ 20 := Nat.div_mul_le_self _ _
  have hmul : (chunk p disk).1 * disk.len ≤ max (2 ^ 20 / max disk.len 1) 1 * max disk.len 1 :=
    Nat.mul_le_mul hle (Nat.le_max_left _ _)
  have hlt : disk.len < 2 ^ 32 := hlen
  rcases Nat.le_total (2 ^ 20 / max disk.len 1) 1 with hone | hmore
  · rw [Nat.max_eq_right hone, Nat.one_mul] at hmul
    omega
  · rw [Nat.max_eq_left hmore] at hmul
    omega

/-- The blocks of the window. -/
def window_blocks (disk : Disk) : Nat := max (RUN_BYTES / max disk.len 1) COMMANDS

theorem window_blocks_lt (disk : Disk) : window_blocks disk < 2 ^ 32 := by
  have := Nat.div_le_self RUN_BYTES (max disk.len 1)
  unfold window_blocks RUN_BYTES COMMANDS at *
  omega

theorem chunk_le_window {disk : Disk} (p : Port disk.len) : (chunk p disk).1 ≤ window_blocks disk := by
  have hle := chunk_blocks_le (max disk.len 1) disk.max_transfer p.max_transfer
  have hdiv : 2 ^ 20 / max disk.len 1 ≤ RUN_BYTES / max disk.len 1 :=
    Nat.div_le_div_right (by decide)
  show chunk_blocks (max disk.len 1) disk.max_transfer p.max_transfer ≤ max _ 1000
  omega

/-- What a window that was saved is. -/
theorem Scratch.save.spec {disk : Disk} {p q : Port disk.len} {w : Scratch disk.len}
    (h : Scratch.save disk p = (.ok w, q)) :
    w.blocks = window_blocks disk ∧ 2 * w.blocks ≤ disk.last_lba.toNat - 2 ∧
      w.start = disk.last_lba.toNat - 2 - w.blocks ∧ w.chunk = scratch_region.chunk p disk ∧
      w.original = p.lun.bytes w.start w.blocks ∧ q.lun = p.lun := by
  unfold Scratch.save at h
  dsimp only at h
  split_ifs at h with hsmall
  · cases h
  have hread := @read_with.spec _ p false
    (disk.last_lba.toNat - 2 - max (RUN_BYTES / max disk.len 1) COMMANDS)
    (max (RUN_BYTES / max disk.len 1) COMMANDS) (scratch_region.chunk p disk)
    (by have := disk.last_lba.toNat_lt; omega)
    (Nat.lt_of_le_of_lt (chunk_le_window p) (window_blocks_lt disk)) (chunk_bytes p)
  rcases hr : read_with p false (disk.last_lba.toNat - 2 - max (RUN_BYTES / max disk.len 1) COMMANDS)
    (max (RUN_BYTES / max disk.len 1) COMMANDS) (scratch_region.chunk p disk) with ⟨e | original, s⟩
  · rw [hr] at h
    cases h
  · rw [hr] at h hread
    cases h
    exact ⟨rfl, Nat.le_of_not_lt hsmall, rfl, rfl, hread.2.1 original rfl, hread.1⟩

/-! ## The laws -/

/-- A call of `write`. -/
structure WriteCall where
  op : UInt8
  flags : UInt8
  lba : Nat
  data : List UInt8
  chunk : Chunk

/-- Writes one after the other, however each of them ends. -/
def writes {len : Nat} (s : Port len) (calls : List WriteCall) : Port len :=
  calls.foldl (fun s c => (write s c.op c.flags c.lba c.data c.chunk).2) s

/-- The call writes blocks of the window only. -/
def Scratch.Confines {len : Nat} (w : Scratch len) (c : WriteCall) : Prop :=
  w.start ≤ c.lba ∧ c.lba + blocks_of len c.data ≤ w.start + w.blocks

/-- The window is below the last three blocks, and restoring it makes the unit what it was
before it was saved: after any sequence of writes inside it, and more generally whatever
has become of its blocks and of the nexus. -/
structure Kept (disk : Disk) (p q : Port disk.len) (w : Scratch disk.len) : Prop where
  inside : w.start + w.blocks + 3 ≤ disk.last_lba.toNat + 1
  saved : q.lun = p.lun
  written : ∀ calls : List WriteCall, (∀ c ∈ calls, w.Confines c) → ∀ r,
    w.restore (writes q calls) = (.ok (), r) → r.lun = p.lun
  restored : ∀ s : Port disk.len, (∀ b, b < w.start ∨ w.start + w.blocks ≤ b → s.lun b = p.lun b) →
    ∀ r, w.restore s = (.ok (), r) → r.lun = p.lun

/-- Every transfer of at most as many blocks as the window, inside the unit and in chunks
of the window's, sends commands that carry the counts and lengths they transfer and that
cover its blocks in order, each once, and all of them if it ends well. -/
structure Exact (disk : Disk) (w : Scratch disk.len) : Prop where
  reads : ∀ (s : Port disk.len) ten lba count, count ≤ w.blocks → lba + count ≤ disk.last_lba.toNat + 1 →
    Carries s (read_with s ten lba count w.chunk).2 lba count
      (∃ out, (read_with s ten lba count w.chunk).1 = .ok out)
  writes : ∀ (s : Port disk.len) op flags lba data, blocks_of disk.len data ≤ w.blocks →
    lba + blocks_of disk.len data ≤ disk.last_lba.toNat + 1 →
    Carries s (write s op flags lba data w.chunk).2 lba (blocks_of disk.len data)
      ((write s op flags lba data w.chunk).1 = .ok ())

/-- A chunk fits 16 bits: blocks of 17 bytes or more, or a MAXIMUM TRANSFER LENGTH below
2^16 blocks, or a transport that carries less than 2^16 blocks. -/
def Narrow (disk : Disk) (p : Port disk.len) : Prop :=
  17 ≤ disk.len ∨ (∃ l, disk.max_transfer = some l ∧ 0 < l ∧ l < 2 ^ 16) ∨
    ∃ b, p.max_transfer = some b ∧ b.toNat / disk.len < 2 ^ 16

section laws

variable {disk : Disk} {p q : Port disk.len} {w : Scratch disk.len}

theorem chunk_lt_iff (hlen : 0 < disk.len) : (chunk p disk).1 < 2 ^ 16 ↔ Narrow disk p := by
  have hmax : max disk.len 1 = disk.len := Nat.max_eq_left hlen
  show chunk_blocks (max disk.len 1) disk.max_transfer p.max_transfer < 2 ^ 16 ↔ _
  rw [hmax]
  exact chunk_blocks_lt_iff hlen _ _

/-- A block of the bytes of blocks. -/
theorem slice_bytes {len : Nat} (lun : Lun len) {lba n b : Nat} (hle : lba ≤ b) (hlt : b < lba + n) :
    slice (lun.bytes lba n) ((b - lba) * len) len = (lun b).1 := by
  obtain ⟨i, rfl⟩ := Nat.exists_eq_add_of_le hle
  obtain ⟨k, rfl⟩ : ∃ k, n = i + (1 + k) := ⟨n - i - 1, by omega⟩
  have hblock : lun.bytes (lba + i) 1 = (lun (lba + i)).1 := by simp [Lun.bytes]
  rw [bytes_append, bytes_append, hblock, Nat.add_sub_cancel_left, ← List.append_assoc]
  exact slice_middle (bytes_length _ _ _) (lun (lba + i)).2

theorem restored (hlen : 0 < disk.len) (h : Scratch.save disk p = (.ok w, q)) {s r : Port disk.len}
    (hs : ∀ b, b < w.start ∨ w.start + w.blocks ≤ b → s.lun b = p.lun b)
    (hr : w.restore s = (.ok (), r)) : r.lun = p.lun := by
  obtain ⟨hblocks, hsmall, hstart, hchunk, horiginal, -⟩ := Scratch.save.spec h
  have hlast := disk.last_lba.toNat_lt
  have hwindow := window_blocks_lt disk
  have hcount : blocks_of disk.len w.original = w.blocks := by
    unfold blocks_of
    rw [horiginal, bytes_length, Nat.mul_div_cancel _ hlen, Nat.mod_eq_of_lt (by omega)]
  have hfits : FitsCount ((0x8a : UInt8) = 0x2a) w.chunk := by
    rw [hchunk]
    exact Nat.lt_of_le_of_lt (chunk_le_window p) hwindow
  have hrestore : write s 0x8a 0 w.start w.original w.chunk = (.ok (), r) := hr
  have hspec := (@write.spec _ s 0x8a 0 w.start w.original w.chunk (by omega) hfits).1
  have hframe := fun b => @write_frame _ s 0x8a 0 w.start w.original w.chunk (by omega) b
  rw [hrestore, hcount] at hspec
  rw [hrestore, hcount] at hframe
  funext b
  by_cases hb : w.start ≤ b ∧ b < w.start + w.blocks
  · apply Subtype.ext
    rw [hspec rfl b hb.1 hb.2, horiginal]
    exact slice_bytes _ hb.1 hb.2
  · rw [hframe b (by omega), hs b (by omega)]

theorem writes_frame {len : Nat} {w : Scratch len} {calls : List WriteCall} (s : Port len)
    (hlast : w.start + w.blocks ≤ 2 ^ 64) (hcalls : ∀ c ∈ calls, w.Confines c) {b : Nat}
    (hb : b < w.start ∨ w.start + w.blocks ≤ b) : (writes s calls).lun b = s.lun b := by
  induction calls generalizing s with
  | nil => rfl
  | cons c calls ih =>
    obtain ⟨hle, hfits⟩ := hcalls c (by simp)
    show (writes (write s c.op c.flags c.lba c.data c.chunk).2 calls).lun b = _
    rw [ih _ fun d hd => hcalls d (by simp [hd])]
    exact write_frame s c.op c.flags c.chunk (by omega) (by omega)

theorem kept (hlen : 0 < disk.len) (h : Scratch.save disk p = (.ok w, q)) : Kept disk p q w := by
  obtain ⟨hblocks, hsmall, hstart, -, -, hlun⟩ := Scratch.save.spec h
  have hlast := disk.last_lba.toNat_lt
  have hpos : 1000 ≤ w.blocks := hblocks ▸ Nat.le_max_right _ _
  refine ⟨by omega, hlun, fun calls hcalls r hr => ?_, fun s hs r hr => restored hlen h hs hr⟩
  refine restored hlen h (fun b hb => ?_) hr
  rw [writes_frame q (by omega) hcalls hb, hlun]

theorem exact_of_narrow (hlen : 0 < disk.len) (h : Scratch.save disk p = (.ok w, q))
    (hnarrow : Narrow disk p) : Exact disk w := by
  obtain ⟨hblocks, -, -, hchunk, -, -⟩ := Scratch.save.spec h
  have hlast := disk.last_lba.toNat_lt
  have hlt := (chunk_lt_iff hlen).mpr hnarrow
  have hfits : ∀ ten, FitsCount ten w.chunk := by
    intro ten
    rw [hchunk]
    cases ten with
    | true => exact hlt
    | false => exact Nat.lt_trans hlt (by decide)
  exact ⟨fun s ten lba count _ hinside =>
      (read_with.spec s (by omega) (hfits ten) (hchunk ▸ chunk_bytes p)).2.2,
    fun s op flags lba data _ hinside => (write.spec s (by omega) (hfits _)).2⟩

/-- A loop of one chunk is one turn. -/
theorem in_chunks_one {σ ε : Type} (chunk : Chunk) (step : Nat → Nat → σ → Option ε × σ) (s : σ) :
    in_chunks chunk chunk.1 step 0 s = step 0 chunk.1 s := by
  rw [in_chunks, if_pos chunk.2, Nat.sub_zero, Nat.min_self]
  dsimp only
  rcases step 0 chunk.1 s with ⟨_ | e, t⟩
  · dsimp only
    rw [Nat.zero_add, in_chunks, if_neg (Nat.lt_irrefl _)]
  · rfl

/-- One READ (10) of a whole chunk shows whether the chunk has 16 bits. -/
theorem narrow_of_exact (hlen : 0 < disk.len) (h : Scratch.save disk p = (.ok w, q))
    (hexact : Exact disk w) : Narrow disk p := by
  obtain ⟨hblocks, hsmall, -, hchunk, -, -⟩ := Scratch.save.spec h
  have hle : w.chunk.1 ≤ w.blocks := by
    rw [hchunk, hblocks]
    exact chunk_le_window p
  obtain ⟨cs, k, hcs, hcovered, -, -⟩ := hexact.reads p true 0 w.chunk.1 hle (by omega)
  have hone : (read_with p true 0 w.chunk.1 w.chunk).2 = (read_chunk true 0 0 w.chunk.1 ([], p)).2.2 := by
    unfold read_with
    rw [in_chunks_one]
    rcases read_chunk true 0 0 w.chunk.1 ([], p) with ⟨_ | e, out, s⟩ <;> rfl
  have hbytes : w.chunk.1 * disk.len < 2 ^ 32 := hchunk ▸ chunk_bytes p
  rcases @read_chunk.sent _ true 0 0 w.chunk.1 ([], p) (by decide) with ⟨hpast, -⟩ | ⟨c, hc, hread, -, hcount⟩
  · exact absurd hpast (by decide)
  · rw [hone, hc] at hcs
    obtain rfl : [c] = cs := List.append_cancel_left hcs
    have heq := hcovered.exact c (by simp)
    rw [hread, hcount, Nat.mod_eq_of_lt hbytes] at heq
    have hcancel := Nat.eq_of_mul_eq_mul_right hlen heq
    rw [← chunk_lt_iff hlen, ← hchunk, hcancel]
    exact Nat.mod_lt _ (by decide)

theorem exact_iff (hlen : 0 < disk.len) (h : Scratch.save disk p = (.ok w, q)) :
    Exact disk w ↔ Narrow disk p :=
  ⟨narrow_of_exact hlen h, exact_of_narrow hlen h⟩

/-- Over a nexus whose every command ends with GOOD, a window that has room is saved. -/
theorem save_of_good (hgood : ∀ i, p.answers i = .good)
    (hroom : 2 * window_blocks disk ≤ disk.last_lba.toNat - 2) :
    ∃ w q, Scratch.save disk p = (.ok w, q) := by
  have hturn : ∀ lba done n (s : List UInt8 × Port disk.len), (∀ i, s.2.answers i = .good) →
      (read_chunk false lba done n s).1 = none ∧
        ∀ i, (read_chunk false lba done n s).2.2.answers i = .good := by
    intro lba done n s hs
    simp [read_chunk, Port.command, hs]
  have hloop : ∀ lba count, ∃ out q, read_with p false lba count (chunk p disk) = (.ok out, q) := by
    intro lba count
    have hrule := @in_chunks.rule _ _ (chunk p disk) count (read_chunk false lba)
      (fun _ s => ∀ i, s.2.answers i = .good) (fun _ => False)
      (fun done n s s' _ _ _ hs hstep => by
        have := (hturn lba done n s hs).2
        rwa [hstep] at this)
      (fun done n s e s' _ _ _ hs hstep => by
        have := (hturn lba done n s hs).1
        rw [hstep] at this
        cases this)
      0 ([], p) (Nat.zero_le _) hgood
    unfold read_with
    rcases hr : in_chunks (chunk p disk) count (read_chunk false lba) 0 ([], p) with ⟨_ | e, out, q⟩
    · exact ⟨out, q, rfl⟩
    · exact (hrule.2 _ _ hr).elim
  unfold window_blocks at hroom
  unfold Scratch.save
  dsimp only
  rw [if_neg (Nat.not_lt.mpr hroom)]
  obtain ⟨out, q, hr⟩ := hloop (disk.last_lba.toNat - 2 - max (RUN_BYTES / max disk.len 1) COMMANDS)
    (max (RUN_BYTES / max disk.len 1) COMMANDS)
  rw [hr]
  exact ⟨_, q, rfl⟩

/-- The law of the window that was saved: the blocks of the unit survive it, and the
commands of its transfers carry what they transfer exactly when a chunk has 16 bits. -/
theorem the_window_is_restored_and_its_commands_are_exact_when_a_chunk_is_narrow
    (hlen : 0 < disk.len) (h : Scratch.save disk p = (.ok w, q)) :
    Kept disk p q w ∧ (Exact disk w ↔ Narrow disk p) :=
  ⟨kept hlen h, exact_iff hlen h⟩

end laws

/-- A unit of zeros behind an iSCSI session, which limits no transfer. -/
def zeros (disk : Disk) : Port disk.len :=
  { lun := fun _ => Block.zero disk.len, max_transfer := none, answers := fun _ => .good, sent := [] }

def disk_of (block_len : UInt32) : Disk := { block_len, last_lba := 3000000, vpd := [] }

theorem a_window_of_512_byte_blocks :
    ∃ w q, Scratch.save (disk_of 512) (zeros (disk_of 512)) = (.ok w, q) ∧ Kept (disk_of 512) (zeros (disk_of 512)) q w ∧
      (Exact (disk_of 512) w ↔ Narrow (disk_of 512) (zeros (disk_of 512))) := by
  obtain ⟨w, q, h⟩ := @save_of_good (disk_of 512) (zeros (disk_of 512)) (fun _ => rfl) (by decide)
  exact ⟨w, q, h, the_window_is_restored_and_its_commands_are_exact_when_a_chunk_is_narrow (by decide) h⟩

/-- With blocks of 16 bytes a chunk has 65536 of them, and the first READ (10) of the
window names none and asks for 2^20 bytes. -/
theorem a_chunk_of_65536_blocks_has_no_count :
    ∃ w q, Scratch.save (disk_of 16) (zeros (disk_of 16)) = (.ok w, q) ∧ w.chunk.1 = 65536 ∧ ¬Exact (disk_of 16) w ∧
      ∃ c : Command, (read_chunk true w.start 0 w.chunk.1 ([], q)).2.2.sent = q.sent ++ [c] ∧
        count_field c.cdb = 0 ∧ c.bytes = 2 ^ 20 := by
  obtain ⟨w, q, h⟩ := @save_of_good (disk_of 16) (zeros (disk_of 16)) (fun _ => rfl) (by decide)
  obtain ⟨hblocks, -, hstart, hchunk, -, -⟩ := Scratch.save.spec h
  have hchunk' : w.chunk.1 = 65536 := by rw [hchunk]; decide
  have hstart' : w.start = 2213566 := by rw [hstart, hblocks]; decide
  refine ⟨w, q, h, hchunk', ?_, ?_⟩
  · rw [exact_iff (by decide) h, ← chunk_lt_iff (by decide), ← hchunk, hchunk']
    decide
  · rcases @read_chunk.sent _ true w.start 0 w.chunk.1 ([], q) (by omega) with ⟨hpast, -⟩ | ⟨c, hc, hread, -, hcount⟩
    · omega
    · rw [hchunk'] at hread hcount
      exact ⟨c, hc, hcount, hread⟩

end stutools.scratch_region
