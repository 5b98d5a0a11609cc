-- How a request of the pool is addressed on the wire: the SCSI READ(10) or
-- WRITE(10) in its command PDU, and the NVMe read or write in its queue
-- entry. Each is decoded by the fixed layout of the command and compared with
-- the request.
import Stutools.IscsiPdu
import Stutools.Sqe
import Stutools.Texts

open bytes texts

namespace stutools

/-! ## The request in blocks -/

/-- The request in blocks of the namespace, if 32 bits hold their number. -/
def io_of (req : Request) (block : Nat) : Option Io :=
  if req.len / block < 2 ^ 32 then
    some { write := req.write, lba := req.offset / block, blocks := req.len / block }
  else none

/-- The requests `drive` goes on with: aligned to the blocks of the namespace,
which have at least one byte (a remainder by zero panics), and counted in 32
bits. -/
def drive_io (req : Request) (block : Nat) : Option Io :=
  if 0 < block ∧ req.offset % block = 0 ∧ req.len % block = 0 then io_of req block else none

theorem drive_io_some {req : Request} {block : Nat} {io : Io} (h : drive_io req block = some io) :
    io = ⟨req.write, req.offset / block, req.len / block⟩ ∧ 0 < block := by
  unfold drive_io io_of at h
  split at h
  · rename_i hb
    split at h
    · exact ⟨(Option.some.inj h).symm, hb.1⟩
    · cases h
  · cases h

/-- What a command on the wire asks for, by the layout of its fields. -/
structure Wire where
  write : Bool
  /-- The LUN, or the namespace ID. -/
  unit : Nat
  lba : Nat
  blocks : Nat
  /-- The expected data transfer length, or the length of the SGL. -/
  len : Nat
deriving DecidableEq, Repr

/-- What the command of a request must ask for. -/
def Request.wire (req : Request) (unit block : Nat) : Wire :=
  { write := req.write
    unit
    lba := req.offset / block
    blocks := req.len / block
    len := req.len }

namespace iscsi

/-- `path::Path`: the portal, the target name and the logical unit. -/
structure Path where
  portal : List Char
  target : List Char
  lun : UInt16
deriving DecidableEq

/-- `str::parse::<u16>`: decimal digits after an optional plus sign. -/
def parse_u16 (text : List Char) : Option UInt16 :=
  let digits := if text.head? = some '+' then text.tail else text
  let n := digits.foldl (fun n c => 10 * n + (c.toNat - '0'.toNat)) 0
  if digits ≠ [] ∧ digits.all Char.isDigit ∧ n < 2 ^ 16 then some (UInt16.ofNat n) else none

/-- Parses `HOST[:PORT]/IQN[/LUN]`. -/
def parse_path (text : List Char) : Option Path := do
  let (portal, rest) ← split_once (· == '/') text
  let (target, lun) ← match split_once (· == '/') rest with
    | some (target, lun) => (parse_u16 lun).map fun lun => (target, lun)
    | none => some (rest, 0)
  if portal = [] ∨ ¬ ['i', 'q', 'n', '.'] <+: target then none
  else some { portal, target, lun }

/-- The 8-byte LUN field of a PDU: peripheral device addressing below 256, flat
space addressing above. -/
def Path.lun_field (p : Path) : UInt64 :=
  let first_level := if p.lun < 256 then p.lun else 0x4000 ||| (p.lun &&& 0x3fff)
  first_level.toUInt64 <<< 48

/-- `scsi::block_cdb`: a READ(10) or WRITE(10). -/
def block_cdb (opcode : UInt8) (lba blocks : Nat) : List UInt8 :=
  [opcode, 0] ++ be 4 lba ++ [0] ++ be 2 blocks ++ [0]

/-- `Transport::check`: what READ(10) and WRITE(10) can express. -/
def check (io : Io) : Bool := decide (io.lba < 2 ^ 32) && decide (io.blocks < 2 ^ 16)

/-- The SCSI command that `submit` sends on a session for the path. -/
def command (p : Path) (itt cmd_sn exp_stat_sn : UInt32) (io : Io) (len : Nat) : ScsiCommand :=
  { lun := p.lun_field
    itt, cmd_sn, exp_stat_sn
    cdb := block_cdb (if io.write then 0x2a else 0x28) (io.lba % 2 ^ 32) (io.blocks % 2 ^ 16)
    read := !io.write && decide (0 < len)
    write := io.write
    expected := UInt32.ofNat len }

/-- The LUN of a LUN field: its first level, by its addressing method. -/
def decode_lun (field : Nat) : Option Nat :=
  match field / 2 ^ 62 with
  | 0 => some (field / 2 ^ 48 % 2 ^ 8)
  | 1 => some (field / 2 ^ 48 % 2 ^ 14)
  | _ => none

/-- Whether an operation code is that of WRITE(10) or of READ(10). -/
def decode_op : List UInt8 → Option Bool
  | [0x28] => some false
  | [0x2a] => some true
  | _ => none

theorem decode_op_of (write : Bool) : decode_op [if write then 0x2a else 0x28] = some write := by
  cases write <;> rfl

/-- A READ(10) or WRITE(10) command PDU by the layout of its fields. -/
def decode (bhs : Bhs) : Option Wire := do
  let unit ← decode_lun (of_be (bhs.field 8 8))
  let write ← decode_op (bhs.field 32 1)
  return {
    write, unit
    lba := of_be (bhs.field 34 4)
    blocks := of_be (bhs.field 39 2)
    len := of_be (bhs.field 20 4) }

/-! ## The fields of the command -/

theorem lun_field_toNat (p : Path) :
    p.lun_field.toNat =
      (if p.lun.toNat < 256 then p.lun.toNat else 2 ^ 14 + p.lun.toNat % 2 ^ 14) * 2 ^ 48 := by
  have hlun : p.lun.toNat < 2 ^ 16 := p.lun.toNat_lt
  have hflat : (0x4000 ||| (p.lun &&& 0x3fff)).toNat = 2 ^ 14 + p.lun.toNat % 2 ^ 14 := by
    have hand : p.lun.toNat &&& 0x3fff = p.lun.toNat % 2 ^ 14 := Nat.and_two_pow_sub_one_eq_mod _ 14
    have hor := Nat.two_pow_add_eq_or_of_lt (i := 14) (b := p.lun.toNat % 2 ^ 14)
      (Nat.mod_lt _ (by decide)) 1
    rw [UInt16.toNat_or, UInt16.toNat_and]
    exact (congrArg (0x4000 ||| ·) hand).trans hor.symm
  have hlevel : ∀ x : UInt16, (x.toUInt64 <<< 48).toNat = x.toNat * 2 ^ 48 := by
    intro x
    have hx : x.toNat < 2 ^ 16 := x.toNat_lt
    rw [UInt64.toNat_shiftLeft, UInt16.toNat_toUInt64, Nat.shiftLeft_eq]
    exact Nat.mod_eq_of_lt (by simpa using by omega)
  unfold Path.lun_field
  rw [hlevel]
  by_cases h : p.lun.toNat < 256
  · have h' : p.lun < 256 := UInt16.lt_iff_toNat_lt.mpr h
    rw [if_pos h', if_pos h]
  · have h' : ¬ p.lun < 256 := fun hc => h (UInt16.lt_iff_toNat_lt.mp hc)
    rw [if_neg h', if_neg h, hflat]

/-- A LUN from 16384 on is sent as one of the LUNs below. -/
theorem decode_lun_field (p : Path) :
    decode_lun p.lun_field.toNat =
      some (if p.lun.toNat < 256 then p.lun.toNat else p.lun.toNat % 2 ^ 14) := by
  rw [lun_field_toNat]
  unfold decode_lun
  by_cases h : p.lun.toNat < 256
  · have hmethod : p.lun.toNat * 2 ^ 48 / 2 ^ 62 = 0 := by omega
    have hlevel : p.lun.toNat * 2 ^ 48 / 2 ^ 48 % 2 ^ 8 = p.lun.toNat := by omega
    simp only [if_pos h, hmethod, hlevel]
  · have hmethod : (2 ^ 14 + p.lun.toNat % 2 ^ 14) * 2 ^ 48 / 2 ^ 62 = 1 := by omega
    have hlevel : (2 ^ 14 + p.lun.toNat % 2 ^ 14) * 2 ^ 48 / 2 ^ 48 % 2 ^ 14 =
        p.lun.toNat % 2 ^ 14 := by omega
    simp only [if_neg h, hmethod, hlevel]

theorem decode_lun_eq_iff (p : Path) :
    decode_lun p.lun_field.toNat = some p.lun.toNat ↔ p.lun.toNat < 2 ^ 14 := by
  rw [decode_lun_field, Option.some_inj]
  split
  · omega
  · omega

section command

variable {p : Path} {itt cmd_sn exp_stat_sn : UInt32} {io : Io} {len : Nat}

/-- Where the command PDU has its LUN, its expected length and its CDB. -/
theorem command_encode :
    ∃ bhs, (command p itt cmd_sn exp_stat_sn io len).encode = some bhs ∧
      bhs.field 8 8 = be 8 p.lun_field.toNat ∧
      bhs.field 20 4 = to_be_bytes (UInt32.ofNat len) ∧
      bhs.field 32 1 = [if io.write then 0x2a else 0x28] ∧
      bhs.field 34 4 = be 4 (io.lba % 2 ^ 32) ∧
      bhs.field 39 2 = be 2 (io.blocks % 2 ^ 16) := by
  have hcdb : (command p itt cmd_sn exp_stat_sn io len).cdb.take 16 =
      block_cdb (if io.write then 0x2a else 0x28) (io.lba % 2 ^ 32) (io.blocks % 2 ^ 16) :=
    List.take_of_length_le (by simp [command, block_cdb])
  refine ⟨_, if_neg ?_, ?_, ?_, ?_, ?_, ?_⟩
  · simp [command, block_cdb, MAX_CDB]
  · iterate 5 rw [Block.field_put_left _ _ (by simp)]
    exact Block.field_put_self _ _ (by simp)
  · iterate 3 rw [Block.field_put_left _ _ (by simp)]
    exact Block.field_put_self _ _ (by simp)
  · rw [Block.field_put_inside (j := 0) _ _ (by rfl) (by rw [hcdb]; simp [block_cdb]), hcdb]
    simp [block_cdb, slice]
  · rw [Block.field_put_inside (j := 2) _ _ (by rfl) (by rw [hcdb]; simp [block_cdb]), hcdb]
    simp [block_cdb, slice]
  · rw [Block.field_put_inside (j := 7) _ _ (by rfl) (by rw [hcdb]; simp [block_cdb]), hcdb]
    simp [block_cdb, slice, List.drop_append, List.drop_of_length_le]

/-- The command asks for the request exactly when its LUN has 14 bits and its
length 32. -/
theorem decode_command_iff {req : Request} {block : Nat} (hio : drive_io req block = some io)
    (hcheck : check io = true) :
    ((command p itt cmd_sn exp_stat_sn io req.len).encode.bind decode =
        some (req.wire p.lun.toNat block)) ↔
      p.lun.toNat < 2 ^ 14 ∧ req.len < 2 ^ 32 := by
  obtain ⟨rfl, -⟩ := drive_io_some hio
  simp only [check, Bool.and_eq_true, decide_eq_true_eq] at hcheck
  obtain ⟨hlba, hblocks⟩ := hcheck
  obtain ⟨bhs, hbhs, hlun, hlen, hop, hl, hb⟩ :=
    @command_encode p itt cmd_sn exp_stat_sn ⟨req.write, req.offset / block, req.len / block⟩
      req.len
  have hfield : p.lun_field.toNat < 256 ^ 8 := p.lun_field.toNat_lt
  have hdecode : decode bhs = (decode_lun p.lun_field.toNat).map fun unit =>
      { req.wire unit block with len := req.len % 2 ^ 32 } := by
    unfold decode
    rw [hlun, hlen, hop, hl, hb, of_be_be_of_lt hfield, decode_op_of, of_be_to_be_bytes,
      of_be_be_of_lt (by omega), of_be_be_of_lt (by omega), Nat.mod_eq_of_lt hlba,
      Nat.mod_eq_of_lt hblocks, UInt32.toNat_ofNat']
    cases decode_lun p.lun_field.toNat <;> rfl
  rw [hbhs, Option.bind_some, hdecode, ← decode_lun_eq_iff, decode_lun_field]
  simp only [Option.map_some, Option.some_inj, Request.wire, Wire.mk.injEq, true_and]
  apply and_congr_right
  intro _
  constructor
  · intro h
    rw [← h]
    exact Nat.mod_lt _ (by decide)
  · intro h
    exact Nat.mod_eq_of_lt h

end command

end iscsi

namespace nvme

/-- NVMe's largest transfer: the NLB field is 16 bits, 0-based. -/
def MAX_BLOCKS : Nat := 65536

/-- `Transport::check`. -/
def check (io : Io) : Bool := io.blocks != 0 && decide (io.blocks ≤ MAX_BLOCKS)

def decode_op : List UInt8 → Option Bool
  | [0x02] => some false
  | [0x01] => some true
  | _ => none

theorem decode_op_of (write : Bool) : decode_op [if write then OP_WRITE else OP_READ] = some write := by
  cases write <;> rfl

/-- An NVMe read or write by the layout of its queue entry. -/
def decode (c : Command) : Option Wire := do
  let write ← decode_op (Block.field c 0 1)
  return {
    write
    unit := of_le (Block.field c 4 4)
    lba := of_le (Block.field c 40 8)
    blocks := of_le (Block.field c 48 2) + 1
    len := of_le (Block.field c 32 4) }

/-- The command asks for the request exactly when its length has 32 bits. -/
theorem decode_command_iff {cid : UInt16} {nsid : UInt32} {io : Io} {is_inline : Bool}
    {req : Request} {block : Nat} (hreq : req.offset < 2 ^ 64)
    (hio : drive_io req block = some io) (hcheck : check io = true) :
    decode (Command.read_write cid nsid io req.len is_inline) =
        some (req.wire nsid.toNat block) ↔ req.len < 2 ^ 32 := by
  obtain ⟨rfl, -⟩ := drive_io_some hio
  obtain ⟨hzero, hmax⟩ := (Bool.and_eq_true _ _).mp hcheck
  have hzero : req.len / block ≠ 0 := bne_iff_ne.mp hzero
  have hmax : req.len / block ≤ 65536 := of_decide_eq_true hmax
  have hlba : req.offset / block < 256 ^ 8 :=
    Nat.lt_of_le_of_lt (Nat.div_le_self _ _) (by simpa using hreq)
  have hnsid : nsid.toNat < 256 ^ 4 := nsid.toNat_lt
  unfold decode
  rw [Command.read_write_opcode, Command.read_write_nsid, Command.read_write_lba,
    Command.read_write_nlb, Command.read_write_sgl_length, decode_op_of, of_le_le_of_lt hnsid,
    of_le_le_of_lt hlba, of_le_le_of_lt (by omega), of_le_le_of_lt (by omega)]
  simp only [bind, Option.bind, pure, Request.wire, Option.some_inj, Wire.mk.injEq, true_and]
  generalize req.len / block = blocks at hzero hmax ⊢
  omega

end nvme

/-- A request that `drive` and the check of its transport accept is addressed on
the wire as it was asked for exactly when, on iSCSI, its LUN is below 16384 and
its length below 2^32, and on NVMe, its length is below 2^32. -/
theorem a_request_is_addressed_as_asked_iff_it_fits (req : Request) (block : Nat) (io : Io) :
    (∀ text path, iscsi.parse_path text = some path → drive_io req block = some io →
      iscsi.check io = true → ∀ itt cmd_sn exp_stat_sn,
        (iscsi.command path itt cmd_sn exp_stat_sn io req.len).encode.bind iscsi.decode =
            some (req.wire path.lun.toNat block) ↔
          path.lun.toNat < 16384 ∧ req.len < 2 ^ 32) ∧
    (req.offset < 2 ^ 64 → drive_io req block = some io → nvme.check io = true →
      ∀ cid nsid is_inline,
        nvme.decode (nvme.Command.read_write cid nsid io req.len is_inline) =
            some (req.wire nsid.toNat block) ↔
          req.len < 2 ^ 32) := by
  constructor
  · intro text path _ hio hcheck itt cmd_sn exp_stat_sn
    exact iscsi.decode_command_iff hio hcheck
  · intro hreq hio hcheck cid nsid is_inline
    exact nvme.decode_command_iff hreq hio hcheck

/-- The first 512 bytes of LUN 16384 are written over those of LUN 0. -/
theorem a_write_to_lun_16384_goes_to_lun_0 :
    ∃ path req io, iscsi.parse_path "h/iqn.a/16384".toList = some path ∧
      path.lun.toNat = 16384 ∧ drive_io req 512 = some io ∧ iscsi.check io = true ∧
      (iscsi.command path 1 1 1 io req.len).encode.bind iscsi.decode = some (req.wire 0 512) ∧
      req.wire 0 512 ≠ req.wire path.lun.toNat 512 := by
  refine ⟨⟨['h'], "iqn.a".toList, 16384⟩, ⟨0, 512, true, false, 0, 0⟩, ⟨true, 0, 1⟩, ?_⟩
  decide

end stutools
