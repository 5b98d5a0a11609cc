-- The iSCSI protocol data units (RFC 7143): the basic header segment of 48
-- bytes, the fields of the PDUs that are sent, and the fields that are read
-- from those received. Numbers are big-endian.
import Stutools.Bytes

open bytes

namespace stutools.iscsi

def NOP_OUT : UInt8 := 0x00
def SCSI_COMMAND : UInt8 := 0x01
def DATA_OUT : UInt8 := 0x05
def NOP_IN : UInt8 := 0x20
def SCSI_RESPONSE : UInt8 := 0x21
def DATA_IN : UInt8 := 0x25
def R2T : UInt8 := 0x31
def REJECT : UInt8 := 0x3f
def TRANSIT : UInt8 := 0x80

/-- The task tag a target uses when it does not expect a reply. -/
def NO_TTT : UInt32 := 0xffffffff

/-- The basic header segment. -/
abbrev Bhs := Block 48

/-- `u32::to_be_bytes`. -/
def to_be_bytes (x : UInt32) : List UInt8 := be 4 x.toNat

@[simp] theorem to_be_bytes_length (x : UInt32) : (to_be_bytes x).length = 4 := by
  simp [to_be_bytes]

/-- The largest CDB that is sent. -/
def MAX_CDB : Nat := 32

/-- The 32-bit number at an index of a header. -/
def be32 (b : Bhs) (i : Nat) : UInt32 := UInt32.ofNat (of_be (b.field i 4))

/-- The byte at an index of a header. -/
def byte (b : Bhs) (i : Nat) : UInt8 := b.1.getD i 0

/-- The length of a data segment on the wire: the next multiple of 4. -/
def padded (len : Nat) : Nat := (len + 3) / 4 * 4

/-- The data segment length a PDU's header declares, before padding. -/
def data_len (bhs : Bhs) : Nat := of_be (bhs.field 5 3)

/-- The Extended CDB AHS for the bytes of a CDB past the 16th. -/
def extended_cdb (cdb : List UInt8) : List UInt8 :=
  if cdb.length ≤ 16 then []
  else
    let spill := cdb.drop 16
    be 2 (cdb.length - 15) ++ [0x01, 0] ++ spill ++
      List.replicate (padded spill.length - spill.length) 0

/-- `pdu::ScsiCommand`. -/
structure ScsiCommand where
  lun : UInt64
  itt : UInt32
  cmd_sn : UInt32
  exp_stat_sn : UInt32
  cdb : List UInt8
  read : Bool
  write : Bool
  expected : UInt32

/-- The BHS, unless the CDB is empty or longer than 32 bytes. -/
def ScsiCommand.encode (c : ScsiCommand) : Option Bhs :=
  if c.cdb = [] ∨ MAX_CDB < c.cdb.length then none
  else
    let bhs := Block.zero 48
    let bhs := bhs.put 0 [SCSI_COMMAND] (by simp)
    let bhs := bhs.put 4 [UInt8.ofNat ((extended_cdb c.cdb).length / 4)] (by simp)
    let bhs := bhs.put 1
      [TRANSIT ||| (if c.read then 0x40 else 0) ||| (if c.write then 0x20 else 0)] (by simp)
    let bhs := bhs.put 8 (be 8 c.lun.toNat) (by simp)
    let bhs := bhs.put 16 (to_be_bytes c.itt) (by simp)
    let bhs := bhs.put 20 (to_be_bytes c.expected) (by simp)
    let bhs := bhs.put 24 (to_be_bytes c.cmd_sn) (by simp)
    let bhs := bhs.put 28 (to_be_bytes c.exp_stat_sn) (by simp)
    some (bhs.put 32 (c.cdb.take 16) (by simp only [List.length_take]; omega))

theorem length_field_fits (len : Nat) : 5 + (be 3 len).length ≤ 48 := by simp

/-- The Data-Out header for `len` bytes of write data that an R2T asked for. -/
def data_out_header (itt ttt exp_stat_sn data_sn : UInt32) (offset : Nat) (last : Bool)
    (len : Nat) : Bhs :=
  let bhs := Block.zero 48
  let bhs := bhs.put 0 [DATA_OUT] (by simp)
  let bhs := bhs.put 1 [if last then TRANSIT else 0] (by simp)
  let bhs := bhs.put 5 (be 3 len) (length_field_fits len)
  let bhs := bhs.put 16 (to_be_bytes itt) (by simp)
  let bhs := bhs.put 20 (to_be_bytes ttt) (by simp)
  let bhs := bhs.put 28 (to_be_bytes exp_stat_sn) (by simp)
  let bhs := bhs.put 36 (to_be_bytes data_sn) (by simp)
  bhs.put 40 (be 4 offset) (by simp)

/-- The NOP-Out header that answers a NOP-In. -/
def nop_out (lun : UInt64) (itt ttt cmd_sn exp_stat_sn : UInt32) : Bhs :=
  let bhs := Block.zero 48
  let bhs := bhs.put 0 [NOP_OUT ||| 0x40] (by simp)
  let bhs := bhs.put 1 [TRANSIT] (by simp)
  let bhs := bhs.put 8 (be 8 lun.toNat) (by simp)
  let bhs := bhs.put 16 (to_be_bytes itt) (by simp)
  let bhs := bhs.put 20 (to_be_bytes ttt) (by simp)
  let bhs := bhs.put 24 (to_be_bytes cmd_sn) (by simp)
  bhs.put 28 (to_be_bytes exp_stat_sn) (by simp)

/-- The sequence numbers every PDU of a target carries. -/
structure Sequence where
  stat_sn : UInt32
  exp_cmd_sn : UInt32
  max_cmd_sn : UInt32
deriving DecidableEq, Repr

def sequence (bhs : Bhs) : Sequence :=
  { stat_sn := be32 bhs 24, exp_cmd_sn := be32 bhs 28, max_cmd_sn := be32 bhs 32 }

/-- `pdu::R2t`: the target asks for `desired` bytes of write data at `offset`. -/
structure R2t where
  itt : UInt32
  ttt : UInt32
  seq : Sequence
  offset : UInt32
  desired : UInt32

/-- `decode_r2t`, of a header whose opcode is that of an R2T. -/
def decode_r2t (bhs : Bhs) : R2t :=
  { itt := be32 bhs 16
    ttt := be32 bhs 20
    seq := sequence bhs
    offset := be32 bhs 40
    desired := be32 bhs 44 }

/-- The opcode of a header: its low six bits. -/
def opcode (bhs : Bhs) : UInt8 := byte bhs 0 &&& 0x3f

/-! ## Lengths -/

theorem padded_le (len : Nat) : len ≤ padded len := by
  unfold padded
  omega

@[simp] theorem padded_zero : padded 0 = 0 := rfl

theorem of_be_to_be_bytes (x : UInt32) : of_be (to_be_bytes x) = x.toNat := by
  unfold to_be_bytes
  exact of_be_be_of_lt x.toNat_lt

theorem data_len_lt (bhs : Bhs) : data_len bhs < 2 ^ 24 := by
  have h3 : (bhs.field 5 3).length ≤ 3 := by simp [Block.field, slice]
  exact Nat.lt_of_lt_of_le (of_be_lt _) (Nat.pow_le_pow_right (n := 256) (by omega) h3)

end stutools.iscsi
