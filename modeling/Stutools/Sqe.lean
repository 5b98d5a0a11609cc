-- The NVMe queue entries: the 64-byte command that is sent, built by stores
-- at fixed offsets, and the 16-byte completion that is read. Numbers are
-- little-endian.
import Stutools.Fabric

open bytes

namespace stutools.nvme

def OP_WRITE : UInt8 := 0x01
def OP_READ : UInt8 := 0x02

/-- PSDT in the flags byte: the data pointer is an SGL. -/
def PSDT_SGL : UInt8 := 0x40

def SGL_INLINE : UInt8 := 0x01
def SGL_TRANSPORT : UInt8 := 0x00

/-- `sqe::Command`: a 64-byte submission queue entry. -/
abbrev Command := Block 64

namespace Command

def new (opcode : UInt8) (cid : UInt16) : Command :=
  ((Block.zero 64).put 0 [opcode] (by simp)).put 2 (le 2 cid.toNat) (by simp)

def set_nsid (c : Command) (nsid : UInt32) : Command := Block.put c 4 (le 4 nsid.toNat) (by simp)

/-- Describes `len` bytes of data as an SGL, of which 32 bits are kept. -/
def set_data (c : Command) (len : Nat) (is_inline : Bool) : Command :=
  let c := Block.put c 1 [PSDT_SGL] (by simp)
  let c := Block.put c 24 (List.replicate 16 0) (by simp)
  let c := Block.put c 32 (le 4 (len % 2 ^ 32)) (by simp)
  Block.put c 39 [if is_inline then SGL_INLINE else SGL_TRANSPORT] (by simp)

/-- The command `NvmeSession::submit` sends: NLB is 0-based. -/
def read_write (cid : UInt16) (nsid : UInt32) (io : Io) (len : Nat) (is_inline : Bool) : Command :=
  let c := new (if io.write then OP_WRITE else OP_READ) cid
  let c := set_nsid c nsid
  let c := Block.put c 40 (le 8 io.lba) (by simp)
  let c := Block.put c 48 (le 2 ((io.blocks - 1) % 2 ^ 16)) (by simp)
  set_data c len is_inline

/-! ## The fields of a read or a write -/

section read_write

variable (cid : UInt16) (nsid : UInt32) (io : Io) (len : Nat) (is_inline : Bool)

theorem read_write_opcode :
    Block.field (read_write cid nsid io len is_inline) 0 1 = [if io.write then OP_WRITE else OP_READ] := by
  unfold read_write set_data set_nsid new
  iterate 8 rw [Block.field_put_left _ _ (by simp)]
  exact Block.field_put_self _ _ rfl

theorem read_write_nsid :
    Block.field (read_write cid nsid io len is_inline) 4 4 = le 4 nsid.toNat := by
  unfold read_write set_data set_nsid
  iterate 3 rw [Block.field_put_left _ _ (by simp)]
  rw [Block.field_put_right _ _ (by simp)]
  iterate 2 rw [Block.field_put_left _ _ (by simp)]
  exact Block.field_put_self _ _ (by simp)

theorem read_write_sgl_length :
    Block.field (read_write cid nsid io len is_inline) 32 4 = le 4 (len % 2 ^ 32) := by
  unfold read_write set_data
  rw [Block.field_put_left _ _ (by simp)]
  exact Block.field_put_self _ _ (by simp)

theorem read_write_lba : Block.field (read_write cid nsid io len is_inline) 40 8 = le 8 io.lba := by
  unfold read_write set_data
  iterate 4 rw [Block.field_put_right _ _ (by simp)]
  rw [Block.field_put_left _ _ (by simp)]
  exact Block.field_put_self _ _ (by simp)

theorem read_write_nlb :
    Block.field (read_write cid nsid io len is_inline) 48 2 = le 2 ((io.blocks - 1) % 2 ^ 16) := by
  unfold read_write set_data
  iterate 4 rw [Block.field_put_right _ _ (by simp)]
  exact Block.field_put_self _ _ (by simp)

end read_write

end Command

/-- `sqe::Completion`: a 16-byte completion queue entry, decoded. -/
structure Completion where
  dw0 : UInt32
  wide : UInt64
  sq_head : UInt16
  cid : UInt16
  status : UInt16
deriving DecidableEq, Repr

/-- `Completion::parse`, of the 16 bytes of an entry. -/
def Completion.parse (b : List UInt8) : Completion :=
  { dw0 := UInt32.ofNat (of_le (slice b 0 4))
    wide := UInt64.ofNat (of_le (slice b 0 8))
    sq_head := UInt16.ofNat (of_le (slice b 8 2))
    cid := UInt16.ofNat (of_le (slice b 12 2))
    status := UInt16.ofNat (of_le (slice b 14 2)) }

/-- Whether the command completed with no error; the phase bit is ignored. -/
def Completion.ok (c : Completion) : Bool := c.status >>> 1 == 0

end stutools.nvme
