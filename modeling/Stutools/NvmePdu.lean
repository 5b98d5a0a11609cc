-- The NVMe/TCP protocol data units: a common header of 8 bytes, a
-- type-specific header whose length it names, and the data. Two encoders and
-- one decoder agree on every stream of them, whatever their buffers held.
import Stutools.Sqe

open bytes

namespace stutools.nvme

def ICRESP : UInt8 := 0x01
def TERM_H2C : UInt8 := 0x02
def TERM_C2H : UInt8 := 0x03
def CAPSULE_CMD : UInt8 := 0x04
def CAPSULE_RESP : UInt8 := 0x05
def H2C_DATA : UInt8 := 0x06
def C2H_DATA : UInt8 := 0x07
def R2T : UInt8 := 0x09

/-- The last data PDU of a transfer. -/
def FLAG_LAST : UInt8 := 0x04

/-- On a C2H data PDU that is also the last one: no CapsuleResp follows. -/
def FLAG_SUCCESS : UInt8 := 0x08

/-- The header and data digest bits, which must be clear. -/
def DIGEST_FLAGS : UInt8 := 0x03

def COMMON_LEN : Nat := 8
def CAPSULE_CMD_LEN : Nat := 72
def CAPSULE_RESP_LEN : Nat := 24
def DATA_HEADER_LEN : Nat := 24

/-- One PDU: its type, flags, the full type-specific header, and the data. -/
structure Pdu where
  kind : UInt8
  flags : UInt8
  header : List UInt8
  data : List UInt8
deriving DecidableEq, Repr

/-- The stores that put the common header fields over the start of a header,
and the data after it. -/
def put_common (kind flags : UInt8) (hlen : Nat) (header data : List UInt8) : List UInt8 :=
  let header := patch header 0 [kind]
  let header := patch header 1 [flags]
  let header := patch header 2 [UInt8.ofNat hlen]
  let header := patch header 3 [if data = [] then 0 else UInt8.ofNat hlen]
  let header := patch header 4 (le 4 ((hlen + data.length) % 2 ^ 32))
  header ++ data

/-- `pdu::encode`: `header` is the full type-specific header of HLEN bytes. -/
def encode (kind flags : UInt8) (header data : List UInt8) : List UInt8 :=
  put_common kind flags header.length header data

/-- `pdu::frame_into`: the buffer is cleared, resized to `hlen` zero bytes, filled
and framed. -/
def frame_into (out : List UInt8) (kind flags : UInt8) (hlen : Nat)
    (fill : Block hlen → Block hlen) (data : List UInt8) : List UInt8 :=
  let out : Block hlen := ⟨resize (out.take 0) hlen, resize_length _ _⟩
  put_common kind flags hlen (fill out).1 data

/-- Why `read_into` refuses a PDU. -/
inductive ReadError where
  /-- "NVMe/TCP: reading a PDU header" -/
  | header
  /-- "NVMe/TCP: bad PDU type {kind}: header length {hlen}, PDU length {plen}" -/
  | lengths (kind : UInt8) (hlen plen : Nat)
  /-- "NVMe/TCP: PDU type {kind} sets digest flags {flags}" -/
  | digests (kind flags : UInt8)
  /-- "NVMe/TCP: reading PDU type {kind} header" -/
  | rest_of_header (kind : UInt8)
  /-- "NVMe/TCP: reading PDU type {kind} data" -/
  | data (kind : UInt8)
deriving DecidableEq, Repr

/-- `pdu::read_into`: reads one PDU from the stream into `p`, whose buffers are cleared and resized
to what the common header says. -/
def read_into (p : Pdu) (stream : List UInt8) : Except ReadError (Pdu × List UInt8) := do
  let (common, stream) ← (read_exact COMMON_LEN stream).elim (.error .header) .ok
  let kind := common.getD 0 0
  let flags := common.getD 1 0
  let hlen := (common.getD 2 0).toNat
  let plen := of_le (slice common 4 4)
  if hlen < COMMON_LEN ∨ plen < hlen then .error (.lengths kind hlen plen)
  else if kind ≠ ICRESP ∧ flags &&& DIGEST_FLAGS ≠ 0 then .error (.digests kind flags)
  else
    let header := patch (resize (p.header.take 0) hlen) 0 common
    let (rest, stream) ←
      (read_exact (hlen - COMMON_LEN) stream).elim (.error (.rest_of_header kind)) .ok
    let header := patch header COMMON_LEN rest
    let (data, stream) ← (read_exact (plen - hlen) stream).elim (.error (.data kind)) .ok
    let data := patch (resize (p.data.take 0) (plen - hlen)) 0 data
    return ({ kind, flags, header, data }, stream)

/-! ## The fields of each type -/

def le16 (d : List UInt8) (i : Nat) : UInt16 := UInt16.ofNat (of_le (slice d i 2))

def le32 (d : List UInt8) (i : Nat) : UInt32 := UInt32.ofNat (of_le (slice d i 4))

/-- A CapsuleCmd carrying one command, followed by in-capsule data. -/
def capsule_cmd (sqe : Command) (data : List UInt8) : List UInt8 :=
  encode CAPSULE_CMD 0 ((Block.zero CAPSULE_CMD_LEN).put 8 sqe.1 (by rw [sqe.2]; decide)).1 data

/-- The 16-byte completion in a CapsuleResp, if it is one. -/
def parse_capsule_resp (p : Pdu) : Option (List UInt8) :=
  if p.kind ≠ CAPSULE_RESP ∨ p.header.length ≠ CAPSULE_RESP_LEN then none
  else some (slice p.header 8 16)

/-- A C2HData PDU: controller-to-host data for command `cccid` at byte `datao`. -/
structure C2hData where
  cccid : UInt16
  datao : UInt32
  datal : UInt32
  last : Bool
  success : Bool
deriving DecidableEq, Repr

def parse_c2h (p : Pdu) : Option C2hData :=
  if p.kind ≠ C2H_DATA ∨ p.header.length ≠ DATA_HEADER_LEN then none
  else some {
    cccid := le16 p.header 8
    datao := le32 p.header 12
    datal := le32 p.header 16
    last := p.flags &&& FLAG_LAST != 0
    success := p.flags &&& FLAG_SUCCESS != 0 }

/-- An R2T PDU: the controller asks for `r2tl` bytes of host data at `r2to`. -/
structure R2t where
  cccid : UInt16
  ttag : UInt16
  r2to : UInt32
  r2tl : UInt32
deriving DecidableEq, Repr

def parse_r2t (p : Pdu) : Option R2t :=
  if p.kind ≠ R2T ∨ p.header.length ≠ DATA_HEADER_LEN then none
  else some {
    cccid := le16 p.header 8
    ttag := le16 p.header 10
    r2to := le32 p.header 12
    r2tl := le32 p.header 16 }

/-- Stores the fields of a data PDU or an R2T at their offsets: a command, a tag,
an offset and a length. -/
def put_data_fields (cccid ttag : UInt16) (offset : UInt32) (len : Nat) (h : Block 24) : Block 24 :=
  let h := h.put 8 (le 2 cccid.toNat) (by simp)
  let h := h.put 10 (le 2 ttag.toNat) (by simp)
  let h := h.put 12 (le 4 offset.toNat) (by simp)
  h.put 16 (le 4 (len % 2 ^ 32)) (by simp)

/-- An H2CData PDU answering an R2T: `chunk` is the host data at `datao`. -/
def h2c_data (cccid ttag : UInt16) (datao : UInt32) (chunk : List UInt8) (last : Bool) :
    List UInt8 :=
  encode H2C_DATA (if last then FLAG_LAST else 0)
    (put_data_fields cccid ttag datao chunk.length (Block.zero 24)).1 chunk

/-! ## Round trips -/

/-- The common header of a PDU. -/
def common (kind flags : UInt8) (hlen len : Nat) : List UInt8 :=
  [kind, flags, UInt8.ofNat hlen, if len = 0 then 0 else UInt8.ofNat hlen] ++
    le 4 ((hlen + len) % 2 ^ 32)

@[simp] theorem common_length (kind flags : UInt8) (hlen len : Nat) :
    (common kind flags hlen len).length = 8 := by
  simp [common]

theorem put_common_eq (kind flags : UInt8) (hlen : Nat) {header : List UInt8}
    (data : List UInt8) (h : 8 ≤ header.length) :
    put_common kind flags hlen header data =
      common kind flags hlen data.length ++ header.drop 8 ++ data := by
  match header, h with
  | b0 :: b1 :: b2 :: b3 :: b4 :: b5 :: b6 :: b7 :: rest, _ =>
    simp [put_common, patch, common, List.length_eq_zero_iff]

/-- A PDU that can be sent: its lengths fit their fields and it asks for no digest. -/
structure Pdu.Fits (p : Pdu) : Prop where
  digests : p.flags &&& DIGEST_FLAGS = 0
  header_ge : 8 ≤ p.header.length
  header_le : p.header.length ≤ 255
  length : p.header.length + p.data.length < 2 ^ 32

def Pdu.encode (p : Pdu) : List UInt8 := nvme.encode p.kind p.flags p.header p.data

/-- What the reader makes of a PDU: its header with the common fields filled in. -/
def Pdu.received (p : Pdu) : Pdu :=
  { p with header := common p.kind p.flags p.header.length p.data.length ++ p.header.drop 8 }

theorem common_getD (kind flags : UInt8) (hlen len : Nat) :
    (common kind flags hlen len).getD 0 0 = kind ∧ (common kind flags hlen len).getD 1 0 = flags ∧
      (common kind flags hlen len).getD 2 0 = UInt8.ofNat hlen := ⟨rfl, rfl, rfl⟩

theorem common_plen (kind flags : UInt8) {hlen len : Nat} (h : hlen + len < 2 ^ 32) :
    of_le (slice (common kind flags hlen len) 4 4) = hlen + len := by
  have hslice : slice (common kind flags hlen len) 4 4 = le 4 ((hlen + len) % 2 ^ 32) := by
    simp [common, slice, List.take_of_length_le]
  rw [hslice, Nat.mod_eq_of_lt h, of_le_le_of_lt (by omega)]

theorem patch_whole {b v : List UInt8} (h : b.length = v.length) : patch b 0 v = v := by
  simp [patch, h]

/-- A buffer that is filled in two steps holds what both have stored. -/
theorem patch_halves {b v w : List UInt8} (h : b.length = v.length + w.length) :
    patch (patch b 0 v) v.length w = v ++ w := by
  have hrest : b.drop (v.length + w.length) = [] := List.drop_eq_nil_of_le (by omega)
  simp [patch, hrest]

/-- The reader takes a PDU off the front of a stream, whatever it held before. -/
theorem read_into_encode {p : Pdu} (h : p.Fits) (held : Pdu) (rest : List UInt8) :
    read_into held (p.encode ++ rest) = .ok (p.received, rest) := by
  have hencode : p.encode ++ rest = common p.kind p.flags p.header.length p.data.length ++
      (p.header.drop 8 ++ (p.data ++ rest)) := by
    unfold Pdu.encode nvme.encode
    rw [put_common_eq _ _ _ _ h.header_ge]
    simp
  have hge := h.header_ge
  have hhlen : (UInt8.ofNat p.header.length).toNat = p.header.length :=
    Nat.mod_eq_of_lt (by have := h.header_le; omega)
  obtain ⟨hkind, hflags, hlen⟩ := common_getD p.kind p.flags p.header.length p.data.length
  unfold read_into
  rw [hencode, read_exact_append _ (by simp [COMMON_LEN])]
  simp only [Option.elim_some, bind, Except.bind]
  rw [hkind, hflags, hlen, common_plen _ _ h.length, hhlen, if_neg (by unfold COMMON_LEN; omega),
    if_neg (by simp [h.digests]), read_exact_append _ (by simp [COMMON_LEN])]
  simp only [Option.elim_some]
  rw [read_exact_append _ (by omega)]
  simp only [Option.elim_some]
  have hheader : patch (patch (resize (held.header.take 0) p.header.length) 0
      (common p.kind p.flags p.header.length p.data.length)) COMMON_LEN (p.header.drop 8) =
      p.received.header := by
    exact patch_halves (by simp; omega)
  rw [hheader, patch_whole (by simp)]
  rfl

/-- What a PDU says: its type, flags, header past the common fields, and data. -/
def Pdu.view (p : Pdu) : UInt8 × UInt8 × List UInt8 × List UInt8 :=
  (p.kind, p.flags, p.header.drop 8, p.data)

theorem view_received (p : Pdu) : p.received.view = p.view := by
  simp [Pdu.view, Pdu.received]

theorem frame_into_eq_encode (out : List UInt8) (kind flags : UInt8) (hlen : Nat)
    (fill : Block hlen → Block hlen) (data : List UInt8) :
    frame_into out kind flags hlen fill data =
      encode kind flags (fill (Block.zero hlen)).1 data := by
  have hclear : (⟨resize (out.take 0) hlen, resize_length _ _⟩ : Block hlen) = Block.zero hlen :=
    Subtype.ext (by simp [resize, Block.zero])
  unfold frame_into encode
  rw [hclear, (fill (Block.zero hlen)).2]

/-! ## Fields -/

theorem slice_received (p : Pdu) {i n : Nat} (h : 8 ≤ i) :
    slice p.received.header i n = slice p.header i n := by
  unfold slice Pdu.received
  rw [List.drop_append, common_length, List.drop_eq_nil_of_le (by simpa using h), List.nil_append,
    List.drop_drop]
  congr 2
  omega

section put_data_fields

variable (cccid ttag : UInt16) (offset : UInt32) (len : Nat) (h : Block 24)

theorem put_data_fields_cccid :
    (put_data_fields cccid ttag offset len h).field 8 2 = le 2 cccid.toNat := by
  unfold put_data_fields
  iterate 3 rw [Block.field_put_left _ _ (by simp)]
  exact Block.field_put_self _ _ (by simp)

theorem put_data_fields_ttag :
    (put_data_fields cccid ttag offset len h).field 10 2 = le 2 ttag.toNat := by
  unfold put_data_fields
  iterate 2 rw [Block.field_put_left _ _ (by simp)]
  exact Block.field_put_self _ _ (by simp)

theorem put_data_fields_offset :
    (put_data_fields cccid ttag offset len h).field 12 4 = le 4 offset.toNat := by
  unfold put_data_fields
  rw [Block.field_put_left _ _ (by simp)]
  exact Block.field_put_self _ _ (by simp)

theorem put_data_fields_len :
    (put_data_fields cccid ttag offset len h).field 16 4 = le 4 (len % 2 ^ 32) := by
  unfold put_data_fields
  exact Block.field_put_self _ _ (by simp)

end put_data_fields

theorem le16_of_slice {d : List UInt8} {i : Nat} {x : UInt16} (h : slice d i 2 = le 2 x.toNat) :
    le16 d i = x := by
  unfold le16
  rw [h, of_le_le_of_lt x.toNat_lt, UInt16.ofNat_toNat]

theorem le32_of_slice {d : List UInt8} {i : Nat} {x : UInt32} (h : slice d i 4 = le 4 x.toNat) :
    le32 d i = x := by
  unfold le32
  rw [h, of_le_le_of_lt x.toNat_lt, UInt32.ofNat_toNat]

/-- Reading the bytes, into any PDU, takes all of them and gives what `P` says. -/
def Reads (b : List UInt8) (P : Pdu → Prop) : Prop :=
  ∀ held, ∃ p, read_into held b = .ok (p, []) ∧ P p

theorem reads_of_fits {n : Nat} (h : Block n) {kind flags : UInt8} {data : List UInt8}
    {P : Pdu → Prop} (hge : 8 ≤ n) (hle : n ≤ 255) (hflags : flags &&& DIGEST_FLAGS = 0)
    (hdata : n + data.length < 2 ^ 32) (hp : P (Pdu.received ⟨kind, flags, h.1, data⟩)) :
    Reads (encode kind flags h.1 data) P := by
  intro held
  have hlen := h.2
  have hfits : Pdu.Fits ⟨kind, flags, h.1, data⟩ :=
    ⟨hflags, by simp [hlen, hge], by simp [hlen, hle], by simpa [hlen] using hdata⟩
  have hread := read_into_encode hfits held []
  rw [List.append_nil] at hread
  exact ⟨_, hread, hp⟩

theorem received_length (p : Pdu) (h : 8 ≤ p.header.length) :
    p.received.header.length = p.header.length := by
  simp [Pdu.received]
  omega

theorem capsule_cmd_reads (sqe : Command) (data : List UInt8)
    (h : CAPSULE_CMD_LEN + data.length < 2 ^ 32) :
    Reads (capsule_cmd sqe data) fun p =>
      p.kind = CAPSULE_CMD ∧ p.flags = 0 ∧ slice p.header 8 64 = sqe.1 ∧ p.data = data := by
  unfold capsule_cmd
  apply reads_of_fits _ (by decide) (by decide) (by decide) h
  refine ⟨rfl, rfl, ?_, rfl⟩
  rw [slice_received _ (Nat.le_refl 8)]
  exact Block.field_put_self (Block.zero CAPSULE_CMD_LEN) (by rw [sqe.2]; decide) sqe.2

theorem capsule_resp_reads (cqe : Block 16) (flags : UInt8) (h : Block CAPSULE_RESP_LEN)
    (hflags : flags &&& DIGEST_FLAGS = 0) :
    Reads (encode CAPSULE_RESP flags (h.put 8 cqe.1 (by rw [cqe.2]; decide)).1 [])
      fun p => parse_capsule_resp p = some cqe.1 := by
  apply reads_of_fits _ (by decide) (by decide) hflags (by decide)
  have hput : 8 + cqe.1.length ≤ CAPSULE_RESP_LEN := by rw [cqe.2]; decide
  have hlen : (h.put 8 cqe.1 hput).1.length = CAPSULE_RESP_LEN := (h.put 8 cqe.1 hput).2
  unfold parse_capsule_resp
  rw [received_length _ (by rw [hlen]; decide), if_neg, slice_received _ (Nat.le_refl 8)]
  · exact congrArg some (Block.field_put_self h hput cqe.2)
  · rintro (h | h)
    · exact h rfl
    · exact h hlen

section data_pdus

variable (cccid ttag : UInt16) (offset : UInt32) (data : List UInt8) (h : Block 24)

/-- The fields of a data PDU or an R2T as the parsers find them. -/
theorem data_fields_received (kind flags : UInt8) (len : UInt32) :
    let p := Pdu.received ⟨kind, flags, (put_data_fields cccid ttag offset len.toNat h).1, data⟩
    p.header.length = DATA_HEADER_LEN ∧ le16 p.header 8 = cccid ∧ le16 p.header 10 = ttag ∧
      le32 p.header 12 = offset ∧ le32 p.header 16 = len := by
  have hlen := (put_data_fields cccid ttag offset len.toNat h).2
  have hlt : len.toNat % 2 ^ 32 = len.toNat := Nat.mod_eq_of_lt len.toNat_lt
  refine ⟨?_, le16_of_slice ?_, le16_of_slice ?_, le32_of_slice ?_, le32_of_slice ?_⟩
  · rw [received_length _ (by simp [hlen])]
    simp [hlen, DATA_HEADER_LEN]
  · rw [slice_received _ (by omega)]
    exact put_data_fields_cccid cccid ttag offset len.toNat h
  · rw [slice_received _ (by omega)]
    exact put_data_fields_ttag cccid ttag offset len.toNat h
  · rw [slice_received _ (by omega)]
    exact put_data_fields_offset cccid ttag offset len.toNat h
  · rw [slice_received _ (by omega)]
    exact (put_data_fields_len cccid ttag offset len.toNat h).trans (by rw [hlt])

theorem h2c_data_reads (last : Bool) (hdata : DATA_HEADER_LEN + data.length < 2 ^ 32) :
    Reads (h2c_data cccid ttag offset data last) fun p =>
      p.kind = H2C_DATA ∧ p.flags = (if last then FLAG_LAST else 0) ∧ le16 p.header 8 = cccid ∧
        le16 p.header 10 = ttag ∧ le32 p.header 12 = offset ∧
        (le32 p.header 16).toNat = data.length ∧ p.data = data := by
  have hlen : (UInt32.ofNat data.length).toNat = data.length :=
    Nat.mod_eq_of_lt (by have := hdata; omega)
  have hfields := data_fields_received cccid ttag offset data (Block.zero 24) H2C_DATA
    (if last then FLAG_LAST else 0) (UInt32.ofNat data.length)
  rw [hlen] at hfields
  obtain ⟨-, hcccid, httag, hoffset, hlength⟩ := hfields
  unfold h2c_data
  apply reads_of_fits _ (by decide) (by decide) ?_ hdata
  · exact ⟨rfl, rfl, hcccid, httag, hoffset, by rw [hlength, hlen], rfl⟩
  · cases last <;> decide

theorem c2h_data_reads (datal : UInt32) (last success : Bool)
    (hdata : DATA_HEADER_LEN + data.length < 2 ^ 32) :
    Reads (encode C2H_DATA
        ((if last then FLAG_LAST else 0) ||| (if success then FLAG_SUCCESS else 0))
        (put_data_fields cccid ttag offset datal.toNat h).1 data)
      fun p => parse_c2h p = some ⟨cccid, offset, datal, last, success⟩ ∧ p.data = data := by
  obtain ⟨hlen, hcccid, -, hoffset, hdatal⟩ := data_fields_received cccid ttag offset data h C2H_DATA
    ((if last then FLAG_LAST else 0) ||| (if success then FLAG_SUCCESS else 0)) datal
  apply reads_of_fits _ (by decide) (by decide) ?_ hdata
  · refine ⟨?_, rfl⟩
    unfold parse_c2h
    rw [if_neg (by simp only [hlen]; simp [Pdu.received]), hcccid, hoffset, hdatal]
    simp only [Pdu.received]
    cases last <;> cases success <;> rfl
  · cases last <;> cases success <;> decide

theorem r2t_reads (flags : UInt8) (r2tl : UInt32) (hflags : flags &&& DIGEST_FLAGS = 0) :
    Reads (encode R2T flags (put_data_fields cccid ttag offset r2tl.toNat h).1 [])
      fun p => parse_r2t p = some ⟨cccid, ttag, offset, r2tl⟩ := by
  obtain ⟨hlen, hcccid, httag, hoffset, hr2tl⟩ :=
    data_fields_received cccid ttag offset [] h R2T flags r2tl
  apply reads_of_fits _ (by decide) (by decide) hflags (by decide)
  unfold parse_r2t
  rw [if_neg (by simp only [hlen]; simp [Pdu.received]), hcccid, httag, hoffset, hr2tl]

end data_pdus

/-- Every stream of PDUs reads back as it was written and leaves nothing over,
both encoders write the same bytes, and every typed PDU reads back the fields
that were written. -/
theorem a_stream_of_pdus_reads_back :
    (∀ (pdus : List Pdu) (held : Pdu), (∀ p ∈ pdus, p.Fits) →
      ∃ got, read_many read_into pdus.length held (pdus.map Pdu.encode).flatten = .ok (got, []) ∧
        got.map Pdu.view = pdus.map Pdu.view) ∧
    (∀ out kind flags hlen (fill : Block hlen → Block hlen) data,
      frame_into out kind flags hlen fill data = encode kind flags (fill (Block.zero hlen)).1 data) ∧
    (∀ (sqe : Command) data, CAPSULE_CMD_LEN + data.length < 2 ^ 32 →
      Reads (capsule_cmd sqe data) fun p =>
        p.kind = CAPSULE_CMD ∧ p.flags = 0 ∧ slice p.header 8 64 = sqe.1 ∧ p.data = data) ∧
    (∀ (cqe : Block 16) flags (h : Block CAPSULE_RESP_LEN), flags &&& DIGEST_FLAGS = 0 →
      Reads (encode CAPSULE_RESP flags (h.put 8 cqe.1 (by rw [cqe.2]; decide)).1 [])
        fun p => parse_capsule_resp p = some cqe.1) ∧
    (∀ cccid ttag datao chunk last, DATA_HEADER_LEN + chunk.length < 2 ^ 32 →
      Reads (h2c_data cccid ttag datao chunk last) fun p =>
        p.kind = H2C_DATA ∧ p.flags = (if last then FLAG_LAST else 0) ∧ le16 p.header 8 = cccid ∧
          le16 p.header 10 = ttag ∧ le32 p.header 12 = datao ∧
          (le32 p.header 16).toNat = chunk.length ∧ p.data = chunk) ∧
    (∀ cccid reserved datao datal last success data (h : Block 24),
      DATA_HEADER_LEN + data.length < 2 ^ 32 →
        Reads (encode C2H_DATA
            ((if last then FLAG_LAST else 0) ||| (if success then FLAG_SUCCESS else 0))
            (put_data_fields cccid reserved datao datal.toNat h).1 data)
          fun p => parse_c2h p = some ⟨cccid, datao, datal, last, success⟩ ∧ p.data = data) ∧
    (∀ cccid ttag r2to r2tl flags (h : Block 24), flags &&& DIGEST_FLAGS = 0 →
      Reads (encode R2T flags (put_data_fields cccid ttag r2to r2tl.toNat h).1 [])
        fun p => parse_r2t p = some ⟨cccid, ttag, r2to, r2tl⟩) := by
  refine ⟨?_, frame_into_eq_encode, capsule_cmd_reads, capsule_resp_reads, ?_, ?_, ?_⟩
  · intro pdus held h
    have hread := read_many_flatten (fun p hp => read_into_encode (h p hp)) held []
    rw [List.append_nil] at hread
    exact ⟨_, hread, by simp [view_received]⟩
  · intro cccid ttag datao chunk last h
    exact h2c_data_reads cccid ttag datao chunk last h
  · intro cccid reserved datao datal last success data h hdata
    exact c2h_data_reads cccid reserved datao data h datal last success hdata
  · intro cccid ttag r2to r2tl flags h hflags
    exact r2t_reads cccid ttag r2to h flags r2tl hflags

/-- A data PDU and a response behind it come back through a PDU that held something else. -/
theorem two_pdus_read_back :
    ∃ got, read_many read_into 2 ⟨9, 9, [9], [9]⟩
        ([⟨H2C_DATA, FLAG_LAST, List.replicate 24 1, [7, 8]⟩,
          ⟨CAPSULE_RESP, 0, List.replicate 24 2, []⟩].map Pdu.encode).flatten = .ok (got, []) ∧
      got.map Pdu.view = [(H2C_DATA, FLAG_LAST, List.replicate 16 1, [7, 8]),
        (CAPSULE_RESP, 0, List.replicate 16 2, [])] := by
  refine a_stream_of_pdus_reads_back.1 [⟨H2C_DATA, FLAG_LAST, List.replicate 24 1, [7, 8]⟩,
    ⟨CAPSULE_RESP, 0, List.replicate 24 2, []⟩] _ fun p hp => ?_
  simp only [List.mem_cons, List.not_mem_nil, or_false] at hp
  obtain rfl | rfl := hp
  · exact ⟨by decide, by decide, by decide, by decide⟩
  · exact ⟨by decide, by decide, by decide, by decide⟩

/-- A write's data goes out and comes back. -/
example : read_into ⟨9, 9, [9], [9]⟩ (h2c_data 3 9 4096 [7, 8] true) =
    .ok (⟨6, 4, [6, 4, 24, 24, 26, 0, 0, 0, 3, 0, 9, 0, 0, 16, 0, 0, 2, 0, 0, 0, 0, 0, 0, 0],
      [7, 8]⟩, []) := by
  decide

end stutools.nvme
