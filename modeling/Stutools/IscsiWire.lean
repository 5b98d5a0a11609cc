-- iSCSI PDUs on the wire: the header with any additional header segment, its
-- digest, the data segment padded to words, and its digest. There are two
-- writers and two readers, one pair in the compliance connection and one in
-- the session of a path.
import Stutools.Crc
import Stutools.IscsiPdu

open bytes

namespace stutools.iscsi

/-- The Castagnoli polynomial, reflected. -/
def POLY : BitVec 32 := 0x82F63B78#32

/-- `crc32c::crc32c`. -/
def crc32c (data : List UInt8) : BitVec 32 := crc.digest POLY data

/-- The digest field of the covered bytes. -/
def digest_of (covered : List UInt8) : List UInt8 := le 4 (crc32c covered).toNat

/-- What the login agreed on, as far as it shapes the PDUs of a session. -/
structure Negotiated where
  header_digest : Bool
  data_digest : Bool
  /-- The largest data segment the target takes. -/
  max_recv : Nat
deriving DecidableEq, Repr

/-- One PDU as a reader returns it: its header, and its data without padding. -/
structure Pdu where
  bhs : Bhs
  data : List UInt8
deriving DecidableEq

/-! ## The writers -/

/-- `PduConnection::send`: `header` is the BHS and any AHS. -/
def PduConnection.send (n : Negotiated) (header data : List UInt8) : List UInt8 :=
  let out := header
  let out := if n.header_digest then out ++ digest_of header else out
  if data = [] then out
  else
    let start := out.length
    let out := out ++ data
    let out := resize out (start + padded data.length)
    if n.data_digest then out ++ digest_of (out.drop start) else out

/-- `Session::frame`, into a buffer that is cleared first. -/
def Session.frame (tx : List UInt8) (n : Negotiated) (header data : List UInt8) : List UInt8 :=
  let tx := tx.take 0
  let tx := tx ++ header
  let tx := if n.header_digest then tx ++ digest_of header else tx
  if data = [] then tx
  else
    let start := tx.length
    let tx := tx ++ data
    let tx := resize tx (start + padded data.length)
    if n.data_digest then tx ++ digest_of (tx.drop start) else tx

/-! ## The readers -/

/-- Why a reader returns no PDU. -/
inductive RecvError where
  /-- The stream ends in the header, or nothing comes within the wait. -/
  | header
  /-- The stream ends later in the PDU. -/
  | closed
  /-- "header digest mismatch" -/
  | header_digest
  /-- "data digest mismatch" -/
  | data_digest
  /-- The data segment is longer than the reader accepts. -/
  | too_long (len : Nat)
deriving DecidableEq, Repr

/-- Largest padded data segment a session accepts. -/
def RX_CAPACITY : Nat := 262144 + 64

/-- Largest data segment the compliance connection reads. -/
def MAX_SEGMENT : Nat := 2 ^ 24

/-- `read_exact` of a whole header. -/
def read_bhs (stream : List UInt8) : Except RecvError (Bhs × List UInt8) :=
  if h : 48 ≤ stream.length then .ok (⟨stream.take 48, by simpa using h⟩, stream.drop 48)
  else .error .header

/-- The rest of a PDU after its header: `n` bytes. -/
def read_part (n : Nat) (stream : List UInt8) : Except RecvError (List UInt8 × List UInt8) :=
  (read_exact n stream).elim (.error .closed) .ok

/-- Reads a digest, where one is negotiated, and compares it. -/
def read_digest (on : Bool) (covered : List UInt8) (mismatch : RecvError) (stream : List UInt8) :
    Except RecvError (List UInt8) :=
  if on then do
    let (digest, stream) ← read_part 4 stream
    if of_le digest ≠ (crc32c covered).toNat then .error mismatch else .ok stream
  else .ok stream

/-- `Session::recv`. -/
def Session.recv (n : Negotiated) (_ : Pdu) (stream : List UInt8) :
    Except RecvError (Pdu × List UInt8) := do
  let (bhs, stream) ← read_bhs stream
  let stream ← read_digest n.header_digest bhs.1 .header_digest stream
  let len := data_len bhs
  if RX_CAPACITY < padded len then .error (.too_long len)
  else if padded len = 0 then .ok (⟨bhs, []⟩, stream)
  else
    let (rx, stream) ← read_part (padded len) stream
    let stream ← read_digest n.data_digest rx .data_digest stream
    return (⟨bhs, rx.take len⟩, stream)

/-- `PduConnection::recv`, which skips the additional header segments. -/
def PduConnection.recv (n : Negotiated) (_ : Pdu) (stream : List UInt8) :
    Except RecvError (Pdu × List UInt8) := do
  let (bhs, stream) ← read_bhs stream
  let (skip, stream) ← read_part ((byte bhs 4).toNat * 4) stream
  let stream ← read_digest n.header_digest (bhs.1 ++ skip) .header_digest stream
  let len := data_len bhs
  if MAX_SEGMENT < len then .error (.too_long len)
  else
    let (data, stream) ← read_part (padded len) stream
    let stream ← read_digest (decide (0 < len) && n.data_digest) data .data_digest stream
    return (⟨bhs, data.take len⟩, stream)

/-! ## The parts of a PDU -/

/-- A data segment with its padding. -/
def segment (data : List UInt8) : List UInt8 :=
  data ++ List.replicate (padded data.length - data.length) 0

/-- The digest that follows, where one is negotiated. -/
def digest_if (on : Bool) (covered : List UInt8) : List UInt8 := if on then digest_of covered else []

/-- Whether a data segment is followed by a digest. -/
def digested (n : Negotiated) (data : List UInt8) : Bool := decide (0 < data.length) && n.data_digest

@[simp] theorem digest_of_length (covered : List UInt8) : (digest_of covered).length = 4 := by
  simp [digest_of]

@[simp] theorem segment_length (data : List UInt8) : (segment data).length = padded data.length := by
  have := padded_le data.length
  simp [segment]
  omega

theorem segment_take (data : List UInt8) : (segment data).take data.length = data := by
  simp [segment]

/-- The bytes of a PDU: its header and digest, its data segment and digest. -/
theorem send_eq (n : Negotiated) (header data : List UInt8) :
    PduConnection.send n header data =
      header ++ (digest_if n.header_digest header ++
        (segment data ++ digest_if (digested n data) (segment data))) := by
  have hout : (if n.header_digest then header ++ digest_of header else header) =
      header ++ digest_if n.header_digest header := by
    unfold digest_if
    split <;> simp
  unfold PduConnection.send
  simp only [hout]
  split
  · rename_i hdata
    subst hdata
    simp [segment, digest_if, digested]
  · rename_i hdata
    have hpos : 0 < data.length := List.length_pos_iff.mpr hdata
    have hlen := padded_le data.length
    rw [← List.append_assoc header]
    generalize header ++ digest_if n.header_digest header = out
    have hresize : resize (out ++ data) (out.length + padded data.length) = out ++ segment data := by
      unfold resize segment
      rw [List.take_of_length_le (by simp; omega), List.append_assoc]
      congr 3
      simp
      omega
    rw [hresize, List.drop_left]
    unfold digest_if digested
    simp only [hpos, decide_true, Bool.true_and]
    split <;> simp

theorem frame_eq_send (tx : List UInt8) (n : Negotiated) (header data : List UInt8) :
    Session.frame tx n header data = PduConnection.send n header data := rfl

/-! ## Reading the parts -/

theorem read_bhs_append (bhs : Bhs) (rest : List UInt8) : read_bhs (bhs.1 ++ rest) = .ok (bhs, rest) := by
  have h48 := bhs.2
  unfold read_bhs
  rw [dif_pos (by simp [h48])]
  congr 2
  · apply Subtype.ext
    exact List.take_left' h48
  · exact List.drop_left' h48

theorem read_part_append {n : Nat} {v : List UInt8} (rest : List UInt8) (h : v.length = n) :
    read_part n (v ++ rest) = .ok (v, rest) := by
  unfold read_part
  rw [read_exact_append rest h]
  rfl

theorem of_le_digest_of (covered : List UInt8) : of_le (digest_of covered) = (crc32c covered).toNat :=
  of_le_le_of_lt (crc32c covered).isLt

theorem read_digest_append (on : Bool) (covered : List UInt8) (e : RecvError) (rest : List UInt8) :
    read_digest on covered e (digest_if on covered ++ rest) = .ok rest := by
  unfold read_digest digest_if
  cases on
  · rfl
  · simp only [if_true]
    rw [read_part_append rest (digest_of_length covered)]
    simp [bind, Except.bind, of_le_digest_of]

theorem read_digest_mismatch {covered covered' : List UInt8} (e : RecvError) (rest : List UInt8)
    (h : crc32c covered ≠ crc32c covered') :
    read_digest true covered' e (digest_of covered ++ rest) = .error e := by
  unfold read_digest
  rw [if_pos rfl, read_part_append rest (digest_of_length covered)]
  simp only [bind, Except.bind]
  rw [if_pos]
  rw [of_le_digest_of]
  exact fun hc => h (BitVec.eq_of_toNat_eq hc)

/-! ## Round trips -/

/-- A PDU with its additional header segments, as a writer is given it. -/
structure WirePdu where
  pdu : Pdu
  ahs : List UInt8

namespace WirePdu

/-- The length fields of the header describe the PDU. -/
def Described (p : WirePdu) : Prop :=
  (byte p.pdu.bhs 4).toNat * 4 = p.ahs.length ∧ data_len p.pdu.bhs = p.pdu.data.length

instance (p : WirePdu) : Decidable p.Described := inferInstanceAs (Decidable (_ ∧ _))

/-- The bytes `PduConnection::send` writes for the PDU. -/
def bytes (n : Negotiated) (p : WirePdu) : List UInt8 :=
  PduConnection.send n (p.pdu.bhs.1 ++ p.ahs) p.pdu.data

theorem bytes_eq (n : Negotiated) (p : WirePdu) (rest : List UInt8) :
    p.bytes n ++ rest = p.pdu.bhs.1 ++ (p.ahs ++
      (digest_if n.header_digest (p.pdu.bhs.1 ++ p.ahs) ++
        (segment p.pdu.data ++ (digest_if (digested n p.pdu.data) (segment p.pdu.data) ++ rest)))) := by
  unfold bytes
  rw [send_eq]
  simp

end WirePdu

/-- The data segment of a PDU, which both readers read the same way. -/
def read_data (n : Negotiated) (p : Pdu) (stream : List UInt8) : Except RecvError (Pdu × List UInt8) := do
  let (data, stream) ← read_part (padded p.data.length) stream
  let stream ← read_digest (digested n p.data) data .data_digest stream
  return (⟨p.bhs, data.take p.data.length⟩, stream)

theorem read_data_append (n : Negotiated) (p : Pdu) (rest : List UInt8) :
    read_data n p (segment p.data ++ (digest_if (digested n p.data) (segment p.data) ++ rest)) =
      .ok (p, rest) := by
  unfold read_data
  rw [read_part_append _ (segment_length _)]
  simp only [bind, Except.bind]
  rw [read_digest_append, segment_take]
  rfl

theorem PduConnection.recv_header {n : Negotiated} {p : WirePdu} (h : p.Described) (held : Pdu)
    (rest : List UInt8) :
    PduConnection.recv n held (p.pdu.bhs.1 ++ (p.ahs ++
        (digest_if n.header_digest (p.pdu.bhs.1 ++ p.ahs) ++ rest))) = read_data n p.pdu rest := by
  obtain ⟨hahs, hlen⟩ := h
  have hmax : ¬ MAX_SEGMENT < data_len p.pdu.bhs := by
    have := data_len_lt p.pdu.bhs
    unfold MAX_SEGMENT
    omega
  unfold PduConnection.recv
  rw [read_bhs_append]
  simp only [bind, Except.bind]
  rw [hahs, read_part_append _ rfl]
  simp only
  rw [read_digest_append]
  simp only
  rw [if_neg hmax, hlen]
  rfl

theorem Session.recv_header {n : Negotiated} {p : WirePdu} (h : p.Described) (hahs : p.ahs = [])
    (hroom : padded p.pdu.data.length ≤ RX_CAPACITY) (held : Pdu) (rest : List UInt8) :
    Session.recv n held (p.pdu.bhs.1 ++ (p.ahs ++
        (digest_if n.header_digest (p.pdu.bhs.1 ++ p.ahs) ++ rest))) = read_data n p.pdu rest := by
  obtain ⟨-, hlen⟩ := h
  unfold Session.recv
  rw [read_bhs_append, hahs]
  simp only [bind, Except.bind, List.append_nil, List.nil_append]
  rw [read_digest_append]
  simp only
  rw [if_neg (by rw [hlen]; omega), hlen]
  unfold read_data
  split
  · -- an empty data segment is not read, and has no digest
    rename_i hzero
    have hnil : p.pdu.data = [] := by
      have := padded_le p.pdu.data.length
      exact List.length_eq_zero_iff.mp (by omega)
    simp [hnil, read_part, read_exact, digested, read_digest]
    rfl
  · rename_i hpos
    have hdata : 0 < p.pdu.data.length := by
      by_contra hz
      have hnil : p.pdu.data.length = 0 := by omega
      exact hpos (by rw [hnil]; rfl)
    have hdigest : digested n p.pdu.data = n.data_digest := by simp [digested, hdata]
    rw [hdigest]
    rfl

theorem PduConnection.recv_bytes {n : Negotiated} {p : WirePdu} (h : p.Described) (held : Pdu)
    (rest : List UInt8) : PduConnection.recv n held (p.bytes n ++ rest) = .ok (p.pdu, rest) := by
  rw [WirePdu.bytes_eq, PduConnection.recv_header h, read_data_append]

theorem Session.recv_bytes {n : Negotiated} {p : WirePdu} (h : p.Described) (hahs : p.ahs = [])
    (hroom : padded p.pdu.data.length ≤ RX_CAPACITY) (held : Pdu) (rest : List UInt8) :
    Session.recv n held (p.bytes n ++ rest) = .ok (p.pdu, rest) := by
  rw [WirePdu.bytes_eq, Session.recv_header h hahs hroom, read_data_append]

/-! ## A corrupted data segment -/

/-- The bytes of a PDU whose data digest is on, with one byte of the padded data
segment changed on the way. -/
def WirePdu.corrupted (n : Negotiated) (p : WirePdu) (i : Nat) (b : UInt8) : List UInt8 :=
  p.pdu.bhs.1 ++ (p.ahs ++ (digest_if n.header_digest (p.pdu.bhs.1 ++ p.ahs) ++
    ((segment p.pdu.data).set i b ++ digest_of (segment p.pdu.data))))

theorem crc32c_set_ne {data : List UInt8} {i : Nat} {b : UInt8} (hi : i < data.length)
    (hb : data[i] ≠ b) : crc32c data ≠ crc32c (data.set i b) := by
  have hsplit : data.take i ++ data[i] :: data.drop (i + 1) = data := by
    rw [List.getElem_cons_drop, List.take_append_drop]
  have hne := @crc.digest_ne_of_byte_ne POLY (by decide) (data.take i)
    (data.drop (i + 1)) _ _ hb
  rw [hsplit] at hne
  rw [List.set_eq_take_append_cons_drop, if_pos hi]
  exact hne

theorem read_data_corrupted {n : Negotiated} {p : Pdu} (hn : n.data_digest = true) {i : Nat}
    {b : UInt8} (hi : i < (segment p.data).length) (hb : (segment p.data)[i] ≠ b)
    (rest : List UInt8) :
    read_data n p ((segment p.data).set i b ++ (digest_of (segment p.data) ++ rest)) =
      .error .data_digest := by
  have hpos : 0 < p.data.length := by
    by_contra hz
    have hnil : p.data.length = 0 := by omega
    rw [segment_length, hnil] at hi
    simp at hi
  have hdigest : digested n p.data = true := by simp [digested, hpos, hn]
  unfold read_data
  rw [read_part_append _ (by simp)]
  simp only [bind, Except.bind]
  rw [hdigest, read_digest_mismatch _ _ (crc32c_set_ne hi hb)]

/-- Changing one byte of a data segment or its padding is found by both readers. -/
theorem recv_corrupted {n : Negotiated} {p : WirePdu} (h : p.Described) (hn : n.data_digest = true)
    {i : Nat} {b : UInt8} (hi : i < (segment p.pdu.data).length)
    (hb : (segment p.pdu.data)[i] ≠ b) (held : Pdu) (rest : List UInt8) :
    PduConnection.recv n held (p.corrupted n i b ++ rest) = .error .data_digest ∧
      (p.ahs = [] → padded p.pdu.data.length ≤ RX_CAPACITY →
        Session.recv n held (p.corrupted n i b ++ rest) = .error .data_digest) := by
  have hbytes : p.corrupted n i b ++ rest = p.pdu.bhs.1 ++ (p.ahs ++
      (digest_if n.header_digest (p.pdu.bhs.1 ++ p.ahs) ++
        ((segment p.pdu.data).set i b ++ (digest_of (segment p.pdu.data) ++ rest)))) := by
    simp [WirePdu.corrupted]
  rw [hbytes]
  constructor
  · rw [PduConnection.recv_header h, read_data_corrupted hn hi hb]
  · intro hahs hroom
    rw [Session.recv_header h hahs hroom, read_data_corrupted hn hi hb]

/-! ## How much a session reads -/

theorem read_part_length {n : Nat} {s v rest : List UInt8} (h : read_part n s = .ok (v, rest)) :
    s.length = n + rest.length := by
  unfold read_part at h
  cases hr : read_exact n s with
  | none => simp [hr] at h
  | some p =>
    obtain ⟨v', rest'⟩ := p
    simp only [hr, Option.elim_some, Except.ok.injEq, Prod.mk.injEq] at h
    obtain ⟨rfl, rfl⟩ := h
    obtain ⟨rfl, hlen⟩ := read_exact_some hr
    simp [hlen]

theorem read_digest_length {on : Bool} {covered s rest : List UInt8} {e : RecvError}
    (h : read_digest on covered e s = .ok rest) :
    s.length = (if on then 4 else 0) + rest.length := by
  unfold read_digest at h
  cases on
  · simp at h
    simp [h]
  · simp only [if_true, bind, Except.bind] at h ⊢
    split at h
    · cases h
    · rename_i v hv
      split at h
      · cases h
      · obtain rfl := Except.ok.inj h
        exact read_part_length hv

/-- The bytes a session takes for a PDU with this header. -/
def Session.size (n : Negotiated) (bhs : Bhs) : Nat :=
  48 + (if n.header_digest then 4 else 0) + padded (data_len bhs) +
    (if (decide (0 < data_len bhs) && n.data_digest) = true then 4 else 0)

theorem Session.recv_size {n : Negotiated} {held p : Pdu} {stream rest : List UInt8}
    (h : Session.recv n held stream = .ok (p, rest)) :
    stream.length = Session.size n p.bhs + rest.length := by
  unfold Session.recv at h
  obtain ⟨⟨bhs, s1⟩, hbhs, h⟩ := except_bind_ok.mp h
  obtain ⟨s2, hhd, h⟩ := except_bind_ok.mp h
  have h1 : stream.length = 48 + s1.length := by
    unfold read_bhs at hbhs
    split at hbhs
    · obtain ⟨-, rfl⟩ := Prod.mk.inj (Except.ok.inj hbhs)
      simp
      omega
    · cases hbhs
  have h2 := read_digest_length hhd
  have hle := padded_le (data_len bhs)
  simp only at h
  split at h
  · cases h
  · split at h
    · obtain ⟨rfl, rfl⟩ := Prod.mk.inj (Except.ok.inj h)
      have hzero : data_len bhs = 0 := by omega
      simp only [Session.size, hzero]
      simp at hzero ⊢
      omega
    · rename_i hne
      obtain ⟨⟨rx, s3⟩, hrx, h⟩ := except_bind_ok.mp h
      obtain ⟨s4, hdd, h⟩ := except_bind_ok.mp h
      obtain ⟨rfl, rfl⟩ := Prod.mk.inj (Except.ok.inj h)
      have h3 := read_part_length hrx
      have h4 : s3.length = (if n.data_digest then 4 else 0) + s4.length := read_digest_length hdd
      have hpos : 0 < data_len bhs := by
        by_contra hz
        have hzero : data_len bhs = 0 := by omega
        exact hne (by rw [hzero]; rfl)
      simp only [Session.size, hpos, decide_true, Bool.true_and]
      omega

theorem Session.recv_many_size {n : Negotiated} {k : Nat} {held : Pdu} {got : List Pdu}
    {stream rest : List UInt8}
    (h : read_many (Session.recv n) k held stream = .ok (got, rest)) :
    stream.length = (got.map fun p => Session.size n p.bhs).sum + rest.length := by
  induction k generalizing held got stream with
  | zero =>
    obtain ⟨rfl, rfl⟩ := Prod.mk.inj (Except.ok.inj h)
    simp
  | succ k ih =>
    rw [read_many] at h
    obtain ⟨⟨p, s1⟩, hp, h⟩ := except_bind_ok.mp h
    obtain ⟨⟨ps, s2⟩, hps, h⟩ := except_bind_ok.mp h
    obtain ⟨rfl, rfl⟩ := Prod.mk.inj (Except.ok.inj h)
    have h1 := Session.recv_size hp
    have h2 := ih hps
    simp only [List.map_cons, List.sum_cons]
    omega

theorem WirePdu.bytes_length {n : Negotiated} {p : WirePdu} (h : p.Described) :
    (p.bytes n).length = Session.size n p.pdu.bhs + p.ahs.length := by
  have hbytes := WirePdu.bytes_eq n p []
  rw [List.append_nil] at hbytes
  have h48 := p.pdu.bhs.2
  have hdigest : ∀ on covered, (digest_if on covered).length = if on = true then 4 else 0 := by
    intro on covered
    unfold digest_if
    split <;> simp
  rw [hbytes]
  simp only [List.length_append, segment_length, h48, Session.size, h.2, List.append_nil, hdigest,
    digested]
  omega

/-- Both writers write the same bytes, whatever the buffer held. The compliance
connection reads every list of PDUs back. A session reads it back exactly when
none has an additional header segment. Both find a corrupted data segment. -/
theorem pdus_read_back_unless_a_session_meets_an_ahs (n : Negotiated) :
    (∀ tx header data, Session.frame tx n header data = PduConnection.send n header data) ∧
    (∀ (pdus : List WirePdu) (held : Pdu), (∀ p ∈ pdus, p.Described) →
      read_many (PduConnection.recv n) pdus.length held (pdus.map (·.bytes n)).flatten =
          .ok (pdus.map (·.pdu), []) ∧
      ((∀ p ∈ pdus, padded p.pdu.data.length ≤ RX_CAPACITY) →
        (read_many (Session.recv n) pdus.length held (pdus.map (·.bytes n)).flatten =
            .ok (pdus.map (·.pdu), []) ↔ ∀ p ∈ pdus, p.ahs = []))) ∧
    (∀ (p : WirePdu) (held : Pdu) (rest : List UInt8) i b, p.Described → n.data_digest = true →
      (segment p.pdu.data)[i]? ≠ none → (segment p.pdu.data)[i]? ≠ some b →
      PduConnection.recv n held (p.corrupted n i b ++ rest) = .error .data_digest ∧
        (p.ahs = [] → padded p.pdu.data.length ≤ RX_CAPACITY →
          Session.recv n held (p.corrupted n i b ++ rest) = .error .data_digest)) := by
  refine ⟨fun tx header data => frame_eq_send tx n header data, ?_, ?_⟩
  · intro pdus held h
    have hread := read_many_flatten (fun p hp => PduConnection.recv_bytes (n := n) (h p hp)) held []
    rw [List.append_nil] at hread
    refine ⟨hread, ?_⟩
    intro hroom
    constructor
    · intro hsession
      -- the session takes a size that has no room for the additional segments
      have hsize := Session.recv_many_size hsession
      have hsum : ∀ qs : List WirePdu, (∀ p ∈ qs, p.Described) →
          ((qs.map (·.bytes n)).flatten).length =
            ((qs.map (·.pdu)).map fun p => Session.size n p.bhs).sum +
              (qs.map fun p => p.ahs.length).sum := by
        intro qs hqs
        induction qs with
        | nil => rfl
        | cons q qs ih =>
          have hq := WirePdu.bytes_length (n := n) (hqs q (by simp))
          have hrest := ih fun p hp => hqs p (by simp [hp])
          simp only [List.map_cons, List.flatten_cons, List.length_append, List.sum_cons]
          omega
      rw [hsum pdus h] at hsize
      have hzero : (pdus.map fun p => p.ahs.length).sum = 0 := by
        simp only [List.length_nil] at hsize
        omega
      intro p hp
      have hmem := List.sum_eq_zero_iff_forall_eq_nat.mp hzero p.ahs.length (List.mem_map.mpr ⟨p, hp, rfl⟩)
      exact List.length_eq_zero_iff.mp hmem
    · intro hahs
      have hsession := read_many_flatten
        (fun p hp => Session.recv_bytes (n := n) (h p hp) (hahs p hp) (hroom p hp)) held []
      rwa [List.append_nil] at hsession
  · intro p held rest i b h hn hi hb
    have hlt : i < (segment p.pdu.data).length := by
      by_contra hge
      exact hi (List.getElem?_eq_none (by omega))
    rw [List.getElem?_eq_getElem hlt] at hb
    exact recv_corrupted h hn hlt (fun hc => hb (by rw [hc])) held rest

/-- A command with a CDB of 32 bytes, and a NOP-Out after it: the session takes the
extended CDB for the start of the second header. -/
theorem a_session_loses_its_place_at_an_extended_cdb :
    ∃ (n : Negotiated) (cdb : List UInt8) (c nop : WirePdu), cdb.length = 32 ∧
      c.ahs = extended_cdb cdb ∧ nop.ahs = [] ∧ c.Described ∧ nop.Described ∧
      read_many (PduConnection.recv n) 2 c.pdu (c.bytes n ++ nop.bytes n) = .ok ([c.pdu, nop.pdu], []) ∧
      (read_many (Session.recv n) 2 c.pdu (c.bytes n ++ nop.bytes n)).map Prod.fst ≠
        .ok [c.pdu, nop.pdu] := by
  let cdb := (List.range 32).map UInt8.ofNat
  let bhs := (ScsiCommand.encode ⟨0, 1, 1, 1, cdb, true, false, 512⟩).getD (Block.zero 48)
  refine ⟨⟨false, false, 8192⟩, cdb, ⟨⟨bhs, []⟩, extended_cdb cdb⟩, ⟨⟨nop_out 0 2 NO_TTT 1 1, []⟩, []⟩,
    ?_⟩
  decide +kernel

end stutools.iscsi
