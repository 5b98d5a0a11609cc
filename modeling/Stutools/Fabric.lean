-- What a path says of its namespace when it opens: the block length and the
-- capacity, from READ CAPACITY(16) on iSCSI and Identify Namespace on
-- NVMe-oF, with the machine arithmetic of each.
import Stutools.Bytes
import Stutools.Request

open bytes

namespace stutools

/-- `pool::Geometry`: the block geometry shared by every path of one LUN. -/
structure Geometry where
  block_len : UInt32
  capacity_bytes : UInt64
deriving DecidableEq, Repr

/-- `pool::Io`: one request on a path, in blocks of the namespace. -/
structure Io where
  write : Bool
  lba : Nat
  blocks : Nat
deriving DecidableEq, Repr

/-- `pool::Done`: a command that finished on a path. `status` is zero on success. -/
structure Done where
  tag : Nat
  status : UInt8
  /-- The transport's full status code: SCSI leaves it zero. -/
  code : UInt16
  unavailable : Bool
  /-- The first 64 sense bytes, of which `sense_len` are set. -/
  sense : Block 64
  sense_len : Nat
deriving DecidableEq

/-- Why opening a path fails. -/
inductive OpenError where
  /-- The connection, the login or another command failed, with its text. -/
  | failed (text : String)
  /-- "target kept reporting UNIT ATTENTION" -/
  | unit_attention
  /-- "{operation}: SCSI status {status}, sense {sense}" -/
  | scsi_status (operation : String) (status : UInt8) (sense : List UInt8)
  /-- "READ CAPACITY(16) data is short" -/
  | short
  /-- "NVMe/TCP: the subsystem has no active namespace" -/
  | no_namespace
deriving DecidableEq, Repr

namespace scsi

/-- `session::Outcome`: what a SCSI command returned. -/
structure Outcome where
  status : UInt8
  sense : List UInt8
  data : List UInt8
  received : Nat
deriving DecidableEq, Repr

/-- Status CHECK CONDITION with the sense key UNIT ATTENTION. -/
def unit_attention (o : Outcome) : Bool :=
  o.status == 0x02 && (o.sense[2]?).any fun k => k &&& 0x0f == 0x06

/-- `scsi::command`, over the answers the target gives to the tries, of which
there are at most five. -/
def command : Nat → List (Except OpenError Outcome) → Except OpenError Outcome
  | 0, _ => .error .unit_attention
  | _ + 1, [] => .error (.failed "the connection dropped")
  | _ + 1, .error e :: _ => .error e
  | n + 1, .ok o :: rest => if unit_attention o then command n rest else .ok o

def check (operation : String) (o : Outcome) : Except OpenError Unit :=
  if o.status = 0 then .ok () else .error (.scsi_status operation o.status o.sense)

def be32 (d : List UInt8) (i : Nat) : Option UInt32 :=
  if i + 4 ≤ d.length then some (UInt32.ofNat (of_be (slice d i 4))) else none

def be64 (d : List UInt8) (i : Nat) : Option UInt64 :=
  if i + 8 ≤ d.length then some (UInt64.ofNat (of_be (slice d i 8))) else none

/-- READ CAPACITY(16): the last LBA and the logical block length in bytes. -/
def capacity (answers : List (Except OpenError Outcome)) : Except OpenError (UInt64 × UInt32) := do
  let o ← command 5 answers
  check "READ CAPACITY(16)" o
  let last ← (be64 o.data 0).elim (.error .short) .ok
  let block ← (be32 o.data 8).elim (.error .short) .ok
  return (last, block)

end scsi

namespace iscsi

/-- `IscsiFabric::open`, from how the login and the reading of the access tier
end and what the target answers to READ CAPACITY(16). The sum and the product
are those of 64-bit words. -/
def open_path {σ : Type} (login : Except OpenError σ) (access_tier : σ → Except OpenError σ)
    (answers : List (Except OpenError scsi.Outcome)) : Except OpenError (σ × Geometry) := do
  let session ← login
  let session ← access_tier session
  let (last, block_len) ← scsi.capacity answers
  return (session, { block_len, capacity_bytes := (last + 1) * block_len.toUInt64 })

end iscsi

namespace nvme

/-- The data of an Identify command: always a buffer of 4096 bytes. -/
def Identify := { d : List UInt8 // d.length = 4096 }

/-- The fields of `identify::NamespaceInfo` that give the geometry. -/
structure NamespaceInfo where
  blocks : UInt64
  block_len : UInt32
deriving DecidableEq, Repr

/-- The index of the LBA format: FLBAS bits 3:0, and bits 6:5 above them when
there are more than 16 formats. -/
def format_index (d : List UInt8) : Nat :=
  let flbas := (d.getD 26 0).toNat
  if 16 ≤ (d.getD 25 0).toNat then flbas % 16 + flbas / 32 % 4 * 16 else flbas % 16

/-- LBADS of the format in use: the third byte of its descriptor. -/
def lbads (d : List UInt8) : Nat :=
  of_le (slice d (128 + 4 * format_index d) 4) / 2 ^ 16 % 2 ^ 8

def parse_namespace (d : Identify) : NamespaceInfo :=
  { blocks := UInt64.ofNat (of_le (slice d.1 0 8))
    block_len := UInt32.ofNat (2 ^ min (lbads d.1) 31) }

/-- `identify::parse_active_namespaces`: the namespace IDs until the zero. -/
def parse_active_namespaces : List UInt8 → List UInt32
  | b0 :: b1 :: b2 :: b3 :: rest =>
    let nsid := UInt32.ofNat (of_le [b0, b1, b2, b3])
    if nsid = 0 then [] else nsid :: parse_active_namespaces rest
  | _ => []

/-- What the controller does while a path opens: how connecting the admin queue
and enabling the controller end, what it answers to each Identify, and how
connecting the I/O queue ends. -/
structure Opening (σ : Type) where
  admin : Except OpenError Unit
  active : Except OpenError Identify
  namespace_data : UInt32 → Except OpenError Identify
  controller : Except OpenError Identify
  io : UInt32 → Except OpenError σ

/-- The namespace the path names, or else the first active one. -/
def Opening.nsid {σ : Type} (t : Opening σ) : Option UInt32 → Except OpenError UInt32
  | some nsid => .ok nsid
  | none => do
    let d ← t.active
    (parse_active_namespaces d.1).head?.elim (.error .no_namespace) .ok

/-- `NvmeFabric::open`. The product is that of 64-bit words. -/
def open_path {σ : Type} (nsid : Option UInt32) (t : Opening σ) :
    Except OpenError (σ × Geometry) := do
  t.admin
  let nsid ← t.nsid nsid
  let ns := parse_namespace (← t.namespace_data nsid)
  let _ ← t.controller
  let session ← t.io nsid
  return (session, { block_len := ns.block_len, capacity_bytes := ns.blocks * ns.block_len.toUInt64 })

end nvme

/-! ## A sane geometry -/

/-- A geometry that later divisions and range checks can rely on: blocks of at
least one byte, and the exact size of that many of them. -/
def Sane (blocks : Nat) (g : Geometry) : Prop :=
  1 ≤ g.block_len.toNat ∧ g.capacity_bytes.toNat = blocks * g.block_len.toNat

instance (blocks : Nat) (g : Geometry) : Decidable (Sane blocks g) :=
  inferInstanceAs (Decidable (_ ∧ _))

/-- A product of 64-bit words is exact when it does not wrap around. -/
theorem product_exact_iff {a b : UInt64} {blocks : Nat} (ha : a.toNat = blocks % 2 ^ 64) :
    (a * b).toNat = blocks * b.toNat ↔ blocks * b.toNat < 2 ^ 64 := by
  rw [UInt64.toNat_mul, ha, Nat.mod_mul_mod]
  constructor
  · intro h
    rw [← h]
    exact Nat.mod_lt _ (by decide)
  · intro h
    exact Nat.mod_eq_of_lt h

namespace scsi

/-- The answer the retries end with: the first that is not a unit attention,
among the first five. -/
def Answered (answers : List (Except OpenError Outcome)) (o : Outcome) : Prop :=
  ∃ (before : List Outcome) (rest : List (Except OpenError Outcome)),
    answers = before.map .ok ++ .ok o :: rest ∧ before.length < 5 ∧
    (∀ u ∈ before, unit_attention u = true) ∧ unit_attention o = false

/-- The last LBA that READ CAPACITY(16) data names. -/
def last_lba (o : Outcome) : Nat := of_be (slice o.data 0 8)

/-- The block length that READ CAPACITY(16) data names. -/
def block_bytes (o : Outcome) : Nat := of_be (slice o.data 8 4)

theorem command_ok_iff (n : Nat) (answers : List (Except OpenError Outcome)) (o : Outcome) :
    command n answers = .ok o ↔
      ∃ (before : List Outcome) (rest : List (Except OpenError Outcome)),
        answers = before.map .ok ++ .ok o :: rest ∧ before.length < n ∧
        (∀ u ∈ before, unit_attention u = true) ∧ unit_attention o = false := by
  induction n generalizing answers with
  | zero => simp [command]
  | succ n ih =>
    constructor
    · intro h
      match answers with
      | .ok u :: rest =>
        by_cases hu : unit_attention u = true
        · rw [command, if_pos hu, ih] at h
          obtain ⟨before, rest', rfl, hlen, hall, ho⟩ := h
          refine ⟨u :: before, rest', rfl, by simpa using hlen, ?_, ho⟩
          rintro v (_ | ⟨_, hv⟩)
          · exact hu
          · exact hall v hv
        · rw [command, if_neg hu] at h
          obtain rfl := Except.ok.inj h
          exact ⟨[], rest, rfl, by simp, by simp, by simpa using hu⟩
    · rintro ⟨before, rest, rfl, hlen, hall, ho⟩
      cases before with
      | nil => simp [command, ho]
      | cons u before =>
        have hu : unit_attention u = true := hall u (by simp)
        simp only [List.map_cons, List.cons_append, command, hu, if_true]
        rw [ih]
        exact ⟨before, rest, rfl, by simpa using hlen, fun v hv => hall v (by simp [hv]), ho⟩

theorem Answered.unique {answers : List (Except OpenError Outcome)} {o o' : Outcome}
    (h : Answered answers o) (h' : Answered answers o') : o = o' := by
  have hc := (command_ok_iff 5 answers o).mpr h
  rw [(command_ok_iff 5 answers o').mpr h'] at hc
  exact (Except.ok.inj hc).symm

theorem capacity_ok_iff (answers : List (Except OpenError Outcome)) (last : UInt64)
    (block : UInt32) :
    capacity answers = .ok (last, block) ↔
      ∃ o, Answered answers o ∧ o.status = 0 ∧ 12 ≤ o.data.length ∧
        last = UInt64.ofNat (last_lba o) ∧ block = UInt32.ofNat (block_bytes o) := by
  unfold capacity Answered
  rw [except_bind_ok]
  simp only [command_ok_iff]
  apply exists_congr
  intro o
  apply and_congr_right
  intro _
  by_cases hs : o.status = 0
  · by_cases hl : 12 ≤ o.data.length
    · have h8 : 8 ≤ o.data.length := by omega
      simp [check, hs, hl, h8, be32, be64, last_lba, block_bytes, bind, Except.bind, pure,
        Except.pure, eq_comm]
    · by_cases h8 : 8 ≤ o.data.length
      · simp [check, hs, hl, h8, be32, be64, bind, Except.bind]
      · simp [check, hs, hl, h8, be64, bind, Except.bind]
  · simp [check, hs, bind, Except.bind]

end scsi

/-- The iSCSI path opens on this answer to READ CAPACITY(16): the login and the
access tier are read, and the answer is GOOD and long enough. -/
def iscsi.Opens {σ : Type} (login : Except OpenError σ) (access_tier : σ → Except OpenError σ)
    (answers : List (Except OpenError scsi.Outcome)) (o : scsi.Outcome) : Prop :=
  (∃ s t, login = .ok s ∧ access_tier s = .ok t) ∧ scsi.Answered answers o ∧ o.status = 0 ∧
    12 ≤ o.data.length

theorem iscsi.open_path_ok_iff {σ : Type} (login : Except OpenError σ)
    (access_tier : σ → Except OpenError σ) (answers : List (Except OpenError scsi.Outcome))
    (g : Geometry) :
    (∃ session, iscsi.open_path login access_tier answers = .ok (session, g)) ↔
      ∃ o, iscsi.Opens login access_tier answers o ∧
        g = ⟨UInt32.ofNat (scsi.block_bytes o),
          (UInt64.ofNat (scsi.last_lba o) + 1) * (UInt32.ofNat (scsi.block_bytes o)).toUInt64⟩ := by
  unfold iscsi.open_path iscsi.Opens
  constructor
  · rintro ⟨session, h⟩
    obtain ⟨s, hs, h⟩ := except_bind_ok.mp h
    obtain ⟨t, ht, h⟩ := except_bind_ok.mp h
    obtain ⟨⟨last, block⟩, hc, h⟩ := except_bind_ok.mp h
    obtain ⟨o, ho, hstatus, hlen, rfl, rfl⟩ := (scsi.capacity_ok_iff _ _ _).mp hc
    obtain ⟨rfl, rfl⟩ := Prod.mk.inj (Except.ok.inj h)
    exact ⟨o, ⟨⟨s, t, hs, ht⟩, ho, hstatus, hlen⟩, rfl⟩
  · rintro ⟨o, ⟨⟨s, t, hs, ht⟩, ho, hstatus, hlen⟩, rfl⟩
    have hc := (scsi.capacity_ok_iff answers _ _).mpr ⟨o, ho, hstatus, hlen, rfl, rfl⟩
    exact ⟨t, except_bind_ok.mpr ⟨s, hs, except_bind_ok.mpr ⟨t, ht, except_bind_ok.mpr ⟨_, hc, rfl⟩⟩⟩⟩

/-- The block count that Identify Namespace data names. -/
def nvme.block_count (d : nvme.Identify) : Nat := of_le (slice d.1 0 8)

/-- The NVMe path opens on this Identify Namespace data: it is that of the
namespace taken, and everything else the controller is asked for succeeds. -/
def nvme.Opens {σ : Type} (nsid : Option UInt32) (t : nvme.Opening σ) (d : nvme.Identify) : Prop :=
  t.admin = .ok () ∧ ∃ id, t.nsid nsid = .ok id ∧ t.namespace_data id = .ok d ∧
    (∃ c, t.controller = .ok c) ∧ ∃ session, t.io id = .ok session

theorem nvme.open_path_ok_iff {σ : Type} (nsid : Option UInt32) (t : nvme.Opening σ)
    (g : Geometry) :
    (∃ session, nvme.open_path nsid t = .ok (session, g)) ↔
      ∃ d, nvme.Opens nsid t d ∧
        g = ⟨(nvme.parse_namespace d).block_len,
          (nvme.parse_namespace d).blocks * (nvme.parse_namespace d).block_len.toUInt64⟩ := by
  unfold nvme.open_path nvme.Opens
  constructor
  · rintro ⟨session, h⟩
    obtain ⟨⟨⟩, hadmin, h⟩ := except_bind_ok.mp h
    obtain ⟨id, hid, h⟩ := except_bind_ok.mp h
    obtain ⟨d, hd, h⟩ := except_bind_ok.mp h
    obtain ⟨c, hc, h⟩ := except_bind_ok.mp h
    obtain ⟨io, hio, h⟩ := except_bind_ok.mp h
    obtain ⟨rfl, rfl⟩ := Prod.mk.inj (Except.ok.inj h)
    exact ⟨d, ⟨hadmin, id, hid, hd, ⟨c, hc⟩, _, hio⟩, rfl⟩
  · rintro ⟨d, ⟨hadmin, id, hid, hd, ⟨c, hc⟩, session, hio⟩, rfl⟩
    exact ⟨session, except_bind_ok.mpr ⟨(), hadmin, except_bind_ok.mpr ⟨id, hid,
      except_bind_ok.mpr ⟨d, hd, except_bind_ok.mpr ⟨c, hc, except_bind_ok.mpr ⟨_, hio, rfl⟩⟩⟩⟩⟩⟩

theorem nvme.Opens.unique {σ : Type} {nsid : Option UInt32} {t : nvme.Opening σ}
    {d d' : nvme.Identify} (h : nvme.Opens nsid t d) (h' : nvme.Opens nsid t d') : d = d' := by
  obtain ⟨-, id, hid, hd, -⟩ := h
  obtain ⟨-, id', hid', hd', -⟩ := h'
  rw [hid] at hid'
  obtain rfl := Except.ok.inj hid'
  rw [hd] at hd'
  exact Except.ok.inj hd'

theorem iscsi.sane_iff (o : scsi.Outcome) :
    Sane (scsi.last_lba o + 1) ⟨UInt32.ofNat (scsi.block_bytes o),
        (UInt64.ofNat (scsi.last_lba o) + 1) * (UInt32.ofNat (scsi.block_bytes o)).toUInt64⟩ ↔
      1 ≤ scsi.block_bytes o ∧ (scsi.last_lba o + 1) * scsi.block_bytes o < 2 ^ 64 := by
  have hb : scsi.block_bytes o < 2 ^ 32 := by
    have h4 : (slice o.data 8 4).length ≤ 4 := by simp [slice]
    exact Nat.lt_of_lt_of_le (of_be_lt _) (Nat.pow_le_pow_right (n := 256) (by omega) h4)
  have hblock : (UInt32.ofNat (scsi.block_bytes o)).toNat = scsi.block_bytes o :=
    Nat.mod_eq_of_lt hb
  have hlast : (UInt64.ofNat (scsi.last_lba o) + 1).toNat = (scsi.last_lba o + 1) % 2 ^ 64 := by
    rw [UInt64.toNat_add, UInt64.toNat_ofNat']
    exact Nat.mod_add_mod _ _ _
  have hexact := product_exact_iff (b := (UInt32.ofNat (scsi.block_bytes o)).toUInt64) hlast
  rw [UInt32.toNat_toUInt64, hblock] at hexact
  unfold Sane
  rw [hblock, hexact]

theorem nvme.sane_iff (d : nvme.Identify) :
    Sane (nvme.block_count d) ⟨(nvme.parse_namespace d).block_len,
        (nvme.parse_namespace d).blocks * (nvme.parse_namespace d).block_len.toUInt64⟩ ↔
      nvme.block_count d * 2 ^ min (nvme.lbads d.1) 31 < 2 ^ 64 := by
  have hpow : 2 ^ min (nvme.lbads d.1) 31 < 2 ^ 32 :=
    Nat.pow_lt_pow_right (by omega) (by omega)
  have hblock : (nvme.parse_namespace d).block_len.toNat = 2 ^ min (nvme.lbads d.1) 31 :=
    Nat.mod_eq_of_lt hpow
  have hblocks : (nvme.parse_namespace d).blocks.toNat = nvme.block_count d % 2 ^ 64 := by
    simp [nvme.parse_namespace, nvme.block_count]
  have hexact := product_exact_iff (b := (nvme.parse_namespace d).block_len.toUInt64) hblocks
  rw [UInt32.toNat_toUInt64, hblock] at hexact
  unfold Sane
  rw [hblock, hexact]
  exact and_iff_right Nat.one_le_two_pow

/-- On both transports a path opens with a sane geometry exactly when the target
names blocks of at least one byte (an NVMe block always is) and a capacity that
fits 64 bits. -/
theorem a_path_opens_sane_iff_its_capacity_fits {σ : Type} :
    (∀ (login : Except OpenError σ) access_tier answers,
      (∀ session g, iscsi.open_path login access_tier answers = .ok (session, g) →
          ∃ o, iscsi.Opens login access_tier answers o ∧ Sane (scsi.last_lba o + 1) g) ↔
        ∀ o, iscsi.Opens login access_tier answers o →
          1 ≤ scsi.block_bytes o ∧ (scsi.last_lba o + 1) * scsi.block_bytes o < 2 ^ 64) ∧
    ∀ nsid (t : nvme.Opening σ),
      (∀ session g, nvme.open_path nsid t = .ok (session, g) →
          ∃ d, nvme.Opens nsid t d ∧ Sane (nvme.block_count d) g) ↔
        ∀ d, nvme.Opens nsid t d → nvme.block_count d * 2 ^ min (nvme.lbads d.1) 31 < 2 ^ 64 := by
  constructor
  · intro login access_tier answers
    constructor
    · intro h o ho
      obtain ⟨session, hopen⟩ := (iscsi.open_path_ok_iff login access_tier answers _).mpr ⟨o, ho, rfl⟩
      obtain ⟨o', ho', hsane⟩ := h session _ hopen
      obtain rfl := ho.2.1.unique ho'.2.1
      exact (iscsi.sane_iff o).mp hsane
    · intro h session g hopen
      obtain ⟨o, ho, rfl⟩ := (iscsi.open_path_ok_iff login access_tier answers g).mp ⟨session, hopen⟩
      exact ⟨o, ho, (iscsi.sane_iff o).mpr (h o ho)⟩
  · intro nsid t
    constructor
    · intro h d hd
      obtain ⟨session, hopen⟩ := (nvme.open_path_ok_iff nsid t _).mpr ⟨d, hd, rfl⟩
      obtain ⟨d', hd', hsane⟩ := h session _ hopen
      obtain rfl := hd.unique hd'
      exact (nvme.sane_iff d).mp hsane
    · intro h session g hopen
      obtain ⟨d, hd, rfl⟩ := (nvme.open_path_ok_iff nsid t g).mp ⟨session, hopen⟩
      exact ⟨d, hd, (nvme.sane_iff d).mpr (h d hd)⟩

/-- A target that answers READ CAPACITY(16) with zeros opens with blocks of no
bytes, by which every later request is divided. -/
theorem a_path_opens_with_empty_blocks :
    ∃ o : scsi.Outcome, iscsi.Opens (.ok ()) .ok [.ok o] o ∧
      iscsi.open_path (.ok ()) .ok [.ok o] = .ok ((), ⟨0, 0⟩) ∧ ¬ Sane (scsi.last_lba o + 1) ⟨0, 0⟩ := by
  refine ⟨⟨0, [], List.replicate 32 0, 32⟩, ⟨⟨(), (), rfl, rfl⟩, ⟨[], [], rfl, ?_⟩, ?_⟩, ?_⟩
  · decide
  · decide
  · decide

end stutools
