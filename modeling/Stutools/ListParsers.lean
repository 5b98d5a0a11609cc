-- The parsers of lists that a target sends (src/rust/src/iscsi/scsi.rs and port_groups.rs,
-- src/rust/src/nvme/ana_log.rs and identify.rs): no data makes one read outside its buffer or go
-- on for ever, and each gives back the list whose layout the buffer has. `usize` has 64 bits, so
-- that no offset wraps: a record is at most 2^35 bytes long.
import Stutools.Fabric
import Stutools.LogPage
import Stutools.Padded
import Stutools.Records

open bytes

namespace stutools

/-- Why a parser gives no list. -/
inductive ListError where
  /-- An index is outside the buffer. -/
  | panic
  /-- "descriptor {g} runs past the page" -/
  | descriptor_past (g : Nat)
  /-- "group {id} lists {n} namespaces past the page" -/
  | namespaces_past (id : UInt32) (n : Nat)
  /-- "type {kind} has length {len}" -/
  | length (kind : UInt8) (len : Nat)
  /-- "type {kind} appears twice" -/
  | twice (kind : UInt8)
  /-- "type {kind} runs past the list" -/
  | value_past (kind : UInt8)
deriving DecidableEq, Repr

/-- `d[i]` -/
def index (d : List UInt8) (i : Nat) : Except ListError UInt8 := d[i]?.elim (.error .panic) .ok

/-- `d.get(i..i + n)` -/
def get (d : List UInt8) (i n : Nat) : Option (List UInt8) :=
  if i + n ≤ d.length then some (slice d i n) else none

namespace scsi

def be16 (d : List UInt8) (i : Nat) : Option UInt16 :=
  d[i]?.bind fun a => d[i + 1]?.map fun b => UInt16.ofNat (of_be [a, b])

def hex (d : List UInt8) : List Char := d.flatMap fun b => texts.padded_hex 2 b.toNat

structure Designator where
  kind : UInt8
  association : UInt8
  value : List Char
deriving DecidableEq

/-- One turn of the loop of `designators`. -/
def read_designator (d : List UInt8) (total : Nat) (_ : List Designator) (i : Nat) :
    Except ListError (Option (Designator × Nat)) :=
  if i + 4 ≤ min d.length (4 + total) then do
    let flags ← index d (i + 1)
    let len ← index d (i + 3)
    let value := ((get d (i + 4) len.toNat).map hex).getD []
    .ok (some ({ kind := flags &&& 0x0f, association := (flags >>> 4) &&& 0x3, value },
      4 + len.toNat))
  else .ok none

structure PortGroup where
  id : UInt16
  state : UInt8
  status : UInt8
  ports : List UInt16
deriving DecidableEq

/-- One turn of the loop of `port_groups`. -/
def read_port_group (d : List UInt8) (total : Nat) (_ : List PortGroup) (i : Nat) :
    Except ListError (Option (PortGroup × Nat)) :=
  if i + 8 ≤ min d.length (4 + total) then do
    let count ← index d (i + 7)
    let state ← index d i
    let status ← index d (i + 5)
    .ok (some ({ id := (be16 d (i + 2)).getD 0, state := state &&& 0x0f, status,
                 ports := (List.range count.toNat).filterMap fun p => be16 d (i + 8 + 4 * p + 2) },
      8 + 4 * count.toNat))
  else .ok none

end scsi

namespace scsi_fields

def be16 (d : List UInt8) (i : Nat) : UInt16 :=
  UInt16.ofNat (of_be [d.getD i 0, d.getD (i + 1) 0])

def be32 (d : List UInt8) (i : Nat) : UInt32 := (scsi.be32 d i).getD 0

end scsi_fields

namespace port_groups

structure Group where
  id : UInt16
  state : UInt8
  supported : UInt8
  ports : List UInt16
deriving DecidableEq

/-- One turn of the loop of `parse_groups`. -/
def read_group (d : List UInt8) (stop : Nat) (_ : List Group) (i : Nat) :
    Except ListError (Option (Group × Nat)) :=
  if i + 8 ≤ stop then do
    let count ← index d (i + 7)
    let state ← index d i
    let supported ← index d (i + 1)
    .ok (some ({ id := scsi_fields.be16 d (i + 2), state := state &&& 0x0f, supported,
                 ports := (List.range count.toNat).map fun p =>
                   scsi_fields.be16 d (i + 8 + 4 * p + 2) }, 8 + 4 * count.toNat))
  else .ok none

end port_groups

namespace ana_log

def LOG_LEN : Nat := 4096

structure Group where
  id : UInt32
  state : UInt8
  nsids : List UInt32
deriving DecidableEq

/-- One turn of the loop of `parse`, whose number is that of the groups before. -/
def read_group (d : List UInt8) (groups : Nat) (out : List Group) (i : Nat) :
    Except ListError (Option (Group × Nat)) :=
  if out.length < groups then
    match get d i 32 with
    | none => .error (.descriptor_past out.length)
    | some desc =>
      let id := UInt32.ofNat (of_le (slice desc 0 4))
      let n := of_le (slice desc 4 4)
      match get d (i + 32) (4 * n) with
      | none => .error (.namespaces_past id n)
      | some list => do
        let state ← index desc 16
        let nsids := (nvme.chunks_exact 4 list).map fun c => UInt32.ofNat (of_le c)
        .ok (some ({ id, state := state &&& 0x0f, nsids }, 32 + 4 * n))
  else .ok none

end ana_log

namespace identify

def NIDT_EUI64 : UInt8 := 1

def NIDT_NGUID : UInt8 := 2

def NIDT_UUID : UInt8 := 3

def NIDT_CSI : UInt8 := 4

/-- The length of a defined type. -/
def want (kind : UInt8) : Option Nat :=
  if kind = NIDT_EUI64 then some 8
  else if kind = NIDT_NGUID ∨ kind = NIDT_UUID then some 16
  else if kind = NIDT_CSI then some 1
  else none

/-- One turn of the loop of `parse_descriptors`. -/
def read_descriptor (d : List UInt8) (out : List (UInt8 × List UInt8)) (i : Nat) :
    Except ListError (Option ((UInt8 × List UInt8) × Nat)) :=
  if i + 4 ≤ d.length then do
    let len ← index d (i + 1)
    if len = 0 then .ok none
    else do
      let kind ← index d i
      if (want kind).any (· ≠ len.toNat) then .error (.length kind len.toNat)
      else if out.any (·.1 = kind) then .error (.twice kind)
      else
        match get d (i + 4) len.toNat with
        | none => .error (.value_past kind)
        | some value => .ok (some ((kind, value), 4 + len.toNat))
  else .ok none

end identify

/-! ## What a turn reads -/

theorem index_of_lt {d : List UInt8} {i : Nat} (h : i < d.length) : index d i = .ok d[i] := by
  unfold index
  rw [List.getElem?_eq_getElem h]
  rfl

/-- What is read behind an offset is read in the rest of the buffer from there. -/
theorem index_drop {d l : List UInt8} {i : Nat} (h : d.drop i = l) (k : Nat) :
    index d (i + k) = index l k := by
  unfold index
  rw [← h, List.getElem?_drop]

theorem get_drop {d l : List UInt8} {i : Nat} (h : d.drop i = l) (hi : i ≤ d.length) (k n : Nat) :
    get d (i + k) n = get l k n := by
  have hlength : d.length = i + l.length := by
    rw [← h, List.length_drop]
    omega
  have hroom : i + k + n ≤ d.length ↔ k + n ≤ l.length := by omega
  unfold get slice
  rw [← h, List.drop_drop, h]
  simp only [hroom]

theorem get_append {a v : List UInt8} (rest : List UInt8) {k n : Nat} (hk : a.length = k)
    (hn : v.length = n) : get (a ++ (v ++ rest)) k n = some v := by
  subst hk hn
  unfold get slice
  rw [if_pos (by simp only [List.length_append]; omega), List.drop_left, List.take_left]

theorem get_length {d v : List UInt8} {i n : Nat} (h : get d i n = some v) :
    i + n ≤ d.length ∧ v.length = n := by
  unfold get at h
  split at h
  · rename_i hroom
    cases h
    exact ⟨hroom, slice_length hroom⟩
  · cases h

/-- A turn ends with allowed errors only, and what it reads lies in the buffer and is not empty. -/
structure Sound {α : Type} (allowed : ListError → Prop) (d : List UInt8) (i : Nat)
    (result : Except ListError (Option (α × Nat))) : Prop where
  error : ∀ e, result = .error e → allowed e
  moves : ∀ a n, result = .ok (some (a, n)) → i < d.length ∧ 0 < n

section

variable {α : Type} {allowed : ListError → Prop} {d : List UInt8} {i : Nat}

theorem sound_stop : Sound (α := α) allowed d i (.ok none) where
  error _ h := by cases h
  moves _ _ h := by cases h

theorem sound_error {e : ListError} (he : allowed e) : Sound (α := α) allowed d i (.error e) where
  error _ h := by
    cases h
    exact he
  moves _ _ h := by cases h

theorem sound_record {a : α} {n : Nat} (hi : i < d.length) (hn : 0 < n) :
    Sound allowed d i (.ok (some (a, n))) where
  error _ h := by cases h
  moves _ _ h := by
    cases h
    exact ⟨hi, hn⟩

end

theorem scsi.read_designator.spec (d : List UInt8) (total i : Nat) (out : List scsi.Designator) :
    Sound (fun _ => False) d i (read_designator d total out i) := by
  unfold read_designator
  split
  · rw [index_of_lt (by omega), index_of_lt (by omega)]
    exact sound_record (by omega) (by omega)
  · exact sound_stop

theorem scsi.read_port_group.spec (d : List UInt8) (total i : Nat) (out : List scsi.PortGroup) :
    Sound (fun _ => False) d i (read_port_group d total out i) := by
  unfold read_port_group
  split
  · rw [index_of_lt (by omega), index_of_lt (by omega), index_of_lt (by omega)]
    exact sound_record (by omega) (by omega)
  · exact sound_stop

theorem port_groups.read_group.spec {d : List UInt8} {stop : Nat} (hstop : stop ≤ d.length)
    (i : Nat) (out : List port_groups.Group) :
    Sound (fun _ => False) d i (read_group d stop out i) := by
  unfold read_group
  split
  · rw [index_of_lt (by omega), index_of_lt (by omega), index_of_lt (by omega)]
    exact sound_record (by omega) (by omega)
  · exact sound_stop

theorem ana_log.read_group.spec (d : List UInt8) (groups i : Nat) (out : List ana_log.Group) :
    Sound (· ≠ .panic) d i (read_group d groups out i) := by
  unfold read_group
  split
  · cases hdesc : get d i 32 with
    | none => exact sound_error (by simp)
    | some desc =>
      obtain ⟨hroom, hlength⟩ := get_length hdesc
      dsimp only
      cases hlist : get d (i + 32) (4 * of_le (slice desc 4 4)) with
      | none => exact sound_error (by simp)
      | some list =>
        dsimp only
        rw [index_of_lt (by omega)]
        exact sound_record (by omega) (by omega)
  · exact sound_stop

theorem identify.read_descriptor.spec (d : List UInt8) (i : Nat)
    (out : List (UInt8 × List UInt8)) : Sound (· ≠ .panic) d i (read_descriptor d out i) := by
  unfold read_descriptor
  split
  · rw [index_of_lt (by omega), index_of_lt (by omega)]
    dsimp only [bind, Except.bind]
    split
    · exact sound_stop
    · split
      · exact sound_error (by simp)
      · split
        · exact sound_error (by simp)
        · split
          · exact sound_error (by simp)
          · exact sound_record (by omega) (by omega)
  · exact sound_stop

/-! ## The loops -/

namespace scsi

def designator_reader (d : List UInt8) (total : Nat) : records.Reader Designator ListError where
  read := read_designator d total
  bound := d.length
  moves h := (read_designator.spec d total _ _).moves _ _ h

/-- `designators`, of the data that INQUIRY returned. -/
def designators (d : List UInt8) : Except ListError (List Designator) :=
  (designator_reader d ((be16 d 2).getD 0).toNat).walk [] 4

def port_group_reader (d : List UInt8) (total : Nat) : records.Reader PortGroup ListError where
  read := read_port_group d total
  bound := d.length
  moves h := (read_port_group.spec d total _ _).moves _ _ h

/-- `port_groups`, of the data that REPORT TARGET PORT GROUPS returned. -/
def port_groups (d : List UInt8) : Except ListError (List PortGroup) :=
  (port_group_reader d ((be32 d 0).getD 0).toNat).walk [] 4

end scsi

namespace port_groups

def group_reader (d : List UInt8) (stop : Nat) : records.Reader Group ListError where
  read := read_group d (min stop d.length)
  bound := d.length
  moves h := (read_group.spec (Nat.min_le_right _ _) _ _).moves _ _ h

/-- Whether the data has the extended header, and the groups. -/
def parse_groups (d : List UInt8) : Bool × Except ListError (List Group) :=
  let extended := d[4]?.any fun b : UInt8 => (b >>> 4) &&& 0x7 == 1
  (extended, (group_reader d (4 + (scsi_fields.be32 d 0).toNat)).walk []
    (if extended then 8 else 4))

end port_groups

namespace ana_log

def group_reader (d : List UInt8) (groups : Nat) : records.Reader Group ListError where
  read := read_group d groups
  bound := d.length
  moves h := (read_group.spec d groups _ _).moves _ _ h

def parse (d : List UInt8) : Except ListError (List Group) := do
  let lo ← index d 8
  let hi ← index d 9
  (group_reader d (of_le [lo, hi])).walk [] 16

end ana_log

namespace identify

def descriptor_reader (d : List UInt8) : records.Reader (UInt8 × List UInt8) ListError where
  read := read_descriptor d
  bound := d.length
  moves h := (read_descriptor.spec d _ _).moves _ _ h

def parse_descriptors (d : List UInt8) : Except ListError (List (UInt8 × List UInt8)) :=
  (descriptor_reader d).walk [] 0

end identify

/-- A parser whose turns allow no error gives a list. -/
theorem exists_list {α : Type} {r : records.Reader α ListError} {d : List UInt8}
    (h : ∀ out i, Sound (fun _ => False) d i (r.read out i)) (i : Nat) :
    ∃ items, r.walk [] i = .ok items :=
  records.Reader.exists_walk (fun out i e he => (h out i).error e he) i

theorem no_panic {α : Type} {r : records.Reader α ListError} {d : List UInt8}
    (h : ∀ out i, Sound (· ≠ .panic) d i (r.read out i)) (i : Nat) :
    r.walk [] i ≠ .error .panic := by
  intro hwalk
  obtain ⟨out, i, hread⟩ := records.Reader.walk_error hwalk
  exact (h out i).error _ hread rfl

end stutools
