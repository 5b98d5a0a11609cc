-- The layouts that the parsers of lists read, and that each parser gives back the list it was
-- laid out from, whatever follows it in the buffer: designation descriptors, target port groups
-- behind either header, the groups of the ANA log page and namespace descriptors.
import Stutools.ListParsers

open bytes

namespace stutools

/-! ## Fields -/

theorem be_two (n : Nat) : be 2 n = [UInt8.ofNat (n / 256), UInt8.ofNat n] := rfl

/-- A byte with a flag at the top, two bits below the next one and four at the end. -/
def flags (top : Bool) (middle low : UInt8) : UInt8 :=
  (if top then (0x80 : UInt8) else 0) ||| middle <<< 4 ||| low

theorem flags_fields (top : Bool) {middle low : UInt8} (hmiddle : middle < 4) (hlow : low < 16) :
    flags top middle low &&& 0x0f = low ∧ (flags top middle low >>> 4) &&& 0x3 = middle ∧
      ((flags top 0 low >>> 4) &&& 0x7 == 1) = false := by
  have hall : ∀ top : Bool, ∀ m < 4, ∀ l < 16,
      flags top (.ofNat m) (.ofNat l) &&& 0x0f = .ofNat l ∧
        (flags top (.ofNat m) (.ofNat l) >>> 4) &&& 0x3 = .ofNat m ∧
          ((flags top 0 (.ofNat l) >>> 4) &&& 0x7 == 1) = false := by decide
  have h := hall top middle.toNat (UInt8.lt_iff_toNat_lt.mp hmiddle) low.toNat
    (UInt8.lt_iff_toNat_lt.mp hlow)
  rwa [UInt8.ofNat_toNat, UInt8.ofNat_toNat] at h

theorem scsi.be16_at {d a rest : List UInt8} {i k : Nat} {x : UInt16}
    (h : d.drop i = a ++ (be 2 x.toNat ++ rest)) (hk : a.length = k) :
    scsi.be16 d (i + k) = some x := by
  subst hk
  have hbytes : d.drop (i + a.length) = be 2 x.toNat ++ rest := by
    rw [← List.drop_drop, h, List.drop_left]
  have hfirst : d[i + a.length]? = some (UInt8.ofNat (x.toNat / 256)) := by
    have := congrArg (fun l : List UInt8 => l[0]?) hbytes
    rwa [List.getElem?_drop] at this
  have hsecond : d[i + a.length + 1]? = some (UInt8.ofNat x.toNat) := by
    have := congrArg (fun l : List UInt8 => l[1]?) hbytes
    rwa [List.getElem?_drop] at this
  unfold scsi.be16
  rw [hfirst, hsecond, Option.bind_some, Option.map_some, ← be_two,
    of_be_be_of_lt (by simpa using x.toNat_lt), UInt16.ofNat_toNat]

theorem scsi_fields.be16_of_some {d : List UInt8} {i : Nat} {x : UInt16}
    (h : scsi.be16 d i = some x) : scsi_fields.be16 d i = x := by
  unfold scsi.be16 at h
  obtain ⟨a, ha, h⟩ := Option.bind_eq_some_iff.mp h
  obtain ⟨b, hb, h⟩ := Option.map_eq_some_iff.mp h
  unfold scsi_fields.be16
  rw [List.getD_eq_getElem?_getD, List.getD_eq_getElem?_getD, ha, hb]
  exact h

theorem scsi.be32_zero {n : Nat} (h : n < 2 ^ 32) (rest : List UInt8) :
    scsi.be32 (be 4 n ++ rest) 0 = some (UInt32.ofNat n) := by
  unfold scsi.be32
  rw [if_pos (by simp), slice, List.drop_zero, List.take_left' (be_length 4 n),
    of_be_be_of_lt (by simpa using h)]

/-! ## Designation descriptors -/

namespace scsi

/-- A designation descriptor of VPD page 83h: `code_set` is the whole first byte. -/
structure Designation where
  code_set : UInt8
  piv : Bool
  association : UInt8
  kind : UInt8
  value : List UInt8
  association_lt : association < 4
  kind_lt : kind < 16
  value_lt : value.length < 256

def Designation.encode (x : Designation) : List UInt8 :=
  [x.code_set, flags x.piv x.association x.kind, 0, UInt8.ofNat x.value.length] ++ x.value

def Designation.designator (x : Designation) : Designator :=
  { kind := x.kind, association := x.association, value := hex x.value }

def page_83 (peripheral : UInt8) (l : List Designation) : List UInt8 :=
  [peripheral, 0x83] ++ (be 2 (l.flatMap Designation.encode).length ++ l.flatMap Designation.encode)

theorem read_designation {d post : List UInt8} {total i : Nat} (x : Designation)
    (h : d.drop i = x.encode ++ post) (hroom : i + 4 ≤ min d.length (4 + total))
    (out : List Designator) :
    read_designator d total out i = .ok (some (x.designator, x.encode.length)) := by
  have hlen : (UInt8.ofNat x.value.length).toNat = x.value.length := by
    simpa using x.value_lt
  obtain ⟨hkind, hassociation, -⟩ := flags_fields x.piv x.association_lt x.kind_lt
  have hvalue : get d (i + 4) x.value.length = some x.value := by
    rw [get_drop h (by omega), Designation.encode, List.append_assoc]
    exact get_append post rfl rfl
  have hflags : index d (i + 1) = .ok (flags x.piv x.association x.kind) := index_drop h 1
  have hbyte : index d (i + 3) = .ok (UInt8.ofNat x.value.length) := index_drop h 3
  unfold read_designator
  rw [if_pos hroom, hflags, hbyte]
  dsimp only [bind, Except.bind]
  rw [hlen, hvalue, hkind, hassociation, Designation.encode, List.length_append]
  rfl

theorem designators_page_83 (peripheral : UInt8) (l : List Designation) (rest : List UInt8)
    (hfits : (page_83 peripheral l).length ≤ 255) :
    designators (page_83 peripheral l ++ rest) = .ok (l.map Designation.designator) := by
  obtain ⟨d, hd⟩ : ∃ d, d = page_83 peripheral l ++ rest := ⟨_, rfl⟩
  have hlength : (page_83 peripheral l).length = 4 + (l.flatMap Designation.encode).length := by
    simp only [page_83, List.length_append, be_length, List.length_cons, List.length_nil]
    omega
  have hdlength : d.length = 4 + (l.flatMap Designation.encode).length + rest.length := by
    rw [hd, List.length_append, hlength]
  have hx : (UInt16.ofNat (l.flatMap Designation.encode).length).toNat =
      (l.flatMap Designation.encode).length :=
    UInt16.toNat_ofNat_of_lt' (by unfold UInt16.size; omega)
  have hhead : d.drop 0 = [peripheral, 0x83] ++
      (be 2 (UInt16.ofNat (l.flatMap Designation.encode).length).toNat ++
        (l.flatMap Designation.encode ++ rest)) := by
    rw [hx, hd, page_83, List.drop_zero, List.append_assoc, List.append_assoc]
  have htotal : be16 d 2 = some (UInt16.ofNat (l.flatMap Designation.encode).length) :=
    be16_at hhead rfl
  have hdrop : d.drop 4 = l.flatMap Designation.encode ++ rest := by
    rw [hd]
    rfl
  unfold designators
  rw [← hd, htotal, Option.getD_some, hx]
  refine records.Reader.walk_encoded l hdrop (fun before x after j _ hroom hat => ?_) fun _ => ?_
  · have hsize : x.encode.length = x.value.length + 4 := rfl
    exact read_designation x hat (by omega) (before.map Designation.designator)
  · exact if_neg (by omega)

end scsi

/-! ## Target port groups -/

/-- A target port group descriptor of REPORT TARGET PORT GROUPS. -/
structure TargetPortGroup where
  pref : Bool
  state : UInt8
  supported : UInt8
  id : UInt16
  status : UInt8
  vendor : UInt8
  ports : List UInt16
  state_lt : state < 16
  ports_lt : ports.length < 256

namespace TargetPortGroup

def encode_port (port : UInt16) : List UInt8 := [0, 0] ++ be 2 port.toNat

def encode (x : TargetPortGroup) : List UInt8 :=
  [flags x.pref 0 x.state, x.supported] ++ (be 2 x.id.toNat ++
    ([0, x.status, x.vendor, UInt8.ofNat x.ports.length] ++ x.ports.flatMap encode_port))

def port_group (x : TargetPortGroup) : scsi.PortGroup :=
  { id := x.id, state := x.state, status := x.status, ports := x.ports }

def group (x : TargetPortGroup) : port_groups.Group :=
  { id := x.id, state := x.state, supported := x.supported, ports := x.ports }

theorem encode_port_length (port : UInt16) : (encode_port port).length = 4 := rfl

theorem encode_length (x : TargetPortGroup) : x.encode.length = 8 + 4 * x.ports.length := by
  have hports := records.length_flatMap encode_port_length x.ports
  simp only [encode, List.length_append, be_length, List.length_cons, List.length_nil]
  omega

/-- The fields of a descriptor, where it stands in a buffer. -/
structure At (x : TargetPortGroup) (d : List UInt8) (i : Nat) : Prop where
  state : index d i = .ok (flags x.pref 0 x.state)
  supported : index d (i + 1) = .ok x.supported
  id : scsi.be16 d (i + 2) = some x.id
  status : index d (i + 5) = .ok x.status
  count : index d (i + 7) = .ok (UInt8.ofNat x.ports.length)
  ports : ∀ p (hp : p < x.ports.length), scsi.be16 d (i + 8 + 4 * p + 2) = some x.ports[p]

theorem at_of_drop {x : TargetPortGroup} {d post : List UInt8} {i : Nat}
    (h : d.drop i = x.encode ++ post) : x.At d i where
  state := index_drop h 0
  supported := index_drop h 1
  id := by
    rw [encode, List.append_assoc, List.append_assoc] at h
    exact scsi.be16_at h rfl
  status := index_drop h 5
  count := index_drop h 7
  ports p hp := by
    have hports : d.drop (i + 8) = x.ports.flatMap encode_port ++ post := by
      rw [← List.drop_drop, h]
      rfl
    have hlength := records.length_flatMap encode_port_length x.ports
    have hport : d.drop (i + 8 + 4 * p) = [0, 0] ++ (be 2 x.ports[p].toNat ++
        ((x.ports.drop (p + 1)).flatMap encode_port ++ post)) := by
      rw [← List.drop_drop, hports, List.drop_append_of_le_length (by omega), Nat.mul_comm,
        records.drop_flatMap encode_port_length hp, encode_port]
      simp only [List.append_assoc]
    exact scsi.be16_at hport rfl

end TargetPortGroup

theorem scsi.read_target_port_group {d : List UInt8} {total i : Nat} (x : TargetPortGroup)
    (h : x.At d i) (hroom : i + 8 ≤ min d.length (4 + total)) (out : List scsi.PortGroup) :
    read_port_group d total out i = .ok (some (x.port_group, x.encode.length)) := by
  have hcount : (UInt8.ofNat x.ports.length).toNat = x.ports.length :=
    UInt8.toNat_ofNat_of_lt' x.ports_lt
  obtain ⟨hstate, -, -⟩ := flags_fields x.pref (show (0 : UInt8) < 4 by decide) x.state_lt
  unfold read_port_group
  rw [if_pos hroom, h.count, h.state, h.status]
  dsimp only [bind, Except.bind]
  rw [hcount, h.id, hstate, records.filterMap_range_eq h.ports, x.encode_length]
  rfl

theorem port_groups.read_target_port_group {d : List UInt8} {stop i : Nat} (x : TargetPortGroup)
    (h : x.At d i) (hroom : i + 8 ≤ stop) (out : List port_groups.Group) :
    read_group d stop out i = .ok (some (x.group, x.encode.length)) := by
  have hcount : (UInt8.ofNat x.ports.length).toNat = x.ports.length :=
    UInt8.toNat_ofNat_of_lt' x.ports_lt
  obtain ⟨hstate, -, -⟩ := flags_fields x.pref (show (0 : UInt8) < 4 by decide) x.state_lt
  unfold read_group
  rw [if_pos hroom, h.count, h.state, h.supported]
  dsimp only [bind, Except.bind]
  rw [hcount, scsi_fields.be16_of_some h.id, hstate,
    records.map_range_eq fun p hp => scsi_fields.be16_of_some (h.ports p hp), x.encode_length]
  rfl

/-- The data with the length only header. -/
def rtpg (l : List TargetPortGroup) : List UInt8 :=
  be 4 (l.flatMap TargetPortGroup.encode).length ++ l.flatMap TargetPortGroup.encode

/-- The data with the extended header. -/
def rtpg_extended (transition : UInt8) (l : List TargetPortGroup) : List UInt8 :=
  be 4 ((l.flatMap TargetPortGroup.encode).length + 4) ++
    ([0x10, transition, 0, 0] ++ l.flatMap TargetPortGroup.encode)

theorem scsi.port_groups_rtpg (l : List TargetPortGroup) (rest : List UInt8)
    (hfits : (rtpg l).length ≤ 1024) :
    port_groups (rtpg l ++ rest) = .ok (l.map TargetPortGroup.port_group) := by
  obtain ⟨d, hd⟩ : ∃ d, d = rtpg l ++ rest := ⟨_, rfl⟩
  have hlength : (rtpg l).length = 4 + (l.flatMap TargetPortGroup.encode).length := by
    rw [rtpg, List.length_append, be_length]
  have hdlength : d.length = 4 + (l.flatMap TargetPortGroup.encode).length + rest.length := by
    rw [hd, List.length_append, hlength]
  have htotal : be32 d 0 = some (UInt32.ofNat (l.flatMap TargetPortGroup.encode).length) := by
    rw [hd, rtpg, List.append_assoc]
    exact be32_zero (by omega) _
  have hx : (UInt32.ofNat (l.flatMap TargetPortGroup.encode).length).toNat =
      (l.flatMap TargetPortGroup.encode).length :=
    UInt32.toNat_ofNat_of_lt' (by unfold UInt32.size; omega)
  have hdrop : d.drop 4 = l.flatMap TargetPortGroup.encode ++ rest := by
    rw [hd]
    rfl
  unfold port_groups
  rw [← hd, htotal, Option.getD_some, hx]
  refine records.Reader.walk_encoded l hdrop (fun before x after j _ hroom hat => ?_) fun _ => ?_
  · have hsize := x.encode_length
    exact read_target_port_group x (TargetPortGroup.at_of_drop hat) (by omega)
      (before.map TargetPortGroup.port_group)
  · exact if_neg (by omega)

namespace port_groups

/-- Groups that end where the length field says, read from where they begin. -/
theorem walk_target_port_groups {d rest : List UInt8} {i stop : Nat} (l : List TargetPortGroup)
    (hdrop : d.drop i = l.flatMap TargetPortGroup.encode ++ rest)
    (hstop : i + (l.flatMap TargetPortGroup.encode).length = stop) (hle : stop ≤ d.length) :
    (group_reader d stop).walk [] i = .ok (l.map TargetPortGroup.group) := by
  refine records.Reader.walk_encoded l hdrop (fun before x after j _ hroom hat => ?_) fun _ => ?_
  · have hsize := x.encode_length
    exact read_target_port_group x (TargetPortGroup.at_of_drop hat) (by omega)
      (before.map TargetPortGroup.group)
  · exact if_neg (by omega)

theorem parse_groups_rtpg (l : List TargetPortGroup) (rest : List UInt8)
    (hfits : (rtpg l).length ≤ 4096) :
    (parse_groups (rtpg l ++ rest)).2 = .ok (l.map TargetPortGroup.group) := by
  obtain ⟨d, hd⟩ : ∃ d, d = rtpg l ++ rest := ⟨_, rfl⟩
  have hlength : (rtpg l).length = 4 + (l.flatMap TargetPortGroup.encode).length := by
    rw [rtpg, List.length_append, be_length]
  have hdlength : d.length = 4 + (l.flatMap TargetPortGroup.encode).length + rest.length := by
    rw [hd, List.length_append, hlength]
  have htotal : (scsi_fields.be32 d 0).toNat = (l.flatMap TargetPortGroup.encode).length := by
    rw [scsi_fields.be32, hd, rtpg, List.append_assoc, scsi.be32_zero (by omega)]
    exact UInt32.toNat_ofNat_of_lt' (by unfold UInt32.size; omega)
  have hdrop : d.drop 4 = l.flatMap TargetPortGroup.encode ++ rest := by
    rw [hd]
    rfl
  unfold parse_groups
  rw [← hd]
  dsimp only
  rw [htotal]
  cases l with
  | nil =>
    -- an empty list is found empty, also when what follows looks like an extended header
    exact records.Reader.walk_stop (if_neg (by split <;> simp [hdlength]))
  | cons x l =>
    have hfirst : d[4]? = some (flags x.pref 0 x.state) := by
      have := congrArg (fun l : List UInt8 => l[0]?) hdrop
      rwa [List.getElem?_drop] at this
    obtain ⟨-, -, hformat⟩ := flags_fields x.pref (show (0 : UInt8) < 4 by decide) x.state_lt
    rw [hfirst, Option.any_some, hformat]
    exact walk_target_port_groups (x :: l) hdrop rfl (by omega)

theorem parse_groups_rtpg_extended (transition : UInt8) (l : List TargetPortGroup)
    (rest : List UInt8) (hfits : (rtpg_extended transition l).length ≤ 4096) :
    parse_groups (rtpg_extended transition l ++ rest) =
      (true, .ok (l.map TargetPortGroup.group)) := by
  obtain ⟨d, hd⟩ : ∃ d, d = rtpg_extended transition l ++ rest := ⟨_, rfl⟩
  have hlength : (rtpg_extended transition l).length =
      8 + (l.flatMap TargetPortGroup.encode).length := by
    simp only [rtpg_extended, List.length_append, be_length, List.length_cons, List.length_nil]
    omega
  have hdlength : d.length = 8 + (l.flatMap TargetPortGroup.encode).length + rest.length := by
    rw [hd, List.length_append, hlength]
  have htotal : (scsi_fields.be32 d 0).toNat =
      (l.flatMap TargetPortGroup.encode).length + 4 := by
    rw [scsi_fields.be32, hd, rtpg_extended, List.append_assoc, scsi.be32_zero (by omega)]
    exact UInt32.toNat_ofNat_of_lt' (by unfold UInt32.size; omega)
  have hformat : (d[4]?.any fun b : UInt8 => (b >>> 4) &&& 0x7 == 1) = true := by
    rw [hd]
    rfl
  have hdrop : d.drop 8 = l.flatMap TargetPortGroup.encode ++ rest := by
    rw [hd]
    rfl
  unfold parse_groups
  rw [← hd]
  dsimp only
  rw [hformat, htotal, if_pos rfl, walk_target_port_groups l hdrop (by omega) (by omega)]

end port_groups

/-! ## The ANA log page -/

namespace ana_log

/-- A descriptor of the ANA log page with its list of namespaces. -/
structure Descriptor where
  id : UInt32
  change_count : UInt64
  state : UInt8
  nsids : List UInt32
  state_lt : state < 16
  nsids_lt : nsids.length < 2 ^ 32

namespace Descriptor

def encode_nsid (nsid : UInt32) : List UInt8 := le 4 nsid.toNat

def encode (x : Descriptor) : List UInt8 :=
  le 4 x.id.toNat ++ (le 4 x.nsids.length ++ (le 8 x.change_count.toNat ++
    (x.state :: List.replicate 15 0 ++ x.nsids.flatMap encode_nsid)))

def group (x : Descriptor) : Group := { id := x.id, state := x.state, nsids := x.nsids }

theorem encode_nsid_length (nsid : UInt32) : (encode_nsid nsid).length = 4 := rfl

theorem encode_length (x : Descriptor) : x.encode.length = 32 + 4 * x.nsids.length := by
  have hnsids := records.length_flatMap encode_nsid_length x.nsids
  simp only [encode, List.length_append, le_length, List.length_cons, List.length_replicate]
  omega

end Descriptor

theorem chunks_of_nsids (nsids : List UInt32) :
    ((nvme.chunks_exact 4 (nsids.flatMap Descriptor.encode_nsid)).map fun c =>
      UInt32.ofNat (of_le c)) = nsids := by
  have hlength := records.length_flatMap Descriptor.encode_nsid_length nsids
  unfold nvme.chunks_exact
  rw [hlength, Nat.mul_div_cancel _ (by decide), List.map_map]
  refine records.map_range_eq fun p hp => ?_
  dsimp only [Function.comp_apply, slice]
  rw [records.drop_flatMap Descriptor.encode_nsid_length hp,
    List.take_left' (Descriptor.encode_nsid_length _), Descriptor.encode_nsid,
    of_le_le_of_lt (by simpa using (nsids[p]).toNat_lt), UInt32.ofNat_toNat]

theorem read_ana_descriptor {d post : List UInt8} {groups i : Nat} (x : Descriptor)
    (h : d.drop i = x.encode ++ post) (hi : i ≤ d.length) {out : List Group}
    (hout : out.length < groups) :
    read_group d groups out i = .ok (some (x.group, x.encode.length)) := by
  obtain ⟨head, hhead⟩ : ∃ head, head = le 4 x.id.toNat ++ (le 4 x.nsids.length ++
      (le 8 x.change_count.toNat ++ x.state :: List.replicate 15 0)) := ⟨_, rfl⟩
  have hsplit : x.encode ++ post = [] ++ (head ++ (x.nsids.flatMap Descriptor.encode_nsid ++ post)) := by
    rw [hhead, Descriptor.encode]
    simp only [List.append_assoc, List.nil_append, List.cons_append]
  have hlength : head.length = 32 := by
    rw [hhead]
    simp only [List.length_append, le_length, List.length_cons, List.length_replicate]
  have hdesc : get d i 32 = some head := by
    have := get_drop h hi 0 32
    rw [Nat.add_zero, hsplit] at this
    rw [this]
    exact get_append _ rfl hlength
  have hid : of_le (slice head 0 4) = x.id.toNat := by
    rw [hhead, slice, List.drop_zero, List.take_left' (le_length 4 _),
      of_le_le_of_lt (by simpa using x.id.toNat_lt)]
  have hcount : of_le (slice head 4 4) = x.nsids.length := by
    rw [hhead, slice, List.drop_left' (le_length 4 _), List.take_left' (le_length 4 _),
      of_le_le_of_lt (by simpa using x.nsids_lt)]
  have hlist : get d (i + 32) (4 * x.nsids.length) =
      some (x.nsids.flatMap Descriptor.encode_nsid) := by
    rw [get_drop h hi, hsplit, List.nil_append]
    exact get_append _ hlength (by
      rw [records.length_flatMap Descriptor.encode_nsid_length, Nat.mul_comm])
  have hstate : index head 16 = .ok x.state := by
    rw [hhead]
    rfl
  have hmasked : x.state &&& 0x0f = x.state := by
    obtain ⟨hlow, -, -⟩ := flags_fields false (show (0 : UInt8) < 4 by decide) x.state_lt
    simpa [flags] using hlow
  unfold read_group
  rw [if_pos hout, hdesc]
  dsimp only
  rw [hcount, hlist, hid]
  dsimp only
  rw [hstate]
  dsimp only [bind, Except.bind]
  rw [hmasked, chunks_of_nsids, x.encode_length, UInt32.ofNat_toNat]
  rfl

/-- The ANA log page. -/
def page (change_count : UInt64) (l : List Descriptor) : List UInt8 :=
  le 8 change_count.toNat ++ (le 2 l.length ++ (List.replicate 6 0 ++ l.flatMap Descriptor.encode))

theorem parse_page (change_count : UInt64) (l : List Descriptor) (rest : List UInt8)
    (hfits : (page change_count l).length ≤ LOG_LEN) :
    parse (page change_count l ++ rest) = .ok (l.map Descriptor.group) := by
  obtain ⟨d, hd⟩ : ∃ d, d = page change_count l ++ rest := ⟨_, rfl⟩
  have hlength : (page change_count l).length = 16 + (l.flatMap Descriptor.encode).length := by
    simp only [page, List.length_append, le_length, List.length_replicate]
    omega
  have hdlength : d.length = 16 + (l.flatMap Descriptor.encode).length + rest.length := by
    rw [hd, List.length_append, hlength]
  have hmany := records.length_le_flatMap (w := 1)
    (fun x : Descriptor => by rw [x.encode_length]; omega) l
  have hcount : of_le [UInt8.ofNat l.length, UInt8.ofNat (l.length / 256)] = l.length := by
    unfold LOG_LEN at hfits
    exact of_le_le_of_lt (w := 2) (by norm_num; omega)
  have hdrop : d.drop 16 = l.flatMap Descriptor.encode ++ rest := by
    rw [hd]
    rfl
  have hlo : index d 8 = .ok (UInt8.ofNat l.length) := by
    rw [hd]
    rfl
  have hhi : index d 9 = .ok (UInt8.ofNat (l.length / 256)) := by
    rw [hd]
    rfl
  unfold parse
  rw [← hd, hlo, hhi]
  dsimp only [bind, Except.bind]
  rw [hcount]
  refine records.Reader.walk_encoded l hdrop (fun before x after j hl hroom hat => ?_) fun _ => ?_
  · exact read_ana_descriptor x hat (by omega) (by
      rw [hl, List.length_map, List.length_append, List.length_cons]
      omega)
  · exact if_neg (by rw [List.length_map]; exact lt_irrefl _)

end ana_log

/-! ## Namespace identification descriptors -/

namespace identify

/-- An identification descriptor: not empty, and as long as its type says. -/
structure Descriptor where
  kind : UInt8
  value : List UInt8
  value_pos : 0 < value.length
  value_lt : value.length < 256
  defined : ∀ w ∈ want kind, value.length = w

def Descriptor.encode (x : Descriptor) : List UInt8 :=
  [x.kind, UInt8.ofNat x.value.length, 0, 0] ++ x.value

def Descriptor.item (x : Descriptor) : UInt8 × List UInt8 := (x.kind, x.value)

theorem read_ns_descriptor {d post : List UInt8} {i : Nat} (x : Descriptor)
    (h : d.drop i = x.encode ++ post) {out : List (UInt8 × List UInt8)}
    (hout : ∀ y ∈ out, y.1 ≠ x.kind) :
    read_descriptor d out i = .ok (some (x.item, x.encode.length)) := by
  have hroom : i + 4 ≤ d.length := by
    have hlength := congrArg List.length h
    rw [List.length_drop, Descriptor.encode, List.length_append, List.length_append] at hlength
    simp only [List.length_cons, List.length_nil] at hlength
    omega
  have hlen : (UInt8.ofNat x.value.length).toNat = x.value.length :=
    UInt8.toNat_ofNat_of_lt' x.value_lt
  have hkind : index d i = .ok x.kind := index_drop h 0
  have hbyte : index d (i + 1) = .ok (UInt8.ofNat x.value.length) := index_drop h 1
  have hvalue : get d (i + 4) x.value.length = some x.value := by
    rw [get_drop h (by omega), Descriptor.encode, List.append_assoc]
    exact get_append post rfl rfl
  have hnonzero : UInt8.ofNat x.value.length ≠ 0 := by
    intro hzero
    have := congrArg UInt8.toNat hzero
    rw [hlen] at this
    exact absurd this x.value_pos.ne'
  have hwant : ¬ (want x.kind).any (· ≠ x.value.length) := by
    cases hw : want x.kind with
    | none => simp
    | some w => simpa using (x.defined w (by rw [hw]; rfl)).symm
  have htwice : ¬ out.any (·.1 = x.kind) := by
    rw [List.any_eq_true]
    rintro ⟨y, hy, hkind⟩
    exact hout y hy (of_decide_eq_true hkind)
  unfold read_descriptor
  rw [if_pos hroom, hbyte, hkind]
  dsimp only [bind, Except.bind]
  rw [if_neg hnonzero, hlen, if_neg hwant, if_neg htwice, hvalue, Descriptor.encode,
    List.length_append]
  rfl

/-- The list ends at a length of zero, or where no header has room. -/
theorem parse_descriptor_list (l : List Descriptor) (hkinds : l.Pairwise (·.kind ≠ ·.kind))
    (rest : List UInt8) (hrest : rest.length < 4 ∨ rest[1]? = some 0) :
    parse_descriptors (l.flatMap Descriptor.encode ++ rest) = .ok (l.map Descriptor.item) := by
  obtain ⟨d, hd⟩ : ∃ d, d = l.flatMap Descriptor.encode ++ rest := ⟨_, rfl⟩
  have hdrop : d.drop 0 = l.flatMap Descriptor.encode ++ rest := hd
  unfold parse_descriptors
  rw [← hd]
  refine records.Reader.walk_encoded l hdrop (fun before x after j hl _ hat => ?_) fun hend => ?_
  · refine read_ns_descriptor x hat fun y hy => ?_
    obtain ⟨z, hz, rfl⟩ := List.mem_map.mp hy
    rw [hl, List.pairwise_append] at hkinds
    exact hkinds.2.2 z hz x List.mem_cons_self
  · have hlength := congrArg List.length hd
    rw [List.length_append] at hlength
    rw [Nat.zero_add] at hend ⊢
    show read_descriptor d _ _ = _
    unfold read_descriptor
    split
    · obtain hshort | hzero := hrest
      · omega
      · have hbyte : index d ((l.flatMap Descriptor.encode).length + 1) = .ok 0 := by
          rw [index_drop hend, index, hzero]
          rfl
        rw [hbyte]
        rfl
    · rfl

end identify

/-! ## All of them -/

/-- No data makes a parser read outside its buffer, and each gives back every list that is laid
out in one. -/
theorem list_parsers_are_total_and_exact :
    ((∀ d, ∃ l, scsi.designators d = .ok l) ∧ (∀ d, ∃ l, scsi.port_groups d = .ok l) ∧
      (∀ d, ∃ l, (port_groups.parse_groups d).2 = .ok l) ∧
      (∀ d, d.length = ana_log.LOG_LEN → ana_log.parse d ≠ .error .panic) ∧
      ∀ d, identify.parse_descriptors d ≠ .error .panic) ∧
    (∀ peripheral l rest, (scsi.page_83 peripheral l).length ≤ 255 →
      scsi.designators (scsi.page_83 peripheral l ++ rest) =
        .ok (l.map scsi.Designation.designator)) ∧
    (∀ l rest, (rtpg l).length ≤ 1024 →
      scsi.port_groups (rtpg l ++ rest) = .ok (l.map TargetPortGroup.port_group)) ∧
    (∀ l rest, (rtpg l).length ≤ 4096 →
      (port_groups.parse_groups (rtpg l ++ rest)).2 = .ok (l.map TargetPortGroup.group)) ∧
    (∀ transition l rest, (rtpg_extended transition l).length ≤ 4096 →
      port_groups.parse_groups (rtpg_extended transition l ++ rest) =
        (true, .ok (l.map TargetPortGroup.group))) ∧
    (∀ change_count l rest, (ana_log.page change_count l).length ≤ ana_log.LOG_LEN →
      ana_log.parse (ana_log.page change_count l ++ rest) =
        .ok (l.map ana_log.Descriptor.group)) ∧
    ∀ (l : List identify.Descriptor) (rest : List UInt8), l.Pairwise (·.kind ≠ ·.kind) →
      (rest.length < 4 ∨ rest[1]? = some 0) →
        identify.parse_descriptors (l.flatMap identify.Descriptor.encode ++ rest) =
          .ok (l.map identify.Descriptor.item) := by
  refine ⟨⟨fun d => ?_, fun d => ?_, fun d => ?_, fun d hlength => ?_, fun d => ?_⟩,
    scsi.designators_page_83, scsi.port_groups_rtpg, port_groups.parse_groups_rtpg,
    port_groups.parse_groups_rtpg_extended, ana_log.parse_page,
    fun l rest hkinds hrest => identify.parse_descriptor_list l hkinds rest hrest⟩
  · exact exists_list (fun out i => scsi.read_designator.spec d _ i out) 4
  · exact exists_list (fun out i => scsi.read_port_group.spec d _ i out) 4
  · exact exists_list (fun out i => port_groups.read_group.spec (Nat.min_le_right _ _) i out) _
  · unfold ana_log.LOG_LEN at hlength
    unfold ana_log.parse
    rw [index_of_lt (by omega), index_of_lt (by omega)]
    exact no_panic (fun out i => ana_log.read_group.spec d _ i out) 16
  · exact no_panic (fun out i => identify.read_descriptor.spec d i out) 0

/-- A group with two ports, as the first one of a list. -/
def standby : TargetPortGroup where
  pref := false
  state := 0x2
  supported := 0x0f
  id := 1
  status := 0
  vendor := 0
  ports := [2, 3]
  state_lt := by decide
  ports_lt := by decide

def csi : identify.Descriptor where
  kind := identify.NIDT_CSI
  value := [0]
  value_pos := by decide
  value_lt := by decide
  defined := by decide

theorem a_group_and_a_descriptor_are_read :
    (port_groups.parse_groups (rtpg [standby] ++ [])).2 = .ok [standby.group] ∧
      port_groups.parse_groups (rtpg_extended 5 [standby] ++ []) = (true, .ok [standby.group]) ∧
      identify.parse_descriptors ([csi].flatMap identify.Descriptor.encode ++ [0, 0, 0, 0]) =
        .ok [csi.item] :=
  have h := list_parsers_are_total_and_exact
  ⟨h.2.2.2.1 [standby] [] (by decide), h.2.2.2.2.1 5 [standby] [] (by decide),
    h.2.2.2.2.2.2 [csi] [0, 0, 0, 0] (List.pairwise_singleton _ _) (.inr rfl)⟩

end stutools
