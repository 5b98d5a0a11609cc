-- The text of an iSCSI login: key=value pairs in the data segment of a login
-- PDU, each ended by a NUL and the whole padded to words. What a request
-- carries is read back as the pairs it was made of, and a response is read
-- inside its bytes.
import Stutools.Addressing
import Stutools.IscsiWire
import Stutools.Utf8

open bytes texts

namespace stutools.iscsi

def LOGIN_REQUEST : UInt8 := 0x03
def LOGIN_RESPONSE : UInt8 := 0x23
def IMMEDIATE : UInt8 := 0x40
def BHS_LEN : Nat := 48

/-- The pairs of a login text, in order. -/
abbrev Text := List (List Char × List Char)

/-- Login stages: the security negotiation, the operational negotiation, and full
feature phase. -/
inductive Stage where
  | Security
  | Operational
  | FullFeature
deriving DecidableEq, Repr

/-- `stage as u8`. -/
def Stage.code : Stage → UInt8
  | Security => 0
  | Operational => 1
  | FullFeature => 3

/-- One login request PDU. -/
structure LoginRequest where
  isid : Block 6
  tsih : UInt16
  cid : UInt16
  itt : UInt32
  cmd_sn : UInt32
  exp_stat_sn : UInt32
  current : Stage
  next : Stage
  transit : Bool
  text : Text

/-- Why a login PDU is not sent, or not understood. -/
inductive LoginError where
  /-- "login text is too large for one PDU" -/
  | too_large
  /-- "login response is shorter than its header" -/
  | short
  /-- "expected a login response, got opcode .." -/
  | opcode (got : UInt8)
  /-- "login response data is truncated" -/
  | truncated
  /-- "login text is not UTF-8" -/
  | not_utf8
  /-- "login text item has no '=': .." -/
  | no_equals (item : List Char)
  /-- "reading login response header: .." -/
  | header
  /-- "reading login response data: .." -/
  | data
deriving DecidableEq, Repr

/-! ## The request -/

/-- The pairs as bytes: `key=value` and a NUL, for each. -/
def text_data (text : Text) : List UInt8 :=
  text.flatMap fun pair => utf8.encode (pair.1 ++ '=' :: pair.2) ++ [0]

/-- The loop that pads a data segment: a zero byte while the length is no multiple of 4. -/
def pad (data : List UInt8) : List UInt8 :=
  if data.length % 4 ≠ 0 then pad (data ++ [0]) else data
termination_by (4 - data.length % 4) % 4
decreasing_by
  rw [List.length_append, List.length_singleton]
  omega

/-- The header of a request whose text has `length` bytes. -/
def LoginRequest.bhs (r : LoginRequest) (length : Nat) : Bhs :=
  let bhs := Block.zero 48
  let bhs := bhs.put 0 [LOGIN_REQUEST ||| IMMEDIATE] (by simp)
  let bhs := bhs.put 1
    [(if r.transit then TRANSIT else 0) ||| (r.current.code <<< 2) ||| r.next.code] (by simp)
  let bhs := bhs.put 5 (be 3 length) (length_field_fits length)
  let bhs := bhs.put 8 r.isid.1 (by rw [r.isid.2]; decide)
  let bhs := bhs.put 14 (be 2 r.tsih.toNat) (by simp)
  let bhs := bhs.put 16 (to_be_bytes r.itt) (by simp)
  let bhs := bhs.put 20 (be 2 r.cid.toNat) (by simp)
  let bhs := bhs.put 24 (to_be_bytes r.cmd_sn) (by simp)
  bhs.put 28 (to_be_bytes r.exp_stat_sn) (by simp)

/-- Encodes the PDU: the BHS, then the text pairs, each NUL-terminated and padded to 4
bytes. -/
def LoginRequest.encode (r : LoginRequest) : Except LoginError (List UInt8) :=
  let data := text_data r.text
  let length := data.length
  if 2 ^ 24 ≤ length then .error .too_large
  else .ok ((r.bhs length).1 ++ pad data)

/-! ## The response -/

/-- One item of a text data segment. -/
def parse_item (item : List UInt8) : Except LoginError (List Char × List Char) :=
  match utf8.decode item with
  | none => .error .not_utf8
  | some text =>
    match split_once (· == '=') text with
    | none => .error (.no_equals text)
    | some pair => .ok pair

/-- Splits a text data segment into key=value pairs. Empty pairs (padding) are
skipped, and the first item that is not a pair ends the loop. -/
def parse_text (data : List UInt8) : Except LoginError Text :=
  ((data.splitOn 0).filter fun item => !item.isEmpty).mapM parse_item

/-- One login response PDU, as the target sent it. -/
structure LoginResponse where
  transit : Bool
  current : UInt8
  next : UInt8
  tsih : UInt16
  itt : UInt32
  stat_sn : UInt32
  /-- Status class and detail; class 0 is success. -/
  status : UInt8 × UInt8
  text : Text
deriving DecidableEq

/-- `slice.get(start..end)`. -/
def get_range (b : List UInt8) (start stop : Nat) : Option (List UInt8) :=
  if start ≤ stop ∧ stop ≤ b.length then some (slice b start (stop - start)) else none

/-- Decodes a login response from its BHS and data segment. Each `pdu[i]` panics
outside the PDU, and then there is no result. -/
def LoginResponse.decode (pdu : List UInt8) : Option (Except LoginError LoginResponse) := do
  if pdu.length < BHS_LEN then return .error .short
  let opcode := (← pdu[0]?) &&& 0x3f
  if opcode ≠ LOGIN_RESPONSE then return .error (.opcode opcode)
  let len := of_be [0, ← pdu[5]?, ← pdu[6]?, ← pdu[7]?]
  match get_range pdu BHS_LEN (BHS_LEN + len) with
  | none => return .error .truncated
  | some data =>
    let flags ← pdu[1]?
    let tsih := of_be [← pdu[14]?, ← pdu[15]?]
    let itt := of_be [← pdu[16]?, ← pdu[17]?, ← pdu[18]?, ← pdu[19]?]
    let stat_sn := of_be [← pdu[24]?, ← pdu[25]?, ← pdu[26]?, ← pdu[27]?]
    let status := (← pdu[36]?, ← pdu[37]?)
    return (parse_text data).map fun text =>
      { transit := decide (flags &&& TRANSIT ≠ 0)
        current := (flags >>> 2) &&& 0x3
        next := flags &&& 0x3
        tsih := UInt16.ofNat tsih
        itt := UInt32.ofNat itt
        stat_sn := UInt32.ofNat stat_sn
        status
        text }

/-- Reads one login-phase response: the header and its data segment. Digests are
not in use yet. -/
def read_login_pdu (stream : List UInt8) : Except LoginError (List UInt8 × List UInt8) :=
  match read_bhs stream with
  | .error _ => .error .header
  | .ok (bhs, stream) =>
    match bytes.read_exact (padded (data_len bhs)) stream with
    | none => .error .data
    | some (data, stream) => .ok (bhs.1 ++ data, stream)

/-! ## A pair on its own -/

/-- A pair a login text can carry: its key is not empty and free of `=` and NUL, its
value free of NUL. -/
structure Carried (pair : List Char × List Char) : Prop where
  key : pair.1 ≠ []
  equals : '=' ∉ pair.1
  key_nul : '\x00' ∉ pair.1
  value_nul : '\x00' ∉ pair.2

instance (pair : List Char × List Char) : Decidable (Carried pair) :=
  decidable_of_iff (pair.1 ≠ [] ∧ '=' ∉ pair.1 ∧ '\x00' ∉ pair.1 ∧ '\x00' ∉ pair.2)
    ⟨fun ⟨h1, h2, h3, h4⟩ => ⟨h1, h2, h3, h4⟩, fun ⟨h1, h2, h3, h4⟩ => ⟨h1, h2, h3, h4⟩⟩

/-- The bytes of `key=value`. -/
def pair_bytes (pair : List Char × List Char) : List UInt8 :=
  utf8.encode (pair.1 ++ '=' :: pair.2)

theorem pair_bytes_ne_nil (pair : List Char × List Char) : pair_bytes pair ≠ [] :=
  utf8.encode_ne_nil (by simp)

theorem zero_notMem_pair_bytes {pair : List Char × List Char} (h : Carried pair) :
    (0 : UInt8) ∉ pair_bytes pair := by
  apply utf8.zero_notMem_encode
  simp [h.key_nul, h.value_nul]

theorem parse_item_pair_bytes {pair : List Char × List Char} (h : Carried pair) :
    parse_item (pair_bytes pair) = .ok pair := by
  unfold parse_item pair_bytes
  rw [utf8.decode_encode]
  dsimp only
  have hkey : ∀ x ∈ pair.1, (x == '=') = false :=
    fun x hx => beq_false_of_ne fun heq => h.equals (heq ▸ hx)
  rw [split_once_append _ hkey rfl]

/-! ## The text as a whole -/

theorem text_data_cons (pair : List Char × List Char) (text : Text) :
    text_data (pair :: text) = pair_bytes pair ++ 0 :: text_data text := by
  simp [text_data, pair_bytes]

/-- The items of the text are its pairs; what follows them in zero bytes are empty items. -/
theorem items_of_text_data {text : Text} (h : ∀ pair ∈ text, Carried pair) (zeros : Nat) :
    ((text_data text ++ List.replicate zeros 0).splitOn 0).filter (fun item => !item.isEmpty) =
      text.map pair_bytes := by
  induction text with
  | nil =>
    have hitems : ∀ zeros, ((List.replicate zeros (0 : UInt8)).splitOn 0).filter
        (fun item => !item.isEmpty) = [] := by
      intro zeros
      induction zeros with
      | zero => simp
      | succ zeros ih =>
        have hcut := List.splitOn_append_cons_self_of_not_mem
          (List.not_mem_nil : (0 : UInt8) ∉ []) (List.replicate zeros 0)
        rw [List.nil_append] at hcut
        rw [List.replicate_succ, hcut, List.filter_cons_of_neg (by simp), ih]
    simpa [text_data] using hitems zeros
  | cons pair text ih =>
    obtain ⟨hpair, htext⟩ := List.forall_mem_cons.mp h
    rw [text_data_cons, List.append_assoc, List.cons_append,
      List.splitOn_append_cons_self_of_not_mem (zero_notMem_pair_bytes hpair),
      List.filter_cons_of_pos (by simp [pair_bytes_ne_nil]), ih htext, List.map_cons]

theorem mapM_parse_item {text : Text} (h : ∀ pair ∈ text, Carried pair) :
    (text.map pair_bytes).mapM parse_item = .ok text := by
  induction text with
  | nil => rfl
  | cons pair text ih =>
    obtain ⟨hpair, htext⟩ := List.forall_mem_cons.mp h
    rw [List.map_cons, List.mapM_cons, parse_item_pair_bytes hpair, ih htext]
    rfl

/-- The text parses back, with any zero bytes after it. -/
theorem parse_text.spec {text : Text} (h : ∀ pair ∈ text, Carried pair) (zeros : Nat) :
    parse_text (text_data text ++ List.replicate zeros 0) = .ok text := by
  unfold parse_text
  rw [items_of_text_data h, mapM_parse_item h]

/-! ## The request on the wire -/

/-- The padding of a data segment is up to its length on the wire. -/
theorem pad_eq_segment (data : List UInt8) : pad data = segment data := by
  fun_induction pad data with
  | case1 data hpad ih =>
    have hlen : padded (data.length + 1) = padded data.length := by
      unfold padded
      omega
    have hmore : padded data.length - data.length = padded data.length - (data.length + 1) + 1 := by
      have := padded_le (data.length + 1)
      omega
    rw [ih]
    unfold segment
    rw [List.length_append, List.length_singleton, hlen, hmore, List.append_assoc,
      List.replicate_succ, List.singleton_append]
  | case2 data hpad =>
    have hlen : padded data.length = data.length := by
      unfold padded
      omega
    simp [segment, hlen]

theorem LoginRequest.data_len_bhs (r : LoginRequest) (length : Nat) :
    data_len (r.bhs length) = length % 2 ^ 24 := by
  unfold data_len LoginRequest.bhs
  iterate 6 rw [Block.field_put_left _ _ (by simp)]
  rw [Block.field_put_self _ _ (by simp), of_be_be]
  rfl

/-- What a request is encoded to. -/
theorem LoginRequest.encode.spec {r : LoginRequest} {pdu : List UInt8} (h : r.encode = .ok pdu) :
    ∃ bhs : Bhs, pdu = bhs.1 ++ segment (text_data r.text) ∧
      data_len bhs = (text_data r.text).length := by
  unfold LoginRequest.encode at h
  dsimp only at h
  split at h
  · cases h
  · rename_i hlen
    refine ⟨r.bhs (text_data r.text).length, ?_, ?_⟩
    · rw [← pad_eq_segment]
      exact (Except.ok.inj h).symm
    · rw [r.data_len_bhs, Nat.mod_eq_of_lt (by omega)]

/-! ## The response inside its bytes -/

theorem slice_getD (b : List UInt8) (i n : Nat) (h : i + n ≤ b.length) :
    slice b i n = (List.range n).map fun k => b.getD (i + k) 0 := by
  apply List.ext_getElem (by rw [slice_length h, List.length_map, List.length_range])
  intro k hk hk'
  rw [slice_length h] at hk
  simp [slice, List.getD, show i + k < b.length by omega]

theorem data_len_bytes (bhs : Bhs) :
    of_be [0, byte bhs 5, byte bhs 6, byte bhs 7] = data_len bhs := by
  unfold data_len Block.field byte
  rw [slice_getD bhs.1 5 3 (by rw [bhs.2]; decide)]
  simp [of_be, of_le, List.range_succ]

/-- What the header and the text of a response say. -/
def LoginResponse.of_bhs (bhs : Bhs) (text : Text) : LoginResponse :=
  { transit := decide (byte bhs 1 &&& TRANSIT ≠ 0)
    current := (byte bhs 1 >>> 2) &&& 0x3
    next := byte bhs 1 &&& 0x3
    tsih := UInt16.ofNat (of_be [byte bhs 14, byte bhs 15])
    itt := UInt32.ofNat (of_be [byte bhs 16, byte bhs 17, byte bhs 18, byte bhs 19])
    stat_sn := UInt32.ofNat (of_be [byte bhs 24, byte bhs 25, byte bhs 26, byte bhs 27])
    status := (byte bhs 36, byte bhs 37)
    text }

/-- What a response with a whole header is decoded to. -/
theorem LoginResponse.decode.spec (bhs : Bhs) (data : List UInt8) :
    decode (bhs.1 ++ data) = some
      (if byte bhs 0 &&& 0x3f ≠ LOGIN_RESPONSE then .error (.opcode (byte bhs 0 &&& 0x3f))
       else if data.length < data_len bhs then .error .truncated
       else (parse_text (data.take (data_len bhs))).map (of_bhs bhs)) := by
  have hlen : ¬ (bhs.1 ++ data).length < BHS_LEN := by
    rw [List.length_append, bhs.2]
    exact Nat.not_lt.mpr (Nat.le_add_right 48 _)
  have hget : ∀ i, i < 48 → (bhs.1 ++ data)[i]? = some (byte bhs i) := by
    intro i hi
    have hi' : i < bhs.1.length := by rwa [bhs.2]
    rw [List.getElem?_append_left hi']
    simp [byte, List.getD, hi']
  unfold decode
  rw [if_neg hlen]
  simp (disch := decide) only [hget]
  dsimp
  rw [data_len_bytes]
  split
  · rfl
  · unfold get_range
    by_cases hdata : data.length < data_len bhs
    · rw [if_pos hdata, if_neg (by rw [List.length_append, bhs.2]; unfold BHS_LEN; omega)]
    · rw [if_neg hdata, if_pos ⟨by omega, by rw [List.length_append, bhs.2]; unfold BHS_LEN; omega⟩]
      have hslice : slice (bhs.1 ++ data) BHS_LEN (BHS_LEN + data_len bhs - BHS_LEN) =
          data.take (data_len bhs) := by
        have hdrop : (bhs.1 ++ data).drop BHS_LEN = data := List.drop_left' bhs.2
        unfold slice
        rw [hdrop, Nat.add_sub_cancel_left]
      dsimp only
      rw [hslice]
      congr 2

theorem LoginResponse.decode_total (pdu : List UInt8) : ∃ result, decode pdu = some result := by
  by_cases hlen : pdu.length < BHS_LEN
  · unfold decode
    rw [if_pos hlen]
    exact ⟨_, rfl⟩
  · have hhead : (pdu.take 48).length = 48 := by
      rw [List.length_take]
      unfold BHS_LEN at hlen
      omega
    have hspec := decode.spec ⟨pdu.take 48, hhead⟩ (pdu.drop 48)
    rw [List.take_append_drop] at hspec
    exact ⟨_, hspec⟩

theorem read_login_pdu_append (bhs : Bhs) {data : List UInt8} (rest : List UInt8)
    (h : data.length = padded (data_len bhs)) :
    read_login_pdu (bhs.1 ++ data ++ rest) = .ok (bhs.1 ++ data, rest) := by
  unfold read_login_pdu
  rw [List.append_assoc, read_bhs_append]
  dsimp only
  rw [read_exact_append rest h]

/-! ## The law -/

/-- A login request that is encoded is its header and its text, in the length of the
header rounded up to words; with or without its padding the text parses back to the
pairs of the request in their order, and a reader takes exactly the PDU from a
stream. A response is decoded inside its bytes, whatever they are. -/
theorem login_text_is_read_back_and_responses_are_read_inside_their_bytes :
    (∀ (r : LoginRequest) (pdu rest : List UInt8), (∀ pair ∈ r.text, Carried pair) →
      r.encode = .ok pdu →
      ∃ bhs : Bhs, read_bhs pdu = .ok (bhs, pdu.drop BHS_LEN) ∧
        pdu.length = BHS_LEN + padded (data_len bhs) ∧
        get_range pdu BHS_LEN (BHS_LEN + data_len bhs) = some (text_data r.text) ∧
        parse_text (slice pdu BHS_LEN (data_len bhs)) = .ok r.text ∧
        parse_text (pdu.drop BHS_LEN) = .ok r.text ∧
        read_login_pdu (pdu ++ rest) = .ok (pdu, rest)) ∧
    ∀ pdu, ∃ result, LoginResponse.decode pdu = some result := by
  refine ⟨fun r pdu rest htext henc => ?_, LoginResponse.decode_total⟩
  obtain ⟨bhs, rfl, hlen⟩ := LoginRequest.encode.spec henc
  have hdrop : (bhs.1 ++ segment (text_data r.text)).drop BHS_LEN = segment (text_data r.text) :=
    List.drop_left' bhs.2
  have htake : slice (bhs.1 ++ segment (text_data r.text)) BHS_LEN (data_len bhs) =
      text_data r.text := by
    unfold slice
    rw [hdrop, hlen, segment_take]
  have htotal : (bhs.1 ++ segment (text_data r.text)).length = BHS_LEN + padded (data_len bhs) := by
    rw [List.length_append, segment_length, bhs.2, hlen]
    rfl
  have hfits : BHS_LEN + data_len bhs ≤ (bhs.1 ++ segment (text_data r.text)).length := by
    have := padded_le (data_len bhs)
    omega
  refine ⟨bhs, ?_, htotal, ?_, ?_, ?_, ?_⟩
  · rw [hdrop]
    exact read_bhs_append bhs _
  · unfold get_range
    rw [if_pos ⟨by omega, hfits⟩, Nat.add_sub_cancel_left, htake]
  · rw [htake]
    simpa using parse_text.spec htext 0
  · rw [hdrop]
    exact parse_text.spec htext _
  · exact read_login_pdu_append bhs rest (by rw [segment_length, hlen])

/-- A request with a value that is empty and one that holds `=`. -/
theorem login_text_of_two_pairs :
    let r : LoginRequest :=
      { isid := Block.zero 6, tsih := 0, cid := 1, itt := 1, cmd_sn := 1, exp_stat_sn := 0
        current := .Security, next := .Operational, transit := true
        text := [("InitiatorAlias".toList, []), ("CHAP_R".toList, "0b=".toList)] }
    ∃ pdu, r.encode = .ok pdu ∧ parse_text (pdu.drop BHS_LEN) = .ok r.text := by
  intro r
  have henc : ∃ pdu, r.encode = .ok pdu := ⟨_, rfl⟩
  obtain ⟨pdu, hpdu⟩ := henc
  have hcarried : ∀ pair ∈ r.text, Carried pair := by
    intro pair hpair
    rcases List.mem_pair.mp hpair with rfl | rfl <;>
      exact ⟨by decide, by decide, by decide, by decide⟩
  obtain ⟨bhs, -, -, -, -, hparse, -⟩ :=
    login_text_is_read_back_and_responses_are_read_inside_their_bytes.1 r pdu [] hcarried hpdu
  exact ⟨pdu, hpdu, hparse⟩

end stutools.iscsi
