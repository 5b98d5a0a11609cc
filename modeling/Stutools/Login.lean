-- The iSCSI login to full feature phase: the request and response exchange, the
-- security stage with CHAP and mutual CHAP, and the operational stage. The target is
-- the bytes it sends, so a statement about every stream is one about every target.
import Stutools.ChapDigest
import Stutools.DataOut
import Stutools.LoginText
import Stutools.Texts

open bytes

namespace stutools.iscsi

def LOGIN_ITT : UInt32 := 1
def LOGIN_CMD_SN : UInt32 := 0

/-- Mutual CHAP: the challenge spit sends with its own response, how it encodes it, and
the secret the target must answer it with. -/
structure Mutual where
  secret : List UInt8
  identifier : UInt8
  challenge : List UInt8
  base64 : Bool

/-- How one login goes: the initiator port, the CHAP credentials and algorithms offered,
mutual CHAP, and the operational keys. -/
structure Plan where
  isid : Block 6
  chap : Option (List Char × List UInt8)
  chap_offer : List Char
  /-- `mutual`, which Lean keeps for itself. -/
  mutual_chap : Option Mutual
  keys : Text

/-- `login::Negotiated`, whole: values the target chose during login. -/
structure Chosen extends Negotiated where
  own_max_recv : Nat
  initial_r2t : Bool
  immediate_data : Bool
  first_burst : Nat
  max_burst : Nat
  error_recovery : Nat
  tsih : UInt16
  /-- The CHAP algorithm the target chose (CHAP_A), when the login used CHAP. -/
  chap_algorithm : Option UInt32
  /-- The challenge the target sent (CHAP_C), when the login used CHAP. -/
  chap_challenge : Option (List UInt8)
  /-- The name the target answered with (CHAP_N) after a mutual CHAP exchange. -/
  target_chap_name : Option (List Char)
  keys : Text

/-- A connection login has brought to full feature phase, and what the target sends on it. -/
structure Established where
  stream : List UInt8
  negotiated : Chosen
  cmd_sn : UInt32
  exp_stat_sn : UInt32
  max_cmd_sn : UInt32

/-- Why a login fails. -/
inductive EstablishError where
  /-- No error: the program panics. -/
  | panic
  | login (e : LoginError)
  /-- "login response has task tag .. for request .." -/
  | tag (got want : UInt32)
  /-- "login refused: status class .. detail .. (..)" -/
  | refused (status : UInt8 × UInt8)
  | binary (e : chap.BinaryError)
  /-- "target did not send CHAP_I" -/
  | no_identifier
  /-- "target did not send CHAP_C" -/
  | no_challenge
  /-- "target did not choose a CHAP algorithm" -/
  | no_algorithm
  /-- "target chose CHAP_A .., which this initiator does not implement" -/
  | not_implemented (algorithm : UInt32)
  /-- "mutual CHAP: the target sent no CHAP_N" -/
  | no_name
  /-- "mutual CHAP: the target sent no CHAP_R" -/
  | no_response
  /-- "mutual CHAP: algorithm not implemented" -/
  | mutual_not_implemented
  /-- "mutual CHAP: the target answered with the initiator's own secret" -/
  | own_secret
  /-- "mutual CHAP: the target's CHAP_R is wrong (.. bytes)" -/
  | wrong_response (length : Nat)
  /-- "target did not accept CHAP and stay in the security stage" -/
  | not_accepted
  /-- "target did not reach full feature phase" -/
  | not_full_feature
  /-- "target did not assign a session handle" -/
  | no_session_handle
  /-- "target declared MaxRecvDataSegmentLength=.." -/
  | max_recv (declared : List Char)
deriving DecidableEq, Repr

/-! ## One exchange -/

/-- `str::parse::<u8>`. -/
def parse_u8 (text : List Char) : Option UInt8 := (texts.parse (2 ^ 8) text).map UInt8.ofNat

/-- `str::parse::<u32>`. -/
def parse_u32 (text : List Char) : Option UInt32 := (texts.parse (2 ^ 32) text).map UInt32.ofNat

/-- The `sequence` of a PDU as it was read. -/
def raw_sequence (raw : List UInt8) : Sequence :=
  { stat_sn := UInt32.ofNat (of_be (slice raw 24 4))
    exp_cmd_sn := UInt32.ofNat (of_be (slice raw 28 4))
    max_cmd_sn := UInt32.ofNat (of_be (slice raw 32 4)) }

/-- The next login response of the stream, decoded, with its bytes. -/
def next_response (stream : List UInt8) :
    Except EstablishError (LoginResponse × List UInt8 × List UInt8) := do
  let (raw, stream) ← (read_login_pdu stream).mapError .login
  let response ← match LoginResponse.decode raw with
    | none => .error .panic
    | some response => response.mapError .login
  return (response, raw, stream)

/-- Sends a login request and returns the response with its raw bytes, and the rest of
the stream. -/
def exchange (request : LoginRequest) (stream : List UInt8) :
    Except EstablishError (LoginResponse × List UInt8 × List UInt8) := do
  let _ ← request.encode.mapError EstablishError.login
  let (response, raw, stream) ← next_response stream
  if response.itt ≠ request.itt then .error (.tag response.itt request.itt)
  else if response.status ≠ (0, 0) then .error (.refused response.status)
  else .ok (response, raw, stream)

/-! ## The security stage -/

/-- A binary value of the text; the decoder can panic. -/
def binary (text : List Char) : Except EstablishError (List UInt8) :=
  match chap.decode_binary text with
  | none => .error .panic
  | some bytes => bytes.mapError .binary

/-- `ok_or`. -/
def ok_or {α : Type} (e : EstablishError) : Option α → Except EstablishError α
  | none => .error e
  | some a => .ok a

/-- Checks the target's half of mutual CHAP in the response to spit's challenge. Returns
the target's CHAP_N. -/
def check_mutual (algorithm : UInt32) (own_secret : List UInt8) (m : Mutual) (text : Text) :
    Except EstablishError (List Char) := do
  let name ← ok_or .no_name (value text "CHAP_N".toList)
  let got ← binary (← ok_or .no_response (value text "CHAP_R".toList))
  let want ← ok_or .mutual_not_implemented
    (chap.digest algorithm m.identifier m.secret m.challenge)
  if chap.digest algorithm m.identifier own_secret m.challenge = some got then .error .own_secret
  else if got ≠ want then .error (.wrong_response got.length)
  else .ok name

/-- A request of the security stage. -/
def security_request (isid : Block 6) (exp_stat_sn : UInt32) (next : Stage) (transit : Bool)
    (text : Text) : LoginRequest :=
  { isid, tsih := 0, cid := 0, itt := LOGIN_ITT, cmd_sn := LOGIN_CMD_SN, exp_stat_sn
    current := .Security, next, transit, text }

/-- spit's response, and its own challenge for mutual CHAP. -/
def response_text (user : List Char) (answer : List Char) (m : Option Mutual) : Text :=
  let text := [("CHAP_N".toList, user), ("CHAP_R".toList, answer)]
  match m with
  | none => text
  | some m =>
    let encoded := if m.base64 then chap.encode_base64 m.challenge else chap.encode_hex m.challenge
    text ++ [("CHAP_I".toList, texts.shown m.identifier.toNat), ("CHAP_C".toList, encoded)]

/-- What the security stage leaves for the operational stage. -/
structure Secured where
  exp_stat_sn : UInt32
  chap_algorithm : Option UInt32
  chap_challenge : Option (List UInt8)
  target_chap_name : Option (List Char)
  stream : List UInt8

/-- The CHAP exchange of `establish`. -/
def chap_stage (target initiator : List Char) (plan : Plan) (user : List Char)
    (secret : List UInt8) (stream : List UInt8) : Except EstablishError Secured := do
  let (r1, _, stream) ← exchange (security_request plan.isid 0 .Security false
    [("InitiatorName".toList, initiator), ("TargetName".toList, target),
      ("SessionType".toList, "Normal".toList), ("AuthMethod".toList, "CHAP".toList)]) stream
  let (r2, _, stream) ← exchange (security_request plan.isid (r1.stat_sn + 1) .Security false
    [("CHAP_A".toList, plan.chap_offer)]) stream
  let identifier ← ok_or .no_identifier ((value r2.text "CHAP_I".toList).bind parse_u8)
  let challenge ← binary (← ok_or .no_challenge (value r2.text "CHAP_C".toList))
  let algorithm ← ok_or .no_algorithm ((value r2.text "CHAP_A".toList).bind parse_u32)
  let answer ← ok_or (.not_implemented algorithm)
    (chap.response algorithm identifier secret challenge)
  let (r3, _, stream) ← exchange (security_request plan.isid (r2.stat_sn + 1) .Operational true
    (response_text user answer plan.mutual_chap)) stream
  let target_chap_name ← match plan.mutual_chap with
    | none => pure none
    | some m => (check_mutual algorithm secret m r3.text).map some
  if ¬ r3.transit then .error .not_accepted
  else
    return { exp_stat_sn := r3.stat_sn + 1
             chap_algorithm := some algorithm
             chap_challenge := some challenge
             target_chap_name
             stream }

/-! ## The operational stage -/

/-- ImmediateData after login: an offer of No is No whether or not the target answers; an
offer of Yes is what the target answered, and No when it did not answer. -/
def negotiated_immediate (offered answered : Text) : Bool :=
  value offered "ImmediateData".toList == some "Yes".toList &&
    value answered "ImmediateData".toList == some "Yes".toList

/-- A Minimum-function length key after login: the target's answer, else the offer when
the target did not answer it, else the default. -/
def negotiated_length (offered answered : Text) (key : List Char) (default : Nat) : Nat :=
  (((value answered key).or (value offered key)).bind parse_usize).getD default

/-- The operational exchange of `establish`. -/
def operational_stage (plan : Plan) (secured : Secured) : Except EstablishError Established := do
  let own_max_recv :=
    ((value plan.keys "MaxRecvDataSegmentLength".toList).bind parse_usize).getD DEFAULT_MAX_RECV
  let (response, raw, stream) ← exchange
    { isid := plan.isid, tsih := 0, cid := 0, itt := LOGIN_ITT, cmd_sn := LOGIN_CMD_SN
      exp_stat_sn := secured.exp_stat_sn
      current := .Operational, next := .FullFeature, transit := true
      text := plan.keys } secured.stream
  if ¬ response.transit ∨ response.next ≠ Stage.FullFeature.code then .error .not_full_feature
  else if response.tsih = 0 then .error .no_session_handle
  else
    let digest := fun key => value response.text key == some "CRC32C".toList
    let max_recv ← ok_or
      (.max_recv ((value response.text "MaxRecvDataSegmentLength".toList).getD []))
      (declared_max_recv response.text)
    let seq := raw_sequence raw
    return {
      stream
      negotiated :=
        { header_digest := digest "HeaderDigest".toList
          data_digest := digest "DataDigest".toList
          max_recv, own_max_recv
          initial_r2t := value response.text "InitialR2T".toList != some "No".toList
          immediate_data := negotiated_immediate plan.keys response.text
          first_burst :=
            negotiated_length plan.keys response.text "FirstBurstLength".toList 65536
          max_burst := negotiated_length plan.keys response.text "MaxBurstLength".toList 262144
          error_recovery :=
            ((value response.text "ErrorRecoveryLevel".toList).bind (texts.parse (2 ^ 8))).getD 0
          tsih := response.tsih
          chap_algorithm := secured.chap_algorithm
          chap_challenge := secured.chap_challenge
          target_chap_name := secured.target_chap_name
          keys := response.text }
      cmd_sn := seq.exp_cmd_sn
      exp_stat_sn := response.stat_sn + 1
      max_cmd_sn := seq.max_cmd_sn }

/-- Logs in as `plan` says, over a connection on which the target sends `stream`, and
returns the connection in full feature phase. -/
def establish (target initiator : List Char) (plan : Plan) (stream : List UInt8) :
    Except EstablishError Established := do
  let secured ← match plan.chap with
    | none =>
      .ok { exp_stat_sn := 0, chap_algorithm := none, chap_challenge := none
            target_chap_name := none, stream }
    | some (user, secret) => chap_stage target initiator plan user secret stream
  operational_stage plan secured

/-- The plan of `PduConnection::open_as`, which alone gives mutual CHAP. -/
def PduConnection.plan (isid : Block 6) (creds : Option (List Char × List UInt8))
    (m : Option Mutual) (keys : Text) : Plan :=
  { isid, chap := creds, chap_offer := "5,6,7,8".toList, mutual_chap := m, keys }

/-! ## What a login that succeeds went through -/

theorem ok_or_ok {α : Type} {e : EstablishError} {o : Option α} {a : α} (h : ok_or e o = .ok a) :
    o = some a := by
  cases o with
  | none => cases h
  | some b => exact congrArg some (Except.ok.inj h)

theorem binary_ok {text : List Char} {bytes : List UInt8} (h : binary text = .ok bytes) :
    chap.decode_binary text = some (.ok bytes) := by
  unfold binary at h
  split at h
  · cases h
  · rename_i result hresult
    cases result with
    | error e => cases h
    | ok b =>
      cases h
      exact hresult

theorem exchange_ok {request : LoginRequest} {stream rest raw : List UInt8} {r : LoginResponse}
    (h : exchange request stream = .ok (r, raw, rest)) :
    next_response stream = .ok (r, raw, rest) := by
  unfold exchange at h
  obtain ⟨_, -, h⟩ := except_bind_ok.mp h
  obtain ⟨⟨r', raw', rest'⟩, hnext, h⟩ := except_bind_ok.mp h
  dsimp only at h
  split_ifs at h
  cases h
  exact hnext

/-- The target's half of mutual CHAP stands only with the digest of its own secret. -/
theorem check_mutual.spec {algorithm : UInt32} {own_secret : List UInt8} {m : Mutual} {text : Text}
    {name : List Char} (h : check_mutual algorithm own_secret m text = .ok name) :
    ∃ answer want, value text "CHAP_R".toList = some answer ∧
      chap.decode_binary answer = some (.ok want) ∧
      chap.digest algorithm m.identifier m.secret m.challenge = some want ∧
      chap.digest algorithm m.identifier own_secret m.challenge ≠ some want := by
  unfold check_mutual at h
  obtain ⟨_, -, h⟩ := except_bind_ok.mp h
  obtain ⟨answer, hanswer, h⟩ := except_bind_ok.mp h
  obtain ⟨got, hgot, h⟩ := except_bind_ok.mp h
  obtain ⟨want, hwant, h⟩ := except_bind_ok.mp h
  split_ifs at h with hown hwrong
  obtain rfl : got = want := not_not.mp hwrong
  exact ⟨answer, got, ok_or_ok hanswer, binary_ok hgot, ok_or_ok hwant, hown⟩

/-- In the responses of the stream the target chooses the algorithm, and answers spit's
challenge with the text. -/
def Responds (stream : List UInt8) (algorithm : UInt32) (text : Text) : Prop :=
  ∃ r1 r2 r3 raw1 raw2 raw3 s1 s2 s3, next_response stream = .ok (r1, raw1, s1) ∧
    next_response s1 = .ok (r2, raw2, s2) ∧ next_response s2 = .ok (r3, raw3, s3) ∧
    (value r2.text "CHAP_A".toList).bind parse_u32 = some algorithm ∧ r3.text = text

/-- What the CHAP exchange went through. -/
theorem chap_stage.spec {target initiator user : List Char} {plan : Plan} {m : Mutual}
    {secret stream : List UInt8} {secured : Secured} (hm : plan.mutual_chap = some m)
    (h : chap_stage target initiator plan user secret stream = .ok secured) :
    ∃ algorithm text name, Responds stream algorithm text ∧ algorithm ∈ chap.IMPLEMENTED ∧
      check_mutual algorithm secret m text = .ok name ∧
      secured.chap_algorithm = some algorithm := by
  unfold chap_stage at h
  obtain ⟨⟨r1, raw1, s1⟩, h1, h⟩ := except_bind_ok.mp h
  obtain ⟨⟨r2, raw2, s2⟩, h2, h⟩ := except_bind_ok.mp h
  obtain ⟨identifier, -, h⟩ := except_bind_ok.mp h
  obtain ⟨_, -, h⟩ := except_bind_ok.mp h
  obtain ⟨challenge, -, h⟩ := except_bind_ok.mp h
  obtain ⟨algorithm, halgorithm, h⟩ := except_bind_ok.mp h
  obtain ⟨answer, hanswer, h⟩ := except_bind_ok.mp h
  obtain ⟨⟨r3, raw3, s3⟩, h3, h⟩ := except_bind_ok.mp h
  rw [hm] at h
  obtain ⟨name, hname, h⟩ := except_bind_ok.mp h
  have himplemented : algorithm ∈ chap.IMPLEMENTED := by
    rw [← chap.digest_isSome_iff algorithm identifier secret challenge]
    have hsome := ok_or_ok hanswer
    obtain ⟨digest, hdigest, -⟩ := Option.map_eq_some_iff.mp hsome
    exact Option.isSome_of_eq_some hdigest
  cases hcheck : check_mutual algorithm secret m r3.text with
  | error e =>
    rw [hcheck] at hname
    cases hname
  | ok n =>
    dsimp only at h
    split_ifs at h
    cases h
    exact ⟨algorithm, r3.text, n, ⟨r1, r2, r3, raw1, raw2, raw3, s1, s2, s3, exchange_ok h1,
      exchange_ok h2, exchange_ok h3, ok_or_ok halgorithm, rfl⟩, himplemented, hcheck, rfl⟩

theorem operational_stage.spec {plan : Plan} {secured : Secured} {e : Established}
    (h : operational_stage plan secured = .ok e) :
    e.negotiated.chap_algorithm = secured.chap_algorithm := by
  unfold operational_stage at h
  obtain ⟨⟨response, raw, rest⟩, -, h⟩ := except_bind_ok.mp h
  dsimp only at h
  split_ifs at h
  obtain ⟨max_recv, -, h⟩ := except_bind_ok.mp h
  cases h
  rfl

/-! ## A target that answers -/

/-- A login response with the text is read, whatever follows it. -/
theorem next_response_append (bhs : Bhs) {text : Text} (htext : ∀ pair ∈ text, Carried pair)
    (hopcode : byte bhs 0 &&& 0x3f = LOGIN_RESPONSE) (hlen : data_len bhs = (text_data text).length)
    (rest : List UInt8) :
    next_response (bhs.1 ++ segment (text_data text) ++ rest) =
      .ok (LoginResponse.of_bhs bhs text, bhs.1 ++ segment (text_data text), rest) := by
  have hparse := parse_text.spec htext 0
  rw [List.replicate_zero, List.append_nil] at hparse
  have hpadded := padded_le (text_data text).length
  unfold next_response
  rw [read_login_pdu_append bhs rest (by rw [segment_length, hlen])]
  refine except_bind_ok.mpr ⟨_, rfl, ?_⟩
  dsimp only
  rw [LoginResponse.decode.spec, if_neg (not_not.mpr hopcode),
    if_neg (by rw [segment_length, hlen]; omega), hlen, segment_take, hparse]
  rfl

theorem byte_put {b : Bhs} {i j : Nat} {v : List UInt8} (h : i + v.length ≤ 48) :
    byte (b.put i v h) j = if i ≤ j ∧ j < i + v.length then v.getD (j - i) 0 else byte b j := by
  have hi : (b.1.take i).length = i := by
    rw [List.length_take, b.2]
    omega
  unfold byte Block.put patch
  simp only [List.getD_eq_getElem?_getD]
  rw [List.append_assoc]
  split
  · rename_i hj
    rw [List.getElem?_append_right (by omega), hi, List.getElem?_append_left (by omega)]
  · rename_i hj
    by_cases hlt : j < i
    · rw [List.getElem?_append_left (by omega), List.getElem?_take_of_lt hlt]
    · rw [List.getElem?_append_right (by omega), hi, List.getElem?_append_right (by omega),
        List.getElem?_drop]
      congr 2
      omega

/-- A response of a target that accepts the request of the login so far. -/
def answer_bhs (flags : UInt8) (tsih : UInt16) (length : Nat) : Bhs :=
  let bhs := Block.zero 48
  let bhs := bhs.put 0 [LOGIN_RESPONSE] (by simp)
  let bhs := bhs.put 1 [flags] (by simp)
  let bhs := bhs.put 5 (be 3 length) (length_field_fits length)
  let bhs := bhs.put 14 (be 2 tsih.toNat) (by simp)
  bhs.put 16 (to_be_bytes LOGIN_ITT) (by simp)

def answer_pdu (flags : UInt8) (tsih : UInt16) (text : Text) : List UInt8 :=
  (answer_bhs flags tsih (text_data text).length).1 ++ segment (text_data text)

theorem next_response_answer {flags : UInt8} {tsih : UInt16} {text : Text}
    (htext : ∀ pair ∈ text, Carried pair) (hlen : (text_data text).length < 2 ^ 24)
    (rest : List UInt8) :
    next_response (answer_pdu flags tsih text ++ rest) =
      .ok (LoginResponse.of_bhs (answer_bhs flags tsih (text_data text).length) text,
        answer_pdu flags tsih text, rest) := by
  refine next_response_append _ htext ?_ ?_ rest
  · simp [answer_bhs, byte_put]
    decide
  · unfold data_len answer_bhs
    iterate 2 rw [Block.field_put_left _ _ (by simp)]
    rw [Block.field_put_self _ _ (by simp), of_be_be_of_lt hlen]

theorem exchange_answer {request : LoginRequest} {flags : UInt8} {tsih : UInt16} {text : Text}
    (hitt : request.itt = LOGIN_ITT) (hrequest : (text_data request.text).length < 2 ^ 24)
    (htext : ∀ pair ∈ text, Carried pair) (hlen : (text_data text).length < 2 ^ 24)
    (rest : List UInt8) :
    exchange request (answer_pdu flags tsih text ++ rest) =
      .ok (LoginResponse.of_bhs (answer_bhs flags tsih (text_data text).length) text,
        answer_pdu flags tsih text, rest) := by
  have hencode : ∃ pdu, request.encode = .ok pdu := by
    unfold LoginRequest.encode
    rw [if_neg (Nat.not_le.mpr hrequest)]
    exact ⟨_, rfl⟩
  obtain ⟨pdu, hpdu⟩ := hencode
  have htag : (LoginResponse.of_bhs (answer_bhs flags tsih (text_data text).length) text).itt =
      request.itt := by
    rw [hitt]
    simp [LoginResponse.of_bhs, answer_bhs, byte_put]
    decide
  have hstatus : (LoginResponse.of_bhs (answer_bhs flags tsih (text_data text).length) text).status =
      (0, 0) := by
    simp [LoginResponse.of_bhs, answer_bhs, byte_put]
    decide
  refine except_bind_ok.mpr ⟨pdu, by rw [hpdu]; rfl, except_bind_ok.mpr ⟨_,
    next_response_answer htext hlen rest, ?_⟩⟩
  dsimp only
  rw [if_neg (not_not.mpr htag), if_neg (not_not.mpr hstatus)]

/-! ## Mutual CHAP -/

/-- The algorithm is one of those an offer lists. -/
def Lists (offer : List Char) (algorithm : UInt32) : Prop :=
  ∃ item ∈ offer.splitOn ',', parse_u32 item = some algorithm

/-- The target chose the algorithm and answered spit's challenge with the digest of its
own secret, which is not that of spit's secret. -/
def Authenticates (secret : List UInt8) (m : Mutual) (stream : List UInt8) (algorithm : UInt32) :
    Prop :=
  ∃ text answer want, Responds stream algorithm text ∧ value text "CHAP_R".toList = some answer ∧
    chap.decode_binary answer = some (.ok want) ∧
    chap.digest algorithm m.identifier m.secret m.challenge = some want ∧
    chap.digest algorithm m.identifier secret m.challenge ≠ some want

theorem open_as_lists_every_implemented_algorithm :
    ∀ algorithm ∈ chap.IMPLEMENTED, Lists "5,6,7,8".toList algorithm := by
  have hcut : "5,6,7,8".toList.splitOn ',' = [['5'], ['6'], ['7'], ['8']] := by
    rfl
  intro algorithm halgorithm
  unfold Lists
  rw [hcut]
  simp only [chap.IMPLEMENTED, List.mem_cons, List.not_mem_nil, or_false] at halgorithm
  rcases halgorithm with rfl | rfl | rfl | rfl
  · exact ⟨['5'], by simp, by decide⟩
  · exact ⟨['6'], by simp, by decide⟩
  · exact ⟨['7'], by simp, by decide⟩
  · exact ⟨['8'], by simp, by decide⟩

/-- Whatever a target sends, a login with CHAP and mutual CHAP succeeds only when the
target answered the challenge with the digest of its own secret, under an algorithm it
chose, that is implemented, and that the login reports. With the plan of `open_as` that
algorithm is one of those offered. -/
theorem mutual_chap_stands_only_with_the_target_secret_under_an_implemented_algorithm
    (target initiator user : List Char) (plan : Plan) (m : Mutual) (secret stream : List UInt8)
    (e : Established) (hchap : plan.chap = some (user, secret)) (hm : plan.mutual_chap = some m)
    (h : establish target initiator plan stream = .ok e) :
    ∃ algorithm, Authenticates secret m stream algorithm ∧ algorithm ∈ chap.IMPLEMENTED ∧
      e.negotiated.chap_algorithm = some algorithm ∧
      ∀ isid creds m' keys, plan = PduConnection.plan isid creds m' keys →
        Lists plan.chap_offer algorithm := by
  unfold establish at h
  rw [hchap] at h
  obtain ⟨secured, hstage, h⟩ := except_bind_ok.mp h
  obtain ⟨algorithm, text, name, hresponds, himplemented, hcheck, hreported⟩ :=
    chap_stage.spec hm hstage
  obtain ⟨answer, want, hanswer, hdecoded, hdigest, hown⟩ := check_mutual.spec hcheck
  refine ⟨algorithm, ⟨text, answer, want, hresponds, hanswer, hdecoded, hdigest, hown⟩,
    himplemented, ?_, ?_⟩
  · rw [operational_stage.spec h, hreported]
  · rintro isid creds m' keys rfl
    exact open_as_lists_every_implemented_algorithm algorithm himplemented

/-! ## A target that chooses what it likes -/

section downgrade

/-- The target's half, and spit's challenge to it. -/
def a_mutual : Mutual := { secret := [2], identifier := 2, challenge := [3], base64 := false }

def a_plan (offer : List Char) : Plan :=
  { isid := Block.zero 6, chap := some (['u'], [1]), chap_offer := offer
    mutual_chap := some a_mutual, keys := [] }

/-- The texts of a target that chooses MD5 and has the right secret. -/
def a_choice : Text :=
  [("CHAP_A".toList, ['5']), ("CHAP_I".toList, ['1']), ("CHAP_C".toList, ['0', 'x', '0', '0'])]

def a_response : Text :=
  [("CHAP_N".toList, ['t']), ("CHAP_R".toList, chap.encode_hex (chap.md5 [2, 2, 3]))]

def a_target : List UInt8 :=
  answer_pdu 0 0 [] ++ (answer_pdu 0 0 a_choice ++
    (answer_pdu 0x81 0 a_response ++ (answer_pdu 0x87 1 [] ++ [])))

/-- The texts of this login can be carried and fit in their PDUs, and the two secrets have
different digests. -/
theorem a_login_texts : (∀ pair ∈ a_choice, Carried pair) ∧ (∀ pair ∈ a_response, Carried pair) ∧
    chap.md5 [2, 1, 3] ≠ chap.md5 [2, 2, 3] ∧ (text_data []).length < 2 ^ 24 ∧
    (text_data a_choice).length < 2 ^ 24 ∧ (text_data a_response).length < 2 ^ 24 ∧
    (text_data [("InitiatorName".toList, ['i']), ("TargetName".toList, ['t']),
      ("SessionType".toList, "Normal".toList), ("AuthMethod".toList, "CHAP".toList)]).length <
      2 ^ 24 ∧
    (text_data (response_text ['u'] (chap.encode_hex (chap.md5 [1, 1, 0]))
      (some a_mutual))).length < 2 ^ 24 ∧ binary ['0', 'x', '0', '0'] = .ok [0] := by
  decide +kernel

theorem a_choice_carried : ∀ pair ∈ a_choice, Carried pair := a_login_texts.1

theorem a_response_carried : ∀ pair ∈ a_response, Carried pair := a_login_texts.2.1

theorem a_secret_differs : chap.md5 [2, 1, 3] ≠ chap.md5 [2, 2, 3] := a_login_texts.2.2.1

theorem a_check : check_mutual 5 [1] a_mutual a_response = .ok ['t'] := by
  have hdigest : chap.digest 5 2 [1] [3] ≠ some (chap.md5 [2, 2, 3]) :=
    fun heq => a_secret_differs (Option.some.inj heq)
  have hbinary : binary (chap.encode_hex (chap.md5 [2, 2, 3])) = .ok (chap.md5 [2, 2, 3]) := by
    unfold binary
    rw [chap.decode_binary_encode_hex]
    rfl
  refine except_bind_ok.mpr ⟨['t'], rfl, except_bind_ok.mpr
    ⟨chap.encode_hex (chap.md5 [2, 2, 3]), rfl, except_bind_ok.mpr
    ⟨_, hbinary, except_bind_ok.mpr ⟨chap.md5 [2, 2, 3], rfl, ?_⟩⟩⟩⟩
  exact (if_neg hdigest).trans (if_neg (not_not.mpr rfl))

theorem empty_fits : (text_data []).length < 2 ^ 24 := a_login_texts.2.2.2.1

theorem a_choice_fits : (text_data a_choice).length < 2 ^ 24 := a_login_texts.2.2.2.2.1

/-- The login succeeds for every offer that fits a request. -/
theorem a_login (offer : List Char) (h : (text_data [("CHAP_A".toList, offer)]).length < 2 ^ 24) :
    ∃ e, establish ['t'] ['i'] (a_plan offer) a_target = .ok e := by
  obtain ⟨hresponse, hfirst, hthird, hchallenge⟩ := a_login_texts.2.2.2.2.2
  have hname : (check_mutual 5 [1] a_mutual a_response).map some = .ok (some ['t']) := by
    rw [a_check]
    rfl
  have hstage : ∃ secured, chap_stage ['t'] ['i'] (a_plan offer) ['u'] [1] a_target = .ok secured ∧
      secured.stream = answer_pdu 0x87 1 [] ++ [] :=
    ⟨_, except_bind_ok.mpr ⟨_, exchange_answer rfl hfirst (by simp) empty_fits _,
      except_bind_ok.mpr ⟨_, exchange_answer rfl h a_choice_carried a_choice_fits _,
      except_bind_ok.mpr ⟨1, rfl, except_bind_ok.mpr ⟨['0', 'x', '0', '0'], rfl,
      except_bind_ok.mpr ⟨[0], hchallenge, except_bind_ok.mpr ⟨5, rfl,
      except_bind_ok.mpr ⟨_, rfl, except_bind_ok.mpr ⟨_,
        exchange_answer rfl hthird a_response_carried hresponse _,
      except_bind_ok.mpr ⟨some ['t'], hname, rfl⟩⟩⟩⟩⟩⟩⟩⟩⟩, rfl⟩
  obtain ⟨secured, hsecured, hstream⟩ := hstage
  obtain ⟨exp_stat_sn, chap_algorithm, chap_challenge, name, stream⟩ := secured
  subst hstream
  exact ⟨_, except_bind_ok.mpr ⟨_, hsecured, except_bind_ok.mpr
    ⟨_, exchange_answer rfl empty_fits (by simp) empty_fits _, rfl⟩⟩⟩

theorem a_target_chooses_md5 {algorithm : UInt32} {text : Text}
    (h : Responds a_target algorithm text) : algorithm = 5 := by
  obtain ⟨r1, r2, r3, raw1, raw2, raw3, s1, s2, s3, h1, h2, -, halgorithm, -⟩ := h
  cases (next_response_answer (by simp) empty_fits _).symm.trans h1
  cases (next_response_answer a_choice_carried a_choice_fits _).symm.trans h2
  exact (Option.some.inj halgorithm).symm

/-- An algorithm that was not offered is accepted when it is implemented: SHA-256 alone
is offered, and the target chooses MD5. -/
theorem an_algorithm_that_was_not_offered_is_accepted :
    ¬ ∀ (target initiator user : List Char) (plan : Plan) (m : Mutual) (secret stream : List UInt8)
      (e : Established), plan.chap = some (user, secret) → plan.mutual_chap = some m →
      establish target initiator plan stream = .ok e →
      ∃ algorithm, Authenticates secret m stream algorithm ∧ Lists plan.chap_offer algorithm := by
  intro hclaim
  obtain ⟨e, he⟩ := a_login ['7'] (by decide +kernel)
  obtain ⟨algorithm, ⟨text, -, -, hresponds, -⟩, hlists⟩ :=
    hclaim ['t'] ['i'] ['u'] (a_plan ['7']) a_mutual [1] a_target e rfl rfl he
  obtain rfl := a_target_chooses_md5 hresponds
  have hcut : (['7'] : List Char).splitOn ',' = [['7']] := rfl
  obtain ⟨item, hitem, hparse⟩ := hlists
  rw [show (a_plan ['7']).chap_offer = ['7'] from rfl, hcut, List.mem_singleton] at hitem
  subst hitem
  exact absurd hparse (by decide)

/-- A login with the offer of `open_as`, to the same target. -/
theorem a_login_with_the_offer_of_open_as :
    ∃ e algorithm, establish ['t'] ['i'] (a_plan "5,6,7,8".toList) a_target = .ok e ∧
      Authenticates [1] a_mutual a_target algorithm := by
  obtain ⟨e, he⟩ := a_login "5,6,7,8".toList (by decide +kernel)
  obtain ⟨algorithm, hauth, -⟩ :=
    mutual_chap_stands_only_with_the_target_secret_under_an_implemented_algorithm
      ['t'] ['i'] ['u'] (a_plan "5,6,7,8".toList) a_mutual [1] a_target e rfl rfl he
  exact ⟨e, algorithm, he, hauth⟩

end downgrade

end stutools.iscsi
