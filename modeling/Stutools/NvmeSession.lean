-- The NVMe/TCP session of a path: the commands in flight on its I/O queue, by
-- command identifier, and what `handle_pdu` does with each PDU of the
-- controller. Indexes that may be out of range are explicit, and so is every
-- access to a command's buffer.
import Stutools.Fabric
import Stutools.NvmePdu

open bytes

namespace stutools.nvme

/-- Where the data of one command is: the length of its buffer, and its direction. -/
structure Pending where
  len : Nat
  write : Bool
deriving DecidableEq, Repr

/-- An access to the buffer of a command through its pointer. -/
structure Touch where
  cid : Nat
  offset : Nat
  len : Nat
  store : Bool
deriving DecidableEq, Repr

/-- The state of a session that the I/O queue uses. -/
structure Session where
  /-- Per command identifier, the buffer while the command is in flight. -/
  pending : List (Option Pending)
  inflight : Nat
  /-- The most commands the I/O queue takes at once. -/
  limit : Nat
  /-- Writes up to this many bytes travel in the capsule. -/
  inline_limit : Nat
  /-- The largest H2CData the controller accepts; opening a link never leaves it zero. -/
  max_h2c : { n : Nat // 0 < n }
  /-- How many more PDUs the stream takes before writing to it fails; none when
  it takes all of them. -/
  room : Option Nat
  /-- The accesses to buffers. -/
  touched : List Touch

/-- Why handling a PDU or sending a command returns an error. -/
inductive SessionError where
  /-- "NVMe/TCP: expected C2HData", "R2T" or "CapsuleResp" -/
  | parse (kind : UInt8)
  /-- "NVMe/TCP: data for a command that is not in flight" -/
  | data_not_in_flight
  /-- "NVMe/TCP: data outside a read's buffer" -/
  | data_outside
  /-- "NVMe/TCP: R2T for a command that is not in flight" -/
  | r2t_not_in_flight
  /-- "NVMe/TCP: R2T for a read" -/
  | r2t_for_a_read
  /-- "NVMe/TCP: R2T asks for data outside the command's buffer" -/
  | r2t_outside
  /-- "NVMe/TCP: controller terminated the connection (.. status {fes}, info {fei})" -/
  | terminated (kind : UInt8) (fes : UInt16) (fei : UInt32)
  /-- "NVMe/TCP: unexpected PDU type {kind} on the I/O queue" -/
  | unexpected (kind : UInt8)
  /-- Writing to the stream fails. -/
  | sending
  /-- "NVMe command ID beyond 16 bits" -/
  | command_id (tag : Nat)
  /-- Keep Alive on the admin queue fails, or reading a PDU does. -/
  | link
deriving DecidableEq, Repr

/-- How handling a PDU ends: the loop of `poll` goes on, `poll` returns, or an
index is out of range. -/
inductive Step where
  | more
  | done (d : Done)
  | failed (e : SessionError)
  | panic
deriving DecidableEq

/-- Status code type 3: path-related status. -/
def SCT_PATH : UInt16 := 0x3

namespace Session

/-- The command in flight with an identifier. -/
def find (s : Session) (cid : Nat) : Option Pending := s.pending[cid]?.join

/-- Writes one PDU to the stream. -/
def send (s : Session) : Option Session :=
  match s.room with
  | some 0 => none
  | room => some { s with room := room.map (· - 1) }

/-- `finish`: frees the command's slot and builds the pool's completion. The
counter is a 64-bit one and goes round below zero. -/
def finish (s : Session) (cid : UInt16) (cqe : Completion) : Session × Step :=
  let code := cqe.status >>> 1
  ({ s with
      pending := s.pending.set cid.toNat none
      inflight := (s.inflight + (2 ^ 64 - 1)) % 2 ^ 64 },
    .done { tag := cid.toNat, status := if cqe.ok then 0 else 1, code,
            unavailable := (code >>> 8) &&& 0x7 == SCT_PATH, sense := Block.zero 64, sense_len := 0 })

/-- The C2HData arm: the data goes to the buffer at its offset. The copy panics
when DATAL is not the length of the data. -/
def c2h_data (s : Session) (p : Pdu) : Session × Step :=
  match parse_c2h p with
  | none => (s, .failed (.parse p.kind))
  | some c2h =>
    match s.find c2h.cccid.toNat with
    | none => (s, .failed .data_not_in_flight)
    | some pending =>
      let start := c2h.datao.toNat
      let stop := start + c2h.datal.toNat
      if pending.write ∨ pending.len < stop then (s, .failed .data_outside)
      else if stop - start ≠ p.data.length then (s, .panic)
      else
        let s := { s with
          touched := s.touched ++ [Touch.mk c2h.cccid.toNat start (stop - start) true] }
        if c2h.success then
          s.finish c2h.cccid { dw0 := 0, wide := 0, sq_head := 0, cid := c2h.cccid, status := 0 }
        else (s, .more)

/-- The loop of `send_h2c`: the bytes of the source from `sent` on, in pieces no
larger than the controller takes. -/
def send_pieces (cid start len : Nat) (s : Session) (sent : Nat) : Session × Step :=
  if hlt : sent < len then
    let n := min (len - sent) s.max_h2c.1
    let s' := { s with touched := s.touched ++ [Touch.mk cid (start + sent) n false] }
    match s'.send with
    | none => (s', .failed .sending)
    | some s'' => send_pieces cid start len s'' (sent + n)
  else (s, .more)
termination_by len - sent
decreasing_by
  have hpos := s.max_h2c.2
  show len - (sent + min (len - sent) s.max_h2c.1) < len - sent
  omega

/-- `send_h2c`: answers an R2T with the data it asks for. -/
def send_h2c (s : Session) (r2t : R2t) (len : Nat) : Session × Step :=
  let start := r2t.r2to.toNat
  let stop := start + r2t.r2tl.toNat
  if len < stop then (s, .failed .r2t_outside)
  else send_pieces r2t.cccid.toNat start (stop - start) s 0

/-- The R2T arm. -/
def ready_to_transfer (s : Session) (p : Pdu) : Session × Step :=
  match parse_r2t p with
  | none => (s, .failed (.parse p.kind))
  | some r2t =>
    match s.find r2t.cccid.toNat with
    | none => (s, .failed .r2t_not_in_flight)
    | some pending =>
      if pending.write then s.send_h2c r2t pending.len else (s, .failed .r2t_for_a_read)

/-- The CapsuleResp arm. It does not look whether the command is in flight. -/
def capsule_resp (s : Session) (p : Pdu) : Session × Step :=
  match parse_capsule_resp p with
  | none => (s, .failed (.parse p.kind))
  | some bytes =>
    let cqe := Completion.parse bytes
    s.finish cqe.cid cqe

/-- `describe_term`, which indexes the header up to byte 16. -/
def describe_term (p : Pdu) : Step :=
  if p.header.length < 16 then .panic
  else .failed (.terminated p.kind (le16 p.header 8) (le32 p.header 12))

/-- Handles one PDU from the I/O queue. -/
def handle_pdu (s : Session) (p : Pdu) : Session × Step :=
  if p.kind = C2H_DATA then s.c2h_data p
  else if p.kind = R2T then s.ready_to_transfer p
  else if p.kind = CAPSULE_RESP then s.capsule_resp p
  else if p.kind = TERM_C2H ∨ p.kind = TERM_H2C then (s, describe_term p)
  else (s, .failed (.unexpected p.kind))

def can_submit (s : Session) : Bool := decide (s.inflight < s.limit)

/-- `submit`: sends the capsule, with the data of a small write in it. `alive` is
how Keep Alive went, if it was due. -/
def submit (s : Session) (alive : Bool) (tag : Nat) (io : Io) (len : Nat) :
    Except SessionError Session :=
  if !alive then .error .link
  else if 2 ^ 16 ≤ tag then .error (.command_id tag)
  else
    let s := if io.write ∧ len ≤ s.inline_limit then
      { s with touched := s.touched ++ [Touch.mk tag 0 len false] } else s
    match s.send with
    | none => .error .sending
    | some s =>
      let pending := if s.pending.length ≤ tag then
        s.pending ++ List.replicate (tag + 1 - s.pending.length) none else s.pending
      .ok { s with
        pending := pending.set tag (some { len, write := io.write })
        inflight := s.inflight + 1 }

/-- `poll`, over the PDUs the controller sends, each with how Keep Alive went
before it; when there are no more, reading fails. -/
def poll (s : Session) : List (Bool × Pdu) → Session × Step
  | [] => (s, .failed .link)
  | (alive, p) :: ps =>
    if !alive then (s, .failed .link)
    else if (s.handle_pdu p).2 = .more then poll (s.handle_pdu p).1 ps
    else s.handle_pdu p

/-! ## What one PDU does -/

theorem send_some {s t : Session} (h : s.send = some t) :
    t = { s with room := s.room.map (· - 1) } := by
  unfold send at h
  split at h
  · cases h
  · exact (Option.some.inj h).symm

/-- The bytes a piece reads are of the command's buffer, up to where it stops. -/
theorem send_pieces_touched {cid start len : Nat} (s : Session) (sent : Nat) :
    ∀ t ∈ (send_pieces cid start len s sent).1.touched, t ∈ s.touched ∨
      t.cid = cid ∧ t.offset + t.len ≤ start + len ∧ t.store = false := by
  fun_induction send_pieces cid start len s sent with
  | case1 s sent hlt n s1 hs =>
    intro t ht
    rcases List.mem_append.mp ht with hold | hnew
    · exact Or.inl hold
    · obtain rfl := List.mem_singleton.mp hnew
      exact Or.inr ⟨rfl, by simp only [n]; omega, rfl⟩
  | case2 s sent hlt n s1 s2 hs ih =>
    intro t ht
    rcases ih t ht with hold | hnew
    · obtain rfl := send_some hs
      rcases List.mem_append.mp hold with hold | hnew
      · exact Or.inl hold
      · obtain rfl := List.mem_singleton.mp hnew
        exact Or.inr ⟨rfl, by simp only [n]; omega, rfl⟩
    · exact Or.inr hnew
  | case3 s sent hge => exact fun t ht => Or.inl ht

/-- Sending the pieces of an answer ends, and the commands in flight stay as they are. -/
theorem send_pieces_outcome (cid start len : Nat) (s : Session) (sent : Nat) :
    ((send_pieces cid start len s sent).2 = .more ∨
      (send_pieces cid start len s sent).2 = .failed .sending) ∧
    (send_pieces cid start len s sent).1.pending = s.pending ∧
    (send_pieces cid start len s sent).1.inflight = s.inflight := by
  fun_induction send_pieces cid start len s sent with
  | case1 s sent hlt n s1 hs => exact ⟨Or.inr rfl, rfl, rfl⟩
  | case2 s sent hlt n s1 s2 hs ih =>
    obtain rfl := send_some hs
    exact ih
  | case3 s sent hge => exact ⟨Or.inl rfl, rfl, rfl⟩

/-- An access that handling a PDU makes: inside the buffer of a command in flight,
to store for a read and to load for a write. -/
def InBuffer (s : Session) (t : Touch) : Prop :=
  ∃ pending, s.find t.cid = some pending ∧ t.offset + t.len ≤ pending.len ∧
    t.store = !pending.write

/-- Whatever the PDU, only buffers of commands in flight are touched. -/
theorem handle_pdu_touched (s : Session) (p : Pdu) :
    ∀ t ∈ (s.handle_pdu p).1.touched, t ∈ s.touched ∨ s.InBuffer t := by
  unfold handle_pdu
  split
  · unfold c2h_data
    split
    · exact fun t => Or.inl
    · rename_i c2h _
      split
      · exact fun t => Or.inl
      · rename_i pending hfind
        dsimp only
        split
        · exact fun t => Or.inl
        · rename_i hrange
          push Not at hrange
          have hnew : ∀ t ∈ s.touched ++ [Touch.mk c2h.cccid.toNat c2h.datao.toNat
              (c2h.datao.toNat + c2h.datal.toNat - c2h.datao.toNat) true],
              t ∈ s.touched ∨ s.InBuffer t := by
            intro t ht
            rcases List.mem_append.mp ht with hold | hnew
            · exact Or.inl hold
            · obtain rfl := List.mem_singleton.mp hnew
              exact Or.inr ⟨pending, hfind, by simp only; omega, by simp [hrange.1]⟩
          split
          · exact fun t => Or.inl
          · split
            · exact hnew
            · exact hnew
  split
  · unfold ready_to_transfer
    split
    · exact fun t => Or.inl
    · split
      · exact fun t => Or.inl
      · rename_i r2t _ pending hfind
        split
        · rename_i hw
          unfold send_h2c
          dsimp only
          split
          · exact fun t => Or.inl
          · intro t ht
            rcases send_pieces_touched s 0 t ht with hold | ⟨hcid, hle, hstore⟩
            · exact Or.inl hold
            · exact Or.inr ⟨pending, hcid ▸ hfind, by omega, by simp [hstore, hw]⟩
        · exact fun t => Or.inl
  split
  · unfold capsule_resp
    split
    · exact fun t => Or.inl
    · exact fun t => Or.inl
  split
  · exact fun t => Or.inl
  · exact fun t => Or.inl

/-- What the safety of one PDU is: no panic, a completion only for a command in
flight, and access only to the buffer of the command it names. -/
structure Safe (s : Session) (p : Pdu) : Prop where
  no_panic : (s.handle_pdu p).2 ≠ .panic
  in_flight : ∀ d, (s.handle_pdu p).2 = .done d → (s.find d.tag).isSome
  touched : ∀ t ∈ (s.handle_pdu p).1.touched, t ∈ s.touched ∨ s.InBuffer t

/-- A PDU that the session handles safely: the data of a C2HData for a read in
flight is as long as it says, a completion names a command in flight, and a
termination request has its two fields. -/
structure Proper (s : Session) (p : Pdu) : Prop where
  data : ∀ c2h, parse_c2h p = some c2h → ∀ pending, s.find c2h.cccid.toNat = some pending →
    pending.write = false → c2h.datao.toNat + c2h.datal.toNat ≤ pending.len →
    p.data.length = c2h.datal.toNat
  completion : ∀ bytes, parse_capsule_resp p = some bytes →
    (s.find (Completion.parse bytes).cid.toNat).isSome
  termination : p.kind = TERM_C2H ∨ p.kind = TERM_H2C → 16 ≤ p.header.length

theorem parse_c2h_kind {p : Pdu} {c2h : C2hData} (h : parse_c2h p = some c2h) :
    p.kind = C2H_DATA := by
  unfold parse_c2h at h
  split at h
  · cases h
  · rename_i hkind
    push Not at hkind
    exact hkind.1

theorem parse_capsule_resp_kind {p : Pdu} {bytes : List UInt8}
    (h : parse_capsule_resp p = some bytes) : p.kind = CAPSULE_RESP := by
  unfold parse_capsule_resp at h
  split at h
  · cases h
  · rename_i hkind
    push Not at hkind
    exact hkind.1

section Proper

variable {s : Session} {p : Pdu}

/-- A PDU that is none of the three kinds is proper. -/
theorem Proper.other (hdata : ∀ c2h, parse_c2h p ≠ some c2h)
    (hresp : ∀ bytes, parse_capsule_resp p ≠ some bytes)
    (hterm : ¬ (p.kind = TERM_C2H ∨ p.kind = TERM_H2C)) : s.Proper p :=
  ⟨fun c2h h => absurd h (hdata c2h), fun bytes h => absurd h (hresp bytes),
    fun h => absurd h hterm⟩

theorem parse_capsule_resp_ne (h : p.kind ≠ CAPSULE_RESP) (bytes : List UInt8) :
    parse_capsule_resp p ≠ some bytes := fun hp => h (parse_capsule_resp_kind hp)

theorem parse_c2h_ne (h : p.kind ≠ C2H_DATA) (c2h : C2hData) : parse_c2h p ≠ some c2h :=
  fun hp => h (parse_c2h_kind hp)

theorem proper_c2h (h : p.kind = C2H_DATA) : s.Proper p ↔
    ∀ c2h, parse_c2h p = some c2h → ∀ pending, s.find c2h.cccid.toNat = some pending →
      pending.write = false → c2h.datao.toNat + c2h.datal.toNat ≤ pending.len →
      p.data.length = c2h.datal.toNat := by
  refine ⟨fun hp => hp.data, fun hd => ⟨hd, ?_, ?_⟩⟩
  · intro bytes hb
    exact absurd hb (parse_capsule_resp_ne (by rw [h]; decide) bytes)
  · rw [h]
    rintro (hk | hk) <;> exact absurd hk (by decide)

theorem proper_capsule_resp (h : p.kind = CAPSULE_RESP) : s.Proper p ↔
    ∀ bytes, parse_capsule_resp p = some bytes →
      (s.find (nvme.Completion.parse bytes).cid.toNat).isSome := by
  refine ⟨fun hp => hp.completion, fun hc => ⟨?_, hc, ?_⟩⟩
  · intro c2h hp
    exact absurd hp (parse_c2h_ne (by rw [h]; decide) c2h)
  · rw [h]
    rintro (hk | hk) <;> exact absurd hk (by decide)

end Proper

/-- What handling a PDU comes to, but for what it touches: it is refused or
panics, or the session goes on, or a command is finished. -/
def Outcome (s : Session) (p : Pdu) (r : Session × Step) : Prop :=
  (r.2 = .panic ∧ ¬ s.Proper p) ∨
  ((∃ e, r.2 = .failed e) ∧ s.Proper p) ∨
  (r.2 = .more ∧ s.Proper p ∧ r.1.pending = s.pending ∧ r.1.inflight = s.inflight) ∨
  ∃ (t : Session) (cid : UInt16) (cqe : nvme.Completion), r = t.finish cid cqe ∧
    t.pending = s.pending ∧ t.inflight = s.inflight ∧
    (s.Proper p ↔ (s.find cid.toNat).isSome)

theorem c2h_data_outcome {s : Session} {p : Pdu} (h : p.kind = C2H_DATA) :
    s.Outcome p (s.c2h_data p) := by
  have hproper := proper_c2h (s := s) h
  unfold c2h_data
  cases hp : parse_c2h p with
  | none => exact Or.inr (Or.inl ⟨⟨_, rfl⟩, hproper.mpr fun c2h hc => by simp [hp] at hc⟩)
  | some c2h =>
    simp only [hp, Option.some.injEq, forall_eq'] at hproper
    dsimp only
    cases hfind : s.find c2h.cccid.toNat with
    | none =>
      exact Or.inr (Or.inl ⟨⟨_, rfl⟩, hproper.mpr fun pending hf => by simp [hfind] at hf⟩)
    | some pending =>
      simp only [hfind, Option.some.injEq, forall_eq'] at hproper
      dsimp only
      split
      · rename_i hout
        refine Or.inr (Or.inl ⟨⟨_, rfl⟩, hproper.mpr fun hw hle => ?_⟩)
        rcases hout with hout | hout
        · rw [hw] at hout
          cases hout
        · omega
      · rename_i hin
        push Not at hin
        have hw : pending.write = false := by simpa using hin.1
        split
        · rename_i hlen
          refine Or.inl ⟨rfl, fun hok => hlen ?_⟩
          have := hproper.mp hok hw hin.2
          omega
        · rename_i hlen
          have hok : s.Proper p := hproper.mpr fun _ _ => by omega
          split
          · refine Or.inr (Or.inr (Or.inr ⟨_, _, _, rfl, rfl, rfl, ?_⟩))
            simp [hok, hfind]
          · exact Or.inr (Or.inr (Or.inl ⟨rfl, hok, rfl, rfl⟩))

theorem ready_to_transfer_outcome {s : Session} {p : Pdu} (h : p.kind = R2T) :
    s.Outcome p (s.ready_to_transfer p) := by
  have hproper : s.Proper p := by
    apply Proper.other
    · exact parse_c2h_ne (by rw [h]; decide)
    · exact parse_capsule_resp_ne (by rw [h]; decide)
    · rw [h]
      decide
  unfold ready_to_transfer
  split
  · exact Or.inr (Or.inl ⟨⟨_, rfl⟩, hproper⟩)
  rename_i r2t _
  split
  · exact Or.inr (Or.inl ⟨⟨_, rfl⟩, hproper⟩)
  split
  · unfold send_h2c
    dsimp only
    split
    · exact Or.inr (Or.inl ⟨⟨_, rfl⟩, hproper⟩)
    · obtain ⟨hout, hpending, hinflight⟩ := send_pieces_outcome r2t.cccid.toNat
        r2t.r2to.toNat (r2t.r2to.toNat + r2t.r2tl.toNat - r2t.r2to.toNat) s 0
      rcases hout with hmore | hfailed
      · exact Or.inr (Or.inr (Or.inl ⟨hmore, hproper, hpending, hinflight⟩))
      · exact Or.inr (Or.inl ⟨⟨_, hfailed⟩, hproper⟩)
  · exact Or.inr (Or.inl ⟨⟨_, rfl⟩, hproper⟩)

theorem capsule_resp_outcome {s : Session} {p : Pdu} (h : p.kind = CAPSULE_RESP) :
    s.Outcome p (s.capsule_resp p) := by
  have hproper := proper_capsule_resp (s := s) h
  unfold capsule_resp
  cases hp : parse_capsule_resp p with
  | none =>
    exact Or.inr (Or.inl ⟨⟨_, rfl⟩, hproper.mpr fun bytes hb => by simp [hp] at hb⟩)
  | some bytes =>
    simp only [hp, Option.some.injEq, forall_eq'] at hproper
    exact Or.inr (Or.inr (Or.inr ⟨s, _, _, rfl, rfl, rfl, hproper⟩))

theorem handle_pdu_outcome (s : Session) (p : Pdu) : s.Outcome p (s.handle_pdu p) := by
  unfold handle_pdu
  split
  · rename_i h
    exact c2h_data_outcome h
  rename_i hc2h
  split
  · rename_i h
    exact ready_to_transfer_outcome h
  split
  · rename_i h
    exact capsule_resp_outcome h
  rename_i hresp
  split
  · rename_i hterm
    unfold describe_term
    split
    · rename_i hlt
      refine Or.inl ⟨rfl, fun hp => ?_⟩
      have := hp.termination hterm
      omega
    · rename_i hlt
      refine Or.inr (Or.inl ⟨⟨_, rfl⟩, ?_, ?_, fun _ => by omega⟩)
      · exact fun c2h hp => absurd hp (parse_c2h_ne hc2h c2h)
      · exact fun bytes hp => absurd hp (parse_capsule_resp_ne hresp bytes)
  · rename_i hterm
    exact Or.inr (Or.inl ⟨⟨_, rfl⟩,
      Proper.other (parse_c2h_ne hc2h) (parse_capsule_resp_ne hresp) hterm⟩)

/-- One PDU is handled safely exactly when it is proper. -/
theorem safe_iff_proper (s : Session) (p : Pdu) : s.Safe p ↔ s.Proper p := by
  have htouched := handle_pdu_touched s p
  rcases handle_pdu_outcome s p with ⟨hpanic, hno⟩ | ⟨⟨e, hfail⟩, hok⟩ | ⟨hmore, hok, -, -⟩ |
    ⟨t, cid, cqe, hfin, -, -, hiff⟩
  · exact iff_of_false (fun hs => hs.no_panic hpanic) hno
  · refine iff_of_true ⟨by rw [hfail]; exact nofun, fun d hd => ?_, htouched⟩ hok
    rw [hfail] at hd
    cases hd
  · refine iff_of_true ⟨by rw [hmore]; exact nofun, fun d hd => ?_, htouched⟩ hok
    rw [hmore] at hd
    cases hd
  · rw [hiff]
    refine ⟨fun hs => ?_, fun hf => ⟨?_, ?_, htouched⟩⟩
    · exact hs.in_flight _ (by rw [hfin]; rfl)
    · rw [hfin]
      exact nofun
    · intro d hd
      rw [hfin] at hd
      cases hd
      exact hf

/-! ## The table of commands -/

theorem send_pieces_limits (cid start len : Nat) (s : Session) (sent : Nat) :
    (send_pieces cid start len s sent).1.inline_limit = s.inline_limit ∧
      (send_pieces cid start len s sent).1.limit = s.limit := by
  fun_induction send_pieces cid start len s sent with
  | case1 s sent hlt n s1 hs => exact ⟨rfl, rfl⟩
  | case2 s sent hlt n s1 s2 hs ih =>
    obtain rfl := send_some hs
    exact ih
  | case3 s sent hge => exact ⟨rfl, rfl⟩

/-- No PDU changes the limits of the session. -/
theorem handle_pdu_limits (s : Session) (p : Pdu) :
    (s.handle_pdu p).1.inline_limit = s.inline_limit ∧ (s.handle_pdu p).1.limit = s.limit := by
  unfold handle_pdu
  split
  · unfold c2h_data
    split
    · exact ⟨rfl, rfl⟩
    split
    · exact ⟨rfl, rfl⟩
    dsimp only
    split
    · exact ⟨rfl, rfl⟩
    split
    · exact ⟨rfl, rfl⟩
    split <;> exact ⟨rfl, rfl⟩
  split
  · unfold ready_to_transfer
    split
    · exact ⟨rfl, rfl⟩
    split
    · exact ⟨rfl, rfl⟩
    split
    · unfold send_h2c
      dsimp only
      split
      · exact ⟨rfl, rfl⟩
      · exact send_pieces_limits _ _ _ _ _
    · exact ⟨rfl, rfl⟩
  split
  · unfold capsule_resp
    split <;> exact ⟨rfl, rfl⟩
  split <;> exact ⟨rfl, rfl⟩

/-- The table of commands once `tag` has a place in it. -/
def table (s : Session) (tag : Nat) : List (Option Pending) :=
  if s.pending.length ≤ tag then
    s.pending ++ List.replicate (tag + 1 - s.pending.length) none
  else s.pending

theorem table_length (s : Session) (tag : Nat) : tag < (s.table tag).length := by
  unfold table
  split
  · simp
    omega
  · omega

theorem table_find (s : Session) (tag cid : Nat) : (s.table tag)[cid]?.join = s.find cid := by
  unfold table find
  split
  · by_cases hlt : cid < s.pending.length
    · rw [List.getElem?_append_left hlt]
    · have hnone : s.pending[cid]? = none := List.getElem?_eq_none (by omega)
      rw [List.getElem?_append_right (by omega), List.getElem?_replicate, hnone]
      split <;> rfl
  · rfl

/-- What a command that was sent does to the session. -/
theorem submit.spec {s t : Session} {alive : Bool} {tag : Nat} {io : Io} {len : Nat}
    (h : s.submit alive tag io len = .ok t) :
    tag < 2 ^ 16 ∧ t.inline_limit = s.inline_limit ∧ t.limit = s.limit ∧
    t.inflight = s.inflight + 1 ∧ t.pending = (s.table tag).set tag (some ⟨len, io.write⟩) ∧
    t.touched = s.touched ++
      if io.write = true ∧ len ≤ s.inline_limit then [Touch.mk tag 0 len false] else [] := by
  unfold submit at h
  split at h
  · cases h
  split at h
  · cases h
  rename_i htag
  dsimp only at h
  generalize hcap : (if io.write = true ∧ len ≤ s.inline_limit then
    { s with touched := s.touched ++ [Touch.mk tag 0 len false] } else s) = s1 at h
  have hs1 : s1.inline_limit = s.inline_limit ∧ s1.limit = s.limit ∧ s1.inflight = s.inflight ∧
      s1.pending = s.pending ∧ s1.touched = s.touched ++
        if io.write = true ∧ len ≤ s.inline_limit then [Touch.mk tag 0 len false] else [] := by
    rw [← hcap]
    split <;> simp
  obtain ⟨h1, h2, h3, h4, h5⟩ := hs1
  split at h
  · cases h
  · rename_i s2 hs2
    obtain rfl := send_some hs2
    cases h
    refine ⟨by omega, h1, h2, by simp [h3], ?_, h5⟩
    simp only [table, h4]

end Session

end stutools.nvme
