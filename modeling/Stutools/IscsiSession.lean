-- The iSCSI session of a path: the commands in flight and what `poll` does
-- with each PDU the target sends. Every index into received bytes that may be
-- out of range is explicit, and every access to a command's buffer is on
-- record.
import Stutools.Fabric
import Stutools.IscsiWire
import Stutools.Machine
import Stutools.Vec

open bytes

namespace stutools.iscsi

/-- One command in flight: its task tag, the length of its buffer, and its progress. -/
structure Inflight where
  itt : UInt32
  tag : Nat
  len : Nat
  received : Nat
  write : Bool
  status : Option UInt8
  sense : Block 64
  sense_len : Nat
deriving DecidableEq

/-- An access to the buffer of a command through its pointer: the task tag of
the command it is for, the buffer, the bytes, and whether they are stored. -/
structure Touch where
  itt : UInt32
  tag : Nat
  offset : Nat
  len : Nat
  store : Bool
deriving DecidableEq, Repr

/-- The state of a session that `poll` reads and writes. -/
structure Session where
  negotiated : Negotiated
  cmd_sn : UInt32
  exp_stat_sn : UInt32
  max_cmd_sn : UInt32
  inflight : List Inflight
  last_received : Nat
  /-- How many more PDUs the stream takes before writing to it fails; none when
  it takes all of them. -/
  room : Option Nat
  /-- The PDUs sent. -/
  sent : List (Bhs × Nat)
  /-- The accesses to buffers. -/
  touched : List Touch

/-- Why `poll` returns an error. -/
inductive PollError where
  | recv (e : RecvError)
  /-- "sending PDU" -/
  | sending
  /-- "PDU for task {itt}, which is not in flight" -/
  | not_in_flight (itt : UInt32)
  /-- "Data-In for a write" -/
  | data_in_for_a_write
  /-- "Data-In at {offset} for {received} of {len} bytes" -/
  | data_in_at (offset received len : Nat)
  /-- "target could not complete the command (response {response})" -/
  | response (response : UInt8)
  /-- "target asked for write data for a read command" -/
  | write_data_for_a_read
  /-- "target asked for bytes {start}..+{desired} of a {len}-byte write" -/
  | write_range (start desired len : Nat)
  /-- "target rejected the PDU, reason {reason}" -/
  | rejected (reason : UInt8)
  /-- "unexpected PDU opcode {opcode}" -/
  | opcode (opcode : UInt8)
deriving DecidableEq, Repr

/-- How handling a PDU ends: the loop of `poll` goes on, `poll` returns, an index
is out of range, or a loop never ends. -/
inductive Step where
  | more
  | done (d : Done)
  | failed (e : PollError)
  | panic
  | spins
deriving DecidableEq

/-- `poll` goes on or returns: no index out of range and no endless loop. -/
def Step.Fine (r : Step) : Prop := r ≠ .panic ∧ r ≠ .spins

@[simp] theorem Step.fine_more : Step.more.Fine := ⟨nofun, nofun⟩

@[simp] theorem Step.fine_done (d : Done) : (Step.done d).Fine := ⟨nofun, nofun⟩

@[simp] theorem Step.fine_failed (e : PollError) : (Step.failed e).Fine := ⟨nofun, nofun⟩

namespace Session

/-- Records the sequence numbers a target PDU carries. -/
def observe (s : Session) (seq : Sequence) : Session :=
  { s with exp_stat_sn := seq.stat_sn + 1, max_cmd_sn := seq.max_cmd_sn }

/-- The command with a task tag, and where it is in the table. -/
def find (s : Session) (itt : UInt32) : Option (Nat × Inflight) := do
  let idx ← s.inflight.findIdx? (·.itt == itt)
  let inf ← s.inflight[idx]?
  return (idx, inf)

/-- `frame`, which writes a header and `len` bytes of data to the stream. -/
def send (s : Session) (header : Bhs) (len : Nat) : Option Session :=
  match s.room with
  | some 0 => none
  | room => some { s with sent := s.sent ++ [(header, len)], room := room.map (· - 1) }

theorem send_some {s t : Session} {header : Bhs} {len : Nat} (h : s.send header len = some t) :
    s.room ≠ some 0 ∧
      t = { s with sent := s.sent ++ [(header, len)], room := s.room.map (· - 1) } := by
  unfold send at h
  split at h
  · cases h
  · rename_i hroom
    exact ⟨hroom, (Option.some.inj h).symm⟩

/-- The Data-In arm: the data goes to the buffer at its offset, in order. -/
def data_in (s : Session) (p : Pdu) : Session × Step :=
  match s.find (be32 p.bhs 16) with
  | none => (s, .failed (.not_in_flight (be32 p.bhs 16)))
  | some (idx, inf) =>
    let offset := (be32 p.bhs 40).toNat
    let len := p.data.length
    let has_status : Bool := byte p.bhs 1 &&& 0x01 != 0
    let s := if has_status then s.observe (sequence p.bhs) else s
    if inf.write then (s, .failed .data_in_for_a_write)
    else if offset ≠ inf.received ∨ inf.len < offset + len then
      (s, .failed (.data_in_at offset inf.received inf.len))
    else
      let s := { s with touched := s.touched ++ [Touch.mk inf.itt inf.tag offset len true] }
      let inf := { inf with received := inf.received + len }
      let inf := if has_status then { inf with status := some (byte p.bhs 3) } else inf
      if byte p.bhs 1 &&& 0x80 != 0 then
        match inf.status with
        | some status =>
          ({ s with last_received := inf.received, inflight := vec.swapRemove s.inflight idx },
            .done { tag := inf.tag, status, code := 0, unavailable := false,
                    sense := Block.zero 64, sense_len := 0 })
        | none => ({ s with inflight := s.inflight.set idx inf }, .more)
      else ({ s with inflight := s.inflight.set idx inf }, .more)

/-- The bytes `i..j` of a slice, unless the range is out of bounds. -/
def range (b : List UInt8) (i j : Nat) : Option (List UInt8) :=
  if i ≤ j ∧ j ≤ b.length then some (slice b i (j - i)) else none

/-- The sense data of a SCSI Response: its length in two bytes, then the bytes,
of which 64 are kept. None when an index is out of range. -/
def copy_sense (inf : Inflight) (rx : List UInt8) : Option Inflight :=
  if 2 ≤ rx.length then do
    let b0 ← rx[0]?
    let b1 ← rx[1]?
    let n := of_be [b0, b1]
    let stop := min (min (2 + n) rx.length) (2 + 64)
    let src ← range rx 2 stop
    if h : 0 + src.length ≤ 64 then
      return { inf with sense := inf.sense.put 0 src h, sense_len := stop - 2 }
    else none
  else some inf

/-- Sense that says the path cannot serve I/O: ASC 04h, ASCQ 0Ah to 0Ch. None
when an index is out of range. -/
def path_unavailable (inf : Inflight) : Option Bool :=
  if 14 ≤ inf.sense_len then do
    let asc ← inf.sense.1[12]?
    if asc = 0x04 then do
      let ascq ← inf.sense.1[13]?
      return decide (0x0a ≤ ascq) && decide (ascq ≤ 0x0c)
    else return false
  else some false

/-- The SCSI Response arm. -/
def scsi_response (s : Session) (p : Pdu) : Session × Step :=
  match s.find (be32 p.bhs 16) with
  | none => (s, .failed (.not_in_flight (be32 p.bhs 16)))
  | some (idx, inf) =>
    if byte p.bhs 2 ≠ 0 then (s, .failed (.response (byte p.bhs 2)))
    else
      let s := s.observe (sequence p.bhs)
      let s := { s with inflight := vec.swapRemove s.inflight idx, last_received := inf.received }
      match copy_sense inf p.data with
      | none => (s, .panic)
      | some inf =>
        match path_unavailable inf with
        | none => (s, .panic)
        | some unavailable =>
          (s, .done { tag := inf.tag, status := byte p.bhs 3, code := 0, unavailable,
                      sense := inf.sense, sense_len := inf.sense_len })

/-- The loop of `send_write`, from `offset` to `stop`, in pieces of at most the
target's segment length. A piece of no bytes leaves the offset where it is. -/
def send_pieces (inf : Inflight) (r2t : R2t) (stop : Nat) (s : Session) (offset : Nat)
    (data_sn : UInt32) : Session × Step :=
  if hlt : offset < stop then
    let n := min (stop - offset) s.negotiated.max_recv
    let header := data_out_header r2t.itt r2t.ttt s.exp_stat_sn data_sn offset
      (offset + n == stop) n
    let s := { s with touched := s.touched ++ [Touch.mk inf.itt inf.tag offset n false] }
    match hs : s.send header n with
    | none => (s, .failed .sending)
    | some s' =>
      if hspin : n = 0 ∧ s.room = none then (s', .spins)
      else send_pieces inf r2t stop s' (offset + n) (data_sn + 1)
  else (s, .more)
termination_by (stop - offset, s.room.getD 0)
decreasing_by
  obtain ⟨hroom, rfl⟩ := send_some hs
  by_cases hn : min (stop - offset) s.negotiated.max_recv = 0
  · -- a piece of no bytes uses up the stream
    have hsome : s.room ≠ none := fun hnone => hspin ⟨hn, hnone⟩
    cases hr : s.room with
    | none => exact absurd hr hsome
    | some k =>
      have hk : k ≠ 0 := fun h0 => hroom (by simp only [hr, h0])
      rw [hn, Nat.add_zero]
      exact Prod.Lex.right _ (by simp; omega)
  · have hpos := Nat.lt_add_of_pos_right (n := offset) (Nat.pos_of_ne_zero hn)
    exact Prod.Lex.left _ _ (Nat.sub_lt_sub_left hlt hpos)

/-- `send_write`: the data an R2T asks for, from the command's buffer. -/
def send_write (s : Session) (inf : Inflight) (r2t : R2t) : Session × Step :=
  let start := r2t.offset.toNat
  let stop := start + r2t.desired.toNat
  if inf.len < stop then (s, .failed (.write_range start r2t.desired.toNat inf.len))
  else send_pieces inf r2t stop s start 0

/-- The R2T arm. -/
def ready_to_transfer (s : Session) (p : Pdu) : Session × Step :=
  match s.find (be32 p.bhs 16) with
  | none => (s, .failed (.not_in_flight (be32 p.bhs 16)))
  | some (_, inf) =>
    let r := decode_r2t p.bhs
    let s := s.observe r.seq
    if inf.write then s.send_write inf r else (s, .failed .write_data_for_a_read)

/-- `answer_nop`: records the sequence numbers, and replies when asked to. -/
def answer_nop (s : Session) (p : Pdu) : Session × Step :=
  let ttt := be32 p.bhs 20
  let s := s.observe (sequence p.bhs)
  if ttt = NO_TTT then (s, .more)
  else
    match s.send (nop_out 0 NO_TTT ttt s.cmd_sn s.exp_stat_sn) 0 with
    | none => (s, .failed .sending)
    | some s => (s, .more)

/-- The Reject arm: the header of the rejected PDU is the data, and its task tag
is at byte 16 of it. -/
def reject (s : Session) (p : Pdu) : Session × Step :=
  let s := s.observe (sequence p.bhs)
  match range p.data 16 20 with
  | none => (s, .panic)
  | some itt =>
    let rejected := UInt32.ofNat (of_be itt)
    ({ s with inflight := s.inflight.filter (·.itt != rejected) }, .failed (.rejected (byte p.bhs 2)))

/-- One turn of the loop of `poll`, with the PDU that `recv` returned. -/
def handle (s : Session) (p : Pdu) : Session × Step :=
  if opcode p.bhs = DATA_IN then s.data_in p
  else if opcode p.bhs = SCSI_RESPONSE then s.scsi_response p
  else if opcode p.bhs = R2T then s.ready_to_transfer p
  else if opcode p.bhs = NOP_IN then s.answer_nop p
  else if opcode p.bhs = REJECT then s.reject p
  else (s, .failed (.opcode (opcode p.bhs)))

/-- `poll`, over the PDUs the target sends; when there are no more, reading fails. -/
def poll (s : Session) : List Pdu → Session × Step
  | [] => (s, .failed (.recv .header))
  | p :: ps => if (s.handle p).2 = .more then poll (s.handle p).1 ps else s.handle p

/-- The session after a PDU that `poll` goes on after. -/
def next (s : Session) (p : Pdu) : Option Session :=
  if (s.handle p).2 = .more then some (s.handle p).1 else none

/-! ## Indexes in range -/

theorem find_mem {s : Session} {itt : UInt32} {idx : Nat} {inf : Inflight}
    (h : s.find itt = some (idx, inf)) : inf ∈ s.inflight ∧ inf.itt = itt ∧ s.inflight[idx]? = some inf := by
  unfold find at h
  simp only [bind, Option.bind_eq_some_iff, pure, Option.some_inj, Prod.mk.injEq] at h
  obtain ⟨i, hi, inf', hinf, rfl, rfl⟩ := h
  obtain ⟨hlt, hitt, -⟩ := List.findIdx?_eq_some_iff_getElem.mp hi
  have heq : s.inflight[i] = inf' := by
    rw [List.getElem?_eq_getElem hlt] at hinf
    exact Option.some.inj hinf
  exact ⟨heq ▸ List.getElem_mem hlt, by simpa [heq] using hitt, hinf⟩

theorem range_isSome {b : List UInt8} {i j : Nat} (hij : i ≤ j) (hj : j ≤ b.length) :
    range b i j = some (slice b i (j - i)) := if_pos ⟨hij, hj⟩

theorem copy_sense_isSome (inf : Inflight) (rx : List UInt8) :
    ∃ inf', copy_sense inf rx = some inf' ∧ inf'.tag = inf.tag := by
  unfold copy_sense
  split
  · rename_i h2
    have h0 : rx[0]? = some rx[0] := List.getElem?_eq_getElem (by omega)
    have h1 : rx[1]? = some rx[1] := List.getElem?_eq_getElem (by omega)
    rw [h0, h1]
    simp only [bind, Option.bind]
    generalize of_be [rx[0], rx[1]] = n
    have hlen : 0 + (slice rx 2 (min (min (2 + n) rx.length) (2 + 64) - 2)).length ≤ 64 := by
      simp [slice]
    rw [range_isSome (by omega) (by omega)]
    simp only [dif_pos hlen]
    exact ⟨_, rfl, rfl⟩
  · exact ⟨inf, rfl, rfl⟩

theorem path_unavailable_isSome (inf : Inflight) : ∃ b, path_unavailable inf = some b := by
  have hlen := inf.sense.2
  have h12 : inf.sense.1[12]? = some inf.sense.1[12] := List.getElem?_eq_getElem (by omega)
  have h13 : inf.sense.1[13]? = some inf.sense.1[13] := List.getElem?_eq_getElem (by omega)
  unfold path_unavailable
  rw [h12, h13]
  simp only [bind, Option.bind]
  split
  · split
    · exact ⟨_, rfl⟩
    · exact ⟨_, rfl⟩
  · exact ⟨_, rfl⟩

/-! ## What one PDU does -/

section send_pieces

variable {inf : Inflight} {r2t : R2t} {stop : Nat}

theorem send_pieces_fine (s : Session) (offset : Nat) (data_sn : UInt32)
    (h : 0 < s.negotiated.max_recv ∨ s.room ≠ none) :
    (send_pieces inf r2t stop s offset data_sn).2.Fine := by
  fun_induction send_pieces inf r2t stop s offset data_sn with
  | case1 => simp
  | case2 s offset data_sn hlt n header s1 s2 hs hspin =>
    exfalso
    obtain ⟨hn, hroom⟩ := hspin
    rcases h with hpos | hroom'
    · have : n = min (stop - offset) s.negotiated.max_recv := rfl
      omega
    · exact hroom' hroom
  | case3 s offset data_sn hlt n header s1 s2 hs hspin ih =>
    apply ih
    obtain ⟨-, rfl⟩ := send_some hs
    rcases h with hpos | hroom
    · exact Or.inl hpos
    · right
      intro hnone
      exact hroom (Option.map_eq_none_iff.mp hnone)
  | case4 => simp

theorem send_pieces_spins {s : Session} {offset : Nat} (data_sn : UInt32) (hlt : offset < stop)
    (hmax : s.negotiated.max_recv = 0) (hroom : s.room = none) :
    (send_pieces inf r2t stop s offset data_sn).2 = .spins := by
  fun_cases send_pieces inf r2t stop s offset data_sn with
  | case1 _ n header s1 hs =>
    have hs1 : s1.room = none := hroom
    simp [send, hs1] at hs
  | case2 => rfl
  | case3 _ n header s1 s2 hs hspin =>
    have hn : n = 0 := by simp [n, hmax]
    exact absurd ⟨hn, hroom⟩ hspin
  | case4 hge => exact absurd hlt hge

theorem mem_touched {s : Session} {offset : Nat} (hlt : offset < stop) :
    ∀ t ∈ s.touched ++ [Touch.mk inf.itt inf.tag offset
        (min (stop - offset) s.negotiated.max_recv) false], t ∈ s.touched ∨
      t.itt = inf.itt ∧ t.tag = inf.tag ∧ t.offset + t.len ≤ stop ∧ t.store = false := by
  intro t ht
  rcases List.mem_append.mp ht with hold | hnew
  · exact Or.inl hold
  · obtain rfl := List.mem_singleton.mp hnew
    exact Or.inr ⟨rfl, rfl, by simp only; omega, rfl⟩

/-- The bytes a piece reads are of the command's buffer, up to where it stops. -/
theorem send_pieces_touched (s : Session) (offset : Nat) (data_sn : UInt32) :
    ∀ t ∈ (send_pieces inf r2t stop s offset data_sn).1.touched, t ∈ s.touched ∨
      t.itt = inf.itt ∧ t.tag = inf.tag ∧ t.offset + t.len ≤ stop ∧ t.store = false := by
  fun_induction send_pieces inf r2t stop s offset data_sn with
  | case1 s offset data_sn hlt n header s1 hs => exact mem_touched hlt
  | case2 s offset data_sn hlt n header s1 s2 hs hspin =>
    obtain ⟨-, rfl⟩ := send_some hs
    exact mem_touched hlt
  | case3 s offset data_sn hlt n header s1 s2 hs hspin ih =>
    obtain ⟨-, rfl⟩ := send_some hs
    intro t ht
    rcases ih t ht with hold | hnew
    · exact mem_touched hlt t hold
    · exact Or.inr hnew
  | case4 => exact fun t ht => Or.inl ht

end send_pieces

/-- The PDUs that `poll` handles without a panic or an endless loop: a Reject
carries at least the first 20 bytes of the header it rejects, and an R2T that
asks for data of a write is not answered in pieces of no bytes. -/
def Handled (s : Session) (p : Pdu) : Prop :=
  (opcode p.bhs = REJECT → 20 ≤ p.data.length) ∧
    (opcode p.bhs = R2T → 0 < (be32 p.bhs 44).toNat → s.negotiated.max_recv = 0 → s.room = none →
      ∀ idx inf, s.find (be32 p.bhs 16) = some (idx, inf) → inf.write = true →
        inf.len < (be32 p.bhs 40).toNat + (be32 p.bhs 44).toNat)

theorem data_in_fine (s : Session) (p : Pdu) : (s.data_in p).2.Fine := by
  unfold data_in
  split
  · simp
  · dsimp only
    split
    · simp
    · split
      · simp
      · split
        · split <;> simp
        · simp

theorem scsi_response_fine (s : Session) (p : Pdu) : (s.scsi_response p).2.Fine := by
  unfold scsi_response
  split
  · simp
  · rename_i idx inf _
    obtain ⟨inf', hcopy, -⟩ := copy_sense_isSome inf p.data
    obtain ⟨b, hb⟩ := path_unavailable_isSome inf'
    split
    · simp
    · simp [hcopy, hb]

theorem answer_nop_fine (s : Session) (p : Pdu) : (s.answer_nop p).2.Fine := by
  unfold answer_nop
  dsimp only
  split
  · simp
  · split <;> simp

theorem reject_fine_iff (s : Session) (p : Pdu) : (s.reject p).2.Fine ↔ 20 ≤ p.data.length := by
  unfold reject
  by_cases h : 20 ≤ p.data.length
  · rw [range_isSome (by omega) h]
    simp [h]
  · have hnone : range p.data 16 20 = none := by simp [range, h]
    simp [hnone, h, Step.Fine]

theorem send_write_fine_iff (s : Session) (inf : Inflight) (r2t : R2t) :
    (s.send_write inf r2t).2.Fine ↔
      (0 < r2t.desired.toNat → s.negotiated.max_recv = 0 → s.room = none →
        inf.len < r2t.offset.toNat + r2t.desired.toNat) := by
  unfold send_write
  dsimp only
  split
  · rename_i hlen
    simp [hlen]
  · rename_i hlen
    constructor
    · intro hfine hpos hmax hroom
      exact absurd (send_pieces_spins 0 (by omega) hmax hroom) hfine.2
    · intro h
      by_cases hzero : r2t.desired.toNat = 0
      · rw [send_pieces, dif_neg (by omega)]
        simp
      · apply send_pieces_fine
        by_contra hbad
        push Not at hbad
        exact hlen (h (by omega) (by omega) hbad.2)

theorem ready_to_transfer_fine_iff (s : Session) (p : Pdu) :
    (s.ready_to_transfer p).2.Fine ↔
      (0 < (be32 p.bhs 44).toNat → s.negotiated.max_recv = 0 → s.room = none →
        ∀ idx inf, s.find (be32 p.bhs 16) = some (idx, inf) → inf.write = true →
          inf.len < (be32 p.bhs 40).toNat + (be32 p.bhs 44).toNat) := by
  unfold ready_to_transfer
  cases s.find (be32 p.bhs 16) with
  | none => simp
  | some found =>
    obtain ⟨idx, inf⟩ := found
    by_cases hw : inf.write = true
    · have hiff := send_write_fine_iff (s.observe (sequence p.bhs)) inf (decode_r2t p.bhs)
      simp only [hw, if_true]
      refine hiff.trans ⟨?_, ?_⟩
      · intro h hpos hmax hroom idx' inf' hf _
        obtain ⟨rfl, rfl⟩ := Prod.mk.inj (Option.some.inj hf)
        exact h hpos hmax hroom
      · intro h hpos hmax hroom
        exact h hpos hmax hroom idx inf rfl hw
    · simp [hw]

/-- One PDU is handled without a panic or an endless loop exactly when it is not
one of the two kinds. -/
theorem handle_fine_iff (s : Session) (p : Pdu) : (s.handle p).2.Fine ↔ s.Handled p := by
  unfold handle Handled
  split
  · rename_i h
    rw [h]
    exact iff_of_true (data_in_fine s p) ⟨nofun, nofun⟩
  split
  · rename_i h
    rw [h]
    exact iff_of_true (scsi_response_fine s p) ⟨nofun, nofun⟩
  split
  · rename_i h
    rw [h, ready_to_transfer_fine_iff]
    exact ⟨fun hr => ⟨nofun, fun _ => hr⟩, fun hr => hr.2 rfl⟩
  split
  · rename_i h
    rw [h]
    exact iff_of_true (answer_nop_fine s p) ⟨nofun, nofun⟩
  split
  · rename_i h
    rw [h, reject_fine_iff]
    exact ⟨fun hr => ⟨fun _ => hr, nofun⟩, fun hr => hr.1 rfl⟩
  · rename_i hr2t _ hreject
    exact iff_of_true (Step.fine_failed _) ⟨fun h => absurd h hreject, fun h => absurd h hr2t⟩

/-! ## Buffers -/

/-- An access that handling the PDU makes: inside the buffer of the command in
flight that the PDU names, to store for a read and to load for a write. -/
def InBuffer (s : Session) (p : Pdu) (t : Touch) : Prop :=
  ∃ inf ∈ s.inflight, inf.itt = be32 p.bhs 16 ∧ t.itt = inf.itt ∧ t.tag = inf.tag ∧
    t.offset + t.len ≤ inf.len ∧ t.store = !inf.write

theorem data_in_touched (s : Session) (p : Pdu) :
    ∀ t ∈ (s.data_in p).1.touched, t ∈ s.touched ∨ s.InBuffer p t := by
  intro t
  unfold data_in
  cases hfind : s.find (be32 p.bhs 16) with
  | none => exact Or.inl
  | some found =>
    obtain ⟨idx, inf⟩ := found
    obtain ⟨hmem, hitt, -⟩ := find_mem hfind
    dsimp only
    generalize hobs : (if (byte p.bhs 1 &&& 0x01 != 0) = true then s.observe (sequence p.bhs) else s) = s1
    have hs1 : s1.touched = s.touched := by
      rw [← hobs]
      split <;> rfl
    split
    · rw [hs1]
      exact Or.inl
    · rename_i hw
      split
      · rw [hs1]
        exact Or.inl
      · rename_i hrange
        have hnew : t ∈ s1.touched ++ [Touch.mk inf.itt inf.tag (be32 p.bhs 40).toNat p.data.length true] →
            t ∈ s.touched ∨ s.InBuffer p t := by
          intro ht
          rcases List.mem_append.mp ht with hold | hnew
          · exact Or.inl (hs1 ▸ hold)
          · obtain rfl := List.mem_singleton.mp hnew
            exact Or.inr ⟨inf, hmem, hitt, rfl, rfl, by simp only; omega, by simp [hw]⟩
        split
        · split
          · exact hnew
          · exact hnew
        · exact hnew

theorem ready_to_transfer_touched (s : Session) (p : Pdu) :
    ∀ t ∈ (s.ready_to_transfer p).1.touched, t ∈ s.touched ∨ s.InBuffer p t := by
  intro t
  unfold ready_to_transfer
  cases hfind : s.find (be32 p.bhs 16) with
  | none => exact Or.inl
  | some found =>
    obtain ⟨idx, inf⟩ := found
    obtain ⟨hmem, hitt, -⟩ := find_mem hfind
    dsimp only
    split
    · rename_i hw
      unfold send_write
      dsimp only
      split
      · exact Or.inl
      · rename_i hlen
        intro ht
        rcases send_pieces_touched _ _ _ t ht with hold | ⟨h1, h2, h3, h4⟩
        · exact Or.inl hold
        · exact Or.inr ⟨inf, hmem, hitt, h1, h2, by omega, by simp [h4, hw]⟩
    · exact Or.inl

theorem answer_nop_touched (s : Session) (p : Pdu) : (s.answer_nop p).1.touched = s.touched := by
  unfold answer_nop
  dsimp only
  split
  · rfl
  · split
    · rfl
    · rename_i t ht
      obtain ⟨-, rfl⟩ := send_some ht
      rfl

theorem handle_touched (s : Session) (p : Pdu) :
    ∀ t ∈ (s.handle p).1.touched, t ∈ s.touched ∨ s.InBuffer p t := by
  unfold handle
  split
  · exact data_in_touched s p
  split
  · intro t ht
    left
    unfold scsi_response at ht
    split at ht
    · exact ht
    · split at ht
      · exact ht
      · dsimp only at ht
        split at ht
        · exact ht
        · split at ht <;> exact ht
  split
  · exact ready_to_transfer_touched s p
  split
  · intro t ht
    rw [answer_nop_touched] at ht
    exact Or.inl ht
  split
  · intro t ht
    left
    unfold reject at ht
    dsimp only at ht
    split at ht <;> exact ht
  · exact fun t => Or.inl

/-! ## Whole polls -/

theorem poll_ne_more (s : Session) (ps : List Pdu) : (s.poll ps).2 ≠ .more := by
  induction ps generalizing s with
  | nil => exact nofun
  | cons p ps ih =>
    unfold poll
    split
    · exact ih _
    · rename_i h
      exact h

theorem poll_fine_iff (s : Session) (ps : List Pdu) :
    (s.poll ps).2.Fine ↔ machine.Along next Handled s ps := by
  induction ps generalizing s with
  | nil => exact iff_of_true (Step.fine_failed _) trivial
  | cons p ps ih =>
    unfold poll machine.Along
    rw [← handle_fine_iff]
    split
    · rename_i hmore
      have hnext : s.next p = some (s.handle p).1 := if_pos hmore
      rw [ih, hmore, hnext]
      constructor
      · intro h
        refine ⟨Step.fine_more, ?_⟩
        rintro t ht
        obtain rfl := Option.some.inj ht
        exact h
      · intro h
        exact h.2 _ rfl
    · rename_i hmore
      have hnext : s.next p = none := if_neg hmore
      rw [hnext]
      exact ⟨fun h => ⟨h, nofun⟩, fun h => h.1⟩

/-- Whether `poll` returns Ok or Err over the PDUs is whether each PDU it reads is
one it handles; and whatever the PDU, only bytes of the buffer of the command in
flight that it names are touched. -/
theorem poll_returns_iff_it_handles_each_pdu (s : Session) (ps : List Pdu) :
    (((∃ d, (s.poll ps).2 = .done d) ∨ ∃ e, (s.poll ps).2 = .failed e) ↔
      machine.Along next Handled s ps) ∧
    ∀ p, ∀ t ∈ (s.handle p).1.touched, t ∈ s.touched ∨ s.InBuffer p t := by
  refine ⟨?_, handle_touched s⟩
  rw [← poll_fine_iff]
  have hmore := poll_ne_more s ps
  constructor
  · rintro (⟨d, hd⟩ | ⟨e, he⟩)
    · rw [hd]
      exact Step.fine_done d
    · rw [he]
      exact Step.fine_failed e
  · intro hfine
    cases h : (s.poll ps).2 with
    | more => exact absurd h hmore
    | done d => exact Or.inl ⟨d, rfl⟩
    | failed e => exact Or.inr ⟨e, rfl⟩
    | panic => exact absurd h hfine.1
    | spins => exact absurd h hfine.2

/-- A Reject with no data makes `poll` index past its end. -/
theorem a_reject_without_data_panics :
    ∃ (s : Session) (p : Pdu), opcode p.bhs = REJECT ∧ data_len p.bhs = p.data.length ∧
      (s.poll [p]).2 = .panic := by
  refine ⟨⟨⟨false, false, 8192⟩, 1, 1, 1, [], 0, none, [], []⟩,
    ⟨(Block.zero 48).put 0 [0x3f] (by decide), []⟩, ?_⟩
  decide

end Session

end stutools.iscsi
