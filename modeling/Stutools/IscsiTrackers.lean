-- The sequence numbers of an iSCSI connection: ExpStatSN, which acknowledges
-- statuses, and MaxCmdSN, which bounds the command window. The session of a
-- path and the compliance connection each keep them, and RFC 7143 says what
-- they must be.
import Stutools.IscsiSession

open bytes

namespace stutools.iscsi

structure Tracker where
  exp_stat_sn : UInt32
  max_cmd_sn : UInt32
deriving DecidableEq, Repr

def Session.tracker (s : Session) : Tracker :=
  { exp_stat_sn := s.exp_stat_sn, max_cmd_sn := s.max_cmd_sn }

/-- What the target sends and what the pool submits, in the order a session
meets them. -/
inductive Event where
  | received (p : Pdu)
  | submitted (inf : Inflight)

/-! ## Three trackers -/

/-- Whether a PDU consumes a StatSN: a Data-In only with S set; an R2T and a
NOP-In with no task tag carry the next StatSN, not a new one. -/
def carries_status (p : Pdu) : Bool :=
  if opcode p.bhs = DATA_IN then byte p.bhs 1 &&& 0x01 != 0
  else if opcode p.bhs = R2T then false
  else if opcode p.bhs = NOP_IN then be32 p.bhs 16 != NO_TTT
  else true

/-- MaxCmdSN is at least ExpCmdSN less one, by serial number arithmetic. -/
def window_open (p : Pdu) : Bool := decide ((-1 : Int32) ≤ (be32 p.bhs 32 - be32 p.bhs 28).toInt32)

/-- Whether `b` is after `a` in serial number order. -/
def serial_lt (a b : UInt32) : Bool := decide ((0 : Int32) < (b - a).toInt32)

/-- `PduConnection::observe`. -/
def PduConnection.observe (t : Tracker) (p : Pdu) : Tracker :=
  { exp_stat_sn := if carries_status p then be32 p.bhs 24 + 1 else t.exp_stat_sn
    max_cmd_sn := if window_open p then be32 p.bhs 32 else t.max_cmd_sn }

/-- What RFC 7143 asks for: ExpStatSN goes one on past the status it expects, and
MaxCmdSN moves only forward, and not for a window that is closed. -/
def rfc_observe (t : Tracker) (p : Pdu) : Tracker :=
  { exp_stat_sn := if carries_status p ∧ be32 p.bhs 24 = t.exp_stat_sn then t.exp_stat_sn + 1
      else t.exp_stat_sn
    max_cmd_sn := if window_open p ∧ serial_lt t.max_cmd_sn (be32 p.bhs 32) then be32 p.bhs 32
      else t.max_cmd_sn }

/-- The session after an event. A submitted command takes a CmdSN. -/
def Session.on (s : Session) : Event → Session
  | .received p => (s.handle p).1
  | .submitted inf => { s with cmd_sn := s.cmd_sn + 1, inflight := s.inflight ++ [inf] }

def PduConnection.on (t : Tracker) : Event → Tracker
  | .received p => PduConnection.observe t p
  | .submitted _ => t

def rfc_on (t : Tracker) : Event → Tracker
  | .received p => rfc_observe t p
  | .submitted _ => t

/-! ## What a session observes -/

/-- Whether handling the PDU reaches `observe`: a Data-In with a status, a SCSI
Response with response 0 and an R2T, each for a command in flight, any NOP-In,
and any Reject. -/
def Session.observes (s : Session) (p : Pdu) : Bool :=
  if opcode p.bhs = DATA_IN then (s.find (be32 p.bhs 16)).isSome && byte p.bhs 1 &&& 0x01 != 0
  else if opcode p.bhs = SCSI_RESPONSE then (s.find (be32 p.bhs 16)).isSome && byte p.bhs 2 == 0
  else if opcode p.bhs = R2T then (s.find (be32 p.bhs 16)).isSome
  else opcode p.bhs == NOP_IN || opcode p.bhs == REJECT

namespace Session

theorem send_tracker {s t : Session} {header : Bhs} {len : Nat}
    (h : s.send header len = some t) : t.tracker = s.tracker := by
  obtain ⟨-, rfl⟩ := send_some h
  rfl

theorem send_pieces_tracker {inf : Inflight} {r2t : R2t} {stop : Nat} (s : Session)
    (offset : Nat) (data_sn : UInt32) :
    (send_pieces inf r2t stop s offset data_sn).1.tracker = s.tracker := by
  fun_induction send_pieces inf r2t stop s offset data_sn with
  | case1 => rfl
  | case2 s offset data_sn hlt n header s1 s2 hs hspin =>
    have hs1 : s1.tracker = s.tracker := rfl
    exact (send_tracker hs).trans hs1
  | case3 s offset data_sn hlt n header s1 s2 hs hspin ih =>
    have hs1 : s1.tracker = s.tracker := rfl
    exact ih.trans ((send_tracker hs).trans hs1)
  | case4 => rfl

theorem data_in_tracker (s : Session) (p : Pdu) :
    (s.data_in p).1.tracker =
      if ((s.find (be32 p.bhs 16)).isSome && byte p.bhs 1 &&& 0x01 != 0) = true then
        ⟨be32 p.bhs 24 + 1, be32 p.bhs 32⟩ else s.tracker := by
  unfold data_in
  cases s.find (be32 p.bhs 16) with
  | none => rfl
  | some found =>
    simp only [Option.isSome_some, Bool.true_and]
    generalize hobs :
      (if (byte p.bhs 1 &&& 0x01 != 0) = true then s.observe (sequence p.bhs) else s) = s1
    have hs1 : s1.tracker = if (byte p.bhs 1 &&& 0x01 != 0) = true then
        ⟨be32 p.bhs 24 + 1, be32 p.bhs 32⟩ else s.tracker := by
      rw [← hobs]
      split <;> rfl
    rw [← hs1]
    split
    · rfl
    split
    · rfl
    split
    · split <;> rfl
    · rfl

theorem scsi_response_tracker (s : Session) (p : Pdu) :
    (s.scsi_response p).1.tracker =
      if ((s.find (be32 p.bhs 16)).isSome && byte p.bhs 2 == 0) = true then
        ⟨be32 p.bhs 24 + 1, be32 p.bhs 32⟩ else s.tracker := by
  unfold scsi_response
  cases s.find (be32 p.bhs 16) with
  | none => rfl
  | some found =>
    by_cases h : byte p.bhs 2 = 0
    · simp only [h, Option.isSome_some, Bool.true_and, ne_eq, not_true_eq_false, if_false,
        beq_self_eq_true, if_true]
      split
      · rfl
      · split <;> rfl
    · simp [h]

theorem ready_to_transfer_tracker (s : Session) (p : Pdu) :
    (s.ready_to_transfer p).1.tracker =
      if (s.find (be32 p.bhs 16)).isSome = true then ⟨be32 p.bhs 24 + 1, be32 p.bhs 32⟩
      else s.tracker := by
  unfold ready_to_transfer
  cases s.find (be32 p.bhs 16) with
  | none => rfl
  | some found =>
    dsimp only [Option.isSome_some]
    rw [if_pos rfl]
    split
    · unfold send_write
      dsimp only
      split
      · rfl
      · exact send_pieces_tracker _ _ _
    · rfl

theorem answer_nop_tracker (s : Session) (p : Pdu) :
    (s.answer_nop p).1.tracker = ⟨be32 p.bhs 24 + 1, be32 p.bhs 32⟩ := by
  unfold answer_nop
  dsimp only
  split
  · rfl
  · split
    · rfl
    · rename_i t ht
      exact (send_tracker ht).trans rfl

theorem reject_tracker (s : Session) (p : Pdu) :
    (s.reject p).1.tracker = ⟨be32 p.bhs 24 + 1, be32 p.bhs 32⟩ := by
  unfold reject
  dsimp only
  split <;> rfl

/-- The numbers after a PDU: its own where the session observes it. -/
theorem handle_tracker (s : Session) (p : Pdu) :
    (s.handle p).1.tracker =
      if s.observes p then ⟨be32 p.bhs 24 + 1, be32 p.bhs 32⟩ else s.tracker := by
  unfold handle observes
  split
  · exact data_in_tracker s p
  split
  · exact scsi_response_tracker s p
  split
  · exact ready_to_transfer_tracker s p
  split
  · rename_i h
    rw [answer_nop_tracker]
    simp [h]
  split
  · rename_i h
    rw [reject_tracker]
    simp [h]
  · rename_i hnop hreject
    simp [hnop, hreject]

end Session

/-! ## When they agree -/

theorem serial_lt_irrefl (a : UInt32) : serial_lt a a = false := by
  simp [serial_lt]

/-- A PDU after which the session, the compliance connection and the RFC still
agree, when they agreed before it. -/
structure InStep (s : Session) (p : Pdu) : Prop where
  /-- A status has the next StatSN, or repeats the last one. -/
  status_next : carries_status p = true →
    be32 p.bhs 24 = s.exp_stat_sn ∨ be32 p.bhs 24 + 1 = s.exp_stat_sn
  /-- The session observes the next status. -/
  status_observed : carries_status p = true → be32 p.bhs 24 = s.exp_stat_sn → s.observes p = true
  /-- It observes nothing else, unless its StatSN repeats the last one. -/
  observed_status : s.observes p = true →
    carries_status p = true ∧ be32 p.bhs 24 = s.exp_stat_sn ∨ be32 p.bhs 24 + 1 = s.exp_stat_sn
  /-- An open window stays or moves forward. -/
  window_forward : window_open p = true →
    be32 p.bhs 32 = s.max_cmd_sn ∨ serial_lt s.max_cmd_sn (be32 p.bhs 32) = true
  /-- Where the session observes it, the window is open unless it stays. -/
  observed_forward : s.observes p = true → be32 p.bhs 32 = s.max_cmd_sn ∨
    window_open p = true ∧ serial_lt s.max_cmd_sn (be32 p.bhs 32) = true
  /-- The window moves forward only where the session observes it. -/
  forward_observed : window_open p = true → serial_lt s.max_cmd_sn (be32 p.bhs 32) = true →
    s.observes p = true

theorem ne_of_serial_lt {a b : UInt32} (h : serial_lt a b = true) : b ≠ a := by
  rintro rfl
  rw [serial_lt_irrefl] at h
  cases h

theorem succ_ne_self (a : UInt32) : a + 1 ≠ a := by
  intro h
  simp at h

/-- The ExpStatSN of the three, by what the PDU is to each. -/
theorem exp_stat_sn_agree_iff (o c : Bool) (stat exp : UInt32) :
    ((if o then stat + 1 else exp) = (if c ∧ stat = exp then exp + 1 else exp) ∧
      (if c then stat + 1 else exp) = (if c ∧ stat = exp then exp + 1 else exp)) ↔
    (c = true → stat = exp ∨ stat + 1 = exp) ∧ (c = true → stat = exp → o = true) ∧
      (o = true → c = true ∧ stat = exp ∨ stat + 1 = exp) := by
  have hne := succ_ne_self exp
  by_cases h : stat = exp
  · subst h
    cases o <;> cases c <;> simp [hne, hne.symm]
  · have hs : stat + 1 ≠ exp + 1 := fun hs => h (by simpa using hs)
    cases o <;> cases c <;> simp [h]

/-- And the MaxCmdSN. -/
theorem max_cmd_sn_agree_iff (o w : Bool) (sn max : UInt32) :
    ((if o then sn else max) = (if w ∧ serial_lt max sn then sn else max) ∧
      (if w then sn else max) = (if w ∧ serial_lt max sn then sn else max)) ↔
    (w = true → sn = max ∨ serial_lt max sn = true) ∧
      (o = true → sn = max ∨ w = true ∧ serial_lt max sn = true) ∧
      (w = true → serial_lt max sn = true → o = true) := by
  by_cases h : serial_lt max sn = true
  · have hne := ne_of_serial_lt h
    cases o <;> cases w <;> simp [h, hne, hne.symm]
  · cases o <;> cases w <;> simp [h]

theorem in_step_iff (s : Session) (p : Pdu) :
    (s.handle p).1.tracker = rfc_observe s.tracker p ∧
      PduConnection.observe s.tracker p = rfc_observe s.tracker p ↔ InStep s p := by
  have hexp := exp_stat_sn_agree_iff (s.observes p) (carries_status p) (be32 p.bhs 24) s.exp_stat_sn
  have hmax := max_cmd_sn_agree_iff (s.observes p) (window_open p) (be32 p.bhs 32) s.max_cmd_sn
  have hhandle : (s.handle p).1.tracker =
      ⟨if s.observes p then be32 p.bhs 24 + 1 else s.exp_stat_sn,
        if s.observes p then be32 p.bhs 32 else s.max_cmd_sn⟩ := by
    rw [Session.handle_tracker]
    split <;> rfl
  rw [hhandle]
  simp only [PduConnection.observe, rfc_observe, Session.tracker, Tracker.mk.injEq]
  constructor
  · rintro ⟨⟨hse, hsm⟩, hpe, hpm⟩
    obtain ⟨h1, h2, h3⟩ := hexp.mp ⟨hse, hpe⟩
    obtain ⟨h4, h5, h6⟩ := hmax.mp ⟨hsm, hpm⟩
    exact ⟨h1, h2, h3, h4, h5, h6⟩
  · intro h
    obtain ⟨hse, hpe⟩ := hexp.mpr ⟨h.status_next, h.status_observed, h.observed_status⟩
    obtain ⟨hsm, hpm⟩ :=
      hmax.mpr ⟨h.window_forward, h.observed_forward, h.forward_observed⟩
    exact ⟨⟨hse, hsm⟩, hpe, hpm⟩

/-! ## Whole runs -/

/-- The trackers of the session, the compliance connection and the RFC are one
after every event, from one that they share. -/
def AgreeAlong (s : Session) (events : List Event) : Prop :=
  ∀ k, let seen := events.take k
    (seen.foldl Session.on s).tracker = seen.foldl rfc_on s.tracker ∧
      seen.foldl PduConnection.on s.tracker = seen.foldl rfc_on s.tracker

/-- Every PDU finds the session in step. -/
def InStepAlong (s : Session) : List Event → Prop
  | [] => True
  | .received p :: events => InStep s p ∧ InStepAlong (s.on (.received p)) events
  | .submitted inf :: events => InStepAlong (s.on (.submitted inf)) events

theorem agree_along_cons (s : Session) (e : Event) (events : List Event) :
    AgreeAlong s (e :: events) ↔
      ((s.on e).tracker = rfc_on s.tracker e ∧
        PduConnection.on s.tracker e = rfc_on s.tracker e) ∧ AgreeAlong (s.on e) events := by
  constructor
  · intro h
    have hone := h 1
    simp only [List.take_succ_cons, List.take_zero, List.foldl_cons, List.foldl_nil] at hone
    refine ⟨hone, fun k => ?_⟩
    have hk := h (k + 1)
    simp only [List.take_succ_cons, List.foldl_cons] at hk
    rw [hone.2, ← hone.1] at hk
    exact hk
  · rintro ⟨hone, h⟩ k
    cases k with
    | zero => exact ⟨rfl, rfl⟩
    | succ k =>
      have hk := h k
      simp only [List.take_succ_cons, List.foldl_cons]
      rw [hone.2, ← hone.1]
      exact hk

/-- The session and the compliance connection keep the sequence numbers of RFC
7143 all along a run exactly when every PDU of it finds them in step: a PDU that
consumes a StatSN has the next one (or repeats the last) and the session
observes it, the session observes nothing else, and MaxCmdSN does not go back. -/
theorem the_trackers_agree_iff_every_pdu_is_in_step (s : Session) (events : List Event) :
    AgreeAlong s events ↔ InStepAlong s events := by
  induction events generalizing s with
  | nil => exact ⟨fun _ => trivial, fun _ k => by rw [List.take_nil]; exact ⟨rfl, rfl⟩⟩
  | cons e events ih =>
    rw [agree_along_cons, ih]
    cases e with
    | received p =>
      have h : ((s.on (.received p)).tracker = rfc_on s.tracker (.received p) ∧
          PduConnection.on s.tracker (.received p) = rfc_on s.tracker (.received p)) ↔
            InStep s p := in_step_iff s p
      rw [h]
      rfl
    | submitted inf => exact and_iff_right ⟨rfl, rfl⟩

/-- An R2T with the next StatSN, for a write in flight: the session acknowledges
a status that the target has not sent, the compliance connection does not. -/
theorem an_r2t_moves_the_session_past_the_next_status :
    ∃ (s : Session) (p : Pdu), opcode p.bhs = R2T ∧ be32 p.bhs 24 = s.exp_stat_sn ∧
      s.inflight.any (fun inf => inf.write && inf.itt == be32 p.bhs 16) ∧
      (s.handle p).1.exp_stat_sn = 2 ∧ (PduConnection.observe s.tracker p).exp_stat_sn = 1 ∧
      ¬ AgreeAlong s [.received p] := by
  let p : Pdu := ⟨((((Block.zero 48).put 0 [0x31, 0x80] (by decide)).put 16 [0, 0, 0, 7]
    (by decide)).put 24 [0, 0, 0, 1, 0, 0, 0, 1, 0, 0, 0, 8] (by decide)).put 44 [0, 0, 2, 0]
    (by decide), []⟩
  let s : Session := ⟨⟨false, false, 8192⟩, 1, 1, 8,
    [⟨7, 0, 512, 0, true, none, Block.zero 64, 0⟩], 0, none, [], []⟩
  have hsession : (s.handle p).1.tracker = ⟨2, 8⟩ := by
    rw [Session.handle_tracker]
    decide
  have hconnection : PduConnection.observe s.tracker p = ⟨1, 8⟩ := by decide
  refine ⟨s, p, by decide, by decide, by decide, congrArg (·.exp_stat_sn) hsession,
    congrArg (·.exp_stat_sn) hconnection, fun h => ?_⟩
  have hone : (s.handle p).1.tracker = PduConnection.observe s.tracker p :=
    (h 1).1.trans (h 1).2.symm
  rw [hsession, hconnection] at hone
  exact absurd hone (by decide)

end stutools.iscsi
