-- NVMe Get Log Page on an admin queue, and the discovery of subsystems that reads a page
-- as long as its header says. The number of dwords that is asked for has the 16 bits of
-- NUMDL only, so a page of more than 2^16 dwords is asked for in part.
import Mathlib.Data.List.DropRight
import Stutools.Budget
import Stutools.NvmePdu
import Stutools.Texts
import Stutools.Utf8

open bytes

namespace stutools.nvme

def OP_GET_LOG_PAGE : UInt8 := 0x02

/-- Log page ID of the discovery log. -/
def LOG_DISCOVERY : UInt8 := 0x70

def ISIZE_MAX : Nat := 2 ^ 63 - 1

/-- Why a command on the admin queue returns an error. -/
inductive AdminError where
  /-- "NVMe/TCP: expected C2HData", "R2T" or "CapsuleResp" -/
  | parse (kind : UInt8)
  /-- "NVMe/TCP: data for command {cccid} while {cid} is in flight" -/
  | data_for (cccid cid : UInt16)
  /-- "NVMe/TCP: C2HData outside the command's buffer" -/
  | data_outside
  /-- "NVMe/TCP: controller asked for data this command does not send" -/
  | no_data_to_send
  /-- "NVMe/TCP: completion for command {done} while {cid} is in flight" -/
  | completion_for (done cid : UInt16)
  /-- "NVMe/TCP: controller terminated the connection (.. status {fes}, info {fei})" -/
  | terminated (kind : UInt8) (fes : UInt16) (fei : UInt32)
  /-- "NVMe/TCP: unexpected PDU type {kind} on a synchronous command" -/
  | unexpected (kind : UInt8)
  /-- Reading a PDU fails. -/
  | link
  /-- "NVMe/TCP: Get Log Page failed: status code type {sct}, status code {sc}" -/
  | status (sct sc : UInt8)
deriving DecidableEq, Repr

/-- How a call ends. -/
inductive Ended (α : Type) where
  | ok (a : α)
  | error (e : AdminError)
  | panic
deriving DecidableEq, Repr

/-- The admin queue of one association, after Connect: the commands that were sent, and
the PDUs the controller is yet to send, after which reading one fails. -/
structure Controller where
  next_cid : UInt16
  sent : List Command
  rx : List Pdu
deriving DecidableEq

/-- The status code type and status code, for error messages. -/
def Completion.code (c : Completion) : UInt8 × UInt8 :=
  (((c.status >>> 9) &&& 0x7).toUInt8, ((c.status >>> 1) &&& 0xff).toUInt8)

/-! ## A command that reads into a buffer -/

/-- `handle_sync`, while a command waits for data in a buffer: what the buffer holds
after one PDU, and the completion when the command is done. -/
def handle_sync (cid : UInt16) (buf : List UInt8) (p : Pdu) :
    Ended (List UInt8 × Option Completion) :=
  if p.kind = C2H_DATA then
    match parse_c2h p with
    | none => .error (.parse p.kind)
    | some c2h =>
      let start := c2h.datao.toNat
      let stop := start + c2h.datal.toNat
      if c2h.cccid ≠ cid then .error (.data_for c2h.cccid cid)
      else if buf.length < stop then .error .data_outside
      else if stop - start ≠ p.data.length then .panic
      else .ok (patch buf start p.data,
        if c2h.success then some { dw0 := 0, wide := 0, sq_head := 0, cid, status := 0 } else none)
  else if p.kind = R2T then
    match parse_r2t p with
    | none => .error (.parse p.kind)
    | some _ => .error .no_data_to_send
  else if p.kind = CAPSULE_RESP then
    match parse_capsule_resp p with
    | none => .error (.parse p.kind)
    | some cqe =>
      let done := Completion.parse cqe
      if done.cid ≠ cid then .error (.completion_for done.cid cid) else .ok (buf, some done)
  else if p.kind = TERM_C2H ∨ p.kind = TERM_H2C then
    if p.header.length < 16 then .panic
    else .error (.terminated p.kind (le16 p.header 8) (le32 p.header 12))
  else .error (.unexpected p.kind)

/-- The loop of `Link::submit` over the PDUs that come. -/
def receive (cid : UInt16) (buf : List UInt8) :
    List Pdu → Ended (List UInt8 × Completion) × List Pdu
  | [] => (.error .link, [])
  | p :: rx =>
    match handle_sync cid buf p with
    | .ok (buf, some done) => (.ok (buf, done), rx)
    | .ok (buf, none) => receive cid buf rx
    | .error e => (.error e, rx)
    | .panic => (.panic, rx)

/-- `check`: an error status is an error. -/
def checked : Ended (List UInt8 × Completion) → Ended (List UInt8)
  | .ok (buf, done) =>
    if done.ok then .ok buf else .error (.status done.code.1 done.code.2)
  | .error e => .error e
  | .panic => .panic

namespace Controller

/-- `submit` with `Data::In`: the command is sent under the next identifier, with the
length of the buffer in its data pointer. -/
def submit (c : Controller) (cmd : Command) (buf : List UInt8) :
    Ended (List UInt8 × Completion) × Controller :=
  let cid := c.next_cid
  let cmd := Block.put cmd 2 (le 2 cid.toNat) (by simp)
  let cmd := Command.set_data cmd buf.length false
  let (r, rx) := receive cid buf c.rx
  (r, { next_cid := max (c.next_cid + 1) 1, sent := c.sent ++ [cmd], rx })

/-- Reads `len` bytes of a log page from `offset`. A buffer of more than `isize::MAX`
bytes is a panic. -/
def get_log_page (A : Arith) (c : Controller) (lid : UInt8) (offset : UInt64) (len : Nat) :
    Ended (List UInt8) × Controller :=
  match A.sub (len / 4) 1 with
  | none => (.panic, c)
  | some numd =>
    let cmd := Command.new OP_GET_LOG_PAGE 0
    let cmd := Block.put cmd 40 (le 4 (UInt32.ofNat numd <<< 16 ||| lid.toUInt32).toNat) (by simp)
    let cmd := Block.put cmd 48 (le 4 offset.toUInt32.toNat) (by simp)
    let cmd := Block.put cmd 52 (le 4 (offset >>> 32).toUInt32.toNat) (by simp)
    if ISIZE_MAX < len then (.panic, c)
    else
      let (r, c) := c.submit cmd (List.replicate len 0)
      (checked r, c)

/-- Get Log Page `lid` for `nsid` with log specific field `lsp`, into `buf`, returning
the completion rather than failing on an error status. -/
def log_page (A : Arith) (c : Controller) (lid : UInt8) (nsid : UInt32) (lsp : UInt8)
    (buf : List UInt8) : Ended (List UInt8 × Completion) × Controller :=
  let cmd := Command.new OP_GET_LOG_PAGE 0
  let cmd := Command.set_nsid cmd nsid
  match A.sub (buf.length / 4) 1 with
  | none => (.panic, c)
  | some numd =>
    let cdw10 := UInt32.ofNat numd <<< 16 ||| (lsp.toUInt32 &&& 0x7f) <<< 8 ||| lid.toUInt32
    c.submit (Block.put cmd 40 (le 4 cdw10.toNat) (by simp)) buf

end Controller

/-! ## Discovery -/

/-- One record of the discovery log page: a subsystem and the address it is reachable on. -/
structure Discovered where
  subtype : UInt8
  subnqn : List Char
  transport : List Char
  traddr : List Char
  trsvcid : List Char
deriving DecidableEq, Repr

def ascii (b : List UInt8) : List Char :=
  (utf8.from_utf8_lossy b).rdropWhile fun c => c = '\x00' ∨ c = ' '

def discovered (r : List UInt8) : Discovered :=
  { subtype := r.getD 2 0
    transport :=
      if r.getD 0 0 = 3 then "tcp".toList
      else "transport ".toList ++ texts.shown (r.getD 0 0).toNat
    traddr := ascii (slice r 512 256)
    trsvcid := ascii (slice r 32 32)
    subnqn := ascii (slice r 256 256) }

/-- `chunks_exact`: the pieces of `n` elements, less what is left over. -/
def chunks_exact (n : Nat) (l : List UInt8) : List (List UInt8) :=
  (List.range (l.length / n)).map fun i => slice l (i * n) n

/-- The number of records that the header of the page reports. -/
def records (header : List UInt8) : Nat := of_le (slice header 8 8)

/-- `discover_subsystems`, on the controller after Connect and enable. -/
def discover_subsystems (A : Arith) (c : Controller) : Ended (List Discovered) × Controller :=
  match c.get_log_page A LOG_DISCOVERY 0 1024 with
  | (.error e, c) => (.error e, c)
  | (.panic, c) => (.panic, c)
  | (.ok header, c) =>
    match (A.mul (records header) 1024).bind (A.add 1024) with
    | none => (.panic, c)
    | some len =>
      match c.get_log_page A LOG_DISCOVERY 0 len with
      | (.error e, c) => (.error e, c)
      | (.panic, c) => (.panic, c)
      | (.ok log, c) =>
        if log.length < 1024 then (.panic, c)
        else (.ok ((chunks_exact 1024 (log.drop 1024)).map discovered), c)

/-! ## What is asked for -/

/-- The number of dwords in NUMDL and NUMDU, which is 0-based. -/
def numd (cmd : Command) : Nat :=
  of_le (Block.field cmd 42 2) + 2 ^ 16 * of_le (Block.field cmd 44 2)

/-- The command asks for exactly `len` bytes from the offset, and its data pointer has
room for them. -/
structure Encodes (cmd : Command) (offset len : Nat) : Prop where
  numd : nvme.numd cmd + 1 = len / 4
  offset : of_le (Block.field cmd 48 8) = offset
  length : of_le (Block.field cmd 32 4) = len

/-- Either an error is returned and nothing is sent, or one command is sent that asks for
what is read. -/
def Asked {α : Type} (c : Controller) (r : Ended α × Controller) (offset len : Nat) : Prop :=
  (∃ e, r.1 = .error e) ∧ r.2.sent = c.sent ∨
    ∃ cmd, r.2.sent = c.sent ++ [cmd] ∧ Encodes cmd offset len

/-- NUMDL alone has the number of dwords: there is one at least, and 2^16 at most. -/
def Fits (len : Nat) : Prop := 4 ≤ len ∧ len / 4 ≤ 2 ^ 16

/-- After the header of the page was read: the rest is asked for in full, and each record
that the header reports is returned. -/
structure Discovers (A : Arith) (c : Controller) (header : List UInt8) (c' : Controller) : Prop where
  asked : Asked c' (discover_subsystems A c) 0 (1024 + records header * 1024)
  one_each : ∀ ds, (discover_subsystems A c).1 = .ok ds → ds.length = records header ∧
    ∃ log, (c'.get_log_page A LOG_DISCOVERY 0 (1024 + records header * 1024)).1 = .ok log ∧
      ds = (List.range (records header)).map fun i => discovered (slice log (1024 * (i + 1)) 1024)

/-! ## The fields of a command -/

/-- What was stored from byte 40 on is what is sent. -/
theorem sent_field (cmd : Command) (cid : UInt16) (len : Nat) {i : Nat} (hi : 40 ≤ i) (m : Nat) :
    Block.field (Command.set_data (Block.put cmd 2 (le 2 cid.toNat) (by simp)) len false) i m =
      Block.field cmd i m := by
  unfold Command.set_data
  rw [Block.field_put_right _ _ (by simpa using hi),
    Block.field_put_right _ _ (by simp only [le_length]; omega),
    Block.field_put_right _ _ (by simpa using hi),
    Block.field_put_right _ _ (by simp only [List.length_singleton]; omega),
    Block.field_put_right _ _ (by simp only [le_length]; omega)]

theorem sent_length (cmd : Command) (len : Nat) :
    of_le (Block.field (Command.set_data cmd len false) 32 4) = len % 2 ^ 32 := by
  unfold Command.set_data
  rw [Block.field_put_left _ _ (by simp), Block.field_put_self _ _ (by simp), of_le_le]
  exact Nat.mod_mod len (2 ^ 32)

/-- The upper half of a word is what was shifted there, modulo 2^16. -/
theorem upper_half (n : Nat) {low : UInt32} (hlow : low.toNat < 2 ^ 16) :
    of_le (slice (le 4 (UInt32.ofNat n <<< 16 ||| low).toNat) 2 2) = n % 2 ^ 16 := by
  have hslice : ∀ v, slice (le 4 v) 2 2 = le 2 (v / 256 / 256) := fun v => rfl
  have hshift : (UInt32.ofNat n <<< 16 ||| low).toNat = (n % 2 ^ 16) <<< 16 ||| low.toNat := by
    rw [UInt32.toNat_or, UInt32.toNat_shiftLeft, UInt32.toNat_ofNat', Nat.shiftLeft_eq,
      Nat.shiftLeft_eq]
    congr 1
    show n % 2 ^ 32 * 2 ^ 16 % 2 ^ 32 = n % 2 ^ 16 * 2 ^ 16
    omega
  have hdiv : ((n % 2 ^ 16) <<< 16 ||| low.toNat) / 256 / 256 = n % 2 ^ 16 := by
    rw [Nat.div_div_eq_div_mul, show 256 * 256 = 2 ^ 16 from rfl, ← Nat.shiftRight_eq_div_pow,
      Nat.shiftRight_or_distrib, Nat.shiftLeft_shiftRight, Nat.shiftRight_eq_div_pow low.toNat,
      Nat.div_eq_of_lt hlow, Nat.or_zero]
  rw [hslice, hshift, hdiv, of_le_le]
  exact Nat.mod_mod n (2 ^ 16)

/-- A number of 64 bits is in its two halves. -/
theorem halves (cmd : Command) (offset : UInt64) :
    of_le (Block.field (Block.put (Block.put cmd 48 (le 4 offset.toUInt32.toNat) (by simp)) 52
      (le 4 (offset >>> 32).toUInt32.toNat) (by simp)) 48 8) = offset.toNat := by
  have hsplit : ∀ b : Command, Block.field b 48 8 = Block.field b 48 4 ++ Block.field b 52 4 := by
    intro b
    unfold Block.field slice
    rw [show (8 : Nat) = 4 + 4 from rfl, List.take_add, List.drop_drop]
  rw [hsplit, Block.field_put_left _ _ (by simp), Block.field_put_self _ _ (by simp),
    Block.field_put_self _ _ (by simp), of_le_append, of_le_le, of_le_le, le_length]
  simp only [UInt64.toNat_toUInt32, UInt64.toNat_shiftRight, Nat.shiftRight_eq_div_pow]
  have hlt := offset.toNat_lt
  show offset.toNat % 2 ^ 32 % 2 ^ 32 + 2 ^ 32 * (offset.toNat / 2 ^ 32 % 2 ^ 32 % 2 ^ 32) = _
  omega

/-- What a command asks for: NUMDL has 16 bits of the number of dwords, NUMDU none. -/
structure AsksFor (cmd : Command) (n offset len : Nat) : Prop where
  numd : nvme.numd cmd = n % 2 ^ 16
  offset : of_le (Block.field cmd 48 8) = offset
  length : of_le (Block.field cmd 32 4) = len % 2 ^ 32

theorem AsksFor.encodes_iff {cmd : Command} {n offset len : Nat} (h : AsksFor cmd n offset len)
    (hn : 4 ≤ len → len < 2 ^ 64 → n = len / 4 - 1) : Encodes cmd offset len ↔ Fits len := by
  refine ⟨fun he => ?_, fun hf => ?_⟩
  · have hnumd := he.numd
    rw [h.numd] at hnumd
    have := Nat.mod_lt n (show 0 < 2 ^ 16 by decide)
    refine ⟨?_, ?_⟩ <;> omega
  · obtain ⟨h4, hle⟩ := hf
    have hn' := hn h4 (by omega)
    refine ⟨?_, h.offset, ?_⟩
    · rw [h.numd, Nat.mod_eq_of_lt (by omega)]
      omega
    · rw [h.length, Nat.mod_eq_of_lt (by omega)]

/-! ## What the two calls send -/

/-- A call either panics with nothing sent, where a computation is refused, or sends one
command. -/
def Sends {α : Type} (A : Arith) (c : Controller) (r : Ended α × Controller)
    (offset len : Nat) : Prop :=
  (A.sub (len / 4) 1 = none ∨ ISIZE_MAX < len) ∧ r = (.panic, c) ∨
    ∃ n cmd, A.sub (len / 4) 1 = some n ∧ r.2.sent = c.sent ++ [cmd] ∧ AsksFor cmd n offset len

theorem Sends.asked_iff {A : Arith} (hA : A.Exact) {α : Type} {c : Controller}
    {r : Ended α × Controller} {offset len : Nat} (h : Sends A c r offset len) :
    Asked c r offset len ↔ Fits len := by
  rcases h with ⟨hrefused, rfl⟩ | ⟨n, cmd, hn, hsent, hasks⟩
  · refine ⟨fun hasked => ?_, fun ⟨h4, hle⟩ => ?_⟩
    · rcases hasked with ⟨⟨e, he⟩, -⟩ | ⟨cmd, hsent, -⟩
      · cases he
      · simp at hsent
    · exfalso
      rw [hA.sub (by omega) (by unfold U64; omega)] at hrefused
      unfold ISIZE_MAX at hrefused
      rcases hrefused with hnone | hlarge
      · cases hnone
      · omega
  · have hexact : 4 ≤ len → len < 2 ^ 64 → n = len / 4 - 1 := by
      intro h4 hlt
      rw [hA.sub (by omega) (by unfold U64; omega)] at hn
      exact (Option.some.inj hn).symm
    rw [← hasks.encodes_iff hexact]
    refine ⟨fun hasked => ?_, fun he => .inr ⟨cmd, hsent, he⟩⟩
    rcases hasked with ⟨-, hnone⟩ | ⟨cmd', hsent', he⟩
    · rw [hsent] at hnone
      simp at hnone
    · rw [hsent] at hsent'
      obtain rfl : cmd = cmd' := by simpa using hsent'
      exact he

namespace Controller

variable (A : Arith) (c : Controller) (lid : UInt8)

/-- The command that `submit` sends. -/
def sending (cmd : Command) (len : Nat) : Command :=
  Command.set_data (Block.put cmd 2 (le 2 c.next_cid.toNat) (by simp)) len false

theorem submit_sent (cmd : Command) (buf : List UInt8) :
    (c.submit cmd buf).2.sent = c.sent ++ [c.sending cmd buf.length] := rfl

/-- What is asked for stands in the dwords from byte 40 on. -/
theorem sending_asks_for {cmd : Command} {n offset : Nat} (len : Nat)
    (hnumdl : of_le (Block.field cmd 42 2) = n % 2 ^ 16)
    (hnumdu : Block.field cmd 44 2 = [0, 0]) (hoffset : of_le (Block.field cmd 48 8) = offset) :
    AsksFor (c.sending cmd len) n offset len := by
  refine ⟨?_, ?_, sent_length _ _⟩
  · unfold numd sending
    rw [sent_field _ _ _ (by decide), sent_field _ _ _ (by decide), hnumdl, hnumdu]
    rfl
  · unfold sending
    rw [sent_field _ _ _ (by decide), hoffset]

theorem get_log_page.spec (offset : UInt64) (len : Nat) :
    Sends A c (c.get_log_page A lid offset len) offset.toNat len := by
  unfold get_log_page
  cases hn : A.sub (len / 4) 1 with
  | none => exact .inl ⟨.inl hn, rfl⟩
  | some n =>
    dsimp only
    by_cases hlarge : ISIZE_MAX < len
    · rw [if_pos hlarge]
      exact .inl ⟨.inr hlarge, rfl⟩
    rw [if_neg hlarge]
    have hlid : lid.toUInt32.toNat < 2 ^ 16 := Nat.lt_trans lid.toNat_lt (by decide)
    refine .inr ⟨n, _, hn, c.submit_sent _ _, ?_⟩
    rw [List.length_replicate]
    refine sending_asks_for c len ?_ ?_ (halves _ offset)
    · rw [Block.field_put_left _ _ (by decide), Block.field_put_left _ _ (by decide),
        Block.field_put_inside _ _ (j := 2) rfl (by simp), upper_half n hlid]
    · rw [Block.field_put_left _ _ (by decide), Block.field_put_left _ _ (by decide),
        Block.field_put_right _ _ (by simp)]
      rfl

theorem log_page.spec (nsid : UInt32) (lsp : UInt8) (buf : List UInt8) :
    Sends A c (c.log_page A lid nsid lsp buf) 0 buf.length := by
  unfold log_page
  cases hn : A.sub (buf.length / 4) 1 with
  | none => exact .inl ⟨.inl hn, rfl⟩
  | some n =>
    have hlow : ((lsp.toUInt32 &&& 0x7f) <<< 8 ||| lid.toUInt32).toNat < 2 ^ 16 := by
      rw [UInt32.toNat_or]
      refine Nat.or_lt_two_pow ?_ (Nat.lt_trans lid.toNat_lt (by decide))
      rw [UInt32.toNat_shiftLeft, UInt32.toNat_and, Nat.shiftLeft_eq]
      have hand : lsp.toUInt32.toNat &&& 0x7f ≤ 0x7f := Nat.and_le_right
      show (lsp.toUInt32.toNat &&& 0x7f) * 2 ^ 8 % 2 ^ 32 < 2 ^ 16
      omega
    dsimp only
    refine .inr ⟨n, _, hn, c.submit_sent _ _, sending_asks_for c _ ?_ ?_ ?_⟩
    · rw [Block.field_put_inside _ _ (j := 2) rfl (by simp), UInt32.or_assoc, upper_half n hlow]
    · rw [Block.field_put_right _ _ (by simp)]
      unfold Command.set_nsid
      rw [Block.field_put_right _ _ (by simp)]
      rfl
    · rw [Block.field_put_right _ _ (by simp)]
      unfold Command.set_nsid
      rw [Block.field_put_right _ _ (by simp)]
      rfl

end Controller

/-! ## What is read -/

/-- A PDU leaves the buffer's length as it is. -/
theorem handle_sync_length {cid : UInt16} {buf b : List UInt8} {p : Pdu} {d : Option Completion}
    (h : handle_sync cid buf p = .ok (b, d)) : b.length = buf.length := by
  unfold handle_sync at h
  split at h
  · cases hparse : parse_c2h p with
    | none => simp [hparse] at h
    | some c2h =>
      simp only [hparse] at h
      split_ifs at h with _ hinside hpanic
      all_goals
        simp only [Ended.ok.injEq, Prod.mk.injEq] at h
        rw [← h.1]
        exact patch_length (by omega)
  · split at h
    · split at h <;> cases h
    · split at h
      · cases hparse : parse_capsule_resp p with
        | none => simp [hparse] at h
        | some cqe =>
          simp only [hparse] at h
          split_ifs at h
          simp only [Ended.ok.injEq, Prod.mk.injEq] at h
          rw [← h.1]
      · split_ifs at h

theorem receive_length {cid : UInt16} {buf b : List UInt8} {rx : List Pdu} {d : Completion}
    (h : (receive cid buf rx).1 = .ok (b, d)) : b.length = buf.length := by
  induction rx generalizing buf with
  | nil => cases h
  | cons p rx ih =>
    rw [receive] at h
    split at h
    · rename_i b' done hp
      simp only [Ended.ok.injEq, Prod.mk.injEq] at h
      rw [← h.1, handle_sync_length hp]
    · rename_i b' hp
      rw [ih h, handle_sync_length hp]
    · cases h
    · cases h

theorem checked_length {c : Controller} {cmd : Command} {buf b : List UInt8}
    (h : checked (c.submit cmd buf).1 = .ok b) : b.length = buf.length := by
  rcases hr : (c.submit cmd buf).1 with ⟨b', done⟩ | e | _
  · rw [hr, checked] at h
    split_ifs at h
    obtain rfl := Ended.ok.inj h
    exact receive_length hr
  · rw [hr] at h
    cases h
  · rw [hr] at h
    cases h

/-- A page that is returned has the length that was asked for. -/
theorem get_log_page_length {A : Arith} {c : Controller} {lid : UInt8} {offset : UInt64} {len : Nat}
    {buf : List UInt8} (h : (c.get_log_page A lid offset len).1 = .ok buf) : buf.length = len := by
  unfold Controller.get_log_page at h
  split at h
  · cases h
  · dsimp only at h
    split_ifs at h
    rw [checked_length h, List.length_replicate]

/-! ## Discovery -/

section discovery

variable {A : Arith} {c c' : Controller} {header : List UInt8}

/-- After its header, the page is read in one piece whose length is computed from it. -/
theorem discover_subsystems.spec
    (h : c.get_log_page A LOG_DISCOVERY 0 1024 = (.ok header, c')) :
    (A.mul (records header) 1024).bind (A.add 1024) = none ∧
        discover_subsystems A c = (.panic, c') ∨
      ∃ len, (A.mul (records header) 1024).bind (A.add 1024) = some len ∧
        (discover_subsystems A c).2 = (c'.get_log_page A LOG_DISCOVERY 0 len).2 ∧
        (∀ e, (discover_subsystems A c).1 = .error e ↔
          (c'.get_log_page A LOG_DISCOVERY 0 len).1 = .error e) ∧
        ∀ ds, (discover_subsystems A c).1 = .ok ds →
          ∃ log, (c'.get_log_page A LOG_DISCOVERY 0 len).1 = .ok log ∧
            ds = (chunks_exact 1024 (log.drop 1024)).map discovered := by
  unfold discover_subsystems
  rw [h]
  dsimp only
  cases hlen : (A.mul (records header) 1024).bind (A.add 1024) with
  | none => exact .inl ⟨rfl, rfl⟩
  | some len =>
    refine .inr ⟨len, rfl, ?_⟩
    dsimp only
    rcases hlog : c'.get_log_page A LOG_DISCOVERY 0 len with ⟨r, c''⟩
    cases r with
    | error e => exact ⟨rfl, by simp, fun ds hds => by cases hds⟩
    | panic => exact ⟨rfl, by simp, fun ds hds => by cases hds⟩
    | ok log =>
      dsimp only
      split_ifs
      · exact ⟨rfl, by simp, fun ds hds => by cases hds⟩
      · exact ⟨rfl, by simp, fun ds hds => ⟨log, rfl, (Ended.ok.inj hds).symm⟩⟩

/-- With up to 255 records the length of the page fits, in either build. -/
theorem page_length (hA : A.Exact) (hle : records header ≤ 255) :
    (A.mul (records header) 1024).bind (A.add 1024) = some (1024 + records header * 1024) := by
  rw [hA.mul (by unfold U64; omega), Option.bind_some, hA.add (by unfold U64; omega)]

/-- The records of a page that was read in full. -/
theorem chunks_of_page {log : List UInt8} {n : Nat} (h : log.length = 1024 + n * 1024) :
    chunks_exact 1024 (log.drop 1024) = (List.range n).map fun i => slice log (1024 * (i + 1)) 1024 := by
  have hcount : (log.drop 1024).length / 1024 = n := by
    rw [List.length_drop, h]
    omega
  unfold chunks_exact
  rw [hcount]
  refine List.map_congr_left fun i _ => ?_
  unfold slice
  rw [List.drop_drop]
  congr 2
  ring

theorem discovers_iff (hA : A.Exact) (h : c.get_log_page A LOG_DISCOVERY 0 1024 = (.ok header, c')) :
    Discovers A c header c' ↔ records header ≤ 255 := by
  refine ⟨fun hd => ?_, fun hle => ?_⟩
  · rcases discover_subsystems.spec h with ⟨-, hpanic⟩ | ⟨len, -, hstate, herror, -⟩
    · rcases hd.asked with ⟨⟨e, he⟩, -⟩ | ⟨cmd, hsent, -⟩
      · rw [hpanic] at he
        cases he
      · simp [hpanic] at hsent
    · rcases Controller.get_log_page.spec A c' LOG_DISCOVERY 0 len with ⟨-, hpanic⟩ | ⟨n, cmd, -, hsent, hasks⟩
      · rcases hd.asked with ⟨⟨e, he⟩, -⟩ | ⟨cmd, hsent, -⟩
        · rw [herror, hpanic] at he
          cases he
        · simp [hstate, hpanic] at hsent
      · rcases hd.asked with ⟨-, hnone⟩ | ⟨cmd', hsent', he⟩
        · rw [hstate, hsent] at hnone
          simp at hnone
        · rw [hstate, hsent] at hsent'
          obtain rfl : cmd = cmd' := by simpa using hsent'
          -- whatever the length was computed to be, NUMDL has 16 bits
          have hnumd := he.numd
          rw [hasks.numd] at hnumd
          have := Nat.mod_lt n (show 0 < 2 ^ 16 by decide)
          omega
  · have hlen := @page_length A header hA hle
    rcases discover_subsystems.spec h with ⟨hnone, -⟩ | ⟨len, hsome, hstate, herror, hok⟩
    · rw [hlen] at hnone
      cases hnone
    · obtain rfl : 1024 + records header * 1024 = len := Option.some.inj (hlen.symm.trans hsome)
      have hfits : Fits (1024 + records header * 1024) := ⟨by omega, by omega⟩
      refine ⟨?_, fun ds hds => ?_⟩
      · have hasked := ((Controller.get_log_page.spec A c' LOG_DISCOVERY 0 _).asked_iff hA).mpr hfits
        rcases hasked with ⟨⟨e, he⟩, hsent⟩ | ⟨cmd, hsent, he⟩
        · exact .inl ⟨⟨e, (herror e).mpr he⟩, by rw [hstate, hsent]⟩
        · exact .inr ⟨cmd, by rw [hstate, hsent], he⟩
      · obtain ⟨log, hlog, rfl⟩ := hok ds hds
        rw [chunks_of_page (get_log_page_length hlog)]
        exact ⟨by simp, log, hlog, by rw [List.map_map]; rfl⟩

end discovery

/-! ## The law -/

/-- The law of the three calls, in every build: what is read is asked for exactly when
its dwords fit NUMDL, which for a discovery log page is up to 255 records. -/
theorem log_pages_ask_for_what_they_read_exactly_when_numdl_has_room {A : Arith} (hA : A.Exact) :
    (∀ c lid offset len, Asked c (Controller.get_log_page A c lid offset len) offset.toNat len ↔
      Fits len) ∧
    (∀ c lid nsid lsp buf, Asked c (Controller.log_page A c lid nsid lsp buf) 0 buf.length ↔
      Fits buf.length) ∧
    ∀ c header c', Controller.get_log_page A c LOG_DISCOVERY 0 1024 = (.ok header, c') →
      (Discovers A c header c' ↔ records header ≤ 255) :=
  ⟨fun c lid offset len => (Controller.get_log_page.spec A c lid offset len).asked_iff hA,
    fun c lid nsid lsp buf => (Controller.log_page.spec A c lid nsid lsp buf).asked_iff hA,
    fun _ _ _ h => discovers_iff hA h⟩

/-- A controller that has connected, and answers the first command with the header of a
page of `n` records. -/
def reporting (n : Nat) : Controller :=
  { next_cid := 1
    sent := []
    rx := [{ kind := C2H_DATA
             flags := FLAG_LAST ||| FLAG_SUCCESS
             header := [C2H_DATA, 0x0c, 24, 24] ++ le 4 1048 ++ le 2 1 ++ le 2 0 ++ le 4 0 ++ le 4 1024 ++ le 4 0
             data := le 8 0 ++ le 8 n ++ List.replicate 1008 0 }] }

theorem with_state {α : Type} {r : Ended α × Controller} {a : Ended α} (h : r.1 = a) :
    r = (a, r.2) := Prod.ext h rfl

/-- The header of a page of `n` records. -/
def page_header (n : Nat) : List UInt8 := le 8 0 ++ le 8 n ++ List.replicate 1008 0

theorem reporting_255 : ((reporting 255).get_log_page .release LOG_DISCOVERY 0 1024).1 =
    .ok (page_header 255) := by
  decide +kernel

theorem reporting_256 : ((reporting 256).get_log_page .release LOG_DISCOVERY 0 1024).1 =
    .ok (page_header 256) := by
  decide +kernel

theorem a_page_of_255_records_is_asked_for :
    Discovers .release (reporting 255) (page_header 255)
      ((reporting 255).get_log_page .release LOG_DISCOVERY 0 1024).2 :=
  ((log_pages_ask_for_what_they_read_exactly_when_numdl_has_room Arith.release_exact).2.2 _ _ _
    (with_state reporting_255)).mpr (by decide +kernel)

/-- Of the 65792 dwords of a page of 256 records, 256 are asked for; and a buffer of
2^16 + 1 dwords is not asked for either. -/
theorem a_page_of_256_records_is_asked_for_in_part :
    ∃ header c', (reporting 256).get_log_page .release LOG_DISCOVERY 0 1024 = (.ok header, c') ∧
      records header = 256 ∧
      (∃ cmd, (c'.get_log_page .release LOG_DISCOVERY 0 (1024 + 256 * 1024)).2.sent =
        c'.sent ++ [cmd] ∧ numd cmd = 255) ∧
      ¬Discovers .release (reporting 256) header c' ∧
      ¬Asked c' (c'.log_page .release LOG_DISCOVERY 0 0 (List.replicate (2 ^ 18 + 4) 0)) 0
        (List.replicate (2 ^ 18 + 4) (0 : UInt8)).length := by
  have h := with_state reporting_256
  have hrecords : records (page_header 256) = 256 := by decide +kernel
  refine ⟨_, _, h, hrecords, ?_, ?_, ?_⟩
  · rcases Controller.get_log_page.spec .release _ LOG_DISCOVERY 0 (1024 + 256 * 1024) with
      ⟨hrefused, -⟩ | ⟨n, cmd, hn, hsent, hasks⟩
    · exact absurd hrefused (by decide)
    · obtain rfl : 65791 = n := Option.some.inj hn
      exact ⟨cmd, hsent, hasks.numd⟩
  · rw [discovers_iff Arith.release_exact h, hrecords]
    decide
  · rw [(Controller.log_page.spec _ _ _ _ _ _).asked_iff Arith.release_exact, List.length_replicate]
    unfold Fits
    decide

end stutools.nvme
