-- The write data of an NVMe/TCP link: the H2CData PDUs that answer an R2T, in
-- pieces no larger than the ICResp allows. The stream of them reads back as the
-- bytes that were asked for exactly when every offset fits its field.
import Stutools.Chunks
import Stutools.NvmeSession

open bytes

namespace stutools.nvme

/-! ## The link -/

def ICREQ_LEN : Nat := 128

/-- The largest H2CData that is sent. -/
def DEFAULT_H2C : UInt32 := 64 * 1024

/-- What the controller agreed to in ICResp. -/
structure IcResp where
  digest : UInt8
  /-- The largest H2CData PDU the controller accepts, in bytes. -/
  max_h2c_data : UInt32
deriving DecidableEq, Repr

/-- Why `parse_icresp` refuses a PDU. -/
inductive IcError where
  /-- "NVMe/TCP: expected ICResp, got type {kind} with header length {len}" -/
  | expected (kind : UInt8) (len : Nat)
  /-- "NVMe/TCP: controller asked for digests ({digest}); spit does not support them" -/
  | digests (digest : UInt8)
deriving DecidableEq, Repr

def parse_icresp (p : Pdu) : Except IcError IcResp :=
  if p.kind ≠ ICRESP ∨ p.header.length ≠ ICREQ_LEN then .error (.expected p.kind p.header.length)
  else
    let digest := p.header.getD 11 0
    if digest ≠ 0 then .error (.digests digest)
    else .ok { digest, max_h2c_data := le32 p.header 16 }

/-- A piece of write data is never empty. -/
abbrev Limit := { n : UInt32 // 0 < n.toNat ∧ n.toNat ≤ DEFAULT_H2C.toNat }

/-- The limit of a link before the ICResp. -/
def default_h2c : Limit := ⟨DEFAULT_H2C, by decide⟩

theorem min_default_h2c {n : UInt32} (h : n ≠ 0) :
    0 < (min n DEFAULT_H2C).toNat ∧ (min n DEFAULT_H2C).toNat ≤ DEFAULT_H2C.toNat := by
  have hn : n.toNat ≠ 0 := fun h0 => h (UInt32.toNat_inj.mp h0)
  have hmin : min n DEFAULT_H2C = if n ≤ DEFAULT_H2C then n else DEFAULT_H2C := rfl
  rw [hmin]
  split
  · rename_i hle
    exact ⟨Nat.pos_of_ne_zero hn, UInt32.le_iff_toNat_le.mp hle⟩
  · decide

/-- `Link`: the limit, the frame buffer, the frames written to the stream, and how
many more it takes before writing fails. -/
structure Link where
  max_h2c : Limit
  tx : List UInt8
  written : List (List UInt8)
  room : Option Nat

/-- The end of `Link::open`, on the PDU that answers the ICReq. -/
def Link.answered (link : Link) (p : Pdu) : Except IcError Link := do
  let resp ← parse_icresp p
  if h : resp.max_h2c_data ≠ 0 then
    return { link with max_h2c := ⟨min resp.max_h2c_data DEFAULT_H2C, min_default_h2c h⟩ }
  else return link

/-- Why `send_h2c` returns an error. -/
inductive SendError where
  /-- "NVMe/TCP: R2T asks for data outside the command's buffer" -/
  | outside
  /-- "NVMe/TCP: writing a PDU" -/
  | writing
deriving DecidableEq, Repr

/-- How `send_h2c` ends: it returns, or the sum of two `u32` overflows in a build that
checks for it. -/
inductive Sent where
  | ok
  | failed (e : SendError)
  | overflow
deriving DecidableEq, Repr

/-! ## The answer on the wire -/

/-- One PDU of an answer, after the bytes `before` it. -/
structure H2cPdu (cid : UInt16) (r2t : R2t) (max_h2c : Nat) (before : List UInt8) (last : Prop)
    (p : Pdu) : Prop where
  kind : p.kind = H2C_DATA
  flags : p.flags = FLAG_LAST ∧ last ∨ p.flags = 0 ∧ ¬ last
  cccid : le16 p.header 8 = cid
  ttag : le16 p.header 10 = r2t.ttag
  datao : (le32 p.header 12).toNat = r2t.r2to.toNat + before.length
  datal : (le32 p.header 16).toNat = p.data.length
  limit : p.data.length ≤ max_h2c

/-- The PDUs answer the R2T: in order they carry the bytes it asks for, and no others. -/
structure Answers (buf : List UInt8) (cid : UInt16) (r2t : R2t) (max_h2c : Nat)
    (pdus : List Pdu) : Prop where
  bytes : (pdus.map Pdu.data).flatten = slice buf r2t.r2to.toNat r2t.r2tl.toNat
  each : ∀ k p, pdus[k]? = some p →
    H2cPdu cid r2t max_h2c ((pdus.take k).map Pdu.data).flatten (k + 1 = pdus.length) p

namespace Link

/-- The bytes written between `link` and `link'` read back, frame by frame, as PDUs
that answer the R2T. -/
def Answered (buf : List UInt8) (cid : UInt16) (r2t : R2t) (link link' : Link) : Prop :=
  let frames := link'.written.drop link.written.length
  ∃ pdus, (∀ held, read_many read_into frames.length held frames.flatten = .ok (pdus, [])) ∧
    Answers buf cid r2t link.max_h2c.1.toNat pdus

/-- `pdu::write`. -/
def write (link : Link) : Option Link :=
  match link.room with
  | some 0 => none
  | room => some { link with written := link.written ++ [link.tx], room := room.map (· - 1) }

/-- The loop of `send_h2c`: the bytes of the source from `sent` on, in pieces no
larger than the controller allows. -/
def send_pieces (checks : Bool) (cid : UInt16) (r2t : R2t) (src : List UInt8) (link : Link)
    (sent : Nat) : Link × Sent :=
  if hlt : sent < src.length then
    let n := min (src.length - sent) link.max_h2c.1.toNat
    let last := sent + n == src.length
    if checks ∧ 2 ^ 32 ≤ r2t.r2to.toNat + sent % 2 ^ 32 then (link, .overflow)
    else
      let link' := { link with
        tx := frame_into link.tx H2C_DATA (if last then FLAG_LAST else 0) DATA_HEADER_LEN
          (put_data_fields cid r2t.ttag (r2t.r2to + UInt32.ofNat sent) n) (slice src sent n) }
      match link'.write with
      | none => (link', .failed .writing)
      | some link'' => send_pieces checks cid r2t src link'' (sent + n)
  else (link, .ok)
termination_by src.length - sent
decreasing_by
  have hpos := link.max_h2c.2.1
  show src.length - (sent + min (src.length - sent) link.max_h2c.1.toNat) < src.length - sent
  omega

/-- `Link::send_h2c`: answers one R2T with the host data it asks for. `checks` is
whether the build checks sums for overflow. -/
def send_h2c (checks : Bool) (link : Link) (cid : UInt16) (r2t : R2t) (buf : List UInt8) :
    Link × Sent :=
  let start := r2t.r2to.toNat
  let stop := start + r2t.r2tl.toNat
  if buf.length < stop then (link, .failed .outside)
  else send_pieces checks cid r2t (slice buf start (stop - start)) link 0

/-! ## The loop -/

/-- The stream takes `n` more PDUs. -/
def Takes (link : Link) (n : Nat) : Prop := ∀ room, link.room = some room → n ≤ room

/-- The piece with index `k`. -/
def piece (link : Link) (cid : UInt16) (r2t : R2t) (src : List UInt8) (k : Nat) : Pdu :=
  let limit := link.max_h2c.1.toNat
  let n := chunks.size src.length limit k
  { kind := H2C_DATA
    flags := if k * limit + n == src.length then FLAG_LAST else 0
    header := (put_data_fields cid r2t.ttag (r2t.r2to + UInt32.ofNat (k * limit)) n
      (Block.zero 24)).1
    data := slice src (k * limit) n }

/-- The link after `n` more pieces from the one with index `k` on, with what its
frame buffer then holds. -/
def after_pieces (link : Link) (cid : UInt16) (r2t : R2t) (src : List UInt8) (k n : Nat)
    (tx : List UInt8) : Link :=
  { link with
    tx
    written := link.written ++ (List.range' k n).map (Pdu.encode ∘ link.piece cid r2t src)
    room := link.room.map (· - n) }

/-- A build without checks passes, and so does a sum that stays below `2 ^ 32`. -/
def Passes (checks : Bool) (link : Link) (r2t : R2t) (k : Nat) : Prop :=
  checks = true → r2t.r2to.toNat + k * link.max_h2c.1.toNat < 2 ^ 32

theorem write_eq {link : Link} (h : link.room ≠ some 0) :
    link.write =
      some { link with written := link.written ++ [link.tx], room := link.room.map (· - 1) } := by
  unfold write
  split
  · rename_i h0
    exact absurd h0 h
  · rfl

section send_pieces

variable {checks : Bool} {cid : UInt16} {r2t : R2t} {src : List UInt8}

theorem limit_pos (link : Link) : 0 < link.max_h2c.1.toNat := link.max_h2c.2.1

/-- What `frame_into` leaves in the buffer is the piece, whatever it held. -/
theorem piece_frame (link : Link) (k : Nat) (tx : List UInt8) :
    frame_into tx H2C_DATA
        (if k * link.max_h2c.1.toNat + chunks.size src.length link.max_h2c.1.toNat k ==
          src.length then FLAG_LAST else 0) DATA_HEADER_LEN
        (put_data_fields cid r2t.ttag (r2t.r2to + UInt32.ofNat (k * link.max_h2c.1.toNat))
          (chunks.size src.length link.max_h2c.1.toNat k))
        (slice src (k * link.max_h2c.1.toNat) (chunks.size src.length link.max_h2c.1.toNat k)) =
      (link.piece cid r2t src k).encode :=
  frame_into_eq_encode tx _ _ 24 _ _

/-- A turn of the loop that sends the piece with index `k`. -/
theorem send_pieces_piece {link : Link} {k : Nat} (hsrc : src.length < 2 ^ 32)
    (hk : k < chunks.count src.length link.max_h2c.1.toNat) (hroom : link.room ≠ some 0)
    (hpass : Passes checks link r2t k) :
    ∃ tx, send_pieces checks cid r2t src link (min (k * link.max_h2c.1.toNat) src.length) =
      send_pieces checks cid r2t src (link.after_pieces cid r2t src k 1 tx)
        (min ((k + 1) * link.max_h2c.1.toNat) src.length) := by
  have hlt := (chunks.lt_count_iff link.limit_pos).mp hk
  have hmul : (k + 1) * link.max_h2c.1.toNat = k * link.max_h2c.1.toNat + link.max_h2c.1.toNat :=
    Nat.succ_mul k _
  have hsize : min (src.length - k * link.max_h2c.1.toNat) link.max_h2c.1.toNat =
      chunks.size src.length link.max_h2c.1.toNat k := rfl
  have hnext : min ((k + 1) * link.max_h2c.1.toNat) src.length =
      k * link.max_h2c.1.toNat + chunks.size src.length link.max_h2c.1.toNat k := by
    unfold chunks.size
    omega
  have hfine : ¬ (checks = true ∧
      2 ^ 32 ≤ r2t.r2to.toNat + k * link.max_h2c.1.toNat % 2 ^ 32) := by
    rintro ⟨hchecks, hover⟩
    have := hpass hchecks
    omega
  refine ⟨(link.piece cid r2t src k).encode, ?_⟩
  rw [Nat.min_eq_left (Nat.le_of_lt hlt), send_pieces, dif_pos hlt]
  dsimp only
  rw [if_neg hfine, hsize, piece_frame, write_eq (by exact hroom), hnext]
  rfl

theorem after_pieces_succ (link : Link) (k n : Nat) (tx tx' : List UInt8) :
    (link.after_pieces cid r2t src k 1 tx).after_pieces cid r2t src (k + 1) n tx' =
      link.after_pieces cid r2t src k (n + 1) tx' := by
  have hroom : (link.room.map (· - 1)).map (· - n) = link.room.map (· - (n + 1)) := by
    rw [Option.map_map]
    congr 1
    funext room
    simp only [Function.comp]
    omega
  have hpiece : (link.after_pieces cid r2t src k 1 tx).piece cid r2t src =
      link.piece cid r2t src := rfl
  unfold after_pieces at hpiece ⊢
  rw [hpiece]
  simp only [List.range'_succ, hroom, List.range'_zero, List.map_cons, List.map_nil,
    List.append_assoc, List.cons_append, List.nil_append]

/-- The loop from the piece with index `k` on, when the stream takes the rest. -/
theorem send_pieces_eq (link : Link) (k n : Nat) (hsrc : src.length < 2 ^ 32)
    (hn : k + n = chunks.count src.length link.max_h2c.1.toNat) (hroom : link.Takes n)
    (hpass : ∀ j, j < k + n → Passes checks link r2t j) :
    ∃ tx, send_pieces checks cid r2t src link (min (k * link.max_h2c.1.toNat) src.length) =
      (link.after_pieces cid r2t src k n tx, .ok) := by
  -- on the pieces that are left; each is the same after the one before it
  induction n generalizing link k with
  | zero =>
    have hdone : ¬ k * link.max_h2c.1.toNat < src.length := by
      rw [← chunks.lt_count_iff link.limit_pos]
      omega
    refine ⟨link.tx, ?_⟩
    rw [send_pieces, dif_neg (by omega)]
    simp [after_pieces]
  | succ n ih =>
    have hroom0 : link.room ≠ some 0 := fun h0 => Nat.not_succ_le_zero n (hroom 0 h0)
    obtain ⟨tx, hturn⟩ := send_pieces_piece hsrc (by omega) hroom0 (hpass k (by omega))
    have hroom1 : (link.after_pieces cid r2t src k 1 tx).Takes n := by
      intro room hr
      obtain ⟨room', hr', rfl⟩ := Option.map_eq_some_iff.mp hr
      have := hroom room' hr'
      omega
    have hcount : k + 1 + n = chunks.count src.length link.max_h2c.1.toNat := by omega
    obtain ⟨tx', hrest⟩ := ih (link.after_pieces cid r2t src k 1 tx) (k + 1) hcount hroom1
      (fun j hj => hpass j (by omega))
    rw [after_pieces_succ] at hrest
    exact ⟨tx', hturn.trans hrest⟩

/-- A turn that does not send its piece ends the loop with an error or an overflow. -/
theorem send_pieces_stuck {link : Link} {k : Nat} (hsrc : src.length < 2 ^ 32)
    (hk : k < chunks.count src.length link.max_h2c.1.toNat)
    (h : link.room = some 0 ∨ ¬ Passes checks link r2t k) :
    (send_pieces checks cid r2t src link (min (k * link.max_h2c.1.toNat) src.length)).2 ≠ .ok := by
  have hlt := (chunks.lt_count_iff link.limit_pos).mp hk
  rw [Nat.min_eq_left (Nat.le_of_lt hlt), send_pieces, dif_pos hlt]
  dsimp only
  split
  · exact nofun
  · rename_i hfine
    rcases h with hroom | hover
    · have hfull : ∀ tx, Link.write { link with tx } = none := by
        intro tx
        simp [write, hroom]
      rw [hfull]
      exact nofun
    · unfold Passes at hover
      push Not at hover
      exact absurd ⟨hover.1, by omega⟩ hfine

/-- A loop that reaches the end had a stream that takes all of its pieces and no
sum that overflows. -/
theorem takes_of_ok (link : Link) (k n : Nat) (hsrc : src.length < 2 ^ 32)
    (hn : k + n = chunks.count src.length link.max_h2c.1.toNat)
    (h : (send_pieces checks cid r2t src link
      (min (k * link.max_h2c.1.toNat) src.length)).2 = .ok) :
    link.Takes n ∧ ∀ j, k ≤ j → j < k + n → Passes checks link r2t j := by
  induction n generalizing link k with
  | zero => exact ⟨fun room _ => Nat.zero_le room, fun j hj hlt => absurd hlt (by omega)⟩
  | succ n ih =>
    have hroom0 : link.room ≠ some 0 :=
      fun h0 => send_pieces_stuck hsrc (by omega) (Or.inl h0) h
    have hpass : Passes checks link r2t k := by
      by_contra hover
      exact send_pieces_stuck hsrc (by omega) (Or.inr hover) h
    obtain ⟨tx, hturn⟩ := send_pieces_piece hsrc (by omega) hroom0 hpass
    rw [hturn] at h
    have hcount : k + 1 + n = chunks.count src.length link.max_h2c.1.toNat := by omega
    obtain ⟨htakes, hrest⟩ := ih (link.after_pieces cid r2t src k 1 tx) (k + 1) hcount h
    refine ⟨?_, ?_⟩
    · intro room hr
      have hpos : room ≠ 0 := fun h0 => hroom0 (by rw [hr, h0])
      have := htakes (room - 1) (by simp [after_pieces, hr])
      omega
    · intro j hj hlt
      rcases Nat.eq_or_lt_of_le hj with rfl | hj
      · exact hpass
      · exact hrest j hj (by omega)

end send_pieces

/-! ## What the pieces carry -/

section pieces

variable {link : Link} {cid : UInt16} {r2t : R2t} {src : List UInt8} {k : Nat}

theorem size_lt (link : Link) (src : List UInt8) (k : Nat) :
    chunks.size src.length link.max_h2c.1.toNat k ≤ 65536 :=
  Nat.le_trans (chunks.size_le _ _ _) link.max_h2c.2.2

theorem piece_data_length (hk : k < chunks.count src.length link.max_h2c.1.toNat) :
    (link.piece cid r2t src k).data.length = chunks.size src.length link.max_h2c.1.toNat k :=
  slice_length (chunks.end_le link.limit_pos hk)

theorem piece_fits (hk : k < chunks.count src.length link.max_h2c.1.toNat) :
    (link.piece cid r2t src k).Fits := by
  have hlen := @piece_data_length link cid r2t src k hk
  have hsize := size_lt link src k
  have hheader : (link.piece cid r2t src k).header.length = 24 := (put_data_fields _ _ _ _ _).2
  refine ⟨?_, by omega, by omega, by omega⟩
  unfold piece
  dsimp only
  split <;> decide

/-- A piece is as the answer must have it exactly when its offset fits its field. -/
theorem piece_received_iff {before : List UInt8}
    (hk : k < chunks.count src.length link.max_h2c.1.toNat)
    (hbefore : before.length = k * link.max_h2c.1.toNat) :
    H2cPdu cid r2t link.max_h2c.1.toNat before
        (k + 1 = chunks.count src.length link.max_h2c.1.toNat) (link.piece cid r2t src k).received ↔
      r2t.r2to.toNat + k * link.max_h2c.1.toNat < 2 ^ 32 := by
  have hends := chunks.ends_iff link.limit_pos hk
  have hlen := @piece_data_length link cid r2t src k hk
  have hsize := size_lt link src k
  have hofNat : (UInt32.ofNat (chunks.size src.length link.max_h2c.1.toNat k)).toNat =
      chunks.size src.length link.max_h2c.1.toNat k := Nat.mod_eq_of_lt (by omega)
  have hfields := data_fields_received cid r2t.ttag
    (r2t.r2to + UInt32.ofNat (k * link.max_h2c.1.toNat)) (link.piece cid r2t src k).data
    (Block.zero 24) H2C_DATA (link.piece cid r2t src k).flags
    (UInt32.ofNat (chunks.size src.length link.max_h2c.1.toNat k))
  rw [hofNat] at hfields
  obtain ⟨-, hcccid, httag, hdatao, hdatal⟩ := hfields
  have hoffset : (le32 (link.piece cid r2t src k).received.header 12).toNat =
      (r2t.r2to.toNat + k * link.max_h2c.1.toNat) % 2 ^ 32 := by
    refine (congrArg UInt32.toNat hdatao).trans ?_
    rw [UInt32.toNat_add]
    exact Nat.add_mod_mod _ _ _
  constructor
  · intro h
    have hdatao := h.datao
    rw [hoffset, hbefore] at hdatao
    rw [← hdatao]
    exact Nat.mod_lt _ (by decide)
  · intro hlt
    refine ⟨rfl, ?_, hcccid, httag, ?_, ?_, ?_⟩
    · by_cases hlast : k + 1 = chunks.count src.length link.max_h2c.1.toNat
      · exact Or.inl ⟨if_pos (by simpa using hends.mpr hlast), hlast⟩
      · exact Or.inr ⟨if_neg (by simpa using hends.not.mpr hlast), hlast⟩
    · rw [hoffset, hbefore, Nat.mod_eq_of_lt hlt]
    · refine (congrArg UInt32.toNat hdatal).trans ?_
      rw [hofNat]
      exact hlen.symm
    · refine Nat.le_trans (Nat.le_of_eq hlen) ?_
      exact chunks.size_le _ _ _

/-- What the reader makes of the first `n` pieces. -/
def pieces_received (link : Link) (cid : UInt16) (r2t : R2t) (src : List UInt8) (n : Nat) :
    List Pdu :=
  (List.range n).map fun k => (link.piece cid r2t src k).received

theorem pieces_received_data (n : Nat) :
    (link.pieces_received cid r2t src n).map Pdu.data =
      chunks.pieces src 0 src.length link.max_h2c.1.toNat n := by
  unfold pieces_received chunks.pieces
  rw [List.map_map]
  congr 1
  funext k
  rw [Nat.zero_add]
  rfl

/-- The bytes before a piece are those of the full pieces before it. -/
theorem pieces_before_length {n : Nat} (hn : n = chunks.count src.length link.max_h2c.1.toNat)
    (hk : k < n) :
    (((link.pieces_received cid r2t src n).take k).map Pdu.data).flatten.length =
      k * link.max_h2c.1.toNat := by
  have hlt := (chunks.lt_count_iff link.limit_pos).mp (hn ▸ hk)
  rw [List.map_take, pieces_received_data, chunks.pieces_take (Nat.le_of_lt hk),
    chunks.pieces_flatten, Nat.min_eq_left (Nat.le_of_lt hlt), List.length_take, List.length_drop]
  omega

/-- The frames of the pieces read back as the pieces. -/
theorem pieces_read (link : Link) (cid : UInt16) (r2t : R2t) (src : List UInt8) (held : Pdu) :
    let frames := (List.range (chunks.count src.length link.max_h2c.1.toNat)).map
      (Pdu.encode ∘ link.piece cid r2t src)
    read_many read_into frames.length held frames.flatten =
      .ok (link.pieces_received cid r2t src (chunks.count src.length link.max_h2c.1.toNat), []) := by
  intro frames
  have hfits : ∀ p ∈ (List.range (chunks.count src.length link.max_h2c.1.toNat)).map
      (link.piece cid r2t src), p.Fits := by
    intro p hp
    obtain ⟨k, hk, rfl⟩ := List.mem_map.mp hp
    exact piece_fits (List.mem_range.mp hk)
  have hread := read_many_flatten (fun p hp => read_into_encode (hfits p hp)) held []
  rw [List.append_nil, List.map_map, List.map_map, List.length_map] at hread
  simpa [frames, pieces_received, Function.comp_def] using hread

/-- The pieces answer an R2T for the source exactly when every offset fits its field. -/
theorem answers_pieces_iff {buf : List UInt8} (hsrc : src = slice buf r2t.r2to.toNat r2t.r2tl.toNat) :
    Answers buf cid r2t link.max_h2c.1.toNat
        (link.pieces_received cid r2t src (chunks.count src.length link.max_h2c.1.toNat)) ↔
      ∀ k, k < chunks.count src.length link.max_h2c.1.toNat →
        r2t.r2to.toNat + k * link.max_h2c.1.toNat < 2 ^ 32 := by
  generalize hcount : chunks.count src.length link.max_h2c.1.toNat = n
  have hlength : (link.pieces_received cid r2t src n).length = n := by simp [pieces_received]
  have hget : ∀ k, k < n →
      (link.pieces_received cid r2t src n)[k]? = some (link.piece cid r2t src k).received := by
    intro k hk
    simp [pieces_received, hk]
  have hpiece : ∀ k, k < n →
      (H2cPdu cid r2t link.max_h2c.1.toNat
          (((link.pieces_received cid r2t src n).take k).map Pdu.data).flatten
          (k + 1 = (link.pieces_received cid r2t src n).length)
          (link.piece cid r2t src k).received ↔
        r2t.r2to.toNat + k * link.max_h2c.1.toNat < 2 ^ 32) := by
    intro k hk
    have hbefore := @pieces_before_length link cid r2t src k n hcount.symm hk
    rw [hlength, ← hcount]
    rw [← hcount] at hk hbefore
    exact piece_received_iff hk hbefore
  constructor
  · intro h k hk
    exact (hpiece k hk).mp (h.each k _ (hget k hk))
  · intro h
    refine ⟨?_, ?_⟩
    · rw [pieces_received_data, ← hcount, chunks.pieces_count link.limit_pos, List.drop_zero,
        List.take_length, hsrc]
    · intro k p hp
      have hk : k < n := by
        have := (List.getElem?_eq_some_iff.mp hp).1
        omega
      obtain rfl := Option.some.inj ((hget k hk).symm.trans hp)
      exact (hpiece k hk).mpr (h k hk)

end pieces

/-- An R2T that `send_h2c` answers: it asks for no bytes, or the last piece starts
at an offset of 32 bits and the stream takes the pieces. -/
def Answerable (link : Link) (r2t : R2t) : Prop :=
  0 < r2t.r2tl.toNat →
    r2t.r2to.toNat +
        (r2t.r2tl.toNat - 1) / link.max_h2c.1.toNat * link.max_h2c.1.toNat < 2 ^ 32 ∧
      link.Takes (chunks.count r2t.r2tl.toNat link.max_h2c.1.toNat)

/-- The last offset fits its field exactly when every offset does. -/
theorem offsets_fit_iff (link : Link) {r2t : R2t} (hpos : 0 < r2t.r2tl.toNat) :
    (∀ k, k < chunks.count r2t.r2tl.toNat link.max_h2c.1.toNat →
        r2t.r2to.toNat + k * link.max_h2c.1.toNat < 2 ^ 32) ↔
      r2t.r2to.toNat +
        (r2t.r2tl.toNat - 1) / link.max_h2c.1.toNat * link.max_h2c.1.toNat < 2 ^ 32 := by
  have hlast := chunks.last_start link.limit_pos hpos
  have hcount : 0 < chunks.count r2t.r2tl.toNat link.max_h2c.1.toNat := by
    rw [chunks.lt_count_iff link.limit_pos, Nat.zero_mul]
    exact hpos
  rw [← hlast]
  constructor
  · intro h
    exact h _ (by omega)
  · intro h k hk
    have := Nat.mul_le_mul_right link.max_h2c.1.toNat (Nat.le_sub_one_of_lt hk)
    omega

/-- What the loop sends from the first piece on. -/
theorem answered_after_pieces {link : Link} {cid : UInt16} {r2t : R2t} {src buf : List UInt8}
    (tx : List UInt8) (hsrc : src = slice buf r2t.r2to.toNat r2t.r2tl.toNat) :
    Answered buf cid r2t link (link.after_pieces cid r2t src 0
        (chunks.count src.length link.max_h2c.1.toNat) tx) ↔
      ∀ k, k < chunks.count src.length link.max_h2c.1.toNat →
        r2t.r2to.toNat + k * link.max_h2c.1.toNat < 2 ^ 32 := by
  have hread := pieces_read link cid r2t src
  rw [← @answers_pieces_iff link cid r2t src buf hsrc]
  unfold Answered after_pieces
  rw [List.drop_left, ← List.range_eq_range']
  constructor
  · rintro ⟨pdus, hpdus, hanswers⟩
    have heq := (hread ⟨0, 0, [], []⟩).symm.trans (hpdus ⟨0, 0, [], []⟩)
    rw [Except.ok.injEq, Prod.mk.injEq] at heq
    rw [heq.1]
    exact hanswers
  · intro hanswers
    exact ⟨_, hread, hanswers⟩

theorem answered_iff {checks : Bool} {link : Link} {cid : UInt16} {r2t : R2t} {buf : List UInt8}
    (hin : r2t.r2to.toNat + r2t.r2tl.toNat ≤ buf.length) :
    ((send_h2c checks link cid r2t buf).2 = .ok ∧
        Answered buf cid r2t link (send_h2c checks link cid r2t buf).1) ↔
      link.Answerable r2t := by
  have hlen : (slice buf r2t.r2to.toNat r2t.r2tl.toNat).length = r2t.r2tl.toNat := slice_length hin
  have hlt : (slice buf r2t.r2to.toNat r2t.r2tl.toNat).length < 2 ^ 32 := by
    rw [hlen]
    exact r2t.r2tl.toNat_lt
  have hsend : send_h2c checks link cid r2t buf =
      send_pieces checks cid r2t (slice buf r2t.r2to.toNat r2t.r2tl.toNat) link
        (min (0 * link.max_h2c.1.toNat) (slice buf r2t.r2to.toNat r2t.r2tl.toNat).length) := by
    unfold send_h2c
    rw [if_neg (Nat.not_lt.mpr hin), Nat.add_sub_cancel_left, Nat.zero_mul, Nat.zero_min]
  rw [hsend]
  constructor
  · rintro ⟨hok, hanswered⟩ hpos
    obtain ⟨htakes, hpass⟩ := takes_of_ok link 0 _ hlt (Nat.zero_add _) hok
    obtain ⟨tx, heq⟩ := send_pieces_eq link 0 _ hlt (Nat.zero_add _) htakes
      (fun j hj => hpass j (Nat.zero_le j) hj)
    rw [heq, answered_after_pieces tx rfl, hlen] at hanswered
    rw [hlen] at htakes
    exact ⟨(offsets_fit_iff link hpos).mp hanswered, htakes⟩
  · intro hable
    have hboth : link.Takes (chunks.count r2t.r2tl.toNat link.max_h2c.1.toNat) ∧
        ∀ k, k < chunks.count r2t.r2tl.toNat link.max_h2c.1.toNat →
          r2t.r2to.toNat + k * link.max_h2c.1.toNat < 2 ^ 32 := by
      rcases Nat.eq_zero_or_pos r2t.r2tl.toNat with hzero | hpos
      · rw [hzero, chunks.count_zero]
        exact ⟨fun room _ => Nat.zero_le room, fun k hk => absurd hk (Nat.not_lt_zero k)⟩
      · exact ⟨(hable hpos).2, (offsets_fit_iff link hpos).mpr (hable hpos).1⟩
    rw [← hlen] at hboth
    obtain ⟨htakes, hfit⟩ := hboth
    obtain ⟨tx, heq⟩ := @send_pieces_eq checks cid r2t _ link 0 _ hlt (Nat.zero_add _) htakes
      (fun j hj _ => hfit j (by omega))
    rw [heq]
    exact ⟨rfl, (answered_after_pieces tx rfl).mpr hfit⟩

/-- The stream of H2CData PDUs that `send_h2c` writes reads back as the bytes an R2T
asks for, in order and with matching headers, exactly when the last piece starts
below `2 ^ 32` and the stream takes the pieces; an R2T outside the buffer sends
nothing and is an error. Both hold with and without overflow checks. -/
theorem h2c_data_is_answered_exactly_iff_its_offsets_fit (checks : Bool) (link : Link)
    (cid : UInt16) (r2t : R2t) (buf : List UInt8) :
    (r2t.r2to.toNat + r2t.r2tl.toNat ≤ buf.length →
      (((send_h2c checks link cid r2t buf).2 = .ok ∧
          Answered buf cid r2t link (send_h2c checks link cid r2t buf).1) ↔
        link.Answerable r2t)) ∧
    (buf.length < r2t.r2to.toNat + r2t.r2tl.toNat →
      send_h2c checks link cid r2t buf = (link, .failed .outside)) :=
  ⟨answered_iff, fun h => if_pos h⟩

/-- Three bytes in pieces of one: the least an ICResp can ask for. -/
theorem three_bytes_go_out_one_by_one :
    ∃ (link : Link) (p : Pdu) (r2t : R2t), le32 p.header 16 = 1 ∧
      Link.answered ⟨default_h2c, [], [], none⟩ p = .ok link ∧ r2t.r2tl = 3 ∧
      (send_h2c true link 5 r2t [10, 11, 12, 13]).2 = .ok ∧
        Answered [10, 11, 12, 13] 5 r2t link (send_h2c true link 5 r2t [10, 11, 12, 13]).1 := by
  have h := (h2c_data_is_answered_exactly_iff_its_offsets_fit true
    ⟨⟨1, by decide⟩, [], [], none⟩ 5 ⟨5, 9, 1, 3⟩ [10, 11, 12, 13]).1 (by decide)
  have hable := h.mpr (fun _ => ⟨by decide, fun _ h => nomatch h⟩)
  have hparse : parse_icresp ⟨ICRESP, 0, ((Block.zero 128).put 16 [1] (by decide)).1, []⟩ =
      .ok ⟨0, 1⟩ := by decide +kernel
  refine ⟨_, ⟨ICRESP, 0, ((Block.zero 128).put 16 [1] (by decide)).1, []⟩, _, by decide +kernel, ?_,
    rfl, hable⟩
  unfold answered
  rw [hparse]
  rfl

/-- An R2T whose range crosses `2 ^ 32` in a buffer that holds it: the sum that is
the offset of the second piece overflows. -/
theorem an_offset_past_four_gib_overflows :
    ∃ (link : Link) (p : Pdu) (r2t : R2t) (buf : List UInt8),
      Link.answered ⟨default_h2c, [], [], none⟩ p = .ok link ∧ link.room = none ∧
      r2t.r2to.toNat + r2t.r2tl.toNat ≤ buf.length ∧
      ∀ checks cid, ¬ ((send_h2c checks link cid r2t buf).2 = .ok ∧
        Answered buf cid r2t link (send_h2c checks link cid r2t buf).1) := by
  have hparse : parse_icresp ⟨ICRESP, 0, (Block.zero 128).1, []⟩ = .ok ⟨0, 0⟩ := by
    decide +kernel
  refine ⟨⟨default_h2c, [], [], none⟩, ⟨ICRESP, 0, (Block.zero 128).1, []⟩,
    ⟨5, 9, 4294967295, 65537⟩, List.replicate (2 ^ 32 + 65536) 0, ?_, rfl, ?_, ?_⟩
  · unfold answered
    rw [hparse]
    rfl
  · rw [List.length_replicate]
    decide
  · intro checks cid h
    rw [answered_iff (by rw [List.length_replicate]; decide)] at h
    exact absurd (h (by decide)).1 (by decide)

end Link

end stutools.nvme
