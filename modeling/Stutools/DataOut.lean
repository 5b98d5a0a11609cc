-- The write data of an iSCSI session: the Data-Out PDUs that answer an R2T, with
-- the segment length the target declared at login. They carry the bytes that
-- were asked for exactly when each number fits its field and a piece has bytes.
import Stutools.Chunks
import Stutools.IscsiSession

open bytes

namespace stutools.iscsi

/-! ## What the login accepts -/

/-- A target that does not declare a segment length takes this one. -/
def DEFAULT_MAX_RECV : Nat := 8192

/-- `str::parse::<usize>`: decimal digits after an optional plus sign. -/
def parse_usize (text : List Char) : Option Nat :=
  let digits := if text.head? = some '+' then text.tail else text
  let n := digits.foldl (fun n c => 10 * n + (c.toNat - '0'.toNat)) 0
  if digits ≠ [] ∧ digits.all Char.isDigit ∧ n < 2 ^ 64 then some n else none

/-- `login::value`: the value of the first pair with a key. -/
def value (text : List (List Char × List Char)) (key : List Char) : Option (List Char) :=
  (text.find? (·.1 == key)).map Prod.snd

/-- The `max_recv` of `establish`, from the text of the last login response; none
when the value is not a number. The number is not bounded. -/
def declared_max_recv (text : List (List Char × List Char)) : Option Nat :=
  match value text "MaxRecvDataSegmentLength".toList with
  | some v => parse_usize v
  | none => some DEFAULT_MAX_RECV

/-! ## The answer on the wire -/

/-- The PDUs that take a session from `s` to `t`: each header with the bytes of
the buffer that were read for it. -/
def data_outs (buf : List UInt8) (s t : Session) : List Pdu :=
  List.zipWith (fun pdu touch => ⟨pdu.1, slice buf touch.offset touch.len⟩)
    (t.sent.drop s.sent.length) (t.touched.drop s.touched.length)

/-- One PDU of an answer, after the bytes `before` it and the `k` PDUs that carried
them. -/
structure DataOut (r2t : R2t) (max_recv k : Nat) (before : List UInt8) (last : Prop) (p : Pdu) :
    Prop where
  opcode : byte p.bhs 0 = DATA_OUT
  final : byte p.bhs 1 = TRANSIT ∧ last ∨ byte p.bhs 1 = 0 ∧ ¬ last
  itt : be32 p.bhs 16 = r2t.itt
  ttt : be32 p.bhs 20 = r2t.ttt
  data_sn : (be32 p.bhs 36).toNat = k
  offset : (be32 p.bhs 40).toNat = r2t.offset.toNat + before.length
  length : data_len p.bhs = p.data.length
  segment : p.data.length ≤ max_recv

/-- The PDUs answer the R2T: in order they carry the bytes it asks for, and no others. -/
structure Answers (buf : List UInt8) (r2t : R2t) (max_recv : Nat) (pdus : List Pdu) : Prop where
  bytes : (pdus.map Pdu.data).flatten = slice buf r2t.offset.toNat r2t.desired.toNat
  each : ∀ k p, pdus[k]? = some p →
    DataOut r2t max_recv k ((pdus.take k).map Pdu.data).flatten (k + 1 = pdus.length) p

/-! ## The fields of a header -/

theorem byte_of_field {b : Bhs} {i : Nat} {x : UInt8} (h : b.field i 1 = [x]) : byte b i = x := by
  have hget : (b.field i 1)[0]? = some x := by rw [h]; rfl
  unfold Block.field slice at hget
  rw [List.getElem?_take_of_lt Nat.one_pos, List.getElem?_drop, Nat.add_zero] at hget
  simp [byte, List.getD, hget]

theorem be32_of_field {b : Bhs} {i : Nat} {x : UInt32} (h : b.field i 4 = to_be_bytes x) :
    be32 b i = x := by
  unfold be32
  rw [h, of_be_to_be_bytes, UInt32.ofNat_toNat]

section data_out_header

variable (itt ttt exp_stat_sn data_sn : UInt32) (offset : Nat) (last : Bool) (len : Nat)

theorem data_out_header_opcode :
    byte (data_out_header itt ttt exp_stat_sn data_sn offset last len) 0 = DATA_OUT := by
  apply byte_of_field
  unfold data_out_header
  iterate 7 rw [Block.field_put_left _ _ (by simp)]
  exact Block.field_put_self _ _ (by simp)

theorem data_out_header_final :
    byte (data_out_header itt ttt exp_stat_sn data_sn offset last len) 1 =
      if last then TRANSIT else 0 := by
  apply byte_of_field
  unfold data_out_header
  iterate 6 rw [Block.field_put_left _ _ (by simp)]
  exact Block.field_put_self _ _ (by simp)

theorem data_out_header_data_len :
    data_len (data_out_header itt ttt exp_stat_sn data_sn offset last len) = len % 2 ^ 24 := by
  unfold data_len data_out_header
  iterate 5 rw [Block.field_put_left _ _ (by simp)]
  rw [Block.field_put_self _ _ (by simp), of_be_be]
  rfl

theorem data_out_header_itt :
    be32 (data_out_header itt ttt exp_stat_sn data_sn offset last len) 16 = itt := by
  apply be32_of_field
  unfold data_out_header
  iterate 4 rw [Block.field_put_left _ _ (by simp)]
  exact Block.field_put_self _ _ (by simp)

theorem data_out_header_ttt :
    be32 (data_out_header itt ttt exp_stat_sn data_sn offset last len) 20 = ttt := by
  apply be32_of_field
  unfold data_out_header
  iterate 3 rw [Block.field_put_left _ _ (by simp)]
  exact Block.field_put_self _ _ (by simp)

theorem data_out_header_data_sn :
    be32 (data_out_header itt ttt exp_stat_sn data_sn offset last len) 36 = data_sn := by
  apply be32_of_field
  unfold data_out_header
  rw [Block.field_put_left _ _ (by simp)]
  exact Block.field_put_self _ _ (by simp)

theorem data_out_header_offset :
    (be32 (data_out_header itt ttt exp_stat_sn data_sn offset last len) 40).toNat =
      offset % 2 ^ 32 := by
  unfold be32 data_out_header
  rw [Block.field_put_self _ _ (by simp), of_be_be]
  simp

end data_out_header

/-! ## The loop -/

namespace Session

/-- The stream takes `n` more PDUs. -/
def Takes (s : Session) (n : Nat) : Prop := ∀ room, s.room = some room → n ≤ room

/-- The header of the piece with index `k`. -/
def piece_header (s : Session) (r2t : R2t) (k : Nat) : Bhs :=
  let limit := s.negotiated.max_recv
  let total := r2t.desired.toNat
  data_out_header r2t.itt r2t.ttt s.exp_stat_sn (UInt32.ofNat k) (r2t.offset.toNat + k * limit)
    (r2t.offset.toNat + k * limit + chunks.size total limit k == r2t.offset.toNat + total)
    (chunks.size total limit k)

/-- What the session sends for the piece with index `k`. -/
def piece_sent (s : Session) (r2t : R2t) (k : Nat) : Bhs × Nat :=
  (s.piece_header r2t k, chunks.size r2t.desired.toNat s.negotiated.max_recv k)

/-- What it reads of the command's buffer for that piece. -/
def piece_touch (s : Session) (inf : Inflight) (r2t : R2t) (k : Nat) : Touch :=
  { itt := inf.itt
    tag := inf.tag
    offset := r2t.offset.toNat + k * s.negotiated.max_recv
    len := chunks.size r2t.desired.toNat s.negotiated.max_recv k
    store := false }

/-- The session after `n` more pieces from the one with index `k` on. -/
def after_pieces (s : Session) (inf : Inflight) (r2t : R2t) (k n : Nat) : Session :=
  { s with
    sent := s.sent ++ (List.range' k n).map (s.piece_sent r2t)
    touched := s.touched ++ (List.range' k n).map (s.piece_touch inf r2t)
    room := s.room.map (· - n) }

theorem send_eq {s : Session} (header : Bhs) (len : Nat) (h : s.room ≠ some 0) :
    s.send header len =
      some { s with sent := s.sent ++ [(header, len)], room := s.room.map (· - 1) } := by
  unfold send
  split
  · rename_i h0
    exact absurd h0 h
  · rfl

/-- A turn of the loop that sends its piece. -/
theorem send_pieces_turn {s : Session} {inf : Inflight} {r2t : R2t} {stop offset : Nat}
    (data_sn : UInt32) (hlt : offset < stop) (hmax : 0 < s.negotiated.max_recv)
    (hroom : s.room ≠ some 0) :
    send_pieces inf r2t stop s offset data_sn =
      let n := min (stop - offset) s.negotiated.max_recv
      send_pieces inf r2t stop
        { s with
          sent := s.sent ++ [(data_out_header r2t.itt r2t.ttt s.exp_stat_sn data_sn offset
            (offset + n == stop) n, n)]
          touched := s.touched ++ [Touch.mk inf.itt inf.tag offset n false]
          room := s.room.map (· - 1) } (offset + n) (data_sn + 1) := by
  have hn : min (stop - offset) s.negotiated.max_recv ≠ 0 := by omega
  fun_cases send_pieces inf r2t stop s offset data_sn with
  | case1 _ n header s1 hs =>
    have hroom1 : s1.room ≠ some 0 := hroom
    rw [send_eq header n hroom1] at hs
    cases hs
  | case2 _ n header s1 s2 hs hspin => exact absurd hspin.1 hn
  | case3 _ n header s1 s2 hs =>
    obtain ⟨-, rfl⟩ := send_some hs
    rfl
  | case4 hge => exact absurd hlt hge

/-- A stream that takes nothing more ends the loop. -/
theorem send_pieces_full {s : Session} {inf : Inflight} {r2t : R2t} {stop offset : Nat}
    (data_sn : UInt32) (hlt : offset < stop) (hroom : s.room = some 0) :
    (send_pieces inf r2t stop s offset data_sn).2 = .failed .sending := by
  fun_cases send_pieces inf r2t stop s offset data_sn with
  | case1 => rfl
  | case2 _ n header s1 s2 hs =>
    obtain ⟨hne, -⟩ := send_some hs
    exact absurd hroom hne
  | case3 _ n header s1 s2 hs =>
    obtain ⟨hne, -⟩ := send_some hs
    exact absurd hroom hne
  | case4 hge => exact absurd hlt hge

/-- Pieces of no bytes never reach the end. -/
theorem max_recv_pos_of_more {inf : Inflight} {r2t : R2t} {stop : Nat} (s : Session) (offset : Nat)
    (data_sn : UInt32) (hlt : offset < stop)
    (h : (send_pieces inf r2t stop s offset data_sn).2 = .more) : 0 < s.negotiated.max_recv := by
  fun_induction send_pieces inf r2t stop s offset data_sn with
  | case1 => cases h
  | case2 => cases h
  | case3 s offset data_sn _ n header s1 s2 hs hspin ih =>
    obtain ⟨-, rfl⟩ := send_some hs
    by_contra hzero
    have hmax : s.negotiated.max_recv = 0 := Nat.eq_zero_of_not_pos hzero
    have hn : n = 0 := by simp [n, hmax]
    exact hzero (ih (by omega) h)
  | case4 s offset data_sn hge => exact absurd hlt hge

/-- The session after one piece has the others of `after_pieces` left. -/
theorem after_pieces_succ (s : Session) (inf : Inflight) (r2t : R2t) (k n : Nat) :
    (s.after_pieces inf r2t k 1).after_pieces inf r2t (k + 1) n =
      s.after_pieces inf r2t k (n + 1) := by
  have hroom : (s.room.map (· - 1)).map (· - n) = s.room.map (· - (n + 1)) := by
    rw [Option.map_map]
    congr 1
    funext room
    simp only [Function.comp]
    omega
  have hsent : (s.after_pieces inf r2t k 1).piece_sent r2t = s.piece_sent r2t := rfl
  have htouch : (s.after_pieces inf r2t k 1).piece_touch inf r2t = s.piece_touch inf r2t := rfl
  unfold after_pieces at hsent htouch ⊢
  rw [hsent, htouch]
  simp only [List.range'_succ, hroom, List.range'_zero, List.map_cons, List.map_nil,
    List.append_assoc, List.cons_append, List.nil_append]

/-- A turn of the loop sends the piece with index `k`. -/
theorem send_pieces_piece {inf : Inflight} {r2t : R2t} {s : Session} {k : Nat}
    (hmax : 0 < s.negotiated.max_recv)
    (hk : k < chunks.count r2t.desired.toNat s.negotiated.max_recv) (hroom : s.room ≠ some 0) :
    send_pieces inf r2t (r2t.offset.toNat + r2t.desired.toNat) s
        (r2t.offset.toNat + min (k * s.negotiated.max_recv) r2t.desired.toNat) (UInt32.ofNat k) =
      send_pieces inf r2t (r2t.offset.toNat + r2t.desired.toNat) (s.after_pieces inf r2t k 1)
        (r2t.offset.toNat + min ((k + 1) * s.negotiated.max_recv) r2t.desired.toNat)
        (UInt32.ofNat (k + 1)) := by
  have hlt := (chunks.lt_count_iff hmax).mp hk
  have hmul : (k + 1) * s.negotiated.max_recv = k * s.negotiated.max_recv + s.negotiated.max_recv :=
    Nat.succ_mul k _
  have hsize : min (r2t.offset.toNat + r2t.desired.toNat -
      (r2t.offset.toNat + k * s.negotiated.max_recv)) s.negotiated.max_recv =
        chunks.size r2t.desired.toNat s.negotiated.max_recv k := by
    unfold chunks.size
    omega
  have hnext : r2t.offset.toNat + min ((k + 1) * s.negotiated.max_recv) r2t.desired.toNat =
      r2t.offset.toNat + k * s.negotiated.max_recv +
        chunks.size r2t.desired.toNat s.negotiated.max_recv k := by
    unfold chunks.size
    omega
  have hsn : UInt32.ofNat (k + 1) = UInt32.ofNat k + 1 := UInt32.ofNat_add k 1
  rw [Nat.min_eq_left (Nat.le_of_lt hlt), send_pieces_turn _ (by omega) hmax hroom, hsize, hnext,
    hsn]
  rfl

/-- The loop from the piece with index `k` on, when the stream takes the rest. -/
theorem send_pieces_eq {inf : Inflight} {r2t : R2t} (s : Session) (k n : Nat)
    (hmax : 0 < s.negotiated.max_recv)
    (hn : k + n = chunks.count r2t.desired.toNat s.negotiated.max_recv) (hroom : s.Takes n) :
    send_pieces inf r2t (r2t.offset.toNat + r2t.desired.toNat) s
        (r2t.offset.toNat + min (k * s.negotiated.max_recv) r2t.desired.toNat) (UInt32.ofNat k) =
      (s.after_pieces inf r2t k n, .more) := by
  -- on the pieces that are left; a session that has sent one declares the same
  -- in the header of the next
  induction n generalizing s k with
  | zero =>
    have hdone : ¬ k * s.negotiated.max_recv < r2t.desired.toNat := by
      rw [← chunks.lt_count_iff hmax]
      omega
    rw [send_pieces, dif_neg (by omega)]
    simp [after_pieces]
  | succ n ih =>
    have hroom0 : s.room ≠ some 0 := fun h0 => Nat.not_succ_le_zero n (hroom 0 h0)
    have hroom1 : (s.after_pieces inf r2t k 1).Takes n := by
      intro room hr
      obtain ⟨room', hr', rfl⟩ := Option.map_eq_some_iff.mp hr
      have := hroom room' hr'
      omega
    have hcount : k + 1 + n = chunks.count r2t.desired.toNat s.negotiated.max_recv := by omega
    have hrest := ih (s.after_pieces inf r2t k 1) (k + 1) hmax hcount hroom1
    rw [after_pieces_succ] at hrest
    rw [send_pieces_piece hmax (by omega) hroom0]
    exact hrest

/-- A loop that reaches the end had a stream that takes all of its pieces. -/
theorem takes_of_more {inf : Inflight} {r2t : R2t} (s : Session) (k n : Nat)
    (hmax : 0 < s.negotiated.max_recv)
    (hn : k + n = chunks.count r2t.desired.toNat s.negotiated.max_recv)
    (h : (send_pieces inf r2t (r2t.offset.toNat + r2t.desired.toNat) s
      (r2t.offset.toNat + min (k * s.negotiated.max_recv) r2t.desired.toNat)
      (UInt32.ofNat k)).2 = .more) : s.Takes n := by
  induction n generalizing s k with
  | zero => exact fun room _ => Nat.zero_le room
  | succ n ih =>
    have hcount : k + 1 + n = chunks.count r2t.desired.toNat s.negotiated.max_recv := by omega
    have hlt : k * s.negotiated.max_recv < r2t.desired.toNat := by
      rw [← chunks.lt_count_iff hmax]
      omega
    have hroom0 : s.room ≠ some 0 := by
      intro h0
      rw [send_pieces_full _ (by omega) h0] at h
      cases h
    rw [send_pieces_piece hmax (by omega) hroom0] at h
    have htakes := ih (s.after_pieces inf r2t k 1) (k + 1) hmax hcount h
    intro room hr
    have hpos : room ≠ 0 := fun h0 => hroom0 (by rw [hr, h0])
    have := htakes (room - 1) (by simp [after_pieces, hr])
    omega

/-! ## What the pieces carry -/

/-- The piece with index `k` on the wire. -/
def piece_pdu (s : Session) (buf : List UInt8) (r2t : R2t) (k : Nat) : Pdu :=
  { bhs := s.piece_header r2t k
    data := slice buf (r2t.offset.toNat + k * s.negotiated.max_recv)
      (chunks.size r2t.desired.toNat s.negotiated.max_recv k) }

theorem data_outs_after_pieces (s : Session) (buf : List UInt8) (inf : Inflight) (r2t : R2t)
    (n : Nat) :
    data_outs buf s (s.after_pieces inf r2t 0 n) = (List.range n).map (s.piece_pdu buf r2t) := by
  unfold data_outs after_pieces
  rw [List.drop_left, List.drop_left, ← List.range_eq_range', List.zipWith_map_left,
    List.zipWith_map_right, List.zipWith_self]
  rfl

theorem map_data_piece_pdu (s : Session) (buf : List UInt8) (r2t : R2t) (n : Nat) :
    ((List.range n).map (s.piece_pdu buf r2t)).map Pdu.data =
      chunks.pieces buf r2t.offset.toNat r2t.desired.toNat s.negotiated.max_recv n := by
  rw [List.map_map]
  rfl

/-- A piece is as the answer must have it exactly when its length and its offset
fit their fields. -/
theorem piece_pdu_iff {s : Session} {buf before : List UInt8} {r2t : R2t} {k : Nat}
    (hmax : 0 < s.negotiated.max_recv)
    (hbuf : r2t.offset.toNat + r2t.desired.toNat ≤ buf.length)
    (hk : k < chunks.count r2t.desired.toNat s.negotiated.max_recv)
    (hbefore : before.length = k * s.negotiated.max_recv) :
    DataOut r2t s.negotiated.max_recv k before
        (k + 1 = chunks.count r2t.desired.toNat s.negotiated.max_recv) (s.piece_pdu buf r2t k) ↔
      chunks.size r2t.desired.toNat s.negotiated.max_recv k < 2 ^ 24 ∧
        r2t.offset.toNat + k * s.negotiated.max_recv < 2 ^ 32 := by
  have hend := chunks.end_le hmax hk
  have hends := chunks.ends_iff hmax hk
  have hlen : (s.piece_pdu buf r2t k).data.length =
      chunks.size r2t.desired.toNat s.negotiated.max_recv k := slice_length (by omega)
  have hdata_len : data_len (s.piece_pdu buf r2t k).bhs =
      chunks.size r2t.desired.toNat s.negotiated.max_recv k % 2 ^ 24 :=
    data_out_header_data_len _ _ _ _ _ _ _
  have hoffset : (be32 (s.piece_pdu buf r2t k).bhs 40).toNat =
      (r2t.offset.toNat + k * s.negotiated.max_recv) % 2 ^ 32 :=
    data_out_header_offset _ _ _ _ _ _ _
  constructor
  · intro h
    have hl := h.length
    have ho := h.offset
    rw [hdata_len, hlen] at hl
    rw [hoffset, hbefore] at ho
    rw [← hl, ← ho]
    exact ⟨Nat.mod_lt _ (by decide), Nat.mod_lt _ (by decide)⟩
  · rintro ⟨hl, ho⟩
    have hfinal : byte (s.piece_pdu buf r2t k).bhs 1 =
        if (r2t.offset.toNat + k * s.negotiated.max_recv +
            chunks.size r2t.desired.toNat s.negotiated.max_recv k ==
              r2t.offset.toNat + r2t.desired.toNat) = true then TRANSIT else 0 :=
      data_out_header_final _ _ _ _ _ _ _
    have hsn : k < 2 ^ 32 := by
      have hcount := @chunks.count_le r2t.desired.toNat _ hmax
      have := r2t.desired.toNat_lt
      omega
    refine ⟨data_out_header_opcode _ _ _ _ _ _ _, ?_, data_out_header_itt _ _ _ _ _ _ _,
      data_out_header_ttt _ _ _ _ _ _ _, ?_, ?_, ?_, ?_⟩
    · rw [hfinal]
      by_cases hlast : k + 1 = chunks.count r2t.desired.toNat s.negotiated.max_recv
      · have := hends.mpr hlast
        exact Or.inl ⟨if_pos (by simp; omega), hlast⟩
      · have := hends.not.mpr hlast
        exact Or.inr ⟨if_neg (by simp; omega), hlast⟩
    · have hfield : be32 (s.piece_pdu buf r2t k).bhs 36 = UInt32.ofNat k :=
        data_out_header_data_sn _ _ _ _ _ _ _
      rw [hfield]
      exact Nat.mod_eq_of_lt hsn
    · rw [hoffset, hbefore, Nat.mod_eq_of_lt ho]
    · rw [hdata_len, hlen, Nat.mod_eq_of_lt hl]
    · rw [hlen]
      exact chunks.size_le _ _ _

/-- The bytes before a piece are those of the full pieces before it. -/
theorem before_length {s : Session} {buf : List UInt8} {r2t : R2t} {k n : Nat}
    (hmax : 0 < s.negotiated.max_recv)
    (hbuf : r2t.offset.toNat + r2t.desired.toNat ≤ buf.length)
    (hn : n = chunks.count r2t.desired.toNat s.negotiated.max_recv) (hk : k < n) :
    ((((List.range n).map (s.piece_pdu buf r2t)).take k).map Pdu.data).flatten.length =
      k * s.negotiated.max_recv := by
  have hlt := (chunks.lt_count_iff hmax).mp (hn ▸ hk)
  rw [List.map_take, map_data_piece_pdu, chunks.pieces_take (Nat.le_of_lt hk),
    chunks.pieces_flatten, Nat.min_eq_left (Nat.le_of_lt hlt), List.length_take, List.length_drop]
  omega

/-- The pieces of an answer fit their fields: the longest has a length of 24 bits
and the last starts at an offset of 32. -/
def Fits (s : Session) (r2t : R2t) : Prop :=
  min r2t.desired.toNat s.negotiated.max_recv < 2 ^ 24 ∧
    r2t.offset.toNat + (r2t.desired.toNat - 1) / s.negotiated.max_recv * s.negotiated.max_recv <
      2 ^ 32

theorem answers_pieces_iff {s : Session} {buf : List UInt8} {r2t : R2t}
    (hmax : 0 < s.negotiated.max_recv) (hpos : 0 < r2t.desired.toNat)
    (hbuf : r2t.offset.toNat + r2t.desired.toNat ≤ buf.length) :
    Answers buf r2t s.negotiated.max_recv
        ((List.range (chunks.count r2t.desired.toNat s.negotiated.max_recv)).map
          (s.piece_pdu buf r2t)) ↔
      s.Fits r2t := by
  generalize hcount : chunks.count r2t.desired.toNat s.negotiated.max_recv = n
  have hn : 0 < n := by
    rw [← hcount, chunks.lt_count_iff hmax, Nat.zero_mul]
    exact hpos
  have hlast := chunks.last_start hmax hpos
  rw [hcount] at hlast
  have hlength : ((List.range n).map (s.piece_pdu buf r2t)).length = n := by simp
  have hget : ∀ k, k < n →
      ((List.range n).map (s.piece_pdu buf r2t))[k]? = some (s.piece_pdu buf r2t k) := by
    intro k hk
    simp [hk]
  have hpiece : ∀ k, k < n →
      (DataOut r2t s.negotiated.max_recv k
          ((((List.range n).map (s.piece_pdu buf r2t)).take k).map Pdu.data).flatten
          (k + 1 = ((List.range n).map (s.piece_pdu buf r2t)).length) (s.piece_pdu buf r2t k) ↔
        chunks.size r2t.desired.toNat s.negotiated.max_recv k < 2 ^ 24 ∧
          r2t.offset.toNat + k * s.negotiated.max_recv < 2 ^ 32) := by
    intro k hk
    have hbefore := before_length hmax hbuf hcount.symm hk
    rw [hlength, ← hcount]
    rw [← hcount] at hk hbefore
    exact piece_pdu_iff hmax hbuf hk hbefore
  constructor
  · intro h
    have hfirst := ((hpiece 0 hn).mp (h.each 0 _ (hget 0 hn))).1
    have hfinal := ((hpiece (n - 1) (by omega)).mp (h.each (n - 1) _ (hget (n - 1) (by omega)))).2
    unfold chunks.size at hfirst
    rw [Nat.zero_mul] at hfirst
    rw [hlast] at hfinal
    exact ⟨hfirst, hfinal⟩
  · rintro ⟨hfirst, hfinal⟩
    refine ⟨?_, ?_⟩
    · rw [map_data_piece_pdu, ← hcount]
      exact chunks.pieces_count hmax
    · intro k p hp
      have hk : k < n := by
        have := (List.getElem?_eq_some_iff.mp hp).1
        omega
      obtain rfl := Option.some.inj ((hget k hk).symm.trans hp)
      refine (hpiece k hk).mpr ⟨?_, ?_⟩
      · unfold chunks.size
        omega
      · have := Nat.mul_le_mul_right s.negotiated.max_recv (Nat.le_sub_one_of_lt hk)
        omega

/-- An R2T that `send_write` answers: it asks for no bytes, or the declared segment
length is not zero, the pieces fit their fields and the stream takes them. -/
def Answerable (s : Session) (r2t : R2t) : Prop :=
  0 < r2t.desired.toNat →
    0 < s.negotiated.max_recv ∧ s.Fits r2t ∧
      s.Takes (chunks.count r2t.desired.toNat s.negotiated.max_recv)

theorem send_write_inside {s : Session} {inf : Inflight} {r2t : R2t}
    (h : r2t.offset.toNat + r2t.desired.toNat ≤ inf.len) :
    s.send_write inf r2t =
      send_pieces inf r2t (r2t.offset.toNat + r2t.desired.toNat) s r2t.offset.toNat 0 := by
  unfold send_write
  rw [if_neg (Nat.not_lt.mpr h)]

theorem answers_iff {s : Session} {inf : Inflight} {r2t : R2t} {buf : List UInt8}
    (hbuf : buf.length = inf.len) (h : r2t.offset.toNat + r2t.desired.toNat ≤ inf.len) :
    ((s.send_write inf r2t).2 = .more ∧
        Answers buf r2t s.negotiated.max_recv (data_outs buf s (s.send_write inf r2t).1)) ↔
      s.Answerable r2t := by
  rw [send_write_inside h]
  rcases Nat.eq_zero_or_pos r2t.desired.toNat with hzero | hpos
  · -- nothing is asked for and nothing is sent
    rw [send_pieces, dif_neg (by omega)]
    have hnone : data_outs buf s s = [] := by simp [data_outs]
    have hempty : Answers buf r2t s.negotiated.max_recv [] :=
      ⟨by simp [slice, hzero], by simp⟩
    simp only [hnone, true_and]
    exact ⟨fun _ hpos => absurd hzero (by omega), fun _ => hempty⟩
  · have hstart : r2t.offset.toNat + min (0 * s.negotiated.max_recv) r2t.desired.toNat =
        r2t.offset.toNat := by simp
    constructor
    · rintro ⟨hmore, hanswers⟩ -
      have hmax := max_recv_pos_of_more s _ _ (by omega) hmore
      have htakes := takes_of_more s 0 _ hmax (Nat.zero_add _) (by rw [hstart]; exact hmore)
      have heq := @send_pieces_eq inf r2t s 0 _ hmax (Nat.zero_add _) htakes
      rw [hstart] at heq
      rw [show (0 : UInt32) = UInt32.ofNat 0 from rfl, heq, data_outs_after_pieces] at hanswers
      exact ⟨hmax, (answers_pieces_iff hmax hpos (by omega)).mp hanswers, htakes⟩
    · intro hable
      obtain ⟨hmax, hfits, htakes⟩ := hable hpos
      have heq := @send_pieces_eq inf r2t s 0 _ hmax (Nat.zero_add _) htakes
      rw [hstart] at heq
      rw [show (0 : UInt32) = UInt32.ofNat 0 from rfl, heq, data_outs_after_pieces]
      exact ⟨rfl, (answers_pieces_iff hmax hpos (by omega)).mpr hfits⟩

/-- The Data-Out PDUs that `send_write` sends are the bytes an R2T asks for, in
order and with matching headers, exactly when the declared segment length is not
zero, the pieces fit their fields and the stream takes them; an R2T outside the
buffer sends nothing and is an error. -/
theorem write_data_is_answered_exactly_iff_its_pieces_can_be_sent {s : Session} {inf : Inflight}
    {r2t : R2t} {buf : List UInt8} (hbuf : buf.length = inf.len) :
    (r2t.offset.toNat + r2t.desired.toNat ≤ inf.len →
      (((s.send_write inf r2t).2 = .more ∧
          Answers buf r2t s.negotiated.max_recv (data_outs buf s (s.send_write inf r2t).1)) ↔
        s.Answerable r2t)) ∧
    (inf.len < r2t.offset.toNat + r2t.desired.toNat →
      s.send_write inf r2t =
        (s, .failed (.write_range r2t.offset.toNat r2t.desired.toNat inf.len))) :=
  ⟨answers_iff hbuf, fun h => if_pos h⟩

/-- Five bytes in segments of two: three PDUs. -/
theorem five_bytes_go_out_in_three :
    ∃ (s : Session) (inf : Inflight) (r2t : R2t) (buf : List UInt8), buf.length = inf.len ∧
      declared_max_recv [("MaxRecvDataSegmentLength".toList, "2".toList)] =
        some s.negotiated.max_recv ∧ r2t.desired = 5 ∧
      (s.send_write inf r2t).2 = .more ∧
        Answers buf r2t 2 (data_outs buf s (s.send_write inf r2t).1) := by
  have h := (@write_data_is_answered_exactly_iff_its_pieces_can_be_sent
    ⟨⟨false, false, 2⟩, 1, 1, 1, [], 0, none, [], []⟩ ⟨7, 0, 6, 0, true, none, Block.zero 64, 0⟩
    ⟨7, 9, ⟨1, 1, 1⟩, 1, 5⟩ [10, 11, 12, 13, 14, 15] rfl).1 (by decide)
  have hable := h.mpr (fun _ => ⟨by decide, ⟨by decide, by decide⟩, fun _ h => nomatch h⟩)
  exact ⟨_, _, _, _, rfl, by decide, rfl, hable⟩

/-- A target that declares a segment length of zero is accepted at login, and the
first R2T for a byte of a write is answered with PDUs of no bytes without end. -/
theorem a_segment_length_of_zero_never_ends :
    ∃ (s : Session) (inf : Inflight) (r2t : R2t) (buf : List UInt8), buf.length = inf.len ∧
      declared_max_recv [("MaxRecvDataSegmentLength".toList, "0".toList)] =
        some s.negotiated.max_recv ∧
      r2t.offset.toNat + r2t.desired.toNat ≤ inf.len ∧ s.room = none ∧
      (s.send_write inf r2t).2 = .spins ∧
      ¬ ((s.send_write inf r2t).2 = .more ∧
        Answers buf r2t s.negotiated.max_recv (data_outs buf s (s.send_write inf r2t).1)) := by
  have hspins : (Session.send_write ⟨⟨false, false, 0⟩, 1, 1, 1, [], 0, none, [], []⟩
      ⟨7, 0, 1, 0, true, none, Block.zero 64, 0⟩ ⟨7, 9, ⟨1, 1, 1⟩, 0, 1⟩).2 = .spins := by
    rw [send_write_inside (by decide)]
    exact send_pieces_spins 0 (by decide) rfl rfl
  refine ⟨_, _, _, [10], rfl, by decide, by decide, rfl, hspins, ?_⟩
  rintro ⟨hmore, -⟩
  exact nomatch hspins.symm.trans hmore

end Session

end stutools.iscsi
