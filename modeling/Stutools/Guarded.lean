-- The position table with its 64-bit arithmetic checked: every function of the
-- source again, which stops where an operation would overflow, go below zero,
-- divide by zero or index past the table.
import Stutools.Calls
import Stutools.Uint

namespace stutools

open pattern (random)
open uint

namespace guarded

def draw_len (work : Workload) (rng : UInt64) : Option (Nat × UInt64) := do
  let (x, rng) := random rng
  let ratio ← div work.max_block work.block
  if work.power_sizes then
    let choices ← add 64 (← ilog2 ratio) 1
    let len ← shl 64 work.block (← rem x.toNat choices)
    return (len, rng)
  else
    let len ← mul 64 work.block (← add 64 1 (← rem x.toNat ratio))
    return (len, rng)

/-- `pos * (blocks - 1) / (wanted - 1)` in 128 bits, back in 64, in bytes. -/
def spaced (work : Workload) (blocks wanted pos : Nat) : Option Nat := do
  if wanted ≤ 1 then return 0
  let place ← div (← mul 128 pos (← sub blocks 1)) (← sub wanted 1)
  mul 64 (place % 2 ^ 64) work.block

def draw_offset (work : Workload) (lo hi wanted i len cursor : Nat) (rng : UInt64) :
    Option (Option (Nat × Nat × UInt64)) := do
  let space ← sub (← sub hi lo) len
  let blocks ← add 64 (← div space work.block) 1
  match work.mode with
  | .Sample =>
    let (x, rng) := random rng
    let offset ← mul 64 (← rem x.toNat blocks) work.block
    return some (offset, cursor, rng)
  | .Spaced =>
    let offset ← spaced work blocks wanted i
    return some (offset, cursor, rng)
  | .Alternating =>
    let pos ← if i % 2 = 0 then some (i / 2) else do sub (← sub wanted 1) (i / 2)
    let offset ← spaced work blocks wanted pos
    return some (offset, cursor, rng)
  | .First =>
    let stop ← add 64 cursor len
    if (← sub hi lo) < stop then return none
    return some (cursor, stop, rng)

def draw (work : Workload) (lo hi wanted : Nat) :
    Nat → Nat → Nat → UInt64 → Option (List Request × UInt64)
  | 0, _, _, rng => some ([], rng)
  | n + 1, i, cursor, rng => do
    let (len, rng) ← draw_len work rng
    match ← draw_offset work lo hi wanted i len cursor rng with
    | none => return ([], rng)
    | some (offset, cursor, rng) =>
      let (write, rng) := positions.draw_write work rng
      let place ← add 64 lo offset
      let (rest, rng) ← draw work lo hi wanted n (i + 1) cursor rng
      return ({ Request.default with offset := place, len := len, write := write } :: rest, rng)

/-- `lo + ((offset - lo) / block + shift) % slots * block`. -/
def rotated (block lo hi shift : Nat) (r : Request) : Option Request := do
  let slots ← add 64 (← div (← sub (← sub hi lo) r.len) block) 1
  let place ← add 64 (← div (← sub r.offset lo) block) shift
  let offset ← add 64 lo (← mul 64 (← rem place slots) block)
  return { r with offset := offset }

def rotate (work : Workload) (lo hi : Nat) (entries : List Request) (rng : UInt64) :
    Option (List Request × UInt64) := do
  if work.from_zero then return (entries, rng)
  let (x, rng) := random rng
  let shift ← rem x.toNat (← div (← sub hi lo) work.block)
  let entries ← entries.mapM (rotated work.block lo hi shift)
  return (entries, rng)

/-- `swap` stops at an index past the table. -/
def swapped (s : List Request × UInt64) (i : Nat) : Option (List Request × UInt64) := do
  let (x, rng) := random s.2
  let j ← rem x.toNat (← add 64 i 1)
  if i < s.1.length ∧ j < s.1.length then return (vec.swap s.1 i j, rng) else none

def jumbled (probability : ℚ) (s : List Request × UInt64) (i : Nat) :
    Option (List Request × UInt64) :=
  let (x, rng) := random s.2
  if probability ≤ positions.fraction x then swapped (s.1, rng) i else some (s.1, rng)

/-- The bytes of one `Request`. -/
def request_size : Nat := 24

/-- The entries of a generated table. The table is allocated first, and an allocation
is at most `isize::MAX` bytes. -/
def generated (work : Workload) (lo hi : Nat) (seed : UInt64) (capacity : Nat) :
    Option (List Request × UInt64) := do
  if 2 ^ 63 - 1 < capacity * request_size then none
  let wanted := min (work.positions.getD capacity) capacity
  let (entries, rng) ← draw work lo hi wanted wanted 0 0 seed
  let (entries, rng) ← rotate work lo hi entries rng
  let probability := min |work.sequential| 1
  if probability < 1 then
    (positions.downTo (entries.length - 1)).foldlM (jumbled probability) (entries, rng)
  else return (entries, rng)

/-- `Positions::new` with nothing loaded. -/
def new (work : Workload) (lo hi : Nat) (seed : UInt64) (capacity : Nat) :
    Option (Except String Positions) := do
  let (entries, rng) ← generated work lo hi seed capacity
  if h : entries = [] then return .error "no positions fit the worker range"
  else
    return .ok
      { entries := positions.numbered work seed entries
        rng := rng
        pass := 0
        lo := lo
        hi := hi
        work := work
        pending_checks := 0
        entries_pos := positions.numbered_pos work seed h }

def len (p : Positions) : Option Nat := mul 64 p.entries.length (if p.work.verify then 2 else 1)

/-- The cast of `sequential` to a count saturates. -/
def striped (p : Positions) (pos : Nat) : Option Nat := do
  let n := p.entries.length
  let stripes := min (max (min ⌊|p.work.sequential|⌋.toNat (2 ^ 64 - 1)) 1) n
  if 1 < stripes then
    let rows ← div n stripes
    let extra ← rem n stripes
    let full ← mul 64 rows stripes
    if pos < full then
      let stripe ← rem pos stripes
      add 64 (← add 64 (← mul 64 stripe rows) (min stripe extra)) (← div pos stripes)
    else
      let stop ← mul 64 (← add 64 (← sub pos full) 1) (← add 64 rows 1)
      sub stop 1
  else return pos

/-- The place of a slot of the pass, and whether the slot is a check. -/
def located (p : Positions) (loc : Nat) : Option (Nat × Bool) :=
  if p.work.unique_verify then some (loc / 2, loc % 2 == 1)
  else do
    let pos ← rem loc p.entries.length
    return (pos, p.work.verify && decide (p.entries.length ≤ loc))

def mapped (p : Positions) (index : Nat) : Option (Nat × Bool) := do
  let (pos, check) ← located p (← rem index (← len p))
  let pos ← striped p pos
  if p.work.sequential < 0 then return (← sub (← sub p.entries.length 1) pos, check)
  else return (pos, check)

def shifted (p : Positions) (r : Request) (pass : Nat) : Option Request := do
  if p.work.shift then
    let slots ← add 64 (← div (← sub (← sub p.hi p.lo) r.len) p.work.block) 1
    let place ← add 64 (← div (← sub r.offset p.lo) p.work.block) (← rem pass slots)
    let offset ← add 64 p.lo (← mul 64 (← rem place slots) p.work.block)
    return { r with offset := offset }
  else return r

/-- The swaps of another pass, and the table it starts with. -/
def enter_pass (p : Positions) (pass : Nat) : Option Positions := do
  if pass ≠ p.pass ∧ p.work.shuffle = true then
    let _ ← (positions.downTo (p.entries.length - 1)).foldlM swapped (p.entries, p.rng)
  return p.enter_pass pass

def request_at (p : Positions) (pos : Nat) (check : Bool) (pass : Nat) : Option Request := do
  let r ← p.entries[pos]?
  let r := { r with verify := check && r.write, write := if check then false else r.write }
  let r := if p.work.alternate ∧ pass % 2 = 1 then { r with write := !r.write } else r
  shifted p r pass

def get (p : Positions) (index : Nat) : Option (Request × Positions) := do
  let pass ← div index (← len p)
  let p ← enter_pass p pass
  let (pos, check) ← mapped p index
  let r ← request_at p pos check pass
  return (r, p)

def written (p : Positions) (index : Nat) : Option Positions := do
  let (pos, _) ← mapped p index
  let r ← p.entries[pos]?
  if r.verify then return p
  let count ← add 64 p.pending_checks 1
  return { p.set_verify pos true with pending_checks := count }

def checked (p : Positions) (index : Nat) : Option Positions := do
  let (pos, _) ← mapped p index
  let r ← p.entries[pos]?
  if r.verify then
    let count ← sub p.pending_checks 1
    return { p.set_verify pos false with pending_checks := count }
  else return p

def take_pending_check_from : Nat → Positions → Nat → Option (Option Request × Nat × Positions)
  | 0, p, cursor => some (none, cursor, p)
  | n + 1, p, cursor => do
    if p.pending_checks = 0 ∨ p.entries.length ≤ cursor then return (none, cursor, p)
    let next ← add 64 cursor 1
    let request ← p.entries[cursor]?
    if request.verify then
      let count ← sub p.pending_checks 1
      let p := { p.set_verify cursor false with pending_checks := count }
      let r ← shifted p { request with write := false, verify := true } p.pass
      return (some r, next, p)
    else take_pending_check_from n p next

/-- One call, if nothing in it is refused. -/
def call (p : Positions) : Positions.Call → Option (Option Request × Positions)
  | .get index => do
    let (r, q) ← get p index
    return (some r, q)
  | .written index => do return (none, ← written p index)
  | .checked index => do return (none, ← checked p index)
  | .take_pending_check cursor => do
    let (o, _, q) ← take_pending_check_from (p.entries.length - cursor) p cursor
    return (o, q)

/-- The requests that the calls return, and the table after them. -/
def calls (p : Positions) : List Positions.Call → Option (List Request × Positions)
  | [] => some ([], p)
  | c :: cs => do
    let (o, q) ← call p c
    let (rs, q) ← calls q cs
    return (o.toList ++ rs, q)

/-! ## The entries that are drawn -/

variable {work : Workload} {lo hi : Nat}

theorem draw_len_eq (hb : 0 < work.block) (hm : work.block ≤ work.max_block)
    (hmax : work.max_block < 2 ^ 64) (rng : UInt64) :
    draw_len work rng = some (positions.draw_len work rng) := by
  have hle := (positions.draw_len_le hb hm rng).1
  have hq : 0 < work.max_block / work.block := Nat.div_pos hm hb
  have hqmax : work.max_block / work.block < 2 ^ 64 := Nat.lt_of_le_of_lt (Nat.div_le_self _ _) hmax
  have hlog : Nat.log2 (work.max_block / work.block) < 64 := (Nat.log2_lt (by omega)).mpr hqmax
  unfold draw_len
  unfold positions.draw_len at hle ⊢
  generalize random rng = drawn at hle ⊢
  obtain ⟨x, rng'⟩ := drawn
  have hmod := Nat.mod_lt x.toNat hq
  have hpow : 0 < Nat.log2 (work.max_block / work.block) + 1 := Nat.succ_pos _
  have hmod' := Nat.mod_lt x.toNat hpow
  simp only [Option.bind_eq_bind]
  rw [div_eq hb, Option.bind_some]
  dsimp only at hle ⊢
  split_ifs at hle ⊢
  · rw [ilog2_eq hq, Option.bind_some, add_eq (by omega), Option.bind_some, rem_eq hpow,
      Option.bind_some, shl_eq (by omega) (by omega)]
    rfl
  · rw [rem_eq hq, Option.bind_some, add_eq (by omega), Option.bind_some, mul_eq (by omega)]
    rfl

theorem spaced_eq {space wanted pos : Nat} (hspace : space < 2 ^ 64)
    (hpos : pos < wanted) (hw : wanted < 2 ^ 64) :
    spaced work (space / work.block + 1) wanted pos =
      some (if wanted ≤ 1 then 0
        else pos * (space / work.block + 1 - 1) / (wanted - 1) * work.block) := by
  unfold spaced
  split_ifs with hone
  · rfl
  · have hq : space / work.block < 2 ^ 64 := Nat.lt_of_le_of_lt (Nat.div_le_self _ _) hspace
    have hprod : pos * (space / work.block) < 2 ^ 128 :=
      calc pos * (space / work.block) < 2 ^ 64 * 2 ^ 64 :=
            Nat.mul_lt_mul'' (by omega) hq
        _ = 2 ^ 128 := by norm_num
    have hle : pos * (space / work.block) / (wanted - 1) ≤ space / work.block :=
      @positions.spaced_le pos (space / work.block + 1) wanted hpos hone
    have hbytes : pos * (space / work.block) / (wanted - 1) * work.block ≤ space :=
      Nat.le_trans (Nat.mul_le_mul_right _ hle) (Nat.div_mul_le_self _ _)
    simp only [Option.bind_eq_bind]
    rw [sub_eq (Nat.le_add_left 1 _), Option.bind_some, Nat.add_sub_cancel, mul_eq hprod, Option.bind_some,
      sub_eq (by omega), Option.bind_some, div_eq (by omega), Option.bind_some,
      Nat.mod_eq_of_lt (by omega), mul_eq (by omega)]

theorem draw_offset_eq {wanted i len cursor : Nat} (hb : 0 < work.block) (hhi : hi < 2 ^ 64)
    (hlen : len ≤ hi - lo) (hlen0 : 0 < len) (hi' : i < wanted) (hw : wanted < 2 ^ 64)
    (hcursor : work.mode = .First → cursor + len < 2 ^ 64) (rng : UInt64) :
    draw_offset work lo hi wanted i len cursor rng =
      some (positions.draw_offset work (hi - lo) wanted i len cursor rng) := by
  have hq : (hi - lo - len) / work.block ≤ hi - lo - len := Nat.div_le_self _ _
  have hblocks : 0 < (hi - lo - len) / work.block + 1 := Nat.succ_pos _
  unfold draw_offset positions.draw_offset
  simp only [Option.bind_eq_bind]
  rw [sub_eq (by omega), Option.bind_some, sub_eq hlen, Option.bind_some, div_eq hb,
    Option.bind_some, add_eq (by omega), Option.bind_some]
  cases hmode : work.mode with
  | Sample =>
    generalize random rng = drawn
    obtain ⟨x, rng'⟩ := drawn
    have hplace := Nat.mod_lt x.toNat hblocks
    have hfits := positions.block_fits hlen (Nat.lt_succ_iff.mp hplace)
    simp only
    rw [rem_eq hblocks, Option.bind_some, mul_eq (by omega)]
    rfl
  | Spaced =>
    simp only
    rw [spaced_eq (by omega) hi' hw]
    rfl
  | Alternating =>
    by_cases heven : i % 2 = 0
    · simp only [heven, if_true, Option.bind_some]
      rw [spaced_eq (by omega) (by omega) hw]
      rfl
    · simp only [heven, if_false]
      rw [sub_eq (by omega), Option.bind_some, sub_eq (by omega), Option.bind_some,
        spaced_eq (by omega) (by omega) hw]
      rfl
  | First =>
    simp only
    rw [add_eq (hcursor hmode), Option.bind_some, Option.bind_some]
    split_ifs <;> rfl

theorem draw_offset_cursor {span wanted i len cursor : Nat} {rng rng' : UInt64}
    {offset cursor' : Nat}
    (h : positions.draw_offset work span wanted i len cursor rng = some (offset, cursor', rng')) :
    cursor' = cursor ∨ (cursor' = cursor + len ∧ cursor + len ≤ span) := by
  unfold positions.draw_offset at h
  cases hmode : work.mode with
  | First =>
    simp only [hmode] at h
    split_ifs at h with hroom
    cases h
    exact .inr ⟨rfl, by omega⟩
  | _ =>
    simp only [hmode, Option.some.injEq, Prod.mk.injEq] at h
    exact .inl h.2.1.symm

/-- The sum of the lengths drawn stays in 64 bits: the range ends early enough, or
the table is too small to get there. -/
def CursorFits (work : Workload) (lo hi wanted : Nat) : Prop :=
  work.mode = .First → hi - lo + work.max_block < 2 ^ 64 ∨ wanted * work.max_block < 2 ^ 64

theorem draw_eq {wanted : Nat} (hb : 0 < work.block) (hm : work.block ≤ work.max_block)
    (hfit : work.max_block ≤ hi - lo) (hhi : hi < 2 ^ 64) (hw : wanted < 2 ^ 64)
    (hF : CursorFits work lo hi wanted) (n i cursor : Nat) (rng : UInt64) (hn : i + n ≤ wanted)
    (hd : work.block ∣ cursor) (hc : cursor ≤ hi - lo) (hci : cursor ≤ i * work.max_block) :
    draw work lo hi wanted n i cursor rng = some (positions.draw work lo hi wanted n i cursor rng) := by
  induction n generalizing i cursor rng with
  | zero => rfl
  | succ n ih =>
    have hlen := (positions.draw_len_le hb hm rng).1
    have hlen0 := positions.block_le_draw_len work rng
    have hdvd := positions.draw_len_dvd work rng
    unfold draw positions.draw
    simp only [Option.bind_eq_bind]
    rw [draw_len_eq hb hm (by omega), Option.bind_some]
    generalize positions.draw_len work rng = drawn at hlen hlen0 hdvd
    obtain ⟨len, rng'⟩ := drawn
    have hnext : (i + 1) * work.max_block = i * work.max_block + work.max_block := Nat.succ_mul _ _
    have hsum : work.mode = .First → cursor + len < 2 ^ 64 := by
      intro hmode
      rcases hF hmode with hF | hF
      · omega
      · have := Nat.mul_le_mul_right work.max_block (show i + 1 ≤ wanted by omega)
        omega
    dsimp only at hlen hlen0 hdvd ⊢
    have hiw : i < wanted := by omega
    rw [draw_offset_eq hb hhi (by omega) (by omega) hiw hw hsum, Option.bind_some]
    cases hoff : positions.draw_offset work (hi - lo) wanted i len cursor rng' with
    | none => rfl
    | some placed =>
      obtain ⟨offset, cursor', rng''⟩ := placed
      obtain ⟨h1, _, h3⟩ := positions.draw_offset_placed (by omega) hiw hd hdvd hoff
      have hcursor' := draw_offset_cursor hoff
      dsimp only
      rw [add_eq (by omega), Option.bind_some,
        ih (i + 1) cursor' _ (by omega) h3 (by omega) (by omega), Option.bind_some]
      rfl

/-- The mode lays the positions out from the beginning of the range, one behind the other or
a single one. -/
def Near (work : Workload) (wanted : Nat) : Prop :=
  work.mode = .First ∨ work.mode ≠ .Sample ∧ wanted ≤ 1

theorem draw_offset_near {span wanted i len cursor : Nat} {rng rng' : UInt64} {offset cursor' : Nat}
    (hnear : Near work wanted)
    (h : positions.draw_offset work span wanted i len cursor rng = some (offset, cursor', rng')) :
    offset = cursor ∨ offset = 0 := by
  unfold positions.draw_offset at h
  cases hmode : work.mode with
  | Sample => rcases hnear with hfirst | ⟨hsample, -⟩ <;> simp_all
  | First =>
    simp only [hmode] at h
    split_ifs at h
    cases h
    exact .inl rfl
  | Spaced | Alternating =>
    have hone : wanted ≤ 1 := by
      rcases hnear with hfirst | ⟨-, hone⟩
      · rw [hmode] at hfirst
        cases hfirst
      · exact hone
    simp only [hmode, hone, if_true, Option.some.injEq, Prod.mk.injEq] at h
    exact .inr h.1.symm

/-- Such positions are no further on than their lengths take them. -/
theorem draw_near {wanted : Nat} (hb : 0 < work.block) (hm : work.block ≤ work.max_block)
    (hnear : Near work wanted) (n i cursor : Nat) (rng : UInt64) (hn : i + n ≤ wanted)
    (hci : cursor ≤ i * work.max_block) :
    ∀ e ∈ (positions.draw work lo hi wanted n i cursor rng).1,
      e.offset - lo ≤ (wanted - 1) * work.max_block := by
  induction n generalizing i cursor rng with
  | zero => simp [positions.draw]
  | succ n ih =>
    have hlen := (positions.draw_len_le hb hm rng).1
    intro e he
    unfold positions.draw at he
    dsimp only at he
    split at he
    · cases he
    · rename_i offset cursor' rng' hoff
      have hfar : i * work.max_block ≤ (wanted - 1) * work.max_block :=
        Nat.mul_le_mul_right _ (by omega)
      have hcursor' := draw_offset_cursor hoff
      have hnext : (i + 1) * work.max_block = i * work.max_block + work.max_block := Nat.succ_mul _ _
      rcases List.mem_cons.mp he with rfl | he
      · show lo + offset - lo ≤ _
        rcases draw_offset_near hnear hoff with rfl | rfl <;> omega
      · exact ih (i + 1) cursor' _ (by omega) (by omega) e he

/-! ## The rotation and the swaps -/

/-- Two block numbers of the range: their sum stays in 64 bits. -/
def SumsFit (work : Workload) (lo hi : Nat) : Prop := work.block = 1 → hi - lo ≤ 2 ^ 63

theorem SumsFit.sum (h : SumsFit work lo hi) (hb : 0 < work.block) (hhi : hi < 2 ^ 64) {a b : Nat}
    (ha : a ≤ (hi - lo - 1) / work.block) (hb' : b ≤ (hi - lo - 1) / work.block) :
    a + b < 2 ^ 64 := by
  have hhalf : (hi - lo - 1) / work.block < 2 ^ 63 := by
    by_cases hone : work.block = 1
    · have := h hone
      rw [hone, Nat.div_one]
      omega
    · have htwo : (hi - lo - 1) / work.block ≤ (hi - lo - 1) / 2 :=
        Nat.div_le_div_left (by omega) (by omega)
      omega
  omega

theorem rotated_eq {r : Request} {shift : Nat} (hb : 0 < work.block) (hhi : hi < 2 ^ 64)
    (h : Placed work lo hi r.offset r.len) (hlen : 0 < r.len)
    (hsum : (r.offset - lo) / work.block + shift < 2 ^ 64) :
    rotated work.block lo hi shift r = some (positions.rotated work.block lo hi shift r) := by
  obtain ⟨h1, h2, _⟩ := h
  have hq : (hi - lo - r.len) / work.block ≤ hi - lo - r.len := Nat.div_le_self _ _
  have hslots : 0 < (hi - lo - r.len) / work.block + 1 := Nat.succ_pos _
  have hplace := Nat.mod_lt ((r.offset - lo) / work.block + shift) hslots
  have hfits := @positions.block_fits work (hi - lo) _ _ (by omega)
    (Nat.lt_succ_iff.mp hplace)
  unfold rotated positions.rotated
  simp only [Option.bind_eq_bind]
  rw [sub_eq (by omega), Option.bind_some, sub_eq (by omega), Option.bind_some, div_eq hb,
    Option.bind_some, add_eq (by omega), Option.bind_some, sub_eq h1, Option.bind_some, div_eq hb,
    Option.bind_some, add_eq hsum, Option.bind_some, rem_eq hslots, Option.bind_some,
    mul_eq (by omega), Option.bind_some, add_eq (by omega)]
  rfl

theorem rotate_eq {entries : List Request} (hb : 0 < work.block) (hhi : hi < 2 ^ 64)
    (hspan : work.block ≤ hi - lo)
    (h : ∀ e ∈ entries, Placed work lo hi e.offset e.len ∧ 0 < e.len)
    (hS : work.from_zero = false → ∀ e ∈ entries,
      (e.offset - lo) / work.block + (hi - lo - 1) / work.block < 2 ^ 64) (rng : UInt64) :
    rotate work lo hi entries rng = some (positions.rotate work lo hi entries rng) := by
  unfold rotate positions.rotate
  split_ifs with hz
  · rfl
  · generalize random rng = drawn
    obtain ⟨x, rng'⟩ := drawn
    have hblocks : 0 < (hi - lo) / work.block := Nat.div_pos hspan hb
    have hmod := Nat.mod_lt x.toNat hblocks
    have hshift : x.toNat % ((hi - lo) / work.block) ≤ (hi - lo - 1) / work.block := by
      have hle : (hi - lo - work.block) / work.block ≤ (hi - lo - 1) / work.block :=
        Nat.div_le_div_right (by omega)
      rw [Nat.div_eq_sub_div hb hspan] at hmod ⊢
      omega
    have hmap : entries.mapM (rotated work.block lo hi (x.toNat % ((hi - lo) / work.block))) =
        some (entries.map
          (positions.rotated work.block lo hi (x.toNat % ((hi - lo) / work.block)))) := by
      apply mapM_eq
      intro e he
      obtain ⟨hplaced, hlen⟩ := h e he
      have hsum := hS (by simpa using hz) e he
      exact rotated_eq hb hhi hplaced hlen (by omega)
    simp only [Option.bind_eq_bind]
    rw [sub_eq (by omega), Option.bind_some, div_eq hb, Option.bind_some, rem_eq hblocks,
      Option.bind_some, hmap]
    rfl

theorem swapped_eq {s : List Request × UInt64} {i : Nat} (hi : i < s.1.length)
    (hs : s.1.length < 2 ^ 64) : swapped s i = some (positions.swapped s i) := by
  unfold swapped positions.swapped
  generalize random s.2 = drawn
  obtain ⟨x, rng'⟩ := drawn
  have hj := Nat.mod_lt x.toNat (Nat.succ_pos i)
  simp only [Option.bind_eq_bind]
  rw [add_eq (by omega), Option.bind_some, rem_eq (Nat.succ_pos i), Option.bind_some,
    if_pos ⟨hi, by omega⟩]
  rfl

theorem jumbled_eq {s : List Request × UInt64} {i : Nat} (probability : ℚ) (hi : i < s.1.length)
    (hs : s.1.length < 2 ^ 64) :
    jumbled probability s i = some (positions.jumbled probability s i) := by
  unfold jumbled positions.jumbled
  dsimp only
  split_ifs
  · exact swapped_eq hi hs
  · rfl

theorem mem_downTo {n i : Nat} : i ∈ positions.downTo n ↔ 1 ≤ i ∧ i ≤ n := by
  unfold positions.downTo
  rw [List.mem_reverse, List.mem_range'_1]
  omega

/-- A loop of swaps over the whole table. -/
theorem downTo_eq {g : List Request × UInt64 → Nat → Option (List Request × UInt64)}
    {f : List Request × UInt64 → Nat → List Request × UInt64} (s : List Request × UInt64)
    (hs : s.1.length < 2 ^ 64) (hf : ∀ t i, (f t i).1.Perm t.1)
    (hg : ∀ t i, i < t.1.length → t.1.length < 2 ^ 64 → g t i = some (f t i)) :
    (positions.downTo (s.1.length - 1)).foldlM g s =
      some ((positions.downTo (s.1.length - 1)).foldl f s) := by
  apply foldlM_eq (I := fun t => t.1.length = s.1.length)
  · intro t ht i hi
    obtain ⟨h1, h2⟩ := mem_downTo.mp hi
    exact ⟨hg t i (by omega) (by omega), by rw [(hf t i).length_eq, ht]⟩
  · rfl

/-- The entries that a worker asks for. -/
def wanted (work : Workload) (capacity : Nat) : Nat := min (work.positions.getD capacity) capacity

/-- What a worker asks of its table for the arithmetic to stay in 64 bits: it can be
allocated, and the sums of lengths, of places and rotations, and of places and shifts, fit. -/
structure Fits (work : Workload) (lo hi capacity : Nat) : Prop where
  table : capacity * request_size ≤ 2 ^ 63 - 1
  cursor : CursorFits work lo hi (wanted work capacity)
  rotation : work.from_zero = false → SumsFit work lo hi ∨ Near work (wanted work capacity) ∧
    (wanted work capacity - 1) * work.max_block + (hi - lo) ≤ 2 ^ 64
  shifts : work.shift = true → SumsFit work lo hi

/-- It does on every range whose end is an `i64`. -/
theorem Fits.of_signed {capacity : Nat} (htable : capacity * request_size ≤ 2 ^ 63 - 1)
    (hfit : work.max_block ≤ hi - lo) (hhi : hi ≤ 2 ^ 63 - 1) : Fits work lo hi capacity :=
  ⟨htable, fun _ => .inl (by omega), fun _ => .inl fun _ => by omega, fun _ _ => by omega⟩

/-- The rotation of a drawn place fits. -/
theorem Fits.rotation_sum {capacity : Nat} (hF : Fits work lo hi capacity) (hb : 0 < work.block)
    (hhi : hi < 2 ^ 64) (hz : work.from_zero = false) {e : Request}
    (hplaced : Placed work lo hi e.offset e.len) (hlen : 0 < e.len)
    (hnear : Near work (wanted work capacity) →
      e.offset - lo ≤ (wanted work capacity - 1) * work.max_block) :
    (e.offset - lo) / work.block + (hi - lo - 1) / work.block < 2 ^ 64 := by
  rcases hF.rotation hz with hS | ⟨hmode, hsum⟩
  · refine hS.sum hb hhi ?_ (Nat.le_refl _)
    have := hplaced.le_hi
    exact Nat.div_le_div_right (by omega)
  · have hoffset : (e.offset - lo) / work.block ≤ e.offset - lo := Nat.div_le_self _ _
    have hspan : (hi - lo - 1) / work.block ≤ hi - lo - 1 := Nat.div_le_self _ _
    have := hnear hmode
    have := hplaced.le_hi
    have := hplaced.lo_le
    omega

theorem generated_eq {capacity : Nat} (hb : 0 < work.block) (hm : work.block ≤ work.max_block)
    (hfit : work.max_block ≤ hi - lo) (hhi : hi < 2 ^ 64) (hF : Fits work lo hi capacity)
    (seed : UInt64) :
    generated work lo hi seed capacity = some (positions.generated work lo hi seed capacity) := by
  have htable := hF.table
  have hwanted : wanted work capacity ≤ capacity := Nat.min_le_right _ _
  have hcursor := hF.cursor
  have hrotation {e : Request} := @Fits.rotation_sum work lo hi capacity hF hb hhi (e := e)
  unfold request_size at htable
  unfold generated positions.generated
  dsimp only
  rw [show min (work.positions.getD capacity) capacity = wanted work capacity from rfl]
  generalize wanted work capacity = wanted at hwanted hcursor hrotation
  have hdraw := draw_eq hb hm hfit hhi (by omega) hcursor wanted 0 0 seed (by omega)
    (Nat.dvd_zero _) (by omega) (by omega)
  have hplaced := positions.draw_placed hb hm hfit wanted wanted 0 0 seed (by omega)
    (Nat.dvd_zero _)
  have hnear := fun h => @draw_near work lo hi wanted hb hm h wanted 0 0 seed (by omega) (by omega)
  have hlens := positions.draw_lens (positions.block_le_draw_len work) lo hi wanted wanted 0 0 seed
  have hlength := positions.draw_length_le work lo hi wanted wanted 0 0 seed
  generalize positions.draw work lo hi wanted wanted 0 0 seed = drawn
    at hdraw hplaced hnear hlens hlength
  have hpositive : ∀ e ∈ drawn.1, 0 < e.len := fun e he => by have := hlens e he; omega
  have hrot := rotate_eq hb hhi (by omega) (fun e he => ⟨hplaced e he, hpositive e he⟩)
    (fun hz e he => hrotation hz (hplaced e he) (hpositive e he) fun h => hnear h e he) drawn.2
  have hrotlen : (positions.rotate work lo hi drawn.1 drawn.2).1.length = drawn.1.length := by
    unfold positions.rotate
    split_ifs
    · rfl
    · exact List.length_map _
  generalize positions.rotate work lo hi drawn.1 drawn.2 = turned at hrot hrotlen
  simp only [Option.bind_eq_bind]
  rw [if_neg (by unfold request_size; omega), hdraw]
  simp only [Option.bind_some]
  rw [hrot]
  simp only [Option.bind_some]
  split_ifs
  · exact downTo_eq turned (by omega) (positions.jumbled_perm _)
      fun t i hi ht => jumbled_eq _ hi ht
  · rfl

theorem new_eq {capacity : Nat} (hb : 0 < work.block) (hm : work.block ≤ work.max_block)
    (hfit : work.max_block ≤ hi - lo) (hhi : hi < 2 ^ 64) (hF : Fits work lo hi capacity)
    (seed : UInt64) :
    new work lo hi seed capacity = some (Positions.new work lo hi seed capacity []) := by
  unfold new Positions.new
  rw [generated_eq hb hm hfit hhi hF seed]
  generalize positions.generated work lo hi seed capacity = drawn
  obtain ⟨entries, rng⟩ := drawn
  by_cases h : entries = []
  · simp [h]
  · simp [h]

/-! ## The calls -/

/-- What the calls find: a table that is small enough, every extent in the range and of
a length that may be drawn, and as many marks as it counts. -/
structure Ready (work : Workload) (lo hi : Nat) (p : Positions) : Prop where
  work_eq : p.work = work
  lo_eq : p.lo = lo
  hi_eq : p.hi = hi
  small : p.entries.length * 2 < 2 ^ 64
  extents : Positions.All (Drawn work lo hi) p
  counted : p.Counted

variable {p : Positions}

theorem len_eq (h : p.entries.length * 2 < 2 ^ 64) : len p = some p.len := by
  unfold len Positions.len
  split_ifs
  · exact mul_eq h
  · exact mul_eq (by omega)

theorem striped_exact (h : p.entries.length * 2 < 2 ^ 64) {pos : Nat}
    (hpos : pos < p.entries.length) : striped p pos = some (p.striped pos) := by
  have hlt := p.striped_lt hpos
  have hstripes : min (max (min ⌊|p.work.sequential|⌋.toNat (2 ^ 64 - 1)) 1) p.entries.length =
      p.stripes := by
    unfold Positions.stripes
    omega
  unfold striped
  unfold Positions.striped at hlt ⊢
  dsimp only at hlt ⊢
  rw [hstripes]
  rw [show min (max ⌊|p.work.sequential|⌋.toNat 1) p.entries.length = p.stripes from rfl] at hlt ⊢
  generalize p.stripes = k at hlt
  generalize p.entries.length = n at h hpos hlt
  by_cases hk : 1 < k
  · have hfull : n / k * k ≤ n := Nat.div_mul_le_self n k
    have hrows : n / k ≤ n := Nat.div_le_self n k
    simp only [hk, if_true, Option.bind_eq_bind] at hlt ⊢
    rw [div_eq (by omega), Option.bind_some, rem_eq (by omega), Option.bind_some,
      mul_eq (by omega), Option.bind_some]
    by_cases hp : pos < n / k * k
    · simp only [hp, if_true] at hlt ⊢
      have hsum := Nat.lt_of_le_of_lt (Nat.le_add_right _ _) hlt
      rw [rem_eq (by omega), Option.bind_some, mul_eq (by omega), Option.bind_some,
        add_eq (by omega), Option.bind_some, div_eq (by omega), Option.bind_some,
        add_eq (by omega)]
    · simp only [hp, if_false] at hlt ⊢
      have hone : 1 ≤ (pos - n / k * k + 1) * (n / k + 1) :=
        Nat.mul_pos (Nat.succ_pos _) (Nat.succ_pos _)
      rw [sub_eq (by omega), Option.bind_some, add_eq (by omega), Option.bind_some,
        add_eq (by omega), Option.bind_some, mul_eq (by omega), Option.bind_some, sub_eq hone]
  · simp only [hk, if_false]
    rfl

theorem mapped_exact (h : p.entries.length * 2 < 2 ^ 64) (index : Nat) :
    mapped p index = some (p.mapped index) := by
  have hn := p.entries_pos
  have hlt := Nat.mod_lt index p.len_pos
  unfold mapped Positions.mapped located
  simp only [Option.bind_eq_bind, Option.pure_def]
  rw [len_eq h, Option.bind_some, rem_eq p.len_pos, Option.bind_some]
  have hlen : p.len ≤ p.entries.length * 2 := by
    unfold Positions.len
    split_ifs <;> omega
  have hloc := Nat.mod_lt (index % p.len) hn
  have hfinish : ∀ (pos : Nat) (check : Bool), pos < p.entries.length →
      ((striped p pos).bind fun pos => if p.work.sequential < 0 then
        (sub p.entries.length 1).bind fun a => (sub a pos).bind fun b => some (b, check)
        else some (pos, check)) =
      some (if p.work.sequential < 0 then p.entries.length - 1 - p.striped pos
        else p.striped pos, check) := by
    intro pos check hpos
    have hs := p.striped_lt hpos
    rw [striped_exact h hpos, Option.bind_some]
    split_ifs
    · rw [sub_eq (by omega), Option.bind_some, sub_eq (by omega), Option.bind_some]
    · rfl
  by_cases hu : p.work.unique_verify = true
  · simp only [hu, if_true, Option.bind_some]
    exact hfinish _ _ (by omega)
  · simp only [hu, Bool.false_eq_true, if_false]
    rw [rem_eq hn, Option.bind_some, Option.bind_some]
    exact hfinish _ _ hloc

theorem entries_getElem? {pos : Nat} (hpos : pos < p.entries.length) :
    p.entries[pos]? = some (p.entries.getD pos Request.default) := by
  rw [List.getD_eq_getElem _ _ hpos, List.getElem?_eq_getElem hpos]

section Calls

variable (hb : 0 < work.block) (hhi : hi < 2 ^ 64) (hS : work.shift = true → SumsFit work lo hi)

include hb hhi hS

theorem shifted_exact (h : Ready work lo hi p) {r : Request}
    (hr : Drawn work lo hi r.offset r.len) (pass : Nat) :
    shifted p r pass = some (p.shifted r pass) := by
  obtain ⟨rfl, rfl, rfl, -, -, -⟩ := h
  have h1 := hr.lo_le
  have h2 := hr.le_hi
  have h3 := hr.block_le
  unfold shifted Positions.shifted
  split_ifs with hshift
  · have hq : (p.hi - p.lo - r.len) / p.work.block ≤ p.hi - p.lo - r.len := Nat.div_le_self _ _
    have hslots : 0 < (p.hi - p.lo - r.len) / p.work.block + 1 := Nat.succ_pos _
    have hpass := Nat.mod_lt pass hslots
    have hle : (p.hi - p.lo - r.len) / p.work.block ≤ (p.hi - p.lo - 1) / p.work.block :=
      Nat.div_le_div_right (by omega)
    have hoffset : (r.offset - p.lo) / p.work.block ≤ (p.hi - p.lo - 1) / p.work.block :=
      Nat.div_le_div_right (by omega)
    have hsum := (hS hshift).sum hb hhi hoffset (b := pass % ((p.hi - p.lo - r.len) / p.work.block + 1))
      (by omega)
    have hplace := Nat.mod_lt ((r.offset - p.lo) / p.work.block +
      pass % ((p.hi - p.lo - r.len) / p.work.block + 1)) hslots
    have hfits := @positions.block_fits p.work (p.hi - p.lo) _ _ (by omega)
      (Nat.lt_succ_iff.mp hplace)
    simp only [Option.bind_eq_bind]
    rw [sub_eq (by omega), Option.bind_some, sub_eq (by omega), Option.bind_some, div_eq hb,
      Option.bind_some, add_eq (by omega), Option.bind_some, sub_eq h1, Option.bind_some,
      div_eq hb, Option.bind_some, rem_eq hslots, Option.bind_some, add_eq hsum, Option.bind_some,
      rem_eq hslots, Option.bind_some, mul_eq (by omega), Option.bind_some, add_eq (by omega)]
    rfl
  · rfl

theorem request_at_exact (h : Ready work lo hi p) {pos : Nat} (hpos : pos < p.entries.length)
    (check : Bool) (pass : Nat) :
    request_at p pos check pass = some (p.request_at pos check pass) := by
  have hrow := h.extents _ (p.getD_mem hpos)
  unfold request_at Positions.request_at
  simp only [Option.bind_eq_bind]
  rw [entries_getElem? hpos, Option.bind_some]
  apply shifted_exact hb hhi hS h
  split_ifs <;> exact hrow

omit hb hhi hS in
theorem enter_pass_exact (h : Ready work lo hi p) (pass : Nat) :
    enter_pass p pass = some (p.enter_pass pass) ∧ Ready work lo hi (p.enter_pass pass) := by
  obtain ⟨h1, h2⟩ := p.enter_pass_range pass
  refine ⟨?_, ?_⟩
  · have hsmall := h.small
    have hloop := downTo_eq (p.entries, p.rng) (by dsimp only; omega) positions.swapped_perm
      fun t i hi ht => swapped_eq hi ht
    unfold enter_pass
    split_ifs
    · simp only [Option.bind_eq_bind]
      rw [hloop]
      rfl
    · rfl
  · refine ⟨by rw [Positions.enter_pass_work, h.work_eq], by rw [h1, h.lo_eq],
      by rw [h2, h.hi_eq], by rw [Positions.enter_pass_length]; exact h.small, ?_,
      Positions.enter_pass_counted h.counted pass⟩
    exact fun e he => h.extents e ((p.enter_pass_perm pass).mem_iff.mp he)

theorem get_exact (h : Ready work lo hi p) (index : Nat) :
    get p index = some (p.get index) ∧ Ready work lo hi (p.get index).2 := by
  obtain ⟨h1, h2⟩ := enter_pass_exact h (index / p.len)
  refine ⟨?_, h2⟩
  unfold get Positions.get
  simp only [Option.bind_eq_bind]
  rw [len_eq h.small, Option.bind_some, div_eq p.len_pos, Option.bind_some, h1, Option.bind_some,
    mapped_exact h2.small, Option.bind_some]
  rw [request_at_exact hb hhi hS h2 (Positions.mapped_lt _ index)]
  rfl

end Calls

theorem Ready.marked (h : Ready work lo hi p) {q : Positions} (hf : Positions.Frame p q)
    (hall : Positions.All (Drawn work lo hi) q) (hc : q.Counted) : Ready work lo hi q :=
  ⟨by rw [hf.work, h.work_eq], by rw [hf.lo, h.lo_eq], by rw [hf.hi, h.hi_eq],
    by rw [hf.length]; exact h.small, hall, hc⟩

theorem count_le (h : p.Counted) : p.pending_checks ≤ p.entries.length := by
  rw [h]
  exact List.countP_le_length

theorem count_pos (h : p.Counted) {pos : Nat} (hpos : pos < p.entries.length)
    (hm : (p.entries.getD pos Request.default).verify = true) : 1 ≤ p.pending_checks := by
  rw [h]
  exact List.countP_pos_iff.mpr ⟨_, p.getD_mem hpos, hm⟩

theorem written_exact (h : Ready work lo hi p) (index : Nat) :
    written p index = some (p.written index) ∧ Ready work lo hi (p.written index) := by
  refine ⟨?_, h.marked (p.written_frame index) (Positions.written_extent index h.extents)
    ((Positions.written.spec p index).2.1 h.counted)⟩
  have hcount := count_le h.counted
  have hsmall := h.small
  unfold written Positions.written
  simp only [Option.bind_eq_bind]
  rw [mapped_exact h.small, Option.bind_some]
  rw [entries_getElem? (p.mapped_lt index), Option.bind_some]
  split_ifs
  · rfl
  · rw [add_eq (by omega)]
    rfl

theorem checked_exact (h : Ready work lo hi p) (index : Nat) :
    checked p index = some (p.checked index) ∧ Ready work lo hi (p.checked index) := by
  refine ⟨?_, h.marked (p.checked_frame index) (Positions.checked_extent index h.extents)
    ((Positions.checked.spec p index).2.1 h.counted)⟩
  unfold checked Positions.checked
  simp only [Option.bind_eq_bind]
  rw [mapped_exact h.small, Option.bind_some]
  rw [entries_getElem? (p.mapped_lt index), Option.bind_some]
  split_ifs with hm
  · rw [sub_eq (count_pos h.counted (p.mapped_lt index) hm)]
    rfl
  · rfl

/-- A marked row loses its mark. -/
theorem unmark_ready (h : Ready work lo hi p) {pos : Nat} (hpos : pos < p.entries.length)
    (hm : (p.entries.getD pos Request.default).verify = true) :
    Ready work lo hi { p.set_verify pos false with pending_checks := p.pending_checks - 1 } := by
  have hf := p.set_verify_frame pos false
  refine h.marked ⟨hf.work, hf.lo, hf.hi, hf.pass, hf.length⟩
    (Positions.set_verify_extent pos false h.extents) ?_
  apply Positions.set_verify_counted h.counted hpos
  have hcount := count_pos h.counted hpos hm
  have hm' : p.marked pos = true := hm
  simp [hm']
  omega

theorem take_pending_check_exact (hb : 0 < work.block) (hhi : hi < 2 ^ 64)
    (hS : work.shift = true → SumsFit work lo hi) (h : Ready work lo hi p) (n cursor : Nat) :
    take_pending_check_from n p cursor = some (Positions.take_pending_check_from n p cursor) ∧
      Ready work lo hi (Positions.take_pending_check_from n p cursor).2.2 := by
  induction n generalizing cursor with
  | zero => exact ⟨rfl, h⟩
  | succ n ih =>
    have hsmall := h.small
    unfold take_pending_check_from Positions.take_pending_check_from
    by_cases hend : p.pending_checks = 0 ∨ p.entries.length ≤ cursor
    · rw [if_pos hend, if_pos hend]
      exact ⟨rfl, h⟩
    · rw [if_neg hend, if_neg hend]
      have hcursor : cursor < p.entries.length := by omega
      simp only [Option.bind_eq_bind]
      rw [add_eq (by omega), Option.bind_some, entries_getElem? hcursor, Option.bind_some]
      by_cases hm : (p.entries.getD cursor Request.default).verify = true
      · rw [if_pos hm, if_pos hm, sub_eq (count_pos h.counted hcursor hm), Option.bind_some]
        have hready := unmark_ready h hcursor hm
        have hrow := h.extents _ (p.getD_mem hcursor)
        refine ⟨?_, hready⟩
        have hshift := shifted_exact hb hhi hS hready
          (r := { p.entries.getD cursor Request.default with write := false, verify := true })
          hrow p.pass
        exact congrArg (fun o => Option.bind o _) hshift
      · rw [if_neg hm, if_neg hm]
        exact ih (cursor + 1)

/-- Every call does what the table does, and leaves it ready for the next. -/
theorem call_exact (hb : 0 < work.block) (hhi : hi < 2 ^ 64)
    (hS : work.shift = true → SumsFit work lo hi) (h : Ready work lo hi p) (c : Positions.Call) :
    call p c = some (p.call c) ∧ Ready work lo hi (p.call c).2 := by
  cases c with
  | get index =>
    obtain ⟨h1, h2⟩ := get_exact hb hhi hS h index
    refine ⟨?_, h2⟩
    simp only [call, h1]
    rfl
  | written index =>
    obtain ⟨h1, h2⟩ := written_exact h index
    refine ⟨?_, h2⟩
    simp only [call, h1]
    rfl
  | checked index =>
    obtain ⟨h1, h2⟩ := checked_exact h index
    refine ⟨?_, h2⟩
    simp only [call, h1]
    rfl
  | take_pending_check cursor =>
    obtain ⟨h1, h2⟩ := take_pending_check_exact hb hhi hS h (p.entries.length - cursor) cursor
    refine ⟨?_, h2⟩
    simp only [call, h1]
    rfl

/-- The request of a call is drawn, wherever the pass moves it. -/
theorem call_drawn (h : Ready work lo hi p) (c : Positions.Call) {r : Request}
    (hr : (p.call c).1 = some r) : Drawn work lo hi r.offset r.len := by
  have hshift : Positions.Shiftable (Drawn work lo hi) p.work p.lo p.hi := by
    rw [h.work_eq, h.lo_eq, h.hi_eq]
    exact Drawn.shiftable work lo hi
  cases c with
  | get index =>
    cases hr
    exact (Positions.get_extent h.extents hshift index).1
  | written index => cases hr
  | checked index => cases hr
  | take_pending_check cursor =>
    exact (Positions.take_pending_check_extent h.extents hshift _ cursor).1 r hr

theorem calls_exact (hb : 0 < work.block) (hhi : hi < 2 ^ 64)
    (hS : work.shift = true → SumsFit work lo hi) (h : Ready work lo hi p)
    (cs : List Positions.Call) :
    ∃ rs, calls p cs = some (rs, p.after cs) ∧ ∀ r ∈ rs, Drawn work lo hi r.offset r.len := by
  induction cs generalizing p with
  | nil => exact ⟨[], rfl, fun r hr => by cases hr⟩
  | cons c cs ih =>
    obtain ⟨h1, h2⟩ := call_exact hb hhi hS h c
    obtain ⟨rs, h3, h4⟩ := ih h2
    refine ⟨(p.call c).1.toList ++ rs, ?_, ?_⟩
    · unfold calls
      simp only [Option.bind_eq_bind]
      rw [h1, Option.bind_some, h3]
      rfl
    · intro r hr
      rcases List.mem_append.mp hr with hr | hr
      · exact call_drawn h c (Option.mem_toList.mp hr)
      · exact h4 r hr

/-- Where the sums fit, as they do in every range whose end is an `i64`, a generated table
stays in its range: the table is drawn, and whatever is called on it, every request lies in
the range, on a block of it, and is of a whole number of blocks, with every step of the
arithmetic in 64 bits. -/
theorem generated_requests_stay_in_range_if_the_sums_fit {capacity : Nat} (hw : work.Parsed)
    (hcap : 1 ≤ capacity) (hhi : hi < 2 ^ 64) (hfit : work.max_block ≤ hi - lo)
    (hF : Fits work lo hi capacity) (seed : UInt64) :
    ∃ p, new work lo hi seed capacity = some (.ok p) ∧
      Positions.new work lo hi seed capacity [] = .ok p ∧
      ∀ cs : List Positions.Call, ∃ rs, calls p cs = some (rs, p.after cs) ∧
        ∀ r ∈ rs, lo ≤ r.offset ∧ r.offset + r.len ≤ hi ∧ work.block ∣ r.offset - lo ∧
          work.block ∣ r.len ∧ work.block ≤ r.len ∧ r.len ≤ work.max_block := by
  have hb := hw.block_pos
  have hm := hw.block_le
  obtain ⟨p, hp⟩ := Positions.new_ok hb hm hfit hcap hw.positions_ne_zero seed
  obtain ⟨hdrawn, hlength⟩ := Positions.new_drawn hp hb hm hfit
  obtain ⟨h1, h2, h3, _, h4, _⟩ := Positions.new_cases hp
  have htable := hF.table
  unfold request_size at htable
  have hready : Ready work lo hi p := ⟨h1, h2, h3, by omega, hdrawn,
    Positions.counted_of_unmarked (Positions.new_unmarked hp) h4⟩
  refine ⟨p, by rw [new_eq hb hm hfit hhi hF, hp], hp, fun cs => ?_⟩
  obtain ⟨rs, hrs, hall⟩ := calls_exact hb hhi hF.shifts hready cs
  refine ⟨rs, hrs, fun r hr => ?_⟩
  have h := hall r hr
  exact ⟨h.lo_le, h.le_hi, h.aligned, h.len_dvd, h.block_le, h.len_le⟩

/-- `p0M1-4N`: writes of one to four megabytes, shifted by the pass. -/
def shifted_writes : Workload :=
  { read_probability := 0, block := 1048576, max_block := 4194304, shift := true }

theorem shifted_writes_parsed : shifted_writes.Parsed :=
  ⟨{ w := { shifted_writes with read_probability := 1 / 2 }, probability := some 0 },
    ⟨by decide, by decide, by decide, by decide, by decide, by simp, by decide, by decide,
      by decide⟩, rfl⟩

/-- A hundred such writes on a terabyte. -/
theorem shifted_writes_stay_in_a_terabyte :
    Fits shifted_writes 4096 (2 ^ 40) 100 ∧
    ∃ p, new shifted_writes 4096 (2 ^ 40) 3 100 = some (.ok p) ∧
      ∀ cs : List Positions.Call, ∃ rs, calls p cs = some (rs, p.after cs) ∧
        ∀ r ∈ rs, 4096 ≤ r.offset ∧ r.offset + r.len ≤ 2 ^ 40 := by
  have hF : Fits shifted_writes 4096 (2 ^ 40) 100 := .of_signed (by decide) (by decide) (by decide)
  obtain ⟨p, h1, _, h2⟩ := generated_requests_stay_in_range_if_the_sums_fit shifted_writes_parsed
    (by decide) (by decide) (by decide) hF 3
  refine ⟨hF, p, h1, fun cs => ?_⟩
  obtain ⟨rs, h3, h4⟩ := h2 cs
  exact ⟨rs, h3, fun r hr => ⟨(h4 r hr).1, (h4 r hr).2.1⟩⟩

/-- `p0k0.0009765625P-1`: one write of one byte at a random place. -/
def byte_samples : Workload :=
  { read_probability := 0, block := 1, max_block := 1, mode := .Sample, positions := some 1 }

/-- On a range of all but one of the 64-bit addresses, the rotation of a random place
overflows: with seed 1, the place and the rotation drawn add up past 64 bits. -/
theorem a_rotation_overflows :
    ¬ ∀ (work : Workload) (lo hi : Nat) (seed : UInt64) (capacity : Nat), work.Parsed →
      1 ≤ capacity → hi < 2 ^ 64 → work.max_block ≤ hi - lo →
      ∃ p, new work lo hi seed capacity = some (.ok p) := by
  intro hall
  have hparsed : byte_samples.Parsed :=
    ⟨{ w := { byte_samples with read_probability := 1 / 2 }, probability := some 0 },
      ⟨by decide, by decide, by decide, by decide, by decide, by simp, by decide, by decide,
        by decide⟩, rfl⟩
  obtain ⟨p, hp⟩ := hall byte_samples 0 (2 ^ 64 - 1) 1 1 hparsed (by decide) (by decide) (by decide)
  have hnone : new byte_samples 0 (2 ^ 64 - 1) 1 1 = none := rfl
  rw [hnone] at hp
  cases hp

end guarded

end stutools
