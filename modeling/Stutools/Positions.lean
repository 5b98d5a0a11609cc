-- The position table of one worker: how it is drawn, and what each index of
-- the plan reads from it. The table never grows while the run reads it.
import Stutools.Pattern
import Stutools.Request
import Stutools.Vec
import Stutools.Workload

namespace stutools

open pattern (random)

/-- `positions::Positions`. A table always holds an entry: `new` refuses an
empty one, and nothing removes entries. -/
structure Positions where
  entries : List Request
  rng : UInt64
  pass : Nat
  lo : Nat
  hi : Nat
  work : Workload
  pending_checks : Nat
  entries_pos : 0 < entries.length

namespace positions

/-- `random(rng) as f64 / u64::MAX as f64`. -/
def fraction (x : UInt64) : ℚ := float.f64Div (float.f64 x.toNat) (float.f64 (2 ^ 64 - 1 : Nat))

/-- The length of the next entry. -/
def draw_len (work : Workload) (rng : UInt64) : Nat × UInt64 :=
  let (x, rng) := random rng
  if work.power_sizes then
    let choices := Nat.log2 (work.max_block / work.block) + 1
    (work.block <<< (x.toNat % choices), rng)
  else (work.block * (1 + x.toNat % (work.max_block / work.block)), rng)

/-- The offset of entry `i` of `wanted` from the start of the range, and the
cursor after it. None when the next entry in order does not fit. -/
def draw_offset (work : Workload) (span wanted i len cursor : Nat) (rng : UInt64) :
    Option (Nat × Nat × UInt64) :=
  let blocks := (span - len) / work.block + 1
  let spaced (pos : Nat) : Nat :=
    if wanted ≤ 1 then 0 else pos * (blocks - 1) / (wanted - 1) * work.block
  match work.mode with
  | .Sample =>
    let (x, rng) := random rng
    some (x.toNat % blocks * work.block, cursor, rng)
  | .Spaced => some (spaced i, cursor, rng)
  | .Alternating =>
    some (spaced (if i % 2 = 0 then i / 2 else wanted - 1 - i / 2), cursor, rng)
  | .First => if span < cursor + len then none else some (cursor, cursor + len, rng)

/-- Whether the next entry writes. -/
def draw_write (work : Workload) (rng : UInt64) : Bool × UInt64 :=
  if work.read_probability = 0 then (true, rng)
  else if work.read_probability = 1 then (false, rng)
  else
    let (x, rng) := random rng
    (decide (work.read_probability ≤ fraction x), rng)

/-- The drawing loop of `new`: `n` more entries from entry `i` on. -/
def draw (work : Workload) (lo hi wanted : Nat) :
    Nat → Nat → Nat → UInt64 → List Request × UInt64
  | 0, _, _, rng => ([], rng)
  | n + 1, i, cursor, rng =>
    let (len, rng) := draw_len work rng
    match draw_offset work (hi - lo) wanted i len cursor rng with
    | none => ([], rng)
    | some (offset, cursor, rng) =>
      let (write, rng) := draw_write work rng
      let (rest, rng) := draw work lo hi wanted n (i + 1) cursor rng
      ({ Request.default with offset := lo + offset, len := len, write := write } :: rest, rng)

/-- Moves an entry `shift` blocks on, wrapping inside the range. -/
def rotated (block lo hi shift : Nat) (r : Request) : Request :=
  let slots := (hi - lo - r.len) / block + 1
  { r with offset := lo + ((r.offset - lo) / block + shift) % slots * block }

/-- Without `z`, the table starts at a random block. -/
def rotate (work : Workload) (lo hi : Nat) (entries : List Request) (rng : UInt64) :
    List Request × UInt64 :=
  if work.from_zero then (entries, rng)
  else
    let (x, rng) := random rng
    (entries.map (rotated work.block lo hi (x.toNat % ((hi - lo) / work.block))), rng)

/-- One swap of a shuffle: entry `i` with a random one up to it. -/
def swapped (s : List Request × UInt64) (i : Nat) : List Request × UInt64 :=
  let (x, rng) := random s.2
  (vec.swap s.1 i (x.toNat % (i + 1)), rng)

/-- One step of a partly sequential table: entry `i` moves or stays. -/
def jumbled (probability : ℚ) (s : List Request × UInt64) (i : Nat) : List Request × UInt64 :=
  let (x, rng) := random s.2
  if probability ≤ fraction x then swapped (s.1, rng) i else (s.1, rng)

/-- The indexes `n` down to 1, over which a table is shuffled. -/
def downTo (n : Nat) : List Nat := (List.range' 1 n).reverse

/-- The steps of a partly sequential table, from index `n` down to 1. -/
def jumble (probability : ℚ) (n : Nat) (s : List Request × UInt64) : List Request × UInt64 :=
  (downTo n).foldl (jumbled probability) s

/-- The swaps of `n`, from the last index down to 1. -/
def shuffled (n : Nat) (s : List Request × UInt64) : List Request × UInt64 :=
  (downTo n).foldl swapped s

/-- The entries of a generated table, in their order before the first pass. -/
def generated (work : Workload) (lo hi : Nat) (seed : UInt64) (capacity : Nat) :
    List Request × UInt64 :=
  let wanted := min (work.positions.getD capacity) capacity
  let (entries, rng) := draw work lo hi wanted wanted 0 0 seed
  let (entries, rng) := rotate work lo hi entries rng
  let probability := min |work.sequential| 1
  if probability < 1 then jumble probability (entries.length - 1) (entries, rng) else (entries, rng)

/-- The last loop of `new`: no entry is checked yet, and `u` numbers the seeds. -/
def numbered (work : Workload) (seed : UInt64) (entries : List Request) : List Request :=
  entries.mapIdx fun i r =>
    { r with
      verify := false
      state := 0
      seed := if work.unique then seed.toUInt16 + i.toUInt16 else r.seed }

theorem numbered_pos (work : Workload) (seed : UInt64) {entries : List Request}
    (h : entries ≠ []) : 0 < (numbered work seed entries).length := by
  simpa [numbered] using List.length_pos_of_ne_nil h

end positions

namespace Positions

open positions

/-- `Positions::new`. -/
def new (work : Workload) (lo hi : Nat) (seed : UInt64) (capacity : Nat) (loaded : List Request) :
    Except String Positions :=
  let drawn : Except String (List Request × UInt64) :=
    if loaded ≠ [] then
      if capacity < loaded.length then .error "loaded positions exceed fixed table budget"
      else .ok (loaded, seed)
    else .ok (generated work lo hi seed capacity)
  match drawn with
  | .error e => .error e
  | .ok (entries, rng) =>
    if h : entries = [] then .error "no positions fit the worker range"
    else
      .ok
        { entries := numbered work seed entries
          rng := rng
          pass := 0
          lo := lo
          hi := hi
          work := work
          pending_checks := 0
          entries_pos := numbered_pos work seed h }

/-- The plan slots of one pass. -/
def len (p : Positions) : Nat := p.entries.length * if p.work.verify then 2 else 1

/-- How many slots are left in the phase that `index` is in. -/
def phase_remaining (p : Positions) (index : Nat) : Nat :=
  if p.work.unique_verify then 1 else p.entries.length - index % p.entries.length

/-- The table row of position `pos` when the table runs in stripes. -/
def striped (p : Positions) (pos : Nat) : Nat :=
  let n := p.entries.length
  let stripes := min (max ⌊|p.work.sequential|⌋.toNat 1) n
  if 1 < stripes then
    let rows := n / stripes
    let extra := n % stripes
    if pos < rows * stripes then
      let stripe := pos % stripes
      stripe * rows + min stripe extra + pos / stripes
    else (pos - rows * stripes + 1) * (rows + 1) - 1
  else pos

/-- The table row that a plan index names, and whether the index is a check. -/
def mapped (p : Positions) (index : Nat) : Nat × Bool :=
  let loc := index % p.len
  let (pos, check) :=
    if p.work.unique_verify then (loc / 2, loc % 2 == 1)
    else (loc % p.entries.length, p.work.verify && decide (p.entries.length ≤ loc))
  let pos := p.striped pos
  (if p.work.sequential < 0 then p.entries.length - 1 - pos else pos, check)

/-- With `N`, each pass starts one block on. -/
def shifted (p : Positions) (r : Request) (pass : Nat) : Request :=
  if p.work.shift then
    let slots := (p.hi - p.lo - r.len) / p.work.block + 1
    { r with offset := p.lo + ((r.offset - p.lo) / p.work.block + pass % slots) % slots * p.work.block }
  else r

/-- The table with other entries, as many as before. -/
def with_entries (p : Positions) (entries : List Request) (h : entries.length = p.entries.length) :
    Positions :=
  { p with entries := entries, entries_pos := h ▸ p.entries_pos }

end Positions

namespace positions

theorem swapped_perm (s : List Request × UInt64) (i : Nat) : (swapped s i).1.Perm s.1 := by
  unfold swapped
  exact vec.swap_perm _ _ _

theorem jumbled_perm (probability : ℚ) (s : List Request × UInt64) (i : Nat) :
    (jumbled probability s i).1.Perm s.1 := by
  unfold jumbled
  dsimp only
  split_ifs
  · exact swapped_perm _ _
  · exact List.Perm.refl _

theorem foldl_perm {f : List Request × UInt64 → Nat → List Request × UInt64}
    (hf : ∀ s i, (f s i).1.Perm s.1) (l : List Nat) (s : List Request × UInt64) :
    (l.foldl f s).1.Perm s.1 := by
  induction l generalizing s with
  | nil => exact List.Perm.refl _
  | cons i l ih => exact (ih _).trans (hf s i)

theorem jumble_perm (probability : ℚ) (n : Nat) (s : List Request × UInt64) :
    (jumble probability n s).1.Perm s.1 := by
  unfold jumble
  exact foldl_perm (jumbled_perm probability) _ s

theorem shuffled_perm (n : Nat) (s : List Request × UInt64) : (shuffled n s).1.Perm s.1 := by
  unfold shuffled
  exact foldl_perm swapped_perm _ s

end positions

namespace Positions

open positions

/-- The table at the start of another pass: `n` shuffles it. -/
def enter_pass (p : Positions) (pass : Nat) : Positions :=
  if pass = p.pass then p
  else if p.work.shuffle then
    let drawn := shuffled (p.entries.length - 1) (p.entries, p.rng)
    { p.with_entries drawn.1 (shuffled_perm _ _).length_eq with rng := drawn.2, pass := pass }
  else { p with pass := pass }

/-- The request at a row, as an operation or as a check of it. -/
def request_at (p : Positions) (pos : Nat) (check : Bool) (pass : Nat) : Request :=
  let r := p.entries.getD pos Request.default
  let r := { r with verify := check && r.write, write := if check then false else r.write }
  let r := if p.work.alternate ∧ pass % 2 = 1 then { r with write := !r.write } else r
  p.shifted r pass

/-- `Positions::get`: the request at a plan index. -/
def get (p : Positions) (index : Nat) : Request × Positions :=
  let pass := index / p.len
  let p := p.enter_pass pass
  let (pos, check) := p.mapped index
  (p.request_at pos check pass, p)

/-- The requests at the first `n` indexes of the plan, and the table after them. -/
def gets (p : Positions) : Nat → List Request × Positions
  | 0 => ([], p)
  | n + 1 =>
    let (before, q) := p.gets n
    let (r, q) := q.get n
    (before ++ [r], q)

/-- Sets the verify flag of a row. -/
def set_verify (p : Positions) (pos : Nat) (verify : Bool) : Positions :=
  p.with_entries (p.entries.modify pos fun r => { r with verify := verify }) (by simp)

/-- `written`: the write at this index is owed a check. -/
def written (p : Positions) (index : Nat) : Positions :=
  let (pos, _) := p.mapped index
  if (p.entries.getD pos Request.default).verify then p
  else { p.set_verify pos true with pending_checks := p.pending_checks + 1 }

/-- `checked`: the check at this index is done. -/
def checked (p : Positions) (index : Nat) : Positions :=
  let (pos, _) := p.mapped index
  if (p.entries.getD pos Request.default).verify then
    { p.set_verify pos false with pending_checks := p.pending_checks - 1 }
  else p

/-- `take_pending_check`: the next unchecked write from the cursor on, and the
cursor after it. The fuel is the rows left. -/
def take_pending_check_from : Nat → Positions → Nat → Option Request × Nat × Positions
  | 0, p, cursor => (none, cursor, p)
  | n + 1, p, cursor =>
    if p.pending_checks = 0 ∨ p.entries.length ≤ cursor then (none, cursor, p)
    else if (p.entries.getD cursor Request.default).verify then
      let request := p.entries.getD cursor Request.default
      let p := { p.set_verify cursor false with pending_checks := p.pending_checks - 1 }
      (some (p.shifted { request with write := false, verify := true } p.pass), cursor + 1, p)
    else take_pending_check_from n p (cursor + 1)

def take_pending_check (p : Positions) (cursor : Nat) : Option Request × Nat × Positions :=
  take_pending_check_from (p.entries.length - cursor) p cursor

/-- A new table keeps its workload, and numbers what was loaded or drawn. -/
theorem new_cases {work : Workload} {lo hi : Nat} {seed : UInt64} {capacity : Nat}
    {loaded : List Request} {p : Positions} (h : new work lo hi seed capacity loaded = .ok p) :
    p.work = work ∧ p.lo = lo ∧ p.hi = hi ∧ p.pass = 0 ∧ p.pending_checks = 0 ∧
    ((loaded ≠ [] ∧ loaded.length ≤ capacity ∧ p.entries = numbered work seed loaded) ∨
      (loaded = [] ∧ p.entries = numbered work seed (generated work lo hi seed capacity).1)) := by
  unfold new at h
  by_cases hl : loaded = []
  · rcases hg : generated work lo hi seed capacity with ⟨entries, rng⟩
    simp only [hl, ne_eq, not_true_eq_false, if_false, hg] at h
    split_ifs at h with he
    cases h
    exact ⟨rfl, rfl, rfl, rfl, rfl, .inr ⟨hl, rfl⟩⟩
  · by_cases hc : capacity < loaded.length
    · simp [hl, hc] at h
    · simp only [ne_eq, hl, not_false_eq_true, if_true, hc, if_false] at h
      split_ifs at h
      cases h
      exact ⟨rfl, rfl, rfl, rfl, rfl, .inl ⟨hl, by omega, rfl⟩⟩

theorem new_work {work : Workload} {lo hi : Nat} {seed : UInt64} {capacity : Nat}
    {loaded : List Request} {p : Positions} (h : new work lo hi seed capacity loaded = .ok p) :
    p.work = work := (new_cases h).1

/-! ## What a pass keeps -/

@[simp] theorem enter_pass_work (p : Positions) (pass : Nat) : (p.enter_pass pass).work = p.work := by
  unfold enter_pass
  split_ifs <;> rfl

@[simp] theorem enter_pass_length (p : Positions) (pass : Nat) :
    (p.enter_pass pass).entries.length = p.entries.length := by
  unfold enter_pass
  split_ifs
  · rfl
  · exact (shuffled_perm _ _).length_eq
  · rfl

@[simp] theorem get_work (p : Positions) (index : Nat) : (p.get index).2.work = p.work := by
  simp [get]

@[simp] theorem get_length (p : Positions) (index : Nat) :
    (p.get index).2.entries.length = p.entries.length := by
  simp [get]

@[simp] theorem get_len (p : Positions) (index : Nat) : (p.get index).2.len = p.len := by
  simp [len]

theorem len_pos (p : Positions) : 0 < p.len := by
  have := p.entries_pos
  unfold len
  split_ifs <;> omega

@[simp] theorem gets_work (p : Positions) (n : Nat) : (p.gets n).2.work = p.work := by
  induction n with
  | zero => rfl
  | succ n ih => exact (get_work _ n).trans ih

/-- The plan starts with its first request. -/
theorem gets_head (p : Positions) (n : Nat) :
    ∃ rest, (p.gets (n + 1)).1 = (p.get 0).1 :: rest := by
  induction n with
  | zero => exact ⟨[], rfl⟩
  | succ n ih =>
    obtain ⟨rest, hrest⟩ := ih
    refine ⟨rest ++ [((p.gets (n + 1)).2.get (n + 1)).1], ?_⟩
    rw [gets, ← List.cons_append, ← hrest]

/-- The first index of a pass is never a check. -/
theorem mapped_check (p : Positions) (index : Nat) (h : (p.mapped index).2 = true) :
    index % p.len ≠ 0 := by
  have hpos := p.entries_pos
  intro h0
  by_cases hu : p.work.unique_verify = true
  · simp [mapped, h0, hu] at h
  · simp only [mapped, h0, hu, Bool.false_eq_true, if_false, Bool.and_eq_true, decide_eq_true_eq] at h
    omega

theorem request_at_of_not_check (p : Positions) (pos pass : Nat) :
    (p.request_at pos false pass).verify = false := by
  unfold request_at shifted
  dsimp only
  split_ifs <;> simp

/-- A read that checks a write comes from a check slot. -/
theorem check_of_get_verify (p : Positions) (index : Nat) (h : (p.get index).1.verify = true) :
    index % p.len ≠ 0 := by
  have hlen : (p.enter_pass (index / p.len)).len = p.len := by simp [len]
  rw [← hlen]
  apply mapped_check
  by_contra hc
  rw [Bool.not_eq_true] at hc
  simp only [get, hc] at h
  rw [request_at_of_not_check] at h
  cases h

/-! ## The slots of `U`: each operation, then the check of it -/

theorem request_at_flags (p : Positions) (ha : p.work.alternate = false) (pos : Nat) (check : Bool)
    (pass : Nat) : (p.request_at pos check pass).write =
        (!check && (p.entries.getD pos Request.default).write) ∧
      (p.request_at pos check pass).verify =
        (check && (p.entries.getD pos Request.default).write) := by
  unfold request_at shifted
  cases check <;> dsimp only <;> split_ifs <;> simp_all

theorem enter_pass_pass (p : Positions) (pass : Nat) : (p.enter_pass pass).pass = pass := by
  unfold enter_pass
  split_ifs with h
  · exact h.symm
  · rfl
  · rfl

theorem enter_pass_self {p : Positions} {pass : Nat} (h : p.pass = pass) : p.enter_pass pass = p := by
  simp [enter_pass, h]

theorem mapped_unique (p : Positions) (hu : p.work.unique_verify = true) (index : Nat) :
    (p.mapped index).2 = (index % p.len % 2 == 1) ∧
      ∀ index', index % p.len / 2 = index' % p.len / 2 → (p.mapped index).1 = (p.mapped index').1 := by
  refine ⟨by simp [mapped, hu], ?_⟩
  intro index' h
  simp only [mapped, hu, if_true, h]

section Unique

variable {p : Positions} (hu : p.work.unique_verify = true) (hv : p.work.verify = true)
  (ha : p.work.alternate = false)

include hu hv

theorem even_slot_not_check (index : Nat) (h : index % 2 = 0) : (p.get index).1.verify = false := by
  have hlen : (p.enter_pass (index / p.len)).len = 2 * p.entries.length := by
    simp [len, hv, Nat.mul_comm]
  have hcheck := (mapped_unique (p.enter_pass (index / p.len)) (by simpa using hu) index).1
  rw [hlen, Nat.mod_mul_right_mod, h] at hcheck
  have hget : (p.get index).1 = (p.enter_pass (index / p.len)).request_at
      ((p.enter_pass (index / p.len)).mapped index).1
      ((p.enter_pass (index / p.len)).mapped index).2 (index / p.len) := rfl
  rw [hget, hcheck]
  exact request_at_of_not_check _ _ _

include ha

/-- The slot after an operation is the check of it exactly if it wrote. -/
theorem next_is_check (index : Nat) :
    is_read_back ((p.get index).2.get (index + 1)).1 = (p.get index).1.write := by
  have hlen : p.len = 2 * p.entries.length := by simp [len, hv, Nat.mul_comm]
  have hget : ∀ (q : Positions) (i : Nat), (q.get i).1 = (q.enter_pass (i / q.len)).request_at
      ((q.enter_pass (i / q.len)).mapped i).1 ((q.enter_pass (i / q.len)).mapped i).2
      (i / q.len) := fun _ _ => rfl
  have hq : (p.get index).2 = p.enter_pass (index / p.len) := rfl
  have hpos := p.len_pos
  generalize hqdef : p.enter_pass (index / p.len) = q at hq
  have hqwork : q.work = p.work := by rw [← hqdef]; simp
  have hqlen : q.len = p.len := by rw [← hqdef]; simp [len]
  have hqa : q.work.alternate = false := by rw [hqwork]; exact ha
  have hqu : q.work.unique_verify = true := by rw [hqwork]; exact hu
  rcases Nat.mod_two_eq_zero_or_one index with he | ho
  · -- an operation: the next slot is in the same pass and names the same row
    have hloc : index % p.len % 2 = 0 := by rw [hlen, Nat.mod_mul_right_mod]; exact he
    have hlt := Nat.mod_lt index hpos
    have hdiv : (index + 1) / p.len = index / p.len := by
      have h1 := Nat.div_add_mod index p.len
      rw [Nat.div_eq_iff hpos]
      rw [Nat.mul_comm] at h1
      have h2 : index % p.len + 1 < p.len := by omega
      constructor <;> omega
    have hmod : (index + 1) % p.len = index % p.len + 1 := by
      have h2 : index % p.len + 1 < p.len := by omega
      rw [Nat.add_mod, Nat.mod_eq_of_lt (a := 1) (by omega), Nat.mod_eq_of_lt h2]
    have hself : q.enter_pass (index / p.len) = q := enter_pass_self (by rw [← hqdef, enter_pass_pass])
    obtain ⟨m1, m2⟩ := mapped_unique q hqu index
    obtain ⟨n1, _⟩ := mapped_unique q hqu (index + 1)
    have hrow : (q.mapped index).1 = (q.mapped (index + 1)).1 := m2 (index + 1) (by
      rw [hqlen, hmod]; omega)
    have hfirst : (q.mapped index).2 = false := by rw [m1, hqlen, hloc]; rfl
    have hsecond : (q.mapped (index + 1)).2 = true := by
      rw [n1, hqlen, hmod]
      simp only [beq_iff_eq]
      omega
    rw [hq, hget q (index + 1), hget p index, hqlen, hdiv, hself, hqdef, hfirst, hsecond, ← hrow,
      is_read_back, (request_at_flags q hqa _ _ _).1, (request_at_flags q hqa _ _ _).2,
      (request_at_flags q hqa _ _ _).1]
    simp
  · -- a check slot of a read: it reads, and the next slot is an operation
    have hloc : index % p.len % 2 = 1 := by rw [hlen, Nat.mod_mul_right_mod]; exact ho
    have hcheck : (q.mapped index).2 = true := by
      rw [(mapped_unique q hqu index).1, hqlen, hloc]
      rfl
    have hwrite : (p.get index).1.write = false := by
      rw [hget p index, hqdef, hcheck, (request_at_flags q hqa _ _ _).1]
      rfl
    have hnext := even_slot_not_check (p := q) hqu (by rw [hqwork]; exact hv) (index + 1) (by omega)
    rw [hq, hwrite, is_read_back, hnext, Bool.false_and]

end Unique

end Positions

end stutools
