-- A workload as `-c` describes it: the fields the parser sets, and the last
-- part of the parser, which combines them and refuses what cannot run.
import Stutools.Float
import Mathlib.Tactic.SplitIfs

namespace stutools

inductive Backend where
  | Libaio
  | Uring
  | Pagecache
  | Direct
deriving DecidableEq

inductive PositionMode where
  | First
  | Sample
  | Spaced
  | Alternating
deriving DecidableEq

/-- `cli::Workload`. An `f64` field holds the rational it denotes. -/
structure Workload where
  read_probability : ℚ := 1 / 2
  block : Nat := 4096
  max_block : Nat := 4096
  power_sizes : Bool := false
  mode : PositionMode := .First
  shuffle : Bool := false
  shift : Bool := false
  from_zero : Bool := false
  depth : Nat := 64
  submit_batch : Option Nat := none
  operation_limit : Option Nat := none
  alternate : Bool := false
  rate : Option ℚ := none
  duty : Option (ℚ × ℚ) := none
  duration : Option ℚ := none
  seed : Option UInt64 := none
  workers : Nat := 1
  shared_range : Bool := false
  range : Option (Nat × Nat) := none
  split_range : Bool := false
  sequential : ℚ := 1
  positions : Option Nat := none
  passes : Option Nat := none
  range_passes : Option Nat := none
  verify : Bool := false
  metadata : Option Nat := none
  unique : Bool := false
  unique_verify : Bool := false
  flush : Bool := false
  /-- Bare `v`: each write is followed by a read of the same block once it completes. -/
  write_verify : Bool := false
  /-- Uppercase `V`: like `v`, but the read is sent while the write is still in flight. -/
  write_verify_race : Bool := false
deriving DecidableEq

/-- A `v` workload of one block size. -/
def Workload.pairs (block depth : Nat) (limit : Option Nat) : Workload :=
  { read_probability := 0, block := block, max_block := block, depth := depth, verify := true
    write_verify := true, operation_limit := limit }

/-- The parser's variables once it has read every token. -/
structure Tokens where
  w : Workload := {}
  reads : Nat := 0
  writes : Nat := 0
  probability : Option ℚ := none
  explicit_sequential : Bool := false
  write_verify : Bool := false
  write_verify_race : Bool := false
  explicit_depth : Bool := false

/-- What each token's own check leaves true of the variables. -/
structure Tokens.Checked (t : Tokens) : Prop where
  block_pos : 0 < t.w.block
  block_le : t.w.block ≤ t.w.max_block
  max_block_le : t.w.max_block ≤ 0x7ffff000
  depth_pos : 0 < t.w.depth
  depth_le : t.w.depth ≤ 4096
  race : t.write_verify_race = true → t.write_verify = true
  unset : t.w.write_verify = false ∧ t.w.write_verify_race = false ∧ t.w.verify = false
  unique : t.w.unique_verify = true → t.w.unique = true
  operation_limit : t.w.operation_limit ≠ some 0

namespace Tokens

/-- The share of reads: what `p` gave, else the count of `r` among `r` and `w`. -/
def read_probability (t : Tokens) : ℚ :=
  t.probability.getD
    (if t.reads + t.writes = 0 then 1 / 2 else float.f64Div t.reads (t.reads + t.writes))

/-- `v` and `V`: writes only, and one slot unless `q` was given. -/
def apply_write_verify (t : Tokens) (w : Workload) : Workload :=
  if t.write_verify then
    { w with
      read_probability := 0
      write_verify := true
      write_verify_race := t.write_verify_race
      depth := if t.explicit_depth then w.depth else 1
      verify := true }
  else w

/-- `m` flushes and limits the depth; `u` and `U` run one request at a time. -/
def apply_metadata (t : Tokens) (w : Workload) : Workload :=
  if w.metadata.isSome || w.unique then
    let depth := match w.metadata with
      | some limit => min w.depth limit
      | none => w.depth
    let depth := if w.unique then 1 else depth
    { w with
      flush := w.flush || w.metadata.isSome
      sequential := if !t.explicit_sequential && w.metadata.isSome then 0 else w.sequential
      depth := depth
      submit_batch := w.submit_batch.map (min · depth) }
  else w

/-- The workload before its limits are checked. -/
def combined (t : Tokens) : Workload :=
  let w := t.apply_write_verify { t.w with read_probability := t.read_probability }
  let w := { w with verify := w.verify || w.unique_verify || (w.metadata.isSome && !w.unique) }
  t.apply_metadata w

/-- The end of `workload`: the combination of the tokens, or why it cannot run. -/
def workload (t : Tokens) : Except String Workload :=
  let w := t.combined
  if w.verify && w.alternate then
    .error "metadata verification cannot be combined with alternating actions"
  else if w.depth = 0 ∨ 4096 < w.depth ∨ w.workers = 0 ∨ 1024 < w.workers ∨ w.block = 0 ∨
      0x7ffff000 < w.block ∨ w.positions = some 0 ∨ w.passes = some 0 ∨ w.range_passes = some 0 then
    .error "invalid workload resource limit"
  else if w.duration.isSome && (w.passes.isSome || w.range_passes.isSome) then
    .error "mixing T and x/X is not supported"
  else if w.passes.isSome && w.range_passes.isSome then
    .error "mixing x and X is not supported"
  else .ok w

end Tokens

/-- The parser gives this workload for some text. -/
def Workload.Parsed (w : Workload) : Prop := ∃ t : Tokens, t.Checked ∧ t.workload = .ok w

/-- The parser gives the `v` workload of one slot. -/
theorem Workload.pairs_parsed (block : Nat) (limit : Option Nat) (hb : 0 < block)
    (hmax : block ≤ 0x7ffff000) (hl : limit ≠ some 0) : (Workload.pairs block 1 limit).Parsed := by
  refine ⟨{ w := { block := block, max_block := block, operation_limit := limit }
            write_verify := true },
    ⟨hb, Nat.le_refl _, hmax, by simp, by simp, by simp, by simp, by simp, hl⟩, ?_⟩
  have hne : block ≠ 0 := by omega
  simp [Tokens.workload, Tokens.combined, Tokens.apply_metadata, Tokens.apply_write_verify,
    Workload.pairs, hne, Nat.not_lt.mpr hmax]

/-! ## What the parser promises -/

namespace Workload.Parsed

variable {w : Workload}

/-- The workload a parse gives is the combination of its tokens, and passed every limit. -/
theorem cases (h : w.Parsed) : ∃ t : Tokens, t.Checked ∧ t.combined = w ∧
    (w.verify && w.alternate) = false ∧ w.depth ≠ 0 ∧ w.workers ≠ 0 ∧ w.workers ≤ 1024 ∧
    w.positions ≠ some 0 ∧ w.passes ≠ some 0 ∧ w.range_passes ≠ some 0 ∧
    ¬ (w.duration.isSome = true ∧ (w.passes.isSome = true ∨ w.range_passes.isSome = true)) := by
  obtain ⟨t, ht, hw⟩ := h
  unfold Tokens.workload at hw
  dsimp only at hw
  split_ifs at hw with h1 h2 h3 h4
  cases hw
  refine ⟨t, ht, rfl, by simpa using h1, ?_⟩
  simp only [not_or] at h2
  obtain ⟨h5, _, h6, h7, _, _, h8, h9, h10⟩ := h2
  refine ⟨h5, h6, by omega, h8, h9, h10, ?_⟩
  simpa using h3

/-- What `m` and `u` do not touch. -/
theorem apply_metadata_kept {α : Type} (f : Workload → α)
    (hf : ∀ w flush sequential depth batch, f { w with
      flush := flush, sequential := sequential, depth := depth, submit_batch := batch } = f w)
    (t : Tokens) (w : Workload) : f (t.apply_metadata w) = f w := by
  unfold Tokens.apply_metadata
  split
  · exact hf _ _ _ _ _
  · rfl

/-- What `v`, `V` and the share of reads do not touch. -/
theorem apply_write_verify_kept {α : Type} (f : Workload → α)
    (hf : ∀ w read_probability write_verify race depth verify, f { w with
      read_probability := read_probability, write_verify := write_verify,
      write_verify_race := race, depth := depth, verify := verify } = f w)
    (t : Tokens) (w : Workload) (read_probability : ℚ) :
    f (t.apply_write_verify { w with read_probability := read_probability }) = f w := by
  unfold Tokens.apply_write_verify
  split
  · exact hf w _ _ _ _ _
  · exact hf w _ _ _ _ _

/-- What the end of the parser does not touch. -/
theorem combined_kept {α : Type} (f : Workload → α)
    (hmetadata : ∀ w flush sequential depth batch, f { w with
      flush := flush, sequential := sequential, depth := depth, submit_batch := batch } = f w)
    (hverify : ∀ w read_probability write_verify race depth verify, f { w with
      read_probability := read_probability, write_verify := write_verify,
      write_verify_race := race, depth := depth, verify := verify } = f w)
    (t : Tokens) : f t.combined = f t.w := by
  refine (apply_metadata_kept f hmetadata t _).trans ?_
  have hset : ∀ (w : Workload) verify, f { w with verify := verify } = f w := fun w verify =>
    hverify w w.read_probability w.write_verify w.write_verify_race w.depth verify
  rw [hset, apply_write_verify_kept f hverify]

theorem combined_block (t : Tokens) :
    t.combined.block = t.w.block ∧ t.combined.max_block = t.w.max_block :=
  ⟨combined_kept (·.block) (fun _ _ _ _ _ => rfl) (fun _ _ _ _ _ _ => rfl) t,
    combined_kept (·.max_block) (fun _ _ _ _ _ => rfl) (fun _ _ _ _ _ _ => rfl) t⟩

theorem block_pos (h : w.Parsed) : 0 < w.block := by
  obtain ⟨t, ht, rfl, _⟩ := h.cases
  rw [(combined_block t).1]
  exact ht.block_pos

theorem block_le (h : w.Parsed) : w.block ≤ w.max_block := by
  obtain ⟨t, ht, rfl, _⟩ := h.cases
  rw [(combined_block t).1, (combined_block t).2]
  exact ht.block_le

theorem workers_pos (h : w.Parsed) : 0 < w.workers := by
  obtain ⟨t, _, _, _, _, h1, _⟩ := h.cases
  omega

theorem depth_pos (h : w.Parsed) : 0 < w.depth := by
  obtain ⟨t, _, _, _, h1, _⟩ := h.cases
  omega

theorem positions_ne_zero (h : w.Parsed) : w.positions ≠ some 0 := by
  obtain ⟨t, _, _, _, _, _, _, h1, _⟩ := h.cases
  exact h1

/-- Verification and alternating actions are never combined. -/
theorem not_alternate (h : w.Parsed) (hv : w.verify = true) : w.alternate = false := by
  obtain ⟨t, _, _, h1, _⟩ := h.cases
  simpa [hv] using h1

/-- `u` leaves one slot. -/
theorem apply_metadata_depth {t : Tokens} {w : Workload} (hu : w.unique = true) :
    (t.apply_metadata w).depth = 1 := by
  unfold Tokens.apply_metadata
  rw [if_pos (by rw [hu, Bool.or_true])]
  exact if_pos hu

theorem combined_unique (t : Tokens) (ht : t.Checked) :
    (t.combined.unique = true → t.combined.depth = 1) ∧
      (t.combined.unique_verify = true → t.combined.unique = true) := by
  have hunique : t.combined.unique = t.w.unique :=
    combined_kept (·.unique) (fun _ _ _ _ _ => rfl) (fun _ _ _ _ _ _ => rfl) t
  have hverify : t.combined.unique_verify = t.w.unique_verify :=
    combined_kept (·.unique_verify) (fun _ _ _ _ _ => rfl) (fun _ _ _ _ _ _ => rfl) t
  rw [hunique, hverify]
  refine ⟨fun hu => apply_metadata_depth ?_, ht.unique⟩
  exact (apply_write_verify_kept (·.unique) (fun _ _ _ _ _ _ => rfl) t t.w _).trans hu

/-- `u` and `U` run one request at a time. -/
theorem depth_of_unique (h : w.Parsed) (hu : w.unique = true) : w.depth = 1 := by
  obtain ⟨t, ht, rfl, _⟩ := h.cases
  exact (combined_unique t ht).1 hu

theorem unique_of_unique_verify (h : w.Parsed) (hu : w.unique_verify = true) : w.unique = true := by
  obtain ⟨t, ht, rfl, _⟩ := h.cases
  exact (combined_unique t ht).2 hu

theorem apply_write_verify_sets (t : Tokens) {w : Workload}
    (h : w.write_verify = false ∧ w.write_verify_race = false ∧ w.verify = false) :
    (t.apply_write_verify w).verify = (t.apply_write_verify w).write_verify ∧
    ((t.apply_write_verify w).write_verify_race = true →
      (t.apply_write_verify w).write_verify = true) ∧
    ((t.apply_write_verify w).write_verify = true →
      (t.apply_write_verify w).read_probability = 0) := by
  obtain ⟨hwrite, hrace, hverify⟩ := h
  unfold Tokens.apply_write_verify
  split
  · exact ⟨rfl, fun _ => rfl, fun _ => rfl⟩
  · rw [hwrite, hrace, hverify]
    exact ⟨rfl, id, fun h => absurd h Bool.false_ne_true⟩

theorem apply_metadata_flush {t : Tokens} {w : Workload} (hm : w.metadata.isSome = true) :
    (t.apply_metadata w).flush = true := by
  unfold Tokens.apply_metadata
  rw [if_pos (by rw [hm, Bool.true_or])]
  show (w.flush || w.metadata.isSome) = true
  rw [hm, Bool.or_true]

theorem combined_verify (t : Tokens) (ht : t.Checked) :
    (t.combined.verify = true ↔ t.combined.write_verify = true ∨ t.combined.unique_verify = true ∨
      (t.combined.metadata.isSome = true ∧ t.combined.unique = false)) ∧
    (t.combined.metadata.isSome = true → t.combined.flush = true) ∧
    (t.combined.write_verify_race = true → t.combined.write_verify = true) ∧
    (t.combined.write_verify = true → t.combined.read_probability = 0) := by
  obtain ⟨hverify, hrace, hwrite⟩ := apply_write_verify_sets t
    (w := { t.w with read_probability := t.read_probability }) ht.unset
  unfold Tokens.combined
  dsimp only
  generalize t.apply_write_verify { t.w with read_probability := t.read_probability } = w
    at hverify hrace hwrite
  have hkept {α : Type} (f : Workload → α) (hf) := apply_metadata_kept f hf t
    { w with verify := w.verify || w.unique_verify || (w.metadata.isSome && !w.unique) }
  have hmetadata := hkept (·.metadata) fun _ _ _ _ _ => rfl
  refine ⟨?_, fun hm => ?_, fun hr => ?_, fun hw => ?_⟩
  · have h1 := hkept (·.verify) fun _ _ _ _ _ => rfl
    have h2 := hkept (·.write_verify) fun _ _ _ _ _ => rfl
    have h3 := hkept (·.unique_verify) fun _ _ _ _ _ => rfl
    have h4 := hkept (·.unique) fun _ _ _ _ _ => rfl
    dsimp only at h1 h2 h3 h4 hmetadata
    rw [h1, h2, h3, h4, hmetadata, hverify]
    simp [or_assoc]
  · dsimp only at hmetadata
    rw [hmetadata] at hm
    exact apply_metadata_flush hm
  · exact (hkept (·.write_verify) fun _ _ _ _ _ => rfl).trans
      (hrace ((hkept (·.write_verify_race) fun _ _ _ _ _ => rfl).symm.trans hr))
  · exact (hkept (·.read_probability) fun _ _ _ _ _ => rfl).trans
      (hwrite ((hkept (·.write_verify) fun _ _ _ _ _ => rfl).symm.trans hw))

/-- A verifying workload is a `v`, a `V`, a `U` or an `m` one. -/
theorem verify_iff (h : w.Parsed) : w.verify = true ↔ w.write_verify = true ∨
    w.unique_verify = true ∨ (w.metadata.isSome = true ∧ w.unique = false) := by
  obtain ⟨t, ht, rfl, _⟩ := h.cases
  exact (combined_verify t ht).1

theorem write_verify_of_race (h : w.Parsed) (hr : w.write_verify_race = true) :
    w.write_verify = true := by
  obtain ⟨t, ht, rfl, _⟩ := h.cases
  exact (combined_verify t ht).2.2.1 hr

theorem max_block_le (h : w.Parsed) : w.max_block ≤ 0x7ffff000 := by
  obtain ⟨t, ht, rfl, _⟩ := h.cases
  rw [(combined_block t).2]
  exact ht.max_block_le

theorem depth_le (h : w.Parsed) : w.depth ≤ 4096 := by
  obtain ⟨t, _, hw⟩ := h
  unfold Tokens.workload at hw
  dsimp only at hw
  split_ifs at hw with h1 h2
  cases hw
  simp only [not_or, Nat.not_lt] at h2
  exact h2.2.1

/-- `x` and `X` are never combined. -/
theorem passes_of_range_passes (h : w.Parsed) (hr : w.range_passes.isSome = true) :
    w.passes = none := by
  obtain ⟨t, _, hw⟩ := h
  unfold Tokens.workload at hw
  dsimp only at hw
  split_ifs at hw with h1 h2 h3 h4
  cases hw
  simp only [hr, Bool.and_true, Bool.not_eq_true, Option.isSome_eq_false_iff,
    Option.isNone_iff_eq_none] at h4
  exact h4

end Workload.Parsed

end stutools
