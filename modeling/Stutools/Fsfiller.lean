-- The files of the file-server fill (src/rust/src/fsfiller.rs): where each index puts its
-- file, and the contents that are written and read back in chunks. The paths are those of
-- Unix, and as `PathBuf` compares them: by their components.
import Mathlib.Data.PNat.Defs
import Stutools.Bytes
import Stutools.Padded
import Stutools.Pattern
import Stutools.Utf8

open texts

namespace stutools.fsfiller

/-! ## Paths -/

/-- A path, as its components. -/
structure PathBuf where
  is_absolute : Bool
  parts : List (List Char)
deriving DecidableEq

/-- The path of a text under a directory, or of its own where it is absolute. -/
def PathBuf.join (root : PathBuf) (text : List Char) : PathBuf :=
  let parts := (text.splitOn '/').filter fun part => part ≠ [] ∧ part ≠ ['.']
  if text.head? = some '/' then ⟨true, parts⟩ else ⟨root.is_absolute, root.parts ++ parts⟩

/-- The number of directories on both levels, which is not zero. -/
structure Settings where
  top : Nat
  second : Nat
  top_pos : 0 < top
  second_pos : 0 < second

/-- The extensions of the file types. -/
def TYPES : List (List Char) :=
  ["txt".toList, "docx".toList, "jpg".toList, "bin".toList, "mp4".toList]

/-- The last component of a path. -/
def file_name (index : Nat) : List Char :=
  'f' :: padded 8 index ++ '.' :: TYPES.getD (index % TYPES.length) []

/-- The path of a file from the root on. -/
def relative_path (s : Settings) (index : Nat) : List Char :=
  ('t' :: padded 3 (index % s.top)) ++ '/' :: (('s' :: padded 3 (index / s.top % s.second)) ++
    '/' :: file_name index)

def file_path (root : PathBuf) (s : Settings) (index : Nat) : PathBuf :=
  root.join (relative_path s index)

theorem graphic_of_digits {ds : List Char} (h : Digits ds) : ∀ c ∈ ds, 32 < c.toNat := by
  intro c hc
  have := Char.isDigit_iff_toNat.mp (h c hc)
  simp only [Char.reduceToNat] at this
  omega

theorem graphic_file_name (index : Nat) : ∀ c ∈ file_name index, 32 < c.toNat := by
  have htypes : ∀ i < TYPES.length, (TYPES.getD i []).all fun c => 32 < c.toNat := by decide
  have hext : ∀ c ∈ TYPES.getD (index % TYPES.length) [], 32 < c.toNat := by
    simpa using htypes _ (Nat.mod_lt index (show 0 < TYPES.length by decide))
  unfold file_name
  exact List.forall_mem_append.mpr
    ⟨List.forall_mem_cons.mpr ⟨by decide, graphic_of_digits (padded_digits _ _)⟩,
      List.forall_mem_cons.mpr ⟨by decide, hext⟩⟩

/-- The characters of a path are graphic. -/
theorem graphic_relative_path (s : Settings) (index : Nat) :
    ∀ c ∈ relative_path s index, 32 < c.toNat := by
  have hdigits : ∀ w n, ∀ c ∈ padded w n, 32 < c.toNat := fun w n =>
    graphic_of_digits (padded_digits w n)
  unfold relative_path
  exact List.forall_mem_append.mpr ⟨List.forall_mem_cons.mpr ⟨by decide, hdigits _ _⟩,
    List.forall_mem_cons.mpr ⟨by decide, List.forall_mem_append.mpr
      ⟨List.forall_mem_cons.mpr ⟨by decide, hdigits _ _⟩,
        List.forall_mem_cons.mpr ⟨by decide, graphic_file_name index⟩⟩⟩⟩

/-! ## One path for each index -/

theorem notMem_of_digits {ds : List Char} {c : Char} (h : Digits ds) (hc : c.isDigit = false) :
    c ∉ ds := by
  intro hmem
  rw [h c hmem] at hc
  cases hc

theorem slash_notMem_file_name (index : Nat) : '/' ∉ file_name index := by
  have htypes : ∀ i < TYPES.length, '/' ∉ TYPES.getD i [] := by decide
  have hext := htypes _ (Nat.mod_lt index (show 0 < TYPES.length by decide))
  have hdigits := notMem_of_digits (c := '/') (padded_digits 8 index) rfl
  simp only [file_name, List.mem_append, List.mem_cons, not_or]
  exact ⟨⟨by decide, hdigits⟩, by decide, hext⟩

theorem splitOn_relative_path (s : Settings) (index : Nat) :
    (relative_path s index).splitOn '/' =
      ['t' :: padded 3 (index % s.top), 's' :: padded 3 (index / s.top % s.second),
        file_name index] := by
  have hdigits : ∀ c w n, c ≠ '/' → '/' ∉ c :: padded w n := fun c w n hc hmem =>
    (List.mem_cons.mp hmem).elim (fun h => hc h.symm) (notMem_of_digits (padded_digits w n) rfl)
  unfold relative_path
  rw [List.splitOn_append_cons_self_of_not_mem (hdigits _ _ _ (by decide)),
    List.splitOn_append_cons_self_of_not_mem (hdigits _ _ _ (by decide)),
    List.splitOn_eq_singleton (slash_notMem_file_name index)]

theorem parts_file_path (root : PathBuf) (s : Settings) (index : Nat) :
    (file_path root s index).parts =
      root.parts ++ ['t' :: padded 3 (index % s.top), 's' :: padded 3 (index / s.top % s.second),
        file_name index] := by
  unfold file_path PathBuf.join
  rw [if_neg (by simp [relative_path]), splitOn_relative_path]
  simp [file_name]

theorem file_name_injective {i j : Nat} (h : file_name i = file_name j) : i = j := by
  have hdot : ∀ n, '.' ∉ 'f' :: padded 8 n := fun n hmem =>
    (List.mem_cons.mp hmem).elim (by decide) (notMem_of_digits (padded_digits 8 n) rfl)
  have hcut : ∀ n, texts.split_once (· == '.') (file_name n) =
      some ('f' :: padded 8 n, TYPES.getD (n % TYPES.length) []) := fun n =>
    split_once_append _ (fun x hx => beq_false_of_ne fun heq => hdot n (heq ▸ hx)) rfl
  have hij := (hcut i).symm.trans ((congrArg _ h).trans (hcut j))
  exact padded_inj (List.cons.inj (Prod.ext_iff.mp (Option.some.inj hij)).1).2

/-- Two indexes have two paths. -/
theorem file_path_injective {root : PathBuf} {s : Settings} {i j : Nat}
    (h : file_path root s i = file_path root s j) : i = j := by
  have hparts := congrArg PathBuf.parts h
  rw [parts_file_path, parts_file_path] at hparts
  have hlast := List.append_cancel_left hparts
  simp only [List.cons.injEq, and_true] at hlast
  exact file_name_injective hlast.2.2

/-! ## Contents -/

inductive WriteMode where
  | buffered
  | write_through
  | direct
deriving DecidableEq

def CHUNK : Nat := 1048576

def DIRECT_ALIGN : Nat := 4096

/-- `usize::next_multiple_of` -/
def next_multiple_of (n m : Nat) : Nat := (n + (m - 1)) / m * m

/-- The seed of a path, from the bytes of its text. -/
def seed (path : List UInt8) : UInt64 :=
  path.foldl (fun hash b => (hash ^^^ b.toUInt64) * 0x100000001b3) 0xcbf29ce484222325

/-- The bytes of one turn of `write_contents`, from `size - left` on. The buffer held `data`. -/
def chunk (mode : WriteMode) (data : List UInt8) (size left : Nat) (seed : UInt64) : List UInt8 :=
  let n := min left CHUNK
  let padded := if mode = .direct then next_multiple_of n DIRECT_ALIGN else n
  pattern.fill (data.take padded) (size - left) seed

/-- What `set_len` leaves of the padding. -/
def close_contents (mode : WriteMode) (content : List UInt8) (size : Nat) : List UInt8 :=
  if mode = .direct then bytes.resize content size else content

/-- The loop of `verify_file`, with `size - left` bytes read. The callers' buffer holds `CHUNK`
bytes; with none at all the loop would not end. -/
def verify_loop (content : List UInt8) (size : Nat) (buf : ℕ+) (left : Nat) (seed : UInt64) :
    Bool :=
  if left = 0 then true
  else
    let n := min left buf
    let read := bytes.slice content (size - left) n
    if read.length < n then false
    else pattern.matches read (size - left) seed && verify_loop content size buf (left - n) seed
termination_by left
decreasing_by
  have := buf.pos
  omega

/-- `verify_file`: whether a file has its size and the pattern of its path. -/
def verify_file (content : List UInt8) (size : Nat) (buf : ℕ+) (seed : UInt64) : Bool :=
  content.length == size && verify_loop content size buf size seed

theorem le_next_multiple_of (n : Nat) {m : Nat} (hm : 0 < m) : n ≤ next_multiple_of n m := by
  have hdiv := Nat.div_add_mod (n + (m - 1)) m
  have hmod := Nat.mod_lt (n + (m - 1)) hm
  unfold next_multiple_of
  rw [Nat.mul_comm _ m]
  omega

theorem next_multiple_of_self {n m : Nat} (h : m ∣ n) (hm : 0 < m) : next_multiple_of n m = n := by
  obtain ⟨k, rfl⟩ := h
  unfold next_multiple_of
  rw [Nat.mul_add_div hm, Nat.div_eq_of_lt (by omega), Nat.add_zero, Nat.mul_comm]

/-- A buffer of `CHUNK` bytes has room for the padding. -/
theorem padded_le {n : Nat} (h : n ≤ CHUNK) : next_multiple_of n DIRECT_ALIGN ≤ CHUNK := by
  unfold next_multiple_of DIRECT_ALIGN CHUNK at *
  omega

/-- How many bytes a turn writes. -/
def chunk_length (mode : WriteMode) (left : Nat) : Nat :=
  if mode = .direct then next_multiple_of (min left CHUNK) DIRECT_ALIGN else min left CHUNK

/-- A turn writes the pattern, with the padding behind the last chunk only. -/
theorem chunk.spec {mode : WriteMode} {data : List UInt8} (size left : Nat) (seed : UInt64)
    (hdata : data.length = CHUNK) :
    chunk mode data size left seed =
      pattern.bytes_of (size - left) (chunk_length mode left) seed := by
  have hle : chunk_length mode left ≤ CHUNK := by
    unfold chunk_length
    split
    · exact padded_le (Nat.min_le_right _ _)
    · exact Nat.min_le_right _ _
  unfold chunk
  rw [pattern.fill.spec, List.length_take, hdata]
  exact congrArg (pattern.bytes_of _ · _) (Nat.min_eq_left hle)

theorem min_le_chunk_length (mode : WriteMode) (left : Nat) :
    min left CHUNK ≤ chunk_length mode left := by
  unfold chunk_length
  split
  · exact le_next_multiple_of _ (by decide)
  · exact Nat.le_refl _

theorem chunk_length_of_lt {mode : WriteMode} {left : Nat} (h : CHUNK < left) :
    chunk_length mode left = CHUNK := by
  unfold chunk_length
  rw [Nat.min_eq_right h.le, next_multiple_of_self (by decide) (by decide)]
  split <;> rfl

theorem slice_bytes_of {size offset n : Nat} (h : offset + n ≤ size) (seed : UInt64) :
    bytes.slice (pattern.bytes_of 0 size seed) offset n = pattern.bytes_of offset n seed := by
  apply List.ext_getElem
  · rw [bytes.slice_length (by simpa using h), pattern.bytes_of_length]
  · intro i h1 h2
    simp only [bytes.slice, List.getElem_take, List.getElem_drop, pattern.bytes_of_getElem,
      Nat.zero_add]

theorem verify_loop_bytes_of {size left : Nat} {buf : ℕ+} (hle : left ≤ size) (seed : UInt64) :
    verify_loop (pattern.bytes_of 0 size seed) size buf left seed = true := by
  induction left using Nat.strong_induction_on with
  | _ left ih =>
    rw [verify_loop]
    split
    · rfl
    · rename_i hmore
      have hbuf := buf.pos
      have hslice := @slice_bytes_of size (size - left) (min left buf) (by omega) seed
      dsimp only
      rw [hslice, if_neg (by rw [pattern.bytes_of_length]; exact Nat.lt_irrefl _),
        ih _ (by omega) (by omega), Bool.and_true, pattern.matches.spec,
        pattern.bytes_of_length]

/-- A file of the pattern is accepted, whatever the size of the buffer. -/
theorem verify_file_bytes_of (size : Nat) (buf : ℕ+) (seed : UInt64) :
    verify_file (pattern.bytes_of 0 size seed) size buf seed = true := by
  unfold verify_file
  rw [verify_loop_bytes_of (Nat.le_refl _), pattern.bytes_of_length, beq_self_eq_true,
    Bool.and_true]

end stutools.fsfiller
