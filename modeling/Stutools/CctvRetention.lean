-- The retention of the recordings (src/rust/src/cctv_files.rs): the names of the files, the
-- header that marks the owner's, which files `prune` removes, and what a run can leave of a
-- recording when it stops at any point. The calls of the system do not fail, and a time is
-- in seconds since 1970.
import Mathlib.Data.List.Basic
import Stutools.Bytes
import Stutools.CctvStamps
import Stutools.Utf8

open texts

namespace stutools.cctv

/-- An entry of a directory. -/
structure File where
  name : List UInt8
  is_file : Bool
  modified : Int
  content : List UInt8
deriving DecidableEq

/-- `Namespace`, whose `prefix` is the stem. -/
structure Namespace where
  stem : List Char
  direct : Bool
  owner : Nat
  run : Nat
  run_lt : run < 2 ^ 128

def MAGIC : List UInt8 := [0x53, 0x50, 0x49, 0x54, 0x43, 0x41, 0x4d, 0x31]

def header (owner camera run sequence : Nat) : List UInt8 :=
  MAGIC ++ bytes.le 16 owner ++ bytes.le 8 camera ++ bytes.le 16 run ++ bytes.le 8 sequence ++
    List.replicate 8 0

theorem header_length (owner camera run sequence : Nat) :
    (header owner camera run sequence).length = 64 := by
  simp [header, MAGIC]

namespace Namespace

def name (ns : Namespace) (camera sequence stamp : Nat) (pending : Bool) : List Char :=
  ns.stem ++ ".cam".toList ++ padded 6 camera ++ '.' :: (utc stamp false ++ ".r".toList ++
    padded_hex 32 ns.run ++ ".s".toList ++ padded 10 sequence ++ ".spitcam".toList ++
    if pending then ".pending".toList else [])

/-- `str::len` -/
def byte_len (text : List Char) : Nat := (utf8.encode text).length

/-- What follows the extension. -/
def pending_of : List (List Char) → Option Bool
  | [] => some false
  | [last] => if last = "pending".toList then some true else none
  | _ => none

/-- The part of `prune` that reads the fields of a name: the camera, run and sequence of an
expired recording, and whether it is pending. -/
def read_fields (cutoff : List Char) : List (List Char) → Option (Nat × Nat × Nat × Bool)
  | camera :: stamp :: run :: sequence :: extension :: more =>
    if byte_len camera ≠ 6 ∨ ¬ camera.all Char.isDigit ∨ ¬ valid_stamp stamp ∨ ¬ stamp < cutoff ∨
        byte_len run ≠ 33 ∨ run.head? ≠ some 'r' ∨ byte_len sequence ≠ 11 ∨
        sequence.head? ≠ some 's' ∨ ¬ sequence.tail.all Char.isDigit ∨
        extension ≠ "spitcam".toList then none
    else do
      let pending ← pending_of more
      let camera ← parse (2 ^ 64) camera
      let run ← from_str_radix (2 ^ 128) run.tail
      let sequence ← parse (2 ^ 64) sequence.tail
      some (camera, run, sequence, pending)
  | _ => none

def read_name (ns : Namespace) (cutoff : List Char) (name : List UInt8) :
    Option (Nat × Nat × Nat × Bool) := do
  let name ← utf8.decode name
  let rest ← name.dropPrefix? (ns.stem ++ ".cam".toList)
  read_fields cutoff (rest.splitOn '.')

/-- Whether `prune` removes a file. -/
def prunes (ns : Namespace) (cutoff : Nat) (file : File) : Bool :=
  match ns.read_name (utc cutoff false) file.name with
  | none => false
  | some (camera, run, sequence, pending) =>
    if camera = 0 ∨ 1024 < camera ∨ (pending ∧ run = ns.run) ∨ ¬ file.is_file then false
    -- a time before 1970 counts as recent
    else if pending ∧ (file.modified < 0 ∨ cutoff ≤ file.modified) then false
    else 64 ≤ file.content.length && file.content.take 64 == header ns.owner camera run sequence

/-- `prune`: what is left of a directory, and how many files were removed. -/
def prune (ns : Namespace) (cutoff : Nat) (directory : List File) : List File × Nat :=
  (directory.filter fun file => !ns.prunes cutoff file, directory.countP (ns.prunes cutoff))

end Namespace

/-! ## Names -/

/-- What a name says about its recording. -/
structure Fields where
  camera : Nat
  stamp : List Char
  run : Nat
  sequence : Nat
  pending : Bool

/-- The fields between the dots of a name. -/
def pieces (camera stamp run sequence : List Char) (pending : Bool) : List (List Char) :=
  camera :: stamp :: ('r' :: run) :: ('s' :: sequence) :: "spitcam".toList ::
    if pending then ["pending".toList] else []

/-- A name of the form of the recordings, whose texts are read as the fields. -/
def Named (stem : List Char) (name : List UInt8) (f : Fields) : Prop :=
  ∃ camera run sequence : List Char,
    name = utf8.encode (stem ++ ".cam".toList ++
      ['.'].intercalate (pieces camera f.stamp run sequence f.pending)) ∧
    parse (2 ^ 64) camera = some f.camera ∧ '.' ∉ f.stamp ∧
    from_str_radix (2 ^ 128) run = some f.run ∧ parse (2 ^ 64) sequence = some f.sequence

theorem dot_notMem_of_parse {bound n : Nat} {text : List Char} (h : parse bound text = some n) :
    '.' ∉ text := by
  intro hdot
  unfold parse at h
  dsimp only at h
  split_ifs at h with hplus hall hall
  · obtain ⟨cs, rfl⟩ := List.head?_eq_some_iff.mp hplus
    have hcs : '.' ∈ cs := (List.mem_cons.mp hdot).resolve_left (by decide)
    exact absurd (hall.2.1 '.' hcs) (by decide)
  · exact absurd (hall.2.1 '.' hdot) (by decide)

theorem dot_notMem_stamp {stamp : List Char} (h : valid_stamp stamp = true) : '.' ∉ stamp := by
  obtain ⟨m, -, -, rfl⟩ := of_valid_stamp h
  intro hmem
  exact absurd (of_mem_stamp hmem) (by decide)

/-- The dots of a name are where it is cut. -/
theorem splitOn_pieces {camera stamp run sequence : List Char} (pending : Bool)
    (hcamera : '.' ∉ camera) (hstamp : '.' ∉ stamp) (hrun : '.' ∉ run)
    (hsequence : '.' ∉ sequence) :
    (['.'].intercalate (pieces camera stamp run sequence pending)).splitOn '.' =
      pieces camera stamp run sequence pending := by
  refine List.splitOn_intercalate _ ?_ (List.cons_ne_nil _ _)
  unfold pieces
  rw [List.forall_mem_cons, List.forall_mem_cons, List.forall_mem_cons, List.forall_mem_cons,
    List.forall_mem_cons]
  refine ⟨hcamera, hstamp, ?_, ?_, by decide, fun l hl => ?_⟩
  · exact fun h => (List.mem_cons.mp h).elim (by decide) hrun
  · exact fun h => (List.mem_cons.mp h).elim (by decide) hsequence
  · split at hl
    · rw [List.mem_singleton.mp hl]
      decide
    · cases hl

namespace Namespace

theorem pending_of_some {more : List (List Char)} {pending : Bool}
    (h : pending_of more = some pending) :
    more = if pending then ["pending".toList] else [] := by
  unfold pending_of at h
  split at h
  · cases h
    rfl
  · split_ifs at h with hlast
    cases h
    rw [hlast]
    rfl
  · cases h

/-- What `prune` goes on with says that the recording expired. -/
theorem read_fields.spec {cutoff : List Char} {fields : List (List Char)} {c r n : Nat}
    {pending : Bool} (h : read_fields cutoff fields = some (c, r, n, pending)) :
    ∃ camera stamp run sequence, fields = pieces camera stamp run sequence pending ∧
      valid_stamp stamp = true ∧ stamp < cutoff ∧ parse (2 ^ 64) camera = some c ∧
      from_str_radix (2 ^ 128) run = some r ∧ parse (2 ^ 64) sequence = some n := by
  unfold read_fields at h
  split at h
  · rename_i camera stamp run sequence extension more
    split_ifs at h with hguard
    simp only [not_or, not_not] at hguard
    obtain ⟨-, -, hstamp, hcutoff, -, hrun, -, hsequence, -, rfl⟩ := hguard
    simp only [Option.bind_eq_bind, Option.bind_eq_some_iff] at h
    obtain ⟨p, hpending, a, ha, b, hb, d, hd, heq⟩ := h
    cases heq
    obtain ⟨run, rfl⟩ := List.head?_eq_some_iff.mp hrun
    obtain ⟨sequence, rfl⟩ := List.head?_eq_some_iff.mp hsequence
    refine ⟨camera, stamp, run, sequence, ?_, hstamp, hcutoff, ha, hb, hd⟩
    rw [pending_of_some hpending]
    rfl
  · cases h

theorem pieces_inj {c c' t t' r r' s s' : List Char} {p p' : Bool}
    (h : pieces c t r s p = pieces c' t' r' s' p') :
    c = c' ∧ t = t' ∧ r = r' ∧ s = s' ∧ p = p' := by
  unfold pieces at h
  cases p <;> cases p' <;> simp_all

/-- What is read of a name is what it says, and it says that the recording expired. -/
theorem read_name.named {ns : Namespace} {cutoff : List Char} {name : List UInt8} {f : Fields}
    {c r n : Nat} {pending : Bool} (hname : Named ns.stem name f)
    (h : ns.read_name cutoff name = some (c, r, n, pending)) :
    (c = f.camera ∧ r = f.run ∧ n = f.sequence ∧ pending = f.pending) ∧
      valid_stamp f.stamp = true ∧ f.stamp < cutoff := by
  obtain ⟨camera, run, sequence, rfl, hcamera, hstamp, hrun, hsequence⟩ := hname
  have hsplit := splitOn_pieces f.pending (dot_notMem_of_parse hcamera) hstamp
    (fun hdot => (of_from_str_radix hrun '.' hdot).2 rfl) (dot_notMem_of_parse hsequence)
  unfold read_name at h
  simp only [utf8.decode_encode, Option.bind_eq_bind, Option.bind_some,
    List.dropPrefix?_append_of_beq _ (beq_self_eq_true _), hsplit] at h
  obtain ⟨camera', stamp', run', sequence', heq, hvalid, hcutoff, hc, hr, hn⟩ := read_fields.spec h
  obtain ⟨rfl, rfl, rfl, rfl, rfl⟩ := pieces_inj heq
  rw [hc] at hcamera
  rw [hr] at hrun
  rw [hn] at hsequence
  cases hcamera
  cases hrun
  cases hsequence
  exact ⟨⟨rfl, rfl, rfl, rfl⟩, hvalid, hcutoff⟩

/-- Only the names of recordings are read. -/
theorem read_name.exists {ns : Namespace} {cutoff : List Char} {name : List UInt8} {c r n : Nat}
    {pending : Bool} (h : ns.read_name cutoff name = some (c, r, n, pending)) :
    ∃ stamp, Named ns.stem name ⟨c, stamp, r, n, pending⟩ := by
  unfold read_name at h
  simp only [Option.bind_eq_bind, Option.bind_eq_some_iff] at h
  obtain ⟨text, htext, rest, hrest, hfields⟩ := h
  obtain ⟨start, rfl, hstart⟩ := List.dropPrefix?_eq_some_iff.mp hrest
  obtain ⟨camera, stamp, run, sequence, heq, hvalid, -, hc, hr, hn⟩ := read_fields.spec hfields
  refine ⟨stamp, camera, run, sequence, ?_, hc, dot_notMem_stamp hvalid, hr, hn⟩
  dsimp only
  rw [← heq, List.intercalate_splitOn, ← eq_of_beq hstart, utf8.encode_of_decode htext]

/-- A file that `prune` removes is named like an expired recording, and its beginning is the
header of the owner for what the name says. -/
theorem prunes.spec {ns : Namespace} {cutoff : Nat} {file : File} {f : Fields}
    (hname : Named ns.stem file.name f) (h : ns.prunes cutoff file = true) :
    (∀ t, f.stamp = utc t false → t < cutoff) ∧ 64 ≤ file.content.length ∧
      file.content.take 64 = header ns.owner f.camera f.run f.sequence ∧
      (f.pending = true → f.run ≠ ns.run ∧ file.modified < cutoff) := by
  unfold prunes at h
  split at h
  · cases h
  rename_i c r n pending hread
  obtain ⟨⟨rfl, rfl, rfl, rfl⟩, hvalid, hcutoff⟩ := read_name.named hname hread
  split_ifs at h with hkept hrecent
  simp only [not_or, not_and, not_not] at hkept hrecent
  obtain ⟨-, -, hrun, -⟩ := hkept
  rw [Bool.and_eq_true, decide_eq_true_eq, beq_iff_eq] at h
  refine ⟨fun t ht => ?_, h.1, h.2, fun hpending => ⟨hrun hpending, ?_⟩⟩
  · rw [ht] at hvalid hcutoff
    exact lt_of_utc_lt hvalid hcutoff
  · exact Int.lt_of_not_ge (hrecent hpending).2

theorem prunes_of_read {ns : Namespace} {cutoff : Nat} {file : File} {c r n : Nat} {pending : Bool}
    (h : ns.read_name (utc cutoff false) file.name = some (c, r, n, pending)) :
    ns.prunes cutoff file =
      if c = 0 ∨ 1024 < c ∨ (pending ∧ r = ns.run) ∨ ¬ file.is_file then false
      else if pending ∧ (file.modified < 0 ∨ cutoff ≤ file.modified) then false
      else 64 ≤ file.content.length && file.content.take 64 == header ns.owner c r n := by
  unfold prunes
  rw [h]

theorem prunes.named {ns : Namespace} {cutoff : Nat} {file : File}
    (h : ns.prunes cutoff file = true) : ∃ f, Named ns.stem file.name f := by
  unfold prunes at h
  split at h
  · cases h
  rename_i hread
  obtain ⟨stamp, hname⟩ := read_name.exists hread
  exact ⟨_, hname⟩

theorem mem_prune {ns : Namespace} {cutoff : Nat} {directory : List File} {file : File} :
    file ∈ (ns.prune cutoff directory).1 ↔ file ∈ directory ∧ ns.prunes cutoff file = false := by
  unfold prune
  rw [List.mem_filter, Bool.not_eq_true']

end Namespace

/-! ## What a run leaves behind -/

/-- The sizes of a run, as `Settings::validate` checks them. -/
structure Sizes where
  block : Nat
  file_size : Nat
  block_le : 64 ≤ block
  file_size_pos : 0 < file_size
  whole : block ∣ file_size

/-- How far the writer of a recording is: in `prepare`, at an offset after it, or through
with `finish`. -/
inductive Stage where
  | reserving
  | writing (offset : Nat)
  | closed

structure Recording where
  stamp : Nat
  pending : Bool
  content : List UInt8
  modified : Nat
  stage : Stage

namespace Recording

/-- The file of a recording. -/
def file (r : Recording) (ns : Namespace) (camera sequence : Nat) : File where
  name := utf8.encode (ns.name camera sequence r.stamp r.pending)
  is_file := true
  modified := r.modified
  content := r.content

/-- The states of a recording between two calls or inside one, `now` being the clock: what is
found on the disk when the run stops there. A call that writes bytes may stop after any number
of them. -/
inductive Reached (ns : Namespace) (sizes : Sizes) (head : List UInt8) : Recording → Prop
  | created (now : Nat) : Reached ns sizes head ⟨now, true, [], now, .reserving⟩
  /-- `reserve`, and `set_len` -/
  | set_len {r} (now : Nat) (h : Reached ns sizes head r) (hr : r.stage = .reserving) :
    Reached ns sizes head
      { r with content := bytes.resize r.content sizes.file_size, modified := now }
  /-- the fallback of `reserve` -/
  | fallback {r} (buffer : List UInt8) (now : Nat) (h : Reached ns sizes head r)
    (hr : r.stage = .reserving) :
    Reached ns sizes head { r with content := r.content ++ buffer, modified := now }
  | write_head {r} (n now : Nat) (h : Reached ns sizes head r) (hr : r.stage = .reserving)
    (hdirect : ns.direct = false) :
    Reached ns sizes head
      { r with content := bytes.patch r.content 0 (head.take n), modified := now }
  /-- `prepare` returns: the length is set, and in buffered mode the header is written -/
  | prepared {r} (now : Nat) (h : Reached ns sizes head r) (hr : r.stage = .reserving) :
    Reached ns sizes head
      { r with
        content :=
          if ns.direct then bytes.resize r.content sizes.file_size
          else bytes.patch (bytes.resize r.content sizes.file_size) 0 head
        modified := now
        stage := .writing 0 }
  /-- `write_all` of the camera, whose first block begins with the header -/
  | write {r} {offset : Nat} (block : List UInt8) (n now : Nat) (h : Reached ns sizes head r)
    (hr : r.stage = .writing offset) (hend : offset ≠ sizes.file_size)
    (hblock : block.length = sizes.block) (hhead : offset = 0 → block.take 64 = head) :
    Reached ns sizes head
      { r with content := bytes.patch r.content offset (block.take n), modified := now }
  | written {r} {offset : Nat} (block : List UInt8) (now : Nat) (h : Reached ns sizes head r)
    (hr : r.stage = .writing offset) (hend : offset ≠ sizes.file_size)
    (hblock : block.length = sizes.block) (hhead : offset = 0 → block.take 64 = head) :
    Reached ns sizes head
      { r with
        content := bytes.patch r.content offset block
        modified := now
        stage := .writing (offset + sizes.block) }
  /-- `finish` of a recording with bytes in it -/
  | finish {r} {offset : Nat} (now : Nat) (h : Reached ns sizes head r)
    (hr : r.stage = .writing offset) (hwritten : 0 < offset) :
    Reached ns sizes head { r with stamp := now, pending := false, stage := .closed }

/-- The header has been written: the recording is closed, or `prepare` returned and, in
direct mode, the camera wrote its first block. -/
def Marked (ns : Namespace) (r : Recording) : Prop :=
  match r.stage with
  | .reserving => False
  | .writing offset => ns.direct = false ∨ 0 < offset
  | .closed => True

/-- The length is that of the settings, and the header is there once it is written. -/
def Kept (ns : Namespace) (sizes : Sizes) (head : List UInt8) (r : Recording) : Prop :=
  match r.stage with
  | .reserving => True
  | .writing offset =>
    r.content.length = sizes.file_size ∧ sizes.block ∣ offset ∧ offset ≤ sizes.file_size ∧
      (ns.direct = false ∨ 0 < offset → r.content.take 64 = head)
  | .closed => r.content.length = sizes.file_size ∧ r.content.take 64 = head

/-- A block that goes over the beginning of a file keeps the header, when it begins with it. -/
theorem take_patch_zero {content block head : List UInt8} {n : Nat} (hhead : head.length = 64)
    (hblock : block.take 64 = head) (h : 64 ≤ n ∨ content.take 64 = head) :
    (bytes.patch content 0 (block.take n)).take 64 = head := by
  unfold bytes.patch
  rw [List.take_zero, List.nil_append, Nat.zero_add]
  rcases Nat.lt_or_ge n 64 with hn | hn
  · -- the rest of the header is the one that was there
    have hcontent := h.resolve_left (Nat.not_le_of_lt hn)
    have hlen : (block.take n).length = n := by
      have := congrArg List.length hblock
      rw [List.length_take, hhead] at this
      rw [List.length_take]
      omega
    rw [List.take_append, hlen, List.take_of_length_le (by omega), ← List.drop_take, hcontent,
      ← hblock, List.drop_take]
    have htake : block.take n = (block.take 64).take n := by
      rw [List.take_take, Nat.min_eq_left hn.le]
    rw [htake, ← List.drop_take, List.take_append_drop]
  · have hlen : 64 ≤ (block.take n).length := by
      have := congrArg List.length hblock
      rw [List.length_take, hhead] at this
      rw [List.length_take]
      omega
    rw [List.take_append_of_le_length hlen, List.take_take, Nat.min_eq_left hn, hblock]

theorem take_patch_later {content v : List UInt8} {i : Nat} (hi : 64 ≤ i) (h : i ≤ content.length) :
    (bytes.patch content i v).take 64 = content.take 64 := by
  unfold bytes.patch
  rw [List.append_assoc, List.take_append_of_le_length (by rw [List.length_take]; omega),
    List.take_take, Nat.min_eq_left hi]

theorem take_patch_head {content head : List UInt8} (hhead : head.length = 64) :
    (bytes.patch content 0 head).take 64 = head := by
  have htake : head.take 64 = head := List.take_of_length_le hhead.le
  have h := @take_patch_zero content head head 64 hhead htake (.inl (Nat.le_refl 64))
  rwa [htake] at h

section run

variable {ns : Namespace} {sizes : Sizes} {head : List UInt8}

theorem block_le_file_size (sizes : Sizes) : sizes.block ≤ sizes.file_size :=
  Nat.le_of_dvd sizes.file_size_pos sizes.whole

/-- There is room for a block where the camera writes. -/
theorem room (sizes : Sizes) {offset : Nat} (hdvd : sizes.block ∣ offset)
    (hle : offset ≤ sizes.file_size) (hend : offset ≠ sizes.file_size) :
    offset + sizes.block ≤ sizes.file_size := by
  have hlt : 0 < sizes.file_size - offset := by omega
  have := Nat.le_of_dvd hlt (Nat.dvd_sub sizes.whole hdvd)
  omega

/-- A write of a part of a block keeps the header, and the first block brings it. -/
theorem take_patch_block {content block : List UInt8} {offset n : Nat} (hhead : head.length = 64)
    (hlen : content.length = sizes.file_size) (hdvd : sizes.block ∣ offset)
    (hle : offset ≤ sizes.file_size) (hfirst : offset = 0 → block.take 64 = head)
    (h : 64 ≤ n ∧ offset = 0 ∨ content.take 64 = head) :
    (bytes.patch content offset (block.take n)).take 64 = head := by
  rcases Nat.eq_zero_or_pos offset with rfl | hpos
  · exact take_patch_zero hhead (hfirst rfl) (h.imp_left And.left)
  · have hblock := Nat.le_of_dvd hpos hdvd
    have hmin := sizes.block_le
    rw [take_patch_later (by omega) (by omega)]
    exact h.resolve_left fun h => hpos.ne' h.2

theorem Reached.kept {r : Recording} (hhead : head.length = 64) (h : Reached ns sizes head r) :
    Kept ns sizes head r := by
  have hblock := block_le_file_size sizes
  have hmin := sizes.block_le
  induction h with
  | created => trivial
  | set_len now h hr ih => simp only [Kept, hr]
  | fallback buffer now h hr ih => simp only [Kept, hr]
  | write_head n now h hr hdirect ih => simp only [Kept, hr]
  | prepared now h hr ih =>
    refine ⟨?_, Nat.dvd_zero _, Nat.zero_le _, fun hmarked => ?_⟩
    · dsimp only
      split
      · exact bytes.resize_length _ _
      · rw [bytes.patch_length (by rw [bytes.resize_length]; omega), bytes.resize_length]
    · rw [if_neg (by simp [hmarked.resolve_right (Nat.lt_irrefl 0)])]
      exact take_patch_head hhead
  | @write r offset block n now h hr hend hlen hfirst ih =>
    simp only [Kept, hr] at ih ⊢
    obtain ⟨hlength, hdvd, hle, hmarked⟩ := ih
    have hroom := room sizes hdvd hle hend
    refine ⟨?_, hdvd, hle, fun hm =>
      take_patch_block hhead hlength hdvd hle hfirst (.inr (hmarked hm))⟩
    rw [bytes.patch_length (by rw [List.length_take]; omega), hlength]
  | @written r offset block now h hr hend hlen hfirst ih =>
    simp only [Kept, hr] at ih ⊢
    obtain ⟨hlength, hdvd, hle, hmarked⟩ := ih
    have hroom := room sizes hdvd hle hend
    refine ⟨?_, Nat.dvd_add hdvd (Nat.dvd_refl _), hroom, fun _ => ?_⟩
    · rw [bytes.patch_length (by omega), hlength]
    · have hwhole : block.take sizes.block = block := List.take_of_length_le hlen.le
      rw [← hwhole]
      refine take_patch_block hhead hlength hdvd hle hfirst ?_
      rcases Nat.eq_zero_or_pos offset with rfl | hpos
      · exact .inl ⟨hmin, rfl⟩
      · exact .inr (hmarked (.inr hpos))
  | finish now h hr hwritten ih =>
    simp only [Kept, hr] at ih
    exact ⟨ih.1, ih.2.2.2 (.inr hwritten)⟩

/-- A recording that is marked begins with its header. -/
theorem Reached.headed {r : Recording} (hhead : head.length = 64) (h : Reached ns sizes head r)
    (hmarked : r.Marked ns) : 64 ≤ r.content.length ∧ r.content.take 64 = head := by
  have hkept := h.kept hhead
  have hblock := block_le_file_size sizes
  have hmin := sizes.block_le
  unfold Kept at hkept
  unfold Marked at hmarked
  split at hmarked
  · exact hmarked.elim
  · rename_i offset hr
    rw [hr] at hkept
    exact ⟨by omega, hkept.2.2.2 hmarked⟩
  · rename_i hr
    rw [hr] at hkept
    exact ⟨by omega, hkept.2⟩

end run

end Recording

/-! ## The names that a run writes -/

theorem byte_len_ascii {text : List Char} (h : ∀ c ∈ text, c.toNat < 128) :
    Namespace.byte_len text = text.length := by
  unfold Namespace.byte_len
  rw [utf8.encode_of_lt h, List.length_map]

theorem ascii_of_digits {ds : List Char} (h : Digits ds) : ∀ c ∈ ds, c.toNat < 128 := by
  have hall := digits_ascii h
  rw [List.all_eq_true] at hall
  exact fun c hc => of_decide_eq_true (hall c hc)

theorem parse_padded {bound w n : Nat} (h : n < bound) : parse bound (padded w n) = some n := by
  rw [parse_digits (padded_ne_nil w n) (padded_digits w n), number_padded, if_pos h]

namespace Namespace

theorem name_eq (ns : Namespace) (camera sequence stamp : Nat) (pending : Bool) :
    ns.name camera sequence stamp pending = ns.stem ++ ".cam".toList ++
      ['.'].intercalate (pieces (padded 6 camera) (utc stamp false) (padded_hex 32 ns.run)
        (padded 10 sequence) pending) := by
  cases pending <;>
    simp [name, pieces, List.intercalate]

theorem pending_of_pieces (pending : Bool) :
    pending_of (if pending then ["pending".toList] else []) = some pending := by
  cases pending <;> rfl

/-- A name that a run writes is read back, once its stamp is before the cutoff. -/
theorem read_name_name {ns writer : Namespace} {camera sequence stamp cutoff : Nat} (pending : Bool)
    (hstem : writer.stem = ns.stem) (hcamera : camera < 10 ^ 6) (hsequence : sequence < 10 ^ 10)
    (hstamp : stamp < cutoff) (hcutoff : Written (calendar.at_second cutoff)) :
    ns.read_name (utc cutoff false)
        (utf8.encode (writer.name camera sequence stamp pending)) =
      some (camera, writer.run, sequence, pending) := by
  have hwritten := written_before hstamp hcutoff
  have hvalid := valid_stamp_utc hwritten
  have hlt := (utc_lt_iff hwritten hcutoff).mpr hstamp
  have hcam : parse (2 ^ 64) (padded 6 camera) = some camera := parse_padded (by omega)
  have hseq : parse (2 ^ 64) (padded 10 sequence) = some sequence := parse_padded (by omega)
  have hrun : from_str_radix (2 ^ 128) (padded_hex 32 writer.run) = some writer.run :=
    from_str_radix_padded writer.run_lt
  have hsplit := splitOn_pieces pending (dot_notMem_of_parse hcam)
    (dot_notMem_stamp hvalid) (fun hdot => (of_from_str_radix hrun '.' hdot).2 rfl)
    (dot_notMem_of_parse hseq)
  unfold read_name
  rw [name_eq, hstem]
  simp only [utf8.decode_encode, Option.bind_eq_bind, Option.bind_some,
    List.dropPrefix?_append_of_beq _ (beq_self_eq_true _), hsplit]
  unfold pieces read_fields
  dsimp only
  rw [if_neg]
  · simp only [pending_of_pieces, Option.bind_eq_bind, Option.bind_some, hcam,
      List.tail_cons, hrun, hseq]
  · simp only [not_or, not_not]
    have hlen6 : byte_len (padded 6 camera) = 6 := by
      rw [byte_len_ascii (ascii_of_digits (padded_digits _ _)), padded_length (by decide) hcamera]
    have hlen33 : byte_len ('r' :: padded_hex 32 writer.run) = 33 := by
      rw [byte_len_ascii, List.length_cons, padded_hex_length (by decide) writer.run_lt]
      exact List.forall_mem_cons.mpr ⟨by decide, fun c hc => (of_from_str_radix hrun c hc).1⟩
    have hlen11 : byte_len ('s' :: padded 10 sequence) = 11 := by
      rw [byte_len_ascii, List.length_cons, padded_length (by decide) hsequence]
      exact List.forall_mem_cons.mpr ⟨by decide, ascii_of_digits (padded_digits _ _)⟩
    exact ⟨hlen6, List.all_eq_true.mpr (padded_digits _ _), hvalid, hlt, hlen33, rfl, hlen11, rfl,
      List.all_eq_true.mpr (padded_digits _ _), trivial⟩

end Namespace

/-! ## The law of retention -/

/-- What a run of `writer` may leave on the disk for a camera and a sequence. -/
structure Leaves (writer : Namespace) (sizes : Sizes) (camera sequence : Nat) (r : Recording) :
    Prop where
  camera_mem : 1 ≤ camera ∧ camera ≤ 1024
  sequence_lt : sequence < 2 ^ 64
  reached : r.Reached writer sizes (header writer.owner camera writer.run sequence)

/-- The retention of `ns` is over for a recording of a run of `writer`: its stamp is before the
cutoff, and a pending one is of another run and was last modified before the cutoff. -/
def Expired (ns writer : Namespace) (cutoff : Nat) (r : Recording) : Prop :=
  r.stamp < cutoff ∧ (r.pending = true → writer.run ≠ ns.run ∧ r.modified < cutoff)

/-- What is removed is named like a recording that is expired, not of this run while it is
pending, and begins with the header of the owner for what the name says. -/
def Spares (ns : Namespace) (cutoff : Nat) (directory : List File) : Prop :=
  ∀ file ∈ directory, file ∉ (ns.prune cutoff directory).1 →
    (∃ f, Named ns.stem file.name f) ∧ ∀ f, Named ns.stem file.name f →
      (∀ t, f.stamp = utc t false → t < cutoff) ∧ 64 ≤ file.content.length ∧
      file.content.take 64 = header ns.owner f.camera f.run f.sequence ∧
      (f.pending = true → f.run ≠ ns.run ∧ file.modified < cutoff)

theorem spares (ns : Namespace) (cutoff : Nat) (directory : List File) :
    Spares ns cutoff directory := by
  intro file hmem hremoved
  have hprunes : ns.prunes cutoff file = true := by
    rw [Namespace.mem_prune, not_and, Bool.not_eq_false] at hremoved
    exact hremoved hmem
  exact ⟨Namespace.prunes.named hprunes, fun f hname => Namespace.prunes.spec hname hprunes⟩

/-- Every expired file of a kind that a run of the owner left is removed. -/
def Clears (ns : Namespace) (cutoff : Nat) (directory : List File)
    (Kind : Namespace → Nat → Recording → Prop) : Prop :=
  ∀ writer sizes camera sequence r, writer.stem = ns.stem → writer.owner = ns.owner →
    Leaves writer sizes camera sequence r → Expired ns writer cutoff r → Kind writer sequence r →
    r.file writer camera sequence ∉ (ns.prune cutoff directory).1

/-- A marked recording with ten digits for its sequence is removed once it is expired. -/
theorem clears {ns : Namespace} {cutoff : Nat} (directory : List File)
    (hcutoff : Written (calendar.at_second cutoff)) :
    Clears ns cutoff directory fun writer sequence r => sequence < 10 ^ 10 ∧ r.Marked writer := by
  intro writer sizes camera sequence r hstem howner hleaves hexpired hkind hmem
  obtain ⟨hsequence, hmarked⟩ := hkind
  obtain ⟨hstamp, hpending⟩ := hexpired
  obtain ⟨hcam1, hcam⟩ := hleaves.camera_mem
  obtain ⟨hlen, hhead⟩ := hleaves.reached.headed (header_length _ _ _ _) hmarked
  have hread : ns.read_name (utc cutoff false) (r.file writer camera sequence).name =
      some (camera, writer.run, sequence, r.pending) :=
    Namespace.read_name_name r.pending hstem (by omega) hsequence hstamp hcutoff
  have hmodified : (r.file writer camera sequence).modified = r.modified := rfl
  have hkept := (Namespace.mem_prune.mp hmem).2
  rw [Namespace.prunes_of_read hread, if_neg, if_neg] at hkept
  · rw [Bool.and_eq_false_iff, decide_eq_false_iff_not, beq_eq_false_iff_ne, ← howner] at hkept
    exact hkept.elim (fun h => h hlen) (fun h => h hhead)
  · rintro ⟨hp, hrecent⟩
    have := (hpending hp).2
    omega
  · rintro (h | h | ⟨hp, hrun⟩ | h)
    · omega
    · omega
    · exact (hpending hp).1 hrun
    · exact h rfl

/-- `prune` removes only what is expired and bears the owner's header for its name, and it
removes every expired file that a run of the owner left after it wrote the header. -/
theorem prune_removes_the_expired_recordings_that_bear_their_header (ns : Namespace) (cutoff : Nat)
    (directory : List File) :
    Spares ns cutoff directory ∧
    (Written (calendar.at_second cutoff) →
      Clears ns cutoff directory fun writer sequence r => sequence < 10 ^ 10 ∧ r.Marked writer) :=
  ⟨spares ns cutoff directory, clears directory⟩

/-- A reservation of a run in buffered mode that stopped after it was prepared. -/
def crashed (sequence : Nat) : Recording :=
  ⟨1, true, bytes.patch (bytes.resize [] 64) 0 (header 7 1 1 sequence), 1, .writing 0⟩

/-- A run of the owner, and the one that stopped. -/
def pruning : Namespace := ⟨"camera".toList, false, 7, 2, by decide⟩

def stopped : Namespace := ⟨"camera".toList, false, 7, 1, by decide⟩

def smallest : Sizes := ⟨64, 64, by decide, by decide, by decide⟩

theorem crashed_left {sequence : Nat} (h : sequence < 2 ^ 64) :
    Leaves stopped smallest 1 sequence (crashed sequence) :=
  ⟨by decide, h, .prepared 1 (.created 1) rfl⟩

/-- It is removed when its retention is over. -/
theorem a_marked_reservation_is_removed :
    (crashed 1).file stopped 1 1 ∉ (pruning.prune 100 [(crashed 1).file stopped 1 1]).1 :=
  (prune_removes_the_expired_recordings_that_bear_their_header pruning 100
    [(crashed 1).file stopped 1 1]).2 (written_of_valid (by decide +kernel)) stopped smallest 1 1
      (crashed 1) rfl rfl (crashed_left (by decide)) ⟨by decide, fun _ => by decide⟩
      ⟨by decide, .inl rfl⟩

/-- A sequence of eleven digits makes the name too long for it, and a cutoff with five digits for
its year comes before the stamps of this century. -/
theorem prune_reads_ten_digits_and_four :
    (¬ ∀ ns cutoff directory, Written (calendar.at_second cutoff) →
      Clears ns cutoff directory fun writer _ r => r.Marked writer) ∧
    ¬ ∀ ns cutoff directory, Clears ns cutoff directory fun writer sequence r =>
      sequence < 10 ^ 10 ∧ r.Marked writer := by
  constructor
  · intro h
    refine h pruning 100 [(crashed (10 ^ 10)).file stopped 1 (10 ^ 10)]
      (written_of_valid (by decide +kernel)) stopped smallest 1 (10 ^ 10) (crashed (10 ^ 10)) rfl rfl
      (crashed_left (by decide)) ⟨by decide, fun _ => by decide⟩ (.inl rfl) ?_
    exact Namespace.mem_prune.mpr ⟨List.mem_singleton_self _, by decide +kernel⟩
  · intro h
    refine h pruning 253402300800 [(crashed 1).file stopped 1 1] stopped smallest 1 1 (crashed 1)
      rfl rfl (crashed_left (by decide)) ⟨by decide, fun _ => by decide⟩ ⟨by decide, .inl rfl⟩ ?_
    exact Namespace.mem_prune.mpr ⟨List.mem_singleton_self _, by decide +kernel⟩

/-- A reservation of a run in direct mode that stopped before the first block has no header,
and stays for ever. -/
theorem prune_leaves_a_reservation_without_its_header :
    ¬ ∀ ns cutoff directory, Spares ns cutoff directory ∧
      Clears ns cutoff directory fun _ _ _ => True := by
  intro h
  let ns : Namespace := ⟨"camera".toList, true, 7, 2, by decide⟩
  let writer : Namespace := ⟨"camera".toList, true, 7, 1, by decide⟩
  let sizes : Sizes := ⟨4096, 4096, by decide, by decide, by decide⟩
  let r : Recording := ⟨1, true, bytes.resize [] 4096, 1, .writing 0⟩
  have hreached : r.Reached writer sizes (header 7 1 1 1) := .prepared 1 (.created 1) rfl
  refine (h ns 100 [r.file writer 1 1]).2 writer sizes 1 1 r rfl rfl
    ⟨by decide, by decide, hreached⟩ ⟨by decide, fun _ => by decide⟩ trivial ?_
  rw [Namespace.mem_prune]
  refine ⟨List.mem_singleton_self _, ?_⟩
  by_contra hprunes
  rw [Bool.not_eq_false] at hprunes
  obtain ⟨f, hname⟩ := Namespace.prunes.named hprunes
  obtain ⟨-, -, hhead, -⟩ := Namespace.prunes.spec hname hprunes
  have hmem : 0x53 ∈ (r.file writer 1 1).content.take 64 := by
    rw [hhead]
    exact List.mem_cons_self
  have hzero : 0x53 ∈ bytes.resize [] 4096 := List.mem_of_mem_take hmem
  rw [bytes.resize, List.take_nil, List.nil_append] at hzero
  exact absurd (List.eq_of_mem_replicate hzero) (by decide)

end stutools.cctv
