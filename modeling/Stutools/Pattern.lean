-- The payload of a write: a seeded 4 KiB pattern with an absolute address in
-- every 512-byte sector. Each way the code writes or checks it comes down to
-- one byte for each address and seed.
import Mathlib.Data.List.Basic
import Mathlib.Data.List.Range
import Mathlib.Data.List.GetD
import Mathlib.Tactic.Ring

namespace stutools

namespace pattern

def GOLDEN : UInt64 := 0x9e3779b97f4a7c15

def mix (x : UInt64) : UInt64 :=
  let x := (x ^^^ (x >>> 30)) * 0xbf58476d1ce4e5b9
  let x := (x ^^^ (x >>> 27)) * 0x94d049bb133111eb
  x ^^^ (x >>> 31)

/-- `u64::to_le_bytes`. -/
def to_le_bytes (x : UInt64) : List UInt8 :=
  (List.range 8).map fun i => (x >>> (8 * i).toUInt64).toUInt8

/-- The eight bytes at an offset that is a multiple of 8. -/
def word (offset : Nat) (seed : UInt64) : List UInt8 :=
  if offset % 512 = 0 then to_le_bytes (offset.toUInt64 ^^^ seed * GOLDEN)
  else to_le_bytes (mix ((offset % 4096 / 8).toUInt64 ^^^ seed * GOLDEN))

/-- Overwrites the buffer with the pattern of `[offset, offset + buf.len())`. -/
def fill (buf : List UInt8) (offset : Nat) (seed : UInt64) : List UInt8 :=
  if _h : buf = [] then []
  else
    let skip := offset % 8
    let n := min (8 - skip) buf.length
    ((word (offset - skip) seed).drop skip).take n ++ fill (buf.drop n) (offset + n) seed
termination_by buf.length
decreasing_by
  have := List.length_pos_of_ne_nil _h
  simp only [List.length_drop]
  omega

/-- Rewrites only the address at the head of each 512-byte sector. -/
def stamp (buf : List UInt8) (offset : Nat) (seed : UInt64) : List UInt8 :=
  if _h : buf = [] then []
  else
    let sector := buf.take 512
    let n := min sector.length 8
    (word offset seed).take n ++ sector.drop n ++ stamp (buf.drop 512) (offset + 512) seed
termination_by buf.length
decreasing_by
  have := List.length_pos_of_ne_nil _h
  simp only [List.length_drop]
  omega

/-- The copy loop of `fill_cached`: `len` bytes of the template, which repeats,
from `phase` on. -/
def copy_template (template : List UInt8) (len phase : Nat) : List UInt8 :=
  if _h : len = 0 ∨ template.length ≤ phase then []
  else
    let n := min len (template.length - phase)
    (template.drop phase).take n ++ copy_template template (len - n) 0
termination_by len
decreasing_by omega

/-- `fill` from a template of the first 4096 bytes, where sectors allow it. -/
def fill_cached (buf : List UInt8) (offset : Nat) (seed : UInt64) (template : List UInt8) :
    List UInt8 :=
  if offset % 512 ≠ 0 ∨ buf.length % 512 ≠ 0 then fill buf offset seed
  else stamp (copy_template template buf.length (offset % template.length)) offset seed

end pattern

/-- Whether the buffer holds the pattern of its extent. -/
def pattern.matches (buf : List UInt8) (offset : Nat) (seed : UInt64) : Bool :=
  if _h : buf = [] then true
  else
    let skip := offset % 8
    let n := min (8 - skip) buf.length
    if buf.take n ≠ ((pattern.word (offset - skip) seed).drop skip).take n then false
    else pattern.matches (buf.drop n) (offset + n) seed
termination_by buf.length
decreasing_by
  have := List.length_pos_of_ne_nil _h
  simp only [List.length_drop]
  omega

namespace pattern

/-- `matches` from a template of the first 4096 bytes, sector by sector. -/
def matches_sectors (buf : List UInt8) (offset : Nat) (seed : UInt64) (template : List UInt8) :
    Bool :=
  if _h : buf.length < 512 then true
  else
    let sector := buf.take 512
    let phase := offset % template.length
    if sector.take 8 ≠ word offset seed ∨
        sector.drop 8 ≠ (template.drop (phase + 8)).take 504 then false
    else matches_sectors (buf.drop 512) (offset + 512) seed template
termination_by buf.length
decreasing_by
  simp only [List.length_drop]
  omega

def matches_cached (buf : List UInt8) (offset : Nat) (seed : UInt64) (template : List UInt8) :
    Bool :=
  if offset % 512 ≠ 0 ∨ buf.length % 512 ≠ 0 then pattern.matches buf offset seed
  else matches_sectors buf offset seed template

/-- One draw of the generator: the new state, and the number drawn. -/
def random (state : UInt64) : UInt64 × UInt64 :=
  let state := state + GOLDEN
  (mix state, state)

/-! ## The byte of an address -/

/-- The byte that the pattern of a seed has at an address. -/
def byte_at (x : Nat) (seed : UInt64) : UInt8 := (word (x - x % 8) seed).getD (x % 8) 0

/-- The pattern of an extent. -/
def bytes_of (offset len : Nat) (seed : UInt64) : List UInt8 :=
  (List.range len).map fun i => byte_at (offset + i) seed

@[simp] theorem word_length (offset : Nat) (seed : UInt64) : (word offset seed).length = 8 := by
  unfold word to_le_bytes
  split <;> simp

@[simp] theorem bytes_of_length (offset len : Nat) (seed : UInt64) :
    (bytes_of offset len seed).length = len := by
  simp [bytes_of]

@[simp] theorem bytes_of_getElem (offset len : Nat) (seed : UInt64) (i : Nat)
    (h : i < (bytes_of offset len seed).length) :
    (bytes_of offset len seed)[i] = byte_at (offset + i) seed := by
  simp [bytes_of]

theorem bytes_of_append (offset m n : Nat) (seed : UInt64) :
    bytes_of offset (m + n) seed = bytes_of offset m seed ++ bytes_of (offset + m) n seed := by
  unfold bytes_of
  rw [List.range_add, List.map_append, List.map_map]
  congr 1
  apply List.map_congr_left
  intro i _
  simp [Nat.add_assoc]

/-- The bytes of one word of the pattern. -/
theorem byte_at_of_word (x i : Nat) (seed : UInt64) (hx : x % 8 = 0) (hi : i < 8) :
    byte_at (x + i) seed = (word x seed).getD i 0 := by
  unfold byte_at
  have h1 : (x + i) % 8 = i := by omega
  have h2 : x + i - i = x := by omega
  rw [h1, h2]

/-- The part of a word that `fill` and `matches` take at one turn. -/
theorem word_part (offset n : Nat) (seed : UInt64) (hn : n ≤ 8 - offset % 8) :
    ((word (offset - offset % 8) seed).drop (offset % 8)).take n = bytes_of offset n seed := by
  apply List.ext_getElem
  · simp
    omega
  · intro i h1 h2
    simp only [bytes_of_length] at h2
    have hx : offset + i = (offset - offset % 8) + (offset % 8 + i) := by omega
    rw [List.getElem_take, List.getElem_drop, bytes_of_getElem, hx,
      byte_at_of_word _ _ _ (by omega) (by omega), List.getD_eq_getElem _ _ (by simp; omega)]

/-- `fill` gives each byte of the extent its pattern, whatever the buffer held. -/
theorem fill.spec (buf : List UInt8) (offset : Nat) (seed : UInt64) :
    fill buf offset seed = bytes_of offset buf.length seed := by
  rw [fill]
  split
  · rename_i h
    simp [h, bytes_of]
  · dsimp only
    rw [fill.spec, word_part _ _ _ (Nat.min_le_left _ _), List.length_drop, ← bytes_of_append]
    congr 1
    omega
termination_by buf.length
decreasing_by
  have := List.length_pos_of_ne_nil ‹_›
  simp only [List.length_drop]
  omega

/-- `matches` decides whether the buffer is the pattern of its extent. -/
theorem matches.spec (buf : List UInt8) (offset : Nat) (seed : UInt64) :
    pattern.matches buf offset seed = true ↔ buf = bytes_of offset buf.length seed := by
  rw [pattern.matches]
  split
  · rename_i h
    simp [h, bytes_of]
  · rename_i h
    have hpos := List.length_pos_of_ne_nil h
    set n := min (8 - offset % 8) buf.length with hn
    have hsplit : bytes_of offset buf.length seed =
        bytes_of offset n seed ++ bytes_of (offset + n) (buf.drop n).length seed := by
      rw [← bytes_of_append, List.length_drop]
      congr 1
      omega
    have htake : (buf.take n).length = (bytes_of offset n seed).length := by
      simp
      omega
    dsimp only
    rw [← hn, word_part _ _ _ (by omega)]
    have hiff : buf = bytes_of offset buf.length seed ↔
        buf.take n = bytes_of offset n seed ∧
          buf.drop n = bytes_of (offset + n) (buf.drop n).length seed := by
      rw [hsplit]
      conv_lhs => lhs; rw [← List.take_append_drop n buf]
      exact ⟨fun he => List.append_inj he htake, fun he => congrArg₂ (· ++ ·) he.1 he.2⟩
    rw [hiff]
    split
    · rename_i hne
      simp [hne]
    · rename_i heq
      rw [matches.spec]
      exact (and_iff_right (not_not.mp heq)).symm
termination_by buf.length
decreasing_by
  simp only [List.length_drop]
  omega

/-- `stamp` gives the first 8 bytes of each sector their pattern and keeps the rest. -/
theorem stamp.spec (buf : List UInt8) (offset : Nat) (seed : UInt64) (h : offset % 512 = 0) :
    stamp buf offset seed =
      buf.mapIdx fun i b => if i % 512 < 8 then byte_at (offset + i) seed else b := by
  rw [stamp]
  split
  · rename_i he
    simp [he]
  · dsimp only
    rw [stamp.spec _ _ _ (by omega)]
    apply List.ext_getElem
    · simp
      omega
    · intro i h1 h2
      simp only [List.length_mapIdx] at h2
      rw [List.getElem_mapIdx]
      by_cases hi : i < 512
      · rw [List.getElem_append_left (by simp; omega)]
        by_cases h8 : i < 8
        · rw [List.getElem_append_left (by simp; omega), List.getElem_take,
            if_pos (by omega), byte_at_of_word _ _ _ (by omega) h8,
            List.getD_eq_getElem _ _ (by simpa using h8)]
        · rw [List.getElem_append_right (by simp; omega), if_neg (by omega)]
          simp only [List.getElem_drop, List.getElem_take]
          congr 1
          simp
          omega
      · rw [List.getElem_append_right (by simp; omega), List.getElem_mapIdx, List.getElem_drop]
        have hlen : i - (List.take (min (List.take 512 buf).length 8) (word offset seed) ++
            List.drop (min (List.take 512 buf).length 8) (List.take 512 buf)).length = i - 512 := by
          simp
          omega
        simp only [hlen]
        have h1 : (i - 512) % 512 = i % 512 := by omega
        have h2 : offset + 512 + (i - 512) = offset + i := by omega
        have h3 : 512 + (i - 512) = i := by omega
        simp only [h1, h2, h3]
termination_by buf.length
decreasing_by
  have := List.length_pos_of_ne_nil ‹_›
  simp only [List.length_drop]
  omega

/-- Past the head of its sector, a byte depends only on its place in the 4 KiB pattern. -/
theorem byte_at_mod (x : Nat) (seed : UInt64) (h : 8 ≤ x % 512) :
    byte_at (x % 4096) seed = byte_at x seed := by
  unfold byte_at
  have h1 : x % 4096 % 8 = x % 8 := by omega
  have h2 : (x % 4096 - x % 8) % 512 ≠ 0 := by omega
  have h3 : (x - x % 8) % 512 ≠ 0 := by omega
  have h4 : (x % 4096 - x % 8) % 4096 / 8 = (x - x % 8) % 4096 / 8 := by omega
  rw [h1]
  simp only [word, h2, h3, h4, if_false]

/-- The template the worker keeps: the first 4096 bytes of the pattern. -/
def template_of (seed : UInt64) : List UInt8 := bytes_of 0 4096 seed

theorem copy_template.spec (len phase : Nat) (seed : UInt64) (h : phase < 4096) :
    copy_template (template_of seed) len phase =
      (List.range len).map fun i => byte_at ((phase + i) % 4096) seed := by
  rw [copy_template]
  have hlen : (template_of seed).length = 4096 := by simp [template_of]
  split
  · rename_i he
    have h0 : len = 0 := by omega
    simp [h0]
  · dsimp only
    rw [copy_template.spec _ _ _ (by omega), hlen]
    apply List.ext_getElem
    · simp [hlen]
    · intro i h1 h2
      simp only [List.length_map, List.length_range] at h2
      by_cases hi : i < 4096 - phase
      · rw [List.getElem_append_left (by simp [hlen]; omega)]
        simp only [template_of, List.getElem_take, List.getElem_drop, bytes_of_getElem,
          List.getElem_map, List.getElem_range, Nat.zero_add]
        rw [Nat.mod_eq_of_lt (by omega)]
      · rw [List.getElem_append_right (by simp [hlen]; omega)]
        simp only [List.getElem_map, List.getElem_range, List.length_take, List.length_drop, hlen]
        rw [show (0 + (i - min (min len (4096 - phase)) (4096 - phase))) % 4096 =
          (phase + i) % 4096 by omega]
termination_by len
decreasing_by omega

/-- `fill_cached` with the worker's template is `fill`. -/
theorem fill_cached.spec (buf : List UInt8) (offset : Nat) (seed : UInt64) :
    fill_cached buf offset seed (template_of seed) = bytes_of offset buf.length seed := by
  unfold fill_cached
  split
  · exact fill.spec buf offset seed
  · rename_i h
    have hlen : (template_of seed).length = 4096 := by simp [template_of]
    rw [stamp.spec _ _ _ (by omega), hlen, copy_template.spec _ _ _ (by omega)]
    apply List.ext_getElem
    · simp
    · intro i h1 h2
      simp only [List.getElem_mapIdx, List.getElem_map, List.getElem_range, bytes_of_getElem]
      split
      · rfl
      · rw [show (offset % 4096 + i) % 4096 = (offset + i) % 4096 by omega]
        exact byte_at_mod _ _ (by omega)

/-- The part of a sector past its head, as the template has it. -/
theorem template_part (offset : Nat) (seed : UInt64) (h : offset % 512 = 0) :
    ((template_of seed).drop (offset % 4096 + 8)).take 504 = bytes_of (offset + 8) 504 seed := by
  apply List.ext_getElem
  · simp [template_of]
    omega
  · intro i h1 h2
    simp only [bytes_of_length] at h2
    simp only [template_of, List.getElem_take, List.getElem_drop, bytes_of_getElem, Nat.zero_add]
    rw [show offset % 4096 + 8 + i = (offset + 8 + i) % 4096 by omega]
    exact byte_at_mod _ _ (by omega)

theorem matches_sectors.spec (buf : List UInt8) (offset : Nat) (seed : UInt64)
    (ho : offset % 512 = 0) (hl : buf.length % 512 = 0) :
    matches_sectors buf offset seed (template_of seed) = true ↔
      buf = bytes_of offset buf.length seed := by
  rw [matches_sectors]
  split
  · rename_i h
    have h0 : buf = [] := List.eq_nil_of_length_eq_zero (by omega)
    simp [h0, bytes_of]
  · rename_i h
    have hword : word offset seed = bytes_of offset 8 seed := by
      have := word_part offset 8 seed (by omega)
      rw [show offset % 8 = 0 by omega, List.drop_zero, Nat.sub_zero,
        List.take_of_length_le (by simp)] at this
      exact this
    have hlen : (template_of seed).length = 4096 := by simp [template_of]
    have hbuf : bytes_of offset buf.length seed = (bytes_of offset 8 seed ++
        bytes_of (offset + 8) 504 seed) ++ bytes_of (offset + 512) (buf.drop 512).length seed := by
      rw [← bytes_of_append, ← bytes_of_append, List.length_drop,
        show 8 + 504 + (buf.length - 512) = buf.length by omega]
    have hiff : buf = bytes_of offset buf.length seed ↔
        ((buf.take 512).take 8 = bytes_of offset 8 seed ∧
          (buf.take 512).drop 8 = bytes_of (offset + 8) 504 seed) ∧
          buf.drop 512 = bytes_of (offset + 512) (buf.drop 512).length seed := by
      rw [hbuf]
      conv_lhs =>
        lhs
        rw [← List.take_append_drop 512 buf, ← List.take_append_drop 8 (buf.take 512)]
      refine ⟨fun he => ?_, fun he => congrArg₂ (· ++ ·) (congrArg₂ (· ++ ·) he.1.1 he.1.2) he.2⟩
      obtain ⟨h1, h2⟩ := List.append_inj he (by simp; omega)
      exact ⟨List.append_inj h1 (by simp; omega), h2⟩
    rw [hiff]
    dsimp only
    rw [hlen, template_part _ _ ho, hword]
    split
    · rename_i hne
      simp only [Bool.false_eq_true, false_iff]
      rintro ⟨⟨h1, h2⟩, _⟩
      rcases hne with hne | hne
      · exact hne h1
      · exact hne h2
    · rename_i heq
      rw [not_or, not_not, not_not] at heq
      rw [matches_sectors.spec _ _ _ (by omega) (by simp; omega)]
      exact (and_iff_right heq).symm
termination_by buf.length
decreasing_by
  simp only [List.length_drop]
  omega

/-- `matches_cached` with the worker's template decides the same as `matches`. -/
theorem matches_cached.spec (buf : List UInt8) (offset : Nat) (seed : UInt64) :
    matches_cached buf offset seed (template_of seed) = true ↔
      buf = bytes_of offset buf.length seed := by
  unfold matches_cached
  split
  · exact matches.spec buf offset seed
  · rename_i h
    exact matches_sectors.spec buf offset seed (by omega) (by omega)

/-! ## The functions agree -/

/-- A stamp moves the pattern from one 4 KiB boundary to another: between the
heads of its sectors the pattern does not depend on the address. -/
theorem stamp_fill (buf : List UInt8) {offset offset' : Nat} (seed : UInt64)
    (ho : offset % 4096 = 0) (ho' : offset' % 4096 = 0) :
    stamp (fill buf offset' seed) offset seed = fill buf offset seed := by
  rw [stamp.spec _ _ _ (by omega), fill.spec, fill.spec]
  apply List.ext_getElem
  · simp
  · intro i h1 h2
    rw [List.getElem_mapIdx, bytes_of_getElem, bytes_of_getElem]
    split_ifs with h8
    · rfl
    · rw [← byte_at_mod (offset' + i) _ (by omega), ← byte_at_mod (offset + i) _ (by omega)]
      congr 1
      omega

theorem fill_split (buf : List UInt8) (offset : Nat) (seed : UInt64) {m : Nat}
    (hm : m ≤ buf.length) :
    fill buf offset seed = fill (buf.take m) offset seed ++ fill (buf.drop m) (offset + m) seed := by
  rw [fill.spec, fill.spec, fill.spec, List.length_take, List.length_drop, Nat.min_eq_left hm,
    ← bytes_of_append]
  congr 1
  omega

/-- What a fill puts at an address depends on the address and the seed alone. -/
theorem fill_getElem? (buf : List UInt8) {offset x : Nat} (seed : UInt64) (hlo : offset ≤ x)
    (hhi : x < offset + buf.length) : (fill buf offset seed)[x - offset]? = some (byte_at x seed) := by
  rw [fill.spec, List.getElem?_eq_getElem (by simp; omega), bytes_of_getElem,
    Nat.add_sub_cancel' hlo]

/-- The cached fill, the two comparers and the stamp agree with the plain fill,
a fill composes from its parts, and fills with one seed agree where they overlap. -/
theorem every_way_to_the_pattern_agrees (buf : List UInt8) (offset : Nat) (seed : UInt64)
    (template : List UInt8) (ht : template = fill (List.replicate 4096 0) 0 seed) :
    fill_cached buf offset seed template = fill buf offset seed ∧
    (pattern.matches buf offset seed = true ↔ buf = fill buf offset seed) ∧
    (matches_cached buf offset seed template = true ↔ buf = fill buf offset seed) ∧
    (∀ offset', offset % 4096 = 0 → offset' % 4096 = 0 →
      stamp (fill buf offset' seed) offset seed = fill buf offset seed) ∧
    (∀ m ≤ buf.length, fill buf offset seed =
      fill (buf.take m) offset seed ++ fill (buf.drop m) (offset + m) seed) ∧
    ∀ (buf' : List UInt8) (offset' x : Nat), offset ≤ x → x < offset + buf.length →
      offset' ≤ x → x < offset' + buf'.length →
      (fill buf offset seed)[x - offset]? = (fill buf' offset' seed)[x - offset']? := by
  have htemplate : template = template_of seed := by
    rw [ht, fill.spec, List.length_replicate, template_of]
  rw [htemplate]
  refine ⟨?_, ?_, ?_, fun offset' => stamp_fill buf seed, fun m => fill_split buf offset seed, ?_⟩
  · rw [fill_cached.spec, fill.spec]
  · rw [matches.spec, fill.spec]
  · rw [matches_cached.spec, fill.spec]
  · intro buf' offset' x h1 h2 h3 h4
    rw [fill_getElem? buf seed h1 h2, fill_getElem? buf' seed h3 h4]

/-- The pattern of 4096 moved to 8192. -/
theorem a_stamped_block_is_its_own_pattern :
    stamp (fill (List.replicate 4096 0) 4096 9) 8192 9 = fill (List.replicate 4096 0) 8192 9 :=
  (every_way_to_the_pattern_agrees (List.replicate 4096 0) 8192 9 _ rfl).2.2.2.1 4096 (by decide)
    (by decide)

end pattern

end stutools
