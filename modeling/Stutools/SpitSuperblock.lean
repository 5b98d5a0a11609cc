-- The text of a key/value store, its checksum and the superblock that is written to a device
-- (src/c/spit/keyvalue.c): reading the text back gives the same pairs, always, and the text and
-- the block that is written lie in their buffer when the bytes counted for the first values give
-- them the room. The characters of a text are signed bytes.
import Stutools.SpitKeyvalue

open cstring stdio texts

namespace stutools.spit.keyvalue

/-! ## The buffer -/

/-- A `size_t` as an `int`. -/
def int (n : Nat) : Int :=
  if n % 2 ^ 32 < 2 ^ 31 then (n % 2 ^ 32 : Nat) else (n % 2 ^ 32 : Nat) - 2 ^ 32

/-- An `int` as a `size_t`. -/
def size_t (n : Int) : Nat := (n % 2 ^ 64).toNat

def maxbytes (kv : Store) : Int := int (5 * kv.byteLen + 100)

/-- `strncat`. None when the text and the byte behind it leave the buffer. -/
def strncat (maxbytes : Int) (s src : List Char) : Option (List Char) :=
  let s := s ++ src.take (size_t maxbytes)
  if (s.length : Int) + 1 ≤ maxbytes then some s else none

/-- What is appended for a pair. -/
def pieces (p : Pair) : List (List Char) :=
  match p.value with
  | .string value => [p.key, [':'], value]
  | .long longvalue => [p.key, [';'], shown_long longvalue]

/-- What is appended for all of them. -/
def appended : List Pair → List (List Char)
  | [] => []
  | p :: ps => pieces p ++ ps.flatMap fun p => [' '] :: pieces p

/-- None when there is no such buffer, or something is written behind it. -/
def keyvalueDumpAsString (kv : Store) : Option (List Char) :=
  let kv := keyvalueSort kv
  if 0 < maxbytes kv then machine.run (strncat (maxbytes kv)) [] (appended kv.pairs) else none

/-- A `char` as a `size_t`. -/
def schar (c : Char) : UInt64 :=
  if c.toNat % 256 < 128 then .ofNat (c.toNat % 256) else .ofNat (2 ^ 64 - 256 + c.toNat % 256)

def checksumBuffer (buffer : List Char) : UInt64 :=
  buffer.zipIdx.foldl (fun checksum (c, i) => checksum + (UInt64.ofNat i ^^^ schar c)) 0

def keyvalueChecksum (kv : Store) : Option UInt64 := (keyvalueDumpAsString kv).map checksumBuffer

def checksumText (checksum : UInt64) : List Char :=
  ' ' :: ("checksum".toList ++ ';' :: (signed checksum.toNat ++ ['\n']))

/-- What is in the buffer, and how many bytes of it are written to the device. None when a text
or the bytes that are written leave the buffer. The store is sorted when it is dumped again. -/
def keyvalueDumpAtStartFD (kv : Store) : Option (List Char × Nat) :=
  (keyvalueChecksum kv).bind fun checksum =>
    (keyvalueDumpAsString (keyvalueSort kv)).bind fun s =>
      let s := s ++ checksumText checksum
      if (s.length : Int) + 1 ≤ maxbytes kv then
        let len := size_t (4096 * ((int s.length).tdiv 4096 + 1))
        if (len : Int) ≤ maxbytes kv then some (s, len) else none
      else none

/-! ## What is dumped -/

/-- The text of a pair. -/
def pairText (p : Pair) : List Char := (pieces p).flatten

def dumped (ps : List Pair) : List Char :=
  [' '].intercalate ((exchange_sort.sort (fun p q => 0 < strcasecmp p.key q.key) ps).map pairText)

theorem gt_iff (p q : Pair) :
    decide (0 < strcasecmp p.key q.key) ↔ folded q.key < folded p.key := by
  rw [decide_eq_true_iff, strcasecmp_pos]

theorem appended_flatten (ps : List Pair) :
    (appended ps).flatten = [' '].intercalate (ps.map pairText) := by
  cases ps with
  | nil => rfl
  | cons p ps =>
    unfold appended
    rw [List.flatten_append]
    induction ps generalizing p with
    | nil => simp [pairText]
    | cons q ps ih =>
      rw [List.map_cons, List.map_cons, List.intercalate_cons_cons, ← List.map_cons, ← ih q,
        List.flatMap_cons, List.flatten_append, List.flatten_cons]
      simp only [pairText, List.append_assoc]

theorem size_t_of_pos {n : Int} (hpos : 0 ≤ n) (h : n < 2 ^ 31) : (size_t n : Int) = n := by
  unfold size_t
  omega

theorem int_lt (n : Nat) : int n < 2 ^ 31 := by
  unfold int
  split <;> omega

theorem int_of_lt {n : Nat} (h : n < 2 ^ 31) : int n = n := by
  unfold int
  split <;> omega

/-- Appending succeeds exactly when everything fits, and then nothing is cut off. -/
theorem run_strncat {m : Int} (hpos : 0 < m) (hlt : m < 2 ^ 31) {s : List Char}
    (hs : (s.length : Int) + 1 ≤ m) (l : List (List Char)) (t : List Char) :
    machine.run (strncat m) s l = some t ↔ t = s ++ l.flatten ∧ (t.length : Int) + 1 ≤ m := by
  have hsize := size_t_of_pos hpos.le hlt
  induction l generalizing s with
  | nil =>
    rw [machine.run_nil, Option.some.injEq, List.flatten_nil, List.append_nil]
    exact ⟨fun h => ⟨h.symm, h ▸ hs⟩, fun h => h.1.symm⟩
  | cons a l ih =>
    rw [machine.run_cons, List.flatten_cons, ← List.append_assoc]
    unfold strncat
    dsimp only
    by_cases hcut : size_t m < a.length
    · -- a piece that is cut off fills the buffer without it
      have htake : (s ++ a.take (size_t m)).length = s.length + size_t m := by
        rw [List.length_append, List.length_take]
        omega
      rw [if_neg (by rw [htake]; omega), Option.bind_none]
      refine ⟨fun h => (nomatch h), fun ⟨ht, hroom⟩ => ?_⟩
      rw [ht, List.length_append, List.length_append] at hroom
      omega
    · rw [List.take_of_length_le (by omega)]
      split
      · rename_i hroom
        rw [Option.bind_some]
        exact ih hroom
      · rename_i hroom
        rw [Option.bind_none]
        refine ⟨fun h => (nomatch h), fun ⟨ht, hfits⟩ => ?_⟩
        rw [ht, List.length_append] at hfits
        omega

theorem keyvalueDumpAsString.spec (kv : Store) (t : List Char) :
    keyvalueDumpAsString kv = some t ↔ t = dumped kv.pairs ∧ (t.length : Int) + 1 ≤ maxbytes kv := by
  have hmax : maxbytes (keyvalueSort kv) = maxbytes kv := rfl
  unfold keyvalueDumpAsString
  dsimp only
  rw [hmax]
  by_cases hpos : 0 < maxbytes kv
  · rw [if_pos hpos, run_strncat hpos (int_lt _) (by rw [List.length_nil]; omega), List.nil_append,
      appended_flatten]
    rfl
  · rw [if_neg hpos]
    refine ⟨fun h => (nomatch h), fun ⟨_, hroom⟩ => ?_⟩
    omega

theorem dumped_sort (kv : Store) : dumped (keyvalueSort kv).pairs = dumped kv.pairs := by
  unfold dumped keyvalueSort
  dsimp only
  rw [exchange_sort.sort_sort gt_iff]

theorem keyvalueChecksum.spec (kv : Store) (c : UInt64) : keyvalueChecksum kv = some c ↔
    c = checksumBuffer (dumped kv.pairs) ∧ ((dumped kv.pairs).length : Int) + 1 ≤ maxbytes kv := by
  unfold keyvalueChecksum
  rw [Option.map_eq_some_iff]
  constructor
  · rintro ⟨t, ht, rfl⟩
    obtain ⟨rfl, hroom⟩ := (keyvalueDumpAsString.spec kv t).mp ht
    exact ⟨rfl, hroom⟩
  · rintro ⟨rfl, hroom⟩
    exact ⟨_, (keyvalueDumpAsString.spec kv _).mpr ⟨rfl, hroom⟩, rfl⟩

/-- The text of the superblock. -/
def superblock (ps : List Pair) : List Char :=
  dumped ps ++ checksumText (checksumBuffer (dumped ps))

/-- The block is written exactly when the text, rounded up, fits. -/
theorem keyvalueDumpAtStartFD.spec (kv : Store) : (∃ w, keyvalueDumpAtStartFD kv = some w) ↔
    (4096 * ((superblock kv.pairs).length / 4096 + 1) : Nat) ≤ maxbytes kv := by
  have hlt := int_lt (5 * kv.byteLen + 100)
  have hsort : maxbytes (keyvalueSort kv) = maxbytes kv := rfl
  have hle : (dumped kv.pairs).length ≤ (superblock kv.pairs).length :=
    (List.prefix_append _ _).length_le
  rw [← maxbytes] at hlt
  constructor
  · rintro ⟨w, hw⟩
    unfold keyvalueDumpAtStartFD at hw
    obtain ⟨c, hc, hw⟩ := Option.bind_eq_some_iff.mp hw
    obtain ⟨t, ht, hw⟩ := Option.bind_eq_some_iff.mp hw
    obtain ⟨rfl, -⟩ := (keyvalueChecksum.spec kv c).mp hc
    obtain ⟨rfl, -⟩ := (keyvalueDumpAsString.spec _ t).mp ht
    rw [dumped_sort] at hw
    dsimp only at hw
    rw [← superblock] at hw
    split at hw
    · rename_i hroom
      rw [int_of_lt (by omega), Int.tdiv_eq_ediv_of_nonneg (Int.natCast_nonneg _)] at hw
      split at hw
      · rename_i hinside
        unfold size_t at hinside
        omega
      · cases hw
    · cases hw
  · intro hinside
    have hroom : ((superblock kv.pairs).length : Int) + 1 ≤ maxbytes kv := by omega
    have hc := (keyvalueChecksum.spec kv _).mpr ⟨rfl, by omega⟩
    have ht := (keyvalueDumpAsString.spec (keyvalueSort kv) _).mpr
      ⟨rfl, by rw [hsort, dumped_sort]; omega⟩
    unfold keyvalueDumpAtStartFD
    rw [hc, Option.bind_some, ht, Option.bind_some, dumped_sort]
    dsimp only
    rw [← superblock, if_pos hroom, int_of_lt (by omega),
      Int.tdiv_eq_ediv_of_nonneg (Int.natCast_nonneg _), if_pos (by unfold size_t; omega)]
    exact ⟨_, rfl⟩

theorem superblock_of_written {kv : Store} {s : List Char} {len : Nat}
    (h : keyvalueDumpAtStartFD kv = some (s, len)) : s = superblock kv.pairs := by
  unfold keyvalueDumpAtStartFD at h
  obtain ⟨c, hc, h⟩ := Option.bind_eq_some_iff.mp h
  obtain ⟨t, ht, h⟩ := Option.bind_eq_some_iff.mp h
  obtain ⟨rfl, -⟩ := (keyvalueChecksum.spec kv c).mp hc
  obtain ⟨rfl, -⟩ := (keyvalueDumpAsString.spec _ t).mp ht
  dsimp only at h
  split at h
  · split at h
    · cases h
      rw [dumped_sort]
      rfl
    · cases h
  · cases h

/-! ## What is read back -/

/-- A pair that the setters can have made. -/
structure Clean (p : Pair) : Prop where
  ne_nil : p.key ≠ []
  key : ∀ c ∈ p.key, isSeparator c = false
  ne_checksum : p.key ≠ "checksum".toList
  value : ∀ s, p.value = .string s → ∀ c ∈ s, isSeparator c = false

theorem sanitized_clean (value : List Char) : ∀ c ∈ sanitized value, isSeparator c = false := by
  intro c hc
  obtain ⟨d, -, rfl⟩ := List.mem_map.mp hc
  split
  · rfl
  · rename_i hd
    exact eq_false_of_ne_true hd

theorem sanitized_eq_self {value : List Char} (h : ∀ c ∈ value, isSeparator c = false) :
    sanitized value = value := by
  conv_rhs => rw [← List.map_id value]
  exact List.map_congr_left fun c hc => if_neg (by rw [h c hc]; exact Bool.false_ne_true)

theorem shown_long_clean (n : Int64) : ∀ c ∈ shown_long n, isspace c = false ∧ c ≠ ':' ∧ c ≠ ';' := by
  have hdigits : ∀ m, ∀ c ∈ shown m, isspace c = false ∧ c ≠ ':' ∧ c ≠ ';' := by
    intro m c hc
    have hdigit := shown_digits m c hc
    refine ⟨solid_of_digits (shown_digits m) c hc, ?_, ?_⟩ <;>
      exact fun h => absurd (h ▸ hdigit) (by decide)
  intro c hc
  unfold shown_long signed at hc
  split at hc
  · exact hdigits _ c hc
  · obtain rfl | hc := List.mem_cons.mp hc
    · decide
    · exact hdigits _ c hc

theorem pairText_string (key value : List Char) :
    pairText ⟨key, .string value⟩ = key ++ ':' :: value := by
  simp [pairText, pieces]

theorem pairText_long (key : List Char) (n : Int64) :
    pairText ⟨key, .long n⟩ = key ++ ';' :: shown_long n := by
  simp [pairText, pieces]

theorem ne_of_clean {c : Char} (h : isSeparator c = false) : c ≠ ' ' ∧ c ≠ ':' ∧ c ≠ ';' := by
  unfold isSeparator at h
  simp only [Bool.or_eq_false_iff, beq_eq_false_iff_ne] at h
  exact ⟨h.1.1.1, h.1.1.2, h.1.2⟩

/-- The text of a pair is one token. -/
theorem pairText_token {p : Pair} (h : Clean p) : pairText p ≠ [] ∧ ' ' ∉ pairText p := by
  obtain ⟨key, value⟩ := p
  have hkey : ' ' ∉ key := fun hc => (ne_of_clean (h.key _ hc)).1 rfl
  cases value with
  | string value =>
    have hvalue : ' ' ∉ value := fun hc => (ne_of_clean (h.value value rfl _ hc)).1 rfl
    rw [pairText_string]
    exact ⟨by simp, by simp [hkey, hvalue]⟩
  | long n =>
    have hvalue : ' ' ∉ shown_long n := fun hc =>
      absurd (shown_long_clean n _ hc).1 (by decide)
    rw [pairText_long]
    exact ⟨by simp, by simp [hkey, hvalue]⟩

/-- Parsing the text of a pair sets that pair. -/
theorem parse_pairText (kv : Store) {p : Pair} (h : Clean p) :
    keyvalueParsePair kv (pairText p) = some (setPair kv p.key p.value p.value.bytes) := by
  obtain ⟨key, value⟩ := p
  have hcolon : ∀ c ∈ key, (c == ':') = false := fun c hc =>
    beq_eq_false_iff_ne.mpr (ne_of_clean (h.key c hc)).2.1
  have hsemi : ∀ c ∈ key, (c == ';') = false := fun c hc =>
    beq_eq_false_iff_ne.mpr (ne_of_clean (h.key c hc)).2.2
  unfold keyvalueParsePair
  cases value with
  | string value =>
    rw [pairText_string, split_once_append value hcolon (beq_self_eq_true ':')]
    dsimp only [keyvalueSetString]
    rw [sanitized_eq_self (h.value value rfl)]
    rfl
  | long n =>
    have hnone : split_once (· == ':') (key ++ ';' :: shown_long n) = none := by
      refine split_once_none fun c hc => ?_
      obtain hc | hc := List.mem_append.mp hc
      · exact hcolon c hc
      · obtain rfl | hc := List.mem_cons.mp hc
        · rfl
        · exact beq_eq_false_iff_ne.mpr (shown_long_clean n c hc).2.1
    have hnumber := @atol_shown_long n [] (by simp)
    rw [List.append_nil] at hnumber
    rw [pairText_long, hnone, split_once_append _ hsemi (beq_self_eq_true ';')]
    dsimp only [Option.map_some]
    rw [hnumber, keyvalueSetLong, if_neg h.ne_checksum]
    rfl

/-- The bytes that are counted for a new pair. -/
def Pair.bytes (p : Pair) : Nat := (p.key.length + 2) + (p.value.bytes + 2)

theorem run_parse {ps : List Pair} (hclean : ∀ p ∈ ps, Clean p)
    (hdistinct : ps.Pairwise fun p q => folded p.key ≠ folded q.key) (kv : Store)
    (hnew : ∀ p ∈ kv.pairs, ∀ q ∈ ps, folded q.key ≠ folded p.key) :
    machine.run keyvalueParsePair kv (ps.map pairText) =
      some { kv with
             pairs := kv.pairs ++ ps
             byteLen := kv.byteLen + (ps.map Pair.bytes).sum } := by
  induction ps generalizing kv with
  | nil => simp
  | cons p ps ih =>
    obtain ⟨hp, hclean⟩ := List.forall_mem_cons.mp hclean
    obtain ⟨hother, hdistinct⟩ := List.pairwise_cons.mp hdistinct
    have hfind : keyvalueFindKey kv p.key = none := by
      refine List.findIdx?_eq_none_iff.mpr fun q hq => ?_
      rw [decide_eq_false_iff_not, strcasecmp_eq_zero]
      exact hnew q hq p List.mem_cons_self
    rw [List.map_cons, machine.run_cons, parse_pairText kv hp, Option.bind_some]
    unfold setPair
    rw [hfind]
    dsimp only
    rw [ih hclean hdistinct]
    · dsimp only
      rw [List.append_assoc, List.map_cons, List.sum_cons, Pair.bytes]
      simp only [List.singleton_append, Nat.add_assoc]
    · intro q hq r hr
      obtain hq | hq := List.mem_append.mp hq
      · exact hnew q hq r (List.mem_cons_of_mem p hr)
      · rw [List.mem_singleton.mp hq]
        exact (hother r hr).symm

theorem init_of_text {ps : List Pair} (hclean : ∀ p ∈ ps, Clean p)
    (hdistinct : ps.Pairwise fun p q => folded p.key ≠ folded q.key) :
    keyvalueInitFromString ([' '].intercalate (ps.map pairText)) =
      some { pairs := ps, checksum := 0, byteLen := (ps.map Pair.bytes).sum } := by
  have htokens : ∀ w ∈ ps.map pairText, w ≠ [] ∧ ' ' ∉ w := by
    intro w hw
    obtain ⟨p, hp, rfl⟩ := List.mem_map.mp hw
    exact pairText_token (hclean p hp)
  unfold keyvalueInitFromString
  rw [strtok_intercalate htokens, run_parse hclean hdistinct keyvalueInit (by simp [keyvalueInit])]
  simp [keyvalueInit]

/-- The checksum behind a text is read into its own field. -/
theorem init_of_checksum {text : List Char} {kv : Store} (checksum : UInt64)
    (h : keyvalueInitFromString text = some kv) :
    keyvalueInitFromString (text ++ checksumText checksum) = some { kv with checksum } := by
  have hsolid : ' ' ∉ signed checksum.toNat := fun hc =>
    absurd (signed_solid _ _ hc) (by decide)
  have hlong : shown_long (Int64.ofUInt64 checksum) = signed checksum.toNat := rfl
  have hnumber := @atol_shown_long (Int64.ofUInt64 checksum) ['\n'] (by simp)
  rw [hlong] at hnumber
  have hkey : ∀ c ∈ "checksum".toList, (c == ':') = false ∧ (c == ';') = false := by simp
  have hcolon : split_once (· == ':')
      ("checksum".toList ++ ';' :: (signed checksum.toNat ++ ['\n'])) = none := by
    refine split_once_none fun c hc => ?_
    simp only [List.mem_append, List.mem_cons, List.not_mem_nil, or_false] at hc
    obtain hc | rfl | hc | rfl := hc
    · exact (hkey c hc).1
    · rfl
    · exact beq_eq_false_iff_ne.mpr (shown_long_clean _ c (hlong ▸ hc)).2.1
    · rfl
  have hparse : ∀ kv, keyvalueParsePair kv ("checksum".toList ++ ';' ::
      (signed checksum.toNat ++ ['\n'])) = some { kv with checksum } := by
    intro kv
    unfold keyvalueParsePair
    rw [hcolon, split_once_append _ (fun c hc => (hkey c hc).2) (beq_self_eq_true ';')]
    dsimp only [Option.map_some]
    rw [hnumber, keyvalueSetLong, if_pos rfl]
  unfold keyvalueInitFromString at h ⊢
  rw [checksumText, strtok_append, machine.run_append, h, Option.bind_some,
    strtok_single (by simp) (by simp [hsolid]), machine.run_cons, hparse]
  rfl

/-! ## The round trip -/

theorem value?_clean {c : Call} {value : Value} (h : c.value? = some value) :
    ∀ s, value = .string s → ∀ c ∈ s, isSeparator c = false := by
  intro s hs
  subst hs
  cases c with
  | setString key v =>
    cases v with
    | none => cases h
    | some v =>
      cases h
      exact sanitized_clean v
  | setLong key v => cases h

theorem firsts_value {calls : List Call} {f : Key × Value} (hf : f ∈ firsts calls) :
    ∃ c : Call, c.value? = some f.2 := by
  induction calls using List.reverseRecOn with
  | nil => cases hf
  | append_singleton calls c ih =>
    rw [firsts_snoc] at hf
    split at hf
    · exact ih hf
    · rename_i value hvalue
      split at hf
      · exact ih hf
      · obtain hf | hf := List.mem_append.mp hf
        · exact ih hf
        · rw [List.mem_singleton.mp hf]
          exact ⟨c, hvalue⟩

theorem latest_value {calls : List Call} {key : List Char} {value : Value}
    (h : latest calls key = some value) : ∃ c : Call, c.value? = some value := by
  obtain ⟨c, -, hc⟩ := List.exists_of_findSome?_eq_some h
  split at hc
  · exact ⟨c, hc⟩
  · cases hc

theorem settled_clean (calls : List Call) : ∀ p ∈ settled calls, Clean p := by
  intro p hp
  obtain ⟨f, hf, rfl⟩ := List.mem_map.mp hp
  refine ⟨f.1.ne_nil, f.1.clean, f.1.ne_checksum, ?_⟩
  dsimp only
  cases hlatest : latest calls f.1.text with
  | none =>
    obtain ⟨c, hc⟩ := firsts_value hf
    exact value?_clean hc
  | some value =>
    obtain ⟨c, hc⟩ := latest_value hlatest
    exact value?_clean hc

/-- The bytes of a value in the text. -/
def Value.shown : Value → Nat
  | string value => value.length
  | long longvalue => (shown_long longvalue).length

/-- The bytes of the text that the calls leave: keys and last values with what separates them. -/
def shownBytes (calls : List Call) : Nat :=
  ((settled calls).map fun p => p.key.length + 1 + p.value.shown).sum + ((settled calls).length - 1)

/-- The bytes that the setters count for the last values. -/
def recounted (calls : List Call) : Nat := ((settled calls).map Pair.bytes).sum

theorem intercalate_length (sep : Char) (ws : List (List Char)) :
    ([sep].intercalate ws).length = (ws.map List.length).sum + (ws.length - 1) := by
  induction ws with
  | nil => rfl
  | cons w ws ih =>
    cases ws with
    | nil => simp
    | cons v ws =>
      rw [List.intercalate_cons_cons, List.length_append, List.length_append, ih]
      simp only [List.map_cons, List.sum_cons, List.length_cons, List.length_nil]
      omega

theorem dumped_length (calls : List Call) :
    (dumped (settled calls)).length = shownBytes calls := by
  have hperm := exchange_sort.sort_perm (fun p q : Pair => 0 < strcasecmp p.key q.key)
    (settled calls)
  have htext : ∀ p : Pair, (pairText p).length = p.key.length + 1 + p.value.shown := by
    intro p
    obtain ⟨key, value⟩ := p
    cases value with
    | string value =>
      rw [pairText_string, List.length_append, List.length_cons, Nat.add_assoc, Nat.add_comm 1]
      rfl
    | long n =>
      rw [pairText_long, List.length_append, List.length_cons, Nat.add_assoc, Nat.add_comm 1]
      rfl
  unfold dumped shownBytes
  rw [intercalate_length, List.map_map, List.length_map, hperm.length_eq]
  congr 1
  rw [(hperm.map _).sum_eq]
  exact congrArg List.sum (List.map_congr_left fun p _ => htext p)

/-- A text that gives a store with the pairs of the calls, each key once, and the same checksum. -/
def ReadsBack (calls : List Call) (text : List Char) : Prop :=
  ∃ kv, keyvalueInitFromString text = some kv ∧ kv.pairs.Perm (settled calls) ∧
    (kv.pairs.Pairwise fun p q => strcasecmp p.key q.key ≠ 0) ∧
      ∃ c, keyvalueChecksum kv = some c ∧ keyvalueChecksum (run calls) = some c

/-- The block is written from its buffer, and it and the text that is dumped are read back. -/
def RoundTrips (calls : List Call) : Prop :=
  (∃ s len, keyvalueDumpAtStartFD (run calls) = some (s, len) ∧ ReadsBack calls s) ∧
    ∃ text, keyvalueDumpAsString (run calls) = some text ∧ ReadsBack calls text

/-- The first values give the room for the block, and the last values that for the text. -/
def Roomy (calls : List Call) : Prop :=
  (4096 * ((shownBytes calls +
      (checksumText (checksumBuffer (dumped (settled calls)))).length) / 4096 + 1) : Nat) ≤
    int (5 * counted calls + 100) ∧
  (shownBytes calls : Int) + 1 ≤ int (5 * recounted calls + 100)

/-- The pairs of the calls in the order of their keys. -/
def sortedPairs (calls : List Call) : List Pair :=
  exchange_sort.sort (fun p q => 0 < strcasecmp p.key q.key) (settled calls)

theorem sortedPairs_perm (calls : List Call) : (sortedPairs calls).Perm (settled calls) :=
  exchange_sort.sort_perm _ _

theorem sortedPairs_distinct (calls : List Call) :
    (sortedPairs calls).Pairwise fun p q => folded p.key ≠ folded q.key :=
  (sortedPairs_perm calls).symm.pairwise (settled_distinct calls) fun h => h.symm

theorem init_of_dump (calls : List Call) : keyvalueInitFromString (dumped (settled calls)) =
    some { pairs := sortedPairs calls, checksum := 0, byteLen := recounted calls } := by
  have hclean : ∀ p ∈ sortedPairs calls, Clean p := fun p hp =>
    settled_clean calls p ((sortedPairs_perm calls).subset hp)
  have hbytes : ((sortedPairs calls).map Pair.bytes).sum = recounted calls :=
    ((sortedPairs_perm calls).map _).sum_eq
  rw [← hbytes]
  exact init_of_text hclean (sortedPairs_distinct calls)

theorem run_checksum (calls : List Call) (c : UInt64) : keyvalueChecksum (run calls) = some c ↔
    c = checksumBuffer (dumped (settled calls)) ∧
      (shownBytes calls : Int) + 1 ≤ int (5 * counted calls + 100) := by
  obtain ⟨hpairs, hcount⟩ := run_spec calls
  rw [keyvalueChecksum.spec, hpairs, dumped_length, maxbytes, hcount]

/-- A store that is read back has the text of the calls, and its own room for it. -/
theorem reads_back_iff {calls : List Call} {text : List Char} {c : UInt64}
    (h : keyvalueInitFromString text =
      some { pairs := sortedPairs calls, checksum := c, byteLen := recounted calls }) :
    ReadsBack calls text ↔ (shownBytes calls : Int) + 1 ≤ int (5 * recounted calls + 100) ∧
      (shownBytes calls : Int) + 1 ≤ int (5 * counted calls + 100) := by
  have hsame : dumped (sortedPairs calls) = dumped (settled calls) :=
    dumped_sort { pairs := settled calls, checksum := 0, byteLen := 0 }
  have hchecksum : ∀ c', keyvalueChecksum
      { pairs := sortedPairs calls, checksum := c, byteLen := recounted calls } = some c' ↔
        c' = checksumBuffer (dumped (settled calls)) ∧
          (shownBytes calls : Int) + 1 ≤ int (5 * recounted calls + 100) := by
    intro c'
    rw [keyvalueChecksum.spec, hsame, dumped_length]
    rfl
  unfold ReadsBack
  rw [h]
  constructor
  · rintro ⟨kv, hkv, -, -, c', hc', hrun⟩
    cases hkv
    exact ⟨((hchecksum c').mp hc').2, ((run_checksum calls c').mp hrun).2⟩
  · rintro ⟨hroom, hfirst⟩
    exact ⟨_, rfl, sortedPairs_perm calls,
      (sortedPairs_distinct calls).imp fun hne => mt strcasecmp_eq_zero.mp hne, _,
      (hchecksum _).mpr ⟨rfl, hroom⟩, (run_checksum calls _).mpr ⟨rfl, hfirst⟩⟩

/-- After any calls the store round trips exactly when the bytes that were counted for the first
values have room for the block, which is rounded up to 4096 bytes. -/
theorem a_store_round_trips_iff_its_first_values_have_room (calls : List Call) :
    RoundTrips calls ↔ Roomy calls := by
  obtain ⟨hpairs, hcount⟩ := run_spec calls
  have hlength := dumped_length calls
  have hinit := init_of_dump calls
  have hblock := keyvalueDumpAtStartFD.spec (run calls)
  rw [hpairs, superblock, List.length_append, hlength, maxbytes, hcount] at hblock
  constructor
  · rintro ⟨⟨s, len, hwritten, hreads⟩, -⟩
    have hs := superblock_of_written hwritten
    rw [hpairs, superblock] at hs
    rw [hs, reads_back_iff (init_of_checksum _ hinit)] at hreads
    exact ⟨hblock.mp ⟨_, hwritten⟩, hreads.1⟩
  · rintro ⟨hroom, hagain⟩
    have hfirst : (shownBytes calls : Int) + 1 ≤ int (5 * counted calls + 100) := by omega
    obtain ⟨⟨s, len⟩, hwritten⟩ := hblock.mpr hroom
    have hs := superblock_of_written hwritten
    rw [hpairs, superblock] at hs
    refine ⟨⟨s, len, hwritten, ?_⟩, dumped (settled calls), ?_, ?_⟩
    · rw [hs, reads_back_iff (init_of_checksum _ hinit)]
      exact ⟨hagain, hfirst⟩
    · rw [keyvalueDumpAsString.spec, hpairs, hlength, maxbytes, hcount]
      exact ⟨rfl, hfirst⟩
    · rw [reads_back_iff hinit]
      exact ⟨hagain, hfirst⟩

def oneKey : Key where
  text := ['a']
  ne_nil := by decide
  clean := by simp [isSeparator]
  ne_checksum := by decide

/-- One number is counted with 25 bytes, for which there are 225; but 4096 are written. -/
theorem a_small_store_is_written_past_its_buffer : ¬ RoundTrips [.setLong oneKey 1] := by
  rintro ⟨⟨s, len, hwritten, -⟩, -⟩
  have hinside := (keyvalueDumpAtStartFD.spec _).mp ⟨_, hwritten⟩
  rw [show maxbytes (run [.setLong oneKey 1]) = 225 by rfl] at hinside
  omega

end stutools.spit.keyvalue
