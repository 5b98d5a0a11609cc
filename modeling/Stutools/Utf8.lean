-- UTF-8 as bytes: the encoding of a text, its decoding, and where the bytes of
-- the encoding can be zero. Core Lean has the encoding of a character and the
-- decoder of a byte array; here they are on lists.
import Mathlib.Data.List.Basic

namespace utf8

/-- `str::as_bytes`: the UTF-8 bytes of a text. -/
def encode (text : List Char) : List UInt8 := text.flatMap String.utf8EncodeChar

/-- `str::from_utf8`: the text of bytes that are UTF-8. -/
def decode (bs : List UInt8) : Option (List Char) := bs.toByteArray.utf8Decode?.map Array.toList

/-- The length of a character by its first byte from 0x80 on, and the range of its
second byte. -/
def lead (b : UInt8) : Option (Nat × UInt8 × UInt8) :=
  if 0xC2 ≤ b ∧ b ≤ 0xDF then some (2, 0x80, 0xBF)
  else if b = 0xE0 then some (3, 0xA0, 0xBF)
  else if b = 0xED then some (3, 0x80, 0x9F)
  else if 0xE1 ≤ b ∧ b ≤ 0xEF then some (3, 0x80, 0xBF)
  else if b = 0xF0 then some (4, 0x90, 0xBF)
  else if 0xF1 ≤ b ∧ b ≤ 0xF3 then some (4, 0x80, 0xBF)
  else if b = 0xF4 then some (4, 0x80, 0x8F)
  else none

/-- The next character of bytes, and how many bytes it takes: the replacement character
stands for the longest beginning of a character that goes no further. -/
def next_lossy (b : UInt8) (rest : List UInt8) : Char × Nat :=
  if b < 0x80 then (Char.ofNat b.toNat, 1)
  else
    match lead b, rest with
    | some (n, lo, hi), second :: others =>
      if lo ≤ second ∧ second ≤ hi then
        let more := ((others.take (n - 2)).takeWhile fun b => 0x80 ≤ b ∧ b ≤ 0xBF).length
        if more + 2 = n then ((((decode ((b :: rest).take n)).bind List.head?).getD '\uFFFD'), n)
        else ('\uFFFD', more + 2)
      else ('\uFFFD', 1)
    | _, _ => ('\uFFFD', 1)

/-- `String::from_utf8_lossy`, whose every step takes a byte at least. -/
def from_utf8_lossy (bs : List UInt8) : List Char := go bs.length bs
where
  go : Nat → List UInt8 → List Char
  | 0, _ => []
  | _, [] => []
  | n + 1, b :: rest =>
    let (c, taken) := next_lossy b rest
    c :: go n ((b :: rest).drop taken)

@[simp] theorem encode_nil : encode [] = [] := rfl

@[simp] theorem encode_cons (c : Char) (text : List Char) :
    encode (c :: text) = String.utf8EncodeChar c ++ encode text := rfl

@[simp] theorem encode_append (a b : List Char) : encode (a ++ b) = encode a ++ encode b :=
  List.flatMap_append

theorem toByteArray_encode (text : List Char) : (encode text).toByteArray = text.utf8Encode := rfl

@[simp] theorem decode_encode (text : List Char) : decode (encode text) = some text := by
  simp [decode, toByteArray_encode]

theorem encode_injective : Function.Injective encode := by
  intro a b h
  have hdec := congrArg decode h
  simpa using hdec

/-- What is decoded was the encoding. -/
theorem encode_of_decode {bs : List UInt8} {text : List Char} (h : decode bs = some text) :
    encode text = bs := by
  obtain ⟨chars, hchars, rfl⟩ := Option.map_eq_some_iff.mp h
  have hsome : bs.toByteArray.utf8Decode?.isSome := by
    rw [hchars]
    rfl
  have hget := ByteArray.utf8Encode_get_utf8Decode? (b := bs.toByteArray) (h := hsome)
  simp only [hchars, Option.get_some] at hget
  rw [← toByteArray_encode] at hget
  exact List.toByteArray_inj.mp hget

theorem encode_ne_nil {text : List Char} (h : text ≠ []) : encode text ≠ [] := by
  intro hnil
  exact h (encode_injective (hnil.trans encode_nil.symm))

/-! ## Zero bytes -/

theorem ofNat_eq_zero_iff (n : Nat) : 0 = UInt8.ofNat n ↔ n % 256 = 0 := by
  rw [← UInt8.toNat_inj, UInt8.toNat_ofNat', UInt8.toNat_zero, eq_comm]

/-- Only the character zero has a zero byte in its encoding. -/
theorem zero_notMem_char {c : Char} (h : c ≠ '\x00') : (0 : UInt8) ∉ String.utf8EncodeChar c := by
  have hv : c.val.toNat ≠ 0 := fun hz => h (Char.ext (UInt32.toNat_inj.mp hz))
  unfold String.utf8EncodeChar
  dsimp only
  split_ifs <;> simp only [List.mem_cons, List.not_mem_nil, or_false, ofNat_eq_zero_iff] <;> omega

theorem zero_notMem_encode {text : List Char} (h : '\x00' ∉ text) : (0 : UInt8) ∉ encode text := by
  intro hmem
  obtain ⟨c, hc, hz⟩ := List.mem_flatMap.mp hmem
  exact zero_notMem_char (fun hzero => h (hzero ▸ hc)) hz

/-! ## Characters of one byte -/

/-- A character below 128 is one byte. -/
theorem char_of_lt {c : Char} (h : c.toNat < 128) :
    String.utf8EncodeChar c = [UInt8.ofNat c.toNat] := by
  have hle : c.val.toNat ≤ 0x7f := Nat.le_of_lt_succ h
  unfold String.utf8EncodeChar
  dsimp only
  rw [if_pos hle]
  rfl

/-- The bytes of any other character are 128 at least. -/
theorem le_of_mem_char {c : Char} (h : 128 ≤ c.toNat) {b : UInt8}
    (hb : b ∈ String.utf8EncodeChar c) : 128 ≤ b.toNat := by
  have hlt : ¬ c.val.toNat ≤ 0x7f := Nat.not_le_of_lt h
  unfold String.utf8EncodeChar at hb
  dsimp only at hb
  rw [if_neg hlt] at hb
  split_ifs at hb <;> simp only [List.mem_cons, List.not_mem_nil, or_false] at hb <;>
    rcases hb with rfl | rfl | rfl | rfl <;> simp only [UInt8.toNat_ofNat'] <;> omega

theorem encode_of_lt {text : List Char} (h : ∀ c ∈ text, c.toNat < 128) :
    encode text = text.map fun c => UInt8.ofNat c.toNat := by
  induction text with
  | nil => rfl
  | cons c text ih =>
    obtain ⟨hc, htext⟩ := List.forall_mem_cons.mp h
    rw [encode_cons, char_of_lt hc, ih htext]
    rfl

/-- A property of the bytes of a text that only bytes below 128 have is one of its
characters, and these are below 128. -/
theorem forall_encode {p : UInt8 → Prop} (hp : ∀ b, p b → b.toNat < 128) {text : List Char} :
    (∀ b ∈ encode text, p b) ↔ ∀ c ∈ text, c.toNat < 128 ∧ p (UInt8.ofNat c.toNat) := by
  induction text with
  | nil => simp
  | cons c text ih =>
    rw [encode_cons, List.forall_mem_append, List.forall_mem_cons, ih]
    refine and_congr_left fun _ => ?_
    by_cases hc : c.toNat < 128
    · simp [char_of_lt hc, hc]
    · refine ⟨fun h => ?_, fun h => absurd h.1 hc⟩
      obtain ⟨b, hb⟩ := List.exists_mem_of_ne_nil _ (String.utf8EncodeChar_ne_nil (c := c))
      have hle := le_of_mem_char (Nat.le_of_not_lt hc) hb
      have hlt := hp b (h b hb)
      omega

/-! ## Ranges of a text -/

/-- Whether a byte goes on with a character that an earlier byte begins. -/
def continues (b : UInt8) : Bool := decide (0x80 ≤ b.toNat ∧ b.toNat < 0xc0)

/-- `str::is_char_boundary`: a character begins there, or the text ends. -/
def is_char_boundary (bs : List UInt8) (i : Nat) : Bool :=
  match bs[i]? with
  | some b => i == 0 || !continues b
  | none => i == bs.length

/-- `&text[start..stop]` of the bytes of a text; it panics where the range leaves the
text or cuts a character. -/
def str_range (bs : List UInt8) (start stop : Nat) : Option (List UInt8) :=
  if start ≤ stop ∧ is_char_boundary bs start ∧ is_char_boundary bs stop then
    some ((bs.drop start).take (stop - start))
  else none

theorem is_char_boundary_zero (bs : List UInt8) : is_char_boundary bs 0 := by
  cases bs <;> simp [is_char_boundary]

theorem is_char_boundary_append (a b : List UInt8) (i : Nat) :
    is_char_boundary (a ++ b) (a.length + (i + 1)) = is_char_boundary b (i + 1) := by
  unfold is_char_boundary
  rw [List.getElem?_append_right (Nat.le_add_right _ _), Nat.add_sub_cancel_left]
  cases b[i + 1]? with
  | some x => simp
  | none => simp

/-- The first byte of a text goes on with no character. -/
theorem not_continues_first {text : List Char} {b : UInt8} (h : (encode text)[0]? = some b) :
    continues b = false := by
  cases text with
  | nil => cases h
  | cons c text =>
    rw [encode_cons, List.getElem?_append_left
      (List.length_pos_iff.mpr String.utf8EncodeChar_ne_nil)] at h
    unfold continues
    rw [decide_eq_false_iff_not]
    unfold String.utf8EncodeChar at h
    dsimp only at h
    split_ifs at h <;> cases h <;> simp only [UInt8.toNat_ofNat'] <;> omega

/-- After a character of one byte another character begins, or the text ends. -/
theorem is_char_boundary_after {text : List Char} {i : Nat} {b : UInt8}
    (h : (encode text)[i]? = some b) (hb : b.toNat < 128) :
    is_char_boundary (encode text) (i + 1) := by
  induction text generalizing i with
  | nil => cases h
  | cons c text ih =>
    rw [encode_cons] at h ⊢
    by_cases hi : i < (String.utf8EncodeChar c).length
    · rw [List.getElem?_append_left hi] at h
      have hmem : b ∈ String.utf8EncodeChar c := List.mem_of_getElem? h
      have hc : c.toNat < 128 := by
        by_contra hc
        have := le_of_mem_char (Nat.le_of_not_lt hc) hmem
        omega
      rw [char_of_lt hc] at hi ⊢
      obtain rfl : i = 0 := by simpa using hi
      unfold is_char_boundary
      rw [List.getElem?_append_right (by simp)]
      simp only [List.length_singleton, Nat.zero_add, Nat.sub_self]
      cases hfirst : (encode text)[0]? with
      | some x => simp [not_continues_first hfirst]
      | none => simpa using hfirst
    · obtain ⟨j, rfl⟩ := Nat.exists_eq_add_of_le (Nat.le_of_not_lt hi)
      rw [List.getElem?_append_right (Nat.le_add_right _ _), Nat.add_sub_cancel_left] at h
      rw [Nat.add_assoc, is_char_boundary_append]
      exact ih h

end utf8
