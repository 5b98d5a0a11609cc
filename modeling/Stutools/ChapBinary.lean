-- The binary values of CHAP: bytes as "0x" and hex or as "0b" and Base64, and the
-- decoder that reads both. It works on the bytes of a text from the network, and a
-- plus sign or a character of several bytes among the hex digits misleads it.
import Mathlib.Data.List.DropRight
import Stutools.Bytes
import Stutools.Utf8

open bytes

namespace stutools.chap

/-- Why a text is no binary value. -/
inductive BinaryError where
  /-- "bad hex in .." -/
  | hex (text : List Char)
  /-- "bad Base64 in .." -/
  | base64 (text : List Char)
  /-- "CHAP value is neither hex nor Base64: .." -/
  | neither (text : List Char)
deriving DecidableEq, Repr

/-- The Base64 alphabet as characters. -/
def ALPHABET : List Char :=
  "ABCDEFGHIJKLMNOPQRSTUVWXYZabcdefghijklmnopqrstuvwxyz0123456789+/".toList

def BASE64 : List UInt8 := ALPHABET.map fun c => UInt8.ofNat c.toNat

/-! ## The encoders -/

/-- A binary value as "0x" and lowercase hex. -/
def encode_hex (bytes : List UInt8) : List Char :=
  '0' :: 'x' :: bytes.flatMap fun byte =>
    [Nat.digitChar (byte.toNat / 16), Nat.digitChar (byte.toNat % 16)]

/-- `chunks(3)`. -/
def chunks3 : List UInt8 → List (List UInt8)
  | a :: b :: c :: rest => [a, b, c] :: chunks3 rest
  | [] => []
  | rest => [rest]

/-- The four characters of a chunk. -/
def quad (chunk : List UInt8) : List Char :=
  let n := of_be [0, chunk.getD 0 0, chunk.getD 1 0, chunk.getD 2 0]
  (List.range 4).map fun i =>
    if i ≤ chunk.length then Char.ofNat (BASE64.getD (n >>> (18 - 6 * i) &&& 63) 0).toNat else '='

/-- A binary value as "0b" and Base64 with padding. -/
def encode_base64 (bytes : List UInt8) : List Char :=
  '0' :: 'b' :: (chunks3 bytes).flatMap quad

/-! ## The decoder -/

/-- `char::to_digit(16)` of a byte. -/
def to_digit (b : UInt8) : Option Nat :=
  if 48 ≤ b ∧ b ≤ 57 then some (b.toNat - 48)
  else if 97 ≤ b ∧ b ≤ 102 then some (b.toNat - 87)
  else if 65 ≤ b ∧ b ≤ 70 then some (b.toNat - 55)
  else none

/-- `u8::from_str_radix(.., 16)`: hexadecimal digits after an optional plus sign,
below 256. -/
def from_str_radix (src : List UInt8) : Option UInt8 :=
  let digits := if src.head? = some 43 then src.tail else src
  if digits = [] then none
  else (digits.mapM to_digit).bind fun ds =>
    let n := ds.foldl (fun n d => 16 * n + d) 0
    if n < 256 then some (UInt8.ofNat n) else none

/-- The bytes of the two-digit numbers at the indices `is` of the digits, up to the
first that is not a number. There is no result where a range panics. -/
def hex_pairs (text : List Char) (digits : List UInt8) :
    List Nat → Option (Except BinaryError (List UInt8))
  | [] => some (.ok [])
  | i :: is => do
    let pair ← utf8.str_range digits i (i + 2)
    match from_str_radix pair with
    | none => some (.error (.hex text))
    | some byte => (hex_pairs text digits is).map fun rest => rest.map (byte :: ·)

/-- The digits of a hex form, with a leading zero when they are an odd number of bytes. -/
def even_digits (digits : List Char) : List UInt8 :=
  utf8.encode (if (utf8.encode digits).length % 2 = 1 then '0' :: digits else digits)

/-- What the loop over Base64 digits carries. -/
structure Sextets where
  bits : UInt32
  count : Nat
  out : List UInt8

/-- The loop's turn for the value of a digit. -/
def Sextets.push (s : Sextets) (v : Nat) : Sextets :=
  let bits := s.bits <<< 6 ||| UInt32.ofNat v
  let count := s.count + 6
  if 8 ≤ count then
    { bits, count := count - 8, out := s.out ++ [UInt8.ofNat (bits.toNat >>> (count - 8))] }
  else { bits, count, out := s.out }

/-- The loop's turn for a byte of the text. -/
def sextet (text : List Char) (s : Sextets) (c : UInt8) : Except BinaryError Sextets :=
  match BASE64.findIdx? (· == c) with
  | none => .error (.base64 text)
  | some v => .ok (s.push v)

/-- `text.strip_prefix` of two characters. -/
def strip_prefix2 (a b : Char) : List Char → Option (List Char)
  | x :: y :: rest => if x = a ∧ y = b then some rest else none
  | _ => none

/-- The digits of a text in hex form. -/
def hex_form (text : List Char) : Option (List Char) :=
  (strip_prefix2 '0' 'x' text).or (strip_prefix2 '0' 'X' text)

/-- The digits of a text in Base64 form. -/
def base64_form (text : List Char) : Option (List Char) :=
  (strip_prefix2 '0' 'b' text).or (strip_prefix2 '0' 'B' text)

/-- Decodes a binary value: "0x" or "0X" and hex digits, or "0b" or "0B" and Base64.
An odd hex digit count is read with a leading zero. There is no result where it panics. -/
def decode_binary (text : List Char) : Option (Except BinaryError (List UInt8)) :=
  match hex_form text with
  | some digits =>
    let digits := even_digits digits
    hex_pairs text digits (List.range' 0 ((digits.length + 1) / 2) 2)
  | none => some <|
    match base64_form text with
    | none => .error (.neither text)
    | some digits =>
      let digits := digits.rdropWhile (· == '=')
      ((utf8.encode digits).foldlM (sextet text) ⟨0, 0, []⟩).map Sextets.out

/-! ## The digits of each form -/

/-- A hexadecimal digit. -/
def HexDigit (c : Char) : Prop :=
  '0' ≤ c ∧ c ≤ '9' ∨ 'a' ≤ c ∧ c ≤ 'f' ∨ 'A' ≤ c ∧ c ≤ 'F'

instance (c : Char) : Decidable (HexDigit c) := inferInstanceAs (Decidable (_ ∨ _))

/-- A text in one of the two forms, in the characters of that form. -/
inductive WellFormed : List Char → Prop
  | hex {x : Char} {digits : List Char} (hx : x = 'x' ∨ x = 'X')
      (h : ∀ c ∈ digits, HexDigit c) : WellFormed ('0' :: x :: digits)
  | base64 {b : Char} {digits : List Char} (hb : b = 'b' ∨ b = 'B')
      (h : ∀ c ∈ digits, c ∈ ALPHABET) (padding : Nat) :
      WellFormed ('0' :: b :: (digits ++ List.replicate padding '='))

/-- The decoder returns for the text, and accepts it only in a form. -/
def Judged (text : List Char) : Prop :=
  (∃ result, decode_binary text = some result) ∧
    ∀ bytes, decode_binary text = some (.ok bytes) → WellFormed text

/-- The two bytes of a pair of digits are a number to the decoder. -/
def Number (digits : List UInt8) (i : Nat) : Prop :=
  (from_str_radix (slice digits (2 * i) 2)).isSome

instance (digits : List UInt8) (i : Nat) : Decidable (Number digits i) :=
  inferInstanceAs (Decidable (_ = true))

/-- The digits of a hex form are all hexadecimal, or some pair of their bytes is no
number and the first such pair ends with a character. -/
def Sound (text : List Char) : Prop :=
  ∀ digits, hex_form text = some digits →
    (∀ c ∈ digits, HexDigit c) ∨
      ∃ i, 2 * i < (even_digits digits).length ∧ ¬ Number (even_digits digits) i ∧
        (∀ j < i, Number (even_digits digits) j) ∧
        utf8.is_char_boundary (even_digits digits) (2 * i + 2)

theorem strip_prefix2_eq_some {a b : Char} {text rest : List Char} :
    strip_prefix2 a b text = some rest ↔ text = a :: b :: rest := by
  unfold strip_prefix2
  split
  · rename_i x y more
    split
    · rename_i h
      obtain ⟨rfl, rfl⟩ := h
      simp
    · rename_i h
      simp only [reduceCtorEq, List.cons.injEq, false_iff, not_and]
      intro hx hy
      exact absurd ⟨hx, hy⟩ h
  · rename_i hshort
    simp only [reduceCtorEq, false_iff]
    exact fun h => hshort _ _ _ h

theorem hex_form_eq_some {text digits : List Char} (h : hex_form text = some digits) :
    ∃ x, (x = 'x' ∨ x = 'X') ∧ text = '0' :: x :: digits := by
  rcases Option.or_eq_some_iff.mp h with h | ⟨-, h⟩
  · exact ⟨'x', .inl rfl, strip_prefix2_eq_some.mp h⟩
  · exact ⟨'X', .inr rfl, strip_prefix2_eq_some.mp h⟩

theorem base64_form_eq_some {text digits : List Char} (h : base64_form text = some digits) :
    ∃ b, (b = 'b' ∨ b = 'B') ∧ text = '0' :: b :: digits := by
  rcases Option.or_eq_some_iff.mp h with h | ⟨-, h⟩
  · exact ⟨'b', .inl rfl, strip_prefix2_eq_some.mp h⟩
  · exact ⟨'B', .inr rfl, strip_prefix2_eq_some.mp h⟩

/-! ## One pair of hex digits -/

theorem char_ofNat_toNat {n : Nat} (h : n < 128) : (Char.ofNat n).toNat = n := by
  have hvalid : n.isValidChar := .inl (by omega)
  have hchar : Char.ofNat n = Char.ofNatAux n hvalid := dif_pos hvalid
  rw [hchar]
  rfl

theorem to_digit_isSome_iff (b : UInt8) :
    (to_digit b).isSome ↔ b.toNat < 128 ∧ HexDigit (Char.ofNat b.toNat) := by
  have hle : ∀ c d : Char, (c ≤ d) = (c.toNat ≤ d.toNat) := fun _ _ => rfl
  have hhex : b.toNat < 128 → (HexDigit (Char.ofNat b.toNat) ↔ 48 ≤ b.toNat ∧ b.toNat ≤ 57 ∨
      97 ≤ b.toNat ∧ b.toNat ≤ 102 ∨ 65 ≤ b.toNat ∧ b.toNat ≤ 70) := fun h => by
    simp only [HexDigit, hle, char_ofNat_toNat h]
    rfl
  unfold to_digit
  simp only [UInt8.le_iff_toNat_le]
  split_ifs with h1 h2 h3 <;> simp at h1 <;> grind

theorem HexDigit.lt {c : Char} (h : HexDigit c) : c.toNat < 128 := by
  rcases h with ⟨-, h⟩ | ⟨-, h⟩ | ⟨-, h⟩ <;> exact Nat.lt_of_le_of_lt h (by decide)

theorem to_digit_char {c : Char} :
    c.toNat < 128 ∧ (to_digit (UInt8.ofNat c.toNat)).isSome ↔ HexDigit c := by
  have hbyte : c.toNat < 128 → (UInt8.ofNat c.toNat).toNat = c.toNat := fun h => by
    rw [UInt8.toNat_ofNat', Nat.mod_eq_of_lt (by omega)]
  constructor
  · rintro ⟨hlt, hdigit⟩
    have hhex := ((to_digit_isSome_iff _).mp hdigit).2
    rwa [hbyte hlt, Char.ofNat_toNat] at hhex
  · intro hhex
    refine ⟨hhex.lt, (to_digit_isSome_iff _).mpr ?_⟩
    rw [hbyte hhex.lt, Char.ofNat_toNat]
    exact ⟨hhex.lt, hhex⟩

theorem to_digit_lt {b : UInt8} {d : Nat} (h : to_digit b = some d) : d < 16 := by
  unfold to_digit at h
  simp only [UInt8.le_iff_toNat_le] at h
  split_ifs at h with h1 h2 h3 <;> cases h <;> simp at * <;> omega

/-- A pair of bytes is a number when the second is a digit and the first a digit or a
plus sign. -/
theorem from_str_radix_pair (a b : UInt8) :
    (from_str_radix [a, b]).isSome ↔ (a = 43 ∨ (to_digit a).isSome) ∧ (to_digit b).isSome := by
  by_cases ha : a = 43
  · subst ha
    cases hb : to_digit b with
    | none => simp [from_str_radix, hb]
    | some y =>
      have hy := to_digit_lt hb
      simp [from_str_radix, hb, show y < 256 by omega]
  · cases hx : to_digit a with
    | none => simp [from_str_radix, ha, hx]
    | some x =>
      cases hb : to_digit b with
      | none => simp [from_str_radix, ha, hx, hb]
      | some y =>
        have hx16 := to_digit_lt hx
        have hy16 := to_digit_lt hb
        simp [from_str_radix, ha, hx, hb, show 16 * x + y < 256 by omega]

/-! ## The pairs of a text in hex form -/

section pairs

variable {text digits : List Char}

/-- The bytes of a pair inside the digits. -/
theorem slice_pair {d : List UInt8} {i : Nat} (h : 2 * i + 2 ≤ d.length) :
    ∃ a b, slice d (2 * i) 2 = [a, b] ∧ d[2 * i]? = some a ∧ d[2 * i + 1]? = some b := by
  refine ⟨d[2 * i], d[2 * i + 1], ?_, by simp, by simp⟩
  unfold slice
  rw [List.drop_eq_getElem_cons (by omega), List.drop_eq_getElem_cons (by omega)]
  rfl

/-- After a number another character begins. -/
theorem Number.boundary {i : Nat} (h : 2 * i + 2 ≤ (even_digits digits).length)
    (hnum : Number (even_digits digits) i) :
    utf8.is_char_boundary (even_digits digits) (2 * i + 2) := by
  obtain ⟨a, b, hslice, -, hb⟩ := slice_pair h
  unfold Number at hnum
  rw [hslice, from_str_radix_pair, to_digit_isSome_iff b] at hnum
  exact utf8.is_char_boundary_after hb hnum.2.1

/-- One turn of the loop over the pairs. -/
theorem hex_pairs_cons {d : List UInt8} {k m : Nat} (hk : utf8.is_char_boundary d (2 * k)) :
    hex_pairs text d (List.range' (2 * k) (m + 1) 2) =
      if utf8.is_char_boundary d (2 * k + 2) then
        match from_str_radix (slice d (2 * k) 2) with
        | none => some (.error (.hex text))
        | some byte => (hex_pairs text d (List.range' (2 * (k + 1)) m 2)).map fun rest =>
            rest.map (byte :: ·)
      else none := by
  rw [List.range'_succ, hex_pairs]
  by_cases hend : utf8.is_char_boundary d (2 * k + 2)
  · simp [utf8.str_range, hk, hend, slice, Nat.mul_add]
  · simp [utf8.str_range, hk, hend]

variable (text digits)

/-- Digits that are numbers throughout are decoded to these numbers. -/
theorem hex_pairs_numbers {f : Nat → UInt8} (m k : Nat)
    (hlen : 2 * (k + m) = (even_digits digits).length)
    (hk : utf8.is_char_boundary (even_digits digits) (2 * k))
    (hnum : ∀ i, k ≤ i → i < k + m →
      from_str_radix (slice (even_digits digits) (2 * i) 2) = some (f i)) :
    hex_pairs text (even_digits digits) (List.range' (2 * k) m 2) =
      some (.ok ((List.range' k m).map f)) := by
  induction m generalizing k with
  | zero => rfl
  | succ m ih =>
    have hfirst := hnum k (Nat.le_refl _) (by omega)
    have hend : utf8.is_char_boundary (even_digits digits) (2 * k + 2) :=
      Number.boundary (by omega) (by unfold Number; rw [hfirst]; rfl)
    rw [hex_pairs_cons hk, if_pos hend, hfirst,
      ih (k + 1) (by omega) hend fun i hi hlt => hnum i (by omega) (by omega)]
    rfl

/-- The first pair that is no number ends the loop: with an error if it ends with a
character, with a panic if not. -/
theorem hex_pairs_first_other {j : Nat} (m k : Nat) (hkj : k ≤ j) (hjm : j < k + m)
    (hlen : 2 * (k + m) = (even_digits digits).length)
    (hk : utf8.is_char_boundary (even_digits digits) (2 * k))
    (hnum : ∀ i < j, Number (even_digits digits) i) (hother : ¬ Number (even_digits digits) j) :
    hex_pairs text (even_digits digits) (List.range' (2 * k) m 2) =
      if utf8.is_char_boundary (even_digits digits) (2 * j + 2) then some (.error (.hex text))
      else none := by
  induction m generalizing k with
  | zero => omega
  | succ m ih =>
    rw [hex_pairs_cons hk]
    by_cases heq : k = j
    · subst heq
      unfold Number at hother
      rw [Option.not_isSome_iff_eq_none] at hother
      rw [hother]
    · have hnow := hnum k (by omega)
      have hend := hnow.boundary (by omega)
      obtain ⟨byte, hbyte⟩ := Option.isSome_iff_exists.mp hnow
      rw [if_pos hend, hbyte, ih (k + 1) (by omega) (by omega) (by omega) hend]
      dsimp only
      split <;> rfl

end pairs

/-! ## Texts in hex form -/

theorem even_digits_length (digits : List Char) : (even_digits digits).length % 2 = 0 := by
  unfold even_digits
  split
  · rename_i hodd
    have hzero : (utf8.encode ('0' :: digits)).length = (utf8.encode digits).length + 1 := by
      simp [utf8.char_of_lt (show ('0').toNat < 128 by decide)]
    omega
  · omega

theorem forall_even_digits (digits : List Char) :
    (∀ b ∈ even_digits digits, (to_digit b).isSome) ↔ ∀ c ∈ digits, HexDigit c := by
  have hall : ∀ text : List Char, (∀ b ∈ utf8.encode text, (to_digit b).isSome) ↔
      ∀ c ∈ text, HexDigit c := by
    intro text
    rw [utf8.forall_encode fun b hb => ((to_digit_isSome_iff b).mp hb).1]
    exact forall₂_congr fun c _ => to_digit_char
  unfold even_digits
  split
  · rw [hall, List.forall_mem_cons]
    exact and_iff_right (by decide)
  · exact hall digits

/-- Hexadecimal digits are numbers, pair by pair. -/
theorem Number.of_hex {d : List UInt8} (h : ∀ b ∈ d, (to_digit b).isSome) {i : Nat}
    (hi : 2 * i + 2 ≤ d.length) : Number d i := by
  obtain ⟨a, b, hslice, ha, hb⟩ := slice_pair hi
  unfold Number
  rw [hslice, from_str_radix_pair]
  exact ⟨.inr (h a (List.mem_of_getElem? ha)), h b (List.mem_of_getElem? hb)⟩

/-- A text in hex form is judged exactly when its pairs are sound. -/
theorem judged_hex_iff {text digits : List Char} (h : hex_form text = some digits) :
    Judged text ↔ Sound text := by
  obtain ⟨x, hx, rfl⟩ := hex_form_eq_some h
  have hdec : decode_binary ('0' :: x :: digits) = hex_pairs ('0' :: x :: digits)
      (even_digits digits) (List.range' (2 * 0) ((even_digits digits).length / 2) 2) := by
    have heven := even_digits_length digits
    unfold decode_binary
    rw [h]
    dsimp only
    congr 2
    omega
  have heven := even_digits_length digits
  have hsound : Sound ('0' :: x :: digits) ↔ (∀ c ∈ digits, HexDigit c) ∨
      ∃ i, 2 * i < (even_digits digits).length ∧ ¬ Number (even_digits digits) i ∧
        (∀ j < i, Number (even_digits digits) j) ∧
        utf8.is_char_boundary (even_digits digits) (2 * i + 2) := by
    unfold Sound
    rw [h]
    simp
  have hformed : WellFormed ('0' :: x :: digits) ↔ ∀ c ∈ digits, HexDigit c := by
    refine ⟨fun hform => ?_, WellFormed.hex hx⟩
    cases hform with
    | hex _ hdigits => exact hdigits
    | base64 hb => rcases hx with rfl | rfl <;> rcases hb with hb | hb <;> cases hb
  rw [hsound]
  by_cases hother : ∃ i, 2 * i < (even_digits digits).length ∧ ¬ Number (even_digits digits) i
  · -- the first pair that is no number decides
    obtain ⟨⟨hj, hjnum⟩, hmin⟩ := Nat.find_spec hother, fun i hi => Nat.find_min hother hi
    generalize Nat.find hother = j at hj hjnum hmin
    have hbefore : ∀ i < j, Number (even_digits digits) i := fun i hi => by
      by_contra hnum
      exact hmin i hi ⟨by omega, hnum⟩
    have hrun := hex_pairs_first_other ('0' :: x :: digits) digits
      ((even_digits digits).length / 2) 0 (Nat.zero_le j) (by omega) (by omega)
      (utf8.is_char_boundary_zero _) hbefore hjnum
    unfold Judged
    rw [hdec, hrun]
    by_cases hend : utf8.is_char_boundary (even_digits digits) (2 * j + 2)
    · rw [if_pos hend]
      simp only [Option.some.injEq, exists_eq', reduceCtorEq, false_implies, implies_true,
        and_self, true_iff]
      exact .inr ⟨j, hj, hjnum, hbefore, hend⟩
    · rw [if_neg hend]
      simp only [reduceCtorEq, exists_false, false_and, false_iff, not_or]
      refine ⟨fun hhex => ?_, ?_⟩
      · exact hjnum (Number.of_hex ((forall_even_digits digits).mpr hhex) (by omega))
      · rintro ⟨i, hi, hinum, hbeforei, hiend⟩
        rcases Nat.lt_trichotomy i j with hlt | rfl | hlt
        · exact hinum (hbefore i hlt)
        · exact hend hiend
        · exact hjnum (hbeforei j hlt)
  · -- every pair is a number
    have hnum : ∀ i, 2 * i < (even_digits digits).length → Number (even_digits digits) i :=
      fun i hi => by_contra fun h => hother ⟨i, hi, h⟩
    have hrun := hex_pairs_numbers ('0' :: x :: digits) digits
      (f := fun i => (from_str_radix (slice (even_digits digits) (2 * i) 2)).getD 0)
      ((even_digits digits).length / 2) 0 (by omega) (utf8.is_char_boundary_zero _)
      fun i _ hi => (Option.getD_of_ne_none
        (Option.isSome_iff_ne_none.mp (hnum i (by omega))) 0).symm
    have hor : ((∀ c ∈ digits, HexDigit c) ∨
        ∃ i, 2 * i < (even_digits digits).length ∧ ¬ Number (even_digits digits) i ∧
          (∀ j < i, Number (even_digits digits) j) ∧
          utf8.is_char_boundary (even_digits digits) (2 * i + 2)) ↔ ∀ c ∈ digits, HexDigit c :=
      or_iff_left fun ⟨i, hi, hinum, _⟩ => hinum (hnum i hi)
    rw [hor, ← hformed]
    unfold Judged
    rw [hdec, hrun]
    exact ⟨fun hjudged => hjudged.2 _ rfl, fun hform => ⟨⟨_, rfl⟩, fun _ _ => hform⟩⟩

/-! ## Texts in Base64 form -/

theorem sextets_alphabet {text : List Char} {digits : List UInt8} {s t : Sextets}
    (h : digits.foldlM (sextet text) s = .ok t) : ∀ b ∈ digits, b ∈ BASE64 := by
  induction digits generalizing s with
  | nil => simp
  | cons b digits ih =>
    rw [List.foldlM_cons, except_bind_ok] at h
    obtain ⟨s', hstep, hrest⟩ := h
    refine List.forall_mem_cons.mpr ⟨?_, ih hrest⟩
    unfold sextet at hstep
    split at hstep
    · cases hstep
    · rename_i v hv
      obtain ⟨hlt, hget, -⟩ := List.findIdx?_eq_some_iff_getElem.mp hv
      rw [← eq_of_beq hget]
      exact List.getElem_mem hlt

/-- The characters of the literal, which a kernel does not have to decode. -/
theorem alphabet_eq : ALPHABET =
    ['A', 'B', 'C', 'D', 'E', 'F', 'G', 'H', 'I', 'J', 'K', 'L', 'M', 'N', 'O', 'P', 'Q', 'R', 'S',
      'T', 'U', 'V', 'W', 'X', 'Y', 'Z', 'a', 'b', 'c', 'd', 'e', 'f', 'g', 'h', 'i', 'j', 'k', 'l',
      'm', 'n', 'o', 'p', 'q', 'r', 's', 't', 'u', 'v', 'w', 'x', 'y', 'z', '0', '1', '2', '3', '4',
      '5', '6', '7', '8', '9', '+', '/'] :=
  String.toList_ofList

theorem alphabet_lt : ∀ c ∈ ALPHABET, c.toNat < 128 := by
  have hall : ALPHABET.all fun c => c.toNat < 128 := by
    rw [alphabet_eq]
    decide +kernel
  simpa using hall

theorem base64_lt : ∀ b ∈ BASE64, b.toNat < 128 := by
  intro b hb
  obtain ⟨c, hc, rfl⟩ := List.mem_map.mp hb
  have hlt := alphabet_lt c hc
  rwa [UInt8.toNat_ofNat', Nat.mod_eq_of_lt (by omega)]

theorem mem_alphabet {c : Char} (hlt : c.toNat < 128) (h : UInt8.ofNat c.toNat ∈ BASE64) :
    c ∈ ALPHABET := by
  obtain ⟨c', hc', heq⟩ := List.mem_map.mp h
  have hlt' := alphabet_lt c' hc'
  have hnat : c'.toNat = c.toNat := by
    have := congrArg UInt8.toNat heq
    rwa [UInt8.toNat_ofNat', UInt8.toNat_ofNat', Nat.mod_eq_of_lt (by omega),
      Nat.mod_eq_of_lt (by omega)] at this
  rw [← Char.ofNat_toNat c, ← hnat, Char.ofNat_toNat]
  exact hc'

/-- A text is not cut and not misread when it is not in hex form. -/
theorem judged_of_not_hex {text : List Char} (h : hex_form text = none) : Judged text := by
  unfold Judged decode_binary
  rw [h]
  refine ⟨⟨_, rfl⟩, fun bytes hbytes => ?_⟩
  simp only [Option.some.injEq] at hbytes
  split at hbytes
  · cases hbytes
  · rename_i digits hform
    obtain ⟨b, hb, rfl⟩ := base64_form_eq_some hform
    have hpadding : digits.rtakeWhile (· == '=') =
        List.replicate (digits.rtakeWhile (· == '=')).length '=' := by
      rw [List.eq_replicate_iff]
      refine ⟨rfl, fun c hc => ?_⟩
      have heq := List.mem_rtakeWhile_imp hc
      exact eq_of_beq heq
    rw [← List.rdropWhile_append_rtakeWhile (p := (· == '=')) (l := digits), hpadding]
    refine WellFormed.base64 hb (fun c hc => ?_) _
    cases hrun : (utf8.encode (digits.rdropWhile (· == '='))).foldlM
        (sextet ('0' :: b :: digits)) ⟨0, 0, []⟩ with
    | error e =>
      rw [hrun] at hbytes
      cases hbytes
    | ok t =>
      have hmem := (utf8.forall_encode base64_lt).mp (sextets_alphabet hrun) c hc
      exact mem_alphabet hmem.1 hmem.2

/-! ## The round trip of hex -/

/-- The two bytes of a byte in hex. -/
def hex_of (b : UInt8) : List UInt8 :=
  [UInt8.ofNat (Nat.digitChar (b.toNat / 16)).toNat, UInt8.ofNat (Nat.digitChar (b.toNat % 16)).toNat]

theorem to_digit_digitChar {d : Nat} (h : d < 16) :
    to_digit (UInt8.ofNat (Nat.digitChar d).toNat) = some d ∧
      UInt8.ofNat (Nat.digitChar d).toNat ≠ 43 := by
  have hall : ∀ d : Fin 16, to_digit (UInt8.ofNat (Nat.digitChar d).toNat) = some d.1 ∧
      UInt8.ofNat (Nat.digitChar d).toNat ≠ 43 := by decide
  exact hall ⟨d, h⟩

theorem from_str_radix_hex_of (b : UInt8) : from_str_radix (hex_of b) = some b := by
  have hb := b.toNat_lt
  have hhigh := to_digit_digitChar (d := b.toNat / 16) (by omega)
  have hlow := to_digit_digitChar (d := b.toNat % 16) (by omega)
  have hsum : 16 * (b.toNat / 16) + b.toNat % 16 = b.toNat := Nat.div_add_mod _ 16
  simp [from_str_radix, hex_of, hhigh, hlow, hsum, hb]

theorem digitChar_lt {n : Nat} (h : n < 16) : (Nat.digitChar n).toNat < 128 := by
  have hall : ∀ n : Fin 16, (Nat.digitChar n).toNat < 128 := by decide
  exact hall ⟨n, h⟩

theorem encode_hex_digits (bytes : List UInt8) :
    utf8.encode (bytes.flatMap fun byte =>
      [Nat.digitChar (byte.toNat / 16), Nat.digitChar (byte.toNat % 16)]) =
      bytes.flatMap hex_of := by
  induction bytes with
  | nil => rfl
  | cons b bytes ih =>
    have hb := b.toNat_lt
    rw [List.flatMap_cons, List.flatMap_cons, utf8.encode_append, ih,
      utf8.encode_of_lt fun c hc => ?_]
    · rfl
    · rcases List.mem_pair.mp hc with rfl | rfl <;> exact digitChar_lt (by omega)

theorem hex_of_length (bytes : List UInt8) : (bytes.flatMap hex_of).length = 2 * bytes.length := by
  induction bytes with
  | nil => rfl
  | cons b bytes ih =>
    rw [List.flatMap_cons, List.length_append, ih, List.length_cons]
    simp [hex_of]
    omega

theorem slice_hex_of {bytes : List UInt8} {i : Nat} (h : i < bytes.length) :
    slice (bytes.flatMap hex_of) (2 * i) 2 = hex_of (bytes.getD i 0) := by
  induction bytes generalizing i with
  | nil => cases h
  | cons b bytes ih =>
    cases i with
    | zero => rfl
    | succ i =>
      rw [List.getD_cons_succ, ← ih (Nat.lt_of_succ_lt_succ h)]
      rfl

theorem decode_binary_encode_hex (bytes : List UInt8) :
    decode_binary (encode_hex bytes) = some (.ok bytes) := by
  have hdigits : even_digits (bytes.flatMap fun byte =>
      [Nat.digitChar (byte.toNat / 16), Nat.digitChar (byte.toNat % 16)]) =
      bytes.flatMap hex_of := by
    unfold even_digits
    rw [encode_hex_digits, hex_of_length, if_neg (by omega), encode_hex_digits]
  have hform : ∀ digits, hex_form ('0' :: 'x' :: digits) = some digits := fun _ => rfl
  unfold decode_binary encode_hex
  rw [hform]
  dsimp only
  have hlen := hex_of_length bytes
  have hrun := hex_pairs_numbers (encode_hex bytes) _ (f := fun i => bytes.getD i 0) bytes.length 0
    (by rw [hdigits, hlen, Nat.zero_add]) (utf8.is_char_boundary_zero _) fun i _ hi => by
      rw [hdigits, slice_hex_of (by omega)]
      exact from_str_radix_hex_of _
  rw [hdigits] at hrun ⊢
  rw [hlen, show (2 * bytes.length + 1) / 2 = bytes.length by omega]
  refine hrun.trans ?_
  congr 2
  apply List.ext_getElem (by simp)
  intro i hi hi'
  simp [List.getD, hi']

/-! ## The round trip of Base64 -/

/-- The values of the digits of a chunk. -/
def sextets (chunk : List UInt8) : List Nat :=
  let n := of_be [0, chunk.getD 0 0, chunk.getD 1 0, chunk.getD 2 0]
  (List.range (chunk.length + 1)).map fun i => n >>> (18 - 6 * i) &&& 63

/-- The digit of a value. -/
def digit (v : Nat) : Char := Char.ofNat (BASE64.getD v 0).toNat

theorem sextet_digit {text : List Char} {s : Sextets} {v : Nat} (h : v < 64) :
    sextet text s (UInt8.ofNat (digit v).toNat) = .ok (s.push v) := by
  have hall : ∀ v : Fin 64, BASE64.findIdx? (· == UInt8.ofNat (digit v).toNat) = some v.1 := by
    unfold digit BASE64
    rw [alphabet_eq]
    decide +kernel
  unfold sextet
  rw [hall ⟨v, h⟩]

theorem digit_mem {v : Nat} (h : v < 64) : digit v ∈ ALPHABET := by
  have hlen : ALPHABET.length = 64 := by rw [alphabet_eq]; rfl
  have hv : v < ALPHABET.length := by omega
  have hlt := alphabet_lt _ (List.getElem_mem hv)
  have hbyte : BASE64.getD v 0 = UInt8.ofNat ALPHABET[v].toNat := by simp [BASE64, hv]
  have heq : digit v = ALPHABET[v] := by
    rw [digit, hbyte, UInt8.toNat_ofNat', Nat.mod_eq_of_lt (by omega), Char.ofNat_toNat]
  exact heq ▸ List.getElem_mem hv

/-- The bits after a digit, as a number. -/
theorem push_bits (bits : UInt32) {v : Nat} (h : v < 64) :
    (bits <<< 6 ||| UInt32.ofNat v).toNat = (bits.toNat * 64 + v) % 2 ^ 32 := by
  have hv : (UInt32.ofNat v).toNat = v := by
    rw [UInt32.toNat_ofNat', Nat.mod_eq_of_lt (by omega)]
  have hshift : (bits <<< 6).toNat = bits.toNat % 2 ^ 26 * 2 ^ 6 := by
    rw [UInt32.toNat_shiftLeft, Nat.shiftLeft_eq]
    simp
    omega
  rw [UInt32.toNat_or, hv, hshift, ← Nat.shiftLeft_eq, ← Nat.shiftLeft_add_eq_or_of_lt h,
    Nat.shiftLeft_eq]
  omega

theorem sextet_and (n k : Nat) : n >>> k &&& 63 = n / 2 ^ k % 64 := by
  rw [Nat.shiftRight_eq_div_pow]
  exact Nat.and_two_pow_sub_one_eq_mod _ 6

theorem of_be_three (a b c : UInt8) :
    of_be [0, a, b, c] = a.toNat * 65536 + b.toNat * 256 + c.toNat := by
  simp [of_be, of_le]
  omega

theorem ofNat_eq_of_mod {n : Nat} {a : UInt8} (h : n % 256 = a.toNat) : UInt8.ofNat n = a := by
  rw [← UInt8.toNat_inj, UInt8.toNat_ofNat', h]

/-- The first two digits of a chunk give its first byte, whatever bits are left of
others. -/
theorem push_two (bits : UInt32) (out : List UInt8) {v w : Nat} (hv : v < 64) (hw : w < 64) :
    ∃ bits', ((⟨bits, 0, out⟩ : Sextets).push v).push w =
      ⟨bits', 4, out ++ [UInt8.ofNat ((v * 64 + w) / 16)]⟩ ∧ bits'.toNat % 16 = w % 16 := by
  have hfirst := push_bits bits hv
  have hsecond := push_bits (bits <<< 6 ||| UInt32.ofNat v) hw
  refine ⟨(bits <<< 6 ||| UInt32.ofNat v) <<< 6 ||| UInt32.ofNat w, ?_, by omega⟩
  have hbyte : UInt8.ofNat (((bits <<< 6 ||| UInt32.ofNat v) <<< 6 ||| UInt32.ofNat w).toNat >>> 4)
      = UInt8.ofNat ((v * 64 + w) / 16) := by
    apply ofNat_eq_of_mod
    rw [Nat.shiftRight_eq_div_pow, hsecond, hfirst, UInt8.toNat_ofNat']
    omega
  rw [← hbyte]
  rfl

/-- The third digit gives the second byte. -/
theorem push_third (bits : UInt32) (out : List UInt8) {v : Nat} (hv : v < 64) :
    ∃ bits', (⟨bits, 4, out⟩ : Sextets).push v =
      ⟨bits', 2, out ++ [UInt8.ofNat ((bits.toNat % 16 * 64 + v) / 4)]⟩ ∧
      bits'.toNat % 4 = v % 4 := by
  have hpush := push_bits bits hv
  refine ⟨bits <<< 6 ||| UInt32.ofNat v, ?_, by omega⟩
  have hbyte : UInt8.ofNat ((bits <<< 6 ||| UInt32.ofNat v).toNat >>> 2) =
      UInt8.ofNat ((bits.toNat % 16 * 64 + v) / 4) := by
    apply ofNat_eq_of_mod
    rw [Nat.shiftRight_eq_div_pow, hpush, UInt8.toNat_ofNat']
    omega
  rw [← hbyte]
  rfl

/-- The fourth digit gives the third byte. -/
theorem push_fourth (bits : UInt32) (out : List UInt8) {v : Nat} (hv : v < 64) :
    ∃ bits', (⟨bits, 2, out⟩ : Sextets).push v =
      ⟨bits', 0, out ++ [UInt8.ofNat (bits.toNat % 4 * 64 + v)]⟩ := by
  have hpush := push_bits bits hv
  refine ⟨bits <<< 6 ||| UInt32.ofNat v, ?_⟩
  have hbyte : UInt8.ofNat ((bits <<< 6 ||| UInt32.ofNat v).toNat >>> 0) =
      UInt8.ofNat (bits.toNat % 4 * 64 + v) := by
    apply ofNat_eq_of_mod
    rw [Nat.shiftRight_zero, hpush, UInt8.toNat_ofNat']
    omega
  rw [← hbyte]
  rfl

/-- The digits of bytes give the bytes back. -/
theorem push_bytes (bytes : List UInt8) (bits : UInt32) (out : List UInt8) :
    (((chunks3 bytes).flatMap sextets).foldl Sextets.push ⟨bits, 0, out⟩).out = out ++ bytes := by
  induction bytes using chunks3.induct generalizing bits out with
  | case1 a b c rest ih =>
    have ha := a.toNat_lt
    have hb := b.toNat_lt
    have hc := c.toNat_lt
    have hn := of_be_three a b c
    have hsextets : sextets [a, b, c] =
        [of_be [0, a, b, c] / 2 ^ 18 % 64, of_be [0, a, b, c] / 2 ^ 12 % 64,
          of_be [0, a, b, c] / 2 ^ 6 % 64, of_be [0, a, b, c] / 2 ^ 0 % 64] := by
      simp only [← sextet_and]
      rfl
    generalize of_be [0, a, b, c] = n at hn hsextets
    obtain ⟨bits₁, h₁, hmod₁⟩ := push_two bits out (v := n / 2 ^ 18 % 64) (w := n / 2 ^ 12 % 64)
      (by omega) (by omega)
    obtain ⟨bits₂, h₂, hmod₂⟩ := push_third bits₁
      (out ++ [UInt8.ofNat ((n / 2 ^ 18 % 64 * 64 + n / 2 ^ 12 % 64) / 16)])
      (v := n / 2 ^ 6 % 64) (by omega)
    obtain ⟨bits₃, h₃⟩ := push_fourth bits₂
      (out ++ [UInt8.ofNat ((n / 2 ^ 18 % 64 * 64 + n / 2 ^ 12 % 64) / 16)] ++
        [UInt8.ofNat ((bits₁.toNat % 16 * 64 + n / 2 ^ 6 % 64) / 4)])
      (v := n / 2 ^ 0 % 64) (by omega)
    rw [chunks3, List.flatMap_cons, List.foldl_append, hsextets]
    simp only [List.foldl_cons, List.foldl_nil]
    rw [h₁, h₂, h₃, ih, ofNat_eq_of_mod (a := a) (by omega), ofNat_eq_of_mod (a := b) (by omega),
      ofNat_eq_of_mod (a := c) (by omega)]
    simp
  | case2 => simp [chunks3]
  | case3 rest hlong hne =>
    match rest, hne, hlong with
    | [a], _, _ =>
      have ha := a.toNat_lt
      have hn := of_be_three a 0 0
      have hsextets : sextets [a] =
          [of_be [0, a, 0, 0] / 2 ^ 18 % 64, of_be [0, a, 0, 0] / 2 ^ 12 % 64] := by
        simp only [← sextet_and]
        rfl
      generalize of_be [0, a, 0, 0] = n at hn hsextets
      rw [UInt8.toNat_zero] at hn
      obtain ⟨bits₁, h₁, -⟩ := push_two bits out (v := n / 2 ^ 18 % 64) (w := n / 2 ^ 12 % 64)
        (by omega) (by omega)
      have hchunks : chunks3 [a] = [[a]] := rfl
      rw [hchunks, List.flatMap_cons, List.flatMap_nil, List.append_nil, hsextets]
      simp only [List.foldl_cons, List.foldl_nil]
      rw [h₁, ofNat_eq_of_mod (a := a) (by omega)]
    | [a, b], _, _ =>
      have ha := a.toNat_lt
      have hb := b.toNat_lt
      have hn := of_be_three a b 0
      have hsextets : sextets [a, b] =
          [of_be [0, a, b, 0] / 2 ^ 18 % 64, of_be [0, a, b, 0] / 2 ^ 12 % 64,
            of_be [0, a, b, 0] / 2 ^ 6 % 64] := by
        simp only [← sextet_and]
        rfl
      generalize of_be [0, a, b, 0] = n at hn hsextets
      rw [UInt8.toNat_zero] at hn
      obtain ⟨bits₁, h₁, hmod₁⟩ := push_two bits out (v := n / 2 ^ 18 % 64)
        (w := n / 2 ^ 12 % 64) (by omega) (by omega)
      obtain ⟨bits₂, h₂, -⟩ := push_third bits₁
        (out ++ [UInt8.ofNat ((n / 2 ^ 18 % 64 * 64 + n / 2 ^ 12 % 64) / 16)])
        (v := n / 2 ^ 6 % 64) (by omega)
      have hchunks : chunks3 [a, b] = [[a, b]] := rfl
      rw [hchunks, List.flatMap_cons, List.flatMap_nil, List.append_nil, hsextets]
      simp only [List.foldl_cons, List.foldl_nil]
      rw [h₁, h₂, ofNat_eq_of_mod (a := a) (by omega), ofNat_eq_of_mod (a := b) (by omega)]
      simp
    | a :: b :: c :: rest, _, hlong => exact absurd rfl (hlong a b c rest)
    | [], hne, _ => exact absurd rfl hne

theorem sextets_lt {chunk : List UInt8} : ∀ v ∈ sextets chunk, v < 64 := by
  intro v hv
  obtain ⟨i, -, rfl⟩ := List.mem_map.mp hv
  rw [sextet_and]
  exact Nat.mod_lt _ (by decide)

/-- The text of bytes is their digits and some padding. -/
theorem quads_eq (bytes : List UInt8) : ∃ padding, (chunks3 bytes).flatMap quad =
    ((chunks3 bytes).flatMap sextets).map digit ++ List.replicate padding '=' := by
  induction bytes using chunks3.induct with
  | case1 a b c rest ih =>
    obtain ⟨padding, ih⟩ := ih
    refine ⟨padding, ?_⟩
    rw [chunks3, List.flatMap_cons, List.flatMap_cons, ih, List.map_append, List.append_assoc]
    rfl
  | case2 => exact ⟨0, rfl⟩
  | case3 rest hlong hne =>
    match rest, hne, hlong with
    | [a], _, _ => exact ⟨2, rfl⟩
    | [a, b], _, _ => exact ⟨1, rfl⟩
    | a :: b :: c :: rest, _, hlong => exact absurd rfl (hlong a b c rest)
    | [], hne, _ => exact absurd rfl hne

theorem trim_padding {digits : List Char} (h : '=' ∉ digits) (padding : Nat) :
    (digits ++ List.replicate padding '=').rdropWhile (· == '=') = digits := by
  induction padding with
  | zero =>
    rw [List.replicate_zero, List.append_nil, List.rdropWhile_eq_self_iff]
    intro hne hlast
    exact h (eq_of_beq hlast ▸ List.getLast_mem hne)
  | succ padding ih =>
    rw [List.replicate_succ', ← List.append_assoc, List.rdropWhile_concat_pos _ _ _ (by simp), ih]

theorem foldlM_sextet {text : List Char} (vs : List Nat) (h : ∀ v ∈ vs, v < 64) (s : Sextets) :
    (utf8.encode (vs.map digit)).foldlM (sextet text) s = .ok (vs.foldl Sextets.push s) := by
  induction vs generalizing s with
  | nil => rfl
  | cons v vs ih =>
    obtain ⟨hv, hvs⟩ := List.forall_mem_cons.mp h
    rw [List.map_cons, utf8.encode_cons, utf8.char_of_lt (alphabet_lt _ (digit_mem hv)),
      List.singleton_append, List.foldlM_cons, sextet_digit hv]
    exact ih hvs _

theorem decode_binary_encode_base64 (bytes : List UInt8) :
    decode_binary (encode_base64 bytes) = some (.ok bytes) := by
  obtain ⟨padding, hquads⟩ := quads_eq bytes
  have hlt : ∀ v ∈ (chunks3 bytes).flatMap sextets, v < 64 := fun v hv => by
    obtain ⟨chunk, -, hv⟩ := List.mem_flatMap.mp hv
    exact sextets_lt v hv
  have hequals : '=' ∉ ((chunks3 bytes).flatMap sextets).map digit := fun hmem => by
    obtain ⟨v, hv, heq⟩ := List.mem_map.mp hmem
    have hdigit := digit_mem (hlt v hv)
    rw [heq, alphabet_eq] at hdigit
    exact absurd hdigit (by decide)
  have hhex : ∀ digits, hex_form ('0' :: 'b' :: digits) = none := fun _ => rfl
  have hform : ∀ digits, base64_form ('0' :: 'b' :: digits) = some digits := fun _ => rfl
  unfold decode_binary encode_base64
  rw [hhex, hform]
  dsimp only
  rw [hquads, trim_padding hequals, foldlM_sextet _ hlt]
  have hbytes := push_bytes bytes 0 []
  rw [List.nil_append] at hbytes
  rw [Except.map, hbytes]

/-! ## The law -/

/-- Bytes are read back from both encodings. A text is judged as it should be, without
a panic and only in the characters of its form, exactly when it is not in hex form or
its pairs of digits are sound. -/
theorem binary_values_round_trip_and_texts_are_judged_exactly_when_their_pairs_are_sound
    (bytes : List UInt8) (text : List Char) :
    (decode_binary (encode_hex bytes) = some (.ok bytes) ∧
      decode_binary (encode_base64 bytes) = some (.ok bytes)) ∧
    (Judged text ↔ Sound text) := by
  refine ⟨⟨decode_binary_encode_hex bytes, decode_binary_encode_base64 bytes⟩, ?_⟩
  cases h : hex_form text with
  | some digits => exact judged_hex_iff h
  | none =>
    refine iff_of_true (judged_of_not_hex h) fun digits hdigits => ?_
    rw [h] at hdigits
    cases hdigits

/-- A plus sign is taken for a digit, and a character of two bytes in the wrong place
stops the program. -/
theorem a_plus_sign_is_a_hex_digit_and_a_character_can_be_cut :
    ¬ ((∀ bytes, decode_binary (encode_hex bytes) = some (.ok bytes) ∧
      decode_binary (encode_base64 bytes) = some (.ok bytes)) ∧ ∀ text, Judged text) ∧
    decode_binary ['0', 'x', '+', 'f'] = some (.ok [15]) ∧ ¬ WellFormed ['0', 'x', '+', 'f'] ∧
    decode_binary ['0', 'x', 'a', 'é', 'b'] = none := by
  have hpanic : decode_binary ['0', 'x', 'a', 'é', 'b'] = none := by decide +kernel
  refine ⟨fun h => ?_, by decide +kernel, fun h => ?_, hpanic⟩
  · obtain ⟨⟨result, hresult⟩, -⟩ := h.2 ['0', 'x', 'a', 'é', 'b']
    rw [hpanic] at hresult
    cases hresult
  · generalize htext : ['0', 'x', '+', 'f'] = text at h
    cases h with
    | hex hx hdigits =>
      cases htext
      exact absurd (hdigits '+' (by simp)) (by decide)
    | base64 hb =>
      injection htext with _ htail
      injection htail with hsecond
      rcases hb with rfl | rfl <;> cases hsecond

end stutools.chap
