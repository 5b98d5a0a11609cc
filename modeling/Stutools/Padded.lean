-- Numbers with leading zeros, as `format!` writes them with a width: their digits, that
-- texts of one width are in the order of their numbers, and numbers in hexadecimal.
import Mathlib.Data.List.Lex
import Mathlib.Data.Nat.Digits.Defs
import Stutools.Texts

namespace texts

/-- `{:0w}`: the digits of a number, with zeros before them up to the width `w`. -/
def padded (w n : Nat) : List Char := (shown n).leftpad w '0'

theorem padded_digits (w n : Nat) : Digits (padded w n) := by
  intro c hc
  rcases List.mem_append.mp hc with h | h
  · rw [List.eq_of_mem_replicate h]
    rfl
  · exact shown_digits n c h

@[simp] theorem number_padded (w n : Nat) : number (padded w n) = n := by
  unfold padded List.leftpad number
  rw [Nat.ofDigitChars_append, Nat.ofDigitChars_replicate_zero, Nat.mul_zero]
  exact number_shown n

theorem padded_length {w n : Nat} (hpos : 0 < w) (h : n < 10 ^ w) :
    (padded w n).length = w := by
  have hle : (shown n).length ≤ w := Nat.toDigits_length 10 n w hpos h
  unfold padded
  rw [List.length_leftpad]
  exact Nat.max_eq_left hle

theorem padded_ne_nil (w n : Nat) : padded w n ≠ [] :=
  List.append_ne_nil_of_right_ne_nil _ (shown_ne_nil n)

/-! ## The order -/

theorem number_cons (c : Char) (ds : List Char) :
    number (c :: ds) = 10 ^ ds.length * (c.toNat - '0'.toNat) + number ds := by
  unfold number
  rw [Nat.ofDigitChars_cons, Nat.ofDigitChars_eq_ofDigitChars_zero, Nat.mul_zero, Nat.zero_add]

theorem digit_lt {c : Char} (h : c.isDigit) : c.toNat - '0'.toNat < 10 := by
  have := Char.isDigit_iff_toNat.mp h
  simp only [Char.reduceToNat] at *
  omega

theorem number_lt_pow {ds : List Char} (h : Digits ds) : number ds < 10 ^ ds.length := by
  induction ds with
  | nil => decide
  | cons c ds ih =>
    obtain ⟨hc, hds⟩ := List.forall_mem_cons.mp h
    have hc := digit_lt hc
    have hds := ih hds
    rw [number_cons, List.length_cons, Nat.pow_succ]
    have := Nat.mul_le_mul_left (10 ^ ds.length) (Nat.le_of_lt_succ hc)
    omega

/-- Digits of one width are in the order of their numbers. -/
theorem lt_iff_number_lt {a b : List Char} (ha : Digits a) (hb : Digits b)
    (hlen : a.length = b.length) : a < b ↔ number a < number b := by
  induction a generalizing b with
  | nil =>
    rw [List.eq_nil_of_length_eq_zero hlen.symm]
    simp
  | cons c a ih =>
    cases b with
    | nil => cases hlen
    | cons d b =>
      obtain ⟨hc, ha⟩ := List.forall_mem_cons.mp ha
      obtain ⟨hd, hb⟩ := List.forall_mem_cons.mp hb
      have hlen : a.length = b.length := Nat.succ.inj hlen
      have hlta := number_lt_pow ha
      have hltb := number_lt_pow hb
      have hc0 := Char.isDigit_iff_toNat.mp hc
      have hd0 := Char.isDigit_iff_toNat.mp hd
      rw [List.cons_lt_cons_iff, ih ha hb hlen, number_cons, number_cons]
      rw [hlen] at hlta ⊢
      have hcd : c < d ↔ c.toNat < d.toNat := Iff.rfl
      rw [hcd]
      rcases Nat.lt_trichotomy c.toNat d.toNat with hlt | heq | hgt
      · have := Nat.mul_le_mul_left (10 ^ b.length)
          (show c.toNat - '0'.toNat + 1 ≤ d.toNat - '0'.toNat by simp at *; omega)
        rw [Nat.mul_succ] at this
        exact ⟨fun _ => by omega, fun _ => .inl hlt⟩
      · have hchar : c = d := Char.toNat_inj.mp heq
        rw [hchar]
        simp
      · have := Nat.mul_le_mul_left (10 ^ b.length)
          (show d.toNat - '0'.toNat + 1 ≤ c.toNat - '0'.toNat by simp at *; omega)
        rw [Nat.mul_succ] at this
        have hne : c ≠ d := fun h => hgt.ne (congrArg Char.toNat h.symm)
        exact ⟨fun h => by
          rcases h with h | ⟨h, -⟩
          · omega
          · exact absurd h hne, fun h => by omega⟩

/-- Digits are those of their number, with the zeros that their width asks for. -/
theorem padded_number {ds : List Char} (h : Digits ds) (hne : ds ≠ []) :
    padded ds.length (number ds) = ds := by
  have hlen := padded_length (List.length_pos_iff.mpr hne) (number_lt_pow h)
  have hpad := padded_digits ds.length (number ds)
  rcases lt_trichotomy (padded ds.length (number ds)) ds with hlt | heq | hgt
  · have := (lt_iff_number_lt hpad h hlen).mp hlt
    rw [number_padded] at this
    exact absurd this (Nat.lt_irrefl _)
  · exact heq
  · have := (lt_iff_number_lt h hpad hlen.symm).mp hgt
    rw [number_padded] at this
    exact absurd this (Nat.lt_irrefl _)

theorem padded_lt_iff {w m n : Nat} (hpos : 0 < w) (hm : m < 10 ^ w)
    (hn : n < 10 ^ w) : padded w m < padded w n ↔ m < n := by
  rw [lt_iff_number_lt (padded_digits _ _) (padded_digits _ _)
    ((padded_length hpos hm).trans (padded_length hpos hn).symm), number_padded, number_padded]

theorem padded_inj {w m n : Nat} (h : padded w m = padded w n) : m = n := by
  have := congrArg number h
  rwa [number_padded, number_padded] at this

/-- Texts with beginnings of one length are compared by these first. -/
theorem append_lt_append_iff {a b c d : List Char} (h : a.length = b.length) :
    a ++ c < b ++ d ↔ a < b ∨ a = b ∧ c < d := by
  induction a generalizing b with
  | nil =>
    rw [List.eq_nil_of_length_eq_zero h.symm]
    simp
  | cons x a ih =>
    cases b with
    | nil => cases h
    | cons y b =>
      rw [List.cons_append, List.cons_append, List.cons_lt_cons_iff, List.cons_lt_cons_iff,
        ih (Nat.succ.inj h), List.cons.injEq]
      tauto

/-! ## Hexadecimal -/

/-- `{:0wx}` -/
def padded_hex (w n : Nat) : List Char := (Nat.toDigits 16 n).leftpad w '0'

/-- `char::to_digit(16)` -/
def hex_digit (c : Char) : Option Nat :=
  if c.isDigit then some (c.toNat - '0'.toNat)
  else if 'a' ≤ c ∧ c ≤ 'f' then some (c.toNat - 'a'.toNat + 10)
  else if 'A' ≤ c ∧ c ≤ 'F' then some (c.toNat - 'A'.toNat + 10)
  else none

/-- The number of hexadecimal digits after those of `n`. -/
def hex_number : List Char → Nat → Option Nat
  | [], n => some n
  | c :: cs, n => (hex_digit c).bind fun d => hex_number cs (16 * n + d)

/-- `from_str_radix(text, 16)` of an unsigned type whose values are below the bound. -/
def from_str_radix (bound : Nat) (text : List Char) : Option Nat :=
  let digits := if text.head? = some '+' then text.tail else text
  if digits = [] then none else (hex_number digits 0).filter (· < bound)

theorem hex_digit_digitChar {d : Nat} (h : d < 16) : hex_digit d.digitChar = some d := by
  have hall : ∀ d < 16, hex_digit d.digitChar = some d := by decide
  exact hall d h

/-- A hexadecimal digit is ASCII, and no dot. -/
theorem of_hex_digit {c : Char} {d : Nat} (h : hex_digit c = some d) : c.toNat < 128 ∧ c ≠ '.' := by
  unfold hex_digit at h
  split_ifs at h with h0 ha hA
  · have := Char.isDigit_iff_toNat.mp h0
    simp only [Char.reduceToNat] at this
    exact ⟨by omega, by rintro rfl; revert h0; decide⟩
  · exact ⟨lt_of_le_of_lt (show c.toNat ≤ 102 from ha.2) (by decide), by
      rintro rfl
      exact absurd ha (by decide)⟩
  · exact ⟨lt_of_le_of_lt (show c.toNat ≤ 70 from hA.2) (by decide), by
      rintro rfl
      exact absurd hA (by decide)⟩

theorem hex_number_append (a b : List Char) (n : Nat) :
    hex_number (a ++ b) n = (hex_number a n).bind (hex_number b) := by
  induction a generalizing n with
  | nil => rfl
  | cons c a ih =>
    rw [List.cons_append, hex_number, hex_number]
    cases hex_digit c with
    | none => rfl
    | some d => exact ih _

theorem of_hex_number {cs : List Char} {n m : Nat} (h : hex_number cs n = some m) :
    ∀ c ∈ cs, c.toNat < 128 ∧ c ≠ '.' := by
  induction cs generalizing n with
  | nil => simp
  | cons c cs ih =>
    obtain ⟨d, hd, hrest⟩ := Option.bind_eq_some_iff.mp h
    exact List.forall_mem_cons.mpr ⟨of_hex_digit hd, ih hrest⟩

theorem hex_number_toDigits (n : Nat) : hex_number (Nat.toDigits 16 n) 0 = some n := by
  induction n using Nat.strong_induction_on with
  | _ n ih =>
    rw [Nat.toDigits_eq_if (by decide)]
    split
    · rename_i hlt
      simp [hex_number, hex_digit_digitChar hlt]
    · rename_i hge
      rw [hex_number_append, ih _ (Nat.div_lt_self (by omega) (by decide)), Option.bind_some]
      simp [hex_number, hex_digit_digitChar (Nat.mod_lt n (show 0 < 16 by decide)),
        Nat.div_add_mod]

theorem hex_number_padded (w n : Nat) : hex_number (padded_hex w n) 0 = some n := by
  have hzeros : ∀ k, hex_number (List.replicate k '0') 0 = some 0 := by
    intro k
    induction k with
    | zero => rfl
    | succ k ih =>
      rw [List.replicate_succ, hex_number]
      exact ih
  unfold padded_hex List.leftpad
  rw [hex_number_append, hzeros, Option.bind_some, hex_number_toDigits]

theorem padded_hex_length {w n : Nat} (hpos : 0 < w) (h : n < 16 ^ w) :
    (padded_hex w n).length = w := by
  have hle : (Nat.toDigits 16 n).length ≤ w := Nat.toDigits_length 16 n w hpos h
  unfold padded_hex
  rw [List.length_leftpad]
  exact Nat.max_eq_left hle

theorem from_str_radix_padded {bound w n : Nat} (h : n < bound) :
    from_str_radix bound (padded_hex w n) = some n := by
  have hdigits := hex_number_padded w n
  have hne : padded_hex w n ≠ [] :=
    List.append_ne_nil_of_right_ne_nil _ Nat.toDigits_ne_nil
  have hplus : (padded_hex w n).head? ≠ some '+' := by
    intro hhead
    obtain ⟨cs, hcs⟩ := List.head?_eq_some_iff.mp hhead
    rw [hcs, hex_number] at hdigits
    exact absurd hdigits (by simp [show hex_digit '+' = none by decide])
  unfold from_str_radix
  dsimp only
  rw [if_neg hplus, if_neg hne, hdigits]
  simp [h]

/-- What is read in hexadecimal is ASCII, and has no dot. -/
theorem of_from_str_radix {bound n : Nat} {text : List Char}
    (h : from_str_radix bound text = some n) : ∀ c ∈ text, c.toNat < 128 ∧ c ≠ '.' := by
  unfold from_str_radix at h
  dsimp only at h
  split_ifs at h with hplus hne hne
  · obtain ⟨cs, rfl⟩ := List.head?_eq_some_iff.mp hplus
    exact List.forall_mem_cons.mpr
      ⟨by decide, of_hex_number (Option.filter_eq_some_iff.mp h).1⟩
  · exact of_hex_number (Option.filter_eq_some_iff.mp h).1

end texts
