-- Texts and the numbers in them: a text cut at a separator, decimal digits as a
-- number, the parser of an unsigned number below a bound, and the digits of a number,
-- which it reads back.
import Mathlib.Data.Char
import Mathlib.Data.List.TakeWhile
import Mathlib.Tactic.Linarith

namespace texts

/-! ## Cutting a text -/

/-- `str::split_once`: the text before and after the first character of a kind. -/
def split_once (p : Char → Bool) : List Char → Option (List Char × List Char)
  | [] => none
  | x :: xs => if p x then some ([], xs) else (split_once p xs).map fun q => (x :: q.1, q.2)

theorem split_once_append {p : Char → Bool} {a : List Char} {c : Char} (b : List Char)
    (ha : ∀ x ∈ a, p x = false) (hc : p c) : split_once p (a ++ c :: b) = some (a, b) := by
  induction a with
  | nil => simp [split_once, hc]
  | cons x a ih =>
    obtain ⟨hx, ha⟩ := List.forall_mem_cons.mp ha
    simp [split_once, hx, ih ha]

theorem split_once_none {p : Char → Bool} {a : List Char} (ha : ∀ x ∈ a, p x = false) :
    split_once p a = none := by
  induction a with
  | nil => rfl
  | cons x a ih =>
    obtain ⟨hx, ha⟩ := List.forall_mem_cons.mp ha
    simp [split_once, hx, ih ha]

/-- What a text was cut into. -/
theorem split_once_some {p : Char → Bool} {text a b : List Char}
    (h : split_once p text = some (a, b)) :
    ∃ c, text = a ++ c :: b ∧ p c ∧ ∀ x ∈ a, p x = false := by
  induction text generalizing a b with
  | nil => cases h
  | cons x xs ih =>
    unfold split_once at h
    by_cases hx : p x
    · rw [if_pos hx] at h
      cases h
      exact ⟨x, rfl, hx, by simp⟩
    · rw [if_neg hx] at h
      obtain ⟨⟨a', b'⟩, hrest, heq⟩ := Option.map_eq_some_iff.mp h
      cases heq
      obtain ⟨c, rfl, hc, ha⟩ := ih hrest
      exact ⟨c, rfl, hc, List.forall_mem_cons.mpr ⟨by simpa using hx, ha⟩⟩

/-! ## Lines and words -/

/-- `BufRead::lines`, of bytes or of characters: a line that ends with a newline may end with a
carriage return too, and a last one needs no newline. -/
def lines {α : Type*} [DecidableEq α] (newline carriage_return : α) (text : List α) :
    List (List α) :=
  let pieces := text.splitOn newline
  (pieces.dropLast.map fun l => if l.getLast? = some carriage_return then l.dropLast else l) ++
    pieces.getLast?.toList.filter (· ≠ [])

theorem lines_append {α : Type*} [DecidableEq α] {newline carriage_return : α} {l : List α}
    (rest : List α) (hnewline : newline ∉ l) (hreturn : l.getLast? ≠ some carriage_return) :
    lines newline carriage_return (l ++ newline :: rest) =
      l :: lines newline carriage_return rest := by
  have hpieces : rest.splitOn newline ≠ [] := List.splitOn_ne_nil newline rest
  unfold lines
  rw [List.splitOn_append_cons_self_of_not_mem hnewline]
  dsimp only
  rw [List.dropLast_cons_of_ne_nil hpieces, List.map_cons, if_neg hreturn, List.cons_append,
    List.getLast?_cons_of_ne_nil hpieces]

/-- The White_Space property of Unicode. -/
def is_whitespace (c : Char) : Bool :=
  let n := c.toNat
  (9 ≤ n && n ≤ 13) || n == 0x20 || n == 0x85 || n == 0xA0 || n == 0x1680 ||
    (0x2000 ≤ n && n ≤ 0x200A) || n == 0x2028 || n == 0x2029 || n == 0x202F || n == 0x205F ||
    n == 0x3000

/-- `str::split_whitespace`. -/
def words (text : List Char) : List (List Char) :=
  (text.splitOnP is_whitespace).filter (!·.isEmpty)

theorem words_append {a : List Char} {c : Char} (b : List Char) (hne : a ≠ [])
    (ha : ∀ x ∈ a, is_whitespace x = false) (hc : is_whitespace c) :
    words (a ++ c :: b) = a :: words b := by
  unfold words
  rw [List.splitOnP_append_cons_of_forall_mem ha c hc b, List.filter_cons_of_pos (by simpa using hne)]

theorem words_single {a : List Char} (hne : a ≠ []) (ha : ∀ x ∈ a, is_whitespace x = false) :
    words a = [a] := by
  unfold words
  rw [List.splitOnP_eq_singleton ha, List.filter_cons_of_pos (by simpa using hne)]
  rfl

/-! ## Numbers -/

/-- The text is decimal digits. -/
def Digits (ds : List Char) : Prop := ∀ c ∈ ds, c.isDigit

instance (ds : List Char) : Decidable (Digits ds) := List.decidableBAll _ ds

/-- The number of some decimal digits. -/
def number (ds : List Char) : Nat := Nat.ofDigitChars 10 ds 0

/-- `str::parse` of an unsigned type whose values are below the bound: decimal digits
after an optional plus sign. -/
def parse (bound : Nat) (text : List Char) : Option Nat :=
  let digits := if text.head? = some '+' then text.tail else text
  if digits ≠ [] ∧ Digits digits ∧ number digits < bound then some (number digits) else none

theorem parse_digits {bound : Nat} {ds : List Char} (hne : ds ≠ []) (hds : Digits ds) :
    parse bound ds = if number ds < bound then some (number ds) else none := by
  have hplus : ds.head? ≠ some '+' := by
    intro hhead
    have := hds '+' (List.mem_of_mem_head? hhead)
    exact absurd this (by decide)
  unfold parse
  simp [hplus, hne, hds]

theorem parse_some {bound n : Nat} {text : List Char} (h : parse bound text = some n)
    (hplus : '+' ∉ text) : text ≠ [] ∧ Digits text ∧ number text = n ∧ n < bound := by
  have hhead : text.head? ≠ some '+' := fun hhead => hplus (List.mem_of_mem_head? hhead)
  unfold parse at h
  simp only [hhead, if_false] at h
  split at h
  · rename_i hall
    cases h
    exact ⟨hall.1, hall.2.1, rfl, hall.2.2⟩
  · cases h

/-- The decimal digits of a number, as it is displayed. -/
def shown (n : Nat) : List Char := Nat.toDigits 10 n

theorem shown_ne_nil (n : Nat) : shown n ≠ [] := Nat.toDigits_ne_nil

theorem shown_digits (n : Nat) : Digits (shown n) :=
  fun _ hc => Nat.isDigit_of_mem_toDigits (by decide) (by decide) hc

@[simp] theorem number_shown (n : Nat) : number (shown n) = n := Nat.ofDigitChars_ten_toDigits

end texts
