-- The functions of `<string.h>` and `<stdlib.h>` on texts: the comparison without letter case in
-- the "C" locale, the tokens between separators, and `long` numbers in decimal, which `atol`
-- reads back. A character of a text is one byte.
import Mathlib.Data.List.Lex
import Stutools.Stdio

open texts stdio

namespace cstring

/-! ## Without letter case -/

/-- `strcasecmp`, of which only the sign matters. -/
def strcasecmp : List Char → List Char → Int
  | [], [] => 0
  | [], _ :: _ => -1
  | _ :: _, [] => 1
  | c :: cs, d :: ds =>
    if c.toLower = d.toLower then strcasecmp cs ds
    else (c.toLower.toNat : Int) - d.toLower.toNat

/-- A text by which texts are told from each other and ordered without letter case. -/
def folded (s : List Char) : List Nat := s.map fun c => c.toLower.toNat

theorem strcasecmp_spec (a b : List Char) :
    (strcasecmp a b = 0 ↔ folded a = folded b) ∧ (0 < strcasecmp a b ↔ folded b < folded a) := by
  induction a generalizing b with
  | nil =>
    cases b with
    | nil => simp [strcasecmp, folded]
    | cons d ds => simp [strcasecmp, folded]
  | cons c cs ih =>
    cases b with
    | nil => simp [strcasecmp, folded]
    | cons d ds =>
      obtain ⟨hzero, hpos⟩ := ih ds
      unfold folded at *
      rw [strcasecmp, List.map_cons, List.map_cons, List.cons.injEq, List.cons_lt_cons_iff]
      by_cases hcd : c.toLower = d.toLower
      · rw [if_pos hcd, hzero, hpos, hcd]
        simp
      · have hne : c.toLower.toNat ≠ d.toLower.toNat := fun h => hcd (Char.toNat_inj.mp h)
        rw [if_neg hcd]
        omega

theorem strcasecmp_eq_zero {a b : List Char} : strcasecmp a b = 0 ↔ folded a = folded b :=
  (strcasecmp_spec a b).1

theorem strcasecmp_pos {a b : List Char} : 0 < strcasecmp a b ↔ folded b < folded a :=
  (strcasecmp_spec a b).2

/-! ## Tokens -/

/-- The tokens that calls of `strtok` give for one separator. -/
def strtok (sep : Char) (text : List Char) : List (List Char) :=
  (text.splitOnP (· == sep)).filter (!·.isEmpty)

theorem strtok_append (sep : Char) (a b : List Char) :
    strtok sep (a ++ sep :: b) = strtok sep a ++ strtok sep b := by
  have hsplit := List.splitOnP_append_cons (p := (· == sep)) a b (beq_self_eq_true sep)
  unfold strtok
  rw [hsplit, List.filter_append]

theorem strtok_single {sep : Char} {w : List Char} (hne : w ≠ []) (h : sep ∉ w) :
    strtok sep w = [w] := by
  have hsep : ∀ c ∈ w, (c == sep) = false := fun c hc => by
    simpa using fun heq : c = sep => h (heq ▸ hc)
  unfold strtok
  rw [List.splitOnP_eq_singleton hsep, List.filter_cons_of_pos (by simpa using hne)]
  rfl

/-- The tokens of words with a separator between each two. -/
theorem strtok_intercalate {sep : Char} {ws : List (List Char)}
    (h : ∀ w ∈ ws, w ≠ [] ∧ sep ∉ w) : strtok sep ([sep].intercalate ws) = ws := by
  induction ws with
  | nil => rfl
  | cons w ws ih =>
    obtain ⟨⟨hne, hsep⟩, hws⟩ := List.forall_mem_cons.mp h
    cases ws with
    | nil => simpa using strtok_single hne hsep
    | cons v ws =>
      rw [List.intercalate_cons_cons, List.append_assoc, List.singleton_append, strtok_append,
        strtok_single hne hsep, ih hws]
      rfl

/-! ## Numbers -/

/-- `%ld` -/
def shown_long (n : Int64) : List Char := signed n.toUInt64.toNat

/-- `atol`, which gives the nearest `long` for a number that is out of range. -/
def atol (text : List Char) : Int64 :=
  let (negative, text) := sign (text.dropWhile isspace)
  let n := number (text.takeWhile Char.isDigit)
  if negative then Int64.ofInt (-(min n (2 ^ 63) : Nat)) else Int64.ofInt (min n (2 ^ 63 - 1) : Nat)

theorem ofInt_of_toNat (n : Int64) : n =
    Int64.ofInt (if n.toUInt64.toNat < 2 ^ 63 then n.toUInt64.toNat else n.toUInt64.toNat - 2 ^ 64) := by
  have hint := BitVec.toInt_eq_toNat_cond n.toBitVec
  have hsame : n.toBitVec.toNat = n.toUInt64.toNat := rfl
  rw [hsame] at hint
  rw [show (if n.toUInt64.toNat < 2 ^ 63 then (n.toUInt64.toNat : Int)
      else n.toUInt64.toNat - 2 ^ 64) = n.toInt from ?_, Int64.ofInt_toInt]
  show _ = n.toBitVec.toInt
  rw [hint]
  split <;> split <;> omega

/-- `atol` reads what `%ld` wrote. -/
theorem atol_shown_long (n : Int64) {rest : List Char}
    (hrest : ∀ c ∈ rest.head?, c.isDigit = false) : atol (shown_long n ++ rest) = n := by
  have hlt : n.toUInt64.toNat < 2 ^ 64 := n.toUInt64.toNat_lt
  have hback := ofInt_of_toNat n
  unfold shown_long signed
  generalize n.toUInt64.toNat = m at hlt hback ⊢
  split
  · rename_i hpos
    have hds := shown_digits m
    have hne := shown_ne_nil m
    obtain ⟨htake, -⟩ := span_append (p := Char.isDigit) hds hrest
    unfold atol
    rw [dropWhile_isspace ((solid_of_digits hds).head hne rest), sign_digits hds hne]
    dsimp only
    rw [htake, number_shown, if_neg Bool.false_ne_true, Nat.min_eq_left (by omega)]
    rw [if_pos hpos] at hback
    exact hback.symm
  · rename_i hneg
    have hds := shown_digits (2 ^ 64 - m)
    obtain ⟨htake, -⟩ := span_append (p := Char.isDigit) hds hrest
    have hminus : ∀ text, sign ('-' :: text) = (true, text) := fun _ => rfl
    have hcast : -((2 ^ 64 - m : Nat) : Int) = (m : Int) - 2 ^ 64 := by omega
    unfold atol
    rw [List.cons_append, dropWhile_isspace (by simp [isspace]), hminus]
    dsimp only
    rw [htake, number_shown, if_pos rfl, Nat.min_eq_left (by omega), hcast]
    rw [if_neg hneg] at hback
    exact hback.symm

end cstring
