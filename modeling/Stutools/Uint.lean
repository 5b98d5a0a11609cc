-- Unsigned arithmetic of a fixed width that refuses what does not fit: an overflow,
-- a difference below zero, a division by zero. What it gives is exact.
import Mathlib.Algebra.Group.Nat.Defs
import Mathlib.Data.List.Basic
import Mathlib.Tactic.Common

namespace uint

variable {w a b : Nat}

def add (w a b : Nat) : Option Nat := if a + b < 2 ^ w then some (a + b) else none

def sub (a b : Nat) : Option Nat := if b ≤ a then some (a - b) else none

def mul (w a b : Nat) : Option Nat := if a * b < 2 ^ w then some (a * b) else none

def div (a b : Nat) : Option Nat := if b = 0 then none else some (a / b)

def rem (a b : Nat) : Option Nat := if b = 0 then none else some (a % b)

/-- Only the shift is checked: the bits shifted out are lost. -/
def shl (w a b : Nat) : Option Nat := if b < w then some ((a <<< b) % 2 ^ w) else none

/-- The logarithm of zero is refused. -/
def ilog2 (a : Nat) : Option Nat := if a = 0 then none else some (Nat.log2 a)

theorem add_eq (h : a + b < 2 ^ w) : add w a b = some (a + b) := if_pos h

theorem sub_eq (h : b ≤ a) : sub a b = some (a - b) := if_pos h

theorem mul_eq (h : a * b < 2 ^ w) : mul w a b = some (a * b) := if_pos h

theorem div_eq (h : 0 < b) : div a b = some (a / b) := if_neg (Nat.ne_of_gt h)

theorem rem_eq (h : 0 < b) : rem a b = some (a % b) := if_neg (Nat.ne_of_gt h)

theorem shl_eq (hb : b < w) (h : a <<< b < 2 ^ w) : shl w a b = some (a <<< b) := by
  rw [shl, if_pos hb, Nat.mod_eq_of_lt h]

theorem ilog2_eq (h : 0 < a) : ilog2 a = some (Nat.log2 a) := if_neg (Nat.ne_of_gt h)

/-- A loop none of whose steps is refused, in every state it meets. -/
theorem foldlM_eq {σ ι : Type*} {g : σ → ι → Option σ} {f : σ → ι → σ} {I : σ → Prop} {is : List ι}
    (hstep : ∀ s, I s → ∀ i ∈ is, g s i = some (f s i) ∧ I (f s i)) {s : σ} (h : I s) :
    is.foldlM g s = some (is.foldl f s) := by
  induction is generalizing s with
  | nil => rfl
  | cons i is ih =>
    obtain ⟨h1, h2⟩ := hstep s h i List.mem_cons_self
    rw [List.foldlM_cons, h1, List.foldl_cons]
    exact ih (fun t ht j hj => hstep t ht j (List.mem_cons_of_mem i hj)) h2

theorem mapM_eq {α β : Type*} {g : α → Option β} {f : α → β} {l : List α}
    (h : ∀ a ∈ l, g a = some (f a)) : l.mapM g = some (l.map f) := by
  induction l with
  | nil => rfl
  | cons a l ih =>
    rw [List.mapM_cons, h a List.mem_cons_self, ih fun b hb => h b (List.mem_cons_of_mem a hb)]
    rfl

end uint
