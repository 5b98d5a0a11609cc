-- Wire formats as byte lists: fixed-width numbers in both byte orders, the
-- slice of a buffer, the store into a buffer, and the exact read from the
-- front of a stream. A field is what was last stored where it is read.
import Mathlib.Data.List.Basic
import Mathlib.Tactic.Ring

namespace bytes

/-! ## Numbers -/

/-- The `w` bytes of a number, least significant first; higher bits are dropped. -/
def le : Nat → Nat → List UInt8
  | 0, _ => []
  | w + 1, n => UInt8.ofNat n :: le w (n / 256)

def of_le : List UInt8 → Nat
  | [] => 0
  | b :: bs => b.toNat + 256 * of_le bs

/-- The `w` bytes of a number, most significant first. -/
def be (w n : Nat) : List UInt8 := (le w n).reverse

def of_be (bs : List UInt8) : Nat := of_le bs.reverse

@[simp] theorem le_length (w n : Nat) : (le w n).length = w := by
  induction w generalizing n with
  | zero => rfl
  | succ w ih => simp [le, ih]

@[simp] theorem be_length (w n : Nat) : (be w n).length = w := by simp [be]

theorem of_le_le (w n : Nat) : of_le (le w n) = n % 256 ^ w := by
  induction w generalizing n with
  | zero => simp [le, of_le, Nat.mod_one]
  | succ w ih =>
    have hb : (UInt8.ofNat n).toNat = n % 256 := by simp
    rw [le, of_le, ih, hb, pow_succ', Nat.mod_mul]

theorem of_be_be (w n : Nat) : of_be (be w n) = n % 256 ^ w := by
  simp [of_be, be, of_le_le]

theorem of_le_lt (bs : List UInt8) : of_le bs < 256 ^ bs.length := by
  induction bs with
  | nil => simp [of_le]
  | cons b bs ih =>
    have hb : b.toNat < 256 := b.toNat_lt
    rw [of_le, List.length_cons, pow_succ']
    omega

theorem of_be_lt (bs : List UInt8) : of_be bs < 256 ^ bs.length := by
  simpa [of_be] using of_le_lt bs.reverse

theorem of_le_le_of_lt {w n : Nat} (h : n < 256 ^ w) : of_le (le w n) = n := by
  rw [of_le_le, Nat.mod_eq_of_lt h]

theorem of_be_be_of_lt {w n : Nat} (h : n < 256 ^ w) : of_be (be w n) = n := by
  rw [of_be_be, Nat.mod_eq_of_lt h]

theorem of_le_append (a b : List UInt8) : of_le (a ++ b) = of_le a + 256 ^ a.length * of_le b := by
  induction a with
  | nil => simp [of_le]
  | cons x a ih =>
    rw [List.cons_append, of_le, ih, of_le, List.length_cons, pow_succ']
    ring

/-! ## Fields of a buffer -/

/-- The `n` bytes from `i` on. -/
def slice (b : List UInt8) (i n : Nat) : List UInt8 := (b.drop i).take n

/-- The buffer after `v` is stored from `i` on. -/
def patch (b : List UInt8) (i : Nat) (v : List UInt8) : List UInt8 :=
  b.take i ++ v ++ b.drop (i + v.length)

/-- `Vec::resize` with zero bytes. -/
def resize (b : List UInt8) (n : Nat) : List UInt8 := b.take n ++ List.replicate (n - b.length) 0

@[simp] theorem resize_length (b : List UInt8) (n : Nat) : (resize b n).length = n := by
  simp [resize]
  omega

theorem slice_length {b : List UInt8} {i n : Nat} (h : i + n ≤ b.length) :
    (slice b i n).length = n := by
  simp [slice]
  omega

theorem slice_middle {front v rest : List UInt8} {i n : Nat} (hi : front.length = i)
    (hn : v.length = n) : slice (front ++ v ++ rest) i n = v := by
  subst hi hn
  simp [slice]

theorem slice_slice (d : List UInt8) {i n j m : Nat} (h : j + m ≤ n) :
    slice (slice d i n) j m = slice d (i + j) m := by
  unfold slice
  rw [List.drop_take, List.take_take, List.drop_drop]
  congr 1
  omega

theorem patch_length {b v : List UInt8} {i : Nat} (h : i + v.length ≤ b.length) :
    (patch b i v).length = b.length := by
  simp [patch]
  omega

theorem slice_patch_self {b v : List UInt8} {i : Nat} (h : i ≤ b.length) :
    slice (patch b i v) i v.length = v := by
  have hi : (b.take i).length = i := by simpa using h
  unfold slice patch
  rw [List.append_assoc, List.drop_append_of_le_length (by omega), List.drop_eq_nil_of_le (by omega)]
  simp

/-- A field before the one stored keeps its bytes. -/
theorem slice_patch_left {b v : List UInt8} {i j n : Nat} (hj : j + n ≤ i) (h : i ≤ b.length) :
    slice (patch b i v) j n = slice b j n := by
  have hi : (b.take i).length = i := by simpa using h
  unfold slice patch
  rw [List.append_assoc, List.drop_append_of_le_length (by omega),
    List.take_append_of_le_length (by simp; omega), List.drop_take, List.take_take]
  congr 1
  omega

/-- A field after the one stored keeps its bytes. -/
theorem slice_patch_right {b v : List UInt8} {i j n : Nat} (hj : i + v.length ≤ j)
    (h : i ≤ b.length) : slice (patch b i v) j n = slice b j n := by
  have hi : (b.take i ++ v).length = i + v.length := by simp; omega
  unfold slice patch
  rw [List.drop_append, List.drop_eq_nil_of_le (by omega), List.nil_append, List.drop_drop, hi]
  congr 2
  omega

/-- A field inside the one stored has its bytes. -/
theorem slice_patch_inside {b v : List UInt8} {i j n : Nat} (hj : j + n ≤ v.length)
    (h : i ≤ b.length) : slice (patch b i v) (i + j) n = slice v j n := by
  have hi : (b.take i).length = i := by simpa using h
  unfold slice patch
  rw [List.append_assoc, List.drop_append, List.drop_eq_nil_of_le (by omega), hi, List.nil_append,
    Nat.add_sub_cancel_left, List.drop_append_of_le_length (by omega),
    List.take_append_of_le_length (by simp; omega)]

/-! ## Blocks of a fixed length -/

/-- A header or a queue entry of exactly `n` bytes. -/
def Block (n : Nat) := { b : List UInt8 // b.length = n }

namespace Block

variable {n : Nat}

instance : DecidableEq (Block n) := inferInstanceAs (DecidableEq { b : List UInt8 // b.length = n })

def zero (n : Nat) : Block n := ⟨List.replicate n 0, by simp⟩

/-- Stores bytes at an offset of the block. -/
def put (b : Block n) (i : Nat) (v : List UInt8) (h : i + v.length ≤ n) : Block n :=
  ⟨patch b.1 i v, by rw [patch_length (by rw [b.2]; exact h), b.2]⟩

/-- The `m` bytes at an offset of the block. -/
def field (b : Block n) (i m : Nat) : List UInt8 := slice b.1 i m

theorem field_put_self (b : Block n) {i m : Nat} {v : List UInt8} (h : i + v.length ≤ n)
    (hm : v.length = m) : (b.put i v h).field i m = v := by
  subst hm
  exact slice_patch_self (by rw [b.2]; omega)

theorem field_put_left (b : Block n) {i j m : Nat} {v : List UInt8} (h : i + v.length ≤ n)
    (hj : j + m ≤ i) : (b.put i v h).field j m = b.field j m :=
  slice_patch_left hj (by rw [b.2]; omega)

theorem field_put_right (b : Block n) {i j m : Nat} {v : List UInt8} (h : i + v.length ≤ n)
    (hj : i + v.length ≤ j) : (b.put i v h).field j m = b.field j m :=
  slice_patch_right hj (by rw [b.2]; omega)

theorem field_put_inside (b : Block n) {i j k m : Nat} {v : List UInt8} (h : i + v.length ≤ n)
    (hk : k = i + j) (hj : j + m ≤ v.length) : (b.put i v h).field k m = slice v j m := by
  subst hk
  exact slice_patch_inside hj (by rw [b.2]; omega)

end Block

/-! ## Reading a stream -/

/-- `read_exact`: the next `n` bytes and what follows them, if there are that many. -/
def read_exact (n : Nat) (s : List UInt8) : Option (List UInt8 × List UInt8) :=
  if n ≤ s.length then some (s.take n, s.drop n) else none

theorem read_exact_append {n : Nat} {v : List UInt8} (rest : List UInt8) (h : v.length = n) :
    read_exact n (v ++ rest) = some (v, rest) := by
  subst h
  simp [read_exact]

theorem read_exact_some {n : Nat} {s v rest : List UInt8}
    (h : read_exact n s = some (v, rest)) : s = v ++ rest ∧ v.length = n := by
  unfold read_exact at h
  split at h
  · rename_i hn
    obtain ⟨rfl, rfl⟩ := Prod.mk.inj (Option.some.inj h)
    exact ⟨(List.take_append_drop n s).symm, by simpa using hn⟩
  · cases h

/-- A computation that succeeds goes through each of its steps. -/
theorem except_bind_ok {ε α β : Type} {x : Except ε α} {f : α → Except ε β} {b : β} :
    (x >>= f) = .ok b ↔ ∃ a, x = .ok a ∧ f a = .ok b := by
  cases x with
  | error e => simp [bind, Except.bind]
  | ok a => simp [bind, Except.bind]

/-! ## Reading frame after frame -/

section read_many

variable {α β ε : Type}

/-- Reads `n` frames one after the other, each into what the last one left. -/
def read_many (read : α → List UInt8 → Except ε (α × List UInt8)) :
    Nat → α → List UInt8 → Except ε (List α × List UInt8)
  | 0, _, s => .ok ([], s)
  | n + 1, a, s => do
    let (b, s) ← read a s
    let (bs, s) ← read_many read n b s
    return (b :: bs, s)

/-- A reader that takes each frame off the front of a stream takes a whole list
of them, and leaves what follows. -/
theorem read_many_flatten {read : α → List UInt8 → Except ε (α × List UInt8)}
    {enc : β → List UInt8} {got : β → α} {xs : List β}
    (h : ∀ x ∈ xs, ∀ a rest, read a (enc x ++ rest) = .ok (got x, rest)) (a : α)
    (rest : List UInt8) :
    read_many read xs.length a ((xs.map enc).flatten ++ rest) = .ok (xs.map got, rest) := by
  induction xs generalizing a with
  | nil => rfl
  | cons x xs ih =>
    have hx := h x (by simp) a ((xs.map enc).flatten ++ rest)
    have hxs := ih (fun y hy => h y (by simp [hy])) (got x)
    simp only [List.length_cons, List.map_cons, List.flatten_cons, List.append_assoc, read_many]
    rw [hx]
    simp only [bind, Except.bind]
    rw [hxs]
    rfl

end read_many

end bytes
