-- One I/O request, and the questions the engine and the pool ask about two
-- of them: do they move the same bytes, and may they be in flight together.
import Stutools.Memory

open memory

namespace stutools

/-- `io::Request`. Offsets and lengths are exact: the range checks keep
`offset + len` within 64 bits. -/
structure Request where
  offset : Nat
  len : Nat
  write : Bool
  verify : Bool
  seed : UInt16
  /-- The backend's own mark: 0 free, 1 prepared, 2 owned by the kernel. -/
  state : UInt8
deriving DecidableEq, Inhabited

/-- `Request::default()`. -/
def Request.default : Request :=
  { offset := 0, len := 0, write := false, verify := false, seed := 0, state := 0 }

/-- What a stream's source offers when a slot is free. -/
inductive Next where
  | request (r : Request)
  | wait
  | done
deriving DecidableEq

/-- The read-back a verified write is owed: the same extent, read and checked. -/
def read_back_of (write : Request) : Request := { write with write := false, verify := true }

/-- A read that checks what an earlier write left. -/
def is_read_back (r : Request) : Bool := r.verify && !r.write

/-- Whether two requests move the same bytes the same way. -/
def same_io (a b : Request) : Bool :=
  a.offset == b.offset && a.len == b.len && a.write == b.write && a.verify == b.verify

/-- Whether two requests may not be in flight together: they overlap and at
least one writes. -/
def conflict (a b : Request) : Bool :=
  (a.write || b.write) && decide (a.offset < b.offset + b.len) && decide (b.offset < a.offset + a.len)

/-! ## What the questions depend on -/

/-- What `same_io` compares. -/
def Request.io (r : Request) : Nat × Nat × Bool × Bool := (r.offset, r.len, r.write, r.verify)

/-- The extent and the seed of a request: a read-back keeps those of its write. -/
def Request.block (r : Request) : Nat × Nat × UInt16 := (r.offset, r.len, r.seed)

theorem same_io_iff (a b : Request) : same_io a b = true ↔ a.io = b.io := by
  simp [same_io, Request.io, and_assoc]

theorem conflict_iff (a b : Request) :
    conflict a b = true ↔ (a.write = true ∨ b.write = true) ∧ Overlap a.offset a.len b.offset b.len := by
  simp [conflict, Overlap, and_assoc]

theorem conflict_comm (a b : Request) : conflict a b = conflict b a := by
  rw [Bool.eq_iff_iff, conflict_iff, conflict_iff, overlap_comm, or_comm]

theorem conflict_congr {a a' b b' : Request} (ha : a.io = a'.io) (hb : b.io = b'.io) :
    conflict a b = conflict a' b' := by
  simp only [Request.io, Prod.mk.injEq] at ha hb
  simp [conflict, ha, hb]

/-- Two reads never conflict. -/
theorem conflict_reads {a b : Request} (ha : a.write = false) (hb : b.write = false) :
    conflict a b = false := by
  simp [conflict, ha, hb]

/-- A write that conflicts with nothing overlaps nothing. -/
theorem not_overlap_of_write {w r : Request} (hw : w.write = true) (h : conflict w r = false) :
    ¬ Overlap w.offset w.len r.offset r.len := by
  intro ho
  have hc := (conflict_iff w r).mpr ⟨Or.inl hw, ho⟩
  rw [h] at hc
  cases hc

/-- What does not conflict with a write does not conflict with its read-back. -/
theorem conflict_read_back_of {w r : Request} (hw : w.write = true) (h : conflict w r = false) :
    conflict (read_back_of w) r = false := by
  rw [Bool.eq_false_iff]
  intro hc
  exact not_overlap_of_write hw h ((conflict_iff _ _).mp hc).2

@[simp] theorem is_read_back_read_back_of (w : Request) : is_read_back (read_back_of w) = true := rfl

@[simp] theorem block_read_back_of (w : Request) : (read_back_of w).block = w.block := rfl

theorem is_read_back_iff (r : Request) :
    is_read_back r = true ↔ r.verify = true ∧ r.write = false := by
  simp [is_read_back]

theorem not_read_back_of_write {r : Request} (h : r.write = true) : is_read_back r = false := by
  simp [is_read_back, h]

end stutools
