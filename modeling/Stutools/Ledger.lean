-- Tickets: numbered as they are taken, accepted by someone who works on them, and
-- settled with an outcome. A ledger is sound if every ticket is at one place at a time.
import Mathlib.Data.List.Perm.Basic
import Mathlib.Data.List.Nodup
import Mathlib.Data.List.Range

namespace ledger

/-- The tickets taken, with what each asks for; those accepted, by number; and the
outcomes, in the order they came. -/
structure Ledger (ρ ο : Type*) where
  taken : List ρ
  accepted : List Nat
  results : List (Nat × ο)

variable {ρ ο : Type*}

namespace Ledger

def empty : Ledger ρ ο := ⟨[], [], []⟩

/-- Takes a ticket. Its number is the number of those before it. -/
def take (l : Ledger ρ ο) (r : ρ) : Ledger ρ ο := { l with taken := l.taken ++ [r] }

def accept (l : Ledger ρ ο) (ids : List Nat) : Ledger ρ ο :=
  { l with accepted := l.accepted ++ ids }

def settle (l : Ledger ρ ο) (id : Nat) (o : ο) : Ledger ρ ο :=
  { l with results := l.results ++ [(id, o)] }

/-- The tickets whose outcome has come. -/
def settled (l : Ledger ρ ο) : List Nat := l.results.map Prod.fst

@[simp] theorem settled_settle (l : Ledger ρ ο) (id : Nat) (o : ο) :
    (l.settle id o).settled = l.settled ++ [id] := by
  simp [settled, settle]

end Ledger

/-- Of the tickets taken some wait and the others were accepted, each once; of those some
are worked on and the others are settled, each once. -/
structure Sound (l : Ledger ρ ο) (waiting working : List Nat) : Prop where
  taken : (waiting ++ l.accepted).Perm (List.range l.taken.length)
  accepted : (working ++ l.settled).Perm l.accepted

namespace Sound

variable {l : Ledger ρ ο} {waiting working : List Nat}

theorem empty : Sound (Ledger.empty : Ledger ρ ο) [] [] := ⟨List.Perm.refl _, List.Perm.refl _⟩

theorem perm (h : Sound l waiting working) {waiting' working' : List Nat}
    (h1 : waiting'.Perm waiting) (h2 : working'.Perm working) : Sound l waiting' working' :=
  ⟨(h1.append_right _).trans h.taken, (h2.append_right _).trans h.accepted⟩

theorem take (h : Sound l waiting working) (r : ρ) :
    Sound (l.take r) (l.taken.length :: waiting) working := by
  refine ⟨?_, h.accepted⟩
  unfold Ledger.take
  rw [List.length_append, List.length_singleton, List.range_succ, List.cons_append]
  exact (h.taken.cons _).trans (List.perm_append_singleton _ _).symm

theorem accept {ids : List Nat} (h : Sound l (ids ++ waiting) working) :
    Sound (l.accept ids) waiting (working ++ ids) := by
  refine ⟨?_, ?_⟩
  · refine List.Perm.trans ?_ h.taken
    unfold Ledger.accept
    rw [← List.append_assoc, List.append_assoc ids]
    exact List.perm_append_comm
  · have hswap : (working ++ ids ++ l.settled).Perm (working ++ l.settled ++ ids) := by
      rw [List.append_assoc, List.append_assoc]
      exact List.perm_append_comm.append_left working
    exact hswap.trans (h.accepted.append_right ids)

theorem settle {id : Nat} (h : Sound l waiting (id :: working)) (o : ο) :
    Sound (l.settle id o) waiting working := by
  refine ⟨h.taken, ?_⟩
  rw [Ledger.settled_settle, ← List.append_assoc]
  exact List.perm_append_comm.trans h.accepted

theorem waiting_nodup (h : Sound l waiting working) : (waiting ++ l.accepted).Nodup :=
  h.taken.nodup_iff.mpr List.nodup_range

theorem accepted_nodup (h : Sound l waiting working) : l.accepted.Nodup :=
  h.waiting_nodup.of_append_right

theorem accepted_lt (h : Sound l waiting working) {id : Nat} (hid : id ∈ l.accepted) :
    id < l.taken.length :=
  List.mem_range.mp (h.taken.subset (List.mem_append_right _ hid))

theorem settled_nodup (h : Sound l waiting working) : l.settled.Nodup :=
  (h.accepted.nodup_iff.mpr h.accepted_nodup).of_append_right

/-- Every ticket is at one place: waiting, worked on or settled. -/
theorem places (h : Sound l waiting working) :
    (waiting ++ (working ++ l.settled)).Perm (List.range l.taken.length) :=
  (h.accepted.append_left waiting).trans h.taken

/-- With nothing waiting and nothing worked on, every ticket has one outcome. -/
theorem settled_perm (h : Sound l [] []) :
    l.accepted.Perm (List.range l.taken.length) ∧ l.settled.Perm (List.range l.taken.length) :=
  ⟨h.taken, h.places⟩

end Sound

end ledger
