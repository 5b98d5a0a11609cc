-- The positions of the C tools (src/c/spit/positions.c): one entry for each read,
-- write or trim of a run, and the two builders that follow a write by a read of
-- it. A double is a rational here, and only times that a clock gives occur.
import Mathlib.Algebra.Field.Rat
import Mathlib.Algebra.Order.Ring.Rat
import Mathlib.Data.NNRat.Defs

namespace stutools.spit

/-- `positionType`, less its samples of the latency. -/
structure positionType where
  pos : Nat
  submitTime : ℚ≥0
  finishTime : ℚ≥0
  len : Nat
  verify : Nat
  deviceid : Nat
  seed : Nat
  q : Nat
  action : Char
  success : Nat
  inFlight : Bool
deriving DecidableEq

/-- A position as `CALLOC` leaves it. -/
def positionType.zero : positionType :=
  { pos := 0, submitTime := 0, finishTime := 0, len := 0, verify := 0, deviceid := 0, seed := 0,
    q := 0, action := Char.ofNat 0, success := 0, inFlight := false }

instance : Inhabited positionType := ⟨positionType.zero⟩

/-- `positionContainer`, the fields that a run and its verification use. -/
structure positionContainer where
  positions : List positionType
  maxbs : Nat
  writtenBytes : Nat
  writtenIOs : Nat
  readBytes : Nat
  readIOs : Nat
  UUID : Nat
deriving DecidableEq

namespace positionContainer

/-- The position appended for a position of the list: a write is read back. -/
def metadata_check (p : positionType) : positionType :=
  if p.action = 'W' then { p with action := 'R', verify := 1 } else p

/-- `positionContainerAddMetadataChecks`. -/
def AddMetadataChecks (pc : positionContainer) : positionContainer :=
  { pc with positions := pc.positions ++ pc.positions.map metadata_check }

/-- The position that follows the one at index `j`: a write is read back. -/
def read_back (j : Nat) (p : positionType) : positionType :=
  if p.action = 'W' then { p with action := 'R', verify := j % 2 ^ 32 } else p

/-- The loop of `positionContainerUniqueSeeds`, from index `j` of the new list on.
None when its assertion fails, for an index that the field cannot hold. -/
def unique_seeds (andVerify : Bool) : List positionType → Nat → Nat → Option (List positionType)
  | [], _, _ => some []
  | p :: origs, seed, j => do
    let p := { p with seed := seed }
    if andVerify then
      if p.action = 'W' ∧ (read_back j p).verify ≠ j then none
      else
        let rest ← unique_seeds andVerify origs ((seed + 1) % 2 ^ 16) (j + 2)
        return p :: read_back j p :: rest
    else
      let rest ← unique_seeds andVerify origs ((seed + 1) % 2 ^ 16) (j + 1)
      return p :: rest

/-- `positionContainerUniqueSeeds`. -/
def UniqueSeeds (pc : positionContainer) (seed : Nat) (andVerify : Bool) :
    Option positionContainer := do
  let positions ← unique_seeds andVerify pc.positions seed 0
  return { pc with positions := positions }

end positionContainer

end stutools.spit
