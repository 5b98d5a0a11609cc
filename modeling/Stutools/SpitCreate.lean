-- The positions of a job (src/c/spit/positions.c): the regions of its range and the loop that
-- fills them, the samples and the copy mode, what is done to the array afterwards, and the
-- rounds that change it between passes. The callers give `mod = 1` and `remain = 0`, so that
-- every turn of the loop counts, and `coverageWarning` only ever exits. Of a position the place
-- and the length are kept; nothing here looks at the rest.
import Mathlib.Data.Nat.Log
import Mathlib.Logic.Function.Basic
import Stutools.Float
import Stutools.Machine
import Stutools.SpitBlocks

namespace stutools.spit.create

/-- The fields of a `positionType` that say where it is. -/
structure Block where
  pos : Nat
  len : Nat
deriving DecidableEq, Inhabited

/-- `a - b` of two `size_t`. -/
def sub64 (a b : Nat) : Nat := (a + 2 ^ 64 - b) % 2 ^ 64

/-- `lengthsMin` -/
def lengthsMin (lengths : List Nat) : Nat := lengths.foldr min (2 ^ 64 - 1)

/-- `lengthsMax` -/
def lengthsMax (lengths : List Nat) : Nat := lengths.foldr max 0

/-- What `runThread` asks for: the number of positions is that of the array it has set up, which
fits the memory for positions and is no larger than a linear sub-sample, and the samples alternate
only if there are some. The alignment is `MIN(4096, blockSize)`, and the sizes are those of a
device, an `off_t`. `sf` is the sequential setting, rounded up. -/
structure Job where
  lengths : List Nat
  alignment : Nat
  startingBlock : Int
  minbdSize : Nat
  maxbdSize : Nat
  sf : Int
  sf_maxsizebytes : Nat
  fourkEveryMiB : ℚ
  jumpKiB : Nat
  firstPPositions : Nat
  randomSubSample : Nat
  linearSubSample : Nat
  linearAlternate : Bool
  copyMode : Bool
  resetSizes : List Nat
  sz : Nat
  lengths_pos : ∀ l ∈ lengths, 0 < l ∧ l < 2 ^ 32
  lengths_ne_nil : lengths ≠ []
  alignment_pos : 0 < alignment
  sz_pos : 0 < sz
  sz_lt : sz < 2 ^ 31
  sub_sample : linearSubSample ≠ 0 → sz ≤ linearSubSample
  alternate : linearAlternate → linearSubSample ≠ 0
  range_le : minbdSize ≤ maxbdSize
  size_lt : maxbdSize < 2 ^ 63
  room : 1 ≤ (maxbdSize - minbdSize) / lengthsMin lengths

/-- The values that the generators give to the loops, by the number of the turn: lengths of the
job's sets, and parts of the range that is asked for. -/
structure Draws (job : Job) where
  length : Nat → Nat
  sample : Nat → Nat
  resample : Nat → Nat
  resetThres : Nat → Nat
  block : Nat → Nat → Nat
  resetBlock : Nat → Nat → Nat
  redraw : Nat → Nat → Nat
  rand_r : Nat → Nat
  length_mem : ∀ t, length t ∈ job.lengths
  sample_mem : ∀ t, sample t ∈ job.lengths
  resample_mem : ∀ t, resample t ∈ job.lengths
  resetThres_mem : job.resetSizes ≠ [] → ∀ t, resetThres t ∈ job.resetSizes
  block_le : ∀ t n, block t n ≤ n
  resetBlock_le : ∀ t n, resetBlock t n ≤ n
  redraw_le : ∀ t n, redraw t n ≤ n

namespace Job

variable (job : Job)

def minbs : Nat := lengthsMin job.lengths

def maxbs : Nat := lengthsMax job.lengths

/-! ## The regions -/

/-- `(int) (log(alignment) / log(2) + 0.01)`, in real numbers. -/
def alignbits : Nat := Nat.log 2 (2 * job.alignment ^ 100) / 100

def regions : Nat := if job.sf = 0 then 1 else job.sf.natAbs

/-- `totalratio` before turn `i`. -/
def totalratio : Nat → ℚ
  | 0 => float.f64 job.minbdSize
  | i + 1 => float.f64 (totalratio i +
      float.f64Div (float.f64 ((job.maxbdSize - job.minbdSize : Nat) : ℚ)) job.regions)

def positionsStart (i : Nat) : Nat :=
  alignedNumber ⌊job.totalratio i⌋.toNat job.alignment % 2 ^ 64

def positionsEnd (i : Nat) : Nat :=
  if i + 1 < job.regions then job.positionsStart (i + 1) else job.maxbdSize

/-! ## The linear sub-sample -/

/-- The place of a sample between the first one and the last. -/
def samplePlace (q : Nat) : Nat :=
  let step := ⌊float.f64Div (float.f64 (float.f64 (float.f64 job.maxbdSize - job.minbs) -
    float.f64 job.minbdSize)) ((job.linearSubSample : ℚ) - 1)⌋.toNat
  (job.minbdSize + q * step) % 2 ^ 64 / 2 ^ job.alignbits * 2 ^ job.alignbits

/-- The entries of `alterPos` and `alterSize`. -/
def alter (d : Draws job) (q : Nat) : Block :=
  if q + 1 = job.linearSubSample then
    { pos := sub64 job.maxbdSize (d.sample 1), len := d.sample 1 }
  else if q = 0 then { pos := job.minbdSize, len := d.sample 0 }
  else { pos := job.samplePlace q, len := d.sample (q + 1) }

/-- The entries after they were alternated, from both ends, and truncated. The entry in the
middle of an odd number is left out. -/
def sampled (d : Draws job) (q : Nat) : Block :=
  if job.linearAlternate then
    let b : Block :=
      if q / 2 < job.sz / 2 then
        if q % 2 = 0 then job.alter d (q / 2) else job.alter d (job.sz - 1 - q / 2)
      else { pos := 0, len := 0 }
    if b.pos + b.len ≥ job.maxbdSize then { pos := sub64 job.maxbdSize b.len, len := b.len } else b
  else job.alter d q

/-! ## The loop over the regions -/

/-- The state of the loop: what is stored, the arrays of the regions, and the turns so far. -/
structure Gen where
  poss : List Block
  positionsCurrent : Nat → Nat
  positionsSizeSum : Nat → Nat
  turns : Nat

variable (d : Draws job)

/-- A random block of the range that has room for a length. -/
def randomBlock (thislen value : Nat) : Option Nat :=
  randomBlockSize job.minbdSize (sub64 job.maxbdSize thislen) job.alignbits value

/-- The bound of the random value for `randomBlock`. -/
def randomRange (thislen : Nat) : Nat := sub64 (sub64 job.maxbdSize thislen) job.minbdSize

/-- The position that a turn takes for region `i`, and `positionsCurrent` of the region before
the position is passed over. None when an assertion fails. -/
def choose (i thislen : Nat) (g : Gen) : Option (Block × Nat) :=
  let j := g.positionsCurrent i
  if job.linearSubSample ≠ 0 then
    let b := job.sampled d g.poss.length
    if job.minbdSize ≤ b.pos ∧ b.pos + b.len ≤ job.maxbdSize then some (b, j) else none
  else if job.randomSubSample ≠ 0 then
    (job.randomBlock thislen (d.block g.turns (job.randomRange thislen))).bind fun pos =>
      if job.minbdSize ≤ pos ∧ pos + thislen ≤ job.maxbdSize then some ({ pos, len := thislen }, j)
      else none
  else if j + thislen > job.positionsEnd i ∨
      job.sf_maxsizebytes ≠ 0 ∧ j + thislen > job.positionsStart i + job.sf_maxsizebytes then
    some ({ pos := job.positionsStart i, len := thislen }, job.positionsStart i)
  else some ({ pos := j, len := thislen }, j)

/-- The position is passed over, and the region goes to another place when the lengths since it
did reach the threshold. -/
def advance (i : Nat) (b : Block) (current : Nat) (g : Gen) : Option Gen :=
  let sum := (g.positionsSizeSum i + b.len) % 2 ^ 64
  let g' : Gen :=
    { poss := g.poss ++ [b]
      positionsCurrent := Function.update g.positionsCurrent i (current + b.len)
      positionsSizeSum := Function.update g.positionsSizeSum i sum
      turns := g.turns + 1 }
  if job.resetSizes ≠ [] ∧ 0 < job.sf ∧ d.resetThres g.turns ≤ sum then
    (job.randomBlock b.len (d.resetBlock g.turns (job.randomRange b.len))).map fun pos =>
      { g' with
        positionsCurrent := Function.update g.positionsCurrent i pos
        positionsSizeSum := Function.update g.positionsSizeSum i 0 }
  else some g'

def thislen (g : Gen) : Nat := if job.minbs ≠ job.maxbs then d.length g.turns else job.minbs

/-- One turn of the inner loop. -/
def turn (g : Gen) (i : Nat) : Option Gen :=
  if job.sz ≤ g.poss.length then some g
  else if job.positionsStart i ≤ g.positionsCurrent i then
    let thislen := job.thislen d g
    if g.positionsCurrent i + thislen ≤ job.positionsEnd i then
      (job.choose d i thislen g).bind fun (b, current) =>
        if job.positionsStart i ≤ b.pos ∧ b.pos < job.positionsEnd i ∧
            (job.sf_maxsizebytes ≠ 0 → b.pos ≤ job.positionsStart i + job.sf_maxsizebytes) then
          job.advance d i b current g
        else none
    else some { g with turns := g.turns + 1 }
  else none

/-- One turn of the outer loop. -/
def pass (g : Gen) : Option Gen := machine.run (job.turn d) g (List.range job.regions)

/-- The outer loop: until the array is full, or a turn changes nothing. -/
def fill (g : Gen) : Option Gen :=
  if g.poss.length < job.sz then
    (job.pass d g).bind fun g' => if g.poss.length < g'.poss.length then fill g' else some g'
  else some g
termination_by job.sz - g.poss.length

def start : Gen :=
  { poss := [], positionsCurrent := job.positionsStart, positionsSizeSum := fun _ => 0, turns := 0 }

/-! ## The copy mode -/

structure Copy where
  poss : List Block
  posr : Nat
  posw : Nat
  readSum : Nat

def copyStart : Copy :=
  { poss := [], posr := job.minbdSize, readSum := 0
    posw := alignedNumber (job.minbdSize + (job.maxbdSize - job.minbdSize) / 2) 4096 }

def copyTurn (c : Copy) : Copy :=
  if c.readSum < job.maxbs then
    { c with
      poss := c.poss ++ [{ pos := c.posr, len := job.minbs }]
      posr := c.posr + job.minbs
      readSum := c.readSum + job.minbs }
  else
    { c with
      poss := c.poss ++ [{ pos := c.posw, len := job.maxbs }]
      posw := c.posw + job.maxbs
      readSum := 0 }

def copied : List Block := ((List.range job.sz).foldl (fun c _ => job.copyTurn c) job.copyStart).poss

/-! ## What is done to the array -/

/-- The offset of the first position. None for a division by zero. -/
def offset (count : Nat) : Option Nat :=
  if count ≠ 0 ∨ 0 < job.startingBlock then
    if count = 0 then none
    else if job.startingBlock = -99999 then some (d.rand_r 0 % count)
    else if 0 ≤ job.startingBlock then some (job.startingBlock.toNat % count)
    else some (((count : Int) + job.startingBlock) % 2 ^ 64 % count).toNat
  else some 0

def rotate (poss : List Block) (offset : Nat) : List Block :=
  (List.range poss.length).map fun i =>
    let index := i + offset
    poss.getD (if index ≥ poss.length then index - poss.length else index) default

/-- The positions are somewhere else than where the loop has put them. -/
def Redrawn : Prop := job.firstPPositions = 0 ∧ job.sf = 0

instance : Decidable job.Redrawn := inferInstanceAs (Decidable (_ ∧ _))

/-- Random places for positions, from number `i` on. -/
def redrawAll (i : Nat) : List Block → Option (List Block)
  | [] => some []
  | b :: rest =>
    (job.randomBlock job.maxbs (d.redraw i (job.randomRange job.maxbs))).bind fun pos =>
      (redrawAll (i + 1) rest).map fun rest => { b with pos } :: rest

def reverse (b : Block) : Block :=
  { b with pos := sub64 (sub64 job.maxbdSize b.len) (sub64 b.pos job.minbdSize) }

/-- A turn of `positionsRandomize`. -/
def swapTurn (count : Nat) (positions : List Block) (i : Nat) : List Block :=
  let j := i + d.rand_r (i + 1) % (count - i)
  (positions.set i (positions.getD j default)).set j (positions.getD i default)

/-- `positionContainerRandomize` -/
def randomize (positions : List Block) : List Block :=
  if 1 < positions.length then
    (List.range (positions.length - 2)).foldl (job.swapTurn d positions.length) positions
  else positions

/-- From the array of the loop to the positions of the container. -/
def arrange (poss : List Block) : Option (List Block) :=
  (job.offset d poss.length).bind fun offset =>
    (if job.Redrawn then job.redrawAll d 0 (rotate poss offset)
      else some (rotate poss offset)).map fun positions =>
        let positions := if job.sf < 0 then positions.map job.reverse else positions
        if job.firstPPositions ≠ 0 ∧ job.sf = 0 then job.randomize d positions else positions

/-! ## 4 KiB operations -/

/-- A position is far enough behind the last one. -/
def Jumps (last : Nat) (b : Block) : Prop :=
  float.f64 (job.fourkEveryMiB * 1024 * 1024) ≤ float.f64 (sub64 b.pos last)

instance (last : Nat) (b : Block) : Decidable (job.Jumps last b) := Rat.instDecidableLe _ _

/-- The number of operations to insert. -/
def countJumps (last : Nat) : List Block → Nat
  | [] => 0
  | b :: rest => if job.Jumps last b then countJumps b.pos rest + 1 else countJumps last rest

/-- The loop that inserts. None for a division by zero. -/
def insertAll (count : Nat) (i last : Nat) : List Block → Option (List Block)
  | [] => some []
  | b :: rest =>
    if job.Jumps last b then
      if count = 0 then none
      else (insertAll count (i + 1) b.pos rest).map fun rest =>
        { pos := d.rand_r i % count * 4096, len := 4096 } :: b :: rest
    else (insertAll count i last rest).map fun rest => b :: rest

/-- The loop that moves positions instead. -/
def moveAll (last cumjump : Nat) : List Block → List Block
  | [] => []
  | b :: rest =>
    if job.Jumps last b then
      let cumjump := cumjump + alignedNumber (job.jumpKiB * 1024 % 2 ^ 64) 4096
      let pos := (b.pos + cumjump) % 2 ^ 64
      { b with pos } :: moveAll pos cumjump rest
    else b :: moveAll last cumjump rest

/-- `insertFourkEveryMiB` -/
def insertFourkEveryMiB (positions : List Block) : Option (List Block) :=
  match positions with
  | [] => some []
  | first :: _ =>
    if job.jumpKiB = 0 then
      job.insertAll d (job.countJumps first.pos positions) 0 first.pos positions
    else some (job.moveAll first.pos 0 positions)

/-- `positionContainerCheck`, of which only the check of the lengths ends the program. -/
def check (positions : List Block) : Option (List Block) :=
  if job.resetSizes = [] ∧ ∃ b ∈ positions, b.len = 0 then none else some positions

/-- The array before 4 KiB operations are inserted. -/
def build : Option (List Block) :=
  (if job.copyMode then some job.copied else (job.fill d job.start).map Gen.poss).bind
    (job.arrange d)

/-- `positionContainerCreatePositions` -/
def positionContainerCreatePositions : Option (List Block) :=
  (job.build d).bind fun positions =>
    (if 0 < job.fourkEveryMiB then job.insertFourkEveryMiB d positions else some positions).bind
      job.check

end Job

/-! ## The rounds -/

/-- What is done between two passes over the positions, with the draws of the round. -/
inductive Round (job : Job) where
  | randomSubSample (d : Draws job)
  | addBlockSize (addSize : Nat)

namespace Job

variable (job : Job)

/-- `randomSubSample`, from position `i` on: the place is drawn for a new length, and the length
is kept. -/
def resampleAll (d : Draws job) (i : Nat) : List Block → Option (List Block)
  | [] => some []
  | b :: rest =>
    let thislen := d.resample i
    (job.randomBlock thislen (d.block i (job.randomRange thislen))).bind fun pos =>
      if job.minbdSize ≤ pos ∧ pos + thislen ≤ job.maxbdSize then
        (resampleAll d (i + 1) rest).map fun rest => { b with pos } :: rest
      else none

/-- One turn of `positionAddBlockSize`. -/
def addSize (n : Nat) (b : Block) : Block :=
  let pos := (b.pos + n) % 2 ^ 64
  if (pos + b.len) % 2 ^ 64 > job.maxbdSize then { b with pos := n } else { b with pos }

def round (positions : List Block) : Round job → Option (List Block)
  | .randomSubSample d => job.resampleAll d 0 positions
  | .addBlockSize n => some (positions.map (job.addSize n))

end Job

end stutools.spit.create
