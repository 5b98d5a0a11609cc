-- The statistics of the cameras by minute and by hour: samples merged into the minute
-- they are recorded in, two minutes held at a time, and the rows that a writer makes of
-- them, which may run late. Times are exact; the counters are taken not to overflow.
import Mathlib.Algebra.Order.Floor.Semiring
import Mathlib.Data.Rat.Floor
import Stutools.Buckets

open buckets

namespace stutools.cctv

structure WriteTag where
  camera : Nat := 0
  sequence : Nat := 0
  offset : Nat := 0
  submitted_ns : Nat := 0
  completed_ns : Nat := 0
deriving DecidableEq, Repr

structure Metrics where
  writes : Nat := 0
  bytes : Nat := 0
  write_ns : Nat := 0
  max_write_ns : Nat := 0
  allocations : Nat := 0
  allocation_ns : Nat := 0
  max_allocation_ns : Nat := 0
  deleted : Nat := 0
  rotations : Nat := 0
  preallocation_waits : Nat := 0
  preallocation_wait_ns : Nat := 0
  max_preallocation_wait_ns : Nat := 0
  max_write_tag : WriteTag := {}
  writes_over_200ms : Nat := 0
  gen_ns : Nat := 0
  max_gen_ns : Nat := 0
  closes : Nat := 0
  close_ns : Nat := 0
  max_close_ns : Nat := 0
  max_close_queue : Nat := 0
deriving DecidableEq, Repr

/-- `Metrics::merge`: sums and maxima, and the tag of the first write that was the slowest. -/
def Metrics.merge (self other : Metrics) : Metrics :=
  { writes := self.writes + other.writes
    bytes := self.bytes + other.bytes
    write_ns := self.write_ns + other.write_ns
    max_write_ns := max self.max_write_ns other.max_write_ns
    allocations := self.allocations + other.allocations
    allocation_ns := self.allocation_ns + other.allocation_ns
    max_allocation_ns := max self.max_allocation_ns other.max_allocation_ns
    deleted := self.deleted + other.deleted
    rotations := self.rotations + other.rotations
    preallocation_waits := self.preallocation_waits + other.preallocation_waits
    preallocation_wait_ns := self.preallocation_wait_ns + other.preallocation_wait_ns
    max_preallocation_wait_ns := max self.max_preallocation_wait_ns other.max_preallocation_wait_ns
    max_write_tag :=
      if 0 < other.writes ∧ (self.writes = 0 ∨ self.max_write_ns < other.max_write_ns) then
        other.max_write_tag
      else self.max_write_tag
    writes_over_200ms := self.writes_over_200ms + other.writes_over_200ms
    gen_ns := self.gen_ns + other.gen_ns
    max_gen_ns := max self.max_gen_ns other.max_gen_ns
    closes := self.closes + other.closes
    close_ns := self.close_ns + other.close_ns
    max_close_ns := max self.max_close_ns other.max_close_ns
    max_close_queue := max self.max_close_queue other.max_close_queue }

/-! ## Samples -/

/-- Without a write there is no slowest one. -/
def Metrics.Sound (m : Metrics) : Prop :=
  m.writes = 0 → m.max_write_ns = 0 ∧ m.max_write_tag = {}

/-- What the cameras record: a write with its tag, or something else and no write. -/
abbrev Sample := { m : Metrics // m.Sound }

theorem Metrics.Sound.merge {a b : Metrics} (ha : a.Sound) (hb : b.Sound) : (a.merge b).Sound := by
  intro h
  have hwrites : a.writes = 0 ∧ b.writes = 0 := Nat.add_eq_zero_iff.mp h
  have hmax := (ha hwrites.1).1
  have hmax' := (hb hwrites.2).1
  refine ⟨?_, ?_⟩
  · show max a.max_write_ns b.max_write_ns = 0
    omega
  · show (if _ then _ else _) = _
    rw [if_neg (by omega), (ha hwrites.1).2]

theorem Metrics.merge_assoc {a b c : Metrics} (ha : a.Sound) (hb : b.Sound) (hc : c.Sound) :
    (a.merge b).merge c = a.merge (b.merge c) := by
  have htag : ((a.merge b).merge c).max_write_tag = (a.merge (b.merge c)).max_write_tag := by
    have hzero : ∀ {m : Metrics}, m.Sound → 0 < m.writes ∨ m.max_write_ns = 0 := fun {m} hm =>
      (Nat.eq_zero_or_pos m.writes).elim (fun h0 => .inr (hm h0).1) .inl
    have ha0 := hzero ha
    have hb0 := hzero hb
    have hc0 := hzero hc
    simp only [Metrics.merge]
    grind
  simp only [Metrics.merge, Metrics.mk.injEq] at htag ⊢
  simp only [Nat.add_assoc, Nat.max_assoc, true_and, and_true]
  exact htag

theorem Metrics.zero_merge {m : Metrics} (h : m.Sound) : Metrics.merge {} m = m := by
  by_cases hw : m.writes = 0
  · have := (h hw).2
    cases m
    simp_all [Metrics.merge]
  · cases m
    simp_all [Metrics.merge]

theorem Metrics.merge_zero (m : Metrics) : m.merge {} = m := by
  cases m
  simp [Metrics.merge]

instance : Zero Sample := ⟨{}, fun _ => ⟨rfl, rfl⟩⟩

instance : Add Sample := ⟨fun a b => ⟨a.1.merge b.1, a.2.merge b.2⟩⟩

instance : AddMonoid Sample where
  add_assoc a b c := Subtype.ext (Metrics.merge_assoc a.2 b.2 c.2)
  zero_add a := Subtype.ext (Metrics.zero_merge a.2)
  add_zero a := Subtype.ext (Metrics.merge_zero a.1)
  nsmul := nsmulRec

/-- The slowest write of some samples is one of them. -/
theorem slowest_of_sum (l : List Sample) : (∀ x ∈ l, x.1.max_write_ns ≤ l.sum.1.max_write_ns) ∧
    (0 < l.sum.1.writes → ∃ x ∈ l, 0 < x.1.writes ∧ x.1.max_write_ns = l.sum.1.max_write_ns ∧
      x.1.max_write_tag = l.sum.1.max_write_tag) := by
  induction l with
  | nil => exact ⟨fun x hx => (by cases hx), fun h => absurd h (Nat.lt_irrefl 0)⟩
  | cons a l ih =>
    obtain ⟨hle, hsome⟩ := ih
    rw [List.sum_cons]
    have hmax : (a + l.sum).1.max_write_ns = max a.1.max_write_ns l.sum.1.max_write_ns := rfl
    have hwrites : (a + l.sum).1.writes = a.1.writes + l.sum.1.writes := rfl
    have htag : (a + l.sum).1.max_write_tag =
        if 0 < l.sum.1.writes ∧ (a.1.writes = 0 ∨ a.1.max_write_ns < l.sum.1.max_write_ns) then
          l.sum.1.max_write_tag
        else a.1.max_write_tag := rfl
    refine ⟨fun x hx => ?_, fun hpos => ?_⟩
    · rw [hmax]
      rcases List.mem_cons.mp hx with rfl | hx
      · exact Nat.le_max_left _ _
      · exact Nat.le_trans (hle x hx) (Nat.le_max_right _ _)
    · rw [hmax, htag]
      split_ifs with hslower
      · obtain ⟨x, hx, hw, hns, hxtag⟩ := hsome hslower.1
        have ha := a.2
        refine ⟨x, List.mem_cons_of_mem _ hx, hw, ?_, hxtag⟩
        rcases hslower.2 with hnone | hlt
        · have := (ha hnone).1
          omega
        · omega
      · have hl := l.sum.2
        have ha : 0 < a.1.writes ∧ l.sum.1.max_write_ns ≤ a.1.max_write_ns := by
          by_cases hw : l.sum.1.writes = 0
          · have := (hl hw).1
            omega
          · omega
        exact ⟨a, List.mem_cons_self, ha.1, (Nat.max_eq_left ha.2).symm, rfl⟩

/-! ## The store -/

/-- `(seconds / 60.) as u64`. -/
def minute_of (seconds : ℚ) : Nat := ⌊seconds / 60⌋₊

/-- `MetricsStore`: the minutes that are held, even and odd ones. -/
structure MetricsStore where
  slots : Fin 2 → Option (Nat × Sample) := fun _ => none
  total : Sample := 0

/-- The slot of a minute. -/
def slot_of (minute : Nat) : Fin 2 := ⟨minute % 2, Nat.mod_lt _ (by decide)⟩

namespace MetricsStore

/-- Whether a minute is drained: it is over, or it is the last one. -/
def drains (seconds : ℚ) (finish : Bool) (id : Nat) : Bool :=
  id < minute_of seconds || (finish && id == minute_of seconds)

/-- The minutes that are drained, and the store without them. -/
def drain (s : MetricsStore) (seconds : ℚ) (finish : Bool) : MetricsStore × MetricsStore :=
  ({ slots := fun i => (s.slots i).filter fun slot => drains seconds finish slot.1 },
    { s with slots := fun i => (s.slots i).filter fun slot => !drains seconds finish slot.1 })

/-- Merges a sample into its minute and the total. -/
def record (s : MetricsStore) (seconds : ℚ) (value : Sample) : Except String MetricsStore :=
  let minute := minute_of seconds
  let slot := s.slots (slot_of minute)
  if slot.any fun slot => slot.1 ≠ minute then
    .error "CCTV log writer fell over a minute behind; refusing to lose latency samples"
  else
    .ok
      { slots := Function.update s.slots (slot_of minute) (some (minute, (slot.elim 0 Prod.snd) + value))
        total := s.total + value }

/-- The samples of a minute, which leave the store. -/
def take (s : MetricsStore) (minute : Nat) : Sample × MetricsStore :=
  match s.slots (slot_of minute) with
  | some (id, stats) =>
    if id = minute then (stats, { s with slots := Function.update s.slots (slot_of minute) none })
    else (0, s)
  | none => (0, s)

end MetricsStore

/-! ## The writer -/

/-- A row of the minute or the hour log. -/
structure Row where
  index : Nat
  start : Nat
  seconds : ℚ
  complete : Bool
  metrics : Sample

/-- `Periods`. -/
structure Periods where
  minute : Nat := 0
  hour : Nat := 0
  hour_metrics : Sample := 0

/-- What `Periods::advance` works on: itself, the snapshot, and the rows it has written. -/
structure Writer where
  periods : Periods
  snapshot : MetricsStore
  minutes : List Row
  hours : List Row
  wrote_hour : Bool := false

namespace Writer

/-- One turn of the loop: the row of a minute, and that of an hour after its last minute. -/
def turn (w : Writer) : Writer :=
  let p := w.periods
  let (m, snapshot) := w.snapshot.take p.minute
  let minutes := w.minutes ++ [Row.mk p.minute (p.minute * 60) 60 true m]
  let hour_metrics := p.hour_metrics + m
  if (p.minute + 1) % 60 = 0 then
    { periods := { minute := p.minute + 1, hour := p.hour + 1, hour_metrics := 0 }
      snapshot
      minutes
      hours := w.hours ++ [Row.mk p.hour (p.hour * 3600) 3600 true hour_metrics]
      wrote_hour := true }
  else { w with periods := { p with minute := p.minute + 1, hour_metrics }, snapshot, minutes }

theorem turn_minute (w : Writer) : w.turn.periods.minute = w.periods.minute + 1 := by
  unfold turn
  dsimp only
  split_ifs <;> rfl

/-- The loop of `Periods::advance`. -/
def turns (elapsed : ℚ) (w : Writer) : Writer :=
  if (w.periods.minute + 1 : ℚ) * 60 ≤ elapsed then turns elapsed w.turn else w
termination_by minute_of elapsed - w.periods.minute
decreasing_by
  rename_i hle
  have hfloor : w.periods.minute + 1 ≤ minute_of elapsed := by
    refine Nat.le_floor ?_
    rw [le_div_iff₀ (by norm_num)]
    exact_mod_cast hle
  rw [turn_minute]
  omega

/-- 1e-9, as a double. -/
def INSTANT : ℚ := 4835703278458517 / 2 ^ 82

/-- The row of the last minute, which is not over. -/
def finish_minute (elapsed : ℚ) (w : Writer) : Writer :=
  let p := w.periods
  let rest := elapsed - p.minute * 60
  if INSTANT < rest then
    let (m, snapshot) := w.snapshot.take p.minute
    { w with
      periods := { p with hour_metrics := p.hour_metrics + m }
      snapshot
      minutes := w.minutes ++ [Row.mk p.minute (p.minute * 60) rest false m] }
  else w

/-- The row of the last hour, which is not over. -/
def finish_hour (elapsed : ℚ) (w : Writer) : Writer :=
  let p := w.periods
  let rest := elapsed - p.hour * 3600
  if INSTANT < rest then
    { w with
      hours := w.hours ++ [Row.mk p.hour (p.hour * 3600) rest false p.hour_metrics]
      wrote_hour := true }
  else w

/-- `Periods::advance`. -/
def advance (elapsed : ℚ) (finishing : Bool) (w : Writer) : Writer :=
  let w := w.turns elapsed
  if finishing then (w.finish_minute elapsed).finish_hour elapsed else w

end Writer

/-! ## The run -/

/-- The store, the periods and the two logs. -/
structure Cctv where
  store : MetricsStore := {}
  periods : Periods := {}
  minutes : List Row := []
  hours : List Row := []

namespace Cctv

/-- `Logs::advance`: what is drained goes through `Periods::advance`. -/
def advance (s : Cctv) (elapsed : ℚ) (finish : Bool) : Cctv :=
  let (snapshot, store) := s.store.drain elapsed finish
  let w := Writer.advance elapsed finish
    { periods := s.periods, snapshot, minutes := s.minutes, hours := s.hours }
  { store, periods := w.periods, minutes := w.minutes, hours := w.hours }

end Cctv

/-- A call of the cameras or of the writer, at a time. -/
inductive Call where
  | record (seconds : ℚ) (value : Sample)
  | advance (elapsed : ℚ)

def Call.time : Call → ℚ
  | .record seconds _ => seconds
  | .advance elapsed => elapsed

namespace Cctv

def step (s : Cctv) : Call → Except String Cctv
  | .record seconds value => (s.store.record seconds value).map fun store => { s with store }
  | .advance elapsed => .ok (s.advance elapsed false)

/-- A run of calls, up to the first error. -/
def run : Cctv → List Call → Except String Cctv
  | s, [] => .ok s
  | s, c :: calls =>
    match s.step c with
    | .error e => .error e
    | .ok s => s.run calls

end Cctv

/-- The samples of a run with their times. -/
def samples (calls : List Call) : List (ℚ × Sample) :=
  calls.filterMap fun
    | .record seconds value => some (seconds, value)
    | .advance _ => none

end stutools.cctv
