-- The proleptic Gregorian calendar. A date and a moment carry that they are in the
-- calendar; the calendar itself is the day after a date and the second after a moment.
-- Both count by one a number that orders them.
import Mathlib.Data.Nat.Basic
import Mathlib.Tactic.Linarith

namespace calendar

/-! ## Years and months -/

def Leap (year : Nat) : Prop := year % 4 = 0 ∧ (year % 100 ≠ 0 ∨ year % 400 = 0)

instance (year : Nat) : Decidable (Leap year) := inferInstanceAs (Decidable (_ ∧ _))

def month_length (year : Nat) : Nat → Nat
  | 2 => if Leap year then 29 else 28
  | 4 | 6 | 9 | 11 => 30
  | _ => 31

def year_length (year : Nat) : Nat := if Leap year then 366 else 365

theorem month_length_pos (year month : Nat) : 0 < month_length year month := by
  unfold month_length
  split <;> (try split) <;> decide

theorem month_length_lt (year month : Nat) : month_length year month < 32 := by
  unfold month_length
  split <;> (try split) <;> decide

/-- The days of a year before a month of it. -/
def month_start (year : Nat) : Nat → Nat
  | 0 | 1 => 0
  | month + 2 => month_start year (month + 1) + month_length year (month + 1)

/-- The days before a year, from the year 0. -/
def year_start : Nat → Nat
  | 0 => 0
  | year + 1 => year_start year + year_length year

theorem month_start_succ (year : Nat) {month : Nat} (h : 1 ≤ month) :
    month_start year (month + 1) = month_start year month + month_length year month := by
  obtain ⟨m, rfl⟩ := Nat.exists_eq_add_of_le' h
  rfl

theorem year_start_succ (year : Nat) : year_start (year + 1) = year_start year + year_length year :=
  rfl

theorem month_start_mono (year : Nat) : Monotone (month_start year) := by
  refine monotone_nat_of_le_succ fun month => ?_
  rcases Nat.eq_zero_or_pos month with rfl | h
  · exact Nat.le_refl _
  · rw [month_start_succ _ h]
    exact Nat.le_add_right _ _

theorem year_start_mono : Monotone year_start :=
  monotone_nat_of_le_succ fun _ => Nat.le_add_right _ _

/-- Twelve months are a year. -/
theorem month_start_13 (year : Nat) : month_start year 13 = year_length year := by
  simp only [month_start, month_length, year_length]
  split <;> rfl

/-! ## Dates -/

@[ext]
structure Date where
  year : Nat
  month : Nat
  day : Nat
  month_mem : 1 ≤ month ∧ month ≤ 12
  day_mem : 1 ≤ day ∧ day ≤ month_length year month
deriving DecidableEq

namespace Date

/-- The day after a date. -/
def tomorrow (d : Date) : Date :=
  if h : d.day < month_length d.year d.month then
    { d with day := d.day + 1, day_mem := ⟨Nat.le_add_left 1 _, h⟩ }
  else if h : d.month < 12 then
    { d with
      month := d.month + 1
      day := 1
      month_mem := ⟨Nat.le_add_left 1 _, h⟩
      day_mem := ⟨Nat.le_refl 1, month_length_pos _ _⟩ }
  else
    { year := d.year + 1
      month := 1
      day := 1
      month_mem := by decide
      day_mem := ⟨Nat.le_refl 1, month_length_pos _ _⟩ }

/-- The number of a date, from the first day of the year 0. -/
def number (d : Date) : Nat := year_start d.year + month_start d.year d.month + (d.day - 1)

theorem number_tomorrow (d : Date) : d.tomorrow.number = d.number + 1 := by
  obtain ⟨h1, h12⟩ := d.month_mem
  obtain ⟨hday1, hday⟩ := d.day_mem
  unfold tomorrow number
  split
  · dsimp only
    omega
  · split
    · dsimp only
      rw [month_start_succ _ h1]
      omega
    · -- the last day of December
      have hm : d.month = 12 := by omega
      have hsucc := month_start_succ d.year h1
      rw [hm, month_start_13, ← hm] at hsucc
      have hfirst : month_start (d.year + 1) 1 = 0 := rfl
      dsimp only
      rw [year_start_succ, hfirst]
      omega

/-- A date comes before another in the calendar. -/
def Before (a b : Date) : Prop :=
  a.year < b.year ∨ a.year = b.year ∧ (a.month < b.month ∨ a.month = b.month ∧ a.day < b.day)

theorem trichotomy (a b : Date) : a.Before b ∨ a = b ∨ b.Before a := by
  rcases Nat.lt_trichotomy a.year b.year with h | hy | h
  · exact .inl (.inl h)
  · rcases Nat.lt_trichotomy a.month b.month with h | hm | h
    · exact .inl (.inr ⟨hy, .inl h⟩)
    · rcases Nat.lt_trichotomy a.day b.day with h | hd | h
      · exact .inl (.inr ⟨hy, .inr ⟨hm, h⟩⟩)
      · exact .inr (.inl (Date.ext hy hm hd))
      · exact .inr (.inr (.inr ⟨hy.symm, .inr ⟨hm.symm, h⟩⟩))
    · exact .inr (.inr (.inr ⟨hy.symm, .inl h⟩))
  · exact .inr (.inr (.inl h))

theorem in_month (d : Date) :
    month_start d.year d.month + (d.day - 1) < month_start d.year (d.month + 1) := by
  have hday := d.day_mem
  rw [month_start_succ _ d.month_mem.1]
  omega

theorem in_year (d : Date) : d.number < year_start (d.year + 1) := by
  have hmonth := d.in_month
  have h13 := month_start_mono d.year (show d.month + 1 ≤ 13 from Nat.succ_le_succ d.month_mem.2)
  rw [month_start_13] at h13
  unfold number
  rw [year_start_succ]
  omega

theorem number_lt {a b : Date} (h : a.Before b) : a.number < b.number := by
  rcases h with h | ⟨hy, h | ⟨hm, h⟩⟩
  · have hend := a.in_year
    have hstart : year_start (a.year + 1) ≤ year_start b.year := year_start_mono h
    unfold number at *
    omega
  · have hend := a.in_month
    have hstart : month_start a.year (a.month + 1) ≤ month_start a.year b.month :=
      month_start_mono a.year h
    unfold number
    rw [← hy]
    omega
  · have hday := a.day_mem.1
    unfold number
    rw [← hy, ← hm]
    omega

end Date

/-! ## Moments -/

/-- A second of a day, in UTC without leap seconds. -/
@[ext]
structure Moment where
  date : Date
  hour : Nat
  minute : Nat
  second : Nat
  hour_lt : hour < 24
  minute_lt : minute < 60
  second_lt : second < 60
deriving DecidableEq

namespace Moment

/-- The second after a moment. -/
def tick (m : Moment) : Moment :=
  if h : m.second + 1 < 60 then { m with second := m.second + 1, second_lt := h }
  else if h : m.minute + 1 < 60 then
    { m with minute := m.minute + 1, second := 0, minute_lt := h, second_lt := by decide }
  else if h : m.hour + 1 < 24 then
    { m with
      hour := m.hour + 1
      minute := 0
      second := 0
      hour_lt := h
      minute_lt := by decide
      second_lt := by decide }
  else
    { date := m.date.tomorrow
      hour := 0
      minute := 0
      second := 0
      hour_lt := by decide
      minute_lt := by decide
      second_lt := by decide }

/-- The number of a moment, from the first second of the year 0. -/
def number (m : Moment) : Nat := 86400 * m.date.number + 3600 * m.hour + 60 * m.minute + m.second

theorem number_tick (m : Moment) : m.tick.number = m.number + 1 := by
  obtain ⟨date, hour, minute, second, hhour, hminute, hsecond⟩ := m
  unfold tick number
  dsimp only
  split_ifs with h h h
  · exact (Nat.add_assoc _ _ _).symm
  · dsimp only
    omega
  · dsimp only
    omega
  · dsimp only
    rw [Date.number_tomorrow]
    omega

def Before (a b : Moment) : Prop :=
  a.date.Before b.date ∨ a.date = b.date ∧ (a.hour < b.hour ∨ a.hour = b.hour ∧
    (a.minute < b.minute ∨ a.minute = b.minute ∧ a.second < b.second))

theorem trichotomy (a b : Moment) : a.Before b ∨ a = b ∨ b.Before a := by
  rcases a.date.trichotomy b.date with h | hd | h
  · exact .inl (.inl h)
  · rcases Nat.lt_trichotomy a.hour b.hour with h | hh | h
    · exact .inl (.inr ⟨hd, .inl h⟩)
    · rcases Nat.lt_trichotomy a.minute b.minute with h | hm | h
      · exact .inl (.inr ⟨hd, .inr ⟨hh, .inl h⟩⟩)
      · rcases Nat.lt_trichotomy a.second b.second with h | hs | h
        · exact .inl (.inr ⟨hd, .inr ⟨hh, .inr ⟨hm, h⟩⟩⟩)
        · exact .inr (.inl (Moment.ext hd hh hm hs))
        · exact .inr (.inr (.inr ⟨hd.symm, .inr ⟨hh.symm, .inr ⟨hm.symm, h⟩⟩⟩))
      · exact .inr (.inr (.inr ⟨hd.symm, .inr ⟨hh.symm, .inl h⟩⟩))
    · exact .inr (.inr (.inr ⟨hd.symm, .inl h⟩))
  · exact .inr (.inr (.inl h))

theorem number_lt {a b : Moment} (h : a.Before b) : a.number < b.number := by
  have hhour := a.hour_lt
  have hminute := a.minute_lt
  have hsecond := a.second_lt
  unfold number
  rcases h with hdate | ⟨hdate, h⟩
  · have hlt := Date.number_lt hdate
    omega
  · rw [hdate]
    omega

theorem before_iff {a b : Moment} : a.Before b ↔ a.number < b.number := by
  refine ⟨number_lt, fun h => ?_⟩
  rcases trichotomy a b with hlt | rfl | hlt
  · exact hlt
  · exact absurd h (Nat.lt_irrefl _)
  · exact absurd h (number_lt hlt).asymm

theorem number_injective {a b : Moment} (h : a.number = b.number) : a = b := by
  rcases trichotomy a b with hlt | heq | hlt
  · exact absurd h (number_lt hlt).ne
  · exact heq
  · exact absurd h (number_lt hlt).ne'

end Moment

/-! ## The seconds since 1970 -/

def epoch : Moment where
  date := { year := 1970, month := 1, day := 1, month_mem := by decide, day_mem := by decide }
  hour := 0
  minute := 0
  second := 0
  hour_lt := by decide
  minute_lt := by decide
  second_lt := by decide

/-- The moment that many seconds after the beginning of 1970. -/
def at_second (seconds : Nat) : Moment := Moment.tick^[seconds] epoch

theorem number_at_second (seconds : Nat) :
    (at_second seconds).number = epoch.number + seconds := by
  induction seconds with
  | zero => exact (Nat.add_zero _).symm
  | succ n ih =>
    unfold at_second at *
    rw [Function.iterate_succ_apply', Moment.number_tick, ih, Nat.add_assoc]

/-- The moment of some seconds is the one with the number. -/
theorem eq_at_second {m : Moment} {seconds : Nat} (h : m.number = epoch.number + seconds) :
    m = at_second seconds :=
  Moment.number_injective (h.trans (number_at_second seconds).symm)

theorem at_second_before_iff {a b : Nat} : (at_second a).Before (at_second b) ↔ a < b := by
  rw [Moment.before_iff, number_at_second, number_at_second, Nat.add_lt_add_iff_left]

/-- Every moment from 1970 on is some seconds after its beginning. -/
theorem exists_at_second {m : Moment} (h : 1970 ≤ m.date.year) :
    ∃ seconds, m = at_second seconds := by
  have hle : epoch.number ≤ m.number := by
    have hyear := year_start_mono h
    simp only [Moment.number, Date.number, epoch, month_start]
    omega
  obtain ⟨n, hn⟩ := Nat.exists_eq_add_of_le hle
  exact ⟨n, eq_at_second hn⟩

end calendar
