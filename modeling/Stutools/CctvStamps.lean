-- The stamps in the names of the recordings (src/rust/src/cctv_files.rs): the text of a
-- number of seconds in UTC, and the check that a text is such a stamp. A text of ASCII is
-- as long in bytes as in characters, and its order is that of its bytes.
import Mathlib.Data.List.GetD
import Stutools.Calendar
import Stutools.Padded

open texts

namespace stutools.cctv

def leap (y : Nat) : Bool := y % 4 == 0 && (y % 100 != 0 || y % 400 == 0)

/-- The array that both `utc` and `valid_stamp` build. -/
def lengths (year : Nat) : List Nat :=
  [31, if leap year then 29 else 28, 31, 30, 31, 30, 31, 31, 30, 31, 30, 31]

def days_in (year : Nat) : Nat := if leap year then 366 else 365

theorem days_in_pos (year : Nat) : 0 < days_in year := by
  unfold days_in
  split <;> decide

/-- The loop over the years: the year, and the days that are left of it. -/
def year_of (days year : Nat) : Nat × Nat :=
  if days_in year ≤ days then year_of (days - days_in year) (year + 1) else (year, days)
termination_by days
decreasing_by
  have := days_in_pos year
  omega

theorem year_of_lt (days year : Nat) : (year_of days year).2 < days_in (year_of days year).1 := by
  induction days, year using year_of.induct with
  | case1 days year h ih =>
    rw [year_of, if_pos h]
    exact ih
  | case2 days year h =>
    rw [year_of, if_neg h]
    exact Nat.lt_of_not_le h

theorem sum_lengths (year : Nat) : (lengths year).sum = days_in year := by
  unfold lengths days_in
  split <;> rfl

/-- The loop over the months, which ends inside the array: the month from 0, and the days
that are left of it. -/
def month_of : (lengths : List Nat) → (month days : Nat) → days < lengths.sum → Nat × Nat
  | [], _, _, h => absurd h (Nat.not_lt_zero _)
  | length :: lengths, month, days, h =>
    if hle : length ≤ days then
      month_of lengths (month + 1) (days - length) (by rw [List.sum_cons] at h; omega)
    else (month, days)

/-- The date of `utc`: the year, the month from 0 and the day from 0. -/
def date_of (seconds : Nat) : Nat × Nat × Nat :=
  let y := year_of (seconds / 86400) 1970
  (y.1, month_of (lengths y.1) 0 y.2 (by rw [sum_lengths]; exact year_of_lt _ _))

def utc (seconds : Nat) (iso : Bool) : List Char :=
  let (year, month, days) := date_of seconds
  let (hour, minute, second) := (seconds % 86400 / 3600, seconds % 3600 / 60, seconds % 60)
  if iso then
    padded 4 year ++ '-' :: padded 2 (month + 1) ++ '-' :: padded 2 (days + 1) ++
      'T' :: padded 2 hour ++ ':' :: padded 2 minute ++ ':' :: padded 2 second ++ ['Z']
  else
    padded 4 year ++ padded 2 (month + 1) ++ padded 2 (days + 1) ++
      'T' :: padded 2 hour ++ padded 2 minute ++ padded 2 second ++ ['Z']

/-- `&s[a..b]` -/
def slice (s : List Char) (a b : Nat) : List Char := (s.take b).drop a

def valid_stamp (s : List Char) : Bool :=
  if ¬ s.all (fun c => c.toNat < 128) ∨ s.length ≠ 16 ∨ slice s 8 9 ≠ ['T'] ∨ s.drop 15 ≠ ['Z'] ∨
      ¬ (s.take 8 ++ slice s 9 15).all Char.isDigit then false
  else
    -- only digits are left, and `parse` of digits is their number
    let n a b := number (slice s a b)
    let (y, m, d) := (n 0 4, n 4 6, n 6 8)
    decide (1970 ≤ y ∧ (1 ≤ m ∧ m ≤ 12) ∧ 1 ≤ d ∧ d ≤ (lengths y).getD (m - 1) 0 ∧
      n 9 11 < 24 ∧ n 11 13 < 60 ∧ n 13 15 < 60)

/-! ## The date of a number of days -/

theorem leap_iff (y : Nat) : leap y = true ↔ calendar.Leap y := by
  simp [leap, calendar.Leap]

theorem days_in_eq (year : Nat) : days_in year = calendar.year_length year := by
  unfold days_in calendar.year_length
  simp only [leap_iff]

/-- The array holds the lengths of the months. -/
theorem lengths_eq (year : Nat) :
    lengths year = (List.range 12).map fun i => calendar.month_length year (i + 1) := by
  simp only [lengths, calendar.month_length, leap_iff, List.range, List.range.loop, List.map]

theorem year_of.spec (days year : Nat) :
    calendar.year_start (year_of days year).1 + (year_of days year).2 =
      calendar.year_start year + days := by
  induction days, year using year_of.induct with
  | case1 days year h ih =>
    rw [year_of, if_pos h, ih, calendar.year_start_succ, ← days_in_eq]
    omega
  | case2 days year h => rw [year_of, if_neg h]

theorem year_of_le (days year : Nat) : year ≤ (year_of days year).1 := by
  induction days, year using year_of.induct with
  | case1 days year h ih =>
    rw [year_of, if_pos h]
    exact Nat.le_of_succ_le ih
  | case2 days year h =>
    rw [year_of, if_neg h]

/-- From a month on, the loop finds the month of a day and the days before it. -/
theorem month_of.spec (year : Nat) {ls : List Nat} (month days : Nat) (h : days < ls.sum)
    (hls : ls = (lengths year).drop month) :
    (month_of ls month days h).1 < 12 ∧
    (month_of ls month days h).2 < calendar.month_length year ((month_of ls month days h).1 + 1) ∧
    calendar.month_start year ((month_of ls month days h).1 + 1) + (month_of ls month days h).2 =
      calendar.month_start year (month + 1) + days := by
  induction ls generalizing month days with
  | nil => exact absurd h (Nat.not_lt_zero _)
  | cons length ls ih =>
    have hlt : month < (lengths year).length := by
      by_contra hge
      rw [List.drop_of_length_le (Nat.le_of_not_lt hge)] at hls
      cases hls
    rw [List.drop_eq_getElem_cons hlt] at hls
    obtain ⟨hlength, hrest⟩ := List.cons.inj hls
    have hlength : length = calendar.month_length year (month + 1) := by
      rw [hlength]
      simp [lengths_eq]
    unfold month_of
    split
    · rename_i hle
      have hsucc := calendar.month_start_succ year (Nat.le_add_left 1 month)
      obtain ⟨h12, hday, hsum⟩ := ih (month + 1) (days - length)
        (by rw [List.sum_cons] at h; omega) hrest
      refine ⟨h12, hday, ?_⟩
      rw [hsum]
      omega
    · rename_i hle
      exact ⟨hlt, by dsimp only; omega, rfl⟩

theorem date_of.spec (seconds : Nat) :
    (date_of seconds).2.1 < 12 ∧
    (date_of seconds).2.2 <
      calendar.month_length (date_of seconds).1 ((date_of seconds).2.1 + 1) ∧
    calendar.year_start (date_of seconds).1 +
        calendar.month_start (date_of seconds).1 ((date_of seconds).2.1 + 1) +
        (date_of seconds).2.2 =
      calendar.year_start 1970 + seconds / 86400 := by
  have hyear := year_of.spec (seconds / 86400) 1970
  have hlt := year_of_lt (seconds / 86400) 1970
  rw [← sum_lengths] at hlt
  obtain ⟨h12, hday, hsum⟩ := month_of.spec (year_of (seconds / 86400) 1970).1 0 _ hlt rfl
  refine ⟨h12, hday, ?_⟩
  have hfirst : calendar.month_start (year_of (seconds / 86400) 1970).1 (0 + 1) = 0 := rfl
  rw [hfirst] at hsum
  unfold date_of
  dsimp only
  omega

/-- The moment that `utc` writes. -/
def moment_of (seconds : Nat) : calendar.Moment where
  date :=
    { year := (date_of seconds).1
      month := (date_of seconds).2.1 + 1
      day := (date_of seconds).2.2 + 1
      month_mem := ⟨Nat.le_add_left 1 _, (date_of.spec seconds).1⟩
      day_mem := ⟨Nat.le_add_left 1 _, (date_of.spec seconds).2.1⟩ }
  hour := seconds % 86400 / 3600
  minute := seconds % 3600 / 60
  second := seconds % 60
  hour_lt := by omega
  minute_lt := by omega
  second_lt := Nat.mod_lt _ (by decide)

/-- The loops find the moment that the calendar counts to. -/
theorem moment_of_eq (seconds : Nat) : moment_of seconds = calendar.at_second seconds := by
  obtain ⟨-, -, hsum⟩ := date_of.spec seconds
  apply calendar.eq_at_second
  simp only [moment_of, calendar.Moment.number, calendar.Date.number, calendar.epoch,
    calendar.month_start, Nat.add_sub_cancel]
  omega

/-! ## The text of a moment -/

/-- A moment as `utc` writes it. -/
def stamp (m : calendar.Moment) : List Char :=
  padded 4 m.date.year ++ (padded 2 m.date.month ++ (padded 2 m.date.day ++
    ('T' :: (padded 2 m.hour ++ (padded 2 m.minute ++ (padded 2 m.second ++ ['Z']))))))

theorem utc_eq (seconds : Nat) : utc seconds false = stamp (calendar.at_second seconds) := by
  rw [← moment_of_eq]
  simp [utc, stamp, moment_of, List.append_assoc]

/-- The year has four digits. -/
def Written (m : calendar.Moment) : Prop := m.date.year < 10000

theorem two_digits {n : Nat} (h : n < 100) : (padded 2 n).length = 2 :=
  padded_length (by decide) h

theorem month_lt (d : calendar.Date) : d.month < 100 := by
  have := d.month_mem
  omega

theorem day_lt (d : calendar.Date) : d.day < 100 := by
  have := d.day_mem
  have := calendar.month_length_lt d.year d.month
  omega

/-- Padded numbers before the rest of two texts decide first. -/
theorem padded_append_lt_iff {width m n : Nat} {a b : List Char} (hpos : 0 < width)
    (hm : m < 10 ^ width) (hn : n < 10 ^ width) :
    padded width m ++ a < padded width n ++ b ↔ m < n ∨ m = n ∧ a < b := by
  rw [append_lt_append_iff ((padded_length hpos hm).trans (padded_length hpos hn).symm),
    padded_lt_iff hpos hm hn]
  have hinj : padded width m = padded width n ↔ m = n := ⟨padded_inj, fun h => h ▸ rfl⟩
  rw [hinj]

theorem stamp_lt_iff {a b : calendar.Moment} (ha : Written a) (hb : Written b) :
    stamp a < stamp b ↔ a.Before b := by
  unfold stamp calendar.Moment.Before calendar.Date.Before
  have h2 : ∀ m : calendar.Moment, m.hour < 10 ^ 2 ∧ m.minute < 10 ^ 2 ∧ m.second < 10 ^ 2 := by
    intro m
    have := m.hour_lt
    have := m.minute_lt
    have := m.second_lt
    omega
  rw [padded_append_lt_iff (by decide) ha hb,
    padded_append_lt_iff (by decide) (month_lt _) (month_lt _),
    padded_append_lt_iff (by decide) (day_lt _) (day_lt _), List.cons_lt_cons_self,
    padded_append_lt_iff (by decide) (h2 a).1 (h2 b).1,
    padded_append_lt_iff (by decide) (h2 a).2.1 (h2 b).2.1,
    padded_append_lt_iff (by decide) (h2 a).2.2 (h2 b).2.2, calendar.Date.ext_iff]
  simp only [List.lt_irrefl, and_false, or_false]
  tauto

/-! ## The check of a stamp -/

theorem drop_eq_slice_append (s : List Char) {a b : Nat} (h : a ≤ b) :
    s.drop a = slice s a b ++ s.drop b := by
  obtain ⟨n, rfl⟩ := Nat.exists_eq_add_of_le h
  unfold slice
  rw [List.drop_take, Nat.add_sub_cancel_left, ← List.drop_drop, List.take_append_drop]

theorem slice_length {s : List Char} {a b : Nat} (h : b ≤ s.length) :
    (slice s a b).length = b - a := by
  unfold slice
  rw [List.length_drop, List.length_take, Nat.min_eq_left h]

/-- Digits of a text are those of their number. -/
theorem padded_slice {s : List Char} {a b w : Nat} (hb : b ≤ s.length) (hab : a + w = b)
    (hw : 0 < w) (h : Digits (slice s a b)) : padded w (number (slice s a b)) = slice s a b := by
  have hlen : (slice s a b).length = w := by
    rw [slice_length hb]
    omega
  have hne : slice s a b ≠ [] := List.length_pos_iff.mp (hlen ▸ hw)
  have hnum := padded_number h hne
  rwa [hlen] at hnum

theorem mem_slice {s : List Char} {a b : Nat} {c : Char} :
    c ∈ slice s a b ↔ ∃ i, a ≤ i ∧ i < b ∧ s[i]? = some c := by
  unfold slice
  rw [List.mem_iff_getElem?]
  constructor
  · rintro ⟨i, hi⟩
    rw [List.getElem?_drop, List.getElem?_take] at hi
    split at hi
    · exact ⟨a + i, Nat.le_add_right a i, ‹_›, hi⟩
    · cases hi
  · rintro ⟨i, ha, hb, hi⟩
    refine ⟨i - a, ?_⟩
    rw [List.getElem?_drop, Nat.add_sub_cancel' ha, List.getElem?_take_of_lt hb, hi]

theorem slice_subset {s : List Char} {a b c d : Nat} (h : a ≤ c) (h' : d ≤ b) :
    slice s c d ⊆ slice s a b := by
  intro x hx
  obtain ⟨i, hc, hd, hi⟩ := mem_slice.mp hx
  exact mem_slice.mpr ⟨i, h.trans hc, hd.trans_le h', hi⟩

theorem lengths_getD {year month : Nat} (h : 1 ≤ month ∧ month ≤ 12) :
    (lengths year).getD (month - 1) 0 = calendar.month_length year month := by
  have hlt : month - 1 < 12 := by omega
  rw [lengths_eq, List.getD_eq_getElem _ _ (by simpa using hlt)]
  simp only [List.getElem_map, List.getElem_range, Nat.sub_add_cancel h.1]

/-- What is accepted is a stamp. -/
theorem of_valid_stamp {s : List Char} (h : valid_stamp s = true) :
    ∃ m : calendar.Moment, 1970 ≤ m.date.year ∧ Written m ∧ s = stamp m := by
  unfold valid_stamp at h
  split at h
  · cases h
  rename_i hform
  simp only [not_or, not_not] at hform
  obtain ⟨-, hlen, hT, hZ, hdigits⟩ := hform
  rw [List.all_append, Bool.and_eq_true, List.all_eq_true, List.all_eq_true] at hdigits
  obtain ⟨hdate, htime⟩ := hdigits
  obtain ⟨hyear, hmonth, hday1, hday, hhour, hminute, hsecond⟩ := of_decide_eq_true h
  have hdate : ∀ {a b}, b ≤ 8 → Digits (slice s a b) := fun hb c hc =>
    hdate c (slice_subset (Nat.zero_le _) hb hc)
  have htime : ∀ {a b}, 9 ≤ a → b ≤ 15 → Digits (slice s a b) := fun ha hb c hc =>
    htime c (slice_subset ha hb hc)
  rw [lengths_getD hmonth] at hday
  have hyear_lt : number (slice s 0 4) < 10 ^ 4 := by
    have := number_lt_pow (hdate (a := 0) (b := 4) (by decide))
    rwa [slice_length (by omega)] at this
  refine ⟨⟨⟨_, _, _, hmonth, hday1, hday⟩, _, _, _, hhour, hminute, hsecond⟩, hyear, hyear_lt, ?_⟩
  unfold stamp
  dsimp only
  have hle : ∀ {b}, b ≤ 16 → b ≤ s.length := fun hb => hlen ▸ hb
  rw [padded_slice (hle (by decide)) rfl (by decide) (hdate (by decide)),
    padded_slice (hle (by decide)) rfl (by decide) (hdate (by decide)),
    padded_slice (hle (by decide)) rfl (by decide) (hdate (by decide)),
    padded_slice (hle (by decide)) rfl (by decide) (htime (by decide) (by decide)),
    padded_slice (hle (by decide)) rfl (by decide) (htime (by decide) (by decide)),
    padded_slice (hle (by decide)) rfl (by decide) (htime (by decide) (by decide)),
    ← hZ, ← drop_eq_slice_append s (by decide), ← drop_eq_slice_append s (by decide),
    ← drop_eq_slice_append s (by decide), ← List.singleton_append, ← hT,
    ← drop_eq_slice_append s (by decide), ← drop_eq_slice_append s (by decide),
    ← drop_eq_slice_append s (by decide), ← drop_eq_slice_append s (by decide), List.drop_zero]

/-- A stamp is digits and the letters `T` and `Z`. -/
theorem of_mem_stamp {m : calendar.Moment} {c : Char} (h : c ∈ stamp m) :
    c.isDigit ∨ c = 'T' ∨ c = 'Z' := by
  unfold stamp at h
  simp only [List.mem_append, List.mem_cons, List.not_mem_nil, or_false] at h
  rcases h with h | h | h | rfl | h | h | h | rfl
  · exact .inl (padded_digits _ _ c h)
  · exact .inl (padded_digits _ _ c h)
  · exact .inl (padded_digits _ _ c h)
  · exact .inr (.inl rfl)
  · exact .inl (padded_digits _ _ c h)
  · exact .inl (padded_digits _ _ c h)
  · exact .inl (padded_digits _ _ c h)
  · exact .inr (.inr rfl)

theorem digits_ascii {ds : List Char} (h : Digits ds) : ds.all fun c => c.toNat < 128 := by
  rw [List.all_eq_true]
  intro c hc
  have := Char.isDigit_iff_toNat.mp (h c hc)
  simp only [Char.reduceToNat] at this
  exact decide_eq_true (by omega)

/-- Every stamp from 1970 on is accepted. -/
theorem valid_stamp_stamp {m : calendar.Moment} (h1970 : 1970 ≤ m.date.year) (h : Written m) :
    valid_stamp (stamp m) = true := by
  obtain ⟨y1, y2, y3, y4, hy⟩ := List.length_eq_four.mp (padded_length (w := 4) (by decide) h)
  obtain ⟨m1, m2, hm⟩ := List.length_eq_two.mp (two_digits (month_lt m.date))
  obtain ⟨d1, d2, hd⟩ := List.length_eq_two.mp (two_digits (day_lt m.date))
  obtain ⟨h1, h2, hh⟩ := List.length_eq_two.mp (two_digits (m.hour_lt.trans (by decide)))
  obtain ⟨n1, n2, hn⟩ := List.length_eq_two.mp (two_digits (m.minute_lt.trans (by decide)))
  obtain ⟨s1, s2, hs⟩ := List.length_eq_two.mp (two_digits (m.second_lt.trans (by decide)))
  have hdate : Digits ([y1, y2, y3, y4] ++ ([m1, m2] ++ [d1, d2])) := by
    rw [← hy, ← hm, ← hd]
    exact List.forall_mem_append.mpr ⟨padded_digits _ _,
      List.forall_mem_append.mpr ⟨padded_digits _ _, padded_digits _ _⟩⟩
  have htime : Digits ([h1, h2] ++ ([n1, n2] ++ [s1, s2])) := by
    rw [← hh, ← hn, ← hs]
    exact List.forall_mem_append.mpr ⟨padded_digits _ _,
      List.forall_mem_append.mpr ⟨padded_digits _ _, padded_digits _ _⟩⟩
  have hstamp : stamp m =
      [y1, y2, y3, y4, m1, m2, d1, d2, 'T', h1, h2, n1, n2, s1, s2, 'Z'] := by
    unfold stamp
    rw [hy, hm, hd, hh, hn, hs]
    rfl
  have hall : Digits ([y1, y2, y3, y4, m1, m2, d1, d2] ++ [h1, h2, n1, n2, s1, s2]) :=
    List.forall_mem_append.mpr ⟨hdate, htime⟩
  have hascii : (stamp m).all (fun c => c.toNat < 128) = true := by
    have hd := digits_ascii hdate
    have ht := digits_ascii htime
    rw [hstamp]
    simp only [List.all_cons, List.all_nil, Bool.and_true, List.cons_append, List.nil_append,
      Bool.and_eq_true] at *
    tauto
  unfold valid_stamp
  rw [if_neg]
  · have hyear := number_padded 4 m.date.year
    have hmonth := number_padded 2 m.date.month
    have hday := number_padded 2 m.date.day
    have hhour := number_padded 2 m.hour
    have hminute := number_padded 2 m.minute
    have hsecond := number_padded 2 m.second
    rw [hy] at hyear
    rw [hm] at hmonth
    rw [hd] at hday
    rw [hh] at hhour
    rw [hn] at hminute
    rw [hs] at hsecond
    rw [hstamp]
    refine decide_eq_true ?_
    simp only [slice, List.take_succ_cons, List.take_zero, List.drop_succ_cons, List.drop_zero]
    rw [hyear, hmonth, hday, hhour, hminute, hsecond, lengths_getD m.date.month_mem]
    exact ⟨h1970, m.date.month_mem, m.date.day_mem.1, m.date.day_mem.2, m.hour_lt, m.minute_lt,
      m.second_lt⟩
  · simp only [not_or, not_not]
    refine ⟨hascii, ?_⟩
    rw [hstamp]
    exact ⟨rfl, rfl, rfl, List.all_eq_true.mpr hall⟩

theorem valid_stamp_iff (s : List Char) : valid_stamp s = true ↔
    ∃ m : calendar.Moment, 1970 ≤ m.date.year ∧ Written m ∧ s = stamp m := by
  refine ⟨of_valid_stamp, ?_⟩
  rintro ⟨m, hyear, hwritten, rfl⟩
  exact valid_stamp_stamp hyear hwritten

example : valid_stamp "20240229T235959Z".toList = true ∧
    valid_stamp "20230229T000000Z".toList = false := by decide

/-! ## The law of the stamps -/

theorem year_at_second (seconds : Nat) : 1970 ≤ (calendar.at_second seconds).date.year := by
  rw [← moment_of_eq]
  exact year_of_le _ _

theorem stamp_injective {a b : calendar.Moment} (h : stamp a = stamp b) : a = b := by
  have hlen : ∀ (m : calendar.Moment), (padded 2 m.date.month ++ (padded 2 m.date.day ++
      ('T' :: (padded 2 m.hour ++ (padded 2 m.minute ++ (padded 2 m.second ++ ['Z'])))))).length =
        12 := by
    intro m
    have h2 := two_digits (m.hour_lt.trans (by decide))
    have h3 := two_digits (m.minute_lt.trans (by decide))
    have h4 := two_digits (m.second_lt.trans (by decide))
    simp only [List.length_append, List.length_cons, List.length_nil, h2, h3, h4,
      two_digits (month_lt m.date), two_digits (day_lt m.date)]
  obtain ⟨hy, h⟩ := List.append_inj' h ((hlen a).trans (hlen b).symm)
  have hm := List.append_inj h
    ((two_digits (month_lt a.date)).trans (two_digits (month_lt b.date)).symm)
  have hd := List.append_inj hm.2
    ((two_digits (day_lt a.date)).trans (two_digits (day_lt b.date)).symm)
  have hh := List.append_inj (List.cons.inj hd.2).2
    ((two_digits (a.hour_lt.trans (by decide))).trans
      (two_digits (b.hour_lt.trans (by decide))).symm)
  have hn := List.append_inj hh.2
    ((two_digits (a.minute_lt.trans (by decide))).trans
      (two_digits (b.minute_lt.trans (by decide))).symm)
  have hs := List.append_cancel_right hn.2
  exact calendar.Moment.ext
    (calendar.Date.ext (padded_inj hy) (padded_inj hm.1) (padded_inj hd.1))
    (padded_inj hh.1) (padded_inj hn.1) (padded_inj hs)

theorem written_of_valid {seconds : Nat} (h : valid_stamp (utc seconds false) = true) :
    Written (calendar.at_second seconds) := by
  obtain ⟨m, -, hwritten, heq⟩ := of_valid_stamp h
  rw [utc_eq] at heq
  exact stamp_injective heq ▸ hwritten

theorem utc_lt_iff {a b : Nat} (ha : Written (calendar.at_second a))
    (hb : Written (calendar.at_second b)) : utc a false < utc b false ↔ a < b := by
  rw [utc_eq, utc_eq, stamp_lt_iff ha hb, calendar.at_second_before_iff]

theorem written_before {a b : Nat} (h : a < b) (hb : Written (calendar.at_second b)) :
    Written (calendar.at_second a) := by
  rcases calendar.at_second_before_iff.mpr h with (hyear | ⟨hyear, -⟩) | ⟨hdate, -⟩
  · exact hyear.trans hb
  · exact hyear.trans_lt hb
  · exact (congrArg calendar.Date.year hdate).trans_lt hb

theorem valid_stamp_utc {seconds : Nat} (h : Written (calendar.at_second seconds)) :
    valid_stamp (utc seconds false) = true := by
  rw [utc_eq]
  exact valid_stamp_stamp (year_at_second seconds) h

/-- A stamp before the text of any number of seconds is of an earlier second. -/
theorem lt_of_utc_lt {a b : Nat} (ha : valid_stamp (utc a false) = true)
    (h : utc a false < utc b false) : a < b := by
  have hwritten := written_of_valid ha
  by_cases hb : Written (calendar.at_second b)
  · exact (utc_lt_iff hwritten hb).mp h
  · -- the text of a later year is longer
    rw [← calendar.at_second_before_iff]
    exact .inl (.inl (Nat.lt_of_lt_of_le hwritten (Nat.le_of_not_lt hb)))

/-- Before the year 10000, `utc` writes the date and time that the calendar counts to,
`valid_stamp` accepts what `utc` writes and nothing else, and the order of the texts is the
order of the seconds. -/
theorem stamps_are_a_calendar :
    (∀ seconds, Written (calendar.at_second seconds) →
      utc seconds false = stamp (calendar.at_second seconds)) ∧
    (∀ s, valid_stamp s = true ↔
      ∃ seconds, Written (calendar.at_second seconds) ∧ s = utc seconds false) ∧
    (∀ a b, Written (calendar.at_second a) → Written (calendar.at_second b) →
      (utc a false = utc b false → a = b) ∧ (utc a false < utc b false ↔ a < b)) := by
  refine ⟨fun seconds _ => utc_eq seconds, fun s => ?_, fun a b ha hb => ?_⟩
  · rw [valid_stamp_iff]
    constructor
    · rintro ⟨m, hyear, hwritten, rfl⟩
      obtain ⟨seconds, rfl⟩ := calendar.exists_at_second hyear
      exact ⟨seconds, hwritten, (utc_eq seconds).symm⟩
    · rintro ⟨seconds, hwritten, rfl⟩
      exact ⟨_, year_at_second seconds, hwritten, utc_eq seconds⟩
  · refine ⟨fun heq => ?_, utc_lt_iff ha hb⟩
    rcases Nat.lt_trichotomy a b with h | h | h
    · have hlt := (utc_lt_iff ha hb).mpr h
      rw [heq] at hlt
      exact absurd hlt (List.lt_irrefl _)
    · exact h
    · have hlt := (utc_lt_iff hb ha).mpr h
      rw [heq] at hlt
      exact absurd hlt (List.lt_irrefl _)

end stutools.cctv
