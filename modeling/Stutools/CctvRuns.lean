-- The laws of the camera statistics: over every run of calls in the order of their times,
-- what the writer has reported and what the store holds is every sample, each once.
import Stutools.CctvStats

open buckets

namespace stutools.cctv

/-! ## What the rows should hold -/

def minute_key (x : ℚ × Sample) : Nat := minute_of x.1

/-- The samples of one minute, merged. -/
def in_minute (xs : List (ℚ × Sample)) (i : Nat) : Sample :=
  ((bucket minute_key i xs).map Prod.snd).sum

/-- The first `n` minutes, as far as they are of one hour, merged. -/
def in_hour (xs : List (ℚ × Sample)) (n h : Nat) : Sample :=
  ((bucket (· / 60) h (List.range n)).map (in_minute xs)).sum

section hours

variable (xs : List (ℚ × Sample))

theorem in_hour_succ (n : Nat) : in_hour xs (n + 1) (n / 60) = in_hour xs n (n / 60) + in_minute xs n := by
  unfold in_hour
  rw [List.range_succ, bucket_append, @bucket_single _ (fun i => i / 60) n]
  simp

theorem in_hour_other {n h : Nat} (hne : n / 60 ≠ h) : in_hour xs (n + 1) h = in_hour xs n h := by
  unfold in_hour
  rw [List.range_succ, bucket_append, @bucket_eq_nil _ (fun i => i / 60) h [n] (by simpa using hne)]
  simp

theorem in_hour_new {n h : Nat} (hle : n ≤ h * 60) : in_hour xs n h = 0 := by
  unfold in_hour
  rw [bucket_eq_nil]
  · rfl
  · intro i hi
    have := List.mem_range.mp hi
    omega

end hours

theorem in_minute_append {xs : List (ℚ × Sample)} {x : ℚ × Sample} {i : Nat} (hne : minute_key x ≠ i) :
    in_minute (xs ++ [x]) i = in_minute xs i := by
  unfold in_minute
  rw [bucket_append, @bucket_eq_nil _ minute_key i [x] (by simpa using hne), List.append_nil]

theorem in_minute_last (xs : List (ℚ × Sample)) (x : ℚ × Sample) :
    in_minute (xs ++ [x]) (minute_key x) = in_minute xs (minute_key x) + x.2 := by
  unfold in_minute
  rw [bucket_append, bucket_single]
  simp

theorem in_minute_none {xs : List (ℚ × Sample)} {i : Nat} (h : ∀ x ∈ xs, minute_key x ≠ i) :
    in_minute xs i = 0 := by
  unfold in_minute
  rw [bucket_eq_nil h]
  rfl

/-! ## The store -/

namespace MetricsStore

variable {s : MetricsStore}

/-- What is taken is what the slot of the minute holds for it. -/
theorem take_eq (s : MetricsStore) (i : Nat) :
    (s.take i).1 = ((s.slots (slot_of i)).filter fun slot => slot.1 = i).elim 0 Prod.snd := by
  unfold take
  cases s.slots (slot_of i) with
  | none => rfl
  | some slot =>
    obtain ⟨id, m⟩ := slot
    by_cases hid : id = i <;> simp [hid, Option.filter]

theorem take_held {i : Nat} {m : Sample} (h : s.slots (slot_of i) = some (i, m)) : (s.take i).1 = m := by
  simp [take_eq, h, Option.filter]

theorem take_none {i : Nat} (h : ∀ m, s.slots (slot_of i) ≠ some (i, m)) : (s.take i).1 = 0 := by
  rw [take_eq]
  cases hs : s.slots (slot_of i) with
  | none => rfl
  | some slot =>
    obtain ⟨id, m⟩ := slot
    have hne : id ≠ i := fun heq => h m (heq ▸ hs)
    simp [Option.filter, hne]

/-- Taking one minute leaves the others. -/
theorem take_other {i j : Nat} (hne : j ≠ i) : ((s.take i).2.take j).1 = (s.take j).1 := by
  rw [take_eq, take_eq]
  have hslots : ((s.take i).2.slots (slot_of j)).filter (fun slot => slot.1 = j) =
      (s.slots (slot_of j)).filter fun slot => slot.1 = j := by
    unfold take
    cases hs : s.slots (slot_of i) with
    | none => rfl
    | some slot =>
      obtain ⟨id, m⟩ := slot
      by_cases hid : id = i
      · by_cases hslot : slot_of j = slot_of i
        · simp [hid, hslot, hs, Option.filter, Ne.symm hne]
        · simp [hid, Function.update_of_ne hslot]
      · simp [hid]
  rw [hslots]

end MetricsStore

/-! ## The writer -/

/-- A whole minute and a whole hour. -/
def minute_row (xs : List (ℚ × Sample)) (i : Nat) : Row := Row.mk i (i * 60) 60 true (in_minute xs i)

def hour_row (xs : List (ℚ × Sample)) (n h : Nat) : Row := Row.mk h (h * 3600) 3600 true (in_hour xs n h)

/-- Every minute so far has its row, and every hour that is over; the rest of an hour is at
hand, and so are the minutes up to a limit. -/
structure Reported (xs : List (ℚ × Sample)) (limit : Nat) (w : Writer) : Prop where
  minutes : w.minutes = (List.range w.periods.minute).map (minute_row xs)
  hour : w.periods.hour = w.periods.minute / 60
  hours : w.hours = (List.range (w.periods.minute / 60)).map (hour_row xs w.periods.minute)
  hour_metrics : w.periods.hour_metrics = in_hour xs w.periods.minute (w.periods.minute / 60)
  takes : ∀ i, w.periods.minute ≤ i → i < limit → (w.snapshot.take i).1 = in_minute xs i

section writer

variable {xs : List (ℚ × Sample)} {limit : Nat} {w : Writer}

/-- The hours that are over are the same with one minute more. -/
theorem hour_rows_succ (xs : List (ℚ × Sample)) (n : Nat) :
    (List.range (n / 60)).map (hour_row xs (n + 1)) = (List.range (n / 60)).map (hour_row xs n) := by
  refine List.map_congr_left fun h hh => ?_
  have := List.mem_range.mp hh
  unfold hour_row
  rw [in_hour_other xs (by omega)]

theorem Reported.turn (h : Reported xs limit w) (hlt : w.periods.minute < limit) :
    Reported xs limit w.turn := by
  have htake := h.takes _ (Nat.le_refl _) hlt
  have hothers : ∀ i, w.periods.minute + 1 ≤ i → i < limit →
      ((w.snapshot.take w.periods.minute).2.take i).1 = in_minute xs i := fun i hi hilt => by
    rw [MetricsStore.take_other (by omega)]
    exact h.takes i (by omega) hilt
  have hminutes : w.minutes ++ [minute_row xs w.periods.minute] =
      (List.range (w.periods.minute + 1)).map (minute_row xs) := by
    rw [h.minutes, List.range_succ, List.map_append]
    rfl
  have hmetrics : w.periods.hour_metrics + in_minute xs w.periods.minute =
      in_hour xs (w.periods.minute + 1) (w.periods.minute / 60) := by
    rw [h.hour_metrics, in_hour_succ]
  unfold Writer.turn
  dsimp only
  rw [htake]
  by_cases hend : (w.periods.minute + 1) % 60 = 0
  · rw [if_pos hend]
    have hnext : (w.periods.minute + 1) / 60 = w.periods.minute / 60 + 1 := by omega
    refine ⟨hminutes, ?_, ?_, ?_, hothers⟩
    · show w.periods.hour + 1 = _
      rw [h.hour, hnext]
    · show w.hours ++ [_] = _
      rw [hnext, List.range_succ, List.map_append, hour_rows_succ, h.hours, h.hour, hmetrics]
      rfl
    · exact (in_hour_new xs (by show w.periods.minute + 1 ≤ (w.periods.minute + 1) / 60 * 60; omega)).symm
  · rw [if_neg hend]
    have hsame : (w.periods.minute + 1) / 60 = w.periods.minute / 60 := by omega
    refine ⟨hminutes, ?_, ?_, ?_, hothers⟩
    · show w.periods.hour = _
      rw [h.hour, hsame]
    · show w.hours = _
      rw [hsame, hour_rows_succ, h.hours]
    · show _ + _ = _
      rw [hsame, hmetrics]

/-- The condition of the loop, in minutes. -/
theorem minute_over_iff (elapsed : ℚ) (n : Nat) :
    ((n : ℚ) + 1) * 60 ≤ elapsed ↔ n + 1 ≤ minute_of elapsed := by
  unfold minute_of
  rw [Nat.le_floor_iff' (Nat.succ_ne_zero n), le_div_iff₀ (by norm_num), Nat.cast_succ]

/-- The loop reports every minute that is over. -/
theorem Reported.turns {elapsed : ℚ} (h : Reported xs limit w) (hle : w.periods.minute ≤ minute_of elapsed)
    (hlimit : minute_of elapsed ≤ limit) :
    Reported xs limit (w.turns elapsed) ∧ (w.turns elapsed).periods.minute = minute_of elapsed := by
  fun_induction Writer.turns elapsed w with
  | case1 w hcond ih =>
    have hover := (minute_over_iff elapsed w.periods.minute).mp hcond
    exact ih (h.turn (by omega)) (by rw [Writer.turn_minute]; exact hover)
  | case2 w hcond =>
    rw [minute_over_iff] at hcond
    exact ⟨h, by omega⟩

end writer

/-! ## The run -/

theorem minute_of_mono {a b : ℚ} (h : a ≤ b) : minute_of a ≤ minute_of b := by
  unfold minute_of
  exact Nat.floor_mono (div_le_div_of_nonneg_right h (by norm_num))

/-- After calls up to a time: the samples of each minute that has no row yet are in the
slot of the minute, and nothing else is. -/
structure Inv (xs : List (ℚ × Sample)) (last : ℚ) (s : Cctv) : Prop where
  sorted : xs.Pairwise fun x y => x.1 ≤ y.1
  before : ∀ x ∈ xs, x.1 ≤ last
  minute : s.periods.minute ≤ minute_of last
  held : ∀ x ∈ xs, s.periods.minute ≤ minute_key x →
    s.store.slots (slot_of (minute_key x)) = some (minute_key x, in_minute xs (minute_key x))
  only : ∀ i id m, s.store.slots i = some (id, m) → s.periods.minute ≤ id ∧ ∃ x ∈ xs, minute_key x = id
  reported : Reported xs s.periods.minute
    { periods := s.periods, snapshot := {}, minutes := s.minutes, hours := s.hours }
  total : s.store.total = (xs.map Prod.snd).sum

theorem Inv.start (last : ℚ) : Inv [] last {} := by
  refine ⟨.nil, fun x hx => (by cases hx), Nat.zero_le _, fun x hx => (by cases hx),
    fun i id m h => (by cases h), ⟨rfl, rfl, rfl, rfl, fun i hi hlt => ?_⟩, rfl⟩
  exact absurd hlt (Nat.not_lt.mpr hi)

section run

variable {xs : List (ℚ × Sample)} {last : ℚ} {s : Cctv}

/-- A sample of a minute that has no row leaves the rows as they are. -/
theorem Reported.record {w : Writer} (h : Reported xs w.periods.minute w) {x : ℚ × Sample}
    (hx : w.periods.minute ≤ minute_key x) : Reported (xs ++ [x]) w.periods.minute w := by
  have hminute : ∀ i < w.periods.minute, in_minute (xs ++ [x]) i = in_minute xs i :=
    fun i hi => in_minute_append (by omega)
  have hhour : ∀ k, in_hour (xs ++ [x]) w.periods.minute k = in_hour xs w.periods.minute k := by
    intro k
    unfold in_hour
    congr 1
    refine List.map_congr_left fun i hi => hminute i ?_
    exact List.mem_range.mp (List.mem_filter.mp hi).1
  refine ⟨?_, h.hour, ?_, ?_, fun i hi hlt => absurd hlt (Nat.not_lt.mpr hi)⟩
  · rw [h.minutes]
    refine List.map_congr_left fun i hi => ?_
    unfold minute_row
    rw [hminute i (List.mem_range.mp hi)]
  · rw [h.hours]
    refine List.map_congr_left fun k _ => ?_
    unfold hour_row
    rw [hhour]
  · rw [h.hour_metrics, hhour]

theorem Inv.record {t : ℚ} {v : Sample} {store : MetricsStore} (h : Inv xs last s) (hle : last ≤ t)
    (hok : s.store.record t v = .ok store) : Inv (xs ++ [(t, v)]) t { s with store } := by
  have hminute : s.periods.minute ≤ minute_of t := Nat.le_trans h.minute (minute_of_mono hle)
  unfold MetricsStore.record at hok
  dsimp only at hok
  split_ifs at hok with hother
  obtain rfl := Except.ok.inj hok
  -- the slot is free, or it is the minute's own
  have hown : ∀ id m, s.store.slots (slot_of (minute_of t)) = some (id, m) → id = minute_of t := by
    intro id m hslot
    simpa [hslot] using hother
  have hvalue : (s.store.slots (slot_of (minute_of t))).elim 0 Prod.snd = in_minute xs (minute_of t) := by
    by_cases hsome : ∃ x ∈ xs, minute_key x = minute_of t
    · obtain ⟨x, hx, hkey⟩ := hsome
      have := h.held x hx (by omega)
      rw [hkey] at this
      rw [this]
      rfl
    · rw [in_minute_none fun x hx hkey => hsome ⟨x, hx, hkey⟩]
      cases hslot : s.store.slots (slot_of (minute_of t)) with
      | none => rfl
      | some slot =>
        obtain ⟨id, m⟩ := slot
        obtain ⟨-, x, hx, hkey⟩ := h.only _ id m hslot
        exact absurd ⟨x, hx, hkey.trans (hown id m hslot)⟩ hsome
  have hlast := in_minute_last xs (t, v)
  have hreported := @Reported.record xs
    { periods := s.periods, snapshot := {}, minutes := s.minutes, hours := s.hours } h.reported (t, v) hminute
  refine ⟨?_, ?_, hminute, ?_, ?_, hreported, ?_⟩
  · rw [List.pairwise_append]
    refine ⟨h.sorted, List.pairwise_singleton _ _, fun x hx y hy => ?_⟩
    rw [List.mem_singleton.mp hy]
    exact le_trans (h.before x hx) hle
  · intro x hx
    rcases List.mem_append.mp hx with hx | hx
    · exact le_trans (h.before x hx) hle
    · rw [List.mem_singleton.mp hx]
  · intro x hx hkey
    dsimp only
    by_cases hsame : minute_key x = minute_of t
    · rw [hsame, Function.update_self, hvalue]
      exact congrArg some (Prod.ext rfl hlast.symm)
    · have hx' : x ∈ xs := by
        rcases List.mem_append.mp hx with hx | hx
        · exact hx
        · rw [List.mem_singleton.mp hx] at hsame
          exact absurd rfl hsame
      have hheld := h.held x hx' hkey
      have hslot : slot_of (minute_key x) ≠ slot_of (minute_of t) := by
        intro heq
        rw [heq] at hheld
        exact hsame (hown _ _ hheld)
      have hne : minute_key (t, v) ≠ minute_key x := fun heq => hsame heq.symm
      rw [Function.update_of_ne hslot, hheld, in_minute_append hne]
  · intro i id m hslot
    dsimp only at hslot
    by_cases hi : i = slot_of (minute_of t)
    · rw [hi, Function.update_self] at hslot
      obtain ⟨rfl, -⟩ := Prod.mk.inj (Option.some.inj hslot)
      exact ⟨hminute, (t, v), by simp, rfl⟩
    · rw [Function.update_of_ne hi] at hslot
      obtain ⟨hle', x, hx, hkey⟩ := h.only i id m hslot
      exact ⟨hle', x, by simp [hx], hkey⟩
  · show s.store.total + v = _
    rw [h.total]
    simp

/-- What is drained of a minute that has no row is all of its samples. -/
theorem Inv.drained (h : Inv xs last s) {elapsed : ℚ} {finish : Bool} {i : Nat}
    (hi : s.periods.minute ≤ i) (hdrain : MetricsStore.drains elapsed finish i = true) :
    ((s.store.drain elapsed finish).1.take i).1 = in_minute xs i := by
  by_cases hsome : ∃ x ∈ xs, minute_key x = i
  · obtain ⟨x, hx, rfl⟩ := hsome
    refine MetricsStore.take_held ?_
    show (s.store.slots (slot_of (minute_key x))).filter _ = _
    rw [h.held x hx hi]
    simp [Option.filter, hdrain]
  · rw [in_minute_none fun x hx hkey => hsome ⟨x, hx, hkey⟩]
    refine MetricsStore.take_none fun m hslot => hsome ?_
    obtain ⟨hslot, -⟩ := Option.filter_eq_some_iff.mp hslot
    exact (h.only _ i m hslot).2

/-- The writer, with what is drained, is where it was, and has the minutes up to a limit. -/
theorem Inv.writer (h : Inv xs last s) {elapsed : ℚ} {finish : Bool} {limit : Nat}
    (hdrain : ∀ i < limit, MetricsStore.drains elapsed finish i = true) :
    Reported xs limit
      { periods := s.periods, snapshot := (s.store.drain elapsed finish).1, minutes := s.minutes
        hours := s.hours } :=
  ⟨h.reported.minutes, h.reported.hour, h.reported.hours, h.reported.hour_metrics,
    fun i hi hlt => h.drained hi (hdrain i hlt)⟩

theorem Inv.advance {elapsed : ℚ} (h : Inv xs last s) (hle : last ≤ elapsed) :
    Inv xs elapsed (s.advance elapsed false) := by
  have hminute := Nat.le_trans h.minute (minute_of_mono hle)
  have hwriter := @Inv.writer _ _ _ h elapsed false (minute_of elapsed) fun i hi => by
    simp [MetricsStore.drains, hi]
  obtain ⟨hreported, hnow⟩ := hwriter.turns hminute (Nat.le_refl _)
  have hperiods : (s.advance elapsed false).periods.minute = minute_of elapsed := hnow
  refine ⟨h.sorted, fun x hx => le_trans (h.before x hx) hle, Nat.le_of_eq hperiods, ?_, ?_, ?_, h.total⟩
  · intro x hx hkey
    rw [hperiods] at hkey
    show (s.store.slots (slot_of (minute_key x))).filter _ = _
    rw [h.held x hx (Nat.le_trans hminute hkey)]
    have hnot : ¬minute_key x < minute_of elapsed := Nat.not_lt.mpr hkey
    simp [Option.filter, MetricsStore.drains, hnot]
  · intro i id m hslot
    obtain ⟨hslot, hkeeps⟩ := Option.filter_eq_some_iff.mp hslot
    rw [hperiods]
    refine ⟨?_, (h.only i id m hslot).2⟩
    simpa [MetricsStore.drains] using hkeeps
  · exact ⟨hreported.minutes, hreported.hour, hreported.hours, hreported.hour_metrics,
      fun i hi hlt => absurd hlt (Nat.not_lt.mpr hi)⟩

/-- The calls are in the order of their times, from a time on. -/
def Ordered (last : ℚ) : List Call → Prop
  | [] => True
  | c :: calls => last ≤ c.time ∧ Ordered c.time calls

/-- The time of the last call. -/
def last_time (last : ℚ) (calls : List Call) : ℚ := (calls.map Call.time).getLastD last

theorem last_time_cons (last : ℚ) (c : Call) (calls : List Call) :
    last_time last (c :: calls) = last_time c.time calls := by
  unfold last_time
  rw [List.map_cons]
  cases calls <;> rfl

theorem Ordered.le_last_time {calls : List Call} (h : Ordered last calls) :
    last ≤ last_time last calls := by
  induction calls generalizing last with
  | nil => exact le_refl last
  | cons c calls ih =>
    rw [last_time_cons]
    exact le_trans h.1 (ih h.2)

theorem Inv.run {calls : List Call} {r : Cctv} (h : Inv xs last s) (hordered : Ordered last calls)
    (hrun : s.run calls = .ok r) : Inv (xs ++ samples calls) (last_time last calls) r := by
  induction calls generalizing s xs last with
  | nil =>
    obtain rfl := Except.ok.inj hrun
    show Inv (xs ++ []) last s
    rwa [List.append_nil]
  | cons c calls ih =>
    obtain ⟨hle, hordered⟩ := hordered
    rw [last_time_cons]
    unfold Cctv.run at hrun
    cases c with
    | record t v =>
      cases hok : s.store.record t v with
      | error e => simp [Cctv.step, hok, Except.map] at hrun
      | ok store =>
        simp only [Cctv.step, hok, Except.map] at hrun
        have hnext := ih (h.record hle hok) hordered hrun
        rw [List.append_assoc] at hnext
        exact hnext
    | advance elapsed => exact ih (h.advance hle) hordered hrun

end run

/-! ## The last rows -/

/-- Every sample is in the row of its minute and in that of its hour, once; the rows hold
no more, and add up to the total, whose slowest write is one of the samples. -/
structure Complete (xs : List (ℚ × Sample)) (s : Cctv) : Prop where
  minutes : ∃ n, (s.minutes.map fun r => (r.index, r.metrics)) =
    ((List.range n).map fun i => (i, in_minute xs i)) ∧ ∀ x ∈ xs, minute_key x < n
  hours : ∃ n, (s.hours.map fun r => (r.index, r.metrics)) = ((List.range n).map fun h =>
    (h, ((s.minutes.filter fun r => r.index / 60 = h).map Row.metrics).sum)) ∧
    ∀ x ∈ xs, minute_key x / 60 < n
  minute_total : (s.minutes.map Row.metrics).sum = s.store.total
  hour_total : (s.hours.map Row.metrics).sum = s.store.total
  slowest : 0 < s.store.total.1.writes → ∃ x ∈ xs, 0 < x.2.1.writes ∧
    x.2.1.max_write_ns = s.store.total.1.max_write_ns ∧
    x.2.1.max_write_tag = s.store.total.1.max_write_tag ∧
    ∀ y ∈ xs, y.2.1.max_write_ns ≤ x.2.1.max_write_ns

section finish

variable {xs : List (ℚ × Sample)} {last : ℚ} {s : Cctv}

/-- The rows of the first `n` minutes and of their hours. -/
structure Rows (xs : List (ℚ × Sample)) (n : Nat) (minutes hours : List Row) : Prop where
  minutes : (minutes.map fun r => (r.index, r.metrics)) = (List.range n).map fun i => (i, in_minute xs i)
  hours : (hours.map fun r => (r.index, r.metrics)) =
    (List.range ((n + 59) / 60)).map fun h => (h, in_hour xs n h)

theorem minute_rows_pairs (xs : List (ℚ × Sample)) (n : Nat) :
    (((List.range n).map (minute_row xs)).map fun r => (r.index, r.metrics)) =
      (List.range n).map fun i => (i, in_minute xs i) := by
  rw [List.map_map]
  rfl

theorem hour_rows_pairs (xs : List (ℚ × Sample)) (n k : Nat) :
    (((List.range k).map (hour_row xs n)).map fun r => (r.index, r.metrics)) =
      (List.range k).map fun h => (h, in_hour xs n h) := by
  rw [List.map_map]
  rfl

/-- How many minutes have a row in the end: the last one has none when it has just begun. -/
def rows_until (elapsed : ℚ) : Nat :=
  if Writer.INSTANT < elapsed - minute_of elapsed * 60 then minute_of elapsed + 1
  else minute_of elapsed

theorem rows_until_eq {elapsed : ℚ} (n : Nat) (hn : n = minute_of elapsed) :
    rows_until elapsed = if Writer.INSTANT < elapsed - n * 60 then n + 1 else n := by
  subst hn
  rfl

/-- A minute that has begun has at most a minute behind it. -/
theorem minute_of_le {elapsed : ℚ} (h : 0 ≤ elapsed) : (minute_of elapsed : ℚ) * 60 ≤ elapsed := by
  rw [← le_div_iff₀ (by norm_num)]
  exact Nat.floor_le (div_nonneg h (by norm_num))

theorem INSTANT_lt : Writer.INSTANT < 60 := by
  unfold Writer.INSTANT
  norm_num

/-- An hour has a row in the end when one of its minutes has. -/
theorem hours_until {elapsed : ℚ} (h : 0 ≤ elapsed) : (rows_until elapsed + 59) / 60 =
    if Writer.INSTANT < elapsed - ((minute_of elapsed / 60 : Nat) : ℚ) * 3600 then
      minute_of elapsed / 60 + 1
    else minute_of elapsed / 60 := by
  have hinstant := INSTANT_lt
  have hnow := minute_of_le h
  set n := minute_of elapsed with hn
  rw [rows_until_eq n hn]
  by_cases hfirst : n % 60 = 0
  · -- the minute is the first of its hour: they begin together
    have hbegin : ((n / 60 : Nat) : ℚ) * 3600 = (n : ℚ) * 60 := by
      have : n / 60 * 60 = n := by omega
      have hcast : ((n / 60 : Nat) : ℚ) * 60 = n := by exact_mod_cast this
      rw [← hcast]
      ring
    rw [hbegin]
    split_ifs <;> omega
  · -- a minute of the hour is over
    have hover : n / 60 * 60 + 1 ≤ n := by omega
    have hcast : ((n / 60 : Nat) : ℚ) * 60 + 1 ≤ n := by exact_mod_cast hover
    have hrest : Writer.INSTANT < elapsed - ((n / 60 : Nat) : ℚ) * 3600 := by linarith
    rw [if_pos hrest]
    split_ifs <;> omega

theorem Reported.finish_minute {w : Writer} {elapsed : ℚ} (h : Reported xs (minute_of elapsed + 1) w)
    (hnow : w.periods.minute = minute_of elapsed) :
    (((w.finish_minute elapsed).minutes.map fun r => (r.index, r.metrics)) =
      (List.range (rows_until elapsed)).map fun i => (i, in_minute xs i)) ∧
    (w.finish_minute elapsed).hours = w.hours ∧
    (w.finish_minute elapsed).periods.hour = w.periods.hour ∧
    (w.finish_minute elapsed).periods.hour_metrics =
      in_hour xs (rows_until elapsed) (w.periods.minute / 60) := by
  have htake := h.takes _ (Nat.le_refl _) (by omega)
  rw [rows_until_eq w.periods.minute hnow]
  unfold Writer.finish_minute
  dsimp only
  by_cases hrest : Writer.INSTANT < elapsed - w.periods.minute * 60
  · rw [if_pos hrest, if_pos hrest]
    refine ⟨?_, rfl, rfl, ?_⟩
    · rw [List.map_append, h.minutes, minute_rows_pairs, List.range_succ, List.map_append, htake]
      rfl
    · rw [htake, h.hour_metrics, in_hour_succ]
  · rw [if_neg hrest, if_neg hrest]
    exact ⟨by rw [h.minutes, minute_rows_pairs], rfl, rfl, h.hour_metrics⟩

theorem Reported.finish {w : Writer} {elapsed : ℚ} (h : Reported xs (minute_of elapsed + 1) w)
    (hnow : w.periods.minute = minute_of elapsed) (hpos : 0 ≤ elapsed) :
    Rows xs (rows_until elapsed) ((w.finish_minute elapsed).finish_hour elapsed).minutes
      ((w.finish_minute elapsed).finish_hour elapsed).hours := by
  obtain ⟨hminutes, hhours, hhour, hmetrics⟩ := h.finish_minute hnow
  have hkept : ((w.finish_minute elapsed).finish_hour elapsed).minutes =
      (w.finish_minute elapsed).minutes := by
    unfold Writer.finish_hour
    dsimp only
    split_ifs <;> rfl
  refine ⟨by rw [hkept, hminutes], ?_⟩
  -- the hours that are over are those of the minutes that are
  have hover : (List.range (w.periods.minute / 60)).map (fun k => (k, in_hour xs w.periods.minute k)) =
      (List.range (w.periods.minute / 60)).map fun k => (k, in_hour xs (rows_until elapsed) k) := by
    refine List.map_congr_left fun k hk => ?_
    have := List.mem_range.mp hk
    rw [rows_until_eq w.periods.minute hnow]
    split_ifs
    · rw [in_hour_other xs (by omega)]
    · rfl
  unfold Writer.finish_hour
  dsimp only
  rw [hours_until hpos, ← hnow, hhour, h.hour]
  by_cases hrest : Writer.INSTANT < elapsed - ((w.periods.minute / 60 : Nat) : ℚ) * 3600
  · rw [if_pos hrest, if_pos hrest, List.map_append, hhours, h.hours, hour_rows_pairs, hover,
      List.range_succ, List.map_append, hmetrics]
    rfl
  · rw [if_neg hrest, if_neg hrest, hhours, h.hours, hour_rows_pairs, hover]

theorem Inv.finish {elapsed : ℚ} (h : Inv xs last s) (hle : last ≤ elapsed) (hpos : 0 ≤ elapsed) :
    Rows xs (rows_until elapsed) (s.advance elapsed true).minutes (s.advance elapsed true).hours := by
  have hminute := Nat.le_trans h.minute (minute_of_mono hle)
  have hwriter := @Inv.writer _ _ _ h elapsed true (minute_of elapsed + 1) fun i hi => by
    rcases Nat.lt_or_ge i (minute_of elapsed) with hlt | hge
    · simp [MetricsStore.drains, hlt]
    · have heq : i = minute_of elapsed := by omega
      simp [MetricsStore.drains, heq]
  obtain ⟨hreported, hnow⟩ := hwriter.turns hminute (Nat.le_succ _)
  exact hreported.finish hnow hpos

/-! ## Every sample has its rows -/

/-- The buckets of the sixties cover what is below. -/
theorem sum_hours (xs : List (ℚ × Sample)) (n : Nat) :
    ((List.range ((n + 59) / 60)).map (in_hour xs n)).sum = ((List.range n).map (in_minute xs)).sum := by
  refine @sum_bucket _ (· / 60) _ _ (in_minute xs) _ _ ?_ ?_
  · exact List.pairwise_lt_range.imp fun hlt => Nat.div_le_div_right (Nat.le_of_lt hlt)
  · intro i hi
    have := List.mem_range.mp hi
    show i / 60 < _
    omega

theorem sum_minutes {n : Nat} (hsorted : xs.Pairwise fun x y => x.1 ≤ y.1)
    (hlt : ∀ x ∈ xs, minute_key x < n) : ((List.range n).map (in_minute xs)).sum = (xs.map Prod.snd).sum :=
  sum_bucket Prod.snd (hsorted.imp fun hle => minute_of_mono hle) hlt

/-- The minutes of an hour, among the rows. -/
theorem Rows.in_hour {n : Nat} {minutes hours : List Row} (h : Rows xs n minutes hours) (k : Nat) :
    ((minutes.filter fun r => r.index / 60 = k).map Row.metrics).sum = in_hour xs n k := by
  have hpairs := congrArg (fun l : List (Nat × Sample) =>
    ((l.filter fun p => p.1 / 60 = k).map Prod.snd).sum) h.minutes
  rw [List.filter_map, List.filter_map, List.map_map, List.map_map] at hpairs
  exact hpairs

theorem Rows.metrics {n : Nat} {minutes hours : List Row} (h : Rows xs n minutes hours) :
    (minutes.map Row.metrics).sum = ((List.range n).map (in_minute xs)).sum ∧
    (hours.map Row.metrics).sum = ((List.range n).map (in_minute xs)).sum := by
  have hminutes := congrArg (List.map Prod.snd) h.minutes
  have hhours := congrArg (List.map Prod.snd) h.hours
  rw [List.map_map, List.map_map] at hminutes hhours
  refine ⟨congrArg List.sum hminutes, ?_⟩
  rw [← sum_hours]
  exact congrArg List.sum hhours

theorem Rows.complete {n : Nat} {r : Cctv} (h : Rows xs n r.minutes r.hours)
    (hsorted : xs.Pairwise fun x y => x.1 ≤ y.1) (htotal : r.store.total = (xs.map Prod.snd).sum)
    (hlt : ∀ x ∈ xs, minute_key x < n) : Complete xs r := by
  have hsum := sum_minutes hsorted hlt
  refine ⟨⟨n, h.minutes, hlt⟩, ⟨(n + 59) / 60, ?_, ?_⟩, ?_, ?_, ?_⟩
  · simp only [h.hours, h.in_hour]
  · intro x hx
    have := hlt x hx
    omega
  · rw [h.metrics.1, hsum, htotal]
  · rw [h.metrics.2, hsum, htotal]
  · rw [htotal]
    intro hpos
    obtain ⟨hle, hsome⟩ := slowest_of_sum (xs.map Prod.snd)
    obtain ⟨v, hv, hwrites, hns, htag⟩ := hsome hpos
    obtain ⟨x, hx, rfl⟩ := List.mem_map.mp hv
    exact ⟨x, hx, hwrites, hns, htag, fun y hy => hns ▸ hle _ (List.mem_map_of_mem hy)⟩

theorem Rows.complete_iff {n : Nat} {r : Cctv} (h : Rows xs n r.minutes r.hours)
    (hsorted : xs.Pairwise fun x y => x.1 ≤ y.1) (htotal : r.store.total = (xs.map Prod.snd).sum) :
    Complete xs r ↔ ∀ x ∈ xs, minute_key x < n := by
  refine ⟨fun hcomplete => ?_, h.complete hsorted htotal⟩
  obtain ⟨m, hrows, hlt⟩ := hcomplete.minutes
  have hlength := congrArg List.length (hrows.symm.trans h.minutes)
  rw [List.length_map, List.length_map, List.length_range, List.length_range] at hlength
  exact hlength ▸ hlt

/-- The samples that have a row: all but those of the minute that has just begun. -/
theorem has_row_iff {elapsed : ℚ} (hle : ∀ x ∈ xs, x.1 ≤ elapsed) :
    (∀ x ∈ xs, minute_key x < rows_until elapsed) ↔
      Writer.INSTANT < elapsed - minute_of elapsed * 60 ∨
        ∀ x ∈ xs, minute_key x ≠ minute_of elapsed := by
  have hkey : ∀ x ∈ xs, minute_key x ≤ minute_of elapsed := fun x hx => minute_of_mono (hle x hx)
  unfold rows_until
  by_cases hrest : Writer.INSTANT < elapsed - minute_of elapsed * 60
  · rw [if_pos hrest]
    exact ⟨fun _ => .inl hrest, fun _ x hx => Nat.lt_succ_of_le (hkey x hx)⟩
  · rw [if_neg hrest]
    refine ⟨fun hlt => .inr fun x hx => Nat.ne_of_lt (hlt x hx), fun h x hx => ?_⟩
    exact Nat.lt_of_le_of_ne (hkey x hx) (h.resolve_left hrest x hx)

theorem complete_iff {calls : List Call} {elapsed : ℚ} {r : Cctv} (hordered : Ordered 0 calls)
    (hle : last_time 0 calls ≤ elapsed) (hrun : Cctv.run {} calls = .ok r) :
    Complete (samples calls) (r.advance elapsed true) ↔
      Writer.INSTANT < elapsed - minute_of elapsed * 60 ∨
        ∀ x ∈ samples calls, minute_key x ≠ minute_of elapsed := by
  have hinv := (Inv.start 0).run hordered hrun
  rw [List.nil_append] at hinv
  have hpos := le_trans hordered.le_last_time hle
  rw [(hinv.finish hle hpos).complete_iff hinv.sorted hinv.total]
  exact has_row_iff fun x hx => le_trans (hinv.before x hx) hle

end finish

/-! ## No sample is overwritten -/

/-- A sample is refused when another minute holds its slot, and only then; a slot that is
held stays with its minute, and gains what is recorded in it. -/
structure Refuses (s : MetricsStore) (t : ℚ) (v : Sample) : Prop where
  refused : (∃ e, s.record t v = .error e) ↔
    ∃ id m, s.slots (slot_of (minute_of t)) = some (id, m) ∧ id ≠ minute_of t
  kept : ∀ store, s.record t v = .ok store → ∀ i id m, s.slots i = some (id, m) →
    store.slots i = some (id, if i = slot_of (minute_of t) then m + v else m)

theorem MetricsStore.record_refuses (s : MetricsStore) (t : ℚ) (v : Sample) : Refuses s t v := by
  constructor
  · unfold MetricsStore.record
    dsimp only
    cases hslot : s.slots (slot_of (minute_of t)) with
    | none => simp
    | some slot =>
      obtain ⟨id, m⟩ := slot
      by_cases hid : id = minute_of t <;> simp [hid]
  · intro store hok i id m hheld
    unfold MetricsStore.record at hok
    dsimp only at hok
    split_ifs at hok with hother
    obtain rfl := Except.ok.inj hok
    dsimp only
    by_cases hi : i = slot_of (minute_of t)
    · subst hi
      have hid : id = minute_of t := by simpa [hheld] using hother
      rw [Function.update_self, hheld, if_pos rfl, hid]
      rfl
    · rw [Function.update_of_ne hi, hheld, if_neg hi]

/-- A run of the cameras and the writer loses no sample, unless it ends in the instant in
which the minute of one begins: that one is drained and has no row. -/
theorem every_sample_has_its_rows_unless_its_minute_has_just_begun {calls : List Call} {elapsed : ℚ}
    {r : Cctv} (hordered : Ordered 0 calls) (hle : last_time 0 calls ≤ elapsed)
    (hrun : Cctv.run {} calls = .ok r) :
    (Complete (samples calls) (r.advance elapsed true) ↔
      Writer.INSTANT < elapsed - minute_of elapsed * 60 ∨
        ∀ x ∈ samples calls, minute_key x ≠ minute_of elapsed) ∧
    ∀ t v, Refuses r.store t v :=
  ⟨complete_iff hordered hle hrun, r.store.record_refuses⟩

/-- A write of a second. -/
def one_write (sequence : Nat) : Sample :=
  ⟨{ writes := 1, write_ns := 10 ^ 9, max_write_ns := 10 ^ 9, max_write_tag := { sequence } }, by
    intro h
    cases h⟩

theorem minute_of_eq {t : ℚ} {n : Nat} (hle : (n : ℚ) * 60 ≤ t) (hlt : t < (n + 1) * 60) :
    minute_of t = n := by
  have hpos : 0 ≤ t / 60 := div_nonneg (le_trans (by positivity) hle) (by norm_num)
  unfold minute_of
  rw [Nat.floor_eq_iff hpos, le_div_iff₀ (by norm_num), div_lt_iff₀ (by norm_num)]
  exact ⟨hle, hlt⟩

/-- A write in the first minute, its row, and a write in the second, which ends early. -/
def two_minutes : List Call := [.record 1 (one_write 0), .advance 60, .record 61 (one_write 1)]

theorem two_minutes_are_reported :
    ∃ r, Cctv.run {} two_minutes = .ok r ∧ Complete (samples two_minutes) (r.advance 62 true) := by
  have h1 : minute_of 1 = 0 := minute_of_eq (by norm_num) (by norm_num)
  have h60 : minute_of 60 = 1 := minute_of_eq (by norm_num) (by norm_num)
  have h61 : minute_of 61 = 1 := minute_of_eq (by norm_num) (by norm_num)
  have h62 : minute_of 62 = 1 := minute_of_eq (by norm_num) (by norm_num)
  have hrun : ∃ r, Cctv.run {} two_minutes = .ok r := by
    simp [two_minutes, Cctv.run, Cctv.step, Cctv.advance, MetricsStore.record, MetricsStore.drain,
      MetricsStore.drains, Except.map, slot_of, h1, h60, h61]
  obtain ⟨r, hr⟩ := hrun
  have hordered : Ordered 0 two_minutes := by
    simp only [two_minutes, Ordered, Call.time]
    norm_num
  have hlast : last_time 0 two_minutes ≤ 62 := by
    simp only [two_minutes, last_time, List.map_cons, List.map_nil, Call.time, List.getLastD]
    norm_num
  refine ⟨r, hr, (every_sample_has_its_rows_unless_its_minute_has_just_begun hordered hlast hr).1.mpr ?_⟩
  left
  rw [h62, Writer.INSTANT]
  norm_num

/-- A write in the instant that a minute begins and the run ends. -/
def last_instant : List Call := [.record 60 (one_write 0)]

theorem a_write_in_the_last_instant_has_no_row :
    ¬∀ calls elapsed r, Ordered 0 calls → last_time 0 calls ≤ elapsed → Cctv.run {} calls = .ok r →
      Complete (samples calls) (r.advance elapsed true) := by
  intro hall
  have h60 : minute_of 60 = 1 := minute_of_eq (by norm_num) (by norm_num)
  have hordered : Ordered 0 last_instant := by
    simp only [last_instant, Ordered, Call.time]
    norm_num
  have hlast : last_time 0 last_instant ≤ 60 := by
    simp [last_instant, last_time, Call.time]
  have hrun : ∃ r, Cctv.run {} last_instant = .ok r := by
    simp [last_instant, Cctv.run, Cctv.step, MetricsStore.record, Except.map]
  obtain ⟨r, hr⟩ := hrun
  rcases (complete_iff hordered hlast hr).mp (hall _ _ _ hordered hlast hr) with hrest | hnone
  · rw [h60, Writer.INSTANT] at hrest
    norm_num at hrest
  · exact hnone (60, one_write 0) (by simp [last_instant, samples]) rfl

end stutools.cctv
