-- The frames of a camera (src/rust/src/cctv.rs): one is due every period whether or not the
-- writes keep up, one that has waited too long is dropped, and the rest are written in the
-- order in which they were due. Times are exact.
import Mathlib.Algebra.Order.Floor.Semiring
import Mathlib.Algebra.Order.Field.Basic
import Mathlib.Data.List.Basic
import Mathlib.Data.Rat.Floor
import Mathlib.Tactic.Linarith
import Mathlib.Tactic.Ring

namespace stutools.cctv

/-- When a camera generates its frames: the first, and the time between two. -/
structure Clock where
  first : ℚ
  period : ℚ
  period_pos : 0 < period

/-- The frames, counted from 0, by the time they are due. -/
def Clock.frame (c : Clock) (k : Nat) : ℚ := c.first + k * c.period

/-- `due` and `backlog` of `camera`. -/
structure Frames where
  due : ℚ
  backlog : List ℚ

/-- What one pass of the loop finds: the frames that are left, how many were generated, which
ones were dropped, and the one to write. -/
structure Passed where
  frames : Frames
  generated : Nat
  dropped : List ℚ
  fetched : Option ℚ

namespace Frames

/-- `while due <= elapsed`, for so many turns at most. -/
def generate (period elapsed : ℚ) : Nat → Frames → Frames
  | 0, f => f
  | turns + 1, f =>
    if f.due ≤ elapsed then
      generate period elapsed turns { due := f.due + period, backlog := f.backlog ++ [f.due] }
    else f

/-- A bound of the turns. -/
def turns (period elapsed due : ℚ) : Nat := ⌊(elapsed - due) / period⌋₊ + 1

/-- The top of the loop of `camera`: the frames that are due, those that have waited for too
long, and the first of the rest. -/
def pass (c : Clock) (drop_after elapsed : ℚ) (f : Frames) : Passed :=
  let g := f.generate c.period elapsed (turns c.period elapsed f.due)
  let late : ℚ → Bool := fun g => drop_after < elapsed - g
  let rest := g.backlog.dropWhile late
  { frames := { due := g.due, backlog := rest.tail }
    generated := g.backlog.length - f.backlog.length
    dropped := g.backlog.takeWhile late
    fetched := rest.head? }

/-- Before the first pass. -/
def start (c : Clock) : Frames := { due := c.first, backlog := [] }

/-! ## What a pass does -/

/-- The frames from `m` up to `n` wait, and `n` is the next one. -/
structure Waiting (c : Clock) (m n : Nat) (f : Frames) : Prop where
  le : m ≤ n
  due : f.due = c.frame n
  backlog : f.backlog = (List.range' m (n - m)).map c.frame

variable {c : Clock} {drop_after elapsed : ℚ} {f : Frames} {m n : Nat}

theorem frame_succ (c : Clock) (k : Nat) : c.frame (k + 1) = c.frame k + c.period := by
  simp only [Clock.frame, Nat.cast_add, Nat.cast_one]
  ring

theorem Waiting.start (c : Clock) : Waiting c 0 0 (start c) := by
  refine ⟨Nat.le_refl _, ?_, ?_⟩
  · simp [Frames.start, Clock.frame]
  · simp [Frames.start]

/-- One turn makes the next frame wait. -/
theorem Waiting.push (h : Waiting c m n f) :
    Waiting c m (n + 1) { due := f.due + c.period, backlog := f.backlog ++ [f.due] } := by
  refine ⟨Nat.le_succ_of_le h.le, ?_, ?_⟩
  · simp [h.due, frame_succ]
  · have hlen : n + 1 - m = (n - m) + 1 := by have := h.le; omega
    have hlast : m + (n - m) = n := by have := h.le; omega
    simp [hlen, List.range'_concat, h.backlog, h.due, hlast]

theorem generate_waiting (h : Waiting c m n f) (turns : Nat) :
    ∃ n', n ≤ n' ∧ Waiting c m n' (f.generate c.period elapsed turns) ∧
      (∀ k, n ≤ k → k < n' → c.frame k ≤ elapsed) ∧
      (n' = n + turns ∨ elapsed < c.frame n') := by
  induction turns generalizing f n with
  | zero => exact ⟨n, Nat.le_refl _, h, fun k hle hlt => by omega, .inl rfl⟩
  | succ turns ih =>
    unfold generate
    by_cases hdue : f.due ≤ elapsed
    · simp only [hdue, ↓reduceIte]
      obtain ⟨n', hle, hw, hall, hend⟩ := ih h.push
      have hend' : n' = n + (turns + 1) ∨ elapsed < c.frame n' := by
        rcases hend with hend | hend
        · left; omega
        · right; exact hend
      refine ⟨n', by omega, hw, fun k hk hlt => ?_, hend'⟩
      rcases Nat.eq_or_lt_of_le hk with rfl | hk
      · rw [← h.due]
        exact hdue
      · exact hall k hk hlt
    · simp only [hdue, ↓reduceIte]
      refine ⟨n, Nat.le_refl _, h, fun k hle hlt => by omega, .inr ?_⟩
      rw [← h.due]
      exact lt_of_not_ge hdue

/-- The turns suffice. -/
theorem turns_suffice (c : Clock) (elapsed : ℚ) (n : Nat) :
    elapsed < c.frame (n + turns c.period elapsed (c.frame n)) := by
  have hfloor := Nat.lt_floor_add_one ((elapsed - c.frame n) / c.period)
  rw [div_lt_iff₀ c.period_pos] at hfloor
  have heq : c.frame (n + turns c.period elapsed (c.frame n)) =
      c.frame n + (turns c.period elapsed (c.frame n) : ℚ) * c.period := by
    simp only [Clock.frame, Nat.cast_add]
    ring
  rw [heq, turns, Nat.cast_add, Nat.cast_one]
  linarith

/-- All that is due waits, and no more. -/
theorem generate.spec (h : Waiting c m n f) :
    ∃ n', n ≤ n' ∧ Waiting c m n' (f.generate c.period elapsed (turns c.period elapsed f.due)) ∧
      (∀ k, n ≤ k → k < n' → c.frame k ≤ elapsed) ∧ elapsed < c.frame n' := by
  obtain ⟨n', hle, hw, hall, hend⟩ :=
    @generate_waiting c elapsed f m n h (turns c.period elapsed f.due)
  refine ⟨n', hle, hw, hall, ?_⟩
  rcases hend with hend | hend
  · rw [hend, h.due]
    exact turns_suffice c elapsed n
  · exact hend

/-- What a pass over the frames from `m` up to `n` finds, the frames up to `n'` being due:
those before `m'` have waited for too long, and `m'` is the one to write, if it is due. -/
structure Pass (c : Clock) (drop_after elapsed : ℚ) (m n m' n' : Nat) (p : Passed) : Prop where
  le : m ≤ m'
  le' : n ≤ n'
  last : m' ≤ n'
  generated : p.generated = n' - n
  dropped : p.dropped = (List.range' m (m' - m)).map c.frame
  late : ∀ k, m ≤ k → k < m' → drop_after < elapsed - c.frame k
  is_due : ∀ k, n ≤ k → k < n' → c.frame k ≤ elapsed
  not_due : elapsed < c.frame n'
  fetched : p.fetched = if m' < n' then some (c.frame m') else none
  in_time : m' < n' → elapsed - c.frame m' ≤ drop_after
  frames : Waiting c (if m' < n' then m' + 1 else m') n' p.frames

/-- The frames that have waited for too long are the first. -/
theorem late_first (c : Clock) (drop_after elapsed : ℚ) (m k : Nat) : ∃ j ≤ k,
    ((List.range' m k).map c.frame).takeWhile (fun g => drop_after < elapsed - g) =
      (List.range' m j).map c.frame ∧
    ((List.range' m k).map c.frame).dropWhile (fun g => drop_after < elapsed - g) =
      (List.range' (m + j) (k - j)).map c.frame ∧
    (∀ i, m ≤ i → i < m + j → drop_after < elapsed - c.frame i) ∧
    (j < k → elapsed - c.frame (m + j) ≤ drop_after) := by
  induction k generalizing m with
  | zero => exact ⟨0, Nat.le_refl _, by simp, by simp, fun i hi hlt => by omega, fun h => by omega⟩
  | succ k ih =>
    rw [List.range'_succ, List.map_cons]
    by_cases hlate : drop_after < elapsed - c.frame m
    · obtain ⟨j, hj, htake, hdrop, hall, hend⟩ := ih (m + 1)
      refine ⟨j + 1, by omega, ?_, ?_, fun i hi hlt => ?_, fun h => ?_⟩
      · simp [hlate, htake, List.range'_succ]
      · have hstart : m + 1 + j = m + (j + 1) := by omega
        simp [hlate, hdrop, hstart]
      · rcases Nat.eq_or_lt_of_le hi with rfl | hi
        · exact hlate
        · exact hall i hi (by omega)
      · have hstart : m + 1 + j = m + (j + 1) := by omega
        rw [← hstart]
        exact hend (by omega)
    · refine ⟨0, Nat.zero_le _, ?_, ?_, fun i hi hlt => by omega, fun _ => ?_⟩
      · simp [hlate]
      · simp [hlate, List.range'_succ]
      · exact le_of_not_gt hlate

theorem pass.spec (h : Waiting c m n f) :
    ∃ m' n', Pass c drop_after elapsed m n m' n' (f.pass c drop_after elapsed) := by
  obtain ⟨n', hle, hw, hall, hend⟩ := @generate.spec c elapsed f m n h
  obtain ⟨j, hj, htake, hdrop, hlate, hfirst⟩ := late_first c drop_after elapsed m (n' - m)
  have hm := h.le
  have hrest : n' - m - j = n' - (m + j) := by omega
  refine ⟨m + j, n', by omega, hle, by omega, ?_, ?_, hlate, hall, hend, ?_, fun hlt => ?_, ?_⟩
  · simp only [pass, hw.backlog, h.backlog, List.length_map, List.length_range']
    omega
  · simp [pass, hw.backlog, htake]
  · simp only [pass, hw.backlog, hdrop, hrest]
    by_cases hlt : m + j < n'
    · obtain ⟨k, hk⟩ : ∃ k, n' - (m + j) = k + 1 := ⟨n' - (m + j) - 1, by omega⟩
      simp [hlt, hk, List.range'_succ]
    · have hk : n' - (m + j) = 0 := by omega
      simp [hlt, hk]
  · exact hfirst (by omega)
  · by_cases hlt : m + j < n'
    · obtain ⟨k, hk⟩ : ∃ k, n' - (m + j) = k + 1 := ⟨n' - (m + j) - 1, by omega⟩
      have hk' : n' - (m + j + 1) = k := by omega
      refine ⟨?_, hw.due, ?_⟩
      · simp only [hlt, ↓reduceIte]
        omega
      · simp [pass, hw.backlog, hdrop, hrest, hlt, hk, hk', List.range'_succ]
    · have hk : n' - (m + j) = 0 := by omega
      refine ⟨?_, hw.due, ?_⟩
      · simp only [hlt, ↓reduceIte]
        omega
      · simp [pass, hw.backlog, hdrop, hrest, hlt, hk]

/-- A frame that waits after a pass came less than the deadline after the one that was fetched:
the backlog is bounded. -/
theorem Pass.room {m' n' : Nat} {p : Passed} (h : Pass c drop_after elapsed m n m' n' p)
    (hbefore : ∀ k < n, c.frame k ≤ elapsed) (hdrop : 0 ≤ drop_after) :
    p.frames.backlog.length * c.period ≤ drop_after := by
  rw [h.frames.backlog]
  by_cases hlt : m' < n'
  · have hlast : c.frame (n' - 1) ≤ elapsed := by
      rcases Nat.lt_or_ge (n' - 1) n with hn | hn
      · exact hbefore _ hn
      · exact h.is_due _ hn (by omega)
    have hfirst := h.in_time hlt
    have hlen : ((n' - 1 - m' : Nat) : ℚ) = (n' - 1 : Nat) - (m' : ℚ) := Nat.cast_sub (by omega)
    have hlen' : n' - (m' + 1) = n' - 1 - m' := by omega
    simp only [hlt, ↓reduceIte, List.length_map, List.length_range', hlen', hlen]
    simp only [Clock.frame] at hlast hfirst
    linarith
  · have hnone : n' - m' = 0 := by omega
    simpa [hlt, hnone] using hdrop

/-! ## A camera that keeps up -/

/-- The passes come at these times, `u` being the last before them: how late the camera is grows
by what a pass takes beyond a period, and at each pass that and the whole time since the last
pass stay within the deadline. -/
def Paced (period drop_after : ℚ) (u lag : ℚ) : List ℚ → Prop
  | [] => True
  | t :: ts =>
    u ≤ t ∧ lag + (t - u) ≤ drop_after ∧ Paced period drop_after t (max 0 (lag + (t - u) - period)) ts

/-- No pass drops a frame, and what it fetches has waited since the last pass, and as much
longer as the camera was late. -/
def Served (c : Clock) (drop_after : ℚ) (u lag : ℚ) (f : Frames) : List ℚ → Prop
  | [] => True
  | t :: ts =>
    let p := f.pass c drop_after t
    p.dropped = [] ∧
      f.backlog.length + p.generated = p.fetched.toList.length + p.frames.backlog.length ∧
      (∀ g ∈ p.fetched, g ≤ t ∧ t - g ≤ lag + (t - u)) ∧
      Served c drop_after t (max 0 (lag + (t - u) - c.period)) p.frames ts

theorem Waiting.served {u lag : ℚ} {times : List ℚ} (h : Waiting c m n f)
    (hbefore : ∀ k < n, c.frame k ≤ u) (hlag : u - c.frame m ≤ lag)
    (hpaced : Paced c.period drop_after u lag times) : Served c drop_after u lag f times := by
  induction times generalizing m n f u lag with
  | nil => trivial
  | cons t ts ih =>
    obtain ⟨hle, hstall, hrest⟩ := hpaced
    obtain ⟨m', n', hp⟩ := @pass.spec c drop_after t f m n h
    -- the oldest frame is in time
    have hfirst : m' = m := by
      by_contra hne
      have := hp.late m (Nat.le_refl _) (by have := hp.le; omega)
      linarith
    subst hfirst
    have hdue : m' < n' → c.frame m' ≤ t := fun hlt => by
      rcases Nat.lt_or_ge m' n with hn | hn
      · exact le_trans (hbefore _ hn) hle
      · exact hp.is_due _ hn hlt
    refine ⟨?_, ?_, fun g hg => ?_, ih hp.frames (fun k hk => ?_) ?_ hrest⟩
    · rw [hp.dropped, Nat.sub_self, List.range'_zero, List.map_nil]
    · have hlast := hp.last
      have hm := h.le
      have hn := hp.le'
      rw [hp.generated, hp.fetched, hp.frames.backlog, h.backlog]
      by_cases hlt : m' < n'
      · simp only [hlt, ↓reduceIte, List.length_map, List.length_range', Option.toList_some,
          List.length_cons, List.length_nil]
        omega
      · simp only [hlt, ↓reduceIte, List.length_map, List.length_range', Option.toList_none,
          List.length_nil]
        omega
    · rw [hp.fetched] at hg
      by_cases hlt : m' < n'
      · simp only [hlt, ↓reduceIte, Option.mem_some_iff] at hg
        subst hg
        exact ⟨hdue hlt, by linarith⟩
      · simp [hlt] at hg
    · rcases Nat.lt_or_ge k n with hn | hn
      · exact le_trans (hbefore _ hn) hle
      · exact hp.is_due _ hn hk
    · by_cases hlt : m' < n'
      · simp only [hlt, ↓reduceIte, frame_succ]
        exact le_trans (by linarith) (le_max_right _ _)
      · have hnow : m' = n' := by have := hp.last; omega
        have := hp.not_due
        rw [if_neg hlt, hnow]
        exact le_trans (by linarith) (le_max_left _ _)

/-- Passes that come at least every period keep the pace. -/
theorem paced_of_even {period u : ℚ} {times : List ℚ} (hle : period ≤ drop_after)
    (heven : (u :: times).IsChain fun a b => a ≤ b ∧ b ≤ a + period) :
    Paced period drop_after u 0 times := by
  induction times generalizing u with
  | nil => trivial
  | cons t ts ih =>
    rw [List.isChain_cons_cons] at heven
    obtain ⟨⟨hbefore, hgap⟩, hrest⟩ := heven
    have hlag : max 0 (0 + (t - u) - period) = 0 := max_eq_left (by linarith)
    refine ⟨hbefore, by linarith, ?_⟩
    rw [hlag]
    exact ih hrest

end Frames

end stutools.cctv
