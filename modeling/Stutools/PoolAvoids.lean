-- Which path a read-back takes. The pool knows the path of the last write that
-- completed, whatever it wrote, and not the path of the write that is read back. A
-- history of calls keeps the second next to the pool.
import Stutools.Fastest
import Stutools.PoolPaths

namespace stutools

variable {σ : Type} {T : Transport σ}

/-- A pool through its calls, with the writes that completed and the path of each, in
order. The pool keeps no such record. -/
structure PathLog (σ : Type) where
  drive : Drive σ
  wrote : List (Request × Nat)

/-- A call on a pool between two calls of `drive`, or a step of the one that goes on. -/
inductive Event (σ : Type) where
  | reserve (depth : Nat)
  | set_race (on : Bool)
  | call (mode : Mode)
  | step (input : Input σ)

namespace Drive

/-- The write that a step completes, with its path. -/
def completes (T : Transport σ) (d : Drive σ) : Input σ → List (Request × Nat)
  | .polled (some (_, done)) _ =>
    match d.phase, busy_path T d.pool with
    | .wait, some path =>
      let req := d.pool.slot_req.getD done.tag Request.default
      if d.pool.in_flight ≠ 0 ∧ done.tag < d.pool.slot_inflight.length ∧ done.status = 0 ∧
          req.write = true then [(req, path)]
      else []
    | _, _ => []
  | _ => []

/-- Whether a call of `drive` has returned. -/
def returned (d : Drive σ) : Bool :=
  match d.phase with
  | .finished _ => true
  | _ => false

end Drive

namespace PathLog

def start (pool : Pool σ) : PathLog σ :=
  ⟨{ Drive.start pool .stream with phase := .finished (.ok ()) }, []⟩

def step (T : Transport σ) (s : PathLog σ) : Event σ → Option (PathLog σ)
  | .reserve depth =>
    if s.drive.returned then
      some { s with drive := { s.drive with pool := s.drive.pool.reserve depth } }
    else none
  | .set_race on =>
    if s.drive.returned then
      some { s with drive := { s.drive with pool := s.drive.pool.set_race on } }
    else none
  | .call mode =>
    if s.drive.returned then some { s with drive := Drive.start s.drive.pool mode } else none
  | .step input =>
    (s.drive.step T input).map fun d => ⟨d, s.wrote ++ s.drive.completes T input⟩

end PathLog

/-! ## The path of the last write -/

namespace Pool

theorem disconnect_last_write_path (p : Pool σ) (path : Nat) :
    (p.disconnect path).last_write_path = p.last_write_path := by
  rw [disconnect_eq]
  rfl

theorem try_reconnect_last_write_path (p : Pool σ) (opens : Nat → Attempt σ) :
    (p.try_reconnect T opens).last_write_path = p.last_write_path := by
  refine List.foldlRecOn (motive := fun q : Pool σ => q.last_write_path = p.last_write_path) _ _
    rfl fun q hq path _ => ?_
  unfold Pool.reconnect
  split
  · split
    · exact hq
    · exact hq
    · exact hq
  · exact hq

theorem tick_all_last_write_path (p : Pool σ) (ticks : Nat → Option σ) :
    (p.tick_all ticks).last_write_path = p.last_write_path := by
  refine List.foldlRecOn (motive := fun q : Pool σ => q.last_write_path = p.last_write_path) _ _
    rfl fun q hq path _ => ?_
  unfold Pool.tick
  split
  · split
    · exact hq
    · exact (disconnect_last_write_path q path).trans hq
  · exact hq

end Pool

namespace Drive

theorem send_last_write_path {d e : Drive σ} {slot : Nat} {req : Request} {input : Input σ}
    (hp : d.pool.lanes.paths = d.pool.sessions.length) (h : d.send T slot req input = some e) :
    e.pool.last_write_path = d.pool.last_write_path := by
  unfold send at h
  rcases hc : choose T d.pool req with ⟨c, q⟩
  obtain ⟨⟨lanes, rfl, -⟩, -⟩ := choose.spec hp hc
  rw [hc] at h
  cases c with
  | refused err =>
    cases h
    rfl
  | later =>
    cases h
    rfl
  | sleep =>
    dsimp only at h
    split at h
    · cases h
      exact Pool.try_reconnect_last_write_path _ _
    · cases h
  | submit path io =>
    dsimp only at h
    split at h
    · cases h
      exact Pool.disconnect_last_write_path _ _
    · cases h
      rfl
    · cases h

theorem fetch_last_write_path {d e : Drive σ} {input : Input σ} (h : d.fetch input = some e) :
    e.pool.last_write_path = d.pool.last_write_path := by
  unfold fetch at h
  split at h
  · cases h
    rfl
  split at h
  · cases h
    rfl
  split at h
  · split at h
    · cases h
      rfl
    · cases h
      rfl
  · split at h
    · cases h
      rfl
    · split at h
      · cases h
        rfl
      · cases h
        rfl
      · cases h
        rfl
      · cases h

/-- Only the wait for a command completes a write. -/
theorem completes_eq_nil {d : Drive σ} (h : d.phase ≠ .wait) (input : Input σ) :
    d.completes T input = [] := by
  unfold completes
  split
  · split
    · rename_i hphase _
      exact absurd hphase h
    · rfl
  · rfl

theorem wait_last_write_path {d e : Drive σ} {input : Input σ} (hphase : d.phase = .wait)
    (h : d.wait T input = some e) : e.pool.last_write_path =
      ((d.completes T input).getLast?.map Prod.snd).or d.pool.last_write_path := by
  unfold wait at h
  split at h
  · rename_i hidle
    have hnone : d.completes T input = [] := by
      unfold completes
      split
      · split
        · exact if_neg fun hbusy => hbusy.1 hidle
        · rfl
      · rfl
    rw [hnone]
    split at h
    · cases h
      rfl
    split at h
    · cases h
      rfl
    · cases h
      rfl
  rename_i hbusy
  split at h
  · rename_i hnone
    cases h
    have hnil : d.completes T input = [] := by
      unfold completes
      split
      · rw [hphase, hnone]
      · rfl
    rw [hnil]
    rfl
  rename_i path hpath
  split at h
  · cases h
    exact Pool.disconnect_last_write_path _ _
  · rename_i session done nanos
    cases h
    unfold completes finish
    dsimp only
    rw [hphase, hpath]
    dsimp only
    split
    · rename_i hpanic
      rw [if_neg fun hdone => Nat.not_le.mpr hdone.2.1 hpanic]
      rfl
    rename_i htag
    split
    · rename_i hstatus
      dsimp only
      by_cases hwrite : (d.pool.slot_req.getD done.tag Request.default).write = true
      · rw [if_pos hwrite, if_pos ⟨hbusy, Nat.not_le.mp htag, hstatus, hwrite⟩]
        rfl
      · rw [if_neg hwrite, if_neg fun hdone => hwrite hdone.2.2.2]
        rfl
    rename_i hstatus
    have hnone : ¬ (d.pool.in_flight ≠ 0 ∧ done.tag < d.pool.slot_inflight.length ∧
        done.status = 0 ∧ (d.pool.slot_req.getD done.tag Request.default).write = true) :=
      fun hdone => hstatus hdone.2.2.1
    rw [if_neg hnone]
    split
    · rfl
    · rfl
  · cases h

/-- A step changes the remembered path where it completes a write, and there only. -/
theorem step_last_write_path {d e : Drive σ} {input : Input σ}
    (hp : d.pool.lanes.paths = d.pool.sessions.length) (h : d.step T input = some e) :
    e.pool.last_write_path =
      ((d.completes T input).getLast?.map Prod.snd).or d.pool.last_write_path := by
  by_cases hwait : d.phase = .wait
  · apply wait_last_write_path hwait
    unfold step at h
    rw [hwait] at h
    exact h
  rw [completes_eq_nil hwait]
  change e.pool.last_write_path = d.pool.last_write_path
  unfold step at h
  split at h
  · split at h
    · cases h
      exact Pool.try_reconnect_last_write_path _ _
    · cases h
  · split at h
    · cases h
      exact Pool.tick_all_last_write_path _ _
    · cases h
  · split at h
    · exact fetch_last_write_path h
    · cases h
      rfl
  · split at h
    · cases h
      rfl
    · exact send_last_write_path hp h
  · rename_i hphase
    exact absurd hphase hwait
  · cases h

end Drive

namespace PathLog

/-- The pool remembers the path of the last write of the record. -/
structure Kept (s : PathLog σ) : Prop where
  fits : s.drive.pool.Fits
  last : s.drive.pool.last_write_path = s.wrote.getLast?.map Prod.snd

theorem Kept.step {s t : PathLog σ} {event : Event σ} (h : s.Kept)
    (hstep : s.step T event = some t) : t.Kept := by
  obtain ⟨⟨h1, h2, h3⟩, hlast⟩ := h
  cases event with
  | reserve depth =>
    simp only [PathLog.step] at hstep
    split_ifs at hstep
    cases hstep
    exact ⟨⟨h1, h2, h3⟩, hlast⟩
  | set_race on =>
    simp only [PathLog.step] at hstep
    split_ifs at hstep
    cases hstep
    exact ⟨⟨h1, h2, h3⟩, hlast⟩
  | call mode =>
    simp only [PathLog.step] at hstep
    split_ifs at hstep
    cases hstep
    exact ⟨⟨h1, h2, h3⟩, hlast⟩
  | step input =>
    obtain ⟨d, hd, rfl⟩ := Option.map_eq_some_iff.mp hstep
    refine ⟨Drive.step_fits ⟨h1, h2, h3⟩ hd, ?_⟩
    dsimp only
    rw [Drive.step_last_write_path h1 hd, hlast, List.getLast?_append, Option.map_or]

theorem kept_of_run {found : List (Option (σ × Geometry))} {policy : Policy} {seed : UInt64}
    {p : Pool σ} (hopen : Pool.open T found policy seed = some p) {events : List (Event σ)}
    {s : PathLog σ} (hrun : machine.run (step T) (start p) events = some s) : s.Kept := by
  refine machine.invariant (P := Kept) (fun _ _ _ h hstep => h.step hstep) hrun
    ⟨(Pool.open_fits hopen).1, ?_⟩
  unfold Pool.open at hopen
  simp only [bind, Option.bind_eq_some_iff] at hopen
  obtain ⟨opened, -, geometry, -, hopen⟩ := hopen
  split_ifs at hopen
  simp only [Option.bind_eq_some_iff] at hopen
  obtain ⟨lanes, -, hp⟩ := hopen
  cases hp
  rfl

end PathLog

/-! ## The choice for a read-back -/

namespace Pool

/-- Whether a path can be used and its session takes another command. -/
def has_room (T : Transport σ) (p : Pool σ) (path : Nat) : Bool :=
  p.lanes.is_usable path && (p.session path).any T.can_submit

theorem has_room_lt {p : Pool σ} {path : Nat} (h : p.has_room T path = true) :
    path < p.sessions.length := by
  unfold has_room at h
  rw [Bool.and_eq_true, Option.any_eq_true] at h
  obtain ⟨-, s, hs, -⟩ := h
  exact session_lt hs

/-- The path so many places behind the one that the policy names, going round. -/
def place (p : Pool σ) (j : Nat) : Nat := (p.lanes.pick.1 + j) % p.sessions.length

/-- Going round from the path that the policy names, one path comes before another. -/
def Ahead (p : Pool σ) (q path : Nat) : Prop :=
  ∃ j k, j < k ∧ k < p.sessions.length ∧ p.place j = q ∧ p.place k = path

/-- A path is come back to when the last write was on `last`. It has room, and: if the last
write was its own, a path that can be used comes ahead of it but none with room does; if
not, none with room comes ahead of it, unless that is the path of the last write and
nothing before that can be used. -/
structure ComesBack (T : Transport σ) (p : Pool σ) (last path : Nat) : Prop where
  room : p.has_room T path = true
  own : last = path → (∃ q, p.Ahead q path ∧ p.lanes.is_usable q = true) ∧
    ∀ q, p.Ahead q path → p.has_room T q = false
  others : last ≠ path → ∀ q, p.Ahead q path → p.has_room T q = true →
    q = last ∧ ∀ r, p.Ahead r q → p.lanes.is_usable r = false

theorem usable_of_room {p : Pool σ} {path : Nat} (h : p.has_room T path = true) :
    p.lanes.is_usable path = true := by
  unfold has_room at h
  rw [Bool.and_eq_true] at h
  exact h.1

/-- Two places are one if they are less than a round apart. -/
theorem place_inj {p : Pool σ} {j k : Nat} (hj : j < p.sessions.length) (hk : k < p.sessions.length)
    (h : p.place j = p.place k) : j = k :=
  Nat.ModEq.eq_of_lt_of_lt (Nat.ModEq.add_left_cancel' p.lanes.pick.1 h) hj hk

theorem exists_place {p : Pool σ} {path : Nat} (h : path < p.sessions.length) :
    ∃ d < p.sessions.length, p.place d = path := by
  have hmem : path ∈ around p.sessions.length p.lanes.pick.1 := mem_around.mpr h
  obtain ⟨d, hd, hpath⟩ := List.mem_map.mp hmem
  exact ⟨d, List.mem_range.mp hd, hpath⟩

theorem place_round (p : Pool σ) (j : Nat) : p.place (j + p.sessions.length) = p.place j := by
  unfold place
  rw [← Nat.add_assoc, Nat.add_mod_right]

/-- What is ahead of a place. -/
theorem ahead_place {p : Pool σ} {q d : Nat} (hd : d < p.sessions.length) :
    p.Ahead q (p.place d) ↔ ∃ j < d, p.place j = q := by
  constructor
  · rintro ⟨j, k, hjk, hk, hj, heq⟩
    obtain rfl := place_inj hk hd heq
    exact ⟨j, hjk, hj⟩
  · rintro ⟨j, hj, heq⟩
    exact ⟨j, d, hj, hd, heq, rfl⟩

/-- The choice for a read-back after a write on `last`: from the first usable path that is
not `last`, `a` places on, to the first with room, `k` places further. -/
structure Walk (T : Transport σ) (p : Pool σ) (last sent a k : Nat) : Prop where
  lt : a < p.sessions.length
  round : k < p.sessions.length
  usable : p.lanes.is_usable (p.place a) = true
  ne : p.place a ≠ last
  skipped : ∀ j < a, p.lanes.is_usable (p.place j) = true → p.place j = last
  sent : sent = p.place (a + k)
  full : ∀ j < k, p.has_room T (p.place (a + j)) = false

/-- A read-back is sent on a path with room, by such a walk if any path but the last can be
used. -/
theorem path_with_room_walk {p q : Pool σ} {sent last : Nat} (hp : p.Fits)
    (hlast : p.last_write_path = some last) (h : p.path_with_room T true = (some sent, q)) :
    p.has_room T sent = true ∧ ((∀ i < p.sessions.length, p.lanes.is_usable i = true → i = last) ∨
      ∃ a k, p.Walk T last sent a k) := by
  obtain ⟨m, hsame, hpick⟩ := Lanes.avoiding_cases p.lanes last
  have hm := (Lanes.pick_available_avoiding.spec p.lanes last).1
  have hfound := congrArg Prod.fst h
  unfold path_with_room at hfound
  simp only [if_pos, hlast, Option.getD_some] at hfound
  rw [hm.is_usable] at hfound
  obtain ⟨start, hstart, hfind⟩ := Option.bind_eq_some_iff.mp hfound
  refine ⟨List.find?_some hfind, ?_⟩
  unfold around at hfind
  rw [List.find?_map] at hfind
  obtain ⟨k, hk, rfl⟩ := Option.map_eq_some_iff.mp hfind
  obtain ⟨hround, -, hfull⟩ := Lanes.find?_range_first hk
  rw [hpick, hsame.paths, hp.lanes, hsame.is_usable] at hstart
  split at hstart
  · rename_i i hi
    cases hstart
    right
    unfold around at hi
    rw [List.find?_map] at hi
    obtain ⟨a, ha, rfl⟩ := Option.map_eq_some_iff.mp hi
    obtain ⟨hlt, hchosen, hbefore⟩ := Lanes.find?_range_first ha
    simp only [Function.comp_apply, Bool.and_eq_true, bne_iff_ne, ne_eq] at hchosen
    have hplace : ∀ j, ((p.lanes.pick.1 + a) % p.sessions.length + j) % p.sessions.length =
        p.place (a + j) := fun j => by rw [Nat.mod_add_mod, Nat.add_assoc, place]
    refine ⟨a, k, hlt, hround, hchosen.2, hchosen.1, fun j hj husable => ?_, hplace k, fun j hj => ?_⟩
    · have hskip := hbefore j hj
      simp only [Function.comp_apply] at hskip
      rw [show p.lanes.is_usable ((p.lanes.pick.1 + j) % p.sessions.length) = true from husable,
        Bool.and_true] at hskip
      have hsame : (p.lanes.pick.1 + j) % p.sessions.length = last := by simpa using hskip
      exact hsame
    · rw [← hplace]
      exact hfull j hj
  · rename_i hnone
    left
    intro i hi husable
    have hskip := List.find?_eq_none.mp hnone i (mem_around.mpr hi)
    rw [husable, Bool.and_true] at hskip
    simpa using hskip

namespace Walk

variable {p : Pool σ} {last sent a k d : Nat}

theorem room_place (h : p.Walk T last sent a k)
    (hroom : p.has_room T (p.place d) = true) (hne : p.place d ≠ last) : a ≤ d := by
  by_contra hlt
  exact hne (h.skipped d (Nat.not_le.mp hlt) (usable_of_room hroom))

/-- No path with room is between the start of the walk and its end. -/
theorem no_room (h : p.Walk T last sent a k) {j : Nat} (ha : a ≤ j) (hj : j < a + k) :
    p.has_room T (p.place j) = false := by
  have hfull := h.full (j - a) (by omega)
  rwa [Nat.add_sub_cancel' ha] at hfull

/-- The last write was on another path: the walk ends at this one if it meets no room before
it, but on the path of the last write. -/
theorem sent_eq_iff_of_ne (h : p.Walk T last sent a k) (hd : d < p.sessions.length)
    (hsent : p.has_room T sent = true) (hroom : p.has_room T (p.place d) = true)
    (hne : last ≠ p.place d) :
    sent = p.place d ↔ ∀ q, p.Ahead q (p.place d) → p.has_room T q = true →
      q = last ∧ ∀ r, p.Ahead r q → p.lanes.is_usable r = false := by
  have had := h.room_place hroom hne.symm
  constructor
  · rintro hback q hq hqroom
    obtain ⟨j, hj, rfl⟩ := (ahead_place hd).mp hq
    have hkd : a + k = d := by
      have hround := h.round
      rw [h.sent] at hback
      by_cases hwrap : a + k < p.sessions.length
      · exact place_inj hwrap hd hback
      · have hsub : p.place (a + k - p.sessions.length) = p.place d := by
          rw [← place_round, Nat.sub_add_cancel (Nat.not_lt.mp hwrap), hback]
        have := place_inj (by have := h.lt; omega) hd hsub
        have hno := h.no_room had (by omega)
        rw [hroom] at hno
        cases hno
    have hja : j < a := by
      by_contra hge
      have hno := h.no_room (Nat.not_lt.mp hge) (by omega)
      rw [hqroom] at hno
      cases hno
    have hqlast := h.skipped j hja (usable_of_room hqroom)
    refine ⟨hqlast, fun r hr => ?_⟩
    obtain ⟨i, hi, rfl⟩ := (ahead_place (by omega)).mp hr
    by_contra husable
    have hrlast := h.skipped i (by omega) (Bool.not_eq_false _ ▸ husable)
    have := place_inj (by omega) (by omega) (hrlast.trans hqlast.symm)
    omega
  · intro hahead
    by_contra hother
    have hkd : a + k < d := by
      rcases Nat.lt_trichotomy (a + k) d with hlt | heq | hgt
      · exact hlt
      · exact absurd (by rw [h.sent, heq]) hother
      · have hno := h.no_room had hgt
        rw [hroom] at hno
        cases hno
    obtain ⟨hlast, hnone⟩ := hahead sent ((ahead_place hd).mpr ⟨a + k, hkd, h.sent.symm⟩) hsent
    rcases Nat.eq_zero_or_pos k with rfl | hpos
    · exact h.ne (by rw [← hlast, h.sent, Nat.add_zero])
    · have husable := hnone (p.place a) (by
        rw [h.sent]
        exact (ahead_place (by omega)).mpr ⟨a, by omega, rfl⟩)
      rw [h.usable] at husable
      cases husable

/-- The last write was on this path: the walk ends at it if it begins ahead of it and meets no
room. -/
theorem sent_eq_iff_of_eq (h : p.Walk T (p.place d) sent a k) (hd : d < p.sessions.length)
    (hsent : p.has_room T sent = true) (hroom : p.has_room T (p.place d) = true) {other : Nat}
    (hother : other ≠ p.place d) (horoom : p.has_room T other = true) :
    sent = p.place d ↔ (∃ q, p.Ahead q (p.place d) ∧ p.lanes.is_usable q = true) ∧
      ∀ q, p.Ahead q (p.place d) → p.has_room T q = false := by
  have hlt := h.lt
  have hround := h.round
  have hne : a ≠ d := fun heq => h.ne (by rw [heq])
  -- what can be used ahead of the path is not before the start of the walk
  have hstart : ∀ j, j < p.sessions.length → j ≠ d → p.lanes.is_usable (p.place j) = true → a ≤ j := by
    intro j hj hjd husable
    by_contra hja
    exact hjd (place_inj hj hd (h.skipped j (Nat.not_le.mp hja) husable))
  constructor
  · intro hback
    have had : a < d := by
      by_contra hge
      obtain ⟨e, he, rfl⟩ := exists_place (has_room_lt horoom)
      have hae := hstart e he (fun heq => hother (by rw [heq])) (usable_of_room horoom)
      have hwrap : p.sessions.length ≤ a + k := by
        by_contra hin
        rw [h.sent] at hback
        have := place_inj (Nat.not_le.mp hin) hd hback
        omega
      have hno := h.no_room hae (by omega)
      rw [horoom] at hno
      cases hno
    refine ⟨⟨p.place a, (ahead_place hd).mpr ⟨a, had, rfl⟩, h.usable⟩, fun q hq => ?_⟩
    obtain ⟨j, hj, rfl⟩ := (ahead_place hd).mp hq
    by_contra hjroom
    have hjroom' : p.has_room T (p.place j) = true := by simpa using hjroom
    have haj := hstart j (by omega) (by omega) (usable_of_room hjroom')
    have hkd : d ≤ a + k := by
      by_contra hin
      rw [h.sent] at hback
      have := place_inj (by omega) hd hback
      omega
    exact hjroom (h.no_room haj (by omega))
  · rintro ⟨⟨q, hq, husable⟩, hnone⟩
    obtain ⟨j, hj, rfl⟩ := (ahead_place hd).mp hq
    have haj := hstart j (by omega) (by omega) husable
    rcases Nat.lt_trichotomy (a + k) d with hlt' | heq | hgt
    · have hno := hnone sent ((ahead_place hd).mpr ⟨a + k, hlt', h.sent.symm⟩)
      rw [hsent] at hno
      cases hno
    · rw [h.sent, heq]
    · have hno := h.no_room (by omega) hgt
      rw [hroom] at hno
      cases hno

end Walk

/-- A read-back comes back to the path exactly then, if another path has room. -/
theorem path_with_room_eq_iff {p q : Pool σ} {sent last path other : Nat} (hp : p.Fits)
    (hlast : p.last_write_path = some last) (h : p.path_with_room T true = (some sent, q))
    (hother : other ≠ path) (horoom : p.has_room T other = true) :
    sent = path ↔ p.ComesBack T last path := by
  obtain ⟨hsent, hwalk⟩ := path_with_room_walk hp hlast h
  by_cases hroom : p.has_room T path = true
  · obtain ⟨d, hd, rfl⟩ := exists_place (has_room_lt hroom)
    rcases hwalk with honly | ⟨a, k, hwalk⟩
    · have hone := honly _ (has_room_lt hroom) (usable_of_room hroom)
      have hsame := honly _ (has_room_lt horoom) (usable_of_room horoom)
      exact absurd (hsame.trans hone.symm) hother
    · by_cases hne : last = p.place d
      · subst hne
        rw [hwalk.sent_eq_iff_of_eq hd hsent hroom hother horoom]
        exact ⟨fun hback => ⟨hroom, fun _ => hback, fun hne => absurd rfl hne⟩, fun hback => hback.own rfl⟩
      · rw [hwalk.sent_eq_iff_of_ne hd hsent hroom hne]
        exact ⟨fun hback => ⟨hroom, fun heq => absurd heq hne, fun _ => hback⟩,
          fun hback => hback.others hne⟩
  · exact ⟨fun heq => absurd (heq ▸ hsent) hroom, fun hback => absurd hback.room hroom⟩

end Pool

/-- The last write of the request's bytes completed on the path. -/
def WroteOn (wrote : List (Request × Nat)) (req : Request) (path : Nat) : Prop :=
  ∃ before w after, wrote = before ++ (w, path) :: after ∧ w.offset = req.offset ∧
    w.len = req.len ∧ ∀ x ∈ after, ¬ (x.1.offset = req.offset ∧ x.1.len = req.len)

theorem choose_submit {p q : Pool σ} {req : Request} {path : Nat} {io : Io}
    (hread : is_read_back req = true)
    (h : Drive.choose T p req = (.submit path io, q)) :
    p.path_with_room T true = (some path, q) := by
  unfold Drive.choose at h
  split at h
  · cases h
  split at h
  · cases h
  have hverify : (req.verify && !req.write) = true := hread
  rw [hverify] at h
  split at h
  · split_ifs at h <;> cases h
  · rename_i hroom
    split_ifs at h
    · cases h
      exact hroom
    · cases h

/-- The call sends the request it holds on a path. -/
def Drive.SendsOn (T : Transport σ) (d : Drive σ) (req : Request) (path : Nat) : Prop :=
  ∃ slot io p, d.phase = .send ∧ d.held = some (slot, req) ∧
    Drive.choose T d.pool req = (.submit path io, p)

/-- In every history of calls, sends, completions and path changes, and for every policy:
the choice passes over the path of the last write to complete, whatever that wrote. So a
read-back comes back to the path of its own write in the cases of `ComesBack`, and in no
others. It leaves that path where its write was the last one and no window is full. -/
theorem a_read_back_comes_back_iff_no_room_is_ahead (T : Transport σ)
    {found : List (Option (σ × Geometry))} {policy : Policy} {seed : UInt64} {p₀ : Pool σ}
    {events : List (Event σ)} {s : PathLog σ} (hopen : Pool.open T found policy seed = some p₀)
    (hrun : machine.run (PathLog.step T) (PathLog.start p₀) events = some s)
    {sent : Nat} {req : Request} (hread : is_read_back req = true)
    (hsend : s.drive.SendsOn T req sent) :
    ∀ path, WroteOn s.wrote req path →
      (∃ other, other ≠ path ∧ s.drive.pool.has_room T other = true) →
      ∃ w last, s.wrote.getLast? = some (w, last) ∧ s.drive.pool.last_write_path = some last ∧
        (sent ≠ path ↔ ¬ s.drive.pool.ComesBack T last path) ∧
        (last = path →
          (∀ q, s.drive.pool.lanes.is_usable q = true → s.drive.pool.has_room T q = true) →
          sent ≠ path) := by
  rintro path ⟨before, w, after, hwrote, -⟩ ⟨other, hother, hroom⟩
  obtain ⟨hfits, hlast⟩ := PathLog.kept_of_run hopen hrun
  obtain ⟨slot, io, p, -, -, hchosen⟩ := hsend
  obtain ⟨⟨w', last⟩, hrecord⟩ : ∃ x, s.wrote.getLast? = some x := by
    rw [hwrote, List.getLast?_append, List.getLast?_cons]
    exact ⟨_, rfl⟩
  rw [hrecord] at hlast
  have hiff := Pool.path_with_room_eq_iff hfits hlast (choose_submit hread hchosen) hother hroom
  refine ⟨w', last, hrecord, hlast, not_congr hiff, fun hpath hall hback => ?_⟩
  obtain ⟨⟨q, hq, husable⟩, hnone⟩ := (hiff.mp hback).own hpath
  have hfull := hnone q hq
  rw [hall q husable] at hfull
  cases hfull

/-- A write of one block, for runs on a fixed input. -/
def Request.one_block (block : Nat) : Request :=
  { Request.default with offset := 512 * block, len := 512, write := true }

/-- A command that finished well. -/
def Done.good (tag : Nat) : Done :=
  { tag, status := 0, code := 0, unavailable := false, sense := bytes.Block.zero 64,
    sense_len := 0 }

/-- The top of the loop of `drive`, with the commands that are in flight on each path. -/
def Event.rounds (inflight : Nat → Nat) : List (Event Nat) :=
  [.step (.reconnect fun _ => .waiting), .step (.ticks fun path => some (inflight path))]

/-- A block is written and read back, in two calls. -/
def Event.one_write : List (Event Nat) :=
  [.reserve 1, .call (.execute [.one_block 0])] ++ rounds (fun _ => 0) ++
    [.step .go, .step (.submitted (some 1)), .step .go, .step .go,
      .step (.polled (some (0, .good 0)) 5)] ++ rounds (fun _ => 0) ++
    [.step .go, .step .go, .call (.execute [read_back_of (.one_block 0)])] ++
    rounds (fun _ => 0) ++ [.step .go]

/-- Two blocks are written, the first on path 0 and the second, which completes last, on
path 1, and the first is read back. -/
def Event.two_writes : List (Event Nat) :=
  [.reserve 2, .call (.execute [.one_block 0, .one_block 1])] ++ rounds (fun _ => 0) ++
    [.step .go, .step (.submitted (some 1)), .step .go, .step (.submitted (some 1)), .step .go,
      .step .go, .step (.polled (some (0, .good 0)) 5)] ++ rounds id ++
    [.step .go, .step (.polled (some (0, .good 1)) 5)] ++ rounds (fun _ => 0) ++
    [.step .go, .step .go, .call (.execute [read_back_of (.one_block 0)])] ++
    rounds (fun _ => 0) ++ [.step .go]

/-- Of two paths the write takes the first, and its read-back the second. -/
theorem the_read_back_of_one_write_takes_the_other_path :
    ∃ p₀ s, Pool.open .single (List.replicate 2 (some (0, ⟨512, 1048576⟩))) .RoundRobin 1
        = some p₀ ∧
      machine.run (PathLog.step .single) (PathLog.start p₀) Event.one_write = some s ∧
      s.drive.SendsOn .single (read_back_of (.one_block 0)) 1 ∧
      ∀ sent, s.drive.SendsOn .single (read_back_of (.one_block 0)) sent → sent ≠ 0 := by
  have hrun : ∃ p₀ s, Pool.open .single (List.replicate 2 (some (0, ⟨512, 1048576⟩)))
        .RoundRobin 1 = some p₀ ∧
      machine.run (PathLog.step .single) (PathLog.start p₀) Event.one_write = some s ∧
      s.drive.SendsOn .single (read_back_of (.one_block 0)) 1 ∧
      s.wrote = [(.one_block 0, 0)] ∧ s.drive.pool.has_room .single 0 = true ∧
      s.drive.pool.has_room .single 1 = true ∧ s.drive.pool.lanes.unavailable.length = 2 :=
    ⟨_, _, rfl, rfl, ⟨_, _, _, rfl, rfl, rfl⟩, rfl, by decide, by decide, rfl⟩
  obtain ⟨p₀, s, hopen, hs, hsend, hwrote, hroom0, hroom1, hlength⟩ := hrun
  have hall : ∀ q, s.drive.pool.lanes.is_usable q = true →
      s.drive.pool.has_room .single q = true := by
    intro q hq
    rcases q with _ | _ | q
    · exact hroom0
    · exact hroom1
    · unfold Lanes.is_usable at hq
      rw [List.getD_eq_getElem?_getD, List.getElem?_eq_none (by omega)] at hq
      cases hq
  refine ⟨p₀, s, hopen, hs, hsend, fun sent hsent => ?_⟩
  obtain ⟨w, last, hlast, -, -, hleaves⟩ := a_read_back_comes_back_iff_no_room_is_ahead _ hopen hs
    rfl hsent 0 ⟨[], _, [], hwrote, rfl, rfl, by simp⟩ ⟨1, by decide, hroom1⟩
  rw [hwrote] at hlast
  cases hlast
  exact hleaves rfl hall

/-- The read-back of the first of the two writes goes to its path again, with room on the
other. -/
theorem the_read_back_of_the_first_of_two_writes_takes_its_path :
    ∃ p₀ s, Pool.open .single (List.replicate 2 (some (0, ⟨512, 1048576⟩))) .RoundRobin 1
        = some p₀ ∧
      machine.run (PathLog.step .single) (PathLog.start p₀) Event.two_writes = some s ∧
      WroteOn s.wrote (read_back_of (.one_block 0)) 0 ∧
      s.drive.pool.has_room .single 0 = true ∧ s.drive.pool.has_room .single 1 = true ∧
      s.drive.SendsOn .single (read_back_of (.one_block 0)) 0 :=
  ⟨_, _, rfl, rfl,
    ⟨[], .one_block 0, [(.one_block 1, 1)], rfl, rfl, rfl, by decide⟩, by decide, by decide,
    ⟨_, _, _, rfl, rfl, rfl⟩⟩

end stutools
