-- The race of two hosts for one block with COMPARE AND WRITE (src/rust/src/iscsi/ats_race.rs): the
-- two racers meet at one gate three times a round. A target whose compare and write is one
-- sequence has exactly one winner in each round, and a race that passes has had one.
import Mathlib.Data.List.Zip
import Mathlib.Tactic.FinCases
import Stutools.Barriers

namespace stutools.ats_race

/-- Rounds of the race. -/
def ROUNDS : Nat := 100

def block (len : Nat) (byte : UInt8) : List UInt8 := List.replicate len byte

def v (len : Nat) : List UInt8 := block len 0x11

/-- What the hosts swap in: `id_a` and `id_b`. -/
def id_of (len : Nat) (i : Fin 2) : List UInt8 := block len (if i = 0 then 0xaa else 0xbb)

/-- What `swap` came to in a round, and what the host that resets the block read. -/
abbrev Round := Except String Bool × Option (List UInt8)

/-- Where a racer is: in `open`, before the store of the flag, at and past the first gate, in the
reset of a round, at the first gate of the round, in `swap`, at the second gate, in the read,
at the third gate, or through. -/
inductive Pc where
  | opening
  | failing
  | meeting (opened : Bool)
  | met (opened : Bool)
  | resetting
  | ready
  | swapping
  | swapped (said : Except String Bool)
  | reading (said : Except String Bool)
  | read (said : Except String Bool) (now : Option (List UInt8))
  | ended

structure Racer where
  pc : Pc
  out : List Round

/-- The flag, and the block of the target. -/
structure Shared where
  abort : Bool
  block : List UInt8

/-- What a call comes to: whether the session was opened, what the block holds after the call,
what `swap` says, and what is read. -/
structure Answer where
  opened : Bool := true
  after : List UInt8 := []
  said : Except String Bool := .ok false
  now : Option (List UInt8) := none

/-- `racer` between the gates. Only the first host resets and reads. -/
def turn (i : Fin 2) (sh : Shared) (x : Racer) (a : Answer) : Option (Shared × Racer) :=
  match x.pc with
  | .opening => some (sh, { x with pc := if a.opened then .meeting true else .failing })
  | .failing => some ({ sh with abort := true }, { x with pc := .meeting false })
  | .met false => some (sh, { x with pc := .ended })
  | .met true => some (sh, { x with pc := if sh.abort then .ended else .resetting })
  | .resetting =>
    some (if i = 0 then { sh with block := a.after } else sh, { x with pc := .ready })
  | .swapping => some ({ sh with block := a.after }, { x with pc := .swapped a.said })
  | .reading said => some (sh, { x with pc := .read said (if i = 0 then a.now else none) })
  | _ => none

def waits (x : Racer) : Bool :=
  match x.pc with
  | .meeting _ | .ready | .swapped _ | .read _ _ => true
  | _ => false

/-- A round is kept after its last gate. -/
def passes (x : Racer) : Racer :=
  match x.pc with
  | .meeting opened => { x with pc := .met opened }
  | .ready => { x with pc := .swapping }
  | .swapped said => { x with pc := .reading said }
  | .read said now =>
    { pc := if x.out.length + 1 < ROUNDS then .resetting else .ended,
      out := x.out ++ [(said, now)] }
  | _ => x

def racers : barrier.Threads 2 Shared Racer Answer where
  turn := turn
  waits := waits
  passes := passes

abbrev State := barrier.State 2 Shared Racer

def init (original : List UInt8) : State := ⟨⟨false, original⟩, fun _ => ⟨.opening, []⟩⟩

abbrev step : State → barrier.Event 2 Answer → Option State := barrier.step racers

/-! ## The verdict -/

/-- `show` -/
def said_text : Except String Bool → String
  | .ok true => "GOOD"
  | .ok false => "miscompare"
  | .error e => e

/-- Exactly one host won the round, and the block held its id. -/
def one_wins (len : Nat) (a_said b_said : Except String Bool) (now : Option (List UInt8)) : Bool :=
  match a_said, b_said with
  | .ok true, .ok false => now = some (id_of len 0)
  | .ok false, .ok true => now = some (id_of len 1)
  | _, _ => false

/-- What a round without one winner is told as. -/
def problem (len round : Nat) (a_said b_said : Except String Bool) (now : Option (List UInt8)) :
    String :=
  let held :=
    if now = some (id_of len 0) then "A's ID"
    else if now = some (id_of len 1) then "B's ID"
    else if now = some (v len) then "V"
    else "mixed or unread"
  s!"round {round}: A {said_text a_said}, B {said_text b_said}, block {held}"

/-- The rounds from `round` on: how many had one winner, and the problems of the others. -/
def judge (len round : Nat) : List (Round × Round) → Nat × List String
  | [] => (0, [])
  | (a, b) :: rest =>
    let (one_winner, problems) := judge len (round + 1) rest
    if one_wins len a.1 b.1 a.2 then (one_winner + 1, problems)
    else (one_winner, problem len round a.1 b.1 a.2 :: problems)

/-- The rounds with one winner, and the problems; the race passes when there are none. -/
def verdict (len : Nat) (ra rb : List Round) : Nat × List String :=
  let judged := judge len 0 (ra.zip rb)
  (judged.1, if ra.length < ROUNDS ∨ rb.length < ROUNDS then
    "a host could not open its session" :: judged.2 else judged.2)

/-! ## The rounds of the racers -/

namespace Racer

/-- The gates that a racer has passed. -/
def level (x : Racer) : Nat :=
  match x.pc with
  | .opening | .failing | .meeting _ => 3 * x.out.length
  | .met _ | .resetting | .ready | .ended => 3 * x.out.length + 1
  | .swapping | .swapped _ => 3 * x.out.length + 2
  | .reading _ | .read _ _ => 3 * x.out.length + 3

/-- The turns and gates that a racer has before it. -/
def rest (x : Racer) : Nat :=
  6 * (ROUNDS - x.out.length) +
    match x.pc with
    | .opening => 10
    | .failing => 9
    | .meeting _ => 8
    | .met _ => 7
    | .resetting => 6
    | .ready => 5
    | .swapping => 4
    | .swapped _ => 3
    | .reading _ => 2
    | .read _ _ => 1
    | .ended => 0

def Done (x : Racer) : Prop := x.pc = .ended

/-- What a racer that holds a session, or none, has kept: nothing before its first round, and all
rounds at its end. The flag stands from the first gate on. -/
def Sound (abort : Bool) (x : Racer) : Prop :=
  match x.pc with
  | .opening | .failing | .meeting true | .met true => x.out = []
  | .meeting false | .met false => x.out = [] ∧ abort = true
  | .ended => x.out.length = ROUNDS ∧ abort = false ∨ x.out = [] ∧ abort = true
  | _ => x.out.length < ROUNDS ∧ abort = false

end Racer

theorem turn_level {i : Fin 2} {sh sh' : Shared} {x x' : Racer} {a : Answer}
    (h : turn i sh x a = some (sh', x')) : x'.level = x.level ∧ x'.rest < x.rest := by
  obtain ⟨pc, out⟩ := x
  cases pc with
  | opening =>
    cases h
    cases a.opened <;> simp [Racer.level, Racer.rest]
  | met opened =>
    cases opened <;> cases h
    · simp [Racer.level, Racer.rest]
    · cases sh.abort <;> simp [Racer.level, Racer.rest]
  | resetting =>
    cases h
    simp [Racer.level, Racer.rest]
  | _ => cases h <;> simp [Racer.level, Racer.rest]

theorem passes_level {x : Racer} (h : waits x = true) :
    (passes x).level = x.level + 1 ∧ (passes x).rest < x.rest := by
  obtain ⟨pc, out⟩ := x
  cases pc with
  | read said now =>
    by_cases hlast : out.length + 1 < ROUNDS
    · simp [passes, hlast, Racer.level, Racer.rest]
      omega
    · simp [passes, hlast, Racer.level, Racer.rest]
      omega
  | _ => simp [waits, passes, Racer.level, Racer.rest] at h ⊢

theorem racers_levels : barrier.Levels racers Racer.level where
  turn h := (turn_level h).1
  passes h := (passes_level h).1

theorem racers_measured : barrier.Measured racers Racer.rest where
  turn h := (turn_level h).2
  passes h := (passes_level h).2

/-! ## What the racers keep -/

theorem Racer.Sound.raise {abort : Bool} {x : Racer} (h : x.Sound abort) (hlevel : x.level = 0) :
    x.Sound true := by
  obtain ⟨pc, out⟩ := x
  cases pc with
  | meeting opened => cases opened <;> simp_all [Racer.Sound]
  | _ => simp_all [Racer.Sound, Racer.level]

theorem turn_sound {i : Fin 2} {sh sh' : Shared} {x x' : Racer} {a : Answer}
    (h : turn i sh x a = some (sh', x')) (hx : x.Sound sh.abort) :
    x'.Sound sh'.abort ∧ (sh'.abort = sh.abort ∨ x.level = 0 ∧ sh'.abort = true) := by
  obtain ⟨pc, out⟩ := x
  cases pc with
  | opening =>
    cases h
    cases a.opened <;> simp_all [Racer.Sound]
  | failing =>
    cases h
    simp_all [Racer.Sound, Racer.level]
  | met opened =>
    cases opened <;> cases h
    · simp_all [Racer.Sound]
    · cases hflag : sh.abort <;> simp_all [Racer.Sound, ROUNDS]
  | resetting =>
    cases h
    by_cases hi : i = 0 <;> simp_all [Racer.Sound]
  | _ => cases h <;> simp_all [Racer.Sound]

theorem passes_sound {abort : Bool} {x : Racer} (h : waits x = true) (hx : x.Sound abort) :
    (passes x).Sound abort := by
  obtain ⟨pc, out⟩ := x
  cases pc with
  | meeting opened => cases opened <;> simpa [passes, Racer.Sound] using hx
  | read said now =>
    obtain ⟨hlt, hflag⟩ : out.length < ROUNDS ∧ abort = false := hx
    by_cases hlast : out.length + 1 < ROUNDS
    · simp [passes, hlast, Racer.Sound, hflag]
    · simp [passes, hlast, Racer.Sound, hflag]
      omega
  | _ => simp_all [waits, passes, Racer.Sound]

/-- The racers are at one gate, and what each has kept agrees with the flag. -/
structure Agreed (s : State) : Prop where
  level : barrier.Level Racer.level s
  sound : ∀ i, (s.threads i).Sound s.shared.abort

theorem init_agreed (original : List UInt8) : Agreed (init original) :=
  ⟨fun _ _ => rfl, fun _ => rfl⟩

theorem step_agreed {s t : State} {ev : barrier.Event 2 Answer} (h : step s ev = some t)
    (hs : Agreed s) : Agreed t := by
  refine ⟨barrier.step_level racers_levels h hs.level, fun j => ?_⟩
  rcases barrier.step_cases h with ⟨i, a, sh, x, hturn, rfl⟩ | ⟨-, hall, rfl⟩
  · obtain ⟨hx, hflag⟩ := turn_sound hturn (hs.sound i)
    dsimp only
    by_cases hj : j = i
    · subst hj
      rwa [Function.update_self]
    · rw [Function.update_of_ne hj]
      rcases hflag with hsame | ⟨hlow, hraised⟩
      · rw [hsame]
        exact hs.sound j
      · -- the flag is only raised before the first gate
        rw [hraised]
        exact (hs.sound j).raise (by rw [hs.level j i, hlow])
  · exact passes_sound (hall j) (hs.sound j)

theorem exists_step {s : State} (hs : Agreed s) (hnot : ∃ i, ¬ (s.threads i).Done) :
    ∃ ev t, step s ev = some t := by
  refine barrier.exists_step (fun i => ?_) (fun i j hdone hwaits => ?_) hnot
  · rcases hx : s.threads i with ⟨pc, out⟩
    cases pc with
    | ended => exact .inl rfl
    | meeting opened | ready | swapped said | read said now => exact .inr (.inl rfl)
    | met opened => cases opened <;> exact .inr (.inr ⟨{}, rfl⟩)
    | _ => exact .inr (.inr ⟨{}, rfl⟩)
  · have hlevel := hs.level i j
    have hi := hs.sound i
    have hj := hs.sound j
    rcases hx : s.threads i with ⟨pc, out⟩
    obtain rfl : pc = .ended := by simpa [Racer.Done, hx] using hdone
    rcases hy : s.threads j with ⟨pc', out'⟩
    rw [hx, hy] at hlevel
    rw [hx] at hi
    rw [hy] at hj hwaits
    rcases hi with ⟨hlen, hflag⟩ | ⟨hout, hflag⟩
    · cases pc' <;> simp_all [racers, waits, Racer.level, Racer.Sound] <;> omega
    · cases pc' <;> simp_all [racers, waits, Racer.level, Racer.Sound]
      omega

/-! ## An atomic target -/

/-- The sessions are opened, and the target serves every call: its compare and write is one
sequence, and it tells what it did. -/
def Honest (len : Nat) (s : State) : barrier.Event 2 Answer → Prop
  | .turn i a =>
    match (s.threads i).pc with
    | .opening => a.opened = true
    | .resetting => i = 0 → a.after = v len
    | .swapping => a.said = .ok (decide (s.shared.block = v len)) ∧
        a.after = if s.shared.block = v len then id_of len i else s.shared.block
    | .reading _ => i = 0 → a.now = some s.shared.block
    | _ => True
  | .opens => True

/-- One host has won, and the block holds its id. -/
def Won (len : Nat) (b : List UInt8) (a_said b_said : Except String Bool) : Prop :=
  a_said = .ok true ∧ b_said = .ok false ∧ b = id_of len 0 ∨
    a_said = .ok false ∧ b_said = .ok true ∧ b = id_of len 1

/-- What the block holds while the two hosts are in a round. -/
def Fair (len : Nat) (b : List UInt8) : Pc → Pc → Prop
  | .ready, _ => b = v len
  | .swapping, .swapping => b = v len
  | .swapped r, .swapping => r = .ok true ∧ b = id_of len 0
  | .swapping, .swapped r => r = .ok true ∧ b = id_of len 1
  | .swapped r, .swapped r' => Won len b r r'
  | .reading r, .reading r' => Won len b r r'
  | .reading r, .read r' _ => Won len b r r'
  | .read r now, .reading r' => Won len b r r' ∧ now = some b
  | .read r now, .read r' _ => Won len b r r' ∧ now = some b
  | _, _ => True

theorem v_ne_id {len : Nat} (hlen : 0 < len) (i : Fin 2) : id_of len i ≠ v len := by
  obtain ⟨len, rfl⟩ := Nat.exists_eq_succ_of_ne_zero hlen.ne'
  intro h
  have hhead := congrArg List.head? h
  simp only [id_of, v, block, List.replicate_succ, List.head?_cons, Option.some.injEq] at hhead
  by_cases hi : i = 0
  · rw [if_pos hi] at hhead
    exact absurd hhead (by decide)
  · rw [if_neg hi] at hhead
    exact absurd hhead (by decide)

theorem Won.one_wins {len : Nat} {b : List UInt8} {r r' : Except String Bool}
    (h : Won len b r r') : one_wins len r r' (some b) = true := by
  rcases h with ⟨rfl, rfl, rfl⟩ | ⟨rfl, rfl, rfl⟩ <;> simp [ats_race.one_wins]

theorem turn_out {i : Fin 2} {sh sh' : Shared} {x x' : Racer} {a : Answer}
    (h : turn i sh x a = some (sh', x')) : x'.out = x.out := by
  obtain ⟨pc, out⟩ := x
  cases pc with
  | met opened => cases opened <;> cases h <;> rfl
  | _ => cases h <;> rfl

/-- No racer has told that it could not open its session. -/
def Pc.Opened : Pc → Prop
  | .failing | .meeting false | .met false => False
  | _ => True

/-- An honest turn raises no flag. -/
theorem turn_opened {len : Nat} {s : State} {i : Fin 2} {sh : Shared} {x : Racer} {a : Answer}
    (h : turn i s.shared (s.threads i) a = some (sh, x)) (hhonest : Honest len s (.turn i a))
    (hopened : (s.threads i).pc.Opened) : x.pc.Opened ∧ sh.abort = s.shared.abort := by
  simp only [Honest] at hhonest
  rcases hx : s.threads i with ⟨pc, out⟩
  rw [hx] at h hhonest hopened
  cases pc with
  | opening =>
    cases h
    simp_all [Pc.Opened]
  | met opened =>
    cases opened <;> cases h
    · simp_all [Pc.Opened]
    · cases s.shared.abort <;> simp_all [Pc.Opened]
  | resetting =>
    cases h
    by_cases hi : i = 0 <;> simp_all [Pc.Opened]
  | _ => cases h <;> simp_all [Pc.Opened]

/-- A turn of the first host. -/
theorem turn_fair_a {len : Nat} {s : State} {sh : Shared} {x : Racer} {a : Answer}
    (hlen : 0 < len) (h : turn 0 s.shared (s.threads 0) a = some (sh, x))
    (hhonest : Honest len s (.turn 0 a)) (hlevel : (s.threads 0).level = (s.threads 1).level)
    (hfair : Fair len s.shared.block (s.threads 0).pc (s.threads 1).pc) :
    Fair len sh.block x.pc (s.threads 1).pc := by
  simp only [Honest] at hhonest
  rcases hx : s.threads 0 with ⟨pc, out⟩
  rcases hy : s.threads 1 with ⟨pc', out'⟩
  rw [hx] at h hhonest
  rw [hx, hy] at hlevel hfair
  have hne := v_ne_id hlen 1
  cases pc with
  | opening =>
    cases h
    simp_all [Fair]
  | met opened =>
    cases opened <;> cases h
    · simp [Fair]
    · cases s.shared.abort <;> simp [Fair]
  | resetting =>
    cases h
    simp_all [Fair]
  | swapping =>
    cases h
    cases pc' <;> simp_all [Fair, Racer.level, Won]
  | reading said =>
    cases h
    cases pc' <;> simp_all [Fair, Racer.level]
  | _ => cases h <;> simp_all [Fair]

/-- A turn of the second host. -/
theorem turn_fair_b {len : Nat} {s : State} {sh : Shared} {x : Racer} {a : Answer}
    (hlen : 0 < len) (h : turn 1 s.shared (s.threads 1) a = some (sh, x))
    (hhonest : Honest len s (.turn 1 a)) (hlevel : (s.threads 0).level = (s.threads 1).level)
    (hfair : Fair len s.shared.block (s.threads 0).pc (s.threads 1).pc) :
    Fair len sh.block (s.threads 0).pc x.pc := by
  simp only [Honest] at hhonest
  rcases hx : s.threads 0 with ⟨pc, out⟩
  rcases hy : s.threads 1 with ⟨pc', out'⟩
  rw [hy] at h hhonest
  rw [hx, hy] at hlevel hfair
  have hne := v_ne_id hlen 0
  cases pc' with
  | met opened =>
    cases opened <;> cases h <;> cases pc <;> simp_all [Fair, Racer.level] <;> omega
  | _ => cases h <;> cases pc <;> simp_all [Fair, Racer.level, Won] <;> omega

theorem fair_next {len : Nat} {b : List UInt8} {p : Prop} [Decidable p] {y : Pc} :
    Fair len b (if p then .resetting else .ended) y := by
  split_ifs <;> simp [Fair]

/-- The gate opens for both hosts. -/
theorem passes_fair {len : Nat} {b : List UInt8} {x y : Racer} (hx : waits x = true)
    (hy : waits y = true) (hlevel : x.level = y.level) (hfair : Fair len b x.pc y.pc) :
    Fair len b (passes x).pc (passes y).pc := by
  obtain ⟨pc, out⟩ := x
  obtain ⟨pc', out'⟩ := y
  cases pc with
  | read said now => exact fair_next
  | _ => cases pc' <;> simp_all [waits, passes, Fair, Racer.level] <;> omega

/-- Each of the rounds had one winner. -/
def Rounds (len : Nat) (ra rb : List Round) : Prop :=
  ∀ p ∈ ra.zip rb, one_wins len p.1.1 p.2.1 p.1.2 = true

theorem passes_rounds {len : Nat} {b : List UInt8} {abort : Bool} {x y : Racer}
    (hx : waits x = true) (hy : waits y = true) (hlevel : x.level = y.level)
    (hsx : x.Sound abort) (hsy : y.Sound abort) (hfair : Fair len b x.pc y.pc)
    (h : Rounds len x.out y.out) :
    Rounds len (passes x).out (passes y).out := by
  obtain ⟨pc, out⟩ := x
  obtain ⟨pc', out'⟩ := y
  cases pc with
  | read said now =>
    cases pc' with
    | read said' now' =>
      obtain ⟨hwon, rfl⟩ : Won len b said said' ∧ now = some b := hfair
      have hlen : out.length = out'.length := by
        simp [Racer.level] at hlevel
        omega
      simp only [passes, Rounds, List.zip_append hlen, List.mem_append]
      rintro p (hp | hp)
      · exact h p hp
      · obtain rfl : p = ((said, some b), (said', now')) := by simpa using hp
        exact hwon.one_wins
    | meeting opened => cases opened <;> simp_all [Racer.Sound, Racer.level]
    | ready | swapped said' =>
      simp [Racer.level] at hlevel
      omega
    | _ => simp [waits] at hy
  | meeting opened =>
    cases pc' with
    | read said' now' =>
      -- no round has been kept before the first gate
      have hout : out = [] := by cases opened <;> simp_all [Racer.Sound]
      simp [Racer.level, hout] at hlevel
    | _ => simp_all [waits, passes]
  | _ =>
    cases pc' with
    | read said' now' =>
      simp_all [waits, Racer.level]
      try omega
    | _ => simp_all [waits, passes]

/-- The run so far, against an atomic target. -/
structure FairRun (len : Nat) (s : State) : Prop where
  agreed : Agreed s
  flag : s.shared.abort = false
  opened : ∀ i, (s.threads i).pc.Opened
  fair : Fair len s.shared.block (s.threads 0).pc (s.threads 1).pc
  rounds : Rounds len (s.threads 0).out (s.threads 1).out

theorem init_fair (len : Nat) (original : List UInt8) : FairRun len (init original) :=
  ⟨init_agreed original, rfl, fun _ => trivial, trivial, fun p hp => by cases hp⟩

theorem step_fair {len : Nat} (hlen : 0 < len) {s t : State} {ev : barrier.Event 2 Answer}
    (hs : FairRun len s) (hhonest : Honest len s ev) (h : step s ev = some t) : FairRun len t := by
  have hagreed := step_agreed h hs.agreed
  have hlevel := hs.agreed.level 0 1
  cases ev with
  | turn i a =>
    obtain ⟨⟨sh, x⟩, hturn, rfl⟩ := Option.map_eq_some_iff.mp h
    obtain ⟨hopened, hflag⟩ := turn_opened hturn hhonest (hs.opened i)
    have hout := turn_out hturn
    refine ⟨hagreed, hflag.trans hs.flag, fun j => ?_, ?_, ?_⟩
    · dsimp only
      by_cases hj : j = i
      · subst hj
        rwa [Function.update_self]
      · rw [Function.update_of_ne hj]
        exact hs.opened j
    · obtain rfl | rfl : i = 0 ∨ i = 1 := by fin_cases i <;> simp
      · simpa using turn_fair_a hlen hturn hhonest hlevel hs.fair
      · simpa using turn_fair_b hlen hturn hhonest hlevel hs.fair
    · have hsame : ∀ j, (Function.update s.threads i x j).out = (s.threads j).out := fun j => by
        by_cases hj : j = i
        · subst hj
          rw [Function.update_self, hout]
        · rw [Function.update_of_ne hj]
      simp only [hsame]
      exact hs.rounds
  | opens =>
    simp only [step, barrier.step] at h
    split_ifs at h with hall
    cases h
    refine ⟨hagreed, hs.flag, fun j => ?_, passes_fair (hall 0) (hall 1) hlevel hs.fair,
      passes_rounds (hall 0) (hall 1) hlevel (hs.agreed.sound 0) (hs.agreed.sound 1) hs.fair
        hs.rounds⟩
    have hopened := hs.opened j
    have hwaits := hall j
    rcases hx : s.threads j with ⟨pc, out⟩
    simp only [hx]
    rw [hx] at hopened hwaits
    cases pc with
    | meeting opened => cases opened <;> simp_all [racers, passes, Pc.Opened]
    | read said now =>
      by_cases hlast : out.length + 1 < ROUNDS <;> simp [racers, passes, hlast, Pc.Opened]
    | _ => simp_all [racers, waits, passes, Pc.Opened]

/-! ## The verdict of a race -/

theorem judge_eq_nil {len round : Nat} {rounds : List (Round × Round)} :
    (judge len round rounds).2 = [] ↔
      ∀ p ∈ rounds, one_wins len p.1.1 p.2.1 p.1.2 = true := by
  induction rounds generalizing round with
  | nil => simp [judge]
  | cons p rest ih =>
    obtain ⟨a, b⟩ := p
    by_cases hwins : one_wins len a.1 b.1 a.2 = true
    · simp [judge, hwins, ih]
    · simp [judge, hwins]

theorem judge_all {len round : Nat} {rounds : List (Round × Round)}
    (h : ∀ p ∈ rounds, one_wins len p.1.1 p.2.1 p.1.2 = true) :
    judge len round rounds = (rounds.length, []) := by
  induction rounds generalizing round with
  | nil => rfl
  | cons p rest ih =>
    obtain ⟨a, b⟩ := p
    have hwins := h _ List.mem_cons_self
    simp [judge, hwins, ih fun p hp => h p (List.mem_cons_of_mem _ hp)]

theorem verdict_eq_nil {len : Nat} {ra rb : List Round} : (verdict len ra rb).2 = [] ↔
    ROUNDS ≤ ra.length ∧ ROUNDS ≤ rb.length ∧ Rounds len ra rb := by
  unfold verdict
  by_cases hshort : ra.length < ROUNDS ∨ rb.length < ROUNDS
  · simp [hshort]
    omega
  · obtain ⟨ha, hb⟩ := not_or.mp hshort
    simp only [if_neg hshort, judge_eq_nil]
    exact ⟨fun h => ⟨not_lt.mp ha, not_lt.mp hb, h⟩, fun h => h.2.2⟩

theorem rest_le (original : List UInt8) : ∑ i, ((init original).threads i).rest = 1220 := by
  simp [init, Racer.rest, ROUNDS]

/-- Whatever the target answers: a race takes at most 1220 steps, always can be brought to its end,
and passes when each host kept exactly a hundred rounds and every round had one winner whose id
the block held. An atomic target that opens both sessions passes, with a hundred winners. -/
theorem a_race_ends_and_every_atomic_target_passes (len : Nat) (hlen : 0 < len)
    (original : List UInt8) (es : List (barrier.Event 2 Answer)) (s : State)
    (hrun : machine.run step (init original) es = some s) :
    es.length ≤ 1220 ∧
    (∃ fs t, machine.run step s fs = some t ∧ ∀ i, (t.threads i).Done) ∧
    ((∀ i, (s.threads i).Done) →
      ((verdict len (s.threads 0).out (s.threads 1).out).2 = [] ↔
        (∀ i, (s.threads i).out.length = ROUNDS) ∧
          Rounds len (s.threads 0).out (s.threads 1).out) ∧
      (machine.Along step (Honest len) (init original) es →
        verdict len (s.threads 0).out (s.threads 1).out = (ROUNDS, []))) := by
  have hs : Agreed s := machine.invariant (fun _ _ _ hs h => step_agreed h hs) hrun
    (init_agreed original)
  refine ⟨?_, ?_, fun hdone => ?_⟩
  · have hlength := barrier.length_le racers_measured (by decide) hrun
    rwa [rest_le] at hlength
  · exact barrier.exists_end racers_measured (by decide) (fun _ _ _ hs h => step_agreed h hs)
      (fun _ hs => exists_step hs) hs
  · have hmost : ∀ i, (s.threads i).out.length ≤ ROUNDS := fun i => by
      have hsound := hs.sound i
      simp only [Racer.Sound, show (s.threads i).pc = .ended from hdone i] at hsound
      rcases hsound with ⟨hlength, -⟩ | ⟨hout, -⟩
      · exact hlength.le
      · simp [hout]
    refine ⟨?_, fun hhonest => ?_⟩
    · rw [verdict_eq_nil]
      constructor
      · rintro ⟨ha, hb, hrounds⟩
        exact ⟨Fin.forall_fin_two.mpr ⟨(hmost 0).antisymm ha, (hmost 1).antisymm hb⟩, hrounds⟩
      · rintro ⟨hlength, hrounds⟩
        exact ⟨(hlength 0).ge, (hlength 1).ge, hrounds⟩
    · have hfair : FairRun len s := machine.invariant_along
        (fun _ _ _ hs hok h => step_fair hlen hs hok h) hrun hhonest (init_fair len original)
      have hlength : ∀ i, (s.threads i).out.length = ROUNDS := fun i => by
        have hsound := hs.sound i
        simp only [Racer.Sound, show (s.threads i).pc = .ended from hdone i] at hsound
        rcases hsound with ⟨hlength, -⟩ | ⟨-, hflag⟩
        · exact hlength
        · rw [hfair.flag] at hflag
          cases hflag
      simp [verdict, judge_all hfair.rounds, hlength 0, hlength 1]

/-- What an atomic target answers to a host. -/
def atomic (len : Nat) (s : State) (i : Fin 2) : Answer :=
  { opened := true
    after := match (s.threads i).pc with
      | .swapping => if s.shared.block = v len then id_of len i else s.shared.block
      | _ => v len
    said := .ok (decide (s.shared.block = v len))
    now := some s.shared.block }

theorem atomic_honest (len : Nat) (s : State) (i : Fin 2) : Honest len s (.turn i (atomic len s i)) := by
  simp only [Honest, atomic]
  cases (s.threads i).pc <;> simp

/-- Whether a host has a turn does not depend on the answer. -/
theorem turn_answered {i : Fin 2} {sh : Shared} {x : Racer} {a : Answer} (b : Answer)
    (h : (turn i sh x a).isSome) : (turn i sh x b).isSome := by
  obtain ⟨pc, out⟩ := x
  cases pc with
  | met opened => cases opened <;> rfl
  | meeting opened | ready | swapped said | read said now | ended => cases h
  | _ => rfl

/-- An atomic target lets the race go on. -/
theorem exists_honest_step {len : Nat} {s : State} (hs : Agreed s)
    (hnot : ∃ i, ¬ (s.threads i).Done) : ∃ ev t, Honest len s ev ∧ step s ev = some t := by
  obtain ⟨ev, t, hstep⟩ := exists_step hs hnot
  cases ev with
  | opens => exact ⟨.opens, t, trivial, hstep⟩
  | turn i a =>
    obtain ⟨⟨sh, x⟩, hturn, -⟩ := Option.map_eq_some_iff.mp hstep
    have hsome : (turn i s.shared (s.threads i) a).isSome := Option.isSome_iff_exists.mpr ⟨_, hturn⟩
    obtain ⟨y, hy⟩ := Option.isSome_iff_exists.mp (turn_answered (atomic len s i) hsome)
    exact ⟨.turn i (atomic len s i), _, atomic_honest len s i, Option.map_eq_some_iff.mpr ⟨y, hy, rfl⟩⟩

/-- A whole race against an atomic target. -/
theorem exists_honest_race (len : Nat) (original : List UInt8) : ∃ es s,
    machine.run step (init original) es = some s ∧
    machine.Along step (Honest len) (init original) es ∧ ∀ i, (s.threads i).Done := by
  obtain ⟨es, s, hrun, halong, hdone, -⟩ := @machine.exists_run_to_along _ _ step (Honest len) Agreed
    (fun s => ∀ i, (s.threads i).Done) (fun s => ∑ i, (s.threads i).rest)
    (fun s hs hnot => by
      obtain ⟨ev, t, hhonest, ht⟩ := exists_honest_step hs (not_forall.mp hnot)
      exact ⟨ev, t, hhonest, ht, step_agreed ht hs, barrier.step_measured racers_measured (by decide) ht⟩)
    (init original) (init_agreed original)
  exact ⟨es, s, hrun, halong, hdone⟩

/-- The first host cannot open its session. -/
def refused_race : List (barrier.Event 2 Answer) :=
  [.turn 0 { opened := false }, .turn 1 {}, .turn 0 {}, .opens, .turn 1 {}, .turn 0 {}]

/-- A race without a session: neither host waits for the other, and it does not pass. A race
against an atomic target passes. -/
theorem a_refused_race_fails_and_an_atomic_one_passes :
    (∃ s, machine.run step (init []) refused_race = some s ∧ (∀ i, (s.threads i).Done) ∧
      (verdict 512 (s.threads 0).out (s.threads 1).out).2 ≠ []) ∧
    ∃ es s, machine.run step (init []) es = some s ∧
      machine.Along step (Honest 512) (init []) es ∧ (∀ i, (s.threads i).Done) ∧
      verdict 512 (s.threads 0).out (s.threads 1).out = (ROUNDS, []) := by
  constructor
  · obtain ⟨s, hs, hdone, hout⟩ : ∃ s, machine.run step (init []) refused_race = some s ∧
        (∀ i, (s.threads i).Done) ∧ (s.threads 0).out = [] :=
      ⟨_, rfl, Fin.forall_fin_two.mpr ⟨rfl, rfl⟩, rfl⟩
    have h := (a_race_ends_and_every_atomic_target_passes 512 (by decide) [] refused_race s hs).2.2
      hdone
    refine ⟨s, hs, hdone, fun hpasses => ?_⟩
    have hlength := (h.1.mp hpasses).1 0
    rw [hout] at hlength
    exact absurd hlength (by decide)
  · obtain ⟨es, s, hs, hhonest, hdone⟩ := exists_honest_race 512 []
    have h := (a_race_ends_and_every_atomic_target_passes 512 (by decide) [] es s hs).2.2 hdone
    exact ⟨es, s, hs, hhonest, hdone, h.2 hhonest⟩

end stutools.ats_race
