-- The two builders that follow a write by a read of it, and the runs over what they build, at any
-- queue depth: a read is compared when the entry it names has finished, and finds what it compares
-- when its write was performed before it.
import Stutools.SpitReadBack

open memory

namespace stutools.spit

/-- How a list is turned into pairs of a write and a read. -/
inductive Builder where
  /-- `positionContainerUniqueSeeds` with `andVerify`, from a seed on. -/
  | UniqueSeeds (seed : Nat)
  /-- `positionContainerAddMetadataChecks`. -/
  | AddMetadataChecks
deriving DecidableEq

namespace Builder

def build : Builder → positionContainer → Option positionContainer
  | UniqueSeeds seed, pc => pc.UniqueSeeds seed true
  | AddMetadataChecks, pc => some pc.AddMetadataChecks

/-- Where position `i` of a list of `n` goes, and where what follows it does. -/
def indices : Builder → Nat → Nat → Nat × Nat
  | UniqueSeeds _, _, i => (2 * i, 2 * i + 1)
  | AddMetadataChecks, n, i => (i, n + i)

/-- The index that a read which replaces a write is given to verify. -/
def names : Builder → Nat → Nat
  | UniqueSeeds _, i => 2 * i
  | AddMetadataChecks, _ => 1

/-- The position at `j` of what is built replaces the write at `w`. -/
def Replaces (b : Builder) (origs : List positionType) (j w : Nat) : Prop :=
  ∃ i < origs.length, (origs.getD i default).action = 'W' ∧
    b.indices origs.length i = (w, j)

end Builder

/-- What a builder makes of a list. -/
structure Pairs (b : Builder) (origs ps : List positionType) : Prop where
  cover : ∀ j < ps.length, ∃ i < origs.length,
    j = (b.indices origs.length i).1 ∨ j = (b.indices origs.length i).2
  bound : ∀ i < origs.length, (b.indices origs.length i).1 < ps.length ∧
    (b.indices origs.length i).2 < ps.length
  first : ∀ i < origs.length, ∃ seed, ps.getD (b.indices origs.length i).1 default =
    { origs.getD i default with seed := seed }
  second : ∀ i < origs.length, ps.getD (b.indices origs.length i).2 default =
    if (origs.getD i default).action = 'W' then
      { ps.getD (b.indices origs.length i).1 default with action := 'R', verify := b.names i }
    else ps.getD (b.indices origs.length i).1 default

namespace positionContainer

theorem unique_seeds.spec {origs ps : List positionType} {seed j : Nat}
    (h : unique_seeds true origs seed j = some ps) :
    ps.length = 2 * origs.length ∧ ∀ i < origs.length,
      (∃ seed, ps.getD (2 * i) default = { origs.getD i default with seed := seed }) ∧
      ps.getD (2 * i + 1) default = if (origs.getD i default).action = 'W' then
        { ps.getD (2 * i) default with action := 'R', verify := j + 2 * i }
        else ps.getD (2 * i) default := by
  induction origs generalizing seed j ps with
  | nil =>
    obtain rfl := Option.some.inj h
    simp
  | cons p origs ih =>
    unfold unique_seeds at h
    rw [if_pos rfl] at h
    split at h
    · cases h
    · rename_i hfits
      obtain ⟨rest, hrest, hps⟩ := Option.bind_eq_some_iff.mp h
      obtain rfl := Option.some.inj hps
      obtain ⟨hlength, hat⟩ := ih hrest
      refine ⟨by simp [hlength]; omega, ?_⟩
      intro i hi
      cases i with
      | zero =>
        refine ⟨⟨seed, rfl⟩, ?_⟩
        change read_back j { p with seed := seed } =
          if p.action = 'W' then { p with seed := seed, action := 'R', verify := j }
          else { p with seed := seed }
        unfold read_back at hfits ⊢
        by_cases hW : p.action = 'W'
        · rw [if_pos hW] at hfits
          rw [if_pos hW, if_pos hW]
          have hj : j % 2 ^ 32 = j := by
            by_contra hne
            exact hfits ⟨hW, hne⟩
          rw [hj]
        · rw [if_neg hW, if_neg hW]
      | succ i =>
        obtain ⟨hfirst, hsecond⟩ := hat i (by simpa using hi)
        have h2 : 2 * (i + 1) = 2 * i + 1 + 1 := by omega
        have hj : j + (2 * i + 1 + 1) = j + 2 + 2 * i := by omega
        rw [h2, hj]
        exact ⟨hfirst, hsecond⟩

end positionContainer

/-- Both builders make pairs. -/
theorem Builder.build.spec {b : Builder} {pc pc' : positionContainer} (h : b.build pc = some pc') :
    Pairs b pc.positions pc'.positions := by
  cases b with
  | UniqueSeeds seed =>
    obtain ⟨ps, hps, hpc⟩ := Option.bind_eq_some_iff.mp h
    obtain rfl := Option.some.inj hpc
    obtain ⟨hlength, hat⟩ := positionContainer.unique_seeds.spec hps
    refine ⟨?_, ?_, fun i hi => (hat i hi).1, ?_⟩
    · intro j hj
      dsimp only at hj
      refine ⟨j / 2, by omega, ?_⟩
      unfold indices
      dsimp only
      omega
    · intro i hi
      unfold indices
      dsimp only
      omega
    · intro i hi
      have hsecond := (hat i hi).2
      rw [Nat.zero_add] at hsecond
      exact hsecond
  | AddMetadataChecks =>
    obtain rfl := Option.some.inj h
    have hleft : ∀ i < pc.positions.length, pc.AddMetadataChecks.positions.getD i default =
        pc.positions.getD i default := by
      intro i hi
      unfold positionContainer.AddMetadataChecks
      rw [List.getD_eq_getElem?_getD, List.getElem?_append_left hi, List.getD_eq_getElem?_getD]
    have hright : ∀ i < pc.positions.length,
        pc.AddMetadataChecks.positions.getD (pc.positions.length + i) default =
          positionContainer.metadata_check (pc.positions.getD i default) := by
      intro i hi
      unfold positionContainer.AddMetadataChecks
      rw [List.getD_eq_getElem?_getD, List.getElem?_append_right (by omega),
        Nat.add_sub_cancel_left, List.getElem?_map, List.getD_eq_getElem _ _ hi,
        List.getElem?_eq_getElem hi]
      rfl
    have hlength : pc.AddMetadataChecks.positions.length = 2 * pc.positions.length := by
      simp [positionContainer.AddMetadataChecks]
      omega
    refine ⟨?_, ?_, ?_, ?_⟩
    · intro j hj
      by_cases hlt : j < pc.positions.length
      · exact ⟨j, hlt, Or.inl rfl⟩
      · refine ⟨j - pc.positions.length, by omega, Or.inr ?_⟩
        unfold indices
        dsimp only
        omega
    · intro i hi
      unfold indices
      dsimp only
      omega
    · intro i hi
      exact ⟨(pc.positions.getD i default).seed, hleft i hi⟩
    · intro i hi
      change pc.AddMetadataChecks.positions.getD (pc.positions.length + i) default =
        if (pc.positions.getD i default).action = 'W' then
          { pc.AddMetadataChecks.positions.getD i default with action := 'R', verify := 1 }
        else pc.AddMetadataChecks.positions.getD i default
      rw [hright i hi, hleft i hi]
      rfl

/-! ## The positions of the pairs -/

/-- The positions of a list are apart. -/
def Apart (origs : List positionType) : Prop :=
  ∀ i < origs.length, ∀ k < origs.length, i ≠ k →
    ¬ Overlap (origs.getD i default).pos (origs.getD i default).len (origs.getD k default).pos
      (origs.getD k default).len

instance (origs : List positionType) : Decidable (Apart origs) :=
  inferInstanceAs (Decidable (∀ i < origs.length, ∀ k < origs.length, i ≠ k → ¬ Overlap _ _ _ _))

/-- A list that has not been run, with room for the header in every extent. -/
structure Unrun (origs : List positionType) : Prop where
  apart : Apart origs
  header : ∀ p ∈ origs, 16 ≤ p.len
  bound : ∀ p ∈ origs, p.pos < 2 ^ 64
  idle : ∀ p ∈ origs, p.inFlight = false ∧ p.finishTime = 0
  unverified : ∀ p ∈ origs, p.verify = 0

namespace Pairs

variable {b : Builder} {origs ps : List positionType}

theorem lt_of_action {l : List positionType} {i : Nat} {action : Char}
    (h : (l.getD i default).action = action) (hne : action ≠ Char.ofNat 0) : i < l.length := by
  by_contra hge
  rw [List.getD_eq_getElem?_getD, List.getElem?_eq_none (by omega)] at h
  exact hne h.symm

/-- A position is one of the list with another seed, or reads back a write of it. -/
theorem origin (h : Pairs b origs ps) {j : Nat} (hj : j < ps.length) : ∃ i < origs.length,
    (∃ seed, ps.getD j default = { origs.getD i default with seed := seed }) ∧
        (j = (b.indices origs.length i).1 ∨ (origs.getD i default).action ≠ 'W') ∨
      (origs.getD i default).action = 'W' ∧ j = (b.indices origs.length i).2 ∧
        ∃ seed, ps.getD j default =
          { origs.getD i default with seed := seed, action := 'R', verify := b.names i } := by
  obtain ⟨i, hi, rfl | rfl⟩ := h.cover j hj
  · exact ⟨i, hi, Or.inl ⟨h.first i hi, Or.inl rfl⟩⟩
  · obtain ⟨seed, hfirst⟩ := h.first i hi
    have hsecond := h.second i hi
    rw [hfirst] at hsecond
    by_cases hW : (origs.getD i default).action = 'W'
    · rw [if_pos hW] at hsecond
      exact ⟨i, hi, Or.inr ⟨hW, rfl, seed, hsecond⟩⟩
    · rw [if_neg hW] at hsecond
      exact ⟨i, hi, Or.inl ⟨⟨seed, hsecond⟩, Or.inr hW⟩⟩

/-- What holds of every position of the list, whatever its seed, its action and what it
verifies, holds of every position built. -/
theorem forall_mem (h : Pairs b origs ps) {P : positionType → Prop} (horigs : ∀ p ∈ origs, P p)
    (hP : ∀ p seed action verify, P p →
      P { p with seed := seed, action := action, verify := verify }) : ∀ p ∈ ps, P p := by
  intro p hp
  obtain ⟨j, hj, rfl⟩ := List.getElem_of_mem hp
  rw [← List.getD_eq_getElem _ default hj]
  have hmem : ∀ i < origs.length, P (origs.getD i default) := by
    intro i hi
    rw [List.getD_eq_getElem _ _ hi]
    exact horigs _ (List.getElem_mem hi)
  obtain ⟨i, hi, ⟨⟨seed, heq⟩, -⟩ | ⟨-, -, seed, heq⟩⟩ := h.origin hj
  · rw [heq]
    exact hP _ seed _ _ (hmem i hi)
  · rw [heq]
    exact hP _ seed _ _ (hmem i hi)

/-- A write that is built is where its position of the list went. -/
theorem write_index (h : Pairs b origs ps) {w : Nat} (hw : (ps.getD w default).action = 'W') :
    ∃ i < origs.length, (origs.getD i default).action = 'W' ∧ w = (b.indices origs.length i).1 ∧
      ∃ seed, ps.getD w default = { origs.getD i default with seed := seed } := by
  obtain ⟨i, hi, ⟨⟨seed, heq⟩, hat⟩ | ⟨-, -, seed, heq⟩⟩ := h.origin (lt_of_action hw (by decide))
  · rw [heq] at hw
    exact ⟨i, hi, hw, hat.resolve_right fun hne => hne hw, seed, heq⟩
  · rw [heq] at hw
    cases hw

theorem separate (h : Pairs b origs ps) (hapart : Apart origs) : Separate ps := by
  intro w j hw hne haction
  obtain ⟨i, hi, hWi, rfl, seed, heqw⟩ := h.write_index hw
  have hj : j < ps.length := by
    obtain hW | hT := haction
    · exact lt_of_action hW (by decide)
    · exact lt_of_action hT (by decide)
  obtain ⟨k, hk, ⟨⟨seed', heq⟩, hat⟩ | ⟨-, -, seed', heq⟩⟩ := h.origin hj
  · have hik : k ≠ i := by
      rintro rfl
      exact hne (hat.resolve_right fun h => h hWi)
    rw [heqw, heq]
    exact hapart k hk i hi hik
  · rw [heq] at haction
    obtain hW | hT := haction
    · cases hW
    · cases hT

/-- A position that verifies something replaces a write. -/
theorem replaces_of_verify (h : Pairs b origs ps) (hnone : ∀ p ∈ origs, p.verify = 0) {j : Nat}
    (hj : (ps.getD j default).verify ≠ 0) : ∃ w, b.Replaces origs j w := by
  have hlt : j < ps.length := by
    by_contra hge
    apply hj
    rw [List.getD_eq_getElem?_getD, List.getElem?_eq_none (by omega)]
    rfl
  obtain ⟨i, hi, ⟨⟨seed, heq⟩, -⟩ | ⟨hW, hat, -⟩⟩ := h.origin hlt
  · exfalso
    apply hj
    have hverify := hnone _ (List.getElem_mem hi)
    rw [heq, List.getD_eq_getElem _ _ hi]
    exact hverify
  · exact ⟨_, i, hi, hW, by rw [hat]⟩

/-- A read that replaces a write reads it back. -/
theorem reads_back (h : Pairs b origs ps) {i j w : Nat} (hi : i < origs.length)
    (hW : (origs.getD i default).action = 'W') (hat : b.indices origs.length i = (w, j)) :
    ReadsBack ps j w := by
  obtain ⟨seed, hfirst⟩ := h.first i hi
  have hsecond := h.second i hi
  rw [if_pos hW] at hsecond
  rw [hat] at hfirst hsecond
  dsimp only at hfirst hsecond
  refine ⟨?_, ?_, ?_, ?_, ?_⟩
  · rw [hsecond]
  · rw [hfirst]
    exact hW
  · rw [hsecond]
  · rw [hsecond]
  · rw [hsecond]

/-- The reads that replace a write are the pairs of what is built. -/
theorem paired (h : Pairs b origs ps) (hnone : ∀ p ∈ origs, p.verify = 0) :
    Engine.Paired (b.Replaces origs) ps := by
  refine ⟨?_, fun j hj => h.replaces_of_verify hnone hj⟩
  rintro j w ⟨i, hi, hW, hat⟩
  exact h.reads_back hi hW hat

theorem fixed {c : Arguments} (h : Pairs b origs ps) (hunrun : Unrun origs)
    (halternate : c.alternateEvery = 0) : Engine.Fixed c ps :=
  ⟨halternate, h.separate hunrun.apart, h.forall_mem hunrun.header fun _ _ _ _ hp => hp,
    h.forall_mem hunrun.bound fun _ _ _ _ hp => hp⟩

end Pairs

/-! ## Every run -/

namespace Builder

/-- What holds of the write that a position replaces can be looked up. -/
instance Replaces.decidable_forall (b : Builder) (origs : List positionType) (j : Nat)
    (P : Nat → Prop) [DecidablePred P] : Decidable (∀ w, b.Replaces origs j w → P w) :=
  decidable_of_iff (∀ i < origs.length, (origs.getD i default).action = 'W' →
      (b.indices origs.length i).2 = j → P (b.indices origs.length i).1)
    ⟨fun h w ⟨i, hi, hW, hat⟩ => by
      have hP := h i hi hW (by rw [hat])
      rwa [hat] at hP,
    fun h i hi hW hat => h _ ⟨i, hi, hW, by rw [← hat]⟩⟩

/-- What a step asks of its input: a fill stays in its slot, and the report of a read that replaces
a write finds it `Answered`. -/
def Meets (b : Builder) (c : Arguments) (origs : List positionType) (h : Engine.Story)
    (s : Engine) (input : Engine.Input) : Prop := s.Verifies c (b.Replaces origs) h input

instance Meets.decidable (b : Builder) (c : Arguments) (origs : List positionType)
    (h : Engine.Story) (s : Engine) : (input : Engine.Input) → Decidable (b.Meets c origs h s input)
  | .submit a => inferInstanceAs (Decidable (s.Prepares c a → s.Contained c))
  | .events now events => inferInstanceAs (Decidable (∀ n < events.length, ∀ e ∈ events[n]?,
      ∀ r ∈ s.kernel, r.obj = e.obj → ∀ w, b.Replaces origs r.cb.data w →
        Engine.Answered c h s now (events.take n) r w))
  | .turn .. | .perform _ => isTrue trivial

end Builder

namespace Engine

/-- There is one slot, and what is in flight has seen the finish times of the other positions as
they are. -/
structure Alone (s : Engine) : Prop where
  QD : s.QD = 1
  seen : ∀ r ∈ s.kernel, ∀ v, v ≠ r.cb.data →
    (r.seen.getD v default).finishTime = (s.position v).finishTime

variable {rand_r : Nat → Nat × Nat} {c : Arguments} {s t : Engine}

theorem Alone.empty (hQD : s.QD = 1) (hkernel : s.kernel = []) : s.Alone :=
  ⟨hQD, fun r hr => by
    rw [hkernel] at hr
    cases hr⟩

/-- Where a turn goes on to its position, nothing is in flight. -/
theorem Alone.open (hs : s.Alone) (hcons : s.Conserved) (hopen : s.Open) : s.kernel = [] := by
  have hlt := hcons.open hopen
  rw [hs.QD] at hlt
  exact List.eq_nil_of_length_eq_zero (by omega)

theorem Alone.quiet (hs : s.Alone) (hcons : s.Conserved) (hopen : s.Open) (hquiet : Quiet c s t) :
    t.Alone :=
  .empty (hquiet.QD.trans hs.QD) (hquiet.kernel.trans (hs.open hcons hopen))

theorem Alone.nextpos (hs : s.Alone) : (s.nextpos c).Alone := by
  have hquiet := quiet_nextpos c s
  refine ⟨hquiet.QD.trans hs.QD, fun r hr v hv => ?_⟩
  rw [hquiet.kernel] at hr
  rw [(nextpos_still c s).2]
  exact hs.seen r hr v hv

theorem Alone.turn (hs : s.Alone) (hcons : s.Conserved) {a : Answers}
    (hturn : Turn rand_r c a s t) : t.Alone := by
  cases hturn with
  | stop n phase => exact ⟨hs.QD, hs.seen⟩
  | pass n => exact Alone.nextpos ⟨hs.QD, hs.seen⟩
  | trim hopen =>
    have hquiet := (quiet_begun s).trans (quiet_trim (c := c) a.now a.done a.left hopen.idle)
    exact (hs.quiet hcons hopen hquiet).nextpos
  | skip pos hopen =>
    have hput : Quiet c s (s.begun.taken_put c) := (quiet_begun s).trans (quiet_taken_put hopen.idle)
    exact Alone.nextpos (hs.quiet hcons hopen (hput.trans (quiet_counters c _ _ _ _ _ _)))
  | limit hopen hu =>
    exact hs.quiet hcons hopen ((hcons.ready hopen hu).1.trans (quiet_counters c _ _ _ _ _ _))
  | refuse hopen hu =>
    have hrefused := quiet_refused (c := c) (hcons.ready_idle hopen hu)
    exact (hs.quiet hcons hopen ((hcons.ready hopen hu).1.trans hrefused)).nextpos
  | give_up hopen hu =>
    have hrefused := quiet_refused (c := c) (hcons.ready_idle hopen hu)
    exact hs.quiet hcons hopen
      (((hcons.ready hopen hu).1.trans hrefused).trans (quiet_counters c _ _ _ _ _ _))
  | @accept u hopen hu =>
    obtain ⟨hquiet, -, -⟩ := hcons.ready hopen hu
    have hkernel : u.kernel = [] := hquiet.kernel.trans (hs.open hcons hopen)
    refine Alone.nextpos ⟨hquiet.QD.trans hs.QD, fun r hr v hv => ?_⟩
    have hr : r ∈ u.kernel ++
      [⟨u.head_slot, u.cbs.getD u.head_slot default, false, u.positions⟩] := hr
    rw [hkernel, List.nil_append, List.mem_singleton] at hr
    subst hr
    have hne : u.pos ≠ v := fun heq => hv (by rw [(hcons.block hopen hu).2.1, heq])
    exact congrArg positionType.finishTime (position_put_ne hne).symm

theorem Alone.step (hs : s.Alone) (hcons : s.Conserved) {input : Input}
    (hstep : s.step rand_r c input = some t) : t.Alone := by
  have hevents {now : ℚ≥0} {events : List io_event}
      (h : s.receive_all c now events = some t ∨ s.drain_turn c now events = some t) :
      t.Alone := by
    refine events_rule (fun u v e r _ hheld hu hr => ?_)
      (fun u n phase count errors hu => ⟨hu.QD, hu.seen⟩) hcons.held hs h
    have hlen := (hr.perm hheld).length_eq
    have hle := hheld.length_le
    rw [hu.QD] at hle
    rw [List.length_cons] at hlen
    exact .empty (hr.QD.trans hu.QD) (List.eq_nil_of_length_eq_zero (by omega))
  cases step_moves hstep with
  | turn keepRunning due n phase => exact ⟨hs.QD, hs.seen⟩
  | submit hturn => exact hs.turn hcons hturn
  | receive h => exact hevents (.inl h)
  | drain h => exact hevents (.inr h)
  | perform h =>
    obtain ⟨r, hr, -, -, device, readdata, rfl, -⟩ := perform_cases h
    refine ⟨hs.QD, fun r' hr' v hv => ?_⟩
    obtain ⟨r₀, hr₀, -, hcb, hseen, -⟩ := mem_marked_performed hr'
    rw [hcb] at hv
    rw [hseen]
    exact hs.seen r₀ hr₀ v hv

/-- The report of a read that verifies the entry of its own write finds it answered. -/
theorem Alone.answered (hs : s.Alone) (hheld : s.Held) (hstring : c.stringcompare = false)
    {r : Request} (hr : r ∈ s.kernel) {w : Nat} (hne : w ≠ r.cb.data)
    (hverify : (s.position r.cb.data).verify = w) (hzero : w ≠ 0) (hlt : w < s.positions.length)
    (h : Story) (now : ℚ≥0) (before : List io_event) : Answered c h s now before r w := by
  have hseen := hs.seen r hr w hne
  unfold Answered Named
  rw [hverify, hseen]
  refine ⟨fun hfinish => ⟨hzero, hlt, .inl hfinish⟩, fun hnamed => ⟨.inl ?_, fun hcmp => ?_⟩⟩
  · refine hnamed.2.2.resolve_right ?_
    rintro ⟨-, e, -, r', hr', -, hdata⟩
    have hobj := hheld.obj_lt hr
    have hobj' := hheld.obj_lt hr'
    rw [hs.QD] at hobj hobj'
    obtain rfl := hheld.obj_inj hr hr' (by omega)
    exact hne hdata.symm
  · rw [hstring] at hcmp
    cases hcmp

/-- Over what `positionContainerUniqueSeeds` makes of a list that does not begin with a write, every
run on one slot meets the condition, if the bytes are not compared. -/
theorem meets_on_one_slot {seed : Nat} {pc pc' : positionContainer}
    (hbuild : (Builder.UniqueSeeds seed).build pc = some pc') (hunrun : Unrun pc.positions)
    (hQD : c.QDmax = 1) (halternate : c.alternateEvery = 0) (hstring : c.stringcompare = false)
    (hfirst : (pc.positions.getD 0 default).action ≠ 'W') {ioerrors : Nat} {device : Memory}
    (hstart : start rand_r c pc' ioerrors device = some s) (inputs : List Input) :
    machine.Along (following rand_r c)
      (fun s => (Builder.UniqueSeeds seed).Meets c pc.positions s.2 s.1)
      (s, .first (pc'.positions.getD 0 default).seed) inputs := by
  have hpairs := Builder.build.spec hbuild
  have hfix := hpairs.fixed hunrun halternate
  have hidle : ∀ p ∈ pc'.positions, p.inFlight = false :=
    hpairs.forall_mem (fun p hp => (hunrun.idle p hp).1) fun _ _ _ _ hp => hp
  obtain ⟨hbuffered, -⟩ := start_buffered (by omega) (fun _ => hidle) hfix.header hstart
  have halone : s.Alone := by
    unfold start at hstart
    dsimp only at hstart
    split at hstart
    · cases hstart
    · obtain rfl := Option.some.inj hstart
      exact .empty (by dsimp only; omega) rfl
  refine machine.along_of_invariant
    (P := fun u => u.1.Buffered rand_r c pc'.positions u.2.source ∧ u.1.Alone) ?_ ?_
    ⟨hbuffered, halone⟩ inputs
  · rintro ⟨u, h⟩ input v ⟨hb, ha⟩ hstep
    obtain ⟨w, hw, rfl⟩ := Option.map_eq_some_iff.mp hstep
    refine ⟨hb.step ?_ hw, ha.step hb.conserved hw⟩
    cases input with
    | submit a => exact fun _ _ _ => .inr ha.QD
    | _ => trivial
  · rintro ⟨u, h⟩ input ⟨hb, ha⟩
    cases input with
    | submit a => exact fun _ _ _ => .inr ha.QD
    | events now events =>
      rintro n - e - r hr - w ⟨i, hi, hW, hat⟩
      have hi0 : i ≠ 0 := fun h0 => hfirst (h0 ▸ hW)
      have hback := hpairs.reads_back hi hW hat
      have hsame := hb.filled.same
      have haction := (hfix.action hsame r.cb.data).trans hback.read
      have hverify := (hsame r.cb.data).verify halternate haction
      have hsecond := hpairs.second i hi
      obtain ⟨hbound, -⟩ := hpairs.bound i hi
      rw [hat] at hbound hsecond
      rw [if_pos hW] at hsecond
      obtain ⟨rfl, hdata⟩ := Prod.mk.inj hat
      refine ha.answered hb.conserved.held hstring hr (by omega) ?_ (by omega) ?_ h now _
      · rw [hverify, hsecond]
        rfl
      · rw [hb.filled.length]
        exact hbound
    | _ => trivial

/-! ## Two runs -/

/-- Two writes of blocks that are apart. -/
def two_writes : positionContainer :=
  { positions := [{ positionType.zero with len := 16, seed := 7, action := 'W' },
      { positionType.zero with pos := 4096, len := 16, seed := 7, action := 'W' }],
    maxbs := 16, writtenBytes := 0, writtenIOs := 0, readBytes := 0, readIOs := 0, UUID := 5 }

end Engine

end stutools.spit
