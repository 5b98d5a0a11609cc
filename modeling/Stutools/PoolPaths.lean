-- The paths of a pool through dropped connections and new ones. A path that
-- comes back is put into rotation with whatever geometry it reports.
import Stutools.PoolSteps

namespace stutools

variable {σ : Type} {T : Transport σ}

namespace Pool

theorem session_set {sessions : List (Option σ)} {path other : Nat} {x : Option σ} {s : σ}
    (h : (sessions.set path x)[other]?.join = some s) :
    (other = path ∧ x = some s) ∨ (other ≠ path ∧ sessions[other]?.join = some s) := by
  rw [List.getElem?_set] at h
  split at h
  · rename_i heq
    split at h
    · exact Or.inl ⟨heq.symm, h⟩
    · cases h
  · rename_i hne
    exact Or.inr ⟨fun he => hne he.symm, h⟩

/-! ## The lengths of the tables -/

theorem Fits.disconnect {p : Pool σ} (h : p.Fits) (path : Nat) : (p.disconnect path).Fits := by
  rw [disconnect_eq]
  exact ⟨h.lanes.trans List.length_set.symm,
    List.length_set.trans (h.down.trans List.length_set.symm),
    h.reported.trans List.length_set.symm⟩

theorem Fits.reconnect {p : Pool σ} (h : p.Fits) (opens : Nat → Attempt σ) (path : Nat) :
    (p.reconnect T opens path).Fits := by
  unfold Pool.reconnect
  split
  · split
    · exact h
    · exact h
    · exact ⟨h.lanes.trans List.length_set.symm,
        List.length_set.trans (h.down.trans List.length_set.symm),
        List.length_set.trans (h.reported.trans List.length_set.symm)⟩
  · exact h

theorem Fits.try_reconnect {p : Pool σ} (h : p.Fits) (opens : Nat → Attempt σ) :
    (p.try_reconnect T opens).Fits :=
  List.foldlRecOn _ _ h fun _ hq path _ => hq.reconnect opens path

theorem Fits.set_session {p : Pool σ} (h : p.Fits) (path : Nat) (s : σ) :
    ({ p with sessions := p.sessions.set path (some s) } : Pool σ).Fits :=
  ⟨h.lanes.trans List.length_set.symm, h.down.trans List.length_set.symm,
    h.reported.trans List.length_set.symm⟩

theorem Fits.tick_all {p : Pool σ} (h : p.Fits) (ticks : Nat → Option σ) :
    (p.tick_all ticks).Fits := by
  refine List.foldlRecOn _ _ h fun q hq path _ => ?_
  unfold Pool.tick
  split
  · split
    · exact hq.set_session path _
    · exact hq.disconnect path
  · exact hq

theorem Fits.same {p : Pool σ} (h : p.Fits) {lanes : Lanes}
    (hsame : Lanes.SameRotation p.lanes lanes) : ({ p with lanes } : Pool σ).Fits :=
  ⟨hsame.paths.trans h.lanes, h.down, h.reported⟩

end Pool

namespace Drive

theorem finish_fits {d : Drive σ} (h : d.pool.Fits) (path : Nat) (session : σ) (done : Done)
    (nanos : Nat) : (d.finish path session done nanos).pool.Fits := by
  obtain ⟨h1, h2, h3⟩ := h.set_session path session
  unfold finish
  dsimp only
  split
  · exact ⟨h1, h2, h3⟩
  split
  · exact ⟨h1, h2, h3⟩
  split
  · exact ⟨h1, h2, h3⟩
  · exact ⟨h1, h2, h3⟩

theorem Move.fits {d e : Drive σ} {input : Input σ} (h : Move T d input e) (hd : d.pool.Fits) :
    e.pool.Fits := by
  obtain ⟨h1, h2, h3⟩ := hd
  have hfits : d.pool.Fits := ⟨h1, h2, h3⟩
  cases h with
  | quiet same _ => exact hfits.same same
  | «over» => exact hfits
  | no_room => exact hfits
  | on_no_path => exact hfits
  | reconnect same _ => exact (hfits.same same).try_reconnect _
  | tick => exact hfits.tick_all _
  | retry => exact ⟨h1, h2, h3⟩
  | execute => exact ⟨h1, h2, h3⟩
  | stream => exact ⟨h1, h2, h3⟩
  | dropped _ same _ _ => exact (hfits.same same).disconnect _
  | launch _ same _ _ _ =>
    obtain ⟨k1, k2, k3⟩ := (hfits.same same).set_session _ _
    exact ⟨k1, k2, k3⟩
  | lost => exact hfits.disconnect _
  | finish => exact finish_fits hfits _ _ _ _

theorem step_fits {d e : Drive σ} {input : Input σ} (hd : d.pool.Fits)
    (h : d.step T input = some e) : e.pool.Fits :=
  (step_move hd.lanes h).fits hd

end Drive

/-! ## One geometry -/

/-- Every live session was opened with the geometry. -/
structure Pool.Uniform (g : Geometry) (p : Pool σ) : Prop where
  geometry : p.geometry = g
  reported : ∀ path s, p.session path = some s → p.reported[path]? = some g

namespace Pool

variable {g : Geometry} {p : Pool σ}

theorem Uniform.same (h : p.Uniform g) (lanes : Lanes) : ({ p with lanes } : Pool σ).Uniform g :=
  ⟨h.geometry, h.reported⟩

theorem Uniform.disconnect (h : p.Uniform g) (path : Nat) : (p.disconnect path).Uniform g := by
  rw [disconnect_eq]
  refine ⟨h.geometry, fun other s hs => ?_⟩
  rcases session_set hs with ⟨-, hs⟩ | ⟨-, hs⟩
  · cases hs
  · exact h.reported other s hs

/-- The session of a path that is up may change. -/
theorem Uniform.set_session (h : p.Uniform g) {path : Nat} {s : σ} (hs : p.session path = some s)
    (s' : σ) : ({ p with sessions := p.sessions.set path (some s') } : Pool σ).Uniform g := by
  refine ⟨h.geometry, fun other t ht => ?_⟩
  rcases session_set ht with ⟨rfl, -⟩ | ⟨-, ht⟩
  · exact h.reported other s hs
  · exact h.reported other t ht

theorem Uniform.tick_all (h : p.Uniform g) (ticks : Nat → Option σ) :
    (p.tick_all ticks).Uniform g := by
  refine List.foldlRecOn _ _ h fun q hq path _ => ?_
  unfold Pool.tick
  split
  · rename_i hup
    obtain ⟨s, hs⟩ := Option.isSome_iff_exists.mp hup
    split
    · exact hq.set_session hs _
    · exact hq.disconnect path
  · exact hq

/-- A path that is down, with what opening it again gives. -/
def Reports (g : Geometry) (p : Pool σ) (opens : Nat → Attempt σ) : Prop :=
  ∀ path s g', p.down.getD path false = true → opens path = .opened s g' → g' = g

theorem reconnect_down {opens : Nat → Attempt σ} {path other : Nat}
    (h : (p.reconnect T opens path).down.getD other false = true) :
    p.down.getD other false = true := by
  unfold Pool.reconnect at h
  split at h
  · split at h
    · exact h
    · exact h
    · rename_i hdown _ _ _ _
      have hlt : path < p.down.length := flags.lt_of_mem_marked (flags.mem_marked.mpr hdown)
      dsimp only at h
      rw [flags.getD_set hlt] at h
      split at h
      · cases h
      · exact h
  · exact h

theorem Uniform.reconnect (h : p.Uniform g) (hp : p.Fits) {opens : Nat → Attempt σ}
    (hopens : p.Reports g opens) {path : Nat} (hpath : path < p.sessions.length) :
    (p.reconnect T opens path).Uniform g := by
  unfold Pool.reconnect
  split
  · rename_i hdown
    split
    · exact h
    · exact h
    · rename_i s g' hopened
      obtain rfl := hopens path s g' hdown hopened
      refine ⟨h.geometry, fun other t ht => ?_⟩
      dsimp only
      rw [List.getElem?_set]
      rcases session_set ht with ⟨rfl, -⟩ | ⟨hne, ht⟩
      · rw [if_pos rfl, if_pos (hp.reported ▸ hpath)]
      · rw [if_neg (Ne.symm hne)]
        exact h.reported other t ht
  · exact h

theorem reconnect_sessions_length (opens : Nat → Attempt σ) (path : Nat) :
    (p.reconnect T opens path).sessions.length = p.sessions.length := by
  unfold Pool.reconnect
  split
  · split
    · rfl
    · rfl
    · exact List.length_set
  · rfl

theorem Uniform.try_reconnect (h : p.Uniform g) (hp : p.Fits) {opens : Nat → Attempt σ}
    (hopens : p.Reports g opens) : (p.try_reconnect T opens).Uniform g := by
  -- connecting one path leaves the others down or up, as they were
  have hloop : (p.try_reconnect T opens).Uniform g ∧ (p.try_reconnect T opens).Fits ∧
      (p.try_reconnect T opens).Reports g opens ∧
      (p.try_reconnect T opens).sessions.length = p.sessions.length := by
    refine List.foldlRecOn (motive := fun q : Pool σ => q.Uniform g ∧ q.Fits ∧ q.Reports g opens ∧
      q.sessions.length = p.sessions.length) _ _ ⟨h, hp, hopens, rfl⟩ ?_
    rintro q ⟨hq, hqf, hqo, hql⟩ path hpath
    refine ⟨hq.reconnect hqf hqo (hql ▸ List.mem_range.mp hpath), hqf.reconnect opens path, ?_,
      (reconnect_sessions_length opens path).trans hql⟩
    exact fun other s g' hdown => hqo other s g' (reconnect_down hdown)
  exact hloop.1

end Pool

namespace Drive

/-- A step after which every path that came back reports the geometry. -/
def SameNamespace (g : Geometry) (d : Drive σ) : Input σ → Prop
  | .reconnect opens => d.pool.Reports g opens
  | _ => True

theorem Move.uniform {g : Geometry} {d e : Drive σ} {input : Input σ} (h : Move T d input e)
    (hfits : d.pool.Fits) (hd : d.pool.Uniform g) (hok : SameNamespace g d input) :
    e.pool.Uniform g := by
  cases h with
  | quiet => exact hd.same _
  | «over» => exact hd
  | no_room => exact hd
  | on_no_path => exact hd
  | reconnect same _ =>
    exact (hd.same _).try_reconnect (hfits.same same) hok
  | tick => exact hd.tick_all _
  | retry => exact ⟨hd.geometry, hd.reported⟩
  | execute => exact ⟨hd.geometry, hd.reported⟩
  | stream => exact ⟨hd.geometry, hd.reported⟩
  | dropped => exact (hd.same _).disconnect _
  | launch _ _ _ _ sent =>
    obtain ⟨k1, k2⟩ := hd.set_session sent _
    exact ⟨k1, k2⟩
  | lost => exact hd.disconnect _
  | @finish _ _ _ session done _ _ polled =>
    obtain ⟨k1, k2⟩ := hd.set_session polled session
    unfold Drive.finish
    dsimp only
    split
    · exact ⟨k1, k2⟩
    split
    · exact ⟨k1, k2⟩
    split
    · exact ⟨k1, k2⟩
    · exact ⟨k1, k2⟩

end Drive

/-! ## What the sessions keep -/

/-- Every live session has the property. -/
def Pool.Every (P : σ → Prop) (p : Pool σ) : Prop := ∀ path s, p.session path = some s → P s

namespace Pool

variable {P : σ → Prop} {p : Pool σ}

theorem Every.same (h : p.Every P) (lanes : Lanes) : ({ p with lanes } : Pool σ).Every P := h

theorem Every.disconnect (h : p.Every P) (path : Nat) : (p.disconnect path).Every P := by
  rw [disconnect_eq]
  intro other s hs
  rcases session_set hs with ⟨-, hs⟩ | ⟨-, hs⟩
  · cases hs
  · exact h other s hs

theorem Every.set_session (h : p.Every P) (path : Nat) {s : σ} (hs : P s) :
    ({ p with sessions := p.sessions.set path (some s) } : Pool σ).Every P := by
  intro other t ht
  rcases session_set ht with ⟨-, hst⟩ | ⟨-, ht⟩
  · obtain rfl := Option.some.inj hst
    exact hs
  · exact h other t ht

theorem Every.try_reconnect (h : p.Every P) {opens : Nat → Attempt σ}
    (hopens : ∀ path s g, opens path = .opened s g → P s) : (p.try_reconnect T opens).Every P := by
  refine List.foldlRecOn _ _ h fun q hq path _ => ?_
  unfold Pool.reconnect
  split
  · split
    · exact hq
    · exact hq
    · rename_i s g hopened
      exact hq.set_session path (hopens path s g hopened)
  · exact hq

theorem Every.tick_all (h : p.Every P) {ticks : Nat → Option σ}
    (hticks : ∀ path s, ticks path = some s → P s) : (p.tick_all ticks).Every P := by
  refine List.foldlRecOn _ _ h fun q hq path _ => ?_
  unfold Pool.tick
  split
  · split
    · rename_i s hs
      exact hq.set_session path (hticks path s hs)
    · exact hq.disconnect path
  · exact hq

end Pool

namespace Drive

/-- Every session that comes with an input has the property. -/
def Brings (P : σ → Prop) : Input σ → Prop
  | .reconnect opens => ∀ path s g, opens path = .opened s g → P s
  | .ticks ticks => ∀ path s, ticks path = some s → P s
  | .submitted (some s) => P s
  | .polled (some (s, _)) _ => P s
  | _ => True

/-- The live sessions are those from before the step and those that come with it. -/
theorem Move.every {P : σ → Prop} {d e : Drive σ} {input : Input σ} (h : Move T d input e)
    (hd : d.pool.Every P) (hin : Brings P input) : e.pool.Every P := by
  cases h with
  | quiet => exact hd
  | «over» => exact hd
  | no_room => exact hd
  | on_no_path => exact hd
  | reconnect => exact (hd.same _).try_reconnect hin
  | tick => exact hd.tick_all hin
  | retry => exact hd
  | execute => exact hd
  | stream => exact hd
  | dropped => exact (hd.same _).disconnect _
  | @launch _ _ path => exact hd.set_session path hin
  | lost => exact hd.disconnect _
  | @finish path =>
    have hset := hd.set_session path hin
    unfold Drive.finish
    dsimp only
    split
    · exact hset
    split
    · exact hset
    split
    · exact hset
    · exact hset

end Drive

/-- A call on a pool. Of a call of `drive` it has the steps up to any state. -/
inductive Call (σ : Type) where
  | reserve (depth : Nat)
  | set_race (on : Bool)
  | drive (mode : Mode) (inputs : List (Input σ))

/-- The pool after a call. -/
def Pool.call (T : Transport σ) (p : Pool σ) : Call σ → Option (Pool σ)
  | .reserve depth => some (p.reserve depth)
  | .set_race on => some (p.set_race on)
  | .drive mode inputs => (machine.run (Drive.step T) (Drive.start p mode) inputs).map (·.pool)

/-- A call in which every path that comes back reports the geometry. -/
def Call.SameNamespace (T : Transport σ) (g : Geometry) (p : Pool σ) : Call σ → Prop
  | .drive mode inputs =>
    machine.Along (Drive.step T) (Drive.SameNamespace g) (Drive.start p mode) inputs
  | _ => True

theorem Pool.call_uniform {g : Geometry} {p q : Pool σ} {call : Call σ}
    (hp : p.Fits ∧ p.Uniform g) (hok : call.SameNamespace T g p) (h : p.call T call = some q) :
    q.Fits ∧ q.Uniform g := by
  obtain ⟨⟨h1, h2, h3⟩, h4, h5⟩ := hp
  cases call with
  | reserve depth =>
    cases h
    exact ⟨⟨h1, h2, h3⟩, h4, h5⟩
  | set_race on =>
    cases h
    exact ⟨⟨h1, h2, h3⟩, h4, h5⟩
  | drive mode inputs =>
    obtain ⟨d, hd, rfl⟩ := Option.map_eq_some_iff.mp h
    refine machine.invariant_along (P := fun d : Drive σ => d.pool.Fits ∧ d.pool.Uniform g)
      (fun d input e hinv hinput hstep => ?_) hd hok ⟨⟨h1, h2, h3⟩, h4, h5⟩
    have hmove := Drive.step_move hinv.1.lanes hstep
    exact ⟨hmove.fits hinv.1, hmove.uniform hinv.1 hinv.2 hinput⟩

theorem Pool.open_fits {found : List (Option (σ × Geometry))} {policy : Policy} {seed : UInt64}
    {p : Pool σ} (h : Pool.open T found policy seed = some p) :
    p.Fits ∧ p.Uniform p.geometry := by
  unfold Pool.open at h
  simp only [bind, Option.bind_eq_some_iff] at h
  obtain ⟨opened, -, geometry, hgeometry, h⟩ := h
  split at h
  · rename_i hall
    simp only [Option.bind_eq_some_iff] at h
    obtain ⟨lanes, hlanes, h⟩ := h
    have hpaths : lanes.paths = opened.length := by
      unfold Lanes.new at hlanes
      split at hlanes
      · cases hlanes
      · cases hlanes
        rfl
    obtain rfl := Option.some.inj h
    refine ⟨⟨by simp [hpaths], by simp, by simp⟩, rfl, fun path s hs => ?_⟩
    unfold Pool.session at hs
    dsimp only at hs ⊢
    rw [List.getElem?_map] at hs ⊢
    cases hpath : opened[path]? with
    | none =>
      rw [hpath] at hs
      cases hs
    | some found =>
      have hsame := List.all_eq_true.mp hall found (List.mem_of_getElem? hpath)
      exact congrArg some (of_decide_eq_true hsame)
  · cases h

/-- Through every run of calls, dropped connections and new ones, each live session
was opened with the geometry of the pool, as long as every path that comes back
reports that geometry. -/
theorem live_sessions_share_the_geometry_while_paths_come_back_with_it (T : Transport σ)
    {found : List (Option (σ × Geometry))} {policy : Policy} {seed : UInt64} {p₀ p : Pool σ}
    {calls : List (Call σ)} (hopen : Pool.open T found policy seed = some p₀)
    (hrun : machine.run (Pool.call T) p₀ calls = some p)
    (hok : machine.Along (Pool.call T) (fun q call => call.SameNamespace T p₀.geometry q) p₀ calls) :
    p.geometry = p₀.geometry ∧
      ∀ path s, p.session path = some s → p.reported[path]? = some p.geometry := by
  obtain ⟨-, hgeometry, hreported⟩ := machine.invariant_along
    (P := fun q : Pool σ => q.Fits ∧ q.Uniform p₀.geometry)
    (fun q call r hq hcall hstep => Pool.call_uniform hq hcall hstep) hrun hok (Pool.open_fits hopen)
  exact ⟨hgeometry, fun path s hs => hgeometry.symm ▸ hreported path s hs⟩

/-- A transport with room for one command, for runs on a fixed input. -/
def Transport.single : Transport Nat :=
  { can_submit := fun n => n == 0
    inflight := id
    tier := fun _ => none
    check := fun _ _ => true }

/-- A call of `drive` in which a path is lost and comes back with a geometry. -/
def Call.lost_and_back (g : Geometry) : Call Nat :=
  .drive .stream [.reconnect fun _ => .waiting, .ticks fun _ => none, .offer .wait, .go,
    .reconnect fun _ => .opened 0 g]

/-- A path that comes back with the geometry it had. -/
theorem a_path_comes_back_with_512_byte_blocks :
    ∃ p₀ p, Pool.open .single [some (0, ⟨512, 1048576⟩)] .RoundRobin 1 = some p₀ ∧
      machine.run (Pool.call .single) p₀ [.reserve 1, .lost_and_back ⟨512, 1048576⟩] = some p ∧
      p.session 0 = some 0 ∧ p.reported[0]? = some p.geometry := by
  have hends : ((Pool.open .single [some (0, ⟨512, 1048576⟩)] .RoundRobin 1).bind fun p₀ =>
      (machine.run (Pool.call .single) p₀ [.reserve 1, .lost_and_back ⟨512, 1048576⟩]).map
        fun p => p.session 0) = some (some 0) := rfl
  obtain ⟨p₀, hopen, hends⟩ := Option.bind_eq_some_iff.mp hends
  obtain ⟨p, hrun, hsession⟩ := Option.map_eq_some_iff.mp hends
  have hgeometry : p₀.geometry = ⟨512, 1048576⟩ := by
    cases hopen
    rfl
  refine ⟨p₀, p, hopen, hrun, hsession, ?_⟩
  refine (live_sessions_share_the_geometry_while_paths_come_back_with_it _ hopen hrun ?_).2 0 0
    hsession
  refine machine.along_of_mem _ (fun call hcall q => ?_) p₀
  rcases List.mem_pair.mp hcall with rfl | rfl
  · trivial
  · refine machine.along_of_mem _ (fun input hinput d => ?_) _
    simp only [List.mem_cons, List.not_mem_nil, or_false] at hinput
    rcases hinput with rfl | rfl | rfl | rfl | rfl
    · intro path s g' _ hopened
      cases hopened
    · trivial
    · trivial
    · trivial
    · intro path s g' _ hopened
      cases hopened
      exact hgeometry.symm

/-- A path that comes back with blocks of 4096 bytes is put back into rotation,
and the pool goes on with blocks of 512. -/
theorem a_path_comes_back_with_another_block_length :
    ∃ p₀ p, Pool.open .single [some (0, ⟨512, 1048576⟩)] .RoundRobin 1 = some p₀ ∧
      machine.run (Pool.call .single) p₀ [.reserve 1, .lost_and_back ⟨4096, 1048576⟩] = some p ∧
      p.session 0 = some 0 ∧ p.lanes.is_usable 0 = true ∧
      p.reported[0]? = some ⟨4096, 1048576⟩ ∧ p.geometry = ⟨512, 1048576⟩ :=
  ⟨_, _, rfl, rfl, rfl, by decide, rfl, rfl⟩

end stutools
