-- The workers of the file-server fill (src/rust/src/fsfiller.rs), which share an index, a
-- reservation and two flags without a lock: one event is one access to what they share, or
-- one call that reads or writes a file, of any worker. A file is known by its index.
import Mathlib.Data.List.Nodup
import Stutools.Fsfiller
import Stutools.Machine

namespace stutools.fsfiller.pool

inductive Stop where
  | full
  | cap
  | time
  | interrupted
deriving DecidableEq

/-- Where a worker is: before each load or store of `worker`, or in `write_file` with the
bytes that are left and what the file holds. -/
inductive Pc where
  | load_done
  | load_new
  | take
  | reserve (index : UInt64)
  | crossed
  | writing (index : UInt64) (left : Nat) (content : List UInt8)
  | chunk (index : UInt64) (left : Nat) (content : List UInt8)
  | failed (index : UInt64) (is_full : Bool)
  | ended
deriving DecidableEq

/-- `Shared`, with the workers, and what has been started and completed. -/
structure State where
  workers : List Pc
  done : Bool
  no_new : Bool
  reason : Option Stop
  next : UInt64
  reserved : UInt64
  started : List UInt64
  completed : List (UInt64 × List UInt8)
deriving DecidableEq

/-- A step of a worker, whose call fails or not where it makes one, or a stop that the
monitor finds. -/
inductive Event where
  | step (w : Nat) (error : Option Bool)
  | stop (interrupted : Bool)

/-- The settings of a run, and the sizes that `file_kind_and_size` gives. -/
structure Config where
  root : List Char
  settings : Settings
  cap : Option UInt64
  cant_stop : Bool
  write_mode : WriteMode
  size : UInt64 → UInt64

namespace Config

/-- `file_path` -/
def path (c : Config) (index : UInt64) : PathBuf :=
  file_path (PathBuf.join ⟨false, []⟩ c.root) c.settings index.toNat

/-- The seed of the path, from its text: `Path::join` puts in a separator unless there is one, or
nothing before it. -/
def seed (c : Config) (index : UInt64) : UInt64 :=
  let separator := if c.root = [] ∨ c.root.getLast? = some '/' then [] else ['/']
  fsfiller.seed (utf8.encode (c.root ++ separator ++ relative_path c.settings index.toNat))

end Config

namespace State

def init (workers : Nat) : State where
  workers := List.replicate workers .load_done
  done := false
  no_new := false
  reason := none
  next := 0
  reserved := 0
  started := []
  completed := []

def at_pc (s : State) (w : Nat) (pc : Pc) : State := { s with workers := s.workers.set w pc }

/-- `stop_new` -/
def stop_new (s : State) (stop : Stop) : State :=
  { s with reason := s.reason.or (some stop), no_new := true }

/-- `finish` -/
def finish (s : State) (stop : Stop) : State :=
  { s with reason := s.reason.or (some stop), done := true }

/-- `fail` -/
def fail (s : State) : State := { s with done := true }

/-- A file is created, empty. -/
def start (s : State) (c : Config) (w : Nat) (index : UInt64) : State :=
  { s.at_pc w (.writing index (c.size index).toNat []) with started := s.started ++ [index] }

/-- The step of a worker at its place. -/
def turn (c : Config) (s : State) (w : Nat) (error : Option Bool) : Pc → Option State
  | .load_done => some (s.at_pc w (if s.done then .ended else .load_new))
  | .load_new => some (s.at_pc w (if s.no_new then .ended else .take))
  | .take => some { s.at_pc w (.reserve s.next) with next := s.next + 1 }
  | .reserve index =>
    match c.cap with
    | none => some (s.start c w index)
    | some cap =>
      let reserved := s.reserved + c.size index
      if cap < reserved then some { s.at_pc w .crossed with reserved }
      else some { s.start c w index with reserved }
  | .crossed => some ((s.stop_new .cap).at_pc w .ended)
  | .writing index left content =>
    if left = 0 then
      -- `set_len`, `sync_all`, `close`, the check of the file and the journal
      match error with
      | some is_full => some (s.at_pc w (.failed index is_full))
      | none =>
        some { s.at_pc w .load_done with
          completed := s.completed ++
            [(index, close_contents c.write_mode content (c.size index).toNat)] }
    -- a stop removes the partial file
    else some (s.at_pc w (if s.done then .ended else .chunk index left content))
  | .chunk index left content =>
    match error with
    | some is_full => some (s.at_pc w (.failed index is_full))
    | none =>
      -- what the buffer held is overwritten
      let data := List.replicate CHUNK 0
      let size := (c.size index).toNat
      some (s.at_pc w (.writing index (left - min left CHUNK)
        (content ++ fsfiller.chunk c.write_mode data size left (c.seed index))))
  | .failed index is_full =>
    if is_full ∧ ¬ c.cant_stop then some ((s.finish .full).at_pc w .ended)
    else if ¬ c.cant_stop then some (s.fail.at_pc w .ended)
    -- `pause`, and the file is created again
    else some (s.at_pc w (if s.done then .ended else .writing index (c.size index).toNat []))
  | .ended => none

def step (c : Config) (s : State) : Event → Option State
  | .step w error => (s.workers[w]?).bind (turn c s w error)
  | .stop interrupted => some (s.finish (if interrupted then .interrupted else .time))

end State

/-! ## The indexes that workers hold -/

/-- The index that a worker took and has not reserved yet. -/
def Pc.taken : Pc → Option UInt64
  | .reserve index => some index
  | _ => none

/-- The file that a worker writes. -/
def Pc.held : Pc → Option UInt64
  | .writing index _ _ | .chunk index _ _ | .failed index _ => some index
  | _ => none

/-- An element that changes in a list changes what is picked from the list. -/
theorem filterMap_set_perm {α β : Type} (f : α → Option β) {l : List α} {w : Nat} {a : α} (b : α)
    (h : l[w]? = some a) :
    ((f a).toList ++ (l.set w b).filterMap f).Perm ((f b).toList ++ l.filterMap f) := by
  induction l generalizing w with
  | nil => cases h
  | cons x l ih =>
    cases w with
    | zero =>
      rw [List.getElem?_cons_zero, Option.some.injEq] at h
      subst h
      rw [List.set_cons_zero, List.filterMap_cons, List.filterMap_cons]
      cases f x <;> cases f b <;> simp [List.Perm.swap]
    | succ w =>
      have ih := ih (w := w) (by simpa using h)
      rw [List.set_cons_succ, List.filterMap_cons, List.filterMap_cons]
      cases f x with
      | none => exact ih
      | some y => exact List.perm_middle.trans ((ih.cons y).trans List.perm_middle.symm)

namespace State

def taken (s : State) : List UInt64 := s.workers.filterMap Pc.taken

def held (s : State) : List UInt64 := s.workers.filterMap Pc.held

theorem taken_perm {s : State} {w : Nat} {pc : Pc} (pc' : Pc) (h : s.workers[w]? = some pc) :
    (pc.taken.toList ++ (s.at_pc w pc').taken).Perm (pc'.taken.toList ++ s.taken) :=
  filterMap_set_perm Pc.taken pc' h

theorem held_perm {s : State} {w : Nat} {pc : Pc} (pc' : Pc) (h : s.workers[w]? = some pc) :
    (pc.held.toList ++ (s.at_pc w pc').held).Perm (pc'.held.toList ++ s.held) :=
  filterMap_set_perm Pc.held pc' h

end State

/-! ## The invariant -/

/-- The sizes of some files. -/
def total (c : Config) (indexes : List UInt64) : Nat :=
  (indexes.map fun i => (c.size i).toNat).sum

/-- What has been written of a file is the pattern, with padding behind the end only. -/
def Wrote (c : Config) (index : UInt64) (left : Nat) (content : List UInt8) : Prop :=
  left ≤ (c.size index).toNat ∧ ∃ padding, (0 < left → padding = 0) ∧
    (c.write_mode = .direct ∨ padding = 0) ∧
    content = pattern.bytes_of 0 ((c.size index).toNat - left + padding) (c.seed index)

def Pc.Sound (c : Config) : Pc → Prop
  | .writing index left content => Wrote c index left content
  | .chunk index left content => 0 < left ∧ Wrote c index left content
  | _ => True

structure Good (c : Config) (s : State) : Prop where
  nodup : (s.started ++ s.taken).Nodup
  lt_next : ∀ i ∈ s.started ++ s.taken, i < s.next
  kept : s.done = false → s.started.Perm (s.held ++ s.completed.map Prod.fst)
  within : ∀ cap, c.cap = some cap →
    total c s.started ≤ s.reserved.toNat ∧ total c s.started ≤ cap.toNat
  sound : ∀ pc ∈ s.workers, pc.Sound c
  whole : ∀ x ∈ s.completed,
    x.2 = pattern.bytes_of 0 (c.size x.1).toNat (c.seed x.1)

/-- No counter of 64 bits goes round when a worker steps at a place. -/
def Pc.Fits (c : Config) (s : State) : Pc → Prop
  | .take => s.next.toNat + 1 < 2 ^ 64
  | .reserve index => s.reserved.toNat + (c.size index).toNat < 2 ^ 64
  | _ => True

def Fits (c : Config) (s : State) : Event → Prop
  | .step w _ => ∀ pc ∈ s.workers[w]?, pc.Fits c s
  | .stop _ => True

instance (c : Config) (s : State) : (pc : Pc) → Decidable (pc.Fits c s)
  | .take | .reserve _ => inferInstanceAs (Decidable (_ < _))
  | .load_done | .load_new | .crossed | .writing .. | .chunk .. | .failed .. | .ended =>
    isTrue trivial

instance (c : Config) (s : State) : (e : Event) → Decidable (Fits c s e)
  | .step _ _ => inferInstanceAs (Decidable (∀ pc ∈ _, _))
  | .stop _ => isTrue trivial

theorem Good.init (c : Config) (workers : Nat) : Good c (State.init workers) := by
  have hworkers : ∀ pc ∈ (State.init workers).workers, pc = .load_done := fun pc h =>
    List.eq_of_mem_replicate h
  have htaken : (State.init workers).taken = [] :=
    List.filterMap_eq_nil_iff.mpr fun pc h => by rw [hworkers pc h]; rfl
  have hheld : (State.init workers).held = [] :=
    List.filterMap_eq_nil_iff.mpr fun pc h => by rw [hworkers pc h]; rfl
  exact {
    nodup := by rw [htaken]; exact List.nodup_nil
    lt_next := by rw [htaken]; exact fun i h => absurd h List.not_mem_nil
    kept := fun _ => by rw [hheld]; exact List.Perm.refl _
    within := fun cap _ => ⟨Nat.zero_le _, Nat.zero_le _⟩
    sound := fun pc h => by rw [hworkers pc h]; trivial
    whole := fun x h => absurd h List.not_mem_nil }

section move

variable {c : Config} {s : State} {w : Nat} {pc pc' : Pc}

theorem sound_at_pc (h : Good c s) (hsound : pc'.Sound c) :
    ∀ pc ∈ (s.at_pc w pc').workers, pc.Sound c := by
  intro p hp
  rcases List.mem_or_eq_of_mem_set hp with hp | rfl
  · exact h.sound p hp
  · exact hsound

/-- A worker moves on with what it holds; it may drop it once the run stops. -/
theorem Good.move (h : Good c s) (hpc : s.workers[w]? = some pc)
    (htaken : pc'.taken = pc.taken ∨ pc'.taken = none)
    (hheld : s.done = false → pc'.held = pc.held) (hsound : pc'.Sound c) :
    Good c (s.at_pc w pc') := by
  obtain ⟨rest, hrest⟩ : ∃ rest, (rest ++ (s.at_pc w pc').taken).Perm s.taken := by
    have hperm := State.taken_perm pc' hpc
    rcases htaken with htaken | htaken
    · rw [htaken] at hperm
      exact ⟨[], (List.perm_append_left_iff _).mp hperm⟩
    · rw [htaken] at hperm
      exact ⟨pc.taken.toList, hperm⟩
  have hall : (rest ++ (s.started ++ (s.at_pc w pc').taken)).Perm (s.started ++ s.taken) := by
    rw [← List.append_assoc]
    refine (List.perm_append_comm.append_right _).trans ?_
    rw [List.append_assoc]
    exact hrest.append_left _
  exact {
    nodup := List.Nodup.of_append_right (hall.nodup_iff.mpr h.nodup)
    lt_next := fun i hi => h.lt_next i (hall.mem_iff.mp (List.mem_append_right _ hi))
    kept := fun hdone => by
      have hperm := State.held_perm pc' hpc
      rw [hheld hdone] at hperm
      exact (h.kept hdone).trans ((List.perm_append_right_iff _).mpr
        ((List.perm_append_left_iff _).mp hperm).symm)
    within := h.within
    sound := sound_at_pc h hsound
    whole := h.whole }

theorem Good.take (h : Good c s) (hpc : s.workers[w]? = some .take)
    (hfits : s.next.toNat + 1 < 2 ^ 64) :
    Good c { s.at_pc w (.reserve s.next) with next := s.next + 1 } := by
  have hperm : (s.at_pc w (.reserve s.next)).taken.Perm (s.next :: s.taken) :=
    State.taken_perm (.reserve s.next) hpc
  have hall : (s.started ++ (s.at_pc w (.reserve s.next)).taken).Perm
      (s.next :: (s.started ++ s.taken)) :=
    (hperm.append_left _).trans List.perm_middle
  have hlt : s.next < s.next + 1 := by
    rw [UInt64.lt_iff_toNat_lt, UInt64.toNat_add, UInt64.toNat_one, Nat.mod_eq_of_lt hfits]
    exact Nat.lt_succ_self _
  exact {
    nodup := hall.nodup_iff.mpr (List.nodup_cons.mpr
      ⟨fun hmem => UInt64.lt_irrefl _ (h.lt_next _ hmem), h.nodup⟩)
    lt_next := fun i hi => by
      rcases List.mem_cons.mp (hall.mem_iff.mp hi) with rfl | hmem
      · exact hlt
      · exact UInt64.lt_trans (h.lt_next i hmem) hlt
    kept := fun hdone => (h.kept hdone).trans
      ((State.held_perm (.reserve s.next) hpc).symm.append_right _)
    within := h.within
    sound := sound_at_pc h trivial
    whole := h.whole }

/-- A reservation within the cap starts the file. -/
theorem Good.start {index reserved : UInt64} (h : Good c s)
    (hpc : s.workers[w]? = some (.reserve index))
    (hwithin : ∀ cap, c.cap = some cap →
      total c (s.started ++ [index]) ≤ reserved.toNat ∧
      total c (s.started ++ [index]) ≤ cap.toNat) :
    Good c { s.start c w index with reserved } := by
  let pc' : Pc := .writing index (c.size index).toNat []
  have htaken : (index :: (s.at_pc w pc').taken).Perm s.taken := State.taken_perm pc' hpc
  have hheld : (s.at_pc w pc').held.Perm (index :: s.held) := State.held_perm pc' hpc
  have hall : ((s.started ++ [index]) ++ (s.at_pc w pc').taken).Perm (s.started ++ s.taken) := by
    rw [List.append_assoc]
    exact htaken.append_left _
  exact {
    nodup := hall.nodup_iff.mpr h.nodup
    lt_next := fun i hi => h.lt_next i (hall.mem_iff.mp hi)
    kept := fun hdone => by
      have hkept := (h.kept hdone).append_right [index]
      refine hkept.trans (List.perm_append_comm.trans ?_)
      exact hheld.symm.append_right (s.completed.map Prod.fst)
    within := hwithin
    sound := sound_at_pc h ⟨Nat.le_refl _, 0, fun _ => rfl, .inr rfl, by simp [pattern.bytes_of]⟩
    whole := h.whole }

/-- The pattern with some padding behind it is cut to the size. -/
theorem close_contents.spec {mode : WriteMode} {size padding : Nat} (seed : UInt64)
    (h : mode = .direct ∨ padding = 0) :
    close_contents mode (pattern.bytes_of 0 (size + padding) seed) size =
      pattern.bytes_of 0 size seed := by
  unfold close_contents
  split
  · unfold bytes.resize
    rw [pattern.bytes_of_append, List.take_append_of_le_length (by simp),
      List.take_of_length_le (by simp)]
    simp
  · rename_i hmode
    rw [h.resolve_left hmode, Nat.add_zero]

theorem Good.complete {index : UInt64} {content : List UInt8} (h : Good c s)
    (hpc : s.workers[w]? = some (.writing index 0 content)) :
    Good c { s.at_pc w .load_done with
      completed := s.completed ++
        [(index, close_contents c.write_mode content (c.size index).toNat)] } := by
  have htaken : (s.at_pc w .load_done).taken.Perm s.taken := State.taken_perm .load_done hpc
  have hheld : (index :: (s.at_pc w .load_done).held).Perm s.held :=
    State.held_perm .load_done hpc
  have hall := htaken.append_left s.started
  obtain ⟨-, padding, -, hmode, hcontent⟩ := h.sound _ (List.mem_of_getElem? hpc)
  rw [Nat.sub_zero] at hcontent
  exact {
    nodup := hall.nodup_iff.mpr h.nodup
    lt_next := fun i hi => h.lt_next i (hall.mem_iff.mp hi)
    kept := fun hdone => by
      have hkept := (h.kept hdone).trans (hheld.symm.append_right (s.completed.map Prod.fst))
      rw [List.map_append]
      refine hkept.trans ?_
      rw [List.map_singleton, ← List.append_assoc]
      exact (List.perm_append_singleton _ _).symm
    within := h.within
    sound := sound_at_pc h trivial
    whole := fun x hx => by
      rcases List.mem_append.mp hx with hx | hx
      · exact h.whole x hx
      · rw [List.mem_singleton.mp hx]
        dsimp only
        rw [hcontent, close_contents.spec _ hmode] }

/-- A turn of the loop goes on with the pattern. -/
theorem Wrote.chunk {index : UInt64} {left : Nat} {content : List UInt8}
    (h : Wrote c index left content) (hleft : 0 < left) :
    Wrote c index (left - min left CHUNK) (content ++ fsfiller.chunk c.write_mode
      (List.replicate CHUNK 0) (c.size index).toNat left (c.seed index)) := by
  obtain ⟨hle, padding, hzero, -, rfl⟩ := h
  have hdata : (List.replicate CHUNK (0 : UInt8)).length = CHUNK := List.length_replicate
  have hmin := min_le_chunk_length c.write_mode left
  refine ⟨by omega, chunk_length c.write_mode left - min left CHUNK, fun hmore => ?_, ?_, ?_⟩
  · have hlt : CHUNK < left := by omega
    rw [chunk_length_of_lt hlt]
    omega
  · by_cases hmode : c.write_mode = .direct
    · exact .inl hmode
    · right
      rw [chunk_length, if_neg hmode, Nat.sub_self]
  · have hsum : (c.size index).toNat - (left - min left CHUNK) +
        (chunk_length c.write_mode left - min left CHUNK) =
        (c.size index).toNat - left + chunk_length c.write_mode left := by omega
    rw [hzero hleft, Nat.add_zero, chunk.spec _ _ _ hdata, hsum, pattern.bytes_of_append,
      Nat.zero_add]

/-- The flags and the reason do not matter to the rest, but for a stop. -/
theorem Good.flags (h : Good c s) {done no_new : Bool} (reason : Option Stop)
    (hdone : s.done = true → done = true) : Good c { s with done, no_new, reason } where
  nodup := h.nodup
  lt_next := h.lt_next
  kept := fun hnot => h.kept (by
    by_contra hs
    rw [Bool.not_eq_false] at hs
    rw [hdone hs] at hnot
    cases hnot)
  within := h.within
  sound := h.sound
  whole := h.whole

theorem total_append (c : Config) (indexes : List UInt64) (index : UInt64) :
    total c (indexes ++ [index]) = total c indexes + (c.size index).toNat := by
  simp [total]

/-- A worker that reserves starts its file only within the cap. -/
theorem Good.reserve {s' : State} {index : UInt64} {error : Option Bool} (h : Good c s)
    (hpc : s.workers[w]? = some (.reserve index))
    (hfits : s.reserved.toNat + (c.size index).toNat < 2 ^ 64)
    (hturn : State.turn c s w error (.reserve index) = some s') : Good c s' := by
  unfold State.turn at hturn
  dsimp only at hturn
  have hsum : (s.reserved + c.size index).toNat = s.reserved.toNat + (c.size index).toNat := by
    rw [UInt64.toNat_add, Nat.mod_eq_of_lt hfits]
  split at hturn
  · rename_i hcap
    cases hturn
    exact h.start hpc fun cap hsome => by rw [hcap] at hsome; cases hsome
  · rename_i cap hcap
    split at hturn
    · -- the cap is crossed: nothing starts
      cases hturn
      have hmove : Good c (s.at_pc w .crossed) := h.move hpc (.inr rfl) (fun _ => rfl) trivial
      exact {
        nodup := hmove.nodup
        lt_next := hmove.lt_next
        kept := hmove.kept
        within := fun cap' hcap' => ⟨by
          rw [hsum]
          exact (h.within cap' hcap').1.trans (Nat.le_add_right _ _), (h.within cap' hcap').2⟩
        sound := hmove.sound
        whole := hmove.whole }
    · rename_i hle
      cases hturn
      refine h.start hpc fun cap' hcap' => ?_
      rw [hcap, Option.some.injEq] at hcap'
      subst hcap'
      have hle := UInt64.le_iff_toNat_le.mp (UInt64.not_lt.mp hle)
      have htotal := (h.within cap hcap).1
      rw [total_append]
      omega

/-- Every step keeps the invariant while no counter goes round. -/
theorem Good.step {s' : State} {e : Event} (h : Good c s) (hfits : Fits c s e)
    (hstep : State.step c s e = some s') : Good c s' := by
  cases e with
  | stop interrupted =>
    cases hstep
    exact h.flags _ fun _ => rfl
  | step w error =>
    obtain ⟨pc, hpc, hturn⟩ := Option.bind_eq_some_iff.mp hstep
    have hfits := hfits pc hpc
    cases pc with
    | load_done =>
      cases hturn
      exact h.move hpc (.inr (by split <;> rfl)) (fun _ => by split <;> rfl) (by split <;> trivial)
    | load_new =>
      cases hturn
      exact h.move hpc (.inr (by split <;> rfl)) (fun _ => by split <;> rfl) (by split <;> trivial)
    | take =>
      cases hturn
      exact h.take hpc hfits
    | reserve index => exact h.reserve hpc hfits hturn
    | crossed =>
      cases hturn
      exact (h.flags (s.reason.or (some .cap)) id).move hpc (.inr rfl) (fun _ => rfl) trivial
    | writing index left content =>
      have hwrote := h.sound _ (List.mem_of_getElem? hpc)
      unfold State.turn at hturn
      dsimp only at hturn
      split at hturn
      · rename_i hleft
        subst hleft
        split at hturn
        · cases hturn
          exact h.move hpc (.inr rfl) (fun _ => rfl) trivial
        · cases hturn
          exact h.complete hpc
      · rename_i hleft
        cases hturn
        refine h.move hpc (.inr (by split <;> rfl)) (fun hdone => ?_) ?_
        · rw [if_neg (by simp [hdone])]
          rfl
        · split
          · trivial
          · exact ⟨Nat.pos_of_ne_zero hleft, hwrote⟩
    | chunk index left content =>
      obtain ⟨hleft, hwrote⟩ := h.sound _ (List.mem_of_getElem? hpc)
      unfold State.turn at hturn
      dsimp only at hturn
      split at hturn
      · cases hturn
        exact h.move hpc (.inr rfl) (fun _ => rfl) trivial
      · cases hturn
        exact h.move hpc (.inr rfl) (fun _ => rfl) (hwrote.chunk hleft)
    | failed index is_full =>
      unfold State.turn at hturn
      dsimp only at hturn
      split at hturn
      · cases hturn
        exact (h.flags (s.reason.or (some .full)) fun _ => rfl).move hpc (.inr rfl)
          (fun hdone => by cases hdone) trivial
      · split at hturn
        · cases hturn
          exact (h.flags s.reason fun _ => rfl).move hpc (.inr rfl)
            (fun hdone => by cases hdone) trivial
        · cases hturn
          refine h.move hpc (.inr (by split <;> rfl)) (fun hdone => ?_) ?_
          · rw [if_neg (by simp [hdone])]
            rfl
          · split
            · trivial
            · exact ⟨Nat.le_refl _, 0, fun _ => rfl, .inr rfl, by simp [pattern.bytes_of]⟩
    | ended => cases hturn

end move

/-! ## Runs -/

/-- The monitor stops the run, or a call fails. -/
def Event.Stops : Event → Prop
  | .step _ error => error ≠ none
  | .stop _ => True

/-- A worker reaches the place for failures only by a call that fails. -/
def Calm (s : State) : Prop :=
  s.done = false ∧ ∀ pc ∈ s.workers, ∀ index is_full, pc ≠ .failed index is_full

theorem Calm.at_pc {s : State} {pc' : Pc} (h : Calm s) (w : Nat)
    (hpc : ∀ index is_full, pc' ≠ .failed index is_full) : Calm (s.at_pc w pc') := by
  refine ⟨h.1, fun p hp => ?_⟩
  rcases List.mem_or_eq_of_mem_set hp with hp | rfl
  · exact h.2 p hp
  · exact hpc

/-- Nothing but a stop or a failure sets `done`; the cap does not. -/
theorem Calm.step {c : Config} {s s' : State} {e : Event} (h : Calm s) (hcalm : ¬ e.Stops)
    (hstep : State.step c s e = some s') : Calm s' := by
  cases e with
  | stop interrupted => exact absurd trivial hcalm
  | step w error =>
    have herror : error = none := not_not.mp hcalm
    subst herror
    obtain ⟨pc, hpc, hturn⟩ := Option.bind_eq_some_iff.mp hstep
    cases pc with
    | load_done =>
      cases hturn
      exact h.at_pc w fun _ _ => by split <;> exact Pc.noConfusion
    | load_new =>
      cases hturn
      exact h.at_pc w fun _ _ => by split <;> exact Pc.noConfusion
    | take =>
      cases hturn
      exact h.at_pc w fun _ _ => Pc.noConfusion
    | reserve index =>
      unfold State.turn at hturn
      dsimp only at hturn
      split at hturn
      · cases hturn
        exact h.at_pc w fun _ _ => Pc.noConfusion
      · split at hturn
        · cases hturn
          exact h.at_pc w fun _ _ => Pc.noConfusion
        · cases hturn
          exact h.at_pc w fun _ _ => Pc.noConfusion
    | crossed =>
      cases hturn
      exact Calm.at_pc (s := s.stop_new .cap) h w fun _ _ => Pc.noConfusion
    | writing index left content =>
      unfold State.turn at hturn
      dsimp only at hturn
      split at hturn
      · cases hturn
        exact h.at_pc w fun _ _ => Pc.noConfusion
      · cases hturn
        exact h.at_pc w fun _ _ => by split <;> exact Pc.noConfusion
    | chunk index left content =>
      cases hturn
      exact h.at_pc w fun _ _ => Pc.noConfusion
    | failed index is_full => exact absurd rfl (h.2 _ (List.mem_of_getElem? hpc) index is_full)
    | ended => cases hturn

theorem step_eq {c : Config} {s : State} {w : Nat} {pc : Pc} (error : Option Bool)
    (h : s.workers[w]? = some pc) :
    State.step c s (.step w error) = State.turn c s w error pc := by
  unfold State.step
  dsimp only
  rw [h, Option.bind_some]

theorem at_pc_self {s : State} {w : Nat} {pc : Pc} (pc' : Pc) (h : s.workers[w]? = some pc) :
    (s.at_pc w pc').workers[w]? = some pc' :=
  List.getElem?_set_self (List.getElem?_eq_some_iff.mp h).1

/-- A worker whose calls succeed completes its file, whatever the others set but `done`. -/
theorem writing_completes (c : Config) {w : Nat} {index : UInt64} {left : Nat}
    {content : List UInt8} {s : State} (hpc : s.workers[w]? = some (.writing index left content))
    (hdone : s.done = false) :
    ∃ n s', machine.run (State.step c) s (List.replicate n (.step w none)) = some s' ∧
      index ∈ s'.completed.map Prod.fst := by
  induction left using Nat.strong_induction_on generalizing s content with
  | _ left ih =>
    by_cases hleft : left = 0
    · subst hleft
      obtain ⟨s', hstep, hmem⟩ : ∃ s', State.step c s (.step w none) = some s' ∧
          index ∈ s'.completed.map Prod.fst := by
        refine ⟨_, (step_eq none hpc).trans rfl, ?_⟩
        simp
      exact ⟨1, s', by rw [List.replicate_one, machine.run_cons, hstep]; rfl, hmem⟩
    · let s1 := s.at_pc w (.chunk index left content)
      have hstep : State.step c s (.step w none) = some s1 := by
        simp [step_eq none hpc, State.turn, hleft, hdone, s1]
      have hpc1 : s1.workers[w]? = some (.chunk index left content) := at_pc_self _ hpc
      obtain ⟨content', hstep1⟩ : ∃ content', State.step c s1 (.step w none) =
          some (s1.at_pc w (.writing index (left - min left CHUNK) content')) :=
        ⟨_, (step_eq none hpc1).trans rfl⟩
      have hless : left - min left CHUNK < left := by
        have hpos : 0 < CHUNK := by decide
        omega
      obtain ⟨n, s', hrun, hmem⟩ := ih _ hless (at_pc_self _ hpc1) hdone
      refine ⟨n + 2, s', ?_, hmem⟩
      rw [List.replicate_succ, List.replicate_succ, machine.run_cons, hstep, Option.bind_some,
        machine.run_cons, hstep1, Option.bind_some]
      exact hrun

/-- What the cap and the completion of the files promise in a state. -/
structure CapHolds (c : Config) (s : State) : Prop where
  /-- the files that were started fit in the cap -/
  within : ∀ cap, c.cap = some cap → total c s.started ≤ cap.toNat
  /-- each has its own index and path -/
  own_index : s.started.Nodup
  own_path : (s.started.map c.path).Nodup
  /-- each is completed or still written, unless the run is stopped -/
  kept : s.done = false → ∀ i ∈ s.started, i ∈ s.completed.map Prod.fst ∨
    ∃ pc ∈ s.workers, pc.held = some i
  /-- and a worker that writes completes its file by steps of its own -/
  completes : s.done = false → ∀ w index left content,
    s.workers[w]? = some (.writing index left content) → ∃ n s',
      machine.run (State.step c) s (List.replicate n (.step w none)) = some s' ∧
        index ∈ s'.completed.map Prod.fst
  /-- what is completed is what `verify_file` accepts -/
  verified : ∀ x ∈ s.completed, ∀ buf, verify_file x.2 (c.size x.1).toNat buf (c.seed x.1) = true

theorem Good.cap_holds {c : Config} {s : State} (h : Good c s) : CapHolds c s := by
  have hnodup : s.started.Nodup := List.Nodup.of_append_left h.nodup
  exact {
    within := fun cap hcap => (h.within cap hcap).2
    own_index := hnodup
    own_path := List.Nodup.map (fun i j hij => UInt64.toNat_inj.mp (file_path_injective hij)) hnodup
    kept := fun hdone i hi => by
      rcases List.mem_append.mp ((h.kept hdone).mem_iff.mp hi) with hheld | hmem
      · exact .inr (List.mem_filterMap.mp hheld)
      · exact .inl hmem
    completes := fun hdone w index left content hpc => writing_completes c hpc hdone
    verified := fun x hx buf => by
      rw [h.whole x hx]
      exact verify_file_bytes_of _ _ _ }

/-- In a run of any number of workers in which no counter goes round, the cap holds, and only
a stop of the monitor or a call that fails can keep a file that was started from its end. -/
theorem the_cap_holds_while_no_counter_goes_round (c : Config) (workers : Nat)
    (events : List Event) (s : State)
    (hrun : machine.run (State.step c) (State.init workers) events = some s)
    (hfits : machine.Along (State.step c) (Fits c) (State.init workers) events) :
    CapHolds c s ∧ (s.done = true → ∃ e ∈ events, e.Stops) := by
  have hgood : Good c s :=
    machine.invariant_along (fun s e t h hok hstep => h.step hok hstep) hrun hfits (.init c workers)
  refine ⟨hgood.cap_holds, fun hdone => ?_⟩
  by_contra hnone
  simp only [not_exists, not_and] at hnone
  have hinit : Calm (State.init workers) := ⟨rfl, fun pc hpc index is_full h => by
    rw [List.eq_of_mem_replicate hpc] at h
    cases h⟩
  have hcalm : Calm s := machine.invariant_along
    (fun s e t h hok hstep => h.step hok hstep) hrun
    (machine.along_of_mem (State.step c) (fun e he _ => hnone e he) _) hinit
  rw [hcalm.1] at hdone
  cases hdone

/-- A worker that starts a file of four bytes under a cap of ten. -/
theorem the_cap_holds_for_a_worker :
    let c : Config := ⟨['r'], ⟨1, 1, by decide, by decide⟩, some 10, false, .buffered, fun _ => 4⟩
    let s : State := ⟨[.writing 0 4 []], false, false, none, 1, 4, [0], []⟩
    CapHolds c s ∧
      (s.done = true → ∃ e ∈ List.replicate 4 (Event.step 0 none), e.Stops) := by
  intro c s
  exact the_cap_holds_while_no_counter_goes_round c 1 _ s (by rfl) (by decide)

/-- The largest cap, and files of 2^63 bytes. -/
def largest_cap : Config where
  root := ['r']
  settings := ⟨1, 1, Nat.one_pos, Nat.one_pos⟩
  cap := some 0xffffffffffffffff
  cant_stop := false
  write_mode := .buffered
  size := fun _ => 0x8000000000000000

/-- Two workers start a file each, because the second reservation goes round. -/
theorem the_cap_is_passed_when_the_reservation_goes_round :
    ¬ ∀ (c : Config) (workers : Nat) (events : List Event) (s : State),
      machine.run (State.step c) (State.init workers) events = some s →
      ∀ cap, c.cap = some cap → total c s.started ≤ cap.toNat := by
  intro h
  have htotal := h largest_cap 2
    (List.replicate 4 (.step 0 none) ++ List.replicate 4 (.step 1 none)) _ (by rfl) _ rfl
  revert htotal
  decide

end stutools.fsfiller.pool
