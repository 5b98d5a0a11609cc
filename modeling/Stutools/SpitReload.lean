-- What a verifier loads of the positions that a run saved (src/c/spit/positions.c): the devices
-- are numbered in the order in which they come up, which is that of the sorted log.
import Stutools.SpitFile
import Stutools.SpitMerge

open texts stdio

namespace stutools.spit.file

open stutools.spit.collapse

/-! ## Numbers by first appearance -/

/-- A name that is not in the list comes to its end. -/
def enlist (devices : List (List Char)) (name : List Char) : List (List Char) :=
  if name ∈ devices then devices else devices ++ [name]

theorem mem_enlist (devices : List (List Char)) (name : List Char) :
    name ∈ enlist devices name := by
  unfold enlist
  split
  · assumption
  · exact List.mem_append_right _ List.mem_cons_self

theorem prefix_foldl_enlist (devices names : List (List Char)) :
    devices <+: names.foldl enlist devices := by
  induction names generalizing devices with
  | nil => exact List.prefix_rfl
  | cons name names ih =>
    refine List.IsPrefix.trans ?_ (ih _)
    unfold enlist
    split
    · exact List.prefix_rfl
    · exact List.prefix_append _ _

theorem mem_foldl_enlist {devices names : List (List Char)} {x : List Char} :
    x ∈ names.foldl enlist devices ↔ x ∈ devices ∨ x ∈ names := by
  induction names generalizing devices with
  | nil => simp
  | cons name names ih =>
    rw [List.foldl_cons, ih, List.mem_cons]
    unfold enlist
    split
    · rename_i hmem
      constructor
      · tauto
      · rintro (h | rfl | h)
        · exact .inl h
        · exact .inl hmem
        · exact .inr h
    · rw [List.mem_append, List.mem_singleton]
      tauto

theorem nodup_foldl_enlist {devices : List (List Char)} (h : devices.Nodup)
    (names : List (List Char)) : (names.foldl enlist devices).Nodup := by
  induction names generalizing devices with
  | nil => exact h
  | cons name names ih =>
    refine ih ?_
    unfold enlist
    split
    · exact h
    · rename_i hmem
      refine List.nodup_append.mpr ⟨h, List.nodup_singleton name, fun a ha b hb heq => hmem ?_⟩
      rwa [← List.mem_singleton.mp hb, ← heq]

/-- A name keeps its number. -/
theorem idxOf_of_start {l l' : List (List Char)} (h : l <+: l') {x : List Char} (hx : x ∈ l) :
    l'.idxOf x = l.idxOf x := by
  obtain ⟨t, rfl⟩ := h
  exact List.idxOf_append_of_mem hx

/-- Of two names, the one that came up first has the smaller number. -/
theorem idxOf_lt_of_first {before rest : List (List Char)} {a b : List Char} (ha : a ∈ before)
    (hb : b ∉ before) :
    ((before ++ rest).foldl enlist []).idxOf a < ((before ++ rest).foldl enlist []).idxOf b := by
  have hmem {x : List Char} : x ∈ before.foldl enlist [] ↔ x ∈ before := by
    rw [mem_foldl_enlist]
    simp
  rw [List.foldl_append]
  have hstart := prefix_foldl_enlist (before.foldl enlist []) rest
  rw [idxOf_of_start hstart (hmem.mpr ha)]
  obtain ⟨t, ht⟩ := hstart
  rw [← ht, List.idxOf_append_of_notMem fun h => hb (hmem.mp h)]
  exact (List.idxOf_lt_length_of_mem (hmem.mpr ha)).trans_le (Nat.le_add_right _ _)

/-- The reader looks for the last job of a name, but there is only one. -/
theorem seenpathbefore.spec {devices : List (List Char)} (h : devices.Nodup) (path : List Char) :
    seenpathbefore devices path = if path ∈ devices then some (devices.idxOf path) else none := by
  induction devices using List.reverseRecOn with
  | nil => rfl
  | append_singleton devices d ih =>
    obtain ⟨hnodup, -, hd⟩ := List.nodup_append.mp h
    have hlast : seenpathbefore (devices ++ [d]) path =
        if path = d then some devices.length else seenpathbefore devices path := by
      unfold seenpathbefore
      rw [List.zipIdx_append, List.foldl_append]
      simp
    rw [hlast, ih hnodup]
    by_cases heq : path = d
    · subst heq
      have hnot : path ∉ devices := fun hmem => hd path hmem path (by simp) rfl
      rw [if_pos rfl, if_pos (by simp), List.idxOf_append_of_notMem hnot]
      simp
    · rw [if_neg heq]
      by_cases hmem : path ∈ devices
      · rw [if_pos hmem, if_pos (List.mem_append_left _ hmem), List.idxOf_append_of_mem hmem]
      · rw [if_neg hmem, if_neg (by simp [hmem, heq])]

/-! ## The loaded positions -/

/-- A position as it is loaded, with the names of the job that the verifier makes. -/
def reload (devices loaded : List (List Char)) (p : collapse.Entry) : collapse.Entry :=
  { positionType.zero with
    deviceid := loaded.idxOf (device devices p.topositionType), submitTime := p.submitTime,
    finishTime := p.finishTime, pos := p.pos, len := p.len, action := p.action, success := 1,
    seed := p.seed, rest := 0 }

/-- The names of the devices of some positions, in the order in which they come up. -/
def names_of (devices : List (List Char)) (positions : List collapse.Entry) : List (List Char) :=
  positions.map fun p => device devices p.topositionType

section
variable {devices : List (List Char)} {maxbdSizeBytes : Nat}

theorem add_parsed {s : Loaded} (hnodup : s.devices.Nodup) {p : collapse.Entry}
    (hlen : p.len < 2 ^ 32) (hseed : p.seed < 2 ^ 16)
    (hroom : (enlist s.devices (device devices p.topositionType)).length ≤ 2 ^ 16) :
    let s' := s.add (parsed (device devices p.topositionType) p.topositionType maxbdSizeBytes)
    s'.devices = enlist s.devices (device devices p.topositionType) ∧
      s'.positions = s.positions ++
        [(reload devices (enlist s.devices (device devices p.topositionType)) p).topositionType] ∧
      s'.lineswitherrors = s.lineswitherrors := by
  have hindex : (enlist s.devices (device devices p.topositionType)).idxOf
      (device devices p.topositionType) < 2 ^ 16 :=
    (List.idxOf_lt_length_of_mem (mem_enlist _ _)).trans_le hroom
  unfold Loaded.add parsed reload
  dsimp only
  rw [seenpathbefore.spec hnodup, Nat.mod_eq_of_lt hlen, Nat.mod_eq_of_lt hseed]
  unfold enlist at hindex ⊢
  by_cases hmem : device devices p.topositionType ∈ s.devices
  · rw [if_pos hmem] at hindex ⊢
    rw [if_pos hmem]
    dsimp only
    rw [Nat.mod_eq_of_lt hindex]
    exact ⟨rfl, rfl, rfl⟩
  · rw [if_neg hmem, List.idxOf_append_of_notMem hmem] at hindex
    rw [if_neg hmem, if_neg hmem, List.idxOf_append_of_notMem hmem]
    dsimp only
    simp only [List.idxOf_cons_self, Nat.add_zero] at hindex ⊢
    rw [Nat.mod_eq_of_lt hindex]
    exact ⟨trivial, rfl, trivial⟩

/-- Valid lines are loaded one after the other. -/
theorem take_valid {positions : List collapse.Entry}
    (hvalid : ∀ p ∈ positions, p.success ≠ 2 ∧ 0 < p.submitTime)
    (hwidths : ∀ p ∈ positions, p.len < 2 ^ 32 ∧ p.seed < 2 ^ 16) {s : Loaded}
    (hnodup : s.devices.Nodup)
    (hroom : ((names_of devices positions).foldl enlist s.devices).length ≤ 2 ^ 16) :
    let loaded := (names_of devices positions).foldl enlist s.devices
    let s' := positions.foldl (Loaded.take devices maxbdSizeBytes) s
    s'.devices = loaded ∧
      s'.positions = s.positions ++
        positions.map fun p => (reload devices loaded p).topositionType := by
  induction positions generalizing s with
  | nil => exact ⟨rfl, (List.append_nil _).symm⟩
  | cons p positions ih =>
    obtain ⟨hp, hvalid⟩ := List.forall_mem_cons.mp hvalid
    obtain ⟨⟨hlen, hseed⟩, hwidths⟩ := List.forall_mem_cons.mp hwidths
    have hstart := prefix_foldl_enlist (enlist s.devices (device devices p.topositionType))
      (names_of devices positions)
    have hadd := @add_parsed devices maxbdSizeBytes s hnodup p hlen hseed
      (hstart.length_le.trans hroom)
    have htake : Loaded.take devices maxbdSizeBytes s p =
        s.add (parsed (device devices p.topositionType) p.topositionType maxbdSizeBytes) :=
      if_pos hp
    dsimp only at hadd ⊢
    rw [← htake] at hadd
    obtain ⟨hdevices, hpositions, -⟩ := hadd
    have hnodup' : (Loaded.take devices maxbdSizeBytes s p).devices.Nodup := by
      rw [hdevices]
      exact nodup_foldl_enlist hnodup [device devices p.topositionType]
    have hrest := ih hvalid hwidths hnodup' (by rw [hdevices]; exact hroom)
    dsimp only at hrest
    rw [hdevices] at hrest
    refine ⟨hrest.1, hrest.2.trans ?_⟩
    rw [hpositions, List.append_assoc]
    congr 1
    have hsame : (reload devices (enlist s.devices (device devices p.topositionType)) p) =
        reload devices ((names_of devices (p :: positions)).foldl enlist s.devices) p := by
      unfold reload
      rw [← idxOf_of_start hstart (mem_enlist _ _)]
      rfl
    rw [hsame]
    rfl

end

end stutools.spit.file
