-- The slots of the Linux stream loops: what a slot's mark says, how a completion frees
-- it, and what is kept by each of the things that a loop does to its slots.
import Mathlib.Data.Int.ModEq
import Stutools.Flags
import Stutools.Ledger
import Stutools.Machine
import Stutools.Request

open ledger

namespace stutools

/-- An `io::Error`: a code of the system, or a text. -/
inductive IoError where
  | os (code : Int)
  | other (text : String)
deriving DecidableEq

/-- `io::Failure`. -/
inductive Failure where
  | System (e : IoError)
  | Operation (error : IoError) (write : Bool) (offset len : Nat)
  | Incomplete (n : Int) (r : Request)
  | Timeout
deriving DecidableEq

/-- A length `as i64`. -/
def as_i64 (n : Nat) : Int := Int.bmod n (2 ^ 64)

theorem as_i64_eq {n : Nat} (h : n < 2 ^ 63) : as_i64 n = n := by
  unfold as_i64
  rw [Int.bmod_def]
  omega

/-- A submission entry or a control block: the slot in its user data, and the transfer
it asks for. -/
structure Entry where
  user_data : Nat
  write : Bool
  offset : Nat
  len : Nat
deriving DecidableEq, Inhabited

/-- The slots of a list of entries. -/
def slots_of (entries : List Entry) : List Nat := entries.map Entry.user_data

theorem map_slots_of {α : Type} (f : Nat → α) (entries : List Entry) :
    (slots_of entries).map f = entries.map fun e => f e.user_data := by
  unfold slots_of
  rw [List.map_map]
  rfl

/-- A completion as a loop saw it: the slot, the kernel's two results and the request that
was in the slot. -/
structure Outcome where
  slot : Nat
  result : Int
  result2 : Int
  request : Request
deriving DecidableEq

/-- The full length was transferred. -/
def Outcome.full (o : Outcome) : Bool := o.result == (o.request.len : Int) && o.result2 == 0

/-- The slots of a loop and what both loops keep beside them. The numbers of the requests
and the record of what became of each are not in the code. -/
structure Table where
  requests : List Request
  pending : Nat
  finished : Bool
  failure : Option Failure
  /-- The number of the request in each slot. -/
  ids : List Nat
  ledger : Ledger Request Outcome
  /-- The calls of `complete`, each with the number of its request. -/
  passed : List (Nat × Nat × Request)

namespace Table

def start (requests : List Request) : Table :=
  { requests, pending := 0, finished := false, failure := none
    ids := List.replicate requests.length 0, ledger := .empty, passed := [] }

def request_of (t : Table) (slot : Nat) : Request := t.requests.getD slot Request.default

def state_of (t : Table) (slot : Nat) : UInt8 := (t.request_of slot).state

def id_of (t : Table) (slot : Nat) : Nat := t.ids.getD slot 0

/-- A request comes from `next`. -/
def take (t : Table) (r : Request) : Table := { t with ledger := t.ledger.take r }

/-- Puts the request that was taken last into a slot, with a mark. -/
def put (t : Table) (slot : Nat) (r : Request) (mark : UInt8) : Table :=
  { t with
    requests := t.requests.set slot { r with state := mark }
    ids := t.ids.set slot (t.ledger.taken.length - 1) }

/-- Marks a slot whose request the kernel took. -/
def own (t : Table) (slot : Nat) : Table :=
  { t with requests := t.requests.set slot { t.request_of slot with state := 2 } }

/-- One completion in either loop. io_uring has one result only, so its second one is
zero. -/
def complete (t : Table) (user_data : Nat) (result result2 : Int) : Except IoError Table :=
  match t.requests[user_data]? with
  | none => .error (.other "invalid completion id")
  | some slot =>
    if slot.state ≠ 2 then .error (.other "completion for a free slot")
    else
      let id := t.id_of user_data
      let t := { t with
        requests := t.requests.set user_data { slot with state := 0 }
        pending := t.pending - 1
        ledger := t.ledger.settle id ⟨user_data, result, result2, slot⟩ }
      if result ≠ as_i64 slot.len ∨ result2 ≠ 0 then
        .ok { t with
          failure := t.failure.or (some (.Incomplete result slot))
          finished := true }
      else .ok { t with passed := t.passed ++ [(id, user_data, slot)] }

/-! ## What the slots keep -/

/-- The slots in state 1 are the prepared ones and those in state 2 the owned ones, and
each of them holds a request that was taken. -/
structure Sound (t : Table) (stride : Nat) (prepared owned : List Nat) : Prop where
  ids : t.ids.length = t.requests.length
  lt : ∀ i ∈ prepared ++ owned, i < t.requests.length
  nodup : (prepared ++ owned).Nodup
  state : ∀ i < t.requests.length,
    t.state_of i = if i ∈ owned then 2 else if i ∈ prepared then 1 else 0
  holds : ∀ i ∈ prepared ++ owned, ∃ r, t.ledger.taken[t.id_of i]? = some r ∧ r.len ≤ stride ∧
    t.request_of i = { r with state := t.state_of i }

/-- What was passed on, and the failure, are read off the outcomes. -/
structure Told (t : Table) : Prop where
  outcomes : ∀ x ∈ t.ledger.results, ∃ r, t.ledger.taken[x.1]? = some r ∧
    x.2.request = { r with state := 2 }
  passed : t.passed = (t.ledger.results.filter fun x => x.2.full).map fun x =>
    (x.1, x.2.slot, x.2.request)
  failure : t.failure = (t.ledger.results.find? fun x => !x.2.full).map fun x =>
    .Incomplete x.2.result x.2.request

variable {t : Table} {stride : Nat} {prepared owned : List Nat}

theorem start_sound {requests : List Request} (h : ∀ r ∈ requests, r.state = 0) :
    (start requests).Sound stride [] [] := by
  refine ⟨by simp [start], by simp, List.nodup_nil, fun i hi => ?_, by simp⟩
  have hlt : i < requests.length := hi
  unfold state_of request_of start
  dsimp only
  rw [List.getD_eq_getElem?_getD, List.getElem?_eq_getElem hlt]
  exact h _ (List.getElem_mem hlt)

theorem start_told (requests : List Request) : (start requests).Told :=
  ⟨by simp [start, Ledger.empty], by simp [start, Ledger.empty], by simp [start, Ledger.empty]⟩

theorem Sound.perm (h : t.Sound stride prepared owned) {prepared' owned' : List Nat}
    (h1 : prepared'.Perm prepared) (h2 : owned'.Perm owned) :
    t.Sound stride prepared' owned' := by
  have happend : (prepared' ++ owned').Perm (prepared ++ owned) := h1.append h2
  refine ⟨h.ids, fun i hi => h.lt i (happend.subset hi), happend.nodup_iff.mpr h.nodup,
    fun i hi => ?_, fun i hi => h.holds i (happend.subset hi)⟩
  rw [h.state i hi]
  simp only [h1.mem_iff, h2.mem_iff]

theorem Sound.take (h : t.Sound stride prepared owned) (r : Request) :
    (t.take r).Sound stride prepared owned := by
  refine ⟨h.ids, h.lt, h.nodup, h.state, fun i hi => ?_⟩
  obtain ⟨r', hr', hlen, hslot⟩ := h.holds i hi
  exact ⟨r', List.getElem?_append_left (List.getElem?_eq_some_iff.mp hr').1 ▸ hr', hlen, hslot⟩

theorem Told.take (h : t.Told) (r : Request) : (t.take r).Told := by
  refine ⟨fun x hx => ?_, h.passed, h.failure⟩
  obtain ⟨r', hr', hx'⟩ := h.outcomes x hx
  exact ⟨r', List.getElem?_append_left (List.getElem?_eq_some_iff.mp hr').1 ▸ hr', hx'⟩

/-- A slot in state 0 is on neither list. -/
theorem Sound.free (h : t.Sound stride prepared owned) {slot : Nat} (hlt : slot < t.requests.length)
    (hzero : t.state_of slot = 0) : slot ∉ prepared ∧ slot ∉ owned := by
  have hstate := h.state slot hlt
  rw [hzero] at hstate
  split_ifs at hstate with h1 h2
  · exact absurd hstate (by decide)
  · exact absurd hstate (by decide)
  · exact ⟨h2, h1⟩

section put

variable {slot : Nat} (hlt : slot < t.requests.length) (r : Request) (mark : UInt8)

include hlt in
theorem request_of_put (i : Nat) : (t.put slot r mark).request_of i =
    if slot = i then { r with state := mark } else t.request_of i :=
  flags.getD_set hlt i

include hlt in
theorem state_of_put (i : Nat) : (t.put slot r mark).state_of i =
    if slot = i then mark else t.state_of i := by
  unfold state_of
  rw [request_of_put hlt]
  split_ifs <;> rfl

include hlt in
theorem id_of_put (h : t.ids.length = t.requests.length) (i : Nat) :
    (t.put slot r mark).id_of i = if slot = i then t.ledger.taken.length - 1 else t.id_of i :=
  flags.getD_set (h ▸ hlt) i

include hlt in
/-- What the slots hold after a request was put into a free one. -/
theorem Sound.holds_put (h : t.Sound stride prepared owned)
    (hlast : t.ledger.taken[t.ledger.taken.length - 1]? = some r) (hlen : r.len ≤ stride) {i : Nat}
    (hi : i = slot ∨ i ∈ prepared ++ owned) :
    ∃ r', (t.put slot r mark).ledger.taken[(t.put slot r mark).id_of i]? = some r' ∧
      r'.len ≤ stride ∧
      (t.put slot r mark).request_of i = { r' with state := (t.put slot r mark).state_of i } := by
  rw [id_of_put hlt r mark h.ids, request_of_put hlt, state_of_put hlt]
  by_cases hslot : slot = i
  · rw [if_pos hslot, if_pos hslot, if_pos hslot]
    exact ⟨r, hlast, hlen, rfl⟩
  · rw [if_neg hslot, if_neg hslot, if_neg hslot]
    exact h.holds i (hi.resolve_left fun he => hslot he.symm)

include hlt in
theorem Sound.prepare (h : t.Sound stride prepared owned) (hzero : t.state_of slot = 0)
    (hlast : t.ledger.taken[t.ledger.taken.length - 1]? = some r) (hlen : r.len ≤ stride) :
    (t.put slot r 1).Sound stride (slot :: prepared) owned := by
  obtain ⟨hprepared, howned⟩ := h.free hlt hzero
  refine ⟨by simpa [put] using h.ids, fun i hi => ?_, ?_, fun i hi => ?_, fun i hi => ?_⟩
  · rw [put, List.length_set]
    rcases List.mem_cons.mp hi with rfl | hi
    · exact hlt
    · exact h.lt i hi
  · exact List.nodup_cons.mpr ⟨by simp [hprepared, howned], h.nodup⟩
  · rw [state_of_put hlt]
    by_cases hslot : slot = i
    · subst hslot
      rw [if_pos rfl, if_neg howned, if_pos List.mem_cons_self]
    · rw [if_neg hslot, h.state i (by simpa [put] using hi)]
      simp only [List.mem_cons, Ne.symm hslot, false_or]
  · exact h.holds_put hlt r 1 hlast hlen (List.mem_cons.mp hi)

include hlt in
theorem Sound.push (h : t.Sound stride prepared owned) (hzero : t.state_of slot = 0)
    (hlast : t.ledger.taken[t.ledger.taken.length - 1]? = some r) (hlen : r.len ≤ stride) :
    (t.put slot r 2).Sound stride prepared (slot :: owned) := by
  obtain ⟨hprepared, howned⟩ := h.free hlt hzero
  have hmem : ∀ i, i ∈ prepared ++ slot :: owned ↔ i = slot ∨ i ∈ prepared ++ owned := by
    intro i
    simp only [List.mem_append, List.mem_cons]
    tauto
  refine ⟨by simpa [put] using h.ids, fun i hi => ?_, ?_, fun i hi => ?_, fun i hi => ?_⟩
  · rw [put, List.length_set]
    rcases (hmem i).mp hi with rfl | hi
    · exact hlt
    · exact h.lt i hi
  · rw [List.nodup_middle]
    exact List.nodup_cons.mpr ⟨by simp [hprepared, howned], h.nodup⟩
  · rw [state_of_put hlt]
    by_cases hslot : slot = i
    · subst hslot
      rw [if_pos rfl, if_pos List.mem_cons_self]
    · rw [if_neg hslot, h.state i (by simpa [put] using hi)]
      simp only [List.mem_cons, Ne.symm hslot, false_or]
  · exact h.holds_put hlt r 2 hlast hlen ((hmem i).mp hi)

end put

theorem Sound.own {slot : Nat} (h : t.Sound stride (slot :: prepared) owned) :
    (t.own slot).Sound stride prepared (slot :: owned) := by
  have hlt : slot < t.requests.length := h.lt slot List.mem_cons_self
  have hrequest : ∀ i, (t.own slot).request_of i =
      if slot = i then { t.request_of slot with state := 2 } else t.request_of i :=
    fun i => flags.getD_set hlt i
  have hstate : ∀ i, (t.own slot).state_of i = if slot = i then 2 else t.state_of i := by
    intro i
    unfold state_of
    rw [hrequest]
    split_ifs <;> rfl
  have hmem : ∀ i, i ∈ prepared ++ slot :: owned ↔ i ∈ slot :: prepared ++ owned := by
    intro i
    simp only [List.mem_append, List.mem_cons]
    tauto
  have hnot : slot ∉ prepared ++ owned := (List.nodup_cons.mp h.nodup).1
  refine ⟨by simpa [Table.own] using h.ids, fun i hi => ?_, ?_, fun i hi => ?_, fun i hi => ?_⟩
  · rw [Table.own, List.length_set]
    exact h.lt i ((hmem i).mp hi)
  · rw [List.nodup_middle]
    exact h.nodup
  · rw [hstate]
    by_cases hslot : slot = i
    · subst hslot
      rw [if_pos rfl, if_pos List.mem_cons_self]
    · rw [if_neg hslot, h.state i (by simpa [Table.own] using hi)]
      simp only [List.mem_cons, Ne.symm hslot, false_or]
  · obtain ⟨r, hr, hlen, hslot⟩ := h.holds i ((hmem i).mp hi)
    refine ⟨r, hr, hlen, ?_⟩
    rw [hrequest, hstate]
    by_cases hi' : slot = i
    · subst hi'
      rw [if_pos rfl, if_pos rfl, hslot]
    · rw [if_neg hi', if_neg hi', hslot]

theorem Sound.own_all {slots : List Nat} (h : t.Sound stride (slots ++ prepared) owned) :
    (slots.foldl Table.own t).Sound stride prepared (owned ++ slots) := by
  induction slots generalizing t owned with
  | nil => simpa using h
  | cons slot slots ih =>
    rw [List.foldl_cons]
    exact (ih h.own).perm (List.Perm.refl _) List.perm_middle

/-- Marking slots changes nothing but their requests. -/
theorem own_all_eq (slots : List Nat) (t : Table) :
    ∃ requests, slots.foldl Table.own t = { t with requests } ∧
      requests.length = t.requests.length := by
  induction slots generalizing t with
  | nil => exact ⟨t.requests, rfl, rfl⟩
  | cons slot slots ih =>
    obtain ⟨requests, heq, hlength⟩ := ih (t.own slot)
    refine ⟨requests, heq, ?_⟩
    rw [hlength]
    exact List.length_set

/-- The results that come from a completion, and the failure so far. -/
theorem Told.settle (h : t.Told) {id : Nat} {o : Outcome} {r : Request}
    (hr : t.ledger.taken[id]? = some r) (ho : o.request = { r with state := 2 }) {u : Table}
    (hledger : u.ledger = t.ledger.settle id o)
    (hpassed : u.passed = if o.full then t.passed ++ [(id, o.slot, o.request)] else t.passed)
    (hfailure : u.failure = if o.full then t.failure
      else t.failure.or (some (.Incomplete o.result o.request))) : u.Told := by
  have hresults : u.ledger.results = t.ledger.results ++ [(id, o)] := by
    rw [hledger]
    rfl
  refine ⟨fun x hx => ?_, ?_, ?_⟩
  · have htaken : u.ledger.taken = t.ledger.taken := by
      rw [hledger]
      rfl
    rw [hresults, List.mem_append, List.mem_singleton] at hx
    rw [htaken]
    rcases hx with hx | rfl
    · exact h.outcomes x hx
    · exact ⟨r, hr, ho⟩
  · rw [hpassed, hresults, List.filter_append, List.map_append, h.passed]
    cases hfull : o.full with
    | true => simp [hfull]
    | false => simp [hfull]
  · rw [hfailure, hresults, List.find?_append, Option.map_or, h.failure]
    cases hfull : o.full with
    | true => simp [hfull]
    | false => simp [hfull]

/-- An owned slot that was freed, with all else as it was. -/
theorem Sound.freed {slot : Nat} (h : t.Sound stride prepared (slot :: owned)) {u : Table}
    (hrequests : u.requests = t.requests.set slot { t.request_of slot with state := 0 })
    (hids : u.ids = t.ids) (htaken : u.ledger.taken = t.ledger.taken) :
    u.Sound stride prepared owned := by
  have hmem : ∀ i ∈ prepared ++ owned, i ∈ prepared ++ slot :: owned := by
    intro i hi
    simp only [List.mem_append, List.mem_cons] at hi ⊢
    tauto
  have hlt : slot < t.requests.length := h.lt slot (by simp)
  have hnodup := h.nodup
  rw [List.nodup_middle, List.nodup_cons] at hnodup
  have hrequest : ∀ i, u.request_of i =
      if slot = i then { t.request_of slot with state := 0 } else t.request_of i := by
    intro i
    unfold request_of
    rw [hrequests]
    exact flags.getD_set hlt i
  refine ⟨by rw [hrequests, hids, List.length_set]; exact h.ids, fun i hi => ?_, hnodup.2,
    fun i hi => ?_, fun i hi => ?_⟩
  · rw [hrequests, List.length_set]
    exact h.lt i (hmem i hi)
  · rw [hrequests, List.length_set] at hi
    unfold state_of
    rw [hrequest]
    by_cases hslot : slot = i
    · subst hslot
      rw [if_pos rfl, if_neg fun ho => hnodup.1 (List.mem_append_right _ ho),
        if_neg fun hp => hnodup.1 (List.mem_append_left _ hp)]
    · rw [if_neg hslot]
      have hstate := h.state i hi
      simp only [List.mem_cons, Ne.symm hslot, false_or] at hstate
      exact hstate
  · obtain ⟨r, hr, hlen, hslot⟩ := h.holds i (hmem i hi)
    have hother : slot ≠ i := fun he => hnodup.1 (he ▸ hi)
    have hsame : u.request_of i = t.request_of i := by rw [hrequest, if_neg hother]
    refine ⟨r, ?_, hlen, ?_⟩
    · unfold id_of
      rw [htaken, hids]
      exact hr
    · unfold state_of
      rw [hsame]
      exact hslot

/-- A completion for an owned slot frees it and is told of. -/
theorem Sound.complete {slot : Nat} (h : t.Sound stride prepared (slot :: owned)) (htold : t.Told)
    (hstride : stride < 2 ^ 63) (result result2 : Int) :
    ∃ u, t.complete slot result result2 = .ok u ∧ u.Sound stride prepared owned ∧ u.Told ∧
      u.ids = t.ids ∧ u.pending = t.pending - 1 ∧
      u.ledger = t.ledger.settle (t.id_of slot) ⟨slot, result, result2, t.request_of slot⟩ := by
  have hlt : slot < t.requests.length := h.lt slot (by simp)
  have htwo : t.state_of slot = 2 := by
    rw [h.state slot hlt, if_pos List.mem_cons_self]
  obtain ⟨r, hr, hlen, hslot⟩ := h.holds slot (by simp)
  have hget : t.requests[slot]? = some (t.request_of slot) := by
    unfold request_of
    rw [List.getD_eq_getElem?_getD, List.getElem?_eq_getElem hlt, Option.getD_some]
  have hlength : as_i64 (t.request_of slot).len = (t.request_of slot).len := by
    apply as_i64_eq
    rw [hslot]
    exact lt_of_le_of_lt hlen hstride
  have ho : (⟨slot, result, result2, t.request_of slot⟩ : Outcome).request =
      { r with state := 2 } := by
    rw [← htwo]
    exact hslot
  have hfull : (⟨slot, result, result2, t.request_of slot⟩ : Outcome).full = true ↔
      ¬ (result ≠ as_i64 (t.request_of slot).len ∨ result2 ≠ 0) := by
    rw [hlength]
    simp [Outcome.full]
  unfold Table.complete
  rw [hget]
  dsimp only
  rw [if_neg (show ¬ (t.request_of slot).state ≠ 2 from not_not.mpr htwo)]
  by_cases hshort : result ≠ as_i64 (t.request_of slot).len ∨ result2 ≠ 0
  · rw [if_pos hshort]
    have hfull' := Bool.eq_false_iff.mpr fun hf => hfull.mp hf hshort
    exact ⟨_, rfl, h.freed rfl rfl rfl,
      htold.settle hr ho rfl (by rw [hfull']; rfl) (by rw [hfull']; rfl), rfl, rfl, rfl⟩
  · rw [if_neg hshort]
    have hfull' := hfull.mpr hshort
    exact ⟨_, rfl, h.freed rfl rfl rfl,
      htold.settle hr ho rfl (by rw [hfull']; rfl) (by rw [hfull']; rfl), rfl, rfl, rfl⟩

/-- A completion for one of the entries that the kernel has. -/
theorem Sound.complete_at {rest : List Nat} {kernel : List Entry}
    (h : t.Sound stride prepared (rest ++ slots_of kernel)) (htold : t.Told)
    (hpending : t.pending = (rest ++ slots_of kernel).length) (hstride : stride < 2 ^ 63) {k : Nat}
    {e : Entry} (he : kernel[k]? = some e) (result result2 : Int) :
    ∃ u, t.complete e.user_data result result2 = .ok u ∧
      u.Sound stride prepared (rest ++ slots_of (kernel.eraseIdx k)) ∧ u.Told ∧
      u.pending = (rest ++ slots_of (kernel.eraseIdx k)).length ∧
      (∀ i, u.id_of i = t.id_of i) ∧ u.requests.length = t.requests.length ∧
      ∀ waiting, ledger.Sound t.ledger waiting ((slots_of kernel).map t.id_of) →
        ledger.Sound u.ledger waiting ((slots_of (kernel.eraseIdx k)).map t.id_of) := by
  obtain ⟨hk, rfl⟩ := List.getElem?_eq_some_iff.mp he
  have hkernel : (slots_of (kernel[k] :: kernel.eraseIdx k)).Perm (slots_of kernel) :=
    (List.getElem_cons_eraseIdx_perm hk).map Entry.user_data
  have hslots : (kernel[k].user_data :: (rest ++ slots_of (kernel.eraseIdx k))).Perm
      (rest ++ slots_of kernel) :=
    List.perm_middle.symm.trans (hkernel.append_left rest)
  have hlt : kernel[k].user_data < t.requests.length :=
    h.lt _ (List.mem_append_right _ (hslots.subset List.mem_cons_self))
  obtain ⟨u, hu, hsound, htold', hids, hpending', hledger⟩ :=
    (h.perm (List.Perm.refl _) hslots).complete htold hstride result result2
  refine ⟨u, hu, hsound, htold', ?_, fun i => ?_, by rw [← hsound.ids, hids, h.ids], ?_⟩
  · have hlength := hslots.length_eq
    rw [List.length_cons] at hlength
    omega
  · unfold id_of
    rw [hids]
  · intro waiting hwork
    have hfirst := ledger.Sound.perm hwork (List.Perm.refl _) (hkernel.map t.id_of)
    rw [hledger]
    exact ledger.Sound.settle hfirst _

/-! ## What holds of the slots and the record -/

/-- How many slots are in state 2. -/
theorem Sound.count_owned (h : t.Sound stride prepared owned) :
    t.requests.countP (fun r => r.state == 2) = owned.length := by
  have hcount : t.requests.countP (fun r => r.state == 2) =
      (t.requests.map fun r => r.state == 2).count true := by
    rw [List.count_eq_countP, List.countP_map]
    congr 1
    funext r
    simp
  have hperm : (flags.marked (t.requests.map fun r => r.state == 2)).Perm owned := by
    rw [List.perm_ext_iff_of_nodup (flags.marked_nodup _) h.nodup.of_append_right]
    intro i
    rw [flags.mem_marked, List.getD_eq_getElem?_getD, List.getElem?_map]
    by_cases hi : i < t.requests.length
    · have hstate := h.state i hi
      unfold state_of request_of at hstate
      rw [List.getD_eq_getElem?_getD, List.getElem?_eq_getElem hi, Option.getD_some] at hstate
      rw [List.getElem?_eq_getElem hi, Option.map_some, Option.getD_some, hstate, beq_iff_eq]
      split_ifs with h1 h2
      · simp [h1]
      · simp [h1]
      · simp [h1]
    · rw [List.getElem?_eq_none (by omega)]
      simp only [Option.map_none, Option.getD_none, Bool.false_eq_true, false_iff]
      exact fun ho => hi (h.lt i (List.mem_append_right _ ho))
  rw [hcount, ← flags.length_marked, hperm.length_eq]

theorem Sound.states (h : t.Sound stride prepared owned) :
    ∀ r ∈ t.requests, r.state = 0 ∨ r.state = 1 ∨ r.state = 2 := by
  intro r hr
  obtain ⟨i, hi, rfl⟩ := List.getElem_of_mem hr
  have hstate := h.state i hi
  unfold state_of request_of at hstate
  rw [List.getD_eq_getElem?_getD, List.getElem?_eq_getElem hi, Option.getD_some] at hstate
  rw [hstate]
  split_ifs <;> simp

/-- The slots that are not free. -/
def live (t : Table) : List Nat :=
  (List.range t.requests.length).filter fun i => t.state_of i != 0

theorem Sound.live_perm (h : t.Sound stride prepared owned) : t.live.Perm (prepared ++ owned) := by
  unfold live
  rw [List.perm_ext_iff_of_nodup (List.nodup_range.filter _) h.nodup]
  intro i
  rw [List.mem_filter, List.mem_range, bne_iff_ne]
  constructor
  · rintro ⟨hlt, hstate⟩
    rw [h.state i hlt] at hstate
    split_ifs at hstate with h1 h2
    · exact List.mem_append_right _ h1
    · exact List.mem_append_left _ h2
    · exact absurd rfl hstate
  · intro hi
    refine ⟨h.lt i hi, ?_⟩
    rw [h.state i (h.lt i hi)]
    split_ifs with h1 h2
    · decide
    · decide
    · exact absurd hi (by simp [h1, h2])

/-- What is promised of the requests of a loop. `held` is the request on its way to a
slot, if there is one, and `ended` what the loop returned. -/
structure Contract (t : Table) (held : List Nat) (ended : Option (Except Failure Unit)) : Prop where
  accepted_once : t.ledger.accepted.Nodup ∧ ∀ id ∈ t.ledger.accepted, id < t.ledger.taken.length
  states : ∀ r ∈ t.requests, r.state = 0 ∨ r.state = 1 ∨ r.state = 2
  one_place : (held ++ t.live.map t.id_of ++ t.ledger.settled).Perm
    (List.range t.ledger.taken.length)
  pending : t.pending = t.requests.countP (fun r => r.state == 2)
  returned : ∀ result, ended = some result →
    (result = .ok () ∨ ∃ n r, result = .error (.Incomplete n r)) →
    t.pending = 0 ∧ t.ledger.accepted.Perm (List.range t.ledger.taken.length) ∧
    (∀ id ∈ t.ledger.accepted, ∃ o r, t.ledger.results.filter (fun x => x.1 == id) = [(id, o)] ∧
      t.ledger.taken[id]? = some r ∧ o.request = { r with state := 2 } ∧
      t.passed.filter (fun x => x.1 == id) = if o.full then [(id, o.slot, o.request)] else []) ∧
    result = match t.ledger.results.find? fun x => !x.2.full with
      | none => .ok ()
      | some x => .error (.Incomplete x.2.result x.2.request)

/-- A number that stands once among the keys of a list has one entry. -/
theorem filter_key {α : Type} {l : List (Nat × α)} (h : (l.map Prod.fst).Nodup) {id : Nat}
    (hid : id ∈ l.map Prod.fst) : ∃ a, l.filter (fun x => x.1 == id) = [(id, a)] := by
  induction l with
  | nil => cases hid
  | cons x l ih =>
    rw [List.map_cons, List.nodup_cons] at h
    rw [List.map_cons, List.mem_cons] at hid
    by_cases hx : x.1 = id
    · refine ⟨x.2, ?_⟩
      have hrest : l.filter (fun y => y.1 == id) = [] := by
        rw [List.filter_eq_nil_iff]
        intro y hy he
        rw [beq_iff_eq] at he
        exact h.1 (hx ▸ he ▸ List.mem_map_of_mem hy)
      rw [List.filter_cons_of_pos (by simpa using hx), hrest, ← hx]
    · rw [List.filter_cons_of_neg (by simpa using hx)]
      exact ih h.2 (hid.resolve_left fun he => hx he.symm)

/-- The calls of `complete` for one request. -/
theorem Told.passed_of (h : t.Told) {id : Nat} {o : Outcome}
    (ho : t.ledger.results.filter (fun x => x.1 == id) = [(id, o)]) :
    t.passed.filter (fun x => x.1 == id) = if o.full then [(id, o.slot, o.request)] else [] := by
  have hswap : (t.ledger.results.filter fun x => x.2.full).filter (fun x => x.1 == id) =
      [(id, o)].filter fun x => x.2.full := by
    rw [← ho, List.filter_filter, List.filter_filter]
    apply List.filter_congr
    intro x _
    exact Bool.and_comm _ _
  have hmap : t.passed.filter (fun x => x.1 == id) =
      ((t.ledger.results.filter fun x => x.2.full).filter fun x => x.1 == id).map fun x =>
        (x.1, x.2.slot, x.2.request) := by
    rw [h.passed, List.filter_map]
    rfl
  rw [hmap, hswap]
  cases hfull : o.full with
  | true => simp [hfull]
  | false => simp [hfull]

/-- The contract from what a loop keeps: `waiting` are the slots that the kernel has not
accepted, and `kernel` those it has. -/
theorem Contract.of {held waiting kernel : List Nat} {ended : Option (Except Failure Unit)}
    (h : t.Sound stride prepared owned) (htold : t.Told)
    (hledger : ledger.Sound t.ledger (held ++ waiting.map t.id_of) (kernel.map t.id_of))
    (hslots : (waiting ++ kernel).Perm (prepared ++ owned)) (hpending : t.pending = owned.length)
    (hended : ∀ result, ended = some result →
      (result = .ok () ∨ ∃ n r, result = .error (.Incomplete n r)) →
      prepared = [] ∧ owned = [] ∧ held = [] ∧ result = t.failure.elim (.ok ()) .error) :
    t.Contract held ended := by
  refine ⟨⟨hledger.accepted_nodup, fun id hid => hledger.accepted_lt hid⟩, h.states, ?_, ?_, ?_⟩
  · have hlive : (t.live.map t.id_of).Perm (waiting.map t.id_of ++ kernel.map t.id_of) := by
      rw [← List.map_append]
      exact (h.live_perm.trans hslots.symm).map _
    refine List.Perm.trans ?_ hledger.places
    rw [List.append_assoc, List.append_assoc, ← List.append_assoc (waiting.map t.id_of)]
    exact (hlive.append_right _).append_left held
  · rw [hpending, h.count_owned]
  · intro result hresult hkind
    obtain ⟨rfl, rfl, rfl, hfailure⟩ := hended result hresult hkind
    obtain ⟨rfl, rfl⟩ := List.append_eq_nil_iff.mp (List.perm_nil.mp hslots)
    obtain ⟨haccepted, hsettled⟩ := ledger.Sound.settled_perm hledger
    refine ⟨hpending, haccepted, fun id hid => ?_, ?_⟩
    · have hid' : id ∈ t.ledger.settled := (haccepted.trans hsettled.symm).subset hid
      obtain ⟨o, ho⟩ := filter_key hledger.settled_nodup hid'
      have hmem : (id, o) ∈ t.ledger.results := by
        have hin : (id, o) ∈ t.ledger.results.filter fun x => x.1 == id := by
          rw [ho]
          exact List.mem_singleton.mpr rfl
        exact List.mem_of_mem_filter hin
      obtain ⟨r, hr, hrequest⟩ := htold.outcomes _ hmem
      exact ⟨o, r, ho, hr, hrequest, htold.passed_of ho⟩
    · rw [hfailure, htold.failure]
      cases t.ledger.results.find? fun x => !x.2.full <;> rfl

end Table

end stutools
