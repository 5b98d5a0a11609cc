-- The builder of unique random positions (src/c/spit/positions.c): a table with a bit for each
-- 1024 blocks says when a position has to be compared with those before it. A position that
-- came before steps the index back inside that comparison.
import Mathlib.Data.List.GetD
import Mathlib.Data.List.Nodup
import Stutools.SpitBlocks

namespace stutools.spit.unique

/-! ## The builder -/

/-- How a run of the builder ends: an assertion (or the division by the alignment) fails, an
index is outside of the table, the generator is asked for a value more, or the positions are
returned and some values are left. -/
inductive Outcome where
  | aborted
  | outside
  | waiting
  | returned (positions values : List Nat)
deriving DecidableEq

/-- The index of the table for a position. The product of the doubles is exact. -/
def index (pos : Nat) : Nat := pos / 4096 / 1024

/-- The comparison with the positions before `i`. None when it looks outside of the table. -/
def search (bits : List Bool) (positions : List Nat) (pos j i : Nat) : Option Nat :=
  if j < i then
    match bits[index (positions.getD j 0)]? with
    | none => none
    | some bit =>
      if bit ∧ positions.getD j 0 = pos then search bits positions pos (j + 1) (i - 1)
      else search bits positions pos (j + 1) i
  else some i
termination_by i - j

/-- The field `pos` of the positions, the table, and the index of the outer loop. -/
structure Filling where
  positions : List Nat
  bits : List Bool
  i : Nat

/-- The end of a turn of the outer loop. -/
def Filling.assign (s : Filling) (pos i : Nat) : Filling :=
  { positions := s.positions.set i pos, bits := s.bits.set (index pos) true, i := i + 1 }

section
variable (minbdSize maxbdSize : Nat)

/-- One turn of the outer loop, with the random value it takes. -/
def turn (bitmax randomValue : Nat) (s : Filling) : Except Outcome Filling :=
  match randomBlockSize minbdSize maxbdSize 12 randomValue with
  | none => .error .aborted
  | some pos =>
    if index pos ≤ bitmax then
      match s.bits[index pos]? with
      | none => .error .outside
      | some false => .ok (s.assign pos s.i)
      | some true =>
        match search s.bits s.positions pos 0 s.i with
        | none => .error .outside
        | some i => .ok (s.assign pos i)
    else .error .aborted

/-- The outer loop, on the values that the generator gives. -/
def fill (bitmax : Nat) : List Nat → Filling → Outcome
  | [], s => if s.i < s.positions.length then .waiting else .returned s.positions []
  | randomValue :: values, s =>
    if s.i < s.positions.length then
      match turn minbdSize maxbdSize bitmax randomValue s with
      | .error outcome => outcome
      | .ok s => fill bitmax values s
    else .returned s.positions (randomValue :: values)

def range : Nat := (maxbdSize + 2 ^ 64 - minbdSize) % 2 ^ 64

/-- `createUniqueRandomPositions`, on the positions of the container as they are before. -/
def createUniqueRandomPositions (alignment : Nat) (positions values : List Nat) : Outcome :=
  if alignment = 0 then .aborted
  else
    let bitmax := range minbdSize maxbdSize / alignment / 1024
    fill minbdSize maxbdSize bitmax values ⟨positions, List.replicate (bitmax + 1) false, 0⟩

end

/-! ## The comparison -/

/-- The table has a bit for each position that was assigned, and the bit is set. -/
structure Tabled (bitmax : Nat) (s : Filling) : Prop where
  size : s.bits.length = bitmax + 1
  set : ∀ j < s.i, s.bits[index (s.positions.getD j 0)]? = some true
  room : s.i ≤ s.positions.length

/-- Where the index stands after the comparison: where it was when no position was the same, one
below when only the last one was, and else on a position after one of them. -/
theorem search.spec {bits : List Bool} {positions : List Nat} {pos j i : Nat}
    (hset : ∀ m < i, bits[index (positions.getD m 0)]? = some true) :
    ∃ k ≤ i, search bits positions pos j i = some k ∧
      ((k = i ∧ ∀ m, j ≤ m → m < i → positions.getD m 0 ≠ pos) ∨
        (k + 1 = i ∧ j ≤ k ∧ positions.getD k 0 = pos) ∨
        ∃ m, j ≤ m ∧ m < k ∧ k < i ∧ positions.getD m 0 = pos) := by
  fun_induction search bits positions pos j i with
  | case1 j i hlt hnone =>
    rw [hset j hlt] at hnone
    cases hnone
  | case2 j i hlt bit hbit hhit ih =>
    obtain ⟨k, hk, hsearch, hcases⟩ := ih fun m hm => hset m (by omega)
    refine ⟨k, by omega, hsearch, .inr ?_⟩
    obtain ⟨rfl, -⟩ | ⟨hlast, hjk, -⟩ | ⟨m, hjm, hmk, hki, -⟩ := hcases
    · by_cases hj : j = i - 1
      · exact .inl ⟨by omega, by omega, hj ▸ hhit.2⟩
      · exact .inr ⟨j, by omega, by omega, by omega, hhit.2⟩
    · exact .inr ⟨j, by omega, by omega, by omega, hhit.2⟩
    · exact .inr ⟨j, by omega, by omega, by omega, hhit.2⟩
  | case3 j i hlt bit hbit hmiss ih =>
    have hne : positions.getD j 0 ≠ pos := by
      intro heq
      rw [hset j hlt] at hbit
      exact hmiss ⟨(Option.some.inj hbit).symm, heq⟩
    obtain ⟨k, hk, hsearch, hcases⟩ := ih hset
    refine ⟨k, hk, hsearch, ?_⟩
    obtain ⟨rfl, hnone⟩ | ⟨hlast, hjk, hpos⟩ | ⟨m, hjm, hmk, hki, hpos⟩ := hcases
    · refine .inl ⟨rfl, fun m hjm hm => ?_⟩
      obtain rfl | hjm := Nat.eq_or_lt_of_le hjm
      · exact hne
      · exact hnone m hjm hm
    · exact .inr (.inl ⟨hlast, by omega, hpos⟩)
    · exact .inr (.inr ⟨m, by omega, hmk, hki, hpos⟩)
  | case4 j i hge => exact ⟨i, Nat.le_refl i, rfl, .inl ⟨rfl, fun m _ _ => by omega⟩⟩

/-! ## The positions assigned so far -/

/-- The positions that have been assigned. -/
def Filling.assigned (s : Filling) : List Nat := s.positions.take s.i

/-- What a turn does to the positions that have been assigned: a new one comes after them, the
last one comes again and nothing changes, or an earlier one comes again and then stands among them
twice. -/
inductive Adds (pos : Nat) (before : List Nat) : List Nat → Prop
  | new : pos ∉ before → Adds pos before (before ++ [pos])
  | again : before.getLast? = some pos → Adds pos before before
  | twice {after : List Nat} : pos ∈ before.dropLast → pos ∈ after → ¬ after.Nodup →
      (∀ x ∈ after, x ∈ before) → Adds pos before after

theorem assigned_assign {s : Filling} {pos k : Nat} (hk : k < s.positions.length) :
    (s.assign pos k).assigned = s.positions.take k ++ [pos] := by
  unfold Filling.assign Filling.assigned
  rw [List.take_add_one, List.take_set_of_le (Nat.le_refl k), List.getElem?_set_self hk]
  rfl

theorem mem_assigned_iff {s : Filling} {x : Nat} (hroom : s.i ≤ s.positions.length) :
    x ∈ s.assigned ↔ ∃ m < s.i, s.positions.getD m 0 = x := by
  unfold Filling.assigned
  rw [List.mem_take_iff_getElem]
  constructor
  · rintro ⟨m, hm, rfl⟩
    exact ⟨m, by omega, by rw [List.getD_eq_getElem _ _ (by omega)]⟩
  · rintro ⟨m, hm, rfl⟩
    exact ⟨m, by omega, by rw [List.getD_eq_getElem _ _ (by omega)]⟩

/-- The table after a turn. -/
theorem Tabled.assign {bitmax : Nat} {s : Filling} (h : Tabled bitmax s) {pos k : Nat}
    (hk : k ≤ s.i) (hlt : s.i < s.positions.length) (hindex : index pos ≤ bitmax) :
    Tabled bitmax (s.assign pos k) := by
  refine ⟨?_, fun j hj => ?_, ?_⟩
  · exact List.length_set.trans h.size
  · unfold Filling.assign at hj ⊢
    dsimp only at hj ⊢
    have hroom : index pos < s.bits.length := by rw [h.size]; omega
    by_cases hjk : j = k
    · subst hjk
      rw [List.getD_eq_getElem?_getD, List.getElem?_set_self (by omega), Option.getD_some,
        List.getElem?_set_self hroom]
    · rw [List.getD_eq_getElem?_getD, List.getElem?_set_ne (Ne.symm hjk),
        ← List.getD_eq_getElem?_getD]
      by_cases hsame : index pos = index (s.positions.getD j 0)
      · rw [← hsame, List.getElem?_set_self hroom]
      · rw [List.getElem?_set_ne hsame]
        exact h.set j (by omega)
  · unfold Filling.assign
    dsimp only
    rw [List.length_set]
    omega

/-- The comparison leaves an index at which the position is added. -/
theorem adds_of_search {s : Filling} {pos k : Nat} (hlt : s.i < s.positions.length)
    (hk : (k = s.i ∧ ∀ m, 0 ≤ m → m < s.i → s.positions.getD m 0 ≠ pos) ∨
      (k + 1 = s.i ∧ 0 ≤ k ∧ s.positions.getD k 0 = pos) ∨
      ∃ m, 0 ≤ m ∧ m < k ∧ k < s.i ∧ s.positions.getD m 0 = pos) :
    Adds pos s.assigned (s.assign pos k).assigned := by
  obtain ⟨rfl, hnone⟩ | ⟨hlast, -, hpos⟩ | ⟨m, -, hmk, hki, hpos⟩ := hk
  · rw [assigned_assign hlt]
    refine .new fun hmem => ?_
    obtain ⟨m, hm, hpos⟩ := (mem_assigned_iff hlt.le).mp hmem
    exact hnone m (Nat.zero_le m) hm hpos
  · have hkl : k < s.positions.length := by omega
    rw [List.getD_eq_getElem _ _ hkl] at hpos
    have hsame : s.assigned = s.positions.take k ++ [pos] := by
      unfold Filling.assigned
      rw [← hlast, List.take_add_one, List.getElem?_eq_getElem hkl, hpos]
      rfl
    rw [assigned_assign hkl, ← hsame]
    exact .again (by rw [hsame, List.getLast?_concat])
  · have hkl : k < s.positions.length := by omega
    rw [assigned_assign hkl]
    have hearlier : pos ∈ s.positions.take k := by
      rw [List.mem_take_iff_getElem]
      exact ⟨m, by omega, by rw [← hpos, List.getD_eq_getElem _ _ (by omega)]⟩
    have hbefore : s.positions.take k <+: s.assigned.dropLast := by
      unfold Filling.assigned
      rw [List.dropLast_take hlt]
      exact List.take_prefix_take_left (by omega)
    refine .twice (hbefore.subset hearlier) (by simp) ?_ ?_
    · exact fun hnodup => (List.nodup_append.mp hnodup).2.2 pos hearlier pos (by simp) rfl
    · intro x hx
      refine (List.dropLast_sublist _).subset ?_
      obtain hx | hx := List.mem_append.mp hx
      · exact hbefore.subset hx
      · rw [List.mem_singleton.mp hx]
        exact hbefore.subset hearlier

/-- What one turn does, when no assertion fails. -/
theorem turn.spec {lo hi bitmax randomValue : Nat} {s : Filling} (h : Tabled bitmax s)
    (hlt : s.i < s.positions.length) :
    turn lo hi bitmax randomValue s = .error .aborted ∨
      ∃ pos s', randomBlockSize lo hi 12 randomValue = some pos ∧
        turn lo hi bitmax randomValue s = .ok s' ∧ Tabled bitmax s' ∧
        s'.positions.length = s.positions.length ∧ Adds pos s.assigned s'.assigned := by
  unfold turn
  split
  · exact .inl rfl
  · rename_i pos hpos
    split
    · rename_i hindex
      right
      split
      · rename_i hnone
        rw [List.getElem?_eq_none_iff, h.size] at hnone
        omega
      · rename_i hbit
        refine ⟨pos, _, hpos, rfl, h.assign (Nat.le_refl _) hlt hindex, List.length_set, ?_⟩
        refine adds_of_search hlt (.inl ⟨rfl, fun m _ hm heq => ?_⟩)
        rw [← heq, h.set m hm] at hbit
        cases hbit
      · obtain ⟨k, hk, hsearch, hcases⟩ := @search.spec _ _ pos 0 _ h.set
        rw [hsearch]
        exact ⟨pos, _, hpos, rfl, h.assign hk hlt hindex, List.length_set,
          adds_of_search hlt hcases⟩
    · exact .inl rfl

/-! ## The values that were drawn -/

/-- A position comes a second time only right after it came. -/
def Fresh (drawn : List Nat) : Prop :=
  ∀ earlier pos later, drawn = earlier ++ pos :: later →
    pos ∉ earlier ∨ earlier.getLast? = some pos

theorem fresh_nil : Fresh [] := by
  intro earlier pos later h
  cases earlier <;> cases h

theorem fresh_concat {drawn : List Nat} {pos : Nat} :
    Fresh (drawn ++ [pos]) ↔ Fresh drawn ∧ (pos ∉ drawn ∨ drawn.getLast? = some pos) := by
  constructor
  · intro h
    refine ⟨fun earlier x later hsplit => h earlier x (later ++ [pos]) ?_, h drawn pos [] rfl⟩
    rw [hsplit, List.append_assoc, List.cons_append]
  · rintro ⟨hfresh, hlast⟩ earlier x later hsplit
    obtain rfl | ⟨later, y, rfl⟩ := List.eq_nil_or_concat later
    · obtain ⟨rfl, hx⟩ := List.append_inj' hsplit rfl
      cases hx
      exact hlast
    · rw [List.concat_eq_append, ← List.cons_append, ← List.append_assoc] at hsplit
      exact hfresh earlier x later (List.append_inj' hsplit rfl).1

/-- The assigned positions are those drawn, without repetition when each was fresh, and with one
for ever when one was not. -/
structure Follows (drawn assigned : List Nat) : Prop where
  mem : ∀ x, x ∈ assigned → x ∈ drawn
  fresh : Fresh drawn → assigned.Nodup ∧ (∀ x, x ∈ drawn → x ∈ assigned) ∧
    assigned.getLast? = drawn.getLast?
  stale : ¬ Fresh drawn → ¬ assigned.Nodup

theorem Follows.nil : Follows [] [] :=
  ⟨fun _ h => h, fun _ => ⟨List.nodup_nil, fun _ h => h, rfl⟩, fun h => absurd fresh_nil h⟩

theorem Follows.add {drawn before after : List Nat} {pos : Nat} (h : Follows drawn before)
    (hadds : Adds pos before after) : Follows (drawn ++ [pos]) after := by
  constructor
  · intro x hx
    cases hadds with
    | new _ =>
      rw [List.mem_append] at hx ⊢
      exact hx.imp_left (h.mem x)
    | again _ => exact List.mem_append_left _ (h.mem x hx)
    | twice _ _ _ hsub => exact List.mem_append_left _ (h.mem x (hsub x hx))
  · intro hfresh
    obtain ⟨hfresh, hlast⟩ := fresh_concat.mp hfresh
    obtain ⟨hnodup, hmem, hsame⟩ := h.fresh hfresh
    cases hadds with
    | new hnew =>
      refine ⟨by simpa using hnodup.concat hnew, fun x hx => ?_, ?_⟩
      · rw [List.mem_append] at hx ⊢
        exact hx.imp_left (hmem x)
      · rw [List.getLast?_concat, List.getLast?_concat]
    | again hagain =>
      refine ⟨hnodup, fun x hx => ?_, by rw [hagain, List.getLast?_concat]⟩
      obtain hx | hx := List.mem_append.mp hx
      · exact hmem x hx
      · rw [List.mem_singleton.mp hx]
        exact List.mem_of_getLast? hagain
    | twice hearlier =>
      have hbefore : pos ∈ before := (List.dropLast_sublist _).subset hearlier
      have hdrawn := hlast.resolve_left fun hnot => hnot (h.mem pos hbefore)
      rw [← hsame] at hdrawn
      obtain ⟨ys, rfl⟩ := List.getLast?_eq_some_iff.mp hdrawn
      rw [List.dropLast_concat] at hearlier
      exact absurd rfl ((List.nodup_append.mp hnodup).2.2 pos hearlier pos (by simp))
  · intro hstale hnodup
    by_cases hfresh : Fresh drawn
    · obtain ⟨-, hmem, hsame⟩ := h.fresh hfresh
      have hagain : ¬ (pos ∉ drawn ∨ drawn.getLast? = some pos) :=
        fun hlast => hstale (fresh_concat.mpr ⟨hfresh, hlast⟩)
      rw [not_or, not_not] at hagain
      cases hadds with
      | new hnew => exact hnew (hmem pos hagain.1)
      | again hlast => exact hagain.2 (hsame ▸ hlast)
      | twice _ _ htwice _ => exact htwice hnodup
    · have hbefore := h.stale hfresh
      cases hadds with
      | new _ => exact hbefore (List.nodup_append.mp hnodup).1
      | again _ => exact hbefore hnodup
      | twice _ _ htwice _ => exact htwice hnodup

/-! ## The whole run -/

section
variable {minbdSize maxbdSize : Nat}

/-- The positions that the values stand for. -/
def candidates (minbdSize maxbdSize : Nat) (values : List Nat) : List Nat :=
  values.map fun v => (randomBlockSize minbdSize maxbdSize 12 v).getD 0

theorem fill.spec {bitmax : Nat} (values : List Nat) {s : Filling} {drawn : List Nat}
    (h : Tabled bitmax s) (hfollows : Follows drawn s.assigned) :
    fill minbdSize maxbdSize bitmax values s ≠ .outside ∧
      ∀ positions, fill minbdSize maxbdSize bitmax values s = .returned positions [] →
        positions.length = s.positions.length ∧
        Follows (drawn ++ candidates minbdSize maxbdSize values) positions ∧
        ∀ v ∈ values, (randomBlockSize minbdSize maxbdSize 12 v).isSome := by
  induction values generalizing s drawn with
  | nil =>
    unfold fill
    split
    · exact ⟨nofun, nofun⟩
    · rename_i hfull
      refine ⟨nofun, fun positions hreturns => ?_⟩
      cases hreturns
      have hall : s.assigned = s.positions := List.take_of_length_le (not_lt.mp hfull)
      refine ⟨rfl, ?_, nofun⟩
      rw [← hall]
      simpa [candidates] using hfollows
  | cons v values ih =>
    unfold fill
    split
    · rename_i hlt
      obtain habort | ⟨pos, s', hpos, hturn, htabled, hlength, hadds⟩ :=
        @turn.spec minbdSize maxbdSize bitmax v s h hlt
      · rw [habort]
        exact ⟨nofun, nofun⟩
      · rw [hturn]
        obtain ⟨hinside, hreturned⟩ := ih htabled (hfollows.add hadds)
        refine ⟨hinside, fun positions hreturns => ?_⟩
        obtain ⟨hlen, hall, hsome⟩ := hreturned positions hreturns
        refine ⟨hlen.trans hlength, ?_, List.forall_mem_cons.mpr ⟨by rw [hpos]; rfl, hsome⟩⟩
        rw [List.append_assoc] at hall
        rwa [candidates, List.map_cons, hpos]
    · exact ⟨nofun, nofun⟩

/-- The positions of a run that returns. -/
theorem createUniqueRandomPositions.spec {alignment : Nat} {positions values : List Nat} :
    createUniqueRandomPositions minbdSize maxbdSize alignment positions values ≠ .outside ∧
      ∀ positions', createUniqueRandomPositions minbdSize maxbdSize alignment positions values =
          .returned positions' [] →
        positions'.length = positions.length ∧
        Follows (candidates minbdSize maxbdSize values) positions' ∧
        ∀ v ∈ values, (randomBlockSize minbdSize maxbdSize 12 v).isSome := by
  unfold createUniqueRandomPositions
  split
  · exact ⟨nofun, nofun⟩
  · have htabled : Tabled (range minbdSize maxbdSize / alignment / 1024) ⟨positions,
        List.replicate (range minbdSize maxbdSize / alignment / 1024 + 1) false, 0⟩ :=
      ⟨List.length_replicate, fun j hj => absurd hj (Nat.not_lt_zero j), Nat.zero_le _⟩
    exact fill.spec values htabled Follows.nil

/-- The positions are unique, aligned and in the range when the range is not empty and no value
that was drawn gives a position that came before, except right after it came. -/
theorem the_positions_are_unique_when_none_comes_again_later {alignment : Nat}
    {positions values : List Nat}
    (hvalues : minbdSize < maxbdSize → ∀ v ∈ values, v < maxbdSize - minbdSize) :
    createUniqueRandomPositions minbdSize maxbdSize alignment positions values ≠ .outside ∧
      ∀ positions', createUniqueRandomPositions minbdSize maxbdSize alignment positions values =
          .returned positions' [] →
        ((positions'.length = positions.length ∧
            (∀ p ∈ positions', p ∈ candidates minbdSize maxbdSize values) ∧ positions'.Nodup ∧
            ∀ p ∈ positions', 4096 ∣ p ∧ minbdSize ≤ p ∧ p < maxbdSize) ↔
          (minbdSize < maxbdSize ∨ positions = []) ∧
            Fresh (candidates minbdSize maxbdSize values)) := by
  obtain ⟨hinside, hreturned⟩ :=
    @createUniqueRandomPositions.spec minbdSize maxbdSize alignment positions values
  refine ⟨hinside, fun positions' hreturns => ?_⟩
  obtain ⟨hlength, hfollows, hsome⟩ := hreturned positions' hreturns
  constructor
  · rintro ⟨-, -, hnodup, hrange⟩
    refine ⟨?_, by_contra fun hstale => hfollows.stale hstale hnodup⟩
    cases positions' with
    | nil => exact .inr (List.length_eq_zero_iff.mp hlength.symm)
    | cons p _ =>
      obtain ⟨-, hlo, hhi⟩ := hrange p List.mem_cons_self
      exact .inl (hlo.trans_lt hhi)
  · rintro ⟨hempty, hfresh⟩
    refine ⟨hlength, hfollows.mem, (hfollows.fresh hfresh).1, fun p hp => ?_⟩
    have hrange : minbdSize < maxbdSize := by
      refine hempty.resolve_right fun hnil => ?_
      rw [hnil, List.length_nil, List.length_eq_zero_iff] at hlength
      rw [hlength] at hp
      cases hp
    obtain ⟨v, hv, rfl⟩ := List.mem_map.mp (hfollows.mem p hp)
    obtain ⟨pos, hpos⟩ := Option.isSome_iff_exists.mp (hsome v hv)
    rw [hpos, Option.getD_some]
    exact ⟨randomBlockSize.aligned hpos (by decide),
      (randomBlockSize.bounds hpos (by omega)).1,
      randomBlockSize.lt hpos hrange (hvalues hrange v hv)⟩

end

theorem two_positions_are_unique :
    createUniqueRandomPositions 0 16384 4096 [0, 0] [4096, 5000, 0] ≠ .outside ∧
      ∀ positions', createUniqueRandomPositions 0 16384 4096 [0, 0] [4096, 5000, 0] =
          .returned positions' [] →
        ((positions'.length = [0, 0].length ∧
            (∀ p ∈ positions', p ∈ candidates 0 16384 [4096, 5000, 0]) ∧ positions'.Nodup ∧
            ∀ p ∈ positions', 4096 ∣ p ∧ 0 ≤ p ∧ p < 16384) ↔
          (0 < 16384 ∨ [0, 0] = []) ∧ Fresh (candidates 0 16384 [4096, 5000, 0])) :=
  the_positions_are_unique_when_none_comes_again_later fun _ => by decide

/-- The third value gives the first position again, and the second position is lost for it. -/
theorem an_earlier_position_comes_again_and_stays :
    (∀ v ∈ [0, 4096, 0, 8192], v < 16384 - 0) ∧
    createUniqueRandomPositions 0 16384 4096 [0, 0, 0] [0, 4096, 0, 8192] =
      .returned [0, 0, 8192] [] := by
  refine ⟨by decide, ?_⟩
  simp [createUniqueRandomPositions, range, fill, turn, randomBlockSize, index, search,
    Filling.assign]

end stutools.spit.unique
