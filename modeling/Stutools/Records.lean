-- Lists of records in a buffer, each as long as its own fields say: a reader that moves on with
-- every record ends, on whatever the buffer holds, and it gives back a list whose encodings stand
-- one behind the other.
import Mathlib.Data.List.Basic

namespace records

variable {α β ε κ : Type*}

/-- What a loop reads at an offset, after the records before: a record and its length, or that
there are no more. It moves on, and reads nothing from the bound on. -/
structure Reader (α ε : Type*) where
  read : List α → Nat → Except ε (Option (α × Nat))
  bound : Nat
  moves : ∀ {out : List α} {i : Nat} {a : α} {n : Nat},
    read out i = .ok (some (a, n)) → i < bound ∧ 0 < n

namespace Reader

/-- The loop, from an offset on. -/
def walk (r : Reader α ε) (out : List α) (i : Nat) : Except ε (List α) :=
  match _ : r.read out i with
  | .error e => .error e
  | .ok none => .ok out
  | .ok (some (a, n)) => r.walk (out ++ [a]) (i + n)
termination_by r.bound - i
decreasing_by
  rename_i hread
  have := r.moves hread
  omega

variable {r : Reader α ε}

theorem walk_stop {out : List α} {i : Nat} (h : r.read out i = .ok none) :
    r.walk out i = .ok out := by
  rw [walk]
  split
  · rename_i herror
    rw [h] at herror
    cases herror
  · rfl
  · rename_i hread
    rw [h] at hread
    cases hread

theorem walk_next {out : List α} {i n : Nat} {a : α} (h : r.read out i = .ok (some (a, n))) :
    r.walk out i = r.walk (out ++ [a]) (i + n) := by
  rw [walk]
  split
  · rename_i herror
    rw [h] at herror
    cases herror
  · rename_i hstop
    rw [h] at hstop
    cases hstop
  · rename_i hread
    rw [h] at hread
    cases hread
    rfl

/-- A loop fails only where it reads. -/
theorem walk_error {e : ε} {out : List α} {i : Nat} (h : r.walk out i = .error e) :
    ∃ out i, r.read out i = .error e := by
  induction out, i using walk.induct r with
  | case1 out i e' hread =>
    refine ⟨out, i, ?_⟩
    rw [walk] at h
    split at h
    · rename_i herror
      cases h
      exact herror
    · cases h
    · rename_i hnext
      rw [hread] at hnext
      cases hnext
  | case2 out i hread =>
    rw [walk_stop hread] at h
    cases h
  | case3 out i a n hread ih =>
    rw [walk_next hread] at h
    exact ih h

theorem exists_walk (hread : ∀ out i e, r.read out i ≠ .error e) (i : Nat) :
    ∃ items, r.walk [] i = .ok items := by
  cases hwalk : r.walk [] i with
  | ok items => exact ⟨items, rfl⟩
  | error e =>
    obtain ⟨out, i, h⟩ := walk_error hwalk
    exact absurd h (hread out i e)

/-- Records that stand one behind the other are read, when each is at its place, and when the
loop ends behind the last. -/
theorem walk_encoded {enc : β → List κ} {got : β → α} {d rest : List κ} {i : Nat} (items : List β)
    (hd : d.drop i = items.flatMap enc ++ rest)
    (hread : ∀ before x after j, items = before ++ x :: after →
      j + (enc x).length ≤ i + (items.flatMap enc).length →
        d.drop j = enc x ++ (after.flatMap enc ++ rest) →
          r.read (before.map got) j = .ok (some (got x, (enc x).length)))
    (hend : d.drop (i + (items.flatMap enc).length) = rest →
      r.read (items.map got) (i + (items.flatMap enc).length) = .ok none) :
    r.walk [] i = .ok (items.map got) := by
  have hplace : ∀ before after, items = before ++ after →
      d.drop (i + (before.flatMap enc).length) = after.flatMap enc ++ rest := by
    intro before after hitems
    rw [← List.drop_drop, hd, hitems, List.flatMap_append, List.append_assoc, List.drop_left]
  have hfrom : ∀ after before, items = before ++ after →
      r.walk (before.map got) (i + (before.flatMap enc).length) = .ok (items.map got) := by
    intro after
    induction after with
    | nil =>
      intro before hitems
      rw [List.append_nil] at hitems
      subst hitems
      exact walk_stop (hend (hplace items [] (List.append_nil items).symm))
    | cons x after ih =>
      intro before hitems
      have hat := hplace before (x :: after) hitems
      rw [List.flatMap_cons, List.append_assoc] at hat
      have hroom : i + (before.flatMap enc).length + (enc x).length ≤
          i + (items.flatMap enc).length := by
        rw [hitems, List.flatMap_append, List.flatMap_cons, List.length_append, List.length_append]
        omega
      have hrest := ih (before ++ [x]) (by rw [hitems, List.append_assoc]; rfl)
      rw [walk_next (hread before x after _ hitems hroom hat), ← hrest, List.map_append,
        List.flatMap_append, List.length_append]
      simp only [List.map_cons, List.map_nil, List.flatMap_cons, List.flatMap_nil,
        List.append_nil, Nat.add_assoc]
  exact hfrom items [] rfl

end Reader

/-! ## Fields of a fixed width -/

theorem length_flatMap {enc : β → List κ} {w : Nat} (hw : ∀ x, (enc x).length = w) (l : List β) :
    (l.flatMap enc).length = l.length * w := by
  induction l with
  | nil => simp
  | cons x l ih =>
    rw [List.flatMap_cons, List.length_append, hw, ih, List.length_cons, Nat.succ_mul, Nat.add_comm]

theorem length_le_flatMap {enc : β → List κ} {w : Nat} (hw : ∀ x, w ≤ (enc x).length)
    (l : List β) : l.length * w ≤ (l.flatMap enc).length := by
  induction l with
  | nil => simp
  | cons x l ih =>
    have hx := hw x
    rw [List.flatMap_cons, List.length_append, List.length_cons, Nat.succ_mul]
    omega

theorem drop_flatMap {enc : β → List κ} {w : Nat} (hw : ∀ x, (enc x).length = w) {l : List β}
    {p : Nat} (hp : p < l.length) :
    (l.flatMap enc).drop (p * w) = enc l[p] ++ (l.drop (p + 1)).flatMap enc := by
  induction l generalizing p with
  | nil => cases hp
  | cons x l ih =>
    cases p with
    | zero => simp
    | succ p =>
      rw [List.flatMap_cons, Nat.succ_mul, Nat.add_comm, ← List.drop_drop, List.drop_left' (hw x),
        ih (by simpa using hp)]
      rfl

/-- A list that is read place by place. -/
theorem map_range_eq {l : List α} {f : Nat → α} (h : ∀ p (hp : p < l.length), f p = l[p]) :
    (List.range l.length).map f = l := by
  apply List.ext_getElem
  · rw [List.length_map, List.length_range]
  · intro p hp hp'
    rw [List.getElem_map, List.getElem_range]
    exact h p hp'

theorem filterMap_range_eq {l : List α} {f : Nat → Option α}
    (h : ∀ p (hp : p < l.length), f p = some l[p]) :
    (List.range l.length).filterMap f = l := by
  have hmap : (List.range l.length).map f = l.map some := by
    apply List.ext_getElem
    · simp
    · intro p hp hp'
      rw [List.getElem_map, List.getElem_map, List.getElem_range]
      exact h p (by simpa using hp')
  calc (List.range l.length).filterMap f
      = ((List.range l.length).map f).filterMap id := by rw [List.filterMap_map]; rfl
    _ = (l.map some).filterMap id := by rw [hmap]
    _ = l := by rw [List.filterMap_map]; exact List.filterMap_some

end records
