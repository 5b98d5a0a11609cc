-- The key/value store (src/c/spit/keyvalue.c): what its two setters keep after any calls, and how
-- many bytes they count for it. Only the first call for a key is counted. A character is one byte.
-- What the setters return is left out: that of `keyvalueSetLong` depends, for a new key, on memory
-- that was not set. The count does not wrap here, since no more than 32 bits of it are used.
import Mathlib.Algebra.BigOperators.Group.List.Basic
import Stutools.Cstring
import Stutools.ExchangeSort
import Stutools.Machine

open cstring stdio texts

namespace stutools.spit.keyvalue

/-- The type of a pair and its value. No setter makes a pair of type 2. -/
inductive Value where
  | string (value : List Char)
  | long (longvalue : Int64)
deriving DecidableEq

structure Pair where
  key : List Char
  value : Value
deriving DecidableEq

structure Store where
  pairs : List Pair
  checksum : UInt64
  byteLen : Nat

def keyvalueInit : Store := { pairs := [], checksum := 0, byteLen := 0 }

def keyvalueFindKey (kv : Store) (key : List Char) : Option Nat :=
  kv.pairs.findIdx? fun p => strcasecmp key p.key = 0

/-- The characters that separate pairs and their parts. -/
def isSeparator (c : Char) : Bool := c == ' ' || c == ':' || c == ';' || c == '\n'

def sanitized (value : List Char) : List Char :=
  value.map fun c => if isSeparator c then '_' else c

/-- What both setters do with a pair: `bytes` are those that are counted for its value. -/
def setPair (kv : Store) (key : List Char) (value : Value) (bytes : Nat) : Store :=
  match keyvalueFindKey kv key with
  | some i => { kv with pairs := kv.pairs.modify i fun p => { p with value } }
  | none =>
    { kv with
      pairs := kv.pairs ++ [{ key, value }]
      byteLen := kv.byteLen + (key.length + 2) + (bytes + 2) }

/-- The value is none for a null pointer. -/
def keyvalueSetString (kv : Store) (key : List Char) (value : Option (List Char)) : Store :=
  match value with
  | none => kv
  | some value => setPair kv key (.string (sanitized value)) value.length

def keyvalueSetLong (kv : Store) (key : List Char) (value : Int64) : Store :=
  if key = "checksum".toList then { kv with checksum := value.toUInt64 }
  else setPair kv key (.long value) 20

/-- None when the program aborts, for a pair that has no value. -/
def keyvalueParsePair (kv : Store) (pp : List Char) : Option Store :=
  match split_once (· == ':') pp with
  | some (key, value) => some (keyvalueSetString kv key (some value))
  | none => (split_once (· == ';') pp).map fun (key, value) => keyvalueSetLong kv key (atol value)

def keyvalueInitFromString (par : List Char) : Option Store :=
  machine.run keyvalueParsePair keyvalueInit (strtok ' ' par)

def keyvalueSort (kv : Store) : Store :=
  { kv with pairs := exchange_sort.sort (fun p q => 0 < strcasecmp p.key q.key) kv.pairs }

/-! ## Any calls of the setters -/

/-- A key that no separator and no checksum can be taken for. -/
structure Key where
  text : List Char
  ne_nil : text ≠ []
  clean : ∀ c ∈ text, isSeparator c = false
  ne_checksum : text ≠ "checksum".toList

inductive Call where
  | setString (key : Key) (value : Option (List Char))
  | setLong (key : Key) (value : Int64)

namespace Call

def key : Call → Key
  | setString key _ => key
  | setLong key _ => key

/-- What the call sets, if it sets anything. -/
def value? : Call → Option Value
  | setString _ value => value.map fun value => .string (sanitized value)
  | setLong _ value => some (.long value)

def apply (kv : Store) : Call → Store
  | setString key value => keyvalueSetString kv key.text value
  | setLong key value => keyvalueSetLong kv key.text value

end Call

def run (calls : List Call) : Store := calls.foldl Call.apply keyvalueInit

/-- The bytes that are counted for a value. -/
def Value.bytes : Value → Nat
  | string value => value.length
  | long _ => 20

theorem sanitized_length (value : List Char) : (sanitized value).length = value.length :=
  List.length_map _

theorem apply_eq (kv : Store) (c : Call) : c.apply kv =
    match c.value? with
    | none => kv
    | some value => setPair kv c.key.text value value.bytes := by
  cases c with
  | setString key value =>
    cases value with
    | none => rfl
    | some value =>
      show setPair _ _ _ _ = setPair _ _ _ (sanitized value).length
      rw [sanitized_length]
      rfl
  | setLong key value => exact if_neg key.ne_checksum

/-! ## What the calls say -/

/-- The calls that set a key for the first time, with the value they set. -/
def firsts (calls : List Call) : List (Key × Value) :=
  calls.foldl (fun fs c =>
    match c.value? with
    | none => fs
    | some value =>
      if fs.any fun f => folded f.1.text = folded c.key.text then fs else fs ++ [(c.key, value)]) []

/-- The value that was last set for a key. -/
def latest (calls : List Call) (key : List Char) : Option Value :=
  calls.reverse.findSome? fun c => if folded c.key.text = folded key then c.value? else none

/-- The pairs that the calls leave: every key as it was first spelled, with its last value. -/
def settled (calls : List Call) : List Pair :=
  (firsts calls).map fun f => { key := f.1.text, value := (latest calls f.1.text).getD f.2 }

/-- The bytes of the first values, as the setters count them. -/
def counted (calls : List Call) : Nat :=
  ((firsts calls).map fun f => (f.1.text.length + 2) + (f.2.bytes + 2)).sum

theorem firsts_snoc (calls : List Call) (c : Call) : firsts (calls ++ [c]) =
    match c.value? with
    | none => firsts calls
    | some value =>
      if (firsts calls).any fun f => folded f.1.text = folded c.key.text then firsts calls
      else firsts calls ++ [(c.key, value)] := by
  unfold firsts
  rw [List.foldl_append]
  rfl

theorem latest_snoc (calls : List Call) (c : Call) (key : List Char) :
    latest (calls ++ [c]) key =
      (if folded c.key.text = folded key then c.value? else none).or (latest calls key) := by
  unfold latest
  rw [List.reverse_append, List.reverse_singleton, List.singleton_append, List.findSome?_cons]
  split <;> simp_all

/-- Keys are told from each other without letter case. -/
theorem firsts_distinct (calls : List Call) :
    (firsts calls).Pairwise fun f g => folded f.1.text ≠ folded g.1.text := by
  induction calls using List.reverseRecOn with
  | nil => exact .nil
  | append_singleton calls c ih =>
    rw [firsts_snoc]
    split
    · exact ih
    · split
      · exact ih
      · rename_i hnew
        refine List.pairwise_append.mpr ⟨ih, List.pairwise_singleton _ _, fun f hf g hg => ?_⟩
        rw [List.mem_singleton.mp hg]
        exact fun hsame => hnew (List.any_eq_true.mpr ⟨f, hf, decide_eq_true hsame⟩)

/-- The entry that is found is the only one that is changed, when it is the only one of its kind. -/
theorem modify_findIdx? {α : Type*} {p : α → Bool} {f : α → α} {l : List α} {i : Nat}
    (hone : l.Pairwise fun a b => ¬ (p a ∧ p b)) (h : l.findIdx? p = some i) :
    l.modify i f = l.map fun a => if p a then f a else a := by
  induction l generalizing i with
  | nil => cases h
  | cons a l ih =>
    obtain ⟨ha, hl⟩ := List.pairwise_cons.mp hone
    rw [List.findIdx?_cons] at h
    split at h
    · rename_i hpa
      cases h
      have hrest : (l.map fun a => if p a then f a else a) = l := by
        conv_rhs => rw [← List.map_id l]
        exact List.map_congr_left fun b hb => if_neg fun hpb => ha b hb ⟨hpa, hpb⟩
      rw [List.modify_zero_cons, List.map_cons, if_pos hpa, hrest]
    · rename_i hpa
      obtain ⟨j, hj, rfl⟩ := Option.map_eq_some_iff.mp h
      rw [List.modify_succ_cons, List.map_cons, if_neg hpa, ih hl hj]

theorem settled_distinct (calls : List Call) :
    (settled calls).Pairwise fun p q => folded p.key ≠ folded q.key :=
  List.pairwise_map.mpr (firsts_distinct calls)

/-- A call for a key that is there changes its value, and no count. -/
theorem setPair_old {calls : List Call} {kv : Store} (hpairs : kv.pairs = settled calls)
    {c : Call} {value : Value} (hvalue : c.value? = some value)
    (hold : (firsts calls).any fun f => folded f.1.text = folded c.key.text) (bytes : Nat) :
    setPair kv c.key.text value bytes = { kv with pairs := settled (calls ++ [c]) } := by
  have hone : (settled calls).Pairwise fun p q =>
      ¬ (decide (strcasecmp c.key.text p.key = 0) ∧ decide (strcasecmp c.key.text q.key = 0)) := by
    refine (settled_distinct calls).imp fun {p q} hne h => hne ?_
    rw [decide_eq_true_iff, decide_eq_true_iff, strcasecmp_eq_zero, strcasecmp_eq_zero] at h
    exact h.1.symm.trans h.2
  unfold setPair keyvalueFindKey
  rw [hpairs]
  cases hfind : (settled calls).findIdx? fun p => strcasecmp c.key.text p.key = 0 with
  | none =>
    obtain ⟨f, hf, hsame⟩ := List.any_eq_true.mp hold
    have hnot := List.findIdx?_eq_none_iff.mp hfind _ (List.mem_map_of_mem hf)
    rw [decide_eq_false_iff_not, strcasecmp_eq_zero] at hnot
    exact absurd (of_decide_eq_true hsame).symm hnot
  | some i =>
    dsimp only
    rw [modify_findIdx? hone hfind]
    unfold settled
    rw [firsts_snoc, hvalue]
    dsimp only
    rw [if_pos hold, List.map_map]
    congr 1
    refine List.map_congr_left fun f _ => ?_
    dsimp only [Function.comp_apply]
    rw [latest_snoc, hvalue]
    by_cases hsame : folded c.key.text = folded f.1.text
    · rw [if_pos (by rwa [decide_eq_true_iff, strcasecmp_eq_zero]), if_pos hsame]
      rfl
    · rw [if_neg (by rwa [decide_eq_true_iff, strcasecmp_eq_zero]), if_neg hsame]
      rfl

/-- A call for a new key adds a pair, and counts it. -/
theorem setPair_new {calls : List Call} {kv : Store} (hpairs : kv.pairs = settled calls)
    {c : Call} {value : Value} (hvalue : c.value? = some value)
    (hnew : ¬ (firsts calls).any fun f => folded f.1.text = folded c.key.text) (bytes : Nat) :
    setPair kv c.key.text value bytes =
      { kv with
        pairs := settled (calls ++ [c])
        byteLen := kv.byteLen + (c.key.text.length + 2) + (bytes + 2) } := by
  have hother : ∀ f ∈ firsts calls, folded c.key.text ≠ folded f.1.text := fun f hf hsame =>
    hnew (List.any_eq_true.mpr ⟨f, hf, decide_eq_true hsame.symm⟩)
  have hfind : (settled calls).findIdx? (fun p => strcasecmp c.key.text p.key = 0) = none := by
    rw [List.findIdx?_eq_none_iff]
    intro p hp
    obtain ⟨f, hf, rfl⟩ := List.mem_map.mp hp
    rw [decide_eq_false_iff_not, strcasecmp_eq_zero]
    exact hother f hf
  unfold setPair keyvalueFindKey
  rw [hpairs, hfind]
  dsimp only
  congr 1
  unfold settled
  rw [firsts_snoc, hvalue]
  dsimp only
  rw [if_neg hnew, List.map_append, List.map_singleton]
  congr 1
  · refine List.map_congr_left fun f hf => ?_
    rw [latest_snoc, if_neg (hother f hf)]
    rfl
  · rw [latest_snoc, hvalue, if_pos rfl]
    rfl

/-- After any calls the store holds every key once, with the value that was last set, and has
counted the first values. -/
theorem run_spec (calls : List Call) :
    (run calls).pairs = settled calls ∧ (run calls).byteLen = counted calls := by
  induction calls using List.reverseRecOn with
  | nil => exact ⟨rfl, rfl⟩
  | append_singleton calls c ih =>
    obtain ⟨hpairs, hcount⟩ := ih
    have hrun : run (calls ++ [c]) = c.apply (run calls) := by
      unfold run
      rw [List.foldl_append]
      rfl
    rw [hrun, apply_eq]
    unfold counted
    rw [firsts_snoc]
    cases hvalue : c.value? with
    | none =>
      refine ⟨?_, hcount⟩
      dsimp only
      rw [hpairs]
      unfold settled
      rw [firsts_snoc, hvalue]
      refine List.map_congr_left fun f _ => ?_
      rw [latest_snoc, hvalue, ite_self]
      rfl
    | some value =>
      dsimp only
      by_cases hold : (firsts calls).any fun f => folded f.1.text = folded c.key.text
      · rw [setPair_old hpairs hvalue hold, if_pos hold]
        exact ⟨rfl, hcount⟩
      · rw [setPair_new hpairs hvalue hold, if_neg hold, List.map_append, List.sum_append, ← counted,
          hcount]
        exact ⟨rfl, Nat.add_assoc _ _ _⟩

end stutools.spit.keyvalue
