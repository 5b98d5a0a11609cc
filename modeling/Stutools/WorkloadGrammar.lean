-- The laws of the syntax of `-c`: tokens that set different fields can change places, and
-- whatever the parser takes can run.
import Stutools.Bytes
import Stutools.Extents
import Stutools.Reorders
import Stutools.WorkloadText

open bytes (except_bind_ok)
open reorders

namespace stutools.cli

/-! ## The fields of the tokens -/

/-- The variables of the parser, those together that are set together. -/
inductive Field where
  | reads
  | writes
  | probability
  /-- `block`, `max_block` and `power_sizes` -/
  | block
  /-- `submit_batch`, `depth` and `explicit_depth` -/
  | depth
  | operation_limit
  | seed
  | passes
  | alternate
  | rate
  /-- `write_verify` and `write_verify_race` -/
  | write_verify
  | duty
  | duration
  /-- `workers` and `shared_range` -/
  | workers
  /-- `range` and `split_range` -/
  | range
  /-- `sequential` and `explicit_sequential` -/
  | sequential
  /-- `mode` and `positions` -/
  | positions
  | shuffle
  | shift
  | range_passes
  | metadata
  /-- `unique` and `unique_verify` -/
  | unique
  | from_zero
  | flush
deriving DecidableEq

/-- The field that a token with this flag sets. -/
def field (flag : Char) : Option Field :=
  match flag with
  | 'r' => some .reads
  | 'w' => some .writes
  | 'p' => some .probability
  | 'k' | 'M' => some .block
  | 'q' => some .depth
  | 'Y' => some .operation_limit
  | 'R' => some .seed
  | 'O' | 'X' => some .passes
  | '=' => some .alternate
  | 'S' => some .rate
  | 'v' | 'V' => some .write_verify
  | 'W' => some .duty
  | 'T' | 't' => some .duration
  | 'j' | 'J' => some .workers
  | 'G' | 'b' => some .range
  | 's' => some .sequential
  | 'P' => some .positions
  | 'n' => some .shuffle
  | 'N' => some .shift
  | 'x' => some .range_passes
  | 'm' => some .metadata
  | 'u' | 'U' => some .unique
  | 'z' => some .from_zero
  | 'F' => some .flush
  | _ => none

namespace Setting

def field : Setting → Field
  | .read => .reads
  | .write => .writes
  | .probability _ => .probability
  | .block .. => .block
  | .depth .. => .depth
  | .operation_limit _ => .operation_limit
  | .seed _ => .seed
  | .passes _ => .passes
  | .alternate => .alternate
  | .rate _ => .rate
  | .write_verify _ => .write_verify
  | .duty .. => .duty
  | .duration _ => .duration
  | .workers .. => .workers
  | .range .. => .range
  | .sequential _ => .sequential
  | .positions .. => .positions
  | .shuffle => .shuffle
  | .shift => .shift
  | .range_passes _ => .range_passes
  | .metadata _ => .metadata
  | .unique _ => .unique
  | .from_zero => .from_zero
  | .flush => .flush

/-- Assignments to different fields can change places. -/
theorem apply_comm {a b : Setting} (h : a.field ≠ b.field) (t : Tokens) :
    b.apply (a.apply t) = a.apply (b.apply t) := by
  cases a <;> cases b <;> first | rfl | exact absurd rfl h

end Setting

/-! ## What the checks of the tokens leave -/

/-- What the check of a token's value leaves true of it. -/
def Setting.Valid : Setting → Prop
  | .block low high _ => 0 < low ∧ low ≤ high ∧ high ≤ 0x7ffff000
  | .depth low high => 0 < high ∧ high ≤ 4096 ∧ ∀ n, low = some n → 0 < n ∧ n ≤ high
  | .rate iops => 0 < iops
  | .duty on off => 0 < on ∧ 0 ≤ off
  | .duration t => 0 < t
  | .metadata limit => 0 < limit
  | _ => True

/-- The token sets one field, to something valid. -/
def Sets (f : Field) (s : Setting) : Prop := s.field = f ∧ s.Valid

theorem bare_sets {f : Field} {flag : Char} {value : List Char} {s r : Setting}
    (h : bare flag value s = .ok r) (hs : Sets f s) : Sets f r := by
  unfold bare unsupported at h
  split_ifs at h
  cases h
  exact hs

theorem probability_sets {value : List Char} {s : Setting} (h : probability value = .ok s) :
    Sets .probability s := by
  obtain ⟨p, -, h⟩ := except_bind_ok.mp h
  split_ifs at h
  cases h
  exact ⟨rfl, trivial⟩

theorem block_sizes_sets {flag : Char} {value : List Char} {s : Setting}
    (h : block_sizes flag value = .ok s) : Sets .block s := by
  obtain ⟨low, -, h⟩ := except_bind_ok.mp h
  obtain ⟨high, -, h⟩ := except_bind_ok.mp h
  split_ifs at h with hbad
  cases h
  rw [not_or, not_or] at hbad
  exact ⟨rfl, Nat.pos_of_ne_zero hbad.1, Nat.le_of_not_lt hbad.2.1, Nat.le_of_not_lt hbad.2.2⟩

theorem queue_sets {value : List Char} {s : Setting} (h : queue value = .ok s) : Sets .depth s := by
  obtain ⟨low, -, h⟩ := except_bind_ok.mp h
  obtain ⟨high, -, h⟩ := except_bind_ok.mp h
  split_ifs at h with hdepth hbatch
  cases h
  rw [not_or] at hdepth
  refine ⟨rfl, Nat.pos_of_ne_zero hdepth.1, Nat.le_of_not_lt hdepth.2, ?_⟩
  rintro n rfl
  simp only [Option.any_some, decide_eq_true_eq, not_or, Nat.not_lt] at hbatch
  exact ⟨Nat.pos_of_ne_zero hbatch.1, hbatch.2⟩

theorem rate_sets {value : List Char} {s : Setting} (h : rate value = .ok s) : Sets .rate s := by
  obtain ⟨iops, -, h⟩ := except_bind_ok.mp h
  split_ifs at h with hbad
  cases h
  rw [not_or] at hbad
  exact ⟨rfl, lt_of_not_ge hbad.1⟩

theorem duty_sets {value : List Char} {s : Setting} (h : duty value = .ok s) : Sets .duty s := by
  obtain ⟨on, -, h⟩ := except_bind_ok.mp h
  obtain ⟨off, -, h⟩ := except_bind_ok.mp h
  split_ifs at h with hbad
  cases h
  rw [not_or, not_or] at hbad
  exact ⟨rfl, lt_of_not_ge hbad.1, le_of_not_gt hbad.2.1⟩

theorem job_duration_sets {value : List Char} {s : Setting} (h : job_duration value = .ok s) :
    Sets .duration s := by
  obtain ⟨t, -, h⟩ := except_bind_ok.mp h
  split_ifs at h with hbad
  cases h
  rw [not_or] at hbad
  exact ⟨rfl, lt_of_not_ge hbad.1⟩

theorem workload_range_sets {flag : Char} {value : List Char} {s : Setting}
    (h : workload_range flag value = .ok s) : Sets .range s := by
  unfold workload_range at h
  by_cases hwhole : flag = 'G' ∧ (value = [] ∨ value = ['_'])
  · rw [if_pos hwhole] at h
    cases h
    exact ⟨rfl, trivial⟩
  · rw [if_neg hwhole] at h
    obtain ⟨low, -, h⟩ := except_bind_ok.mp h
    obtain ⟨high, -, h⟩ := except_bind_ok.mp h
    split_ifs at h
    cases h
    exact ⟨rfl, trivial⟩

theorem sequential_sets {value : List Char} {s : Setting} (h : sequential value = .ok s) :
    Sets .sequential s := by
  obtain ⟨q, -, h⟩ := except_bind_ok.mp h
  split_ifs at h
  cases h
  exact ⟨rfl, trivial⟩

theorem positions_sets {value : List Char} {s : Setting} (h : positions value = .ok s) :
    Sets .positions s := by
  obtain ⟨n, -, h⟩ := except_bind_ok.mp h
  cases h
  exact ⟨rfl, trivial⟩

theorem metadata_sets {value : List Char} {s : Setting} (h : metadata value = .ok s) :
    Sets .metadata s := by
  unfold metadata at h
  generalize (if value = [] then some 0 else parse_i128 value) = limit at h
  cases limit with
  | none => cases h
  | some limit =>
    dsimp only at h
    split_ifs at h with hall hmax
    · cases h
      exact ⟨rfl, (by decide : 0 < USIZE_MAX)⟩
    · cases h
      exact ⟨rfl, by show 0 < limit.toNat; omega⟩

/-- A number alone. -/
theorem integer_sets {f : Field} {value : List Char} {set : Nat → Setting} {s : Setting}
    (h : (set <$> integer value) = .ok s) (hset : ∀ n, Sets f (set n)) : Sets f s := by
  cases hvalue : integer value with
  | error e =>
    rw [hvalue] at h
    cases h
  | ok n =>
    rw [hvalue] at h
    cases h
    exact hset n

/-- A token that is taken sets the field of its flag, to something valid. -/
theorem setting_sets {flag : Char} {value : List Char} {s : Setting}
    (h : setting flag value = .ok s) : ∃ f, field flag = some f ∧ Sets f s := by
  unfold setting at h
  split at h
  · exact ⟨_, rfl, bare_sets h ⟨rfl, trivial⟩⟩
  · exact ⟨_, rfl, bare_sets h ⟨rfl, trivial⟩⟩
  · exact ⟨_, rfl, probability_sets h⟩
  · exact ⟨_, rfl, block_sizes_sets h⟩
  · exact ⟨_, rfl, block_sizes_sets h⟩
  · exact ⟨_, rfl, queue_sets h⟩
  · exact ⟨_, rfl, integer_sets h fun _ => ⟨rfl, trivial⟩⟩
  · exact ⟨_, rfl, integer_sets h fun _ => ⟨rfl, trivial⟩⟩
  · exact ⟨_, rfl, bare_sets h ⟨rfl, trivial⟩⟩
  · exact ⟨_, rfl, bare_sets h ⟨rfl, trivial⟩⟩
  · exact ⟨_, rfl, rate_sets h⟩
  · exact ⟨_, rfl, bare_sets h ⟨rfl, trivial⟩⟩
  · exact ⟨_, rfl, bare_sets h ⟨rfl, trivial⟩⟩
  · exact ⟨_, rfl, duty_sets h⟩
  · exact ⟨_, rfl, job_duration_sets h⟩
  · exact ⟨_, rfl, job_duration_sets h⟩
  · exact ⟨_, rfl, integer_sets h fun _ => ⟨rfl, trivial⟩⟩
  · exact ⟨_, rfl, integer_sets h fun _ => ⟨rfl, trivial⟩⟩
  · exact ⟨_, rfl, workload_range_sets h⟩
  · exact ⟨_, rfl, workload_range_sets h⟩
  · exact ⟨_, rfl, sequential_sets h⟩
  · exact ⟨_, rfl, positions_sets h⟩
  · exact ⟨_, rfl, bare_sets h ⟨rfl, trivial⟩⟩
  · exact ⟨_, rfl, bare_sets h ⟨rfl, trivial⟩⟩
  · exact ⟨_, rfl, integer_sets h fun _ => ⟨rfl, trivial⟩⟩
  · exact ⟨_, rfl, integer_sets h fun _ => ⟨rfl, trivial⟩⟩
  · exact ⟨_, rfl, metadata_sets h⟩
  · exact ⟨_, rfl, bare_sets h ⟨rfl, trivial⟩⟩
  · exact ⟨_, rfl, bare_sets h ⟨rfl, trivial⟩⟩
  · exact ⟨_, rfl, bare_sets h ⟨rfl, trivial⟩⟩
  · exact ⟨_, rfl, bare_sets h ⟨rfl, trivial⟩⟩
  · cases h

/-! ## The text as tokens -/

/-- The flags of a text with their values. -/
def tokens : List Char → List (Char × List Char)
  | [] => []
  | c :: rest =>
    if is_ascii_whitespace c then tokens rest
    else (c, rest.takeWhile in_value) :: tokens (rest.dropWhile in_value)
termination_by s => s.length
decreasing_by
  · exact Nat.lt_succ_self _
  · exact Nat.lt_succ_of_le (List.dropWhile_suffix in_value).length_le

/-- The token is taken. -/
def Taken (token : Char × List Char) : Prop := ∃ s, setting token.1 token.2 = .ok s

/-- What a token does. -/
def effect (t : Tokens) (token : Char × List Char) : Tokens :=
  match setting token.1 token.2 with
  | .error _ => t
  | .ok s => s.apply t

theorem effect_eq {token : Char × List Char} {s : Setting} (h : setting token.1 token.2 = .ok s)
    (t : Tokens) : effect t token = s.apply t := by
  unfold effect
  rw [h]

/-- The loop takes every token, one after the other. -/
theorem read_tokens_ok_iff {t r : Tokens} {s : List Char} : read_tokens t s = .ok r ↔
    (∀ token ∈ tokens s, Taken token) ∧ (tokens s).foldl effect t = r := by
  fun_induction tokens s generalizing t with
  | case1 => simp [read_tokens]
  | case2 c rest hblank ih =>
    rw [read_tokens, if_pos hblank]
    exact ih
  | case3 c rest hblank ih =>
    rw [read_tokens, if_neg hblank, List.forall_mem_cons, List.foldl_cons]
    cases hs : setting c (rest.takeWhile in_value) with
    | error e => simp [Taken, hs]
    | ok s =>
      have htaken : Taken (c, rest.takeWhile in_value) := ⟨s, hs⟩
      rw [effect_eq hs]
      dsimp only
      rw [ih]
      simp [htaken]

/-- Tokens that set different fields can change places. -/
theorem effects_independent : Independent (fun token : Char × List Char => field token.1) effect := by
  intro t a b hne
  unfold effect
  cases ha : setting a.1 a.2 with
  | error e => rfl
  | ok x =>
    cases hb : setting b.1 b.2 with
    | error e => rfl
    | ok y =>
      obtain ⟨f, hf, hx, -⟩ := setting_sets ha
      obtain ⟨g, hg, hy, -⟩ := setting_sets hb
      refine Setting.apply_comm (fun heq => hne ?_) t
      show field a.1 = field b.1
      rw [hf, hg, ← hx, ← hy, heq]

/-- Another order of the tokens, in which those that set one field stay in theirs. -/
def Reordered (l m : List (Char × List Char)) : Prop :=
  l.Perm m ∧ SameOrder (fun token => field token.1) l m

/-- The text is one that the parser looks at. -/
def Fits (s : List Char) : Prop := (∀ c ∈ s, c.toNat < 128) ∧ s.length ≤ 4093

instance (s : List Char) : Decidable (Fits s) := @instDecidableAnd _ _ (List.decidableBAll _ s) _

theorem workload_ok_iff {s : List Char} {w : Workload} : workload s = .ok w ↔ Fits s ∧
    (∀ token ∈ tokens s, Taken token) ∧ ((tokens s).foldl effect {}).workload = .ok w := by
  unfold workload Fits
  by_cases hascii : ∀ c ∈ s, c.toNat < 128
  · have hany : (s.any fun c => 128 ≤ c.toNat) = false := by simpa using hascii
    rw [hany, if_neg Bool.false_ne_true]
    by_cases hlong : 4093 < s.length
    · simp [hlong]
    · rw [if_neg hlong]
      cases hread : read_tokens {} s with
      | error e =>
        have hnone : ¬∀ token ∈ tokens s, Taken token := by
          intro htaken
          have hok : read_tokens {} s = .ok _ := read_tokens_ok_iff.mpr ⟨htaken, rfl⟩
          rw [hread] at hok
          cases hok
        exact ⟨fun h => (by cases h), fun h => absurd h.2.1 hnone⟩
      | ok t =>
        obtain ⟨htaken, heq⟩ := read_tokens_ok_iff.mp hread
        rw [heq]
        exact ⟨fun h => ⟨⟨hascii, Nat.le_of_not_lt hlong⟩, htaken, h⟩, fun h => h.2.2⟩
  · have hany : (s.any fun c => 128 ≤ c.toNat) = true := by simpa using hascii
    rw [hany, if_pos rfl]
    simp [hascii]

theorem workload_reordered {s r : List Char} {w : Workload} (h : workload s = .ok w)
    (horder : Reordered (tokens s) (tokens r)) (hfits : Fits r) : workload r = .ok w := by
  obtain ⟨-, htaken, hw⟩ := workload_ok_iff.mp h
  refine workload_ok_iff.mpr ⟨hfits, fun token hmem => htaken token (horder.1.mem_iff.mpr hmem), ?_⟩
  rw [← foldl_eq_of_same_order effects_independent horder.2]
  exact hw

/-! ## Tokens as a text -/

/-- The text of some tokens, without blanks. -/
def spelled (ts : List (Char × List Char)) : List Char := ts.flatMap fun token => token.1 :: token.2

/-- The flag ends the value before it, and the value is one. -/
def Lexed (token : Char × List Char) : Prop :=
  is_ascii_whitespace token.1 = false ∧ in_value token.1 = false ∧ ∀ c ∈ token.2, in_value c

instance (token : Char × List Char) : Decidable (Lexed token) :=
  @instDecidableAnd _ _ _ (@instDecidableAnd _ _ _ (List.decidableBAll _ token.2))

theorem field_ends_value {flag : Char} {f : Field} (h : field flag = some f) :
    is_ascii_whitespace flag = false ∧ in_value flag = false := by
  unfold field at h
  split at h <;> first | decide | cases h

theorem tokens_spelled {ts : List (Char × List Char)} (h : ∀ token ∈ ts, Lexed token) :
    tokens (spelled ts) = ts := by
  induction ts with
  | nil => simp [spelled, tokens]
  | cons token ts ih =>
    obtain ⟨flag, value⟩ := token
    obtain ⟨⟨hblank, -, hvalue⟩, hts⟩ := List.forall_mem_cons.mp h
    -- the next flag ends the value
    have htake : (spelled ts).takeWhile in_value = [] ∧ (spelled ts).dropWhile in_value = spelled ts := by
      cases ts with
      | nil => exact ⟨rfl, rfl⟩
      | cons next ts =>
        have hnext : in_value next.1 = false := (hts next (by simp)).2.1
        simp [spelled, hnext]
    have hspelled : spelled ((flag, value) :: ts) = flag :: (value ++ spelled ts) := by simp [spelled]
    rw [hspelled, tokens, if_neg (by simpa using hblank), List.takeWhile_append_of_pos hvalue,
      List.dropWhile_append_of_pos hvalue, htake.1, htake.2, List.append_nil, ih hts]

theorem spelled_tokens_sublist (s : List Char) : (spelled (tokens s)).Sublist s := by
  fun_induction tokens s with
  | case1 => exact List.Sublist.refl _
  | case2 c rest hblank ih => exact ih.cons c
  | case3 c rest hblank ih =>
    have hrest : (rest.takeWhile in_value ++ spelled (tokens (rest.dropWhile in_value))).Sublist rest := by
      conv_rhs => rw [← List.takeWhile_append_dropWhile (p := in_value) (l := rest)]
      exact (List.Sublist.refl _).append ih
    simpa [spelled] using hrest.cons_cons c

theorem value_of_mem_tokens {s : List Char} {token : Char × List Char} (h : token ∈ tokens s) :
    ∀ c ∈ token.2, in_value c := by
  fun_induction tokens s with
  | case1 => cases h
  | case2 c rest hblank ih => exact ih h
  | case3 c rest hblank ih =>
    rcases List.mem_cons.mp h with rfl | h
    · exact fun c hc => List.mem_takeWhile_imp hc
    · exact ih h

/-- The tokens of a text that is taken are the tokens of their own text, in any order. -/
theorem spelled_reordered {s : List Char} {w : Workload} {ts : List (Char × List Char)}
    (h : workload s = .ok w) (horder : (tokens s).Perm ts) : Fits (spelled ts) ∧ tokens (spelled ts) = ts := by
  obtain ⟨⟨hascii, hlength⟩, htaken, -⟩ := workload_ok_iff.mp h
  have hsublist := spelled_tokens_sublist s
  have hperm : (spelled (tokens s)).Perm (spelled ts) := horder.flatMap_right _
  refine ⟨⟨fun c hc => hascii c (hsublist.subset (hperm.mem_iff.mpr hc)), ?_⟩, tokens_spelled ?_⟩
  · rw [← hperm.length_eq]
    exact Nat.le_trans hsublist.length_le hlength
  · intro token hmem
    have hmem' := horder.mem_iff.mpr hmem
    obtain ⟨x, hx⟩ := htaken token hmem'
    obtain ⟨f, hf, -⟩ := setting_sets hx
    exact ⟨(field_ends_value hf).1, (field_ends_value hf).2, value_of_mem_tokens hmem'⟩

/-! ## Every workload can run -/

/-- What the tokens leave, besides what each is checked for alone. -/
structure Settled (t : Tokens) : Prop extends t.Checked where
  submit_batch : ∀ n, t.w.submit_batch = some n → 0 < n ∧ n ≤ t.w.depth ∧ t.explicit_depth = true
  metadata : t.w.metadata ≠ some 0
  rate : ∀ iops, t.w.rate = some iops → 0 < iops
  duty : ∀ on off, t.w.duty = some (on, off) → 0 < on ∧ 0 ≤ off
  duration : ∀ s, t.w.duration = some s → 0 < s

theorem settled_start : Settled {} :=
  { block_pos := by decide
    block_le := by decide
    max_block_le := by decide
    depth_pos := by decide
    depth_le := by decide
    race := fun h => (by cases h)
    unset := ⟨rfl, rfl, rfl⟩
    unique := fun h => (by cases h)
    operation_limit := fun h => (by cases h)
    submit_batch := fun n h => (by cases h)
    metadata := fun h => (by cases h)
    rate := fun iops h => (by cases h)
    duty := fun on off h => (by cases h)
    duration := fun s h => (by cases h) }

theorem Settled.apply {t : Tokens} {s : Setting} (h : Settled t) (hs : s.Valid) : Settled (s.apply t) := by
  cases s with
  | block low high power =>
    exact { h with block_pos := hs.1, block_le := hs.2.1, max_block_le := hs.2.2 }
  | depth low high =>
    exact { h with
      depth_pos := hs.1
      depth_le := hs.2.1
      submit_batch := fun n hn => ⟨(hs.2.2 n hn).1, (hs.2.2 n hn).2, rfl⟩ }
  | operation_limit n =>
    refine { h with operation_limit := ?_ }
    show (if n = 0 then none else some n) ≠ some 0
    split_ifs with hn
    · exact fun h => (by cases h)
    · exact fun h => hn (Option.some.inj h)
  | rate iops => exact { h with rate := fun r hr => Option.some.inj hr ▸ hs }
  | write_verify race => exact { h with race := fun _ => rfl }
  | duty on off =>
    refine { h with duty := fun on' off' heq => ?_ }
    obtain ⟨rfl, rfl⟩ := Prod.mk.inj (Option.some.inj heq)
    exact hs
  | duration d => exact { h with duration := fun r hr => Option.some.inj hr ▸ hs }
  | metadata limit =>
    refine { h with metadata := fun heq => ?_ }
    have hzero : limit = 0 := Option.some.inj heq
    exact absurd hs (by rw [hzero]; exact Nat.lt_irrefl 0)
  | unique verify => exact { h with unique := fun _ => rfl }
  | _ => exact { h with }

theorem Settled.run {ts : List (Char × List Char)} {t : Tokens} (h : Settled t)
    (htaken : ∀ token ∈ ts, Taken token) : Settled (ts.foldl effect t) := by
  induction ts generalizing t with
  | nil => exact h
  | cons token ts ih =>
    obtain ⟨⟨s, hs⟩, hts⟩ := List.forall_mem_cons.mp htaken
    obtain ⟨f, -, -, hvalid⟩ := setting_sets hs
    rw [List.foldl_cons, effect_eq hs]
    exact ih (h.apply hvalid) hts

/-- What the text says, before and after its end is combined. -/
theorem settled_of_workload {s : List Char} {w : Workload} (h : workload s = .ok w) :
    ∃ t, Settled t ∧ t.workload = .ok w := by
  obtain ⟨-, htaken, hw⟩ := workload_ok_iff.mp h
  exact ⟨_, settled_start.run htaken, hw⟩

theorem parsed_of_workload {s : List Char} {w : Workload} (h : workload s = .ok w) : w.Parsed := by
  obtain ⟨t, ht, hw⟩ := settled_of_workload h
  exact ⟨t, ht.toChecked, hw⟩

/-- A submission batch is not empty and not larger than the depth. -/
def Batched (w : Workload) : Prop := ∀ n, w.submit_batch = some n → 0 < n ∧ n ≤ w.depth

/-- With `q`, `v` leaves the depth. -/
theorem apply_write_verify_depth (t : Tokens) (w : Workload) :
    (t.apply_write_verify w).submit_batch = w.submit_batch ∧
      (t.explicit_depth = true → (t.apply_write_verify w).depth = w.depth) := by
  unfold Tokens.apply_write_verify
  by_cases hv : t.write_verify = true
  · rw [if_pos hv]
    exact ⟨rfl, fun hexplicit => if_pos hexplicit⟩
  · rw [if_neg hv]
    exact ⟨rfl, fun _ => rfl⟩

/-- `m` and `u` lower the batch with the depth. -/
theorem apply_metadata_batched {t : Tokens} {w : Workload} (h : Batched w)
    (hdepth : (t.apply_metadata w).depth ≠ 0) : Batched (t.apply_metadata w) := by
  intro n hn
  unfold Tokens.apply_metadata at hn hdepth ⊢
  by_cases hlow : (w.metadata.isSome || w.unique) = true
  · rw [if_pos hlow] at hn hdepth ⊢
    obtain ⟨m, hm, rfl⟩ := Option.map_eq_some_iff.mp hn
    have hpos := (h m hm).1
    exact ⟨Nat.lt_min.mpr ⟨hpos, Nat.pos_of_ne_zero hdepth⟩, Nat.min_le_right _ _⟩
  · rw [if_neg hlow] at hn ⊢
    exact h n hn

theorem combined_batched {t : Tokens} (ht : Settled t) (hdepth : t.combined.depth ≠ 0) :
    Batched t.combined := by
  unfold Tokens.combined at hdepth ⊢
  dsimp only at hdepth ⊢
  refine apply_metadata_batched (fun n hn => ?_) hdepth
  obtain ⟨hbatch, hkept⟩ := apply_write_verify_depth t { t.w with read_probability := t.read_probability }
  obtain ⟨hpos, hle, hexplicit⟩ := ht.submit_batch n (hbatch ▸ hn)
  refine ⟨hpos, ?_⟩
  show n ≤ (t.apply_write_verify { t.w with read_probability := t.read_probability }).depth
  rw [hkept hexplicit]
  exact hle

/-- The end of the parser keeps what the tokens say of the limits. -/
theorem combined_limits (t : Tokens) : t.combined.operation_limit = t.w.operation_limit ∧
    t.combined.metadata = t.w.metadata ∧ t.combined.rate = t.w.rate ∧ t.combined.duty = t.w.duty ∧
    t.combined.duration = t.w.duration := by
  have hkept {α : Type} (f : Workload → α) (hmetadata) (hverify) :=
    Workload.Parsed.combined_kept f hmetadata hverify t
  exact ⟨hkept (·.operation_limit) (fun _ _ _ _ _ => rfl) (fun _ _ _ _ _ _ => rfl),
    hkept (·.metadata) (fun _ _ _ _ _ => rfl) (fun _ _ _ _ _ _ => rfl),
    hkept (·.rate) (fun _ _ _ _ _ => rfl) (fun _ _ _ _ _ _ => rfl),
    hkept (·.duty) (fun _ _ _ _ _ => rfl) (fun _ _ _ _ _ _ => rfl),
    hkept (·.duration) (fun _ _ _ _ _ => rfl) (fun _ _ _ _ _ _ => rfl)⟩

/-- A workload that can run. -/
structure Runnable (w : Workload) : Prop where
  depth : 1 ≤ w.depth ∧ w.depth ≤ 4096
  submit_batch : ∀ n, w.submit_batch = some n → 1 ≤ n ∧ n ≤ w.depth
  block : 1 ≤ w.block ∧ w.block ≤ w.max_block ∧ w.max_block ≤ 0x7ffff000
  /-- The lengths of a position table. -/
  lens : ∀ lo hi seed capacity, ∀ r ∈ (positions.generated w lo hi seed capacity).1,
    w.block ≤ r.len ∧ r.len ≤ w.max_block ∧ w.block ∣ r.len
  workers : 1 ≤ w.workers ∧ w.workers ≤ 1024
  verify : ¬(w.verify = true ∧ w.alternate = true)
  /-- At most one of `T`, `X` and `x`. -/
  limit : (w.duration.isSome → w.passes = none ∧ w.range_passes = none) ∧
    (w.passes.isSome → w.range_passes = none)
  counts : w.operation_limit ≠ some 0 ∧ w.positions ≠ some 0 ∧ w.passes ≠ some 0 ∧
    w.range_passes ≠ some 0 ∧ w.metadata ≠ some 0
  rate : ∀ iops, w.rate = some iops → 0 < iops
  duty : ∀ on off, w.duty = some (on, off) → 0 < on ∧ 0 ≤ off
  duration : ∀ s, w.duration = some s → 0 < s

theorem runnable_of_workload {s : List Char} {w : Workload} (h : workload s = .ok w) : Runnable w := by
  have hparsed := parsed_of_workload h
  obtain ⟨t, ht, hw⟩ := settled_of_workload h
  obtain ⟨_, _, _, _, hdepth, hworkers, hworkers', hpositions, hpasses, hrange_passes, hduration⟩ :=
    hparsed.cases
  have hcombined : t.combined = w := by
    unfold Tokens.workload at hw
    dsimp only at hw
    split_ifs at hw
    exact Except.ok.inj hw
  obtain ⟨hlimit, hmetadata, hrate, hduty, hduration'⟩ := combined_limits t
  rw [hcombined] at hlimit hmetadata hrate hduty hduration'
  exact
    { depth := ⟨hparsed.depth_pos, hparsed.depth_le⟩
      submit_batch := fun n hn => by
        subst hcombined
        exact combined_batched ht hdepth n hn
      block := ⟨hparsed.block_pos, hparsed.block_le, hparsed.max_block_le⟩
      lens := fun lo hi seed capacity =>
        positions.generated_lens (R := fun len => w.block ≤ len ∧ len ≤ w.max_block ∧ w.block ∣ len)
          (fun rng => ⟨positions.block_le_draw_len w rng,
            (positions.draw_len_le hparsed.block_pos hparsed.block_le rng).1,
            positions.draw_len_dvd w rng⟩) lo hi seed capacity
      workers := ⟨hparsed.workers_pos, hworkers'⟩
      verify := fun hboth => by
        have := hparsed.not_alternate hboth.1
        rw [hboth.2] at this
        cases this
      limit := by
        refine ⟨fun hsome => ?_, fun hsome => ?_⟩
        · rw [not_and, not_or] at hduration
          simpa using hduration hsome
        · cases hr : w.range_passes with
          | none => rfl
          | some n =>
            have hnone := hparsed.passes_of_range_passes (by rw [hr]; rfl)
            rw [hnone] at hsome
            cases hsome
      counts := ⟨hlimit ▸ ht.operation_limit, hpositions, hpasses, hrange_passes,
        hmetadata ▸ ht.metadata⟩
      rate := hrate ▸ ht.rate
      duty := hduty ▸ ht.duty
      duration := hduration' ▸ ht.duration }

/-- A workload is read in any order of its tokens in which those of one field stay in
theirs, and it can run. -/
theorem a_workload_is_read_in_any_order_and_can_run {s : List Char} {w : Workload}
    (h : workload s = .ok w) :
    (∀ r, Fits r → Reordered (tokens s) (tokens r) → workload r = .ok w) ∧
    (∀ ts, Reordered (tokens s) ts → workload (spelled ts) = .ok w) ∧ Runnable w := by
  refine ⟨fun r hfits horder => workload_reordered h horder hfits, fun ts horder => ?_,
    runnable_of_workload h⟩
  obtain ⟨hfits, htokens⟩ := spelled_reordered h horder.1
  exact workload_reordered h (by rwa [htokens]) hfits

/-! ## Two texts -/

def queue_and_block : List (Char × List Char) := [('q', ['2', '-', '8']), ('k', ['4'])]

theorem queue_and_block_tokens : tokens (spelled queue_and_block) = queue_and_block := by
  refine tokens_spelled ?_
  simp only [queue_and_block, List.forall_mem_cons]
  exact ⟨by decide, by decide, by simp⟩

theorem queue_and_block_read :
    workload (spelled queue_and_block) = .ok { depth := 8, submit_batch := some 2 } := by
  refine workload_ok_iff.mpr ⟨by decide, ?_, ?_⟩
  · rw [queue_and_block_tokens]
    simp only [queue_and_block, List.forall_mem_cons]
    exact ⟨⟨.depth (some 2) 8, rfl⟩, ⟨.block 4096 4096 false, rfl⟩, by simp⟩
  · rw [queue_and_block_tokens]
    rfl

/-- The block before the queue. -/
theorem a_block_is_read_before_the_queue :
    workload (spelled queue_and_block.reverse) = .ok { depth := 8, submit_batch := some 2 } ∧
      Runnable { depth := 8, submit_batch := some 2 } := by
  have horder : Reordered (tokens (spelled queue_and_block)) queue_and_block.reverse := by
    rw [queue_and_block_tokens]
    refine ⟨(List.reverse_perm _).symm, fun k => ?_⟩
    cases k with
    | none => rfl
    | some f => cases f <;> rfl
  obtain ⟨-, horders, hrun⟩ := a_workload_is_read_in_any_order_and_can_run queue_and_block_read
  exact ⟨horders _ horder, hrun⟩

/-- Blocks from 4 to 6 KiB: the lengths are all 4 KiB, of which 6 KiB is no multiple. -/
theorem the_largest_block_is_no_multiple_of_the_lengths :
    ¬∀ s w, workload s = .ok w → ∀ rng, (positions.draw_len w rng).1 ∣ w.max_block := by
  intro hall
  have htokens : tokens ['k', '4', '-', '6'] = [('k', ['4', '-', '6'])] := by
    refine @tokens_spelled [('k', ['4', '-', '6'])] ?_
    rw [List.forall_mem_singleton]
    decide
  have hw : workload ['k', '4', '-', '6'] = .ok { block := 4096, max_block := 6144 } := by
    refine workload_ok_iff.mpr ⟨by decide, ?_, ?_⟩
    · rw [htokens, List.forall_mem_singleton]
      exact ⟨.block 4096 6144 false, rfl⟩
    · rw [htokens]
      rfl
  have hdvd := hall _ _ hw 0
  revert hdvd
  decide

end stutools.cli
