-- The positions file of a `v` workload: the pairs that `-S` writes as text, the reader of
-- such a file, and the generator that a run uses instead. What is read back is what the
-- generator gives, write and read of the same block after one another.
import Stutools.Batches
import Stutools.Budget
import Stutools.Texts
import Stutools.Utf8

open texts

namespace stutools

/-! ## The writer -/

/-- The two lines of a block. -/
def pair_lines (offset block : Nat) : List Char :=
  (shown offset ++ " W ".toList ++ shown block ++ ['\n']) ++
    (shown offset ++ " R ".toList ++ shown block ++ ['\n'])

/-- One turn of the loop of `write_verify_positions`: the text so far and the state of the
generator, whose range has been checked not to be reversed. -/
def write_pair (w : Workload) (lo blocks : Nat) (s : List Char × UInt64) (i : Nat) :
    List Char × UInt64 :=
  let (out, state) := s
  if 1 ≤ w.sequential then (out ++ pair_lines (lo + i % blocks * w.block) w.block, state)
  else
    let state := state ^^^ (state <<< 13)
    let state := state ^^^ (state >>> 7)
    let state := state ^^^ (state <<< 17)
    (out ++ pair_lines (lo + state.toNat % blocks * w.block) w.block, state)

/-- `write_verify_positions`: the file it leaves, none when no job is a `v` job and the
file that is there stays. -/
def write_verify_positions (c : Config) : Except String (Option (List UInt8)) :=
  match c.jobs.find? (·.write_verify) with
  | none => .ok none
  | some w =>
    match c.range with
    | none => .error "s0v with -S needs -G SIZE to set the range the pairs cover"
    | some (lo, hi) =>
      let blocks := (hi - lo) / w.block
      if blocks = 0 then .error "range is smaller than one block"
      else
        let count := w.positions.getD blocks
        .ok (some (utf8.encode ((List.range count).foldl (write_pair w lo blocks) ([], max c.seed 1)).1))

/-! ## The reader -/

/-- One line of `loaded`. -/
def record (line : List Char) : Except String Request :=
  let words := words line
  match words[0]? with
  | none => .error "missing position"
  | some word =>
    match parse U64 word with
    | none => .error "invalid position"
    | some offset =>
      if words[1]? ≠ some ['R'] ∧ words[1]? ≠ some ['W'] then .error "positions require R or W"
      else
        match words[2]? with
        | none => .error "missing length"
        | some word =>
          match parse U64 word with
          | none => .error "invalid length"
          | some len =>
            if words[3]?.isSome ∨ len = 0 ∨ 64 * 1024 * 1024 < len ∨ 2 ^ 63 - 1 < offset ∨
                U64 ≤ offset + len then .error "invalid position record"
            else .ok { Request.default with offset, len, write := words[1]? = some ['W'] }

/-- The loop of `loaded` over the lines of the file. -/
def read_records (memory : Nat) : List (List UInt8) → List Request → Except String (List Request)
  | [], records => .ok records
  | line :: rest, records =>
    match utf8.decode line with
    | none => .error "stream did not contain valid UTF-8"
    | some line =>
      match record line with
      | .error e => .error e
      | .ok r =>
        let records := records ++ [r]
        if memory / 2 < records.length * REQUEST_SIZE then .error "positions exceed memory budget"
        else read_records memory rest records

/-- `loaded`, with the file that `-S` names and what it held before: nothing when there is
no such file. -/
def loaded (c : Config) (positions_file : Option String) (held : Option (List UInt8)) :
    Except String (List Request) :=
  match positions_file with
  | none => .ok []
  | some _ =>
    match write_verify_positions c with
    | .error e => .error e
    | .ok written =>
      match written.or held with
      | none => .error "No such file or directory"
      | some bytes =>
        if c.memory / 4 < bytes.length then .error "positions input exceeds memory budget"
        else
          match read_records c.memory (lines 10 13 bytes) [] with
          | .error e => .error e
          | .ok records => if records = [] then .error "empty position file" else .ok records

/-! ## The generator -/

/-- The first `n` blocks that the generator of a run gives, and the generator after them. -/
def write_verify_indices (w : Workload) (blocks : Nat) (state : UInt64) : Nat → List Nat × Nat × UInt64
  | 0 => ([], 0, state)
  | n + 1 =>
    let (before, count, state) := write_verify_indices w blocks state n
    let (index, count, state) := write_verify_index w blocks count state
    (before ++ [index], count, state)

/-- The write and the read of one block. -/
def pair_of (lo block index : Nat) : List Request :=
  let write : Request := { Request.default with offset := lo + index * block, len := block, write := true }
  [write, { write with write := false }]

/-- One draw: the three shifts that both generators make. -/
def xorshift (state : UInt64) : UInt64 :=
  let state := state ^^^ (state <<< 13)
  let state := state ^^^ (state >>> 7)
  state ^^^ (state <<< 17)

/-- The line of a block, without its end. -/
def record_line (offset block : Nat) (write : Bool) : List Char :=
  shown offset ++ ' ' :: (if write then 'W' else 'R') :: ' ' :: shown block

theorem pair_lines_eq (offset block : Nat) : pair_lines offset block =
    record_line offset block true ++ '\n' :: (record_line offset block false ++ ['\n']) := by
  simp [pair_lines, record_line]

theorem toNat_of_isDigit {c : Char} (h : c.isDigit) : 48 ≤ c.toNat ∧ c.toNat ≤ 57 := by
  simp only [Char.isDigit, Bool.and_eq_true, decide_eq_true_eq] at h
  exact h

theorem shown_not_whitespace (n : Nat) : ∀ c ∈ shown n, is_whitespace c = false := by
  intro c hc
  have := toNat_of_isDigit (shown_digits n c hc)
  simp [is_whitespace]
  omega

/-- A line holds no control characters. -/
theorem graphic_line (offset block : Nat) (write : Bool) :
    ∀ b ∈ utf8.encode (record_line offset block write), 32 ≤ b.toNat := by
  have hascii : ∀ n, ∀ c ∈ shown n, c.toNat < 128 ∧ 32 ≤ c.toNat := by
    intro n c hc
    have := toNat_of_isDigit (shown_digits n c hc)
    omega
  have hline : ∀ c ∈ record_line offset block write, c.toNat < 128 ∧ 32 ≤ c.toNat := by
    intro c hc
    simp only [record_line, List.mem_append, List.mem_cons] at hc
    rcases hc with hc | rfl | rfl | rfl | hc
    · exact hascii offset c hc
    · decide
    · cases write <;> decide
    · decide
    · exact hascii block c hc
  rw [utf8.encode_of_lt fun c hc => (hline c hc).1]
  intro b hmem
  obtain ⟨c, hc, rfl⟩ := List.mem_map.mp hmem
  obtain ⟨hlt, hge⟩ := hline c hc
  rwa [UInt8.toNat_ofNat', Nat.mod_eq_of_lt (by omega)]

/-- A line and its newline are taken off the front of a text. -/
theorem lines_record (offset block : Nat) (write : Bool) (rest : List UInt8) :
    lines 10 13 (utf8.encode (record_line offset block write) ++ 10 :: rest) =
      utf8.encode (record_line offset block write) :: lines 10 13 rest := by
  refine lines_append rest (fun hmem => ?_) fun hlast => ?_
  · exact absurd (graphic_line _ _ _ _ hmem) (by decide)
  · exact absurd (graphic_line _ _ _ _ (List.mem_of_getLast? hlast)) (by decide)

theorem words_record_line (offset block : Nat) (write : Bool) :
    words (record_line offset block write) = [shown offset, [if write then 'W' else 'R'], shown block] := by
  unfold record_line
  have haction : is_whitespace (if write then 'W' else 'R') = false := by cases write <;> decide
  rw [words_append _ (shown_ne_nil _) (shown_not_whitespace _) (by decide),
    show (if write then 'W' else 'R') :: ' ' :: shown block =
      [if write then 'W' else 'R'] ++ ' ' :: shown block from rfl,
    words_append _ (by simp) (by simpa using haction) (by decide),
    words_single (shown_ne_nil _) (shown_not_whitespace _)]

/-- What a line that was written is read as, if it is accepted. -/
theorem record_of_line {offset block : Nat} {write : Bool} {r : Request}
    (h : record (record_line offset block write) = .ok r) :
    r = { Request.default with offset, len := block, write } := by
  have hparse : ∀ n, parse U64 (shown n) = if n < U64 then some n else none := by
    intro n
    rw [parse_digits (shown_ne_nil n) (shown_digits n), number_shown]
  unfold record at h
  rw [words_record_line] at h
  simp only [List.getElem?_cons_zero, List.getElem?_cons_succ, List.getElem?_nil, hparse] at h
  by_cases hoffset : offset < U64
  · rw [if_pos hoffset] at h
    by_cases hblock : block < U64
    · rw [if_pos hblock] at h
      cases write
      all_goals
        simp only [if_true, if_false, Bool.false_eq_true, Option.some.injEq, List.cons.injEq, Char.reduceEq,
          ne_eq, not_true_eq_false, not_false_eq_true, and_true, and_false, decide_true,
          decide_false] at h
        split_ifs at h
        exact (Except.ok.inj h).symm
    · rw [if_neg hblock] at h
      cases write <;> simp at h
  · rw [if_neg hoffset] at h
    cases h

/-! ## The file -/

/-- The bytes of two lines, as a reader of lines takes them. -/
theorem lines_pair (offset block : Nat) (rest : List UInt8) :
    lines 10 13 (utf8.encode (pair_lines offset block) ++ rest) =
      utf8.encode (record_line offset block true) :: utf8.encode (record_line offset block false) ::
        lines 10 13 rest := by
  have hnewline : String.utf8EncodeChar '\n' = [10] := by decide
  rw [pair_lines_eq]
  simp only [utf8.encode_append, utf8.encode_cons, utf8.encode_nil, hnewline, List.append_assoc,
    List.cons_append, List.nil_append]
  rw [lines_record, lines_record]

theorem lines_pairs (offsets : List Nat) (block : Nat) :
    lines 10 13 (utf8.encode (offsets.flatMap fun offset => pair_lines offset block)) =
      offsets.flatMap fun offset => [utf8.encode (record_line offset block true),
        utf8.encode (record_line offset block false)] := by
  induction offsets with
  | nil => rfl
  | cons offset offsets ih =>
    rw [List.flatMap_cons, utf8.encode_append, lines_pair, ih]
    rfl

/-- The requests that were read are those of the lines, one each. -/
theorem read_records.spec {memory : Nat} {ls : List (List UInt8)} {before records : List Request}
    (h : read_records memory ls before = .ok records) :
    ∃ rs, records = before ++ rs ∧
      List.Forall₂ (fun l r => ∃ line, utf8.decode l = some line ∧ record line = .ok r) ls rs := by
  induction ls generalizing before with
  | nil =>
    obtain rfl := Except.ok.inj h
    exact ⟨[], by simp, .nil⟩
  | cons l ls ih =>
    unfold read_records at h
    cases hline : utf8.decode l with
    | none => simp [hline] at h
    | some line =>
      cases hr : record line with
      | error e => simp [hline, hr] at h
      | ok r =>
        simp only [hline, hr] at h
        split_ifs at h
        obtain ⟨rs, rfl, hrs⟩ := ih h
        exact ⟨r :: rs, by simp, .cons ⟨line, hline, hr⟩ hrs⟩

/-- The lines of pairs are read as the pairs. -/
theorem read_pairs {memory block : Nat} {offsets : List Nat} {records : List Request}
    (h : read_records memory (lines 10 13 (utf8.encode (offsets.flatMap fun offset => pair_lines offset block)))
      [] = .ok records) :
    records = offsets.flatMap fun offset =>
      [{ Request.default with offset, len := block, write := true },
        { Request.default with offset, len := block, write := false }] := by
  obtain ⟨rs, hrecords, hrs⟩ := read_records.spec h
  rw [List.nil_append] at hrecords
  subst hrecords
  rw [lines_pairs] at hrs
  clear h
  have hone : ∀ {offset write r}, (∃ line, utf8.decode (utf8.encode (record_line offset block write)) =
      some line ∧ record line = .ok r) → r = { Request.default with offset, len := block, write } := by
    rintro offset write r ⟨line, hline, hr⟩
    rw [utf8.decode_encode] at hline
    obtain rfl := Option.some.inj hline
    exact record_of_line hr
  induction offsets generalizing records with
  | nil =>
    cases hrs
    rfl
  | cons offset offsets ih =>
    rw [List.flatMap_cons] at hrs ⊢
    cases hrs with
    | cons hw hrs =>
      cases hrs with
      | cons hread hrs => rw [hone hw, hone hread, ih hrs, List.cons_append, List.cons_append, List.nil_append]

/-! ## The two generators -/

/-- What a request does: where, how much, and whether it writes. -/
def Request.action (r : Request) : Nat × Nat × Bool := (r.offset, r.len, r.write)

/-- The records are the write and the read of each of the first `count` blocks that the
generator gives for a seed, inside the range. -/
structure Recorded (w : Workload) (lo hi : Nat) (seed : UInt64) (records : List Request) : Prop where
  pairs : records = (write_verify_indices w ((hi - lo) / w.block) (max seed 1)
    (w.positions.getD ((hi - lo) / w.block))).1.flatMap (pair_of lo w.block)
  count : records.length = 2 * w.positions.getD ((hi - lo) / w.block)
  inside : ∀ r ∈ records, lo ≤ r.offset ∧ r.offset + r.len ≤ hi

end stutools
