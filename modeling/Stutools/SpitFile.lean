-- The position file (src/c/spit/positions.c): the lines that a run saves, the reader of the
-- verifier, which numbers the devices anew, and that a line of a position that succeeded is
-- read back. A line of one that failed is not.
import Mathlib.Data.List.Sort
import Stutools.SpitCollapse
import Stutools.Stdio

open texts stdio

namespace stutools.spit.file

open stutools.spit.collapse

/-! ## The writer -/

/-- The samples that a position keeps of its latency. -/
structure Latencies where
  sumLatency : ℚ
  latencies : List ℚ

def Latencies.samples (l : Latencies) : Nat := l.latencies.length

def Latencies.sorted (l : Latencies) : List ℚ := l.latencies.insertionSort (· ≤ ·)

def avgiotime (p : positionType) (l : Latencies) : ℚ :=
  if l.samples ≠ 0 then l.sumLatency / l.samples
  else (p.finishTime : ℚ) - (p.submitTime : ℚ)

def median (p : positionType) (l : Latencies) : ℚ :=
  if 1 < l.samples then l.sorted.getD (l.samples / 2) 0 else avgiotime p l

def max_latency (p : positionType) (l : Latencies) : ℚ :=
  if l.samples ≠ 0 then l.sorted.getD (l.samples - 1) 0 else median p l

def TOGB (x : Nat) : ℚ := (x : ℚ) / 1000 / 1000 / 1000

/-- `%.2lf GB` -/
def gigabytes (x : Nat) : List Char := fixed 2 (TOGB x) ++ " GB".toList

/-- `%.1lf%%` of the position in a range, which may be empty. -/
def percentage (pos maxbdSizeBytes : Nat) : List Char :=
  if maxbdSizeBytes = 0 then (if pos = 0 then "-nan%" else "inf%").toList
  else fixed 1 ((pos : ℚ) * 100 / maxbdSizeBytes) ++ ['%']

/-- The fields of the line of a position. -/
def position_fields (p : positionType) (l : Latencies) (maxbdSizeBytes : Nat) (name : List Char)
    (index : Nat) : List (List Char) :=
  [name, (signed p.pos).leftpad 10 ' ', gigabytes p.pos, percentage p.pos maxbdSizeBytes,
    p.action :: (if p.success = 2 then "error".toList else []), shown p.len,
    signed maxbdSizeBytes, gigabytes maxbdSizeBytes, shown p.seed, fixed 8 p.submitTime,
    fixed 8 p.finishTime, fixed 8 (avgiotime p l), signed index, shown l.samples,
    fixed 8 (median p l), fixed 8 (max_latency p l)]

/-- The fields of the line of a flush. -/
def flush_fields (p : positionType) (maxbdSizeBytes : Nat) (name : List Char) :
    List (List Char) :=
  [name, (signed 0).leftpad 10 ' ', gigabytes 0, fixed 1 0 ++ ['%'], ['F'], signed 0,
    signed maxbdSizeBytes, gigabytes 0, shown p.seed, shown 0]

/-- The fields, with a tab between them and a newline after them. -/
def line (fields : List (List Char)) : List Char := List.intercalate ['\t'] fields ++ ['\n']

def positionDumpOne (p : positionType) (l : Latencies) (maxbdSizeBytes : Nat) (doflush : Bool)
    (name : List Char) (index : Nat) : List Char :=
  if p.success ≠ 0 ∧ 0 < p.finishTime then
    line (position_fields p l maxbdSizeBytes name index) ++
      if doflush then line (flush_fields p maxbdSizeBytes name) else []
  else []

/-- The name of the device of a position. -/
def device (devices : List (List Char)) (p : positionType) : List Char :=
  devices.getD p.deviceid []

/-- `positionContainerSave`, with the latencies of each position. -/
def positionContainerSave (latencies : collapse.Entry → Latencies) (devices : List (List Char))
    (positions : List collapse.Entry) (maxbdSizeBytes flushEvery : Nat) : List Char :=
  (positions.zipIdx.map fun (p, i) =>
    positionDumpOne p.topositionType (latencies p) maxbdSizeBytes
      (flushEvery ≠ 0 && (i + 1) % flushEvery == 0) (device devices p.topositionType) i).flatten

/-! ## The reader -/

/-- The devices of the job, the fields of the container and `lineswitherrors`. -/
structure Loaded where
  devices : List (List Char)
  positions : List positionType
  minbs : Nat
  maxbs : Nat
  maxbdSize : Nat
  lineswitherrors : Nat
deriving DecidableEq

/-- `jobInit` and `positionContainerInit` -/
def Loaded.init : Loaded :=
  { devices := [], positions := [], minbs := 2 ^ 31 - 1, maxbs := 0, maxbdSize := 0,
    lineswitherrors := 0 }

/-- "%s %zu %*s %*s %*s %c %zu %zu %*s %*s %zu %lf %lf" -/
def format : List Directive :=
  [.word, .blank, .size, .blank, .skip, .blank, .skip, .blank, .skip, .blank, .char, .blank,
    .size, .blank, .size, .blank, .skip, .blank, .skip, .blank, .size, .blank, .double, .blank,
    .double]

/-- `seenpathbefore`: the last job on a device of this name. -/
def seenpathbefore (devices : List (List Char)) (path : List Char) : Option Nat :=
  devices.zipIdx.foldl (fun seen (name, k) => if path = name then some k else seen) none

/-- What a valid line says. -/
structure Parsed where
  path : List Char
  pos : Nat
  op : Char
  len : Nat
  tmpsize : Nat
  seed : Nat
  starttime : ℚ≥0
  fintime : ℚ≥0

/-- A valid line: the times are 0 when they are not read. -/
def parse_line (text : List Char) : Option Parsed :=
  match sscanf format text with
  | [.text path, .size pos, .char op, .size len, .size tmpsize, .size seed, .double starttime,
      .double fintime] =>
    if 0 < starttime ∧ 0 < fintime then
      some
        { path, pos, op, len, tmpsize, seed
          starttime := starttime.toNNRat
          fintime := fintime.toNNRat }
    else none
  | _ => none

/-- The position of a valid line, on a device of the job, which may be new. -/
def Loaded.add (s : Loaded) (v : Parsed) : Loaded :=
  let (devices, seen) := match seenpathbefore s.devices v.path with
    | some k => (s.devices, k)
    | none => (s.devices ++ [v.path], s.devices.length)
  { devices
    positions := s.positions ++ [{ positionType.zero with
      deviceid := seen % 2 ^ 16, submitTime := v.starttime, finishTime := v.fintime, pos := v.pos,
      len := v.len % 2 ^ 32, action := v.op, success := 1, seed := v.seed % 2 ^ 16 }]
    minbs := if v.len < s.minbs then v.len else s.minbs
    maxbs := if v.len > s.maxbs then v.len else s.maxbs
    maxbdSize := if v.tmpsize > s.maxbdSize then v.tmpsize else s.maxbdSize
    lineswitherrors := s.lineswitherrors }

/-- One turn of the loop. -/
def Loaded.line (s : Loaded) (text : List Char) : Loaded :=
  match parse_line text with
  | some v => s.add v
  | none => { s with lineswitherrors := s.lineswitherrors + 1 }

/-- `positionContainerAddLines`: at most `maxLines` positions, if that is not 0. -/
def positionContainerAddLines (maxLines : Nat) : Loaded → Nat → List (List Char) → Loaded
  | s, _, [] => s
  | s, added, text :: lines =>
    let s' := s.line text
    let added := added + (s'.positions.length - s.positions.length)
    if maxLines ≠ 0 ∧ maxLines ≤ added then s'
    else positionContainerAddLines maxLines s' added lines

def positionContainerLoad (text : List Char) : Loaded :=
  positionContainerAddLines 0 Loaded.init 0 (getlines text)

theorem addLines_zero (s : Loaded) (added : Nat) (lines : List (List Char)) :
    positionContainerAddLines 0 s added lines = lines.foldl Loaded.line s := by
  induction lines generalizing s added with
  | nil => rfl
  | cons text lines ih =>
    rw [positionContainerAddLines, List.foldl_cons]
    rw [if_neg (by simp), ih]

/-! ## One line -/

theorem line_cons (a b : List Char) (fields : List (List Char)) :
    line (a :: b :: fields) = a ++ '\t' :: line (b :: fields) := by
  unfold line
  rw [List.intercalate_cons_cons, List.append_assoc, List.append_assoc]
  rfl

theorem percentage_solid (pos maxbdSizeBytes : Nat) : Solid (percentage pos maxbdSizeBytes) := by
  unfold percentage
  split
  · split
    · exact solid_of_all (by decide)
    · exact solid_of_all (by decide)
  · exact (fixed_solid _ _).append (.cons (by decide) (by simp [Solid]))

theorem percentage_ne_nil (pos maxbdSizeBytes : Nat) : percentage pos maxbdSizeBytes ≠ [] := by
  unfold percentage
  split
  · split <;> decide
  · simp

/-- What the reader passes over. -/
theorem sscanf_gigabytes {x : Nat} {rest : List Char} (hrest : Ends rest) (ds : List Directive) :
    sscanf (.blank :: .skip :: .blank :: .skip :: ds) ('\t' :: (gigabytes x ++ rest)) =
      sscanf ds rest := by
  have hunit : Reads .skip ['G', 'B'] [] := reads_skip (solid_of_all (by decide)) (by decide)
  have htext : gigabytes x ++ rest = fixed 2 (TOGB x) ++ ' ' :: (['G', 'B'] ++ rest) := by
    unfold gigabytes
    rw [List.append_assoc]
    rfl
  rw [htext, sscanf_next (reads_skip (fixed_solid _ _) (fixed_ne_nil _ _)) (by decide) (by decide)
    (ends_cons (by decide) _), List.nil_append, sscanf_next hunit (by decide) (by decide) hrest,
    List.nil_append]

/-- A position that the file can hold: its numbers have their widths, its times are multiples of
10 ns, and its device is one word. -/
structure Writable (name : List Char) (p : positionType) : Prop where
  name_solid : Solid name
  name_ne_nil : name ≠ []
  pos_lt : p.pos < 2 ^ 64
  len_lt : p.len < 2 ^ 32
  seed_lt : p.seed < 2 ^ 16
  action_plain : isspace p.action = false
  submit_exact : ∃ n : Nat, (p.submitTime : ℚ) * 10 ^ 8 = n
  finish_exact : ∃ n : Nat, (p.finishTime : ℚ) * 10 ^ 8 = n
  finished : 0 < p.finishTime

/-- The fields behind the action. -/
def number_fields (p : positionType) (l : Latencies) (maxbdSizeBytes index : Nat) :
    List (List Char) :=
  (position_fields p l maxbdSizeBytes [] index).drop 5

/-- The directives behind the action. -/
def number_format : List Directive := format.drop 11

/-- The reader comes to the action, and goes on right behind it. -/
theorem sscanf_position {name : List Char} {p : positionType} (h : Writable name p)
    (l : Latencies) (maxbdSizeBytes index : Nat) :
    sscanf format (line (position_fields p l maxbdSizeBytes name index)) =
      [.text name, .size p.pos, .char p.action] ++
        sscanf number_format ((if p.success = 2 then "error".toList else []) ++
          '\t' :: line (number_fields p l maxbdSizeBytes index)) := by
  have htab : ∀ rest, Ends ('\t' :: rest) := fun rest => ends_cons (by decide) rest
  have hpos : Reads .size ((signed p.pos).leftpad 10 ' ') [.size p.pos] :=
    (reads_signed h.pos_lt).spaces (by decide) _
  have hpercentage : Reads .skip (percentage p.pos maxbdSizeBytes) [] :=
    reads_skip (percentage_solid _ _) (percentage_ne_nil _ _)
  unfold position_fields format
  iterate 5 rw [line_cons]
  rw [sscanf_field (reads_word h.name_solid h.name_ne_nil) (htab _),
    sscanf_next hpos (by decide) (by decide) (htab _), sscanf_gigabytes (htab _),
    sscanf_next hpercentage (by decide) (by decide) (htab _), @List.cons_append _ p.action,
    sscanf_char h.action_plain]
  rfl

/-- The numbers of a position that succeeded. -/
theorem sscanf_numbers {name : List Char} {p : positionType} (h : Writable name p)
    (l : Latencies) {maxbdSizeBytes : Nat} (hmaxbd : maxbdSizeBytes < 2 ^ 64) (index : Nat) :
    sscanf number_format ('\t' :: line (number_fields p l maxbdSizeBytes index)) =
      [.size p.len, .size maxbdSizeBytes, .size p.seed, .double p.submitTime,
        .double p.finishTime] := by
  have htab : ∀ rest, Ends ('\t' :: rest) := fun rest => ends_cons (by decide) rest
  obtain ⟨n, hn⟩ := h.submit_exact
  obtain ⟨m, hm⟩ := h.finish_exact
  have hlen : Reads .size (shown p.len) [.size p.len] :=
    reads_size (h.len_lt.trans (by decide))
  have hseed : Reads .size (shown p.seed) [.size p.seed] :=
    reads_size (h.seed_lt.trans (by decide))
  unfold number_fields number_format position_fields format
  simp only [List.drop_succ_cons, List.drop_zero]
  iterate 6 rw [line_cons]
  rw [sscanf_next hlen (by decide) (by decide) (htab _),
    sscanf_next (reads_signed hmaxbd) (by decide) (by decide) (htab _), sscanf_gigabytes (htab _),
    sscanf_next hseed (by decide) (by decide) (htab _),
    sscanf_next (reads_fixed (by decide) hn) (by decide) (by decide) (htab _),
    sscanf_next (reads_fixed (by decide) hm) (by decide) (by decide) (htab _)]
  rfl

/-- What the line of a position that succeeded says. -/
def parsed (name : List Char) (p : positionType) (maxbdSizeBytes : Nat) : Parsed :=
  { path := name, pos := p.pos, op := p.action, len := p.len, tmpsize := maxbdSizeBytes,
    seed := p.seed, starttime := p.submitTime, fintime := p.finishTime }

/-- A line is valid when its position succeeded, after the time 0. -/
theorem parse_position {name : List Char} {p : positionType} (h : Writable name p)
    (l : Latencies) {maxbdSizeBytes : Nat} (hmaxbd : maxbdSizeBytes < 2 ^ 64) (index : Nat) :
    parse_line (line (position_fields p l maxbdSizeBytes name index)) =
      if p.success ≠ 2 ∧ 0 < p.submitTime then some (parsed name p maxbdSizeBytes) else none := by
  unfold parse_line
  rw [sscanf_position h]
  by_cases hfailed : p.success = 2
  · -- the action and "error" are one word, and no number follows the action
    rw [if_pos hfailed, if_neg fun hall => hall.1 hfailed]
    rfl
  · rw [if_neg hfailed, List.nil_append, sscanf_numbers h l hmaxbd]
    have hsubmit : 0 < (p.submitTime : ℚ) ↔ 0 < p.submitTime := NNRat.coe_pos
    have hfinish : 0 < (p.finishTime : ℚ) := NNRat.coe_pos.mpr h.finished
    by_cases hstart : 0 < p.submitTime
    · rw [if_pos ⟨hfailed, hstart⟩]
      dsimp only [List.cons_append, List.nil_append]
      rw [if_pos ⟨hsubmit.mpr hstart, hfinish⟩]
      unfold parsed
      rw [NNRat.toNNRat_coe, NNRat.toNNRat_coe]
    · rw [if_neg fun hall => hstart hall.2]
      dsimp only [List.cons_append, List.nil_append]
      rw [if_neg fun hall => hstart (hsubmit.mp hall.1)]

/-! ## The whole file -/

theorem newline_intercalate {fields : List (List Char)} (h : ∀ f ∈ fields, '\n' ∉ f) :
    '\n' ∉ List.intercalate ['\t'] fields := by
  induction fields with
  | nil => decide
  | cons f fields ih =>
    obtain ⟨hf, hfields⟩ := List.forall_mem_cons.mp h
    cases fields with
    | nil => rwa [List.intercalate_singleton]
    | cons g fields =>
      rw [List.intercalate_cons_cons, List.mem_append, List.mem_append]
      have htab : '\n' ∉ ['\t'] := by decide
      have := ih hfields
      tauto

theorem gigabytes_newline (x : Nat) : '\n' ∉ gigabytes x := by
  unfold gigabytes
  rw [List.mem_append, not_or]
  exact ⟨(fixed_solid _ _).newline, by decide⟩

theorem position_fields_newline {name : List Char} {p : positionType} (h : Writable name p)
    (l : Latencies) (maxbdSizeBytes index : Nat) :
    ∀ f ∈ position_fields p l maxbdSizeBytes name index, '\n' ∉ f := by
  have hshown : ∀ n, '\n' ∉ shown n := fun n => (solid_of_digits (shown_digits n)).newline
  have hsigned : ∀ n, '\n' ∉ signed n := fun n => (signed_solid n).newline
  have hfixed : ∀ d q, '\n' ∉ fixed d q := fun d q => (fixed_solid d q).newline
  have hpos : '\n' ∉ (signed p.pos).leftpad 10 ' ' := by
    unfold List.leftpad
    rw [List.mem_append, not_or]
    exact ⟨fun hmem => absurd (List.eq_of_mem_replicate hmem) (by decide), hsigned _⟩
  have haction : '\n' ∉ p.action :: (if p.success = 2 then "error".toList else []) := by
    have hsuffix : '\n' ∉ if p.success = 2 then "error".toList else [] := by split <;> decide
    have hplain : '\n' ≠ p.action := by
      intro heq
      exact absurd h.action_plain (by rw [← heq]; decide)
    exact fun hmem => (List.mem_cons.mp hmem).elim hplain hsuffix
  unfold position_fields
  simp only [List.forall_mem_cons, List.not_mem_nil, IsEmpty.forall_iff, implies_true, and_true]
  exact ⟨h.name_solid.newline, hpos, gigabytes_newline _, (percentage_solid _ _).newline, haction,
    hshown _, hsigned _, gigabytes_newline _, hshown _, hfixed _ _, hfixed _ _, hfixed _ _,
    hsigned _, hshown _, hfixed _ _, hfixed _ _⟩

/-- What a line does to the reader. -/
def Loaded.take (devices : List (List Char)) (maxbdSizeBytes : Nat) (s : Loaded)
    (p : collapse.Entry) : Loaded :=
  if p.success ≠ 2 ∧ 0 < p.submitTime then
    s.add (parsed (device devices p.topositionType) p.topositionType maxbdSizeBytes)
  else { s with lineswitherrors := s.lineswitherrors + 1 }

section
variable {latencies : collapse.Entry → Latencies} {devices : List (List Char)}
  {positions : List collapse.Entry} {maxbdSizeBytes : Nat}
  (hwritable : ∀ p ∈ positions, Writable (device devices p.topositionType) p.topositionType)
  (hcompleted : ∀ p ∈ positions, p.success ≠ 0)
include hwritable hcompleted

/-- The lines of the file are those of the positions. -/
theorem getlines_save :
    getlines (positionContainerSave latencies devices positions maxbdSizeBytes 0) =
      positions.zipIdx.map fun (p, i) => line (position_fields p.topositionType (latencies p)
        maxbdSizeBytes (device devices p.topositionType) i) := by
  have hall : ∀ x ∈ positions.zipIdx, x.1 ∈ positions := fun x hx => List.fst_mem_of_mem_zipIdx hx
  unfold positionContainerSave
  generalize positions.zipIdx = indexed at hall ⊢
  induction indexed with
  | nil => rfl
  | cons x indexed ih =>
    obtain ⟨p, i⟩ := x
    obtain ⟨hp, hall⟩ := List.forall_mem_cons.mp hall
    have hw := hwritable p hp
    have hdump : positionDumpOne p.topositionType (latencies p) maxbdSizeBytes
        (0 ≠ 0 && (i + 1) % 0 == 0) (device devices p.topositionType) i =
          line (position_fields p.topositionType (latencies p) maxbdSizeBytes
            (device devices p.topositionType) i) := by
      unfold positionDumpOne
      rw [if_pos ⟨hcompleted p hp, hw.finished⟩]
      exact List.append_nil _
    rw [List.map_cons, List.flatten_cons, List.map_cons, ← ih hall]
    dsimp only
    rw [hdump]
    unfold line
    rw [List.append_assoc, List.singleton_append,
      getlines_append _ (newline_intercalate (position_fields_newline hw _ _ _))]

/-- Loading what was saved goes over the positions. -/
theorem load_save (hmaxbd : maxbdSizeBytes < 2 ^ 64) :
    positionContainerLoad (positionContainerSave latencies devices positions maxbdSizeBytes 0) =
      positions.foldl (Loaded.take devices maxbdSizeBytes) Loaded.init := by
  have hline : ∀ s, ∀ x ∈ positions.zipIdx, Loaded.line s (line (position_fields
      x.1.topositionType (latencies x.1) maxbdSizeBytes (device devices x.1.topositionType) x.2)) =
        Loaded.take devices maxbdSizeBytes s x.1 := by
    intro s x hx
    unfold Loaded.line Loaded.take
    rw [parse_position (hwritable x.1 (List.fst_mem_of_mem_zipIdx hx)) _ hmaxbd]
    by_cases hok : x.1.success ≠ 2 ∧ 0 < x.1.submitTime
    · rw [if_pos hok, if_pos hok]
    · rw [if_neg hok, if_neg hok]
  unfold positionContainerLoad
  rw [addLines_zero, getlines_save hwritable hcompleted, List.foldl_map]
  conv_rhs => rw [← List.zipIdx_map_fst 0 positions, List.foldl_map]
  exact List.foldl_ext _ _ _ fun s x hx => hline s x hx

end

/-- The lines that are skipped are counted. -/
theorem take_errors (devices : List (List Char)) (maxbdSizeBytes : Nat)
    (positions : List collapse.Entry) (s : Loaded) :
    (positions.foldl (Loaded.take devices maxbdSizeBytes) s).lineswitherrors =
      s.lineswitherrors +
        positions.countP fun p => decide (¬ (p.success ≠ 2 ∧ 0 < p.submitTime)) := by
  induction positions generalizing s with
  | nil => rfl
  | cons p positions ih =>
    rw [List.foldl_cons, ih, List.countP_cons]
    unfold Loaded.take
    by_cases hok : p.success ≠ 2 ∧ 0 < p.submitTime
    · rw [if_pos hok]
      simp [hok, Loaded.add]
    · rw [if_neg hok, decide_eq_true hok, if_pos rfl]
      dsimp only
      omega

end stutools.spit.file
