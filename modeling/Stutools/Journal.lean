-- The journal of the files that were written (src/rust/src/fsfiller/journal.rs), over any
-- number of runs whose appends may be cut short. The paths are ASCII, so a character is a
-- byte.
import Mathlib.Data.List.Dedup
import Stutools.Fsfiller

open texts

namespace stutools.fsfiller

/-- An entry: a path and a size. -/
abbrev Entry := PathBuf × Nat

/-- How many of the most recent entries are kept. -/
def KEEP : Nat := 1000

/-- A call of `record`, for the file of an index. -/
structure Call where
  settings : Settings
  index : Nat
  size : Nat
  size_lt : size < 2 ^ 64

namespace Call

def relative (c : Call) : List Char := relative_path c.settings c.index

def entry (root : PathBuf) (c : Call) : Entry := (file_path root c.settings c.index, c.size)

/-- The line of a call, without its newline. -/
def body (c : Call) : List Char := shown c.size ++ '\t' :: c.relative

/-- What `writeln!` writes. -/
def line (c : Call) : List Char := c.body ++ ['\n']

end Call

/-- The file, and what a run keeps in memory. -/
structure Journal where
  text : List Char
  recent : List Entry

/-- A run opens the journal, or it records an entry and that many bytes reach the file. -/
inductive Event where
  | opens
  | record (call : Call) (written : Nat)

namespace Event

/-- What reaches the file. -/
def part : Event → List Char
  | .opens => []
  | .record call written => call.line.take written

/-- The call whose line was written completely. -/
def complete : Event → Option Call
  | .opens => none
  | .record call written => if call.line.length ≤ written then some call else none

end Event

namespace Journal

/-- `open` and `record`. A record that fails leaves what it wrote. -/
def step (root : PathBuf) (j : Journal) : Event → Journal
  | .opens => { j with recent := [] }
  | .record call written =>
    let text := j.text ++ call.line.take written
    if call.line.length ≤ written then
      { text
        recent :=
          (if j.recent.length = KEEP then j.recent.tail else j.recent) ++ [call.entry root] }
    else { j with text }

def run (root : PathBuf) (events : List Event) : Journal := events.foldl (step root) ⟨[], []⟩

end Journal

/-! ## Reading back -/

def parse_line (root : PathBuf) (line : List Char) : Option Entry := do
  let (size, relative) ← split_once (· == '\t') line
  let size ← parse (2 ^ 64) size
  some (root.join relative, size)

/-- The entries whose path was not seen yet. -/
def unseen (seen : List PathBuf) : List Entry → List Entry
  | [] => []
  | e :: es => if e.1 ∈ seen then unseen seen es else e :: unseen (e.1 :: seen) es

def read_tail (root : PathBuf) (text : List Char) : List Entry :=
  let entries := (lines '\n' '\r' text).filterMap (parse_line root)
  ((unseen [] entries.reverse).take KEEP).reverse

/-! ## The last entries of a list -/

/-- The size of the newest entry for a path. -/
def newest (entries : List Entry) (path : PathBuf) : Nat :=
  ((entries.reverse.find? (·.1 = path)).map Prod.snd).getD 0

/-- The last paths that are distinct, oldest first, each with its newest size. -/
def last_distinct (n : Nat) (entries : List Entry) : List Entry :=
  let paths := (entries.map Prod.fst).dedup
  (paths.drop (paths.length - n)).map fun path => (path, newest entries path)

theorem unseen_append (seen : List PathBuf) (es : List Entry) (e : Entry) :
    unseen seen (es ++ [e]) =
      unseen seen es ++ if e.1 ∈ seen ∨ e.1 ∈ es.map Prod.fst then [] else [e] := by
  induction es generalizing seen with
  | nil => simp [unseen]
  | cons a es ih =>
    rw [List.cons_append, unseen, unseen]
    split
    · rename_i hseen
      have hiff : (e.1 ∈ seen ∨ e.1 ∈ es.map Prod.fst) ↔
          (e.1 ∈ seen ∨ e.1 ∈ (a :: es).map Prod.fst) := by
        rw [List.map_cons, List.mem_cons]
        refine ⟨fun h => h.imp_right .inr, fun h => ?_⟩
        rcases h with h | h | h
        · exact .inl h
        · exact .inl (h ▸ hseen)
        · exact .inr h
      rw [ih, if_congr hiff rfl rfl]
    · have hiff : (e.1 ∈ a.1 :: seen ∨ e.1 ∈ es.map Prod.fst) ↔
          (e.1 ∈ seen ∨ e.1 ∈ (a :: es).map Prod.fst) := by
        rw [List.map_cons, List.mem_cons, List.mem_cons]
        tauto
      rw [ih, if_congr hiff rfl rfl, List.cons_append]

theorem newest_cons_of_mem {e : Entry} {es : List Entry} {path : PathBuf}
    (h : path ∈ es.map Prod.fst) : newest (e :: es) path = newest es path := by
  obtain ⟨a, ha, rfl⟩ := List.mem_map.mp h
  have hsome : (es.reverse.find? (·.1 = a.1)).isSome := by
    rw [List.find?_isSome]
    exact ⟨a, List.mem_reverse.mpr ha, by simp⟩
  obtain ⟨b, hb⟩ := Option.isSome_iff_exists.mp hsome
  unfold newest
  rw [List.reverse_cons, List.find?_append, hb]
  rfl

theorem newest_cons_self {e : Entry} {es : List Entry} (h : e.1 ∉ es.map Prod.fst) :
    newest (e :: es) e.1 = e.2 := by
  have hnone : es.reverse.find? (·.1 = e.1) = none := by
    rw [List.find?_eq_none]
    intro a ha heq
    exact h (List.mem_map.mpr ⟨a, List.mem_reverse.mp ha, of_decide_eq_true heq⟩)
  unfold newest
  rw [List.reverse_cons, List.find?_append, hnone]
  simp

/-- Going back through the entries finds each path with its newest size. -/
theorem unseen_reverse (es : List Entry) :
    (unseen [] es.reverse).reverse =
      (es.map Prod.fst).dedup.map fun path => (path, newest es path) := by
  induction es with
  | nil => rfl
  | cons e es ih =>
    rw [List.reverse_cons, unseen_append, List.reverse_append, ih, List.map_cons]
    have hold : (es.map Prod.fst).dedup.map (fun path => (path, newest (e :: es) path)) =
        (es.map Prod.fst).dedup.map fun path => (path, newest es path) :=
      List.map_congr_left fun path hpath => by
        rw [newest_cons_of_mem (List.mem_dedup.mp hpath)]
    by_cases hmem : e.1 ∈ es.map Prod.fst
    · rw [List.dedup_cons_of_mem hmem, hold]
      simp [hmem]
    · rw [List.dedup_cons_of_notMem hmem, List.map_cons, hold, newest_cons_self hmem]
      simp [hmem]

theorem take_unseen_reverse (n : Nat) (es : List Entry) :
    ((unseen [] es.reverse).take n).reverse = last_distinct n es := by
  have hlen := congrArg List.length (unseen_reverse es)
  rw [List.length_reverse, List.length_map] at hlen
  unfold last_distinct
  rw [List.reverse_take, unseen_reverse, hlen, List.map_drop]

theorem read_tail_eq {root : PathBuf} {text : List Char} :
    read_tail root text = last_distinct KEEP ((lines '\n' '\r' text).filterMap (parse_line root)) :=
  take_unseen_reverse _ _

/-! ## What a run keeps -/

/-- What follows the last newline. -/
def unfinished (text : List Char) : List Char := (text.splitOn '\n').getLast?.getD []

/-- An append is sound: a whole line comes after nothing but zeros since the last newline,
and a line that is cut short leaves no tab there. -/
def Sound (text : List Char) : Event → Prop
  | .opens => True
  | .record call written =>
    if call.line.length ≤ written then ∀ c ∈ unfinished text, c = '0'
    else '\t' ∉ unfinished text ++ call.line.take written

/-- The entries whose line was written completely. -/
def completes (root : PathBuf) (events : List Event) : List Entry :=
  events.filterMap fun e => e.complete.map (·.entry root)

/-- The text is whole lines, which read as the entries, and a rest without a tab. -/
structure Kept (root : PathBuf) (entries : List Entry) (text : List Char) (ls : List (List Char))
    (rest : List Char) : Prop where
  text_eq : text = ls.flatMap (· ++ ['\n']) ++ rest
  no_newline : ∀ l ∈ ls, '\n' ∉ l ∧ l.getLast? ≠ some '\r'
  rest_newline : '\n' ∉ rest
  rest_tab : '\t' ∉ rest
  entries_eq : ls.filterMap (parse_line root) = entries

theorem splitOn_lines {ls : List (List Char)} {rest : List Char} (h : ∀ l ∈ ls, '\n' ∉ l)
    (hrest : '\n' ∉ rest) : (ls.flatMap (· ++ ['\n']) ++ rest).splitOn '\n' = ls ++ [rest] := by
  induction ls with
  | nil => exact List.splitOn_eq_singleton hrest
  | cons l ls ih =>
    obtain ⟨hl, hls⟩ := List.forall_mem_cons.mp h
    rw [List.flatMap_cons, List.append_assoc, List.append_assoc, List.singleton_append,
      List.splitOn_append_cons_self_of_not_mem hl, ih hls, List.cons_append]

theorem parse_line_none {root : PathBuf} {line : List Char} (h : '\t' ∉ line) :
    parse_line root line = none := by
  unfold parse_line
  rw [split_once_none fun x hx => beq_false_of_ne fun (heq : x = '\t') => h (heq ▸ hx)]
  rfl

namespace Kept

variable {root : PathBuf} {entries : List Entry} {text : List Char} {ls : List (List Char)}
  {rest : List Char}

theorem splitOn (h : Kept root entries text ls rest) : text.splitOn '\n' = ls ++ [rest] := by
  rw [h.text_eq, splitOn_lines (fun l hl => (h.no_newline l hl).1) h.rest_newline]

theorem unfinished (h : Kept root entries text ls rest) : unfinished text = rest := by
  unfold fsfiller.unfinished
  rw [h.splitOn]
  simp

/-- The whole lines are read, and the rest is no entry. -/
theorem read_tail (h : Kept root entries text ls rest) :
    read_tail root text = last_distinct KEEP entries := by
  have hstrip : ls.map (fun l => if l.getLast? = some '\r' then l.dropLast else l) = ls := by
    conv_rhs => rw [← List.map_id ls]
    exact List.map_congr_left fun l hl => if_neg (h.no_newline l hl).2
  have hrest : ([rest].filter (· ≠ [])).filterMap (parse_line root) = [] := by
    rw [List.filterMap_eq_nil_iff]
    intro l hl
    rw [List.mem_singleton.mp (List.mem_of_mem_filter hl)]
    exact parse_line_none h.rest_tab
  rw [read_tail_eq]
  unfold lines
  rw [h.splitOn]
  simp only [List.dropLast_concat, hstrip, List.getLast?_concat, Option.toList_some,
    List.filterMap_append, hrest, List.append_nil, h.entries_eq]

end Kept

/-! ## A line -/

namespace Call

theorem graphic_relative (c : Call) : ∀ x ∈ c.relative, 32 < x.toNat :=
  graphic_relative_path _ _

theorem newline_notMem_body (c : Call) : '\n' ∉ c.body := by
  intro hmem
  rcases List.mem_append.mp hmem with h | h
  · exact notMem_of_digits (shown_digits c.size) rfl h
  · rcases List.mem_cons.mp h with h | h
    · exact absurd h (by decide)
    · exact absurd (c.graphic_relative _ h) (by decide)

theorem relative_ne_nil (c : Call) : c.relative ≠ [] := by
  simp [relative, relative_path]

/-- A line does not end with a carriage return. -/
theorem getLast_body (c : Call) (rest : List Char) : (rest ++ c.body).getLast? ≠ some '\r' := by
  intro hlast
  have htail : (rest ++ c.body).getLast? = c.relative.getLast? := by
    unfold body
    rw [List.append_cons, ← List.append_assoc, ← List.append_assoc,
      List.getLast?_append_of_ne_nil _ c.relative_ne_nil]
  rw [htail] at hlast
  exact absurd (c.graphic_relative _ (List.mem_of_getLast? hlast)) (by decide)

/-- Leading zeros do not change what a line is read as. -/
theorem parse_body (root : PathBuf) (c : Call) {zeros : List Char} (h : ∀ x ∈ zeros, x = '0') :
    parse_line root (zeros ++ c.body) = some (c.entry root) := by
  have hdigits : Digits (zeros ++ shown c.size) := List.forall_mem_append.mpr
    ⟨fun x hx => by rw [h x hx]; rfl, shown_digits c.size⟩
  have hnumber : number (zeros ++ shown c.size) = c.size := by
    rw [List.eq_replicate_of_mem h]
    unfold number
    rw [Nat.ofDigitChars_append, Nat.ofDigitChars_replicate_zero, Nat.mul_zero]
    exact number_shown c.size
  have hcut : split_once (· == '\t') (zeros ++ c.body) =
      some (zeros ++ shown c.size, c.relative) := by
    unfold body
    rw [← List.append_assoc]
    exact split_once_append _ (fun x hx => beq_false_of_ne fun (heq : x = '\t') =>
      notMem_of_digits hdigits rfl (heq ▸ hx)) rfl
  have hparse : parse (2 ^ 64) (zeros ++ shown c.size) = some c.size := by
    rw [parse_digits (List.append_ne_nil_of_right_ne_nil _ (shown_ne_nil _)) hdigits, hnumber,
      if_pos c.size_lt]
  unfold parse_line
  rw [hcut]
  simp only [Option.bind_eq_bind, Option.bind_some, hparse]
  rfl

theorem length_line (c : Call) : c.line.length = c.body.length + 1 := by
  simp [line]

end Call

/-! ## The runs -/

namespace Journal

theorem run_append (root : PathBuf) (events : List Event) (e : Event) :
    run root (events ++ [e]) = step root (run root events) e := by
  unfold run
  rw [List.foldl_append]
  rfl

theorem step_text (root : PathBuf) (j : Journal) (e : Event) :
    (step root j e).text = j.text ++ e.part := by
  cases e with
  | opens => exact (List.append_nil _).symm
  | record call written =>
    unfold step
    dsimp only
    split <;> rfl

end Journal

/-- A sound append keeps the whole lines, and adds its own when it is complete. -/
theorem Kept.step {root : PathBuf} {entries : List Entry} {text : List Char}
    {ls : List (List Char)} {rest : List Char} (h : Kept root entries text ls rest) {e : Event}
    (hsound : Sound text e) :
    ∃ ls' rest', Kept root (entries ++ (e.complete.map (·.entry root)).toList) (text ++ e.part)
      ls' rest' := by
  cases e with
  | opens =>
    refine ⟨ls, rest, ?_⟩
    simpa [Event.part, Event.complete] using h
  | record call written =>
    unfold Sound at hsound
    dsimp only at hsound
    rw [h.unfinished] at hsound
    by_cases hwhole : call.line.length ≤ written
    · rw [if_pos hwhole] at hsound
      refine ⟨ls ++ [rest ++ call.body], [], ?_, ?_, by simp, by simp, ?_⟩
      · have hpart : (Event.record call written).part = call.line := List.take_of_length_le hwhole
        simp only [hpart, h.text_eq, Call.line, List.flatMap_append, List.flatMap_singleton,
          List.append_assoc, List.append_nil]
      · refine List.forall_mem_append.mpr ⟨h.no_newline, ?_⟩
        intro l hl
        rw [List.mem_singleton.mp hl]
        exact ⟨fun hmem => (List.mem_append.mp hmem).elim h.rest_newline call.newline_notMem_body,
          call.getLast_body rest⟩
      · rw [List.filterMap_append, h.entries_eq]
        simp [Event.complete, hwhole, call.parse_body root hsound]
    · rw [if_neg hwhole] at hsound
      have hle : written ≤ call.body.length := by
        have := call.length_line
        omega
      have htake : call.line.take written = call.body.take written :=
        List.take_append_of_le_length hle
      refine ⟨ls, rest ++ call.line.take written, ?_, h.no_newline, ?_, hsound, ?_⟩
      · simp only [Event.part, h.text_eq, List.append_assoc]
      · rw [htake]
        exact fun hmem => (List.mem_append.mp hmem).elim h.rest_newline fun hmem =>
          call.newline_notMem_body (List.mem_of_mem_take hmem)
      · simp [Event.complete, hwhole, h.entries_eq]

theorem completes_append (root : PathBuf) (events : List Event) (e : Event) :
    completes root (events ++ [e]) =
      completes root events ++ (e.complete.map (·.entry root)).toList := by
  unfold completes
  rw [List.filterMap_append]
  cases h : e.complete <;> simp [h]

/-- A run whose appends are all sound. -/
def SoundRun (root : PathBuf) (events : List Event) : Prop :=
  ∀ before e after, events = before ++ e :: after → Sound (Journal.run root before).text e

theorem SoundRun.kept {root : PathBuf} {events : List Event} (h : SoundRun root events) :
    ∃ ls rest, Kept root (completes root events) (Journal.run root events).text ls rest := by
  induction events using List.reverseRecOn with
  | nil => exact ⟨[], [], by simp [Journal.run], by simp, by simp, by simp, rfl⟩
  | append_singleton events e ih =>
    have hbefore : SoundRun root events := fun before e' after heq =>
      h before e' (after ++ [e]) (by rw [heq]; simp)
    obtain ⟨ls, rest, hkept⟩ := ih hbefore
    have hstep := hkept.step (h events e [] rfl)
    rw [Journal.run_append, Journal.step_text]
    rw [completes_append]
    exact hstep

/-- After every part of a run whose appends are all sound, the journal reads back as the last
distinct paths of the complete entries. -/
theorem the_journal_reads_back (root : PathBuf) (events : List Event) (h : SoundRun root events) :
    ∀ before, before <+: events → read_tail root (Journal.run root before).text =
      last_distinct KEEP (completes root before) := by
  rintro before ⟨after, rfl⟩
  have hbefore : SoundRun root before := fun b e a heq => by
    refine h b e (a ++ after) ?_
    rw [heq]
    simp
  obtain ⟨ls, rest, hkept⟩ := hbefore.kept
  exact hkept.read_tail

/-- Two entries, the first of which may be cut short, with one directory on each level. -/
def two_calls (written : Nat) : List Event :=
  let s : Settings := ⟨1, 1, Nat.one_pos, Nat.one_pos⟩
  [.record ⟨s, 0, 10, by decide⟩ written, .record ⟨s, 1, 20, by decide⟩ 1000]

theorem the_journal_reads_back_two_calls :
    SoundRun ⟨true, []⟩ (two_calls 1000) ∧ ∀ before, before <+: two_calls 1000 →
      read_tail ⟨true, []⟩ (Journal.run ⟨true, []⟩ before).text =
        last_distinct KEEP (completes ⟨true, []⟩ before) := by
  have hsound : SoundRun ⟨true, []⟩ (two_calls 1000) := by
    intro before e after heq
    have hwhole : ∀ call text, call.line.length ≤ 1000 → unfinished text = [] →
        Sound text (.record call 1000) := by
      intro call text hle hrest
      unfold Sound
      dsimp only
      rw [if_pos hle, hrest]
      exact fun c hc => absurd hc List.not_mem_nil
    rcases before with _ | ⟨b, _ | ⟨b', before⟩⟩
    · cases heq
      exact hwhole _ _ (by decide) rfl
    · cases heq
      exact hwhole _ _ (by decide) (by decide)
    · simp [two_calls] at heq
  exact ⟨hsound, the_journal_reads_back _ _ hsound⟩

theorem a_torn_line_swallows_the_next :
    ¬ ∀ root events, read_tail root (Journal.run root events).text =
      last_distinct KEEP (completes root events) := by
  intro h
  exact absurd (h ⟨true, []⟩ (two_calls 5)) (by decide)

end stutools.fsfiller
