-- The texts that the conversions of `printf` write, and the directives of `scanf`: a directive
-- reads a field up to the white space after it, and gives back what was written there.
-- A text holds no NUL, and `%lf` is read in decimal.
import Mathlib.Data.List.DropRight
import Stutools.Float
import Stutools.Padded

open texts

namespace stdio

/-- `isspace`, in the "C" locale. -/
def isspace (c : Char) : Bool := c.toNat == 32 || (9 ≤ c.toNat && c.toNat ≤ 13)

/-! ## Writing -/

/-- `%zd`, of a `size_t`. -/
def signed (n : Nat) : List Char := if n < 2 ^ 63 then shown n else '-' :: shown (2 ^ 64 - n)

/-- `%.*lf`: rounded to `d` digits after the point, ties to even. -/
def fixed (d : Nat) (q : ℚ) : List Char :=
  let n := (float.roundHalfEven (|q| * 10 ^ d)).toNat
  (if q < 0 then ['-'] else []) ++ (shown (n / 10 ^ d) ++ '.' :: padded d (n % 10 ^ d))

/-! ## Reading -/

inductive Directive
  | blank
  | word
  | skip
  | char
  | size
  | double
deriving DecidableEq

/-- What a directive assigns. -/
inductive Value
  | text (w : List Char)
  | char (c : Char)
  | size (n : Nat)
  | double (q : ℚ)
deriving DecidableEq

/-- An optional sign, and whether it is a minus. -/
def sign : List Char → Bool × List Char
  | '-' :: text => (true, text)
  | '+' :: text => (false, text)
  | text => (false, text)

/-- `%s` -/
def scan_word (text : List Char) : Option (List Char × List Char) :=
  let text := text.dropWhile isspace
  let w := text.takeWhile fun c => !isspace c
  if w = [] then none else some (w, text.dropWhile fun c => !isspace c)

/-- `%zu`, as `strtoull`: a number too large is the largest, and a minus sign negates. -/
def scan_size (text : List Char) : Option (Nat × List Char) :=
  let (negative, text) := sign (text.dropWhile isspace)
  let ds := text.takeWhile Char.isDigit
  let n := number ds
  if ds = [] then none
  else some (if 2 ^ 64 ≤ n then 2 ^ 64 - 1 else if negative then (2 ^ 64 - n) % 2 ^ 64 else n,
    text.dropWhile Char.isDigit)

/-- The exponent of a number, if it has one. -/
def scan_exponent (text : List Char) : Option (Int × List Char) :=
  match text with
  | c :: rest =>
    if c = 'e' ∨ c = 'E' then
      let (negative, rest) := sign rest
      let ds := rest.takeWhile Char.isDigit
      if ds = [] then none
      else some (if negative then -(number ds : Int) else number ds, rest.dropWhile Char.isDigit)
    else some (0, text)
  | [] => some (0, [])

/-- The digits after the point, if there is one. -/
def scan_fraction (text : List Char) : List Char × List Char :=
  match text with
  | '.' :: rest => (rest.takeWhile Char.isDigit, rest.dropWhile Char.isDigit)
  | text => ([], text)

/-- `%lf` -/
def scan_double (text : List Char) : Option (ℚ × List Char) :=
  let (negative, text) := sign (text.dropWhile isspace)
  let whole := text.takeWhile Char.isDigit
  let (fraction, text) := scan_fraction (text.dropWhile Char.isDigit)
  if whole ++ fraction = [] then none
  else (scan_exponent text).map fun (exponent, rest) =>
    let q := (number (whole ++ fraction) : ℚ) / 10 ^ fraction.length * (10 : ℚ) ^ exponent
    (if negative then -q else q, rest)

/-- A directive: what it assigns and the text behind it, or a failure. -/
def scan (d : Directive) (text : List Char) : Option (List Value × List Char) :=
  match d with
  | .blank => some ([], text.dropWhile isspace)
  | .word => (scan_word text).map fun (w, rest) => ([.text w], rest)
  | .skip => (scan_word text).map fun (_, rest) => ([], rest)
  | .char => text.head?.map fun c => ([.char c], text.tail)
  | .size => (scan_size text).map fun (n, rest) => ([.size n], rest)
  | .double => (scan_double text).map fun (q, rest) => ([.double q], rest)

/-- `sscanf`: what is assigned up to the first directive that fails. -/
def sscanf : List Directive → List Char → List Value
  | [], _ => []
  | d :: ds, text =>
    match scan d text with
    | none => []
    | some (values, rest) => values ++ sscanf ds rest

/-- The lines that `getline` gives, each with its newline. -/
def getlines : List Char → List (List Char)
  | [] => []
  | c :: text =>
    if c = '\n' then [c] :: getlines text
    else
      match getlines text with
      | [] => [[c]]
      | l :: ls => (c :: l) :: ls

theorem getlines_append {l : List Char} (rest : List Char) (h : '\n' ∉ l) :
    getlines (l ++ '\n' :: rest) = (l ++ ['\n']) :: getlines rest := by
  induction l with
  | nil => simp [getlines]
  | cons c l ih =>
    rw [List.mem_cons, not_or] at h
    rw [List.cons_append, getlines, if_neg (Ne.symm h.1), ih h.2]
    rfl

/-! ## Fields -/

/-- No character of the text is white space. -/
def Solid (w : List Char) : Prop := ∀ c ∈ w, isspace c = false

theorem solid_of_all {w : List Char} (h : w.all fun c => !isspace c) : Solid w := by
  simpa [Solid] using h

/-- A text that may come after a field: it begins with white space, or it is empty. -/
def Ends (rest : List Char) : Prop := ∀ c ∈ rest.head?, isspace c

/-- The directive reads the field, whatever comes after it. -/
def Reads (d : Directive) (field : List Char) (values : List Value) : Prop :=
  ∀ rest, Ends rest → scan d (field ++ rest) = some (values, rest)

theorem sscanf_field {d : Directive} {field rest : List Char} {values : List Value}
    (h : Reads d field values) (hrest : Ends rest) (ds : List Directive) :
    sscanf (d :: ds) (field ++ rest) = values ++ sscanf ds rest := by
  rw [sscanf, h rest hrest]

/-- A list up to the first element that is not of a kind. -/
theorem span_append {p : Char → Bool} {w rest : List Char} (hw : ∀ c ∈ w, p c)
    (hrest : ∀ c ∈ rest.head?, p c = false) :
    (w ++ rest).takeWhile p = w ∧ (w ++ rest).dropWhile p = rest := by
  rw [List.takeWhile_append_of_pos hw, List.dropWhile_append_of_pos hw]
  cases rest with
  | nil => exact ⟨List.append_nil w, rfl⟩
  | cons c rest =>
    have hc : p c = false := hrest c rfl
    rw [List.takeWhile_cons, List.dropWhile_cons, hc]
    exact ⟨List.append_nil w, rfl⟩

theorem dropWhile_isspace {text : List Char} (h : ∀ c ∈ text.head?, isspace c = false) :
    text.dropWhile isspace = text :=
  (span_append (w := []) (by simp) h).2

theorem head?_append {w : List Char} (hne : w ≠ []) (rest : List Char) :
    (w ++ rest).head? = w.head? := by
  cases w with
  | nil => exact absurd rfl hne
  | cons c w => rfl

theorem Solid.head {w : List Char} (h : Solid w) (hne : w ≠ []) (rest : List Char) :
    ∀ c ∈ (w ++ rest).head?, isspace c = false := by
  rw [head?_append hne]
  exact fun c hc => h c (List.mem_of_mem_head? hc)

theorem Solid.append {a b : List Char} (ha : Solid a) (hb : Solid b) : Solid (a ++ b) :=
  fun c hc => (List.mem_append.mp hc).elim (ha c) (hb c)

theorem Solid.cons {c : Char} {w : List Char} (hc : isspace c = false) (hw : Solid w) :
    Solid (c :: w) := List.forall_mem_cons.mpr ⟨hc, hw⟩

theorem Solid.newline {w : List Char} (h : Solid w) : '\n' ∉ w := fun hmem =>
  absurd (h '\n' hmem) (by decide)

theorem solid_of_digits {ds : List Char} (h : Digits ds) : Solid ds := by
  intro c hc
  have hc : 48 ≤ c.toNat ∧ c.toNat ≤ 57 := Char.isDigit_iff_toNat.mp (h c hc)
  unfold isspace
  simp only [Bool.or_eq_false_iff, Bool.and_eq_false_iff, beq_eq_false_iff_ne,
    decide_eq_false_iff_not]
  omega

theorem scan_word_append {w rest : List Char} (h : Solid w) (hne : w ≠ []) (hrest : Ends rest) :
    scan_word (w ++ rest) = some (w, rest) := by
  obtain ⟨htake, hdrop⟩ := @span_append (fun c => !isspace c) w rest
    (fun c hc => by rw [h c hc]; rfl) (fun c hc => by rw [hrest c hc]; rfl)
  unfold scan_word
  rw [dropWhile_isspace (h.head hne rest)]
  dsimp only
  rw [htake, hdrop, if_neg hne]

theorem reads_word {w : List Char} (h : Solid w) (hne : w ≠ []) : Reads .word w [.text w] :=
  fun rest hrest => by rw [scan, scan_word_append h hne hrest]; rfl

theorem reads_skip {w : List Char} (h : Solid w) (hne : w ≠ []) : Reads .skip w [] :=
  fun rest hrest => by rw [scan, scan_word_append h hne hrest]; rfl

/-- All but `%c` pass over the white space before a field. -/
theorem Reads.space {d : Directive} {c : Char} {field : List Char} {values : List Value}
    (h : Reads d field values) (hd : d ≠ .char) (hc : isspace c) :
    Reads d (c :: field) values := by
  intro rest hrest
  rw [← h rest hrest]
  have hdrop : (c :: field ++ rest).dropWhile isspace = (field ++ rest).dropWhile isspace := by
    rw [List.cons_append, List.dropWhile_cons_of_pos hc]
  cases d with
  | char => exact absurd rfl hd
  | blank => rw [scan, scan, hdrop]
  | word => simp only [scan, scan_word, hdrop]
  | skip => simp only [scan, scan_word, hdrop]
  | size => simp only [scan, scan_size, hdrop]
  | double => simp only [scan, scan_double, hdrop]

theorem Reads.spaces {d : Directive} {field : List Char} {values : List Value}
    (h : Reads d field values) (hd : d ≠ .char) (n : Nat) :
    Reads d (List.replicate n ' ' ++ field) values := by
  induction n with
  | zero => exact h
  | succ n ih => exact ih.space hd (by decide)

/-- A blank before such a directive reads nothing that it would not pass over. -/
theorem sscanf_blank {d : Directive} (hd : d ≠ .char) (ds : List Directive) (text : List Char) :
    sscanf (.blank :: d :: ds) text = sscanf (d :: ds) text := by
  have hdrop : (text.dropWhile isspace).dropWhile isspace = text.dropWhile isspace :=
    List.dropWhile_idempotent _ _
  have hscan : scan d (text.dropWhile isspace) = scan d text := by
    cases d with
    | char => exact absurd rfl hd
    | blank => rw [scan, scan, hdrop]
    | word => simp only [scan, scan_word, hdrop]
    | skip => simp only [scan, scan_word, hdrop]
    | size => simp only [scan, scan_size, hdrop]
    | double => simp only [scan, scan_double, hdrop]
  rw [sscanf, scan]
  dsimp only
  rw [List.nil_append, sscanf, sscanf, hscan]

theorem ends_cons {c : Char} (hc : isspace c) (rest : List Char) : Ends (c :: rest) :=
  fun d hd => by cases hd; exact hc

/-- A field after white space, with a blank in the format. -/
theorem sscanf_next {d : Directive} {field rest : List Char} {values : List Value} {c : Char}
    (h : Reads d field values) (hd : d ≠ .char) (hc : isspace c) (hrest : Ends rest)
    (ds : List Directive) :
    sscanf (.blank :: d :: ds) (c :: (field ++ rest)) = values ++ sscanf ds rest := by
  rw [sscanf_blank hd, ← List.cons_append, sscanf_field (h.space hd hc) hrest]

theorem sscanf_char {c : Char} (hc : isspace c = false) (rest : List Char)
    (ds : List Directive) :
    sscanf (.blank :: .char :: ds) ('\t' :: c :: rest) = .char c :: sscanf ds rest := by
  have hblank : ('\t' :: c :: rest).dropWhile isspace = c :: rest := by
    rw [List.dropWhile_cons_of_pos (by decide), dropWhile_isspace (by simpa using hc)]
  rw [sscanf, scan]
  dsimp only
  rw [hblank]
  rfl

/-! ## Numbers -/

theorem sign_digits {ds : List Char} (h : Digits ds) (hne : ds ≠ []) (rest : List Char) :
    sign (ds ++ rest) = (false, ds ++ rest) := by
  cases ds with
  | nil => exact absurd rfl hne
  | cons c ds =>
    have hc : c.isDigit := h c List.mem_cons_self
    rw [List.cons_append]
    unfold sign
    split
    · rename_i heq
      cases heq
      exact absurd hc (by decide)
    · rename_i heq
      cases heq
      exact absurd hc (by decide)
    · rfl

theorem Ends.not_digit {rest : List Char} (h : Ends rest) :
    ∀ c ∈ rest.head?, c.isDigit = false := by
  intro c hc
  by_contra hdigit
  have hdigits : Digits [c] := by simpa [Digits] using hdigit
  have hsolid := solid_of_digits hdigits c List.mem_cons_self
  rw [h c hc] at hsolid
  exact absurd hsolid (by decide)

theorem reads_size {n : Nat} (hn : n < 2 ^ 64) : Reads .size (shown n) [.size n] := by
  intro rest hrest
  have hds := shown_digits n
  have hne := shown_ne_nil n
  obtain ⟨htake, hdrop⟩ := span_append (p := Char.isDigit) hds hrest.not_digit
  rw [scan, scan_size, dropWhile_isspace ((solid_of_digits hds).head hne rest),
    sign_digits hds hne]
  dsimp only
  rw [htake, hdrop, if_neg hne, number_shown, if_neg (not_le.mpr hn)]
  rfl

/-- `%zu` reads what `%zd` wrote, also when that is negative. -/
theorem reads_signed {n : Nat} (hn : n < 2 ^ 64) : Reads .size (signed n) [.size n] := by
  unfold signed
  split
  · exact reads_size hn
  · rename_i hge
    intro rest hrest
    obtain ⟨htake, hdrop⟩ :=
      span_append (p := Char.isDigit) (shown_digits (2 ^ 64 - n)) hrest.not_digit
    have hminus : ∀ text, sign ('-' :: text) = (true, text) := fun _ => rfl
    rw [List.cons_append, scan, scan_size, dropWhile_isspace (by simp [isspace]), hminus]
    dsimp only
    rw [htake, hdrop, if_neg (shown_ne_nil _), number_shown, if_neg (by omega), if_pos rfl]
    have hback : (2 ^ 64 - (2 ^ 64 - n)) % 2 ^ 64 = n := by omega
    rw [hback]
    rfl

theorem number_append (a b : List Char) :
    number (a ++ b) = number a * 10 ^ b.length + number b := by
  unfold number
  rw [Nat.ofDigitChars_append, Nat.ofDigitChars_eq_ofDigitChars_zero, Nat.mul_comm]

theorem roundHalfEven_natCast (n : Nat) : float.roundHalfEven n = n := by
  unfold float.roundHalfEven
  simp

/-- The text of a number that needs no rounding. -/
theorem fixed_eq {d n : Nat} {q : ℚ} (hq : q * 10 ^ d = n) :
    0 ≤ q ∧ fixed d q = shown (n / 10 ^ d) ++ '.' :: padded d (n % 10 ^ d) := by
  have hnonneg : 0 ≤ q := by
    by_contra hneg
    have := mul_neg_of_neg_of_pos (not_le.mp hneg) (show (0 : ℚ) < 10 ^ d by positivity)
    rw [hq] at this
    exact absurd this (not_lt.mpr (Nat.cast_nonneg n))
  refine ⟨hnonneg, ?_⟩
  unfold fixed
  rw [abs_of_nonneg hnonneg, hq, roundHalfEven_natCast, if_neg (not_lt.mpr hnonneg)]
  rfl

theorem scan_fraction_digits {ds rest : List Char} (hds : Digits ds) (hrest : Ends rest) :
    scan_fraction ('.' :: (ds ++ rest)) = (ds, rest) := by
  obtain ⟨htake, hdrop⟩ := span_append (p := Char.isDigit) hds hrest.not_digit
  show ((ds ++ rest).takeWhile Char.isDigit, (ds ++ rest).dropWhile Char.isDigit) = _
  rw [htake, hdrop]

theorem scan_exponent_ends {rest : List Char} (hrest : Ends rest) :
    scan_exponent rest = some (0, rest) := by
  unfold scan_exponent
  split
  · rename_i c tail
    have hc : isspace c := hrest c rfl
    rw [if_neg]
    rintro (rfl | rfl) <;> exact absurd hc (by decide)
  · rfl

/-- `%lf` reads a number whose digits were all written. -/
theorem reads_fixed {d n : Nat} {q : ℚ} (hd : 0 < d) (hq : q * 10 ^ d = n) :
    Reads .double (fixed d q) [.double q] := by
  obtain ⟨-, hdigits⟩ := fixed_eq hq
  have hlength : (padded d (n % 10 ^ d)).length = d :=
    padded_length hd (Nat.mod_lt n (by positivity))
  have hnumber : number (shown (n / 10 ^ d) ++ padded d (n % 10 ^ d)) = n := by
    rw [number_append, hlength, number_shown, number_padded, Nat.div_add_mod']
  have hback : (n : ℚ) / 10 ^ d * (10 : ℚ) ^ (0 : ℤ) = q := by
    rw [zpow_zero, mul_one, ← hq, mul_div_cancel_right₀ q (by positivity)]
  have hwhole := shown_digits (n / 10 ^ d)
  have hne := shown_ne_nil (n / 10 ^ d)
  intro rest hrest
  obtain ⟨htake, hdrop⟩ := @span_append Char.isDigit (shown (n / 10 ^ d))
    ('.' :: (padded d (n % 10 ^ d) ++ rest)) hwhole (by simp)
  rw [hdigits, List.append_assoc, List.cons_append, scan, scan_double,
    dropWhile_isspace ((solid_of_digits hwhole).head hne _), sign_digits hwhole hne]
  dsimp only
  rw [htake, hdrop, scan_fraction_digits (padded_digits d _) hrest]
  dsimp only
  rw [if_neg (List.append_ne_nil_of_left_ne_nil hne _), scan_exponent_ends hrest, hnumber, hlength]
  dsimp only [Option.map_some]
  rw [hback]
  rfl

theorem signed_solid (n : Nat) : Solid (signed n) := by
  unfold signed
  split
  · exact solid_of_digits (shown_digits n)
  · exact (solid_of_digits (shown_digits _)).cons (by decide)

theorem fixed_solid (d : Nat) (q : ℚ) : Solid (fixed d q) := by
  refine Solid.append ?_ ((solid_of_digits (shown_digits _)).append
    ((solid_of_digits (padded_digits d _)).cons (by decide)))
  split
  · exact .cons (by decide) (by simp [Solid])
  · simp [Solid]

theorem fixed_ne_nil (d : Nat) (q : ℚ) : fixed d q ≠ [] := by
  unfold fixed
  simp

end stdio
