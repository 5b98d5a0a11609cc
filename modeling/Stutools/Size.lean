-- Size arguments of the command line: a decimal number with an optional fraction and a
-- unit, in 128-bit arithmetic that refuses what does not fit. The result is the exact
-- value, save where the number of digits of the fraction wraps.
import Mathlib.Data.Rat.Defs
import Mathlib.Tactic.FieldSimp
import Mathlib.Tactic.Ring
import Stutools.Texts

open texts

namespace stutools.cli

def I64_MAX : Nat := 2 ^ 63 - 1
def U128 : Nat := 2 ^ 128

/-- Why a text is no size. -/
inductive SizeError where
  /-- "invalid size .." -/
  | invalid (text : List Char)
  /-- "size precision overflow" -/
  | precision
  /-- "size overflow" -/
  | overflow
deriving DecidableEq, Repr

/-- The units by their suffix. -/
def UNITS : List (List Char × Nat) :=
  [(['B'], 1), (['k'], 1000), (['K'], 1000), (['K', 'B'], 1000),
    (['M'], 1000000), (['M', 'B'], 1000000), (['G'], 1000000000), (['G', 'B'], 1000000000),
    (['T'], 1000000000000), (['T', 'B'], 1000000000000), (['K', 'i', 'B'], 1024),
    (['M', 'i', 'B'], 1048576), (['G', 'i', 'B'], 1073741824), (['T', 'i', 'B'], 1099511627776)]

/-- The unit of a suffix, the default when there is none. -/
def unit_of (suffix : List Char) (default : Nat) : Option Nat :=
  if suffix = [] then some default else (UNITS.find? (·.1 == suffix)).map Prod.snd

/-- A digit or a point. -/
def in_number (c : Char) : Bool := c.isDigit || c == '.'

/-- `u128::checked_mul` and `checked_add`. -/
def checked (n : Nat) : Option Nat := if n < U128 then some n else none

/-- `parse::<u128>`, with nothing for zero. -/
def digits_or_zero (ds : List Char) : Option Nat := if ds = [] then some 0 else parse U128 ds

/-- The size of a number in its two parts. `fraction.len() as u32` is the number of the
fraction's digits modulo 2^32. -/
def scaled (s whole fraction : List Char) (unit : Nat) : Except SizeError Nat :=
  match digits_or_zero whole with
  | none => .error (.invalid s)
  | some w =>
    match checked (10 ^ (fraction.length % 2 ^ 32)) with
    | none => .error .precision
    | some scale =>
      match digits_or_zero fraction with
      | none => .error (.invalid s)
      | some f =>
        match (checked (w * scale)).bind fun v => (checked (v + f)).bind fun v => checked (v * unit) with
        | none => .error .overflow
        | some value =>
          if value % scale ≠ 0 ∨ I64_MAX < value / scale then .error (.invalid s)
          else .ok (value / scale)

/-- `units::size`. The default unit is a positive integer at every caller. -/
def size (s : List Char) (default : Nat) : Except SizeError Nat :=
  match unit_of (s.dropWhile in_number) default with
  | none => .error (.invalid s)
  | some unit =>
    let number := s.takeWhile in_number
    let (whole, fraction) := (split_once (· == '.') number).getD (number, [])
    if whole = [] ∧ fraction = [] then .error (.invalid s) else scaled s whole fraction unit

/-! ## What a text says -/

/-- The text is a decimal number, its digits before and after at most one point, and a
suffix that names the unit. -/
structure Reads (s : List Char) (default : Nat) (whole fraction : List Char) (unit : Nat) : Prop where
  whole_digits : Digits whole
  fraction_digits : Digits fraction
  some_digit : whole ≠ [] ∨ fraction ≠ []
  text : ∃ suffix, unit_of suffix default = some unit ∧
    (s = whole ++ '.' :: fraction ++ suffix ∨ s = whole ++ suffix ∧ fraction = [])

/-- The exact value of the text. -/
def exact (whole fraction : List Char) (unit : Nat) : ℚ :=
  (number whole + number fraction / 10 ^ fraction.length) * unit

/-- The text has the size it says, or none when it says none; with up to 18 fractional
digits, a size that is an integer in range is found. -/
def Sized (s : List Char) (default : Nat) : Prop :=
  (∀ v, size s default = .ok v → ∃ whole fraction unit, Reads s default whole fraction unit ∧
    (v : ℚ) = exact whole fraction unit ∧ v ≤ I64_MAX) ∧
  ∀ whole fraction unit (v : Nat), Reads s default whole fraction unit → fraction.length ≤ 18 →
    (v : ℚ) = exact whole fraction unit → v ≤ I64_MAX → size s default = .ok v

/-- The fraction is not zero and has 2^32 digits or more, and read with its number of
digits modulo 2^32 the text is an integer in range, reached within 128 bits. -/
def Misread (whole fraction : List Char) (unit : Nat) : Prop :=
  let scale := 10 ^ (fraction.length % 2 ^ 32)
  2 ^ 32 ≤ fraction.length ∧ 0 < number fraction ∧ number whole < U128 ∧ number fraction < U128 ∧
    scale < U128 ∧ (number whole * scale + number fraction) * unit < U128 ∧
    scale ∣ (number whole * scale + number fraction) * unit ∧
    (number whole * scale + number fraction) * unit / scale ≤ I64_MAX

/-! ## The parts of a text -/

theorem unit_of_pos {suffix : List Char} {default unit : Nat} (hdefault : 0 < default)
    (h : unit_of suffix default = some unit) : 0 < unit := by
  unfold unit_of at h
  split at h
  · cases h
    exact hdefault
  · obtain ⟨u, hu, rfl⟩ := Option.map_eq_some_iff.mp h
    have hall : ∀ u ∈ UNITS, 0 < u.2 := by decide
    exact hall u (List.mem_of_find?_eq_some hu)

/-- A suffix that names a unit begins with no digit and no point. -/
theorem dropWhile_suffix {suffix : List Char} {default unit : Nat}
    (h : unit_of suffix default = some unit) : suffix.dropWhile in_number = suffix := by
  unfold unit_of at h
  split at h
  · rename_i hnil
    rw [hnil]
    rfl
  · obtain ⟨u, hu, -⟩ := Option.map_eq_some_iff.mp h
    have hall : ∀ u ∈ UNITS, u.1.dropWhile in_number = u.1 := by decide
    have hmem := hall u (List.mem_of_find?_eq_some hu)
    have heq : u.1 = suffix := by
      have := List.find?_some hu
      simpa using this
    rwa [heq] at hmem

theorem digits_in_number {ds : List Char} (h : Digits ds) : ∀ c ∈ ds, in_number c := by
  intro c hc
  simp [in_number, h c hc]

theorem digits_no_point {ds : List Char} (h : Digits ds) : ∀ c ∈ ds, (c == '.') = false := by
  intro c hc
  rw [beq_eq_false_iff_ne]
  rintro rfl
  exact absurd (h '.' hc) (by decide)

/-- Where the text splits: into its number, which splits at the point, and its suffix. -/
theorem Reads.parts {s whole fraction : List Char} {default unit : Nat}
    (h : Reads s default whole fraction unit) :
    unit_of (s.dropWhile in_number) default = some unit ∧
      (split_once (· == '.') (s.takeWhile in_number)).getD (s.takeWhile in_number, []) =
        (whole, fraction) := by
  obtain ⟨hwhole, hfraction, -, suffix, hunit, htext⟩ := h
  have hdrop := dropWhile_suffix hunit
  have htake : suffix.takeWhile in_number = [] := by
    have := List.takeWhile_append_dropWhile (p := in_number) (l := suffix)
    rw [hdrop] at this
    exact List.append_left_eq_self.mp this
  rcases htext with rfl | ⟨rfl, rfl⟩
  · have hnumber : ∀ c ∈ whole ++ '.' :: fraction, in_number c := by
      intro c hc
      rcases List.mem_append.mp hc with hc | hc
      · exact digits_in_number hwhole c hc
      · rcases List.mem_cons.mp hc with rfl | hc
        · decide
        · exact digits_in_number hfraction c hc
    rw [List.dropWhile_append_of_pos hnumber, List.takeWhile_append_of_pos hnumber, hdrop, htake,
      List.append_nil, split_once_append fraction (digits_no_point hwhole) (by decide)]
    exact ⟨hunit, rfl⟩
  · rw [List.dropWhile_append_of_pos (digits_in_number hwhole),
      List.takeWhile_append_of_pos (digits_in_number hwhole), hdrop, htake, List.append_nil,
      split_once_none (digits_no_point hwhole)]
    exact ⟨hunit, rfl⟩

theorem Reads.size_eq {s whole fraction : List Char} {default unit : Nat}
    (h : Reads s default whole fraction unit) : size s default = scaled s whole fraction unit := by
  obtain ⟨hunit, hsplit⟩ := h.parts
  unfold size
  rw [hunit]
  dsimp only
  rw [hsplit]
  have hsome : ¬ (whole = [] ∧ fraction = []) := by
    rcases h.some_digit with hne | hne
    · exact fun hnil => hne hnil.1
    · exact fun hnil => hne hnil.2
  rw [if_neg hsome]

/-- A text has one reading. -/
theorem Reads.unique {s whole fraction whole' fraction' : List Char} {default unit unit' : Nat}
    (h : Reads s default whole fraction unit) (h' : Reads s default whole' fraction' unit') :
    whole = whole' ∧ fraction = fraction' ∧ unit = unit' := by
  obtain ⟨hunit, hsplit⟩ := h.parts
  obtain ⟨hunit', hsplit'⟩ := h'.parts
  rw [hunit] at hunit'
  rw [hsplit] at hsplit'
  obtain ⟨hw, hf⟩ := Prod.mk.inj hsplit'
  exact ⟨hw, hf, Option.some.inj hunit'⟩

/-! ## The arithmetic -/

theorem digits_or_zero_eq {ds : List Char} (h : Digits ds) :
    digits_or_zero ds = if number ds < U128 then some (number ds) else none := by
  unfold digits_or_zero
  split
  · rename_i hnil
    subst hnil
    rfl
  · rename_i hne
    exact parse_digits hne h

theorem checked_of_lt {n : Nat} (h : n < U128) : checked n = some n := if_pos h

theorem checked_of_le {n : Nat} (h : ¬ n < U128) : checked n = none := if_neg h

/-- Sum and products fit when the last product does. -/
theorem checked_chain {w scale f unit : Nat} (hunit : 0 < unit) :
    ((checked (w * scale)).bind fun v => (checked (v + f)).bind fun v => checked (v * unit)) =
      checked ((w * scale + f) * unit) := by
  have hle : w * scale + f ≤ (w * scale + f) * unit := Nat.le_mul_of_pos_right _ hunit
  by_cases h1 : w * scale < U128
  · rw [checked_of_lt h1, Option.bind_some]
    by_cases h2 : w * scale + f < U128
    · rw [checked_of_lt h2, Option.bind_some]
    · rw [checked_of_le h2, checked_of_le (by omega)]
      rfl
  · rw [checked_of_le h1, checked_of_le (by omega)]
    rfl

/-- When the arithmetic finds a size, and which. -/
theorem scaled_ok_iff {s whole fraction : List Char} {unit v : Nat} (hwhole : Digits whole)
    (hfraction : Digits fraction) (hunit : 0 < unit) :
    scaled s whole fraction unit = .ok v ↔
      (number whole < U128 ∧ number fraction < U128 ∧ 10 ^ (fraction.length % 2 ^ 32) < U128 ∧
        (number whole * 10 ^ (fraction.length % 2 ^ 32) + number fraction) * unit < U128) ∧
      (number whole * 10 ^ (fraction.length % 2 ^ 32) + number fraction) * unit =
        v * 10 ^ (fraction.length % 2 ^ 32) ∧ v ≤ I64_MAX := by
  generalize hscale : 10 ^ (fraction.length % 2 ^ 32) = scale
  have hpos : 0 < scale := hscale ▸ Nat.pow_pos (by decide)
  unfold scaled
  rw [digits_or_zero_eq hwhole, digits_or_zero_eq hfraction, hscale]
  by_cases hw : number whole < U128
  · rw [if_pos hw]
    by_cases hs : scale < U128
    · rw [checked_of_lt hs]
      by_cases hf : number fraction < U128
      · rw [if_pos hf]
        dsimp only
        rw [checked_chain hunit]
        generalize (number whole * scale + number fraction) * unit = value
        by_cases hv : value < U128
        · rw [checked_of_lt hv]
          simp only [hw, hs, hf, hv, and_self, true_and]
          constructor
          · intro h
            split_ifs at h with hbad
            cases h
            rw [not_or, not_not] at hbad
            exact ⟨(Nat.div_mul_cancel (Nat.dvd_of_mod_eq_zero hbad.1)).symm, by omega⟩
          · rintro ⟨rfl, hv'⟩
            rw [Nat.mul_div_cancel _ hpos, Nat.mul_mod_left, if_neg (by omega)]
        · rw [checked_of_le hv]
          simp [hv]
      · rw [if_neg hf]
        simp [hf]
    · rw [checked_of_le hs]
      simp [hs]
  · rw [if_neg hw]
    simp [hw]

theorem digits_of_some {ds : List Char} {n : Nat} (h : digits_or_zero ds = some n)
    (hnumber : ∀ c ∈ ds, in_number c) : Digits ds := by
  unfold digits_or_zero at h
  split at h
  · rename_i hnil
    subst hnil
    simp [Digits]
  · have hplus : '+' ∉ ds := fun hmem => absurd (hnumber '+' hmem) (by decide)
    exact (parse_some h hplus).2.1

theorem digits_of_scaled {s whole fraction : List Char} {unit v : Nat}
    (h : scaled s whole fraction unit = .ok v) :
    (∃ w, digits_or_zero whole = some w) ∧ ∃ f, digits_or_zero fraction = some f := by
  unfold scaled at h
  split at h
  · cases h
  · rename_i w hw
    split at h
    · cases h
    · split at h
      · cases h
      · rename_i f hf
        exact ⟨⟨w, hw⟩, ⟨f, hf⟩⟩

/-- A text with a size is one that says something. -/
theorem reads_of_size_ok {s : List Char} {default v : Nat} (h : size s default = .ok v) :
    ∃ whole fraction unit, Reads s default whole fraction unit := by
  have hsplit := List.takeWhile_append_dropWhile (p := in_number) (l := s)
  have hnumber : ∀ c ∈ s.takeWhile in_number, in_number c := fun c hc => List.mem_takeWhile_imp hc
  unfold size at h
  split at h
  · cases h
  · rename_i unit hunit
    dsimp only at h
    generalize s.takeWhile in_number = head at hsplit hnumber h
    cases hcut : split_once (· == '.') head with
    | none =>
      rw [hcut] at h
      dsimp only [Option.getD] at h
      split at h
      · cases h
      · rename_i hsome
        obtain ⟨⟨w, hw⟩, -⟩ := digits_of_scaled h
        refine ⟨head, [], unit, digits_of_some hw hnumber, by simp [Digits], ?_, _, hunit,
          .inr ⟨hsplit.symm, rfl⟩⟩
        exact .inl fun hnil => hsome ⟨hnil, rfl⟩
    | some cut =>
      obtain ⟨whole, fraction⟩ := cut
      obtain ⟨c, rfl, hc, -⟩ := split_once_some hcut
      obtain rfl : c = '.' := eq_of_beq hc
      rw [hcut] at h
      dsimp only [Option.getD] at h
      split at h
      · cases h
      · rename_i hsome
        obtain ⟨⟨w, hw⟩, ⟨f, hf⟩⟩ := digits_of_scaled h
        refine ⟨whole, fraction, unit,
          digits_of_some hw fun c hc => hnumber c (List.mem_append_left _ hc),
          digits_of_some hf fun c hc => hnumber c (by simp [hc]), ?_, _, hunit, .inl hsplit.symm⟩
        by_contra hnone
        rw [not_or, not_not, not_not] at hnone
        exact hsome hnone

/-! ## The law -/

/-- The value found is the exact one when the scale is that of the fraction. -/
theorem exact_iff {whole fraction : List Char} {unit v : Nat} :
    (v : ℚ) = exact whole fraction unit ↔
      v * 10 ^ fraction.length = (number whole * 10 ^ fraction.length + number fraction) * unit := by
  unfold exact
  have hne : (10 : ℚ) ^ fraction.length ≠ 0 := by positivity
  rw [← @Nat.cast_inj ℚ]
  push_cast
  constructor
  · intro h
    rw [h]
    field_simp
  · intro h
    field_simp
    linarith

/-- A value that is right at the scale of fewer digits is not the exact one, unless the
fraction is zero. -/
theorem not_exact_of_fewer_digits {w f v unit scale more : Nat} (hf : 0 < f) (hunit : 0 < unit)
    (hmore : 1 < more) (hv : (w * scale + f) * unit = v * scale) :
    v * (scale * more) ≠ (w * (scale * more) + f) * unit := by
  intro hexact
  have hsum : w * (scale * more) * unit + f * unit * more = w * (scale * more) * unit + f * unit :=
    calc w * (scale * more) * unit + f * unit * more
        = (w * scale + f) * unit * more := by ring
      _ = v * scale * more := by rw [hv]
      _ = v * (scale * more) := by ring
      _ = (w * (scale * more) + f) * unit := hexact
      _ = w * (scale * more) * unit + f * unit := by ring
  have hone : f * unit * more = f * unit * 1 := by
    rw [mul_one]
    exact Nat.add_left_cancel hsum
  exact absurd (Nat.eq_of_mul_eq_mul_left (Nat.mul_pos hf hunit) hone) (by omega)

theorem Reads.unit_pos {s whole fraction : List Char} {default unit : Nat}
    (h : Reads s default whole fraction unit) (hdefault : 0 < default) : 0 < unit := by
  obtain ⟨suffix, hunit, -⟩ := h.text
  exact unit_of_pos hdefault hunit

/-- A text that is misread has a size, which is not its exact value. -/
theorem Reads.misread {s whole fraction : List Char} {default unit : Nat}
    (h : Reads s default whole fraction unit) (hdefault : 0 < default)
    (hmis : Misread whole fraction unit) :
    ∃ v, size s default = .ok v ∧ (v : ℚ) ≠ exact whole fraction unit := by
  obtain ⟨hlong, hf, hw, hf', hs, hvalue, hdvd, hmax⟩ := hmis
  have hunit := h.unit_pos hdefault
  obtain ⟨v, hv⟩ := hdvd
  rw [hv, Nat.mul_div_cancel_left _ (Nat.pow_pos (by decide))] at hmax
  rw [mul_comm _ v] at hv
  refine ⟨v, ?_, fun hexact => ?_⟩
  · rw [h.size_eq, scaled_ok_iff h.whole_digits h.fraction_digits hunit]
    exact ⟨⟨hw, hf', hs, hvalue⟩, hv, hmax⟩
  · have hsplit : 10 ^ fraction.length =
        10 ^ (fraction.length % 2 ^ 32) * 10 ^ (fraction.length - fraction.length % 2 ^ 32) := by
      rw [← pow_add]
      congr 1
      omega
    have hmore : 1 < 10 ^ (fraction.length - fraction.length % 2 ^ 32) :=
      Nat.one_lt_pow (by omega) (by decide)
    rw [exact_iff, hsplit] at hexact
    exact not_exact_of_fewer_digits hf hunit hmore hv hexact

/-- Any other text has the size it says or none. -/
theorem Reads.exact_of_ok {s whole fraction : List Char} {default unit v : Nat}
    (h : Reads s default whole fraction unit) (hdefault : 0 < default)
    (hmis : ¬ Misread whole fraction unit) (hv : size s default = .ok v) :
    (v : ℚ) = exact whole fraction unit ∧ v ≤ I64_MAX := by
  have hunit := h.unit_pos hdefault
  rw [h.size_eq, scaled_ok_iff h.whole_digits h.fraction_digits hunit] at hv
  obtain ⟨⟨hw, hf, hs, hvalue⟩, heq, hmax⟩ := hv
  refine ⟨exact_iff.mpr ?_, hmax⟩
  by_cases hlong : fraction.length < 2 ^ 32
  · rw [Nat.mod_eq_of_lt hlong] at heq
    exact heq.symm
  · have hzero : number fraction = 0 := by
      by_contra hne
      refine hmis ⟨by omega, by omega, hw, hf, hs, hvalue, ⟨v, by rw [heq, mul_comm]⟩, ?_⟩
      rw [heq, Nat.mul_div_cancel _ (Nat.pow_pos (by decide))]
      exact hmax
    rw [hzero, add_zero, mul_right_comm] at heq ⊢
    rw [Nat.eq_of_mul_eq_mul_right (Nat.pow_pos (by decide)) heq]

/-- Up to 18 fractional digits never leave the 128 bits. -/
theorem Reads.complete {s whole fraction : List Char} {default unit v : Nat}
    (h : Reads s default whole fraction unit) (hdefault : 0 < default)
    (hshort : fraction.length ≤ 18) (hv : (v : ℚ) = exact whole fraction unit)
    (hmax : v ≤ I64_MAX) : size s default = .ok v := by
  have hunit := h.unit_pos hdefault
  rw [exact_iff] at hv
  have hscale : 10 ^ fraction.length ≤ 10 ^ 18 := Nat.pow_le_pow_right (by decide) hshort
  have hone : 1 ≤ 10 ^ fraction.length := Nat.one_le_pow _ _ (by decide)
  rw [h.size_eq, scaled_ok_iff h.whole_digits h.fraction_digits hunit,
    Nat.mod_eq_of_lt (by omega)]
  generalize 10 ^ fraction.length = scale at *
  have hvalue : v * scale ≤ I64_MAX * 10 ^ 18 := Nat.mul_le_mul hmax hscale
  have hsum : number whole * scale + number fraction ≤
      (number whole * scale + number fraction) * unit := Nat.le_mul_of_pos_right _ hunit
  have hw : number whole ≤ number whole * scale := Nat.le_mul_of_pos_right _ hone
  unfold I64_MAX at *
  unfold U128
  refine ⟨⟨by omega, by omega, by omega, by omega⟩, hv.symm, hmax⟩

/-- A size is the exact value of the text, and found for every value in range of a text
with up to 18 fractional digits, exactly when the text's fraction is not misread. -/
theorem size_is_exact_iff_the_fraction_is_not_misread (s : List Char) (default : Nat)
    (hdefault : 0 < default) :
    Sized s default ↔
      ∀ whole fraction unit, Reads s default whole fraction unit → ¬ Misread whole fraction unit := by
  constructor
  · intro hsized whole fraction unit hreads hmis
    obtain ⟨v, hv, hne⟩ := hreads.misread hdefault hmis
    obtain ⟨whole', fraction', unit', hreads', hexact, -⟩ := hsized.1 v hv
    obtain ⟨rfl, rfl, rfl⟩ := hreads.unique hreads'
    exact hne hexact
  · intro hmis
    refine ⟨fun v hv => ?_, fun whole fraction unit v hreads hshort hv hmax =>
      hreads.complete hdefault hshort hv hmax⟩
    obtain ⟨whole, fraction, unit, hreads⟩ := reads_of_size_ok hv
    exact ⟨whole, fraction, unit, hreads,
      hreads.exact_of_ok hdefault (hmis whole fraction unit hreads) hv⟩

/-! ## Two texts -/

theorem reads_kilo (whole fraction : List Char) (hwhole : Digits whole) (hfraction : Digits fraction)
    (hsome : whole ≠ []) : Reads (whole ++ '.' :: fraction ++ ['k']) 1 whole fraction 1000 :=
  ⟨hwhole, hfraction, .inl hsome, ['k'], rfl, .inl rfl⟩

theorem number_zeros_five (zeros : Nat) : number (List.replicate zeros '0' ++ ['5']) = 5 := by
  unfold number
  rw [Nat.ofDigitChars_append, Nat.ofDigitChars_replicate_zero, Nat.mul_zero]
  rfl

theorem digits_zeros_five (zeros : Nat) : Digits (List.replicate zeros '0' ++ ['5']) := by
  intro c hc
  rcases List.mem_append.mp hc with hc | hc
  · rw [List.eq_of_mem_replicate hc]
    decide
  · rw [List.mem_singleton.mp hc]
    decide

/-- A fraction of 2^32 zeros and a five is taken for one of a single digit. -/
theorem zeros_five_misread {zeros : Nat} (hzeros : zeros = 2 ^ 32) :
    Misread ['0'] (List.replicate zeros '0' ++ ['5']) 1000 := by
  have hlen : (List.replicate zeros '0' ++ ['5']).length = 2 ^ 32 + 1 := by
    rw [List.length_append, List.length_replicate, hzeros]
    rfl
  have hone : (2 ^ 32 + 1) % 2 ^ 32 = 1 := by decide
  have hwhole : number ['0'] = 0 := rfl
  unfold Misread
  dsimp only
  rw [hlen, hone, number_zeros_five, hwhole]
  decide

/-- The text 0.0..05k with 2^32 zeros after the point has a size, 500, and is worth far
less than one. -/
theorem a_fraction_of_more_than_32_bits_of_digits_is_misread :
    (∃ zeros, zeros = 2 ^ 32 ∧
      size (['0'] ++ '.' :: (List.replicate zeros '0' ++ ['5']) ++ ['k']) 1 = .ok 500) ∧
    ¬ ∀ (s : List Char) (default : Nat), 0 < default → Sized s default := by
  obtain ⟨zeros, hzeros⟩ : ∃ zeros, zeros = 2 ^ 32 := ⟨_, rfl⟩
  have hreads := reads_kilo ['0'] _ (by decide) (digits_zeros_five zeros) (by decide)
  have hmis := zeros_five_misread hzeros
  refine ⟨⟨zeros, hzeros, ?_⟩, fun hclaim => ?_⟩
  · have hlen : (List.replicate zeros '0' ++ ['5']).length % 2 ^ 32 = 1 := by
      rw [List.length_append, List.length_replicate, hzeros]
      rfl
    have hwhole : number ['0'] = 0 := rfl
    rw [hreads.size_eq, scaled_ok_iff hreads.whole_digits hreads.fraction_digits (by decide), hlen,
      number_zeros_five, hwhole]
    decide
  · obtain ⟨v, hv, hne⟩ := hreads.misread (by decide) hmis
    obtain ⟨whole, fraction, unit, hreads', hexact, -⟩ := (hclaim _ 1 (by decide)).1 v hv
    obtain ⟨rfl, rfl, rfl⟩ := hreads.unique hreads'
    exact hne hexact

/-- A size with a fraction. -/
theorem size_of_one_and_a_half_kilo : Sized ['1', '.', '5', 'k'] 1 := by
  have hreads : Reads ['1', '.', '5', 'k'] 1 ['1'] ['5'] 1000 :=
    reads_kilo ['1'] ['5'] (by decide) (by decide) (by decide)
  refine (size_is_exact_iff_the_fraction_is_not_misread _ 1 (by decide)).mpr
    fun whole fraction unit h hmis => ?_
  obtain ⟨rfl, rfl, rfl⟩ := hreads.unique h
  exact absurd hmis.1 (by decide)

end stutools.cli
