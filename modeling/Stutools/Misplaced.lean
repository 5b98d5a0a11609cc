-- Misplaced data is found: two sectors of the pattern that differ in their
-- address or in their seed differ in a byte, so a check refuses a sector that
-- was read from another address or written with another seed.
import Stutools.Payloads
import Stutools.Words

namespace stutools

namespace pattern

/-! ## Words of the pattern -/

theorem le_eq_map (w n : Nat) :
    bytes.le w n = (List.range w).map fun i => UInt8.ofNat (n / 256 ^ i) := by
  induction w generalizing n with
  | zero => rfl
  | succ w ih =>
    rw [bytes.le, ih, List.range_succ_eq_map, List.map_cons, List.map_map]
    simp [Function.comp_def, Nat.pow_succ', Nat.div_div_eq_div_mul]

theorem to_le_bytes_eq (x : UInt64) : to_le_bytes x = bytes.le 8 x.toNat := by
  rw [to_le_bytes, le_eq_map]
  apply List.map_congr_left
  intro i hi
  have hi8 : i < 8 := List.mem_range.mp hi
  apply UInt8.toNat_inj.mp
  have hshift : (8 * i).toUInt64.toNat % 64 = 8 * i := by
    simp only [Nat.toUInt64, UInt64.toNat_ofNat']
    omega
  rw [UInt64.toNat_toUInt8, UInt64.toNat_shiftRight, hshift, Nat.shiftRight_eq_div_pow,
    UInt8.toNat_ofNat', Nat.pow_mul]

theorem to_le_bytes_injective : Function.Injective to_le_bytes := by
  intro x y h
  rw [to_le_bytes_eq, to_le_bytes_eq] at h
  have hnat := congrArg bytes.of_le h
  rw [bytes.of_le_le_of_lt (UInt64.toNat_lt x), bytes.of_le_le_of_lt (UInt64.toNat_lt y)] at hnat
  exact UInt64.toNat_inj.mp hnat

/-- `mix` is injective: each of its steps is. -/
theorem mix_injective : Function.Injective mix := by
  intro x y h
  have h1 := words.xorshift_injective (k := 31) (by decide) h
  have h2 := words.mul_injective (c := 0x94d049bb133111eb) (d := 0x319642b2d24d8ec3) (by decide) h1
  have h3 := words.xorshift_injective (k := 27) (by decide) h2
  have h4 := words.mul_injective (c := 0xbf58476d1ce4e5b9) (d := 0x96de1b173f119089) (by decide) h3
  exact words.xorshift_injective (k := 30) (by decide) h4

theorem golden_injective : Function.Injective fun seed : UInt64 => seed * GOLDEN :=
  words.mul_injective (c := GOLDEN) (d := 0xf1de83e19937733d) (by decide)

/-- Equal extents have equal words. -/
theorem word_eq_of_bytes {offset offset' : Nat} {seed seed' : UInt64} {len : Nat}
    (h : bytes_of offset len seed = bytes_of offset' len seed') {i : Nat} (hi : i + 8 ≤ len)
    (ho : (offset + i) % 8 = 0) (ho' : (offset' + i) % 8 = 0) :
    word (offset + i) seed = word (offset' + i) seed' := by
  apply List.ext_getElem (by simp)
  intro j h1 h2
  simp only [word_length] at h1
  have hbyte := congrArg (fun l : List UInt8 => l.getD (i + j) 0) h
  simp only [bytes_of] at hbyte
  rw [List.getD_eq_getElem _ _ (by simp; omega), List.getD_eq_getElem _ _ (by simp; omega)] at hbyte
  simp only [List.getElem_map, List.getElem_range] at hbyte
  rw [← Nat.add_assoc, ← Nat.add_assoc, byte_at_of_word _ _ _ ho h1, byte_at_of_word _ _ _ ho' h1,
    List.getD_eq_getElem _ _ (by simpa using h1), List.getD_eq_getElem _ _ (by simpa using h1)] at hbyte
  exact hbyte

/-! ## Sectors of the pattern -/

theorem xor_eq_of_xor_eq {x y a b : UInt64} (h : x ^^^ a = y ^^^ b) : x ^^^ y = a ^^^ b := by
  calc x ^^^ y = (x ^^^ a) ^^^ a ^^^ y := by
        rw [UInt64.xor_assoc x a a, UInt64.xor_self, UInt64.xor_zero]
    _ = a ^^^ b := by
        rw [h, UInt64.xor_comm (y ^^^ b ^^^ a) y, UInt64.xor_assoc y b a, ← UInt64.xor_assoc y y,
          UInt64.xor_self, UInt64.zero_xor, UInt64.xor_comm]

/-- The head of a sector says its address, and its second word the place of the
sector in the 4 KiB pattern: together they tell the address and the seed. -/
theorem sector_injective {offset offset' : Nat} {seed seed' : UInt64} (ho : offset % 512 = 0)
    (ho' : offset' % 512 = 0) (hlt : offset < 2 ^ 64) (hlt' : offset' < 2 ^ 64)
    (h : bytes_of offset 512 seed = bytes_of offset' 512 seed') :
    offset = offset' ∧ seed = seed' := by
  have hhead := word_eq_of_bytes (i := 0) h (by decide) (by omega) (by omega)
  have hbody := word_eq_of_bytes (i := 8) h (by decide) (by omega) (by omega)
  simp only [word, Nat.add_zero, ho, ho', if_true] at hhead
  rw [word, if_neg (by omega), word, if_neg (by omega)] at hbody
  have h1 := xor_eq_of_xor_eq (to_le_bytes_injective hhead)
  have h2 := xor_eq_of_xor_eq (mix_injective (to_le_bytes_injective hbody))
  -- the address has no bit below 512, and the place in the pattern none above
  have hnat : offset ^^^ offset' = ((offset + 8) % 4096 / 8) ^^^ ((offset' + 8) % 4096 / 8) := by
    have hplace : (offset + 8) % 4096 / 8 < 2 ^ 64 := by omega
    have hplace' : (offset' + 8) % 4096 / 8 < 2 ^ 64 := by omega
    have hxor := congrArg UInt64.toNat (h1.trans h2.symm)
    rwa [UInt64.toNat_xor, UInt64.toNat_xor, UInt64.toNat_ofNat_of_lt' hlt,
      UInt64.toNat_ofNat_of_lt' hlt', UInt64.toNat_ofNat_of_lt' hplace,
      UInt64.toNat_ofNat_of_lt' hplace'] at hxor
  have hsmall : offset ^^^ offset' < 2 ^ 9 := by
    rw [hnat]
    exact Nat.xor_lt_two_pow (by omega) (by omega)
  have hmod : (offset ^^^ offset') % 2 ^ 9 = 0 := by
    rw [Nat.xor_mod_two_pow, show 2 ^ 9 = 512 from rfl, ho, ho']
    rfl
  have hsame : offset = offset' := by
    have hzero : offset ^^^ offset' = 0 := by omega
    calc offset = offset ^^^ (offset' ^^^ offset') := by rw [Nat.xor_self, Nat.xor_zero]
      _ = offset' := by rw [← Nat.xor_assoc, hzero, Nat.zero_xor]
  subst hsame
  rw [UInt64.xor_self] at h1
  exact ⟨rfl, golden_injective (UInt64.xor_eq_zero_iff.mp h1.symm)⟩

end pattern

open pattern in
/-- The sectors that `fill` writes for two pairs of address and seed are not the
same, and a check for one pair refuses the sector of the other. -/
theorem a_misplaced_sector_is_refused {offset offset' : Nat} {seed seed' : UInt64}
    (ho : offset % 512 = 0) (ho' : offset' % 512 = 0) (hlt : offset < 2 ^ 64)
    (hlt' : offset' < 2 ^ 64) (hne : offset ≠ offset' ∨ seed ≠ seed') :
    (∀ buf buf' : List UInt8, buf.length = 512 → buf'.length = 512 →
      fill buf offset seed ≠ fill buf' offset' seed') ∧
    ∀ (buf : List UInt8) (r : Request) (work : Workload) (own : UInt64), buf.length = 512 →
      r.offset = offset' → payload_seed r work own = seed' →
      check_pattern (fill buf offset seed) r work own (fill (List.replicate 4096 0) 0 own) = false := by
  have hdiffer : bytes_of offset 512 seed ≠ bytes_of offset' 512 seed' := by
    intro h
    obtain ⟨h1, h2⟩ := sector_injective ho ho' hlt hlt' h
    exact hne.elim (fun hc => hc h1) (fun hc => hc h2)
  refine ⟨fun buf buf' hb hb' => ?_, fun buf r work own hb hr hs => ?_⟩
  · rw [fill.spec, fill.spec, hb, hb']
    exact hdiffer
  · rw [Bool.eq_false_iff, fill.spec, hb]
    intro hc
    apply hdiffer
    rw [← hr, ← hs]
    unfold check_pattern at hc
    split_ifs at hc with hu
    · rw [matches.spec, bytes_of_length] at hc
      rw [payload_seed, if_pos hu]
      exact hc
    · rw [Run.fill_template, matches_cached.spec, bytes_of_length] at hc
      rw [payload_seed, if_neg hu]
      exact hc

/-- The sector of address 0 is refused at address 512. -/
theorem a_sector_of_another_address_is_refused :
    check_pattern (pattern.fill (List.replicate 512 0) 0 7)
      { Request.default with offset := 512, len := 512 } {} 7
      (pattern.fill (List.replicate 4096 0) 0 7) = false :=
  (a_misplaced_sector_is_refused (by decide) (by decide) (by decide) (by decide)
    (.inl (by decide : (0 : Nat) ≠ 512))).2 (List.replicate 512 0)
    { Request.default with offset := 512, len := 512 } {} 7 List.length_replicate rfl rfl

end stutools
