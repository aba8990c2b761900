import Tikv.Codec.Mysql.DecimalRoundSpec
import Tikv.Codec.Mysql.DecimalCmp

/-!
# `round`, `ceil` and `floor` of a well-formed decimal

`round_with_word_buf_len` caps the scale at `MAX_FRACTION` and reads it in
words (`scaleWords`). Then it takes one of five paths: a scale whose words
reach past the buffer is cut to the words left and tagged `Truncated`; a scale
left of every integer digit gives zero; a scale with more fraction words than
the decimal appends zero words; a scale at or past the last fraction digit
changes only the counts; and any other scale is rounded by `handle_incr`.

Results:
* `scaleWords_spec`: the scale's words against the scale;
* `round_of_truncated`, `round_of_lt`, `round_of_kept`: one lemma per path,
  the last through `handleIncr_spec`;
* `round_spec`: `round` of a well-formed decimal rounds its value at the
  capped scale, with `Overflow` exactly past 81 integer digits, no negative
  zero, and `Truncated` only where the buffer fills;
* `round_zero_spec`: rounding to an integer is always `Ok`;
* `ceil_spec`, `floor_spec`: `ceil` and `floor` are the ceiling and the floor
  of the value, always `Ok`.
-/
namespace Tikv.Codec.Mysql

open Rounding

/-- A length that fits the buffer, against its words. -/
theorem wordCnt_bounds {len : Nat} (h : wordCnt len ≤ WORD_BUF_LEN) :
    len ≤ DIGITS_PER_WORD * wordCnt len ∧ DIGITS_PER_WORD * wordCnt len < len + DIGITS_PER_WORD := by
  unfold wordCnt DIGITS_PER_WORD WORD_BUF_LEN at *
  split_ifs at * <;> omega

/-- Rust's `/` on signed integers: the magnitude divided down, the sign put back. -/
theorem tdiv_eq_ite (x b : ℤ) : x.tdiv b = if 0 ≤ x then x / b else -((-x) / b) := by
  split_ifs with hx
  · exact Int.tdiv_eq_ediv_of_nonneg hx
  · rw [← Int.tdiv_eq_ediv_of_nonneg (by omega), Int.neg_tdiv, neg_neg]

/-- A scale against its words: `9 * frac_words_to` is the scale rounded up to
a word boundary, one digit further for a negative scale; the fraction words
of a positive scale are those of its digits. -/
theorem scaleWords_spec {frac : ℤ} (hfrac : frac ≤ MAX_FRACTION) :
    frac ≤ scaleWords frac * DIGITS_PER_WORD ∧ scaleWords frac * DIGITS_PER_WORD ≤ frac + DIGITS_PER_WORD ∧
      (0 < frac → scaleWords frac * DIGITS_PER_WORD < frac + DIGITS_PER_WORD) ∧
      (frac < 0 → frac < scaleWords frac * DIGITS_PER_WORD) ∧ (frac ≤ 0 → scaleWords frac ≤ 0) ∧
      wordCnt (max 0 frac).toNat = (max 0 (scaleWords frac)).toNat := by
  unfold scaleWords
  split_ifs with hpos
  · -- `word_cnt!` rounds a positive scale up
    unfold wordCnt DIGITS_PER_WORD WORD_BUF_LEN MAX_FRACTION at *
    split_ifs <;> omega
  · rw [tdiv_eq_ite]
    unfold wordCnt DIGITS_PER_WORD WORD_BUF_LEN at *
    split_ifs <;> omega

theorem RoundMode.toMode_ne_awayFromZero {mode : RoundMode} (h : mode ≠ .ceiling) : mode.toMode ≠ .awayFromZero := by
  cases mode <;> simp_all [RoundMode.toMode]

namespace Decimal

theorem zero_value : zero.value = 0 := by
  have hm : zero.mantissa = 0 := by decide
  simp [Decimal.value, hm]

namespace WellFormed

variable {d : Decimal}

/-- The integer digits fit the words the fraction leaves. -/
theorem intCnt_le (hd : d.WellFormed) : d.intCnt ≤ DIGITS_PER_WORD * (WORD_BUF_LEN - wordCnt d.fracCnt) := by
  have hfits := hd.fits
  have := (wordCnt_bounds (show wordCnt d.intCnt ≤ WORD_BUF_LEN by omega)).1
  unfold DIGITS_PER_WORD WORD_BUF_LEN at *
  omega

theorem abs_value_lt (hd : d.WellFormed) : |d.value| < 10 ^ d.intCnt := by
  have hB : (0 : ℚ) < (WORD_BASE : ℚ) ^ wordCnt d.fracCnt := pow_pos (by norm_num [WORD_BASE]) _
  have hm : (d.mantissa : ℚ) < 10 ^ d.intCnt * (WORD_BASE : ℚ) ^ wordCnt d.fracCnt := by
    exact_mod_cast hd.intDigits
  rw [Decimal.value, abs_div, abs_of_pos hB, div_lt_iff₀ hB, abs_mul]
  split_ifs <;> simpa using hm

/-- A scale with room for every fraction digit leaves the value as it is. -/
theorem roundAt_value_of_le (hd : d.WellFormed) (mode : Mode) {frac : ℤ} (hle : (d.fracCnt : ℤ) ≤ frac) :
    roundAt mode d.value frac = d.value := by
  have hc := (wordCnt_bounds (show wordCnt d.fracCnt ≤ WORD_BUF_LEN by have := hd.fits; omega)).1
  obtain ⟨m', hm'⟩ := hd.fracDigits
  apply roundAt_eq_self mode (z := (if d.negative then -1 else 1) * m' * 10 ^ (frac - d.fracCnt).toNat)
  -- the dropped zeros and the scale, as powers of ten
  have hpow : (10 : ℚ) ^ (DIGITS_PER_WORD * wordCnt d.fracCnt - d.fracCnt) * 10 ^ frac =
      10 ^ (DIGITS_PER_WORD * wordCnt d.fracCnt) * 10 ^ (frac - d.fracCnt).toNat := by
    rw [← zpow_natCast, ← zpow_natCast, ← zpow_natCast, ← zpow_add₀ (by norm_num), ← zpow_add₀ (by norm_num)]
    congr 1
    push_cast
    omega
  have h10 : (0 : ℚ) < 10 ^ (DIGITS_PER_WORD * wordCnt d.fracCnt) := by positivity
  rw [Decimal.value, hm', ← Nat.cast_pow, WORD_BASE_pow]
  push_cast
  calc _ = (if d.negative then -1 else 1) * (m' : ℚ) *
        ((10 : ℚ) ^ (DIGITS_PER_WORD * wordCnt d.fracCnt - d.fracCnt) * 10 ^ frac) /
          10 ^ (DIGITS_PER_WORD * wordCnt d.fracCnt) := by ring
    _ = _ := by
      rw [hpow]
      field_simp

/-- A scale left of every integer digit rounds to zero, toward zero or half away from it. -/
theorem roundAt_value_of_lt (hd : d.WellFormed) {mode : Mode} (hmode : mode ≠ .awayFromZero) {frac : ℤ}
    (hlt : (d.intCnt : ℤ) + frac < 0) : roundAt mode d.value frac = 0 := by
  have hsmall : |d.value * 10 ^ frac| < 1 / 2 := by
    rw [abs_mul, abs_of_pos (by positivity : (0 : ℚ) < 10 ^ frac)]
    calc |d.value| * 10 ^ frac < 10 ^ d.intCnt * 10 ^ frac := by
          gcongr
          exact hd.abs_value_lt
      _ = 10 ^ ((d.intCnt : ℤ) + frac) := by rw [zpow_add₀ (by norm_num), zpow_natCast]
      _ ≤ 10 ^ (-1 : ℤ) := zpow_le_zpow_right₀ (by norm_num) (by omega)
      _ < 1 / 2 := by norm_num
  rw [roundAt, roundInt_eq_zero hmode hsmall]
  simp

/-- The value against the words the fraction leaves. -/
theorem abs_value_lt_pow (hd : d.WellFormed) :
    |d.value| < 10 ^ (DIGITS_PER_WORD * (WORD_BUF_LEN - wordCnt d.fracCnt)) :=
  hd.abs_value_lt.trans_le (pow_le_pow_right₀ (by norm_num) hd.intCnt_le)

/-- Rounding at scale zero keeps a well-formed decimal's integer part within
the buffer. -/
theorem abs_roundInt_value_lt (hd : d.WellFormed) (mode : Mode) :
    |(roundInt mode d.value : ℚ)| < 10 ^ (DIGITS_PER_WORD * WORD_BUF_LEN) := by
  have hx := hd.abs_value_lt_pow
  rcases Nat.eq_zero_or_pos d.fracCnt with h0 | hpos
  · -- an integer: rounding keeps it
    have hr : roundAt mode d.value 0 = d.value := hd.roundAt_value_of_le mode (by simp [h0])
    rw [roundAt, zpow_zero, mul_one, div_one] at hr
    rw [hr]
    have hw : wordCnt d.fracCnt = 0 := by rw [h0]; decide
    simpa [hw] using hx
  · -- a fraction word leaves at most eight integer words
    have hF : 1 ≤ wordCnt d.fracCnt := by
      unfold wordCnt DIGITS_PER_WORD WORD_BUF_LEN
      split_ifs <;> omega
    calc |(roundInt mode d.value : ℚ)| < |d.value| + 1 := abs_roundInt_lt mode _
      _ ≤ 10 ^ (DIGITS_PER_WORD * (WORD_BUF_LEN - 1)) + 1 := by
          gcongr
          exact hx.le.trans (pow_le_pow_right₀ (by norm_num) (Nat.mul_le_mul_left _ (by omega)))
      _ ≤ 10 ^ (DIGITS_PER_WORD * WORD_BUF_LEN) := by norm_num [DIGITS_PER_WORD, WORD_BUF_LEN]

end WellFormed

end Decimal

/-- Zero fraction words appended, or `int_cnt` moved within its words, leave
the value as it is. -/
theorem value_eq_of_extend {d e : Decimal} (I F F' : Nat) (hI : wordCnt e.intCnt = I) (hId : wordCnt d.intCnt = I)
    (hF : wordCnt d.fracCnt = F) (hF' : wordCnt e.fracCnt = F') (hFF : F ≤ F') (hneg : e.negative = d.negative)
    (hlen : I + F' ≤ e.wordBuf.length) (htake : e.wordBuf.take (I + F) = d.wordBuf.take (I + F))
    (hz : ∀ i, I + F ≤ i → i < I + F' → e.wordBuf[i]? = some 0) : e.value = d.value := by
  have hm : e.mantissa = d.mantissa * WORD_BASE ^ (F' - F) := by
    rw [Decimal.mantissa, Decimal.words, hI, hF', List.valBE_take_of_zero (by omega) hlen hz, htake,
      show I + F' - (I + F) = F' - F by omega, Decimal.mantissa, Decimal.words, hId, hF]
  have hB : (WORD_BASE : ℚ) ≠ 0 := by norm_num [WORD_BASE]
  rw [Decimal.value, Decimal.value, hm, hF', hF, hneg]
  push_cast
  rw [show F' = F + (F' - F) by omega, pow_add, Nat.add_sub_cancel_left]
  field_simp

/-- A result with the decimal's own value, read as the rounding at a scale that
keeps every digit. -/
theorem roundOut_of_value {d : Decimal} (hd : d.WellFormed) {dec r : Res Decimal} {full : Prop}
    (hover : r.isOverflow = false) (hval : r.unwrap.value = d.value) (hneg : r.unwrap.negative = d.negative)
    (htr : r.isTruncated = true → dec.isTruncated = true ∨ full) : RoundOut dec r d.value full := by
  have hsmall : |d.value| < (10 : ℚ) ^ (DIGITS_PER_WORD * WORD_BUF_LEN) :=
    hd.abs_value_lt_pow.trans_le (pow_le_pow_right₀ (by norm_num) (Nat.mul_le_mul_left _ (Nat.sub_le _ _)))
  refine ⟨?_, fun _ => hval, fun h => ?_, htr⟩
  · rw [hover]
    simp only [Bool.false_eq_true, false_iff, not_le]
    exact hsmall
  · exact Decimal.value_neg hd (hneg ▸ h)

/-- A weaker tag condition, or another input with the same tag. -/
theorem RoundOut.mono {dec dec' r : Res Decimal} {x : ℚ} {full full' : Prop} (h : RoundOut dec r x full)
    (hdec : dec.isTruncated = true → dec'.isTruncated = true ∨ full') (hfull : full → full') :
    RoundOut dec' r x full' :=
  ⟨h.overflow, h.value, h.negative, fun ht => (h.truncated ht).elim hdec (fun hf => .inr (hfull hf))⟩

section RoundPaths

variable {d : Decimal} {frac : ℤ} {mode : RoundMode}

theorem wordCnt_min_mul {I : Nat} (hI : I ≤ WORD_BUF_LEN) : wordCnt (min I WORD_BUF_LEN * DIGITS_PER_WORD) = I := by
  rw [Nat.min_eq_left hI, Nat.mul_comm, wordCnt_mul I hI]

/-- The words left by the integer words, as a scale. -/
theorem wordCnt_wordsLeft {I : Nat} (h : I ≤ WORD_BUF_LEN) :
    wordCnt (((WORD_BUF_LEN : ℤ) - I) * DIGITS_PER_WORD).toNat = ((WORD_BUF_LEN : ℤ) - I).toNat := by
  unfold wordCnt DIGITS_PER_WORD WORD_BUF_LEN at *
  split_ifs <;> omega

/-- A scale with more fraction words than the decimal: zero words appended,
the value kept. -/
theorem extend_spec (hd : d.WellFormed) (res : Res Decimal) (fwt' frac' : ℤ) (hres : res.unwrap = d)
    (hover : res.isOverflow = false) (hgt : (wordCnt d.fracCnt : ℤ) < fwt') (hfit : (wordCnt d.intCnt : ℤ) + fwt' ≤ WORD_BUF_LEN)
    (hfw : wordCnt frac'.toNat = fwt'.toNat) :
    ∃ r, ((res.map fun e : Decimal => { e with intCnt := min (wordCnt d.intCnt) WORD_BUF_LEN * DIGITS_PER_WORD }).mapM
        (·.zeroWordsAt (wordCnt d.intCnt + wordCnt d.fracCnt) (fwt'.toNat - wordCnt d.fracCnt))).bind
        (fun res => pure (res.map (·.withFracCnt frac'.toNat))) = some r ∧
      r.isOverflow = false ∧ r.isTruncated = res.isTruncated ∧ r.unwrap.value = d.value ∧
        r.unwrap.negative = d.negative := by
  have hfits := hd.fits
  have hlen : (wordCnt d.intCnt + wordCnt d.fracCnt) + (fwt'.toNat - wordCnt d.fracCnt) ≤
      (res.map fun e : Decimal => { e with intCnt := min (wordCnt d.intCnt) WORD_BUF_LEN * DIGITS_PER_WORD }).unwrap.wordBuf.length := by
    rw [Res.unwrap_map, hres]
    show _ ≤ d.wordBuf.length
    rw [hd.length]
    omega
  rw [mapM_zeroWordsAt hlen]
  refine ⟨_, rfl, by simp [hover], by simp, ?_, by simp [hres]⟩
  simp only [Res.unwrap_map, hres]
  refine value_eq_of_extend _ (wordCnt d.fracCnt) fwt'.toNat
    (wordCnt_min_mul (by omega)) rfl rfl hfw (by omega) rfl ?_ ?_ ?_
  · simp only [Decimal.withFracCnt, List.length_append, List.length_take, List.length_replicate, List.length_drop,
      hd.length]
    omega
  · simp only [Decimal.withFracCnt]
    rw [List.append_assoc, List.take_append_of_le_length (by simp [hd.length]; omega), List.take_take,
      Nat.min_self]
  · intro i hi1 hi2
    simp only [Decimal.withFracCnt]
    rw [List.getElem?_take_append_replicate_drop 0 (by rw [hd.length]; omega), if_pos ⟨hi1, by omega⟩]

/-- A scale at or past the decimal's fraction digits, in as many words: only
the counts change. -/
theorem keep_spec (hd : d.WellFormed) (res : Res Decimal) (frac' : ℤ) (hres : res.unwrap = d)
    (hover : res.isOverflow = false) (hw : wordCnt frac'.toNat = wordCnt d.fracCnt) :
    ∃ r, (pure ((res.map fun e : Decimal => { e with intCnt := min (wordCnt d.intCnt) WORD_BUF_LEN * DIGITS_PER_WORD }).map
        (·.withFracCnt frac'.toNat)) : Option (Res Decimal)) = some r ∧
      r.isOverflow = false ∧ r.isTruncated = res.isTruncated ∧ r.unwrap.value = d.value ∧
        r.unwrap.negative = d.negative := by
  have hfits := hd.fits
  refine ⟨_, rfl, by simp [hover], by simp, ?_, by simp [hres]⟩
  simp only [Res.unwrap_map, hres]
  refine value_eq_of_extend _ (wordCnt d.fracCnt) (wordCnt d.fracCnt)
    (wordCnt_min_mul (by omega)) rfl rfl hw le_rfl rfl ?_ rfl (fun i h1 h2 => absurd h2 (by omega))
  simp only [Decimal.withFracCnt_wordBuf, hd.length]
  exact hfits

/-- A scale left of every integer digit: the result is zero. -/
theorem round_of_lt (hfrac : frac ≤ MAX_FRACTION)
    (hT : ¬(WORD_BUF_LEN : ℤ) < wordCnt d.intCnt + scaleWords frac) (hlt : (d.intCnt : ℤ) + frac < 0) :
    d.round frac mode = some (.ok Decimal.zero) := by
  simp only [Decimal.round, Decimal.roundWithWordBufLen, min_eq_left hfrac, if_neg (mt gt_iff_lt.mp hT), if_pos hlt]

/-- A scale inside the buffer and right of the first digit: extended, kept, or
rounded by `handle_incr`. -/
theorem round_of_kept (hd : d.WellFormed) (hfrac : frac ≤ MAX_FRACTION)
    (hT : ¬(WORD_BUF_LEN : ℤ) < wordCnt d.intCnt + scaleWords frac) (hlt : ¬(d.intCnt : ℤ) + frac < 0)
    (hmode : mode = .ceiling → 0 ≤ frac ∧ (DIGITS_PER_WORD : ℤ) ∣ frac) :
    ∃ r, d.round frac mode = some r ∧ RoundOut (.ok d) r (roundAt mode.toMode d.value frac)
      ((WORD_BUF_LEN : ℤ) ≤ wordCnt d.intCnt + scaleWords frac ∧ frac < d.fracCnt) := by
  obtain ⟨h1, h2, h3, h4, h5, h6⟩ := scaleWords_spec hfrac
  have hfits := hd.fits
  have hcI := wordCnt_bounds (show wordCnt d.intCnt ≤ WORD_BUF_LEN by omega)
  have hcF := wordCnt_bounds (show wordCnt d.fracCnt ≤ WORD_BUF_LEN by omega)
  simp only [Decimal.round, Decimal.roundWithWordBufLen, min_eq_left hfrac, if_neg (mt gt_iff_lt.mp hT),
    if_neg hlt, Res.unwrap_map, Res.unwrap_ok]
  split_ifs with hext hge
  · -- more scale words than fraction words: every digit stays
    have hpos : 0 < frac := by unfold DIGITS_PER_WORD at *; omega
    obtain ⟨r, hr, ho, ht, hv, hn⟩ := extend_spec hd (.ok d) _ frac rfl rfl (gt_iff_lt.mp hext) (by omega)
      (by simpa [max_eq_right hpos.le, max_eq_right (show 0 ≤ scaleWords frac by omega)] using h6)
    rw [hd.roundAt_value_of_le _ (by unfold DIGITS_PER_WORD WORD_BUF_LEN at *; omega)]
    exact ⟨r, hr, roundOut_of_value hd ho hv hn (fun h => .inl (ht ▸ h))⟩
  · obtain ⟨r, hr, ho, ht, hv, hn⟩ := keep_spec hd (.ok d) frac rfl rfl
      (by unfold wordCnt DIGITS_PER_WORD WORD_BUF_LEN at *; split_ifs at * <;> omega)
    rw [hd.roundAt_value_of_le _ hge]
    exact ⟨r, hr, roundOut_of_value hd ho hv hn (fun h => .inl (ht ▸ h))⟩
  · -- digits dropped: the integer count moved to its word boundary, then rounded
    have hready : IncrReady ((Res.ok d).map fun e : Decimal =>
        { e with intCnt := min (wordCnt d.intCnt) WORD_BUF_LEN * DIGITS_PER_WORD })
        (wordCnt d.intCnt) (wordCnt d.fracCnt) (scaleWords frac) frac := by
      refine ⟨by simpa using hd.length, rfl, by simpa using hd.word_lt, ?_, rfl, hfits, h6, ?_, by omega,
        ⟨h1, h2⟩, ?_, ?_, ?_⟩
      · simp only [Res.unwrap_map, Res.unwrap_ok]
        rw [Nat.min_eq_left (by omega), Nat.mul_comm]
      all_goals unfold DIGITS_PER_WORD WORD_BUF_LEN MAX_FRACTION at *; omega
    have hval : ((Res.ok d).map fun e : Decimal =>
        { e with intCnt := min (wordCnt d.intCnt) WORD_BUF_LEN * DIGITS_PER_WORD }).unwrap.value = d.value :=
      value_eq_of_extend _ (wordCnt d.fracCnt) (wordCnt d.fracCnt) (wordCnt_min_mul (by omega)) rfl rfl rfl le_rfl
        rfl (by simpa [hd.length] using hfits) rfl (fun i h1 h2 => absurd h2 (by omega))
    obtain ⟨r, hr, hout⟩ := handleIncr_spec hready (fun hc => by
      have := hmode hc
      unfold DIGITS_PER_WORD at *
      omega)
    rw [hval] at hout
    exact ⟨r, hr, hout.mono (fun h => .inl (by simpa using h)) (fun h => ⟨h, by simpa using hge⟩)⟩

/-- The integer and fraction words of the scale exceed the buffer: the scale is
cut to the words left and the result is `Truncated`, with every digit kept. -/
theorem round_of_truncated (hd : d.WellFormed) (hfrac : frac ≤ MAX_FRACTION)
    (hT : (WORD_BUF_LEN : ℤ) < wordCnt d.intCnt + scaleWords frac) :
    ∃ r, d.round frac mode = some r ∧ RoundOut (.ok d) r (roundAt mode.toMode d.value frac)
      ((WORD_BUF_LEN : ℤ) < wordCnt d.intCnt + scaleWords frac) := by
  obtain ⟨h1, h2, h3, h4, h5, h6⟩ := scaleWords_spec hfrac
  have hfits := hd.fits
  have hc := (wordCnt_bounds (show wordCnt d.fracCnt ≤ WORD_BUF_LEN by omega)).1
  rw [hd.roundAt_value_of_le _ (by unfold DIGITS_PER_WORD WORD_BUF_LEN at *; omega)]
  simp only [Decimal.round, Decimal.roundWithWordBufLen, min_eq_left hfrac, if_pos (gt_iff_lt.mpr hT),
    Res.unwrap_map, Res.unwrap_truncated]
  split_ifs with hext hge
  · -- zero words up to the end of the buffer
    obtain ⟨r, hr, ho, -, hv, hn⟩ := extend_spec hd (.truncated d) _ ((WORD_BUF_LEN - wordCnt d.intCnt) * DIGITS_PER_WORD) rfl rfl (gt_iff_lt.mp hext)
      (by omega) (wordCnt_wordsLeft (by omega))
    exact ⟨r, hr, roundOut_of_value hd ho hv hn (fun _ => .inr hT)⟩
  · obtain ⟨r, hr, ho, -, hv, hn⟩ := keep_spec hd (.truncated d) ((WORD_BUF_LEN - wordCnt d.intCnt) * DIGITS_PER_WORD) rfl rfl
      (by rw [wordCnt_wordsLeft (by omega)]; omega)
    exact ⟨r, hr, roundOut_of_value hd ho hv hn (fun _ => .inr hT)⟩
  · -- the words left hold every fraction digit
    exfalso
    unfold DIGITS_PER_WORD WORD_BUF_LEN at *
    omega

/-- `round` reads its scale capped at `MAX_FRACTION`. -/
theorem round_min (d : Decimal) (frac : ℤ) (mode : RoundMode) :
    d.round frac mode = d.round (min frac MAX_FRACTION) mode := by
  simp only [Decimal.round, Decimal.roundWithWordBufLen, min_assoc, min_self]

/-- Rounding a well-formed decimal at a scale `frac` (capped at `MAX_FRACTION`)
gives the value rounded at that scale in the mode's direction: `Overflow`
exactly when that needs more than 81 integer digits, a negative result only
for a negative one, and a `Truncated` tag only when the integer words and the
scale's words reach past the buffer, or fill it with digits dropped. Ceiling
rounding is exact only at whole words, where `ceil` uses it. -/
theorem round_spec {d : Decimal} (hd : d.WellFormed) (frac : ℤ) (mode : RoundMode)
    (hmode : mode = .ceiling → 0 ≤ frac ∧ frac ≤ MAX_FRACTION ∧ (DIGITS_PER_WORD : ℤ) ∣ frac) :
    let f := min frac MAX_FRACTION
    ∃ r, d.round frac mode = some r ∧ RoundOut (.ok d) r (roundAt mode.toMode d.value f)
      ((WORD_BUF_LEN : ℤ) < wordCnt d.intCnt + scaleWords f ∨
        (WORD_BUF_LEN : ℤ) ≤ wordCnt d.intCnt + scaleWords f ∧ f < d.fracCnt) := by
  intro f
  have hf : f ≤ MAX_FRACTION := min_le_right _ _
  rw [round_min]
  by_cases hT : (WORD_BUF_LEN : ℤ) < wordCnt d.intCnt + scaleWords f
  · obtain ⟨r, hr, hout⟩ := round_of_truncated hd hf hT
    exact ⟨r, hr, hout.mono .inl .inl⟩
  by_cases hlt : (d.intCnt : ℤ) + f < 0
  · -- only ceiling rounds up from below a half, and it is never asked left of the point
    have hceil : mode ≠ .ceiling := fun hc => by
      have := hmode hc
      omega
    refine ⟨_, round_of_lt hf hT hlt, ?_⟩
    rw [hd.roundAt_value_of_lt (RoundMode.toMode_ne_awayFromZero hceil) hlt, ← Decimal.zero_value]
    exact roundOut_of_value Decimal.wellFormed_zero rfl rfl rfl (fun h => absurd h (by decide))
  · obtain ⟨r, hr, hout⟩ := round_of_kept hd hf hT hlt (fun hc => by
      obtain ⟨h0, hle, hdvd⟩ := hmode hc
      rw [show f = frac from min_eq_left hle]
      exact ⟨h0, hdvd⟩)
    exact ⟨r, hr, hout.mono .inl .inr⟩

theorem round_spec_negOneHalf :
    let d : Decimal := ⟨1, 1, 1, true, [1, 500000000, 0, 0, 0, 0, 0, 0, 0]⟩
    let f : ℤ := min 0 MAX_FRACTION
    d.WellFormed ∧ (RoundMode.halfEven = .ceiling → (0 : ℤ) ≤ 0 ∧ (0 : ℤ) ≤ MAX_FRACTION ∧ (DIGITS_PER_WORD : ℤ) ∣ 0) ∧
      ∃ r, d.round 0 .halfEven = some r ∧ RoundOut (.ok d) r (roundAt RoundMode.halfEven.toMode d.value f)
        ((WORD_BUF_LEN : ℤ) < wordCnt d.intCnt + scaleWords f ∨
          (WORD_BUF_LEN : ℤ) ≤ wordCnt d.intCnt + scaleWords f ∧ f < d.fracCnt) := by
  intro d f
  exact ⟨by decide, by decide, round_spec (d := d) (by decide) 0 .halfEven (by decide)⟩

/-- Rounding to an integer always fits: the result is `Ok`, holds the value
rounded in the mode's direction, and is negative only below zero. -/
theorem round_zero_spec {d : Decimal} (hd : d.WellFormed) (mode : RoundMode) :
    ∃ r, d.round 0 mode = some r ∧ r.isOk = true ∧ r.unwrap.value = roundInt mode.toMode d.value ∧
      (r.unwrap.negative = true → roundInt mode.toMode d.value < 0) := by
  obtain ⟨r, hr, hout⟩ := round_spec hd 0 mode (fun _ => ⟨le_rfl, by decide, dvd_zero _⟩)
  have hfits := hd.fits
  have hx : roundAt mode.toMode d.value (min 0 MAX_FRACTION) = roundInt mode.toMode d.value := by
    simp [roundAt, MAX_FRACTION]
  rw [hx] at hout
  have hno : r.isOverflow = false := by
    by_contra h
    exact absurd (hout.overflow.mp (by simpa using h)) (not_le.mpr (hd.abs_roundInt_value_lt _))
  -- the integer words alone never reach past the buffer with digits dropped
  have hnt : r.isTruncated = false := by
    by_contra h
    rcases hout.truncated (by simpa using h) with h | h
    · simp [Res.isTruncated] at h
    · have hs : scaleWords (min 0 MAX_FRACTION) = 0 := by decide
      rw [hs] at h
      unfold wordCnt WORD_BUF_LEN DIGITS_PER_WORD MAX_FRACTION at *
      split_ifs at * <;> omega
  refine ⟨r, hr, ?_, hout.value hno, fun h => by exact_mod_cast hout.negative h⟩
  cases r <;> simp_all [Res.isOk, Res.isOverflow, Res.isTruncated]

theorem round_zero_spec_negOneHalf :
    let d : Decimal := ⟨1, 1, 1, true, [1, 500000000, 0, 0, 0, 0, 0, 0, 0]⟩
    d.WellFormed ∧ ∃ r, d.round 0 .truncate = some r ∧ r.isOk = true ∧
      r.unwrap.value = roundInt RoundMode.truncate.toMode d.value ∧
        (r.unwrap.negative = true → roundInt RoundMode.truncate.toMode d.value < 0) := by
  intro d
  exact ⟨by decide, round_zero_spec (d := d) (by decide) .truncate⟩

/-- `ceil` of a well-formed decimal is `Ok` and holds the least integer at or
above its value. -/
theorem ceil_spec {d : Decimal} (hd : d.WellFormed) :
    ∃ r, d.ceil = some r ∧ r.isOk = true ∧ r.unwrap.value = ⌈d.value⌉ ∧
      (r.unwrap.negative = true → ⌈d.value⌉ < 0) := by
  cases hneg : d.negative
  · -- not negative: away from zero is up
    obtain ⟨r, hr, hok, hv, hn⟩ := round_zero_spec hd .ceiling
    have hc : ⌈d.value⌉ = roundInt RoundMode.ceiling.toMode d.value := by
      rw [ceil_eq_roundInt, if_neg (not_lt.mpr (Decimal.value_nonneg hneg))]
      rfl
    exact ⟨r, by simp [Decimal.ceil, hneg, hr], hok, hc ▸ hv, hc ▸ hn⟩
  · -- negative: toward zero is up
    obtain ⟨r, hr, hok, hv, hn⟩ := round_zero_spec hd .truncate
    have hc : ⌈d.value⌉ = roundInt RoundMode.truncate.toMode d.value := by
      rw [ceil_eq_roundInt, if_pos (Decimal.value_neg hd hneg)]
      rfl
    exact ⟨r, by simp [Decimal.ceil, hneg, hr], hok, hc ▸ hv, hc ▸ hn⟩

theorem ceil_spec_negOneHalf :
    let d : Decimal := ⟨1, 1, 1, true, [1, 500000000, 0, 0, 0, 0, 0, 0, 0]⟩
    d.WellFormed ∧ ∃ r, d.ceil = some r ∧ r.isOk = true ∧ r.unwrap.value = ⌈d.value⌉ ∧
      (r.unwrap.negative = true → ⌈d.value⌉ < 0) := by
  intro d
  exact ⟨by decide, ceil_spec (d := d) (by decide)⟩

example : (⟨1, 1, 1, true, [1, 500000000, 0, 0, 0, 0, 0, 0, 0]⟩ : Decimal).ceil = some (.ok ⟨9, 0, 0, true, [1, 0, 0, 0, 0, 0, 0, 0, 0]⟩) := by decide

/-- `floor` of a well-formed decimal is `Ok` and holds the greatest integer at
or below its value. -/
theorem floor_spec {d : Decimal} (hd : d.WellFormed) :
    ∃ r, d.floor = some r ∧ r.isOk = true ∧ r.unwrap.value = ⌊d.value⌋ ∧
      (r.unwrap.negative = true → ⌊d.value⌋ < 0) := by
  cases hneg : d.negative
  · obtain ⟨r, hr, hok, hv, hn⟩ := round_zero_spec hd .truncate
    have hc : ⌊d.value⌋ = roundInt RoundMode.truncate.toMode d.value := by
      rw [floor_eq_roundInt, if_neg (not_lt.mpr (Decimal.value_nonneg hneg))]
      rfl
    exact ⟨r, by simp [Decimal.floor, hneg, hr], hok, hc ▸ hv, hc ▸ hn⟩
  · obtain ⟨r, hr, hok, hv, hn⟩ := round_zero_spec hd .ceiling
    have hc : ⌊d.value⌋ = roundInt RoundMode.ceiling.toMode d.value := by
      rw [floor_eq_roundInt, if_pos (Decimal.value_neg hd hneg)]
      rfl
    exact ⟨r, by simp [Decimal.floor, hneg, hr], hok, hc ▸ hv, hc ▸ hn⟩

theorem floor_spec_oneHalf :
    let d : Decimal := ⟨1, 1, 1, false, [1, 500000000, 0, 0, 0, 0, 0, 0, 0]⟩
    d.WellFormed ∧ ∃ r, d.floor = some r ∧ r.isOk = true ∧ r.unwrap.value = ⌊d.value⌋ ∧
      (r.unwrap.negative = true → ⌊d.value⌋ < 0) := by
  intro d
  exact ⟨by decide, floor_spec (d := d) (by decide)⟩

example : (⟨1, 1, 1, false, [1, 500000000, 0, 0, 0, 0, 0, 0, 0]⟩ : Decimal).floor = some (.ok ⟨9, 0, 0, false, [1, 0, 0, 0, 0, 0, 0, 0, 0]⟩) := by decide

end RoundPaths

end Tikv.Codec.Mysql
