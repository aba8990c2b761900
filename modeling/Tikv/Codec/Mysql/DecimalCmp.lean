import Tikv.Codec.Mysql.Decimal
/-!
# Comparing and hashing decimals (`codec/mysql/decimal.rs`)

`Ord::cmp` compares two decimals of one sign through `calc_sub_carry`, the
first step of a subtraction: it skips the leading zero words of both
integer parts, compares the numbers of significant integer words that
remain, and when they are equal trims the trailing zero words of both and
compares word by word. `Hash::hash` trims the same way on its own and
writes the count of significant integer words, the significant words and
the sign of a value that is not zero. `PartialEq::eq` is `cmp == Equal`.

The loops are modelled as recursive functions over the word buffer, with
`usize` and `isize` indices as `Nat` and `Int`: the sum
`l_stop + l_frac_word_cnt - 1` wraps to `-1` when a decimal has no words
at all, as the release build computes it.

Results:
* `skipZeroWords_spec`, `trimZeroWords_spec`, `carryAfterEqualWords_eq`:
  the three loops drop the leading zeros, drop the trailing zeros, and
  compare the rest lexicographically.
* `calcSubCarry_fst_eq_carryOf`: on well-formed decimals the carry is the
  order of the two magnitudes scaled to one number of fraction words.
* `cmp_eq_compare_value`: `cmp` is the order of the rational values, so it
  does not see leading zero words, trailing fraction zeros or `int_cnt`.
* `hashData_eq_of_beq`: decimals equal under `eq` write the same data to
  the hasher.
-/
namespace Tikv.Codec.Mysql

/-- mirrors decimal.rs:281-283 (also 288-290 and 2420-2422): from `idx`, the first integer word
before `stop` that is not zero, or `stop`. -/
def skipZeroWords (buf : List Nat) (stop idx : Nat) : Nat :=
  if idx < stop ∧ buf.getD idx 0 = 0 then skipZeroWords buf stop (idx + 1) else idx
termination_by stop - idx

/-- mirrors decimal.rs:301-303 (also 307-309 and 2430-2432): from `last` down, the last word
at or after `idx` that is not zero, or `idx - 1`. -/
def trimZeroWords (buf : List Nat) (idx : Nat) (last : Int) : Int :=
  if (idx : Int) ≤ last ∧ buf.getD last.toNat 0 = 0 then trimZeroWords buf idx (last - 1) else last
termination_by (last + 1 - idx).toNat

/-- mirrors decimal.rs:316-322: from `lIdx` and `rIdx` on, the first positions where the
words differ or one side has ended. -/
def skipEqualWords (lhs rhs : List Nat) (lEnd rEnd : Int) (lIdx rIdx : Nat) : Nat × Nat :=
  if (lIdx : Int) ≤ lEnd ∧ (rIdx : Int) ≤ rEnd ∧ lhs.getD lIdx 0 = rhs.getD rIdx 0 then
    skipEqualWords lhs rhs lEnd rEnd (lIdx + 1) (rIdx + 1)
  else (lIdx, rIdx)
termination_by (lEnd + 1 - lIdx).toNat

/-- mirrors decimal.rs:316-334: past the words both sides share, the side with the larger
word, or with words left, is the larger (`Some(0)`: the left, `Some(1)`: the right). -/
def carryAfterEqualWords (lhs rhs : List Nat) (lEnd rEnd : Int) (lIdx rIdx : Nat) : Option Nat :=
  let (lIdx, rIdx) := skipEqualWords lhs rhs lEnd rEnd lIdx rIdx
  if (lIdx : Int) ≤ lEnd then
    if (rIdx : Int) ≤ rEnd ∧ rhs.getD rIdx 0 > lhs.getD lIdx 0 then some 1 else some 0
  else if (rIdx : Int) ≤ rEnd then some 1 else none

/-- `SubTmp`: where the significant integer words start, how many there are, and the fraction
words. -/
abbrev SubTmp := Nat × Nat × Nat

/-- mirrors decimal.rs:275-340 (`calc_sub_carry`): which of the two magnitudes is larger
(`None` when they are equal), with what a subtraction then starts from. -/
def calcSubCarry (lhs rhs : Decimal) : Option Nat × Nat × SubTmp × SubTmp :=
  let lFracWordCnt := wordCnt lhs.fracCnt
  let rFracWordCnt := wordCnt rhs.fracCnt
  let fracWordTo := max lFracWordCnt rFracWordCnt
  let lStop := wordCnt lhs.intCnt
  let lStart := skipZeroWords lhs.wordBuf lStop 0
  let lIntWordCnt := lStop - lStart
  let rStop := wordCnt rhs.intCnt
  let rStart := skipZeroWords rhs.wordBuf rStop 0
  let rIntWordCnt := rStop - rStart
  let (carry, lFracWordCnt, rFracWordCnt) := match compare rIntWordCnt lIntWordCnt with
    | .gt => (some 1, lFracWordCnt, rFracWordCnt)
    | .lt => (some 0, lFracWordCnt, rFracWordCnt)
    | .eq =>
      -- the usize sum wraps to -1 when there are no words at all
      let lEnd := trimZeroWords lhs.wordBuf lStart (((lStop + lFracWordCnt : Nat) : Int) - 1)
      let rEnd := trimZeroWords rhs.wordBuf rStart (((rStop + rFracWordCnt : Nat) : Int) - 1)
      (carryAfterEqualWords lhs.wordBuf rhs.wordBuf lEnd rEnd lStart rStart,
        (max 0 (lEnd + 1 - lStop)).toNat, (max 0 (rEnd + 1 - rStop)).toNat)
  (carry, fracWordTo, (lStart, lIntWordCnt, lFracWordCnt), (rStart, rIntWordCnt, rFracWordCnt))

namespace Decimal

/-- mirrors decimal.rs:2318-2335 (`Ord::cmp`) -/
def cmp (a b : Decimal) : Ordering :=
  if a.negative = b.negative then
    match (calcSubCarry a b).1 with
    | none => .eq
    | some carry => if decide (carry > 0) = a.negative then .gt else .lt
  else if a.negative then .lt else .gt

/-- mirrors decimal.rs:2304-2308 (`PartialEq::eq`) -/
def beq (a b : Decimal) : Bool := a.cmp b == .eq

/-- mirrors decimal.rs:2415-2439 (`Hash::hash`): what is written to the hasher, in order: the
number of significant integer words, the words from the first significant one to the last
that is not zero, and the sign of a value that is not zero. -/
def hashData (d : Decimal) : Nat × List Nat × Bool :=
  let stop := wordCnt d.intCnt
  let start := skipZeroWords d.wordBuf stop 0
  let intWordCnt := stop - start
  let last := trimZeroWords d.wordBuf start (((stop + wordCnt d.fracCnt : Nat) : Int) - 1)
  (intWordCnt, (d.wordBuf.drop start).take ((last + 1).toNat - start),
    d.negative && decide ((start : Int) ≤ last))

end Decimal

/-! ## The loops, on the words they read -/

theorem drop_eq_getD_cons {buf : List Nat} {i : Nat} (h : i < buf.length) :
    buf.drop i = buf.getD i 0 :: buf.drop (i + 1) := by
  rw [List.drop_eq_getElem_cons h, List.getD_eq_getElem?_getD, List.getElem?_eq_getElem h, Option.getD_some]

/-- Skipping zero words drops the leading zeros of the words before `stop`. -/
theorem skipZeroWords_spec {buf : List Nat} {stop idx : Nat} (hidx : idx ≤ stop) (hstop : stop ≤ buf.length) :
    idx ≤ skipZeroWords buf stop idx ∧ skipZeroWords buf stop idx ≤ stop ∧
      (buf.drop (skipZeroWords buf stop idx)).take (stop - skipZeroWords buf stop idx) =
        ((buf.drop idx).take (stop - idx)).dropWhile (· == 0) := by
  induction idx using skipZeroWords.induct buf stop with
  | case1 idx h ih =>
    obtain ⟨h1, h2, h3⟩ := ih (by omega)
    rw [skipZeroWords, if_pos h]
    refine ⟨by omega, h2, ?_⟩
    rw [h3, drop_eq_getD_cons (i := idx) (by omega), h.2, show stop - idx = (stop - (idx + 1)) + 1 by omega,
      List.take_succ_cons, List.dropWhile_cons_of_pos (by simp)]
  | case2 idx h =>
    rw [skipZeroWords, if_neg h]
    refine ⟨le_refl _, hidx, ?_⟩
    by_cases hlt : idx < stop
    · have hne : buf.getD idx 0 ≠ 0 := fun h0 => h ⟨hlt, h0⟩
      rw [drop_eq_getD_cons (by omega), show stop - idx = (stop - (idx + 1)) + 1 by omega,
        List.take_succ_cons, List.dropWhile_cons_of_neg (by simpa using hne)]
    · rw [show stop - idx = 0 by omega, List.take_zero, List.dropWhile_nil]

/-- The words of `buf` from `idx` to `last`, both included. -/
def window (buf : List Nat) (idx : Nat) (last : Int) : List Nat := (buf.drop idx).take (last + 1 - idx).toNat

theorem window_concat {buf : List Nat} {idx : Nat} {last : Int} (h : (idx : Int) ≤ last)
    (hlast : last < buf.length) : window buf idx last = window buf idx (last - 1) ++ [buf.getD last.toNat 0] := by
  have hn : (last + 1 - idx).toNat = (last - 1 + 1 - idx).toNat + 1 := by omega
  have hget : (buf.drop idx)[(last - 1 + 1 - idx).toNat]? = some (buf.getD last.toNat 0) := by
    rw [List.getElem?_drop, List.getD_eq_getElem?_getD, show idx + (last - 1 + 1 - idx).toNat = last.toNat by omega,
      List.getElem?_eq_getElem (by omega), Option.getD_some]
  rw [window, window, hn, List.take_add_one, hget, Option.toList_some]

theorem window_of_lt {buf : List Nat} {idx : Nat} {last : Int} (h : last < idx) : window buf idx last = [] := by
  rw [window, show (last + 1 - idx).toNat = 0 by omega, List.take_zero]

/-- Trimming zero words drops the trailing zeros of the words from `idx` to `last`. -/
theorem trimZeroWords_spec {buf : List Nat} {idx : Nat} {last : Int} (h : (idx : Int) ≤ last + 1)
    (hlast : last < buf.length) :
    (idx : Int) ≤ trimZeroWords buf idx last + 1 ∧ trimZeroWords buf idx last ≤ last ∧
      window buf idx (trimZeroWords buf idx last) = (window buf idx last).rdropWhile (· == 0) := by
  induction last using trimZeroWords.induct buf idx with
  | case1 last h' ih =>
    obtain ⟨h1, h2, h3⟩ := ih (by omega) (by omega)
    rw [trimZeroWords, if_pos h']
    refine ⟨h1, by omega, ?_⟩
    rw [h3, window_concat h'.1 hlast, h'.2, List.rdropWhile_concat_pos _ _ _ (by simp)]
  | case2 last h' =>
    rw [trimZeroWords, if_neg h']
    refine ⟨h, le_refl _, ?_⟩
    by_cases hle : (idx : Int) ≤ last
    · have hne : buf.getD last.toNat 0 ≠ 0 := fun h0 => h' ⟨hle, h0⟩
      rw [window_concat hle hlast, List.rdropWhile_concat_neg _ _ _ (by simpa using hne)]
    · rw [window_of_lt (by omega), List.rdropWhile_nil]

theorem window_cons {buf : List Nat} {idx : Nat} {last : Int} (h : (idx : Int) ≤ last) (hlast : last < buf.length) :
    window buf idx last = buf.getD idx 0 :: window buf (idx + 1) last := by
  rw [window, window, drop_eq_getD_cons (i := idx) (by omega),
    show (last + 1 - idx).toNat = (last + 1 - (idx + 1 : Nat)).toNat + 1 by omega, List.take_succ_cons]

theorem window_eq_nil_iff {buf : List Nat} {idx : Nat} {last : Int} (hlast : last < buf.length) :
    window buf idx last = [] ↔ last < idx := by
  by_cases h : (idx : Int) ≤ last
  · rw [window_cons h hlast]
    simp only [reduceCtorEq, false_iff, not_lt]
    exact h
  · rw [window_of_lt (by omega)]
    simp only [true_iff]
    omega

theorem isEmpty_window {buf : List Nat} {idx : Nat} {last : Int} (hlast : last < buf.length) :
    (window buf idx last).isEmpty = !decide ((idx : Int) ≤ last) := by
  rw [Bool.eq_iff_iff, List.isEmpty_iff, window_eq_nil_iff hlast, Bool.not_eq_true', decide_eq_false_iff_not, not_le]

/-- The borrow `calc_sub_carry` reports for how the left magnitude compares with the right. -/
def carryOf : Ordering → Option Nat
  | .lt => some 1
  | .eq => none
  | .gt => some 0

theorem carryOf_eq_none {o : Ordering} : carryOf o = none ↔ o = .eq := by
  cases o <;> simp [carryOf]

theorem carryAfterEqualWords_of_eq {lhs rhs : List Nat} {lEnd rEnd : Int} {lIdx rIdx : Nat}
    (h : (lIdx : Int) ≤ lEnd ∧ (rIdx : Int) ≤ rEnd ∧ lhs.getD lIdx 0 = rhs.getD rIdx 0) :
    carryAfterEqualWords lhs rhs lEnd rEnd lIdx rIdx = carryAfterEqualWords lhs rhs lEnd rEnd (lIdx + 1) (rIdx + 1) := by
  rw [carryAfterEqualWords, skipEqualWords, if_pos h]
  rfl

/-- Past the shared words, the carry is that of the order of the two windows. -/
theorem carryAfterEqualWords_eq {lhs rhs : List Nat} {lEnd rEnd : Int} {lIdx rIdx : Nat}
    (hl : lEnd < lhs.length) (hr : rEnd < rhs.length) :
    carryAfterEqualWords lhs rhs lEnd rEnd lIdx rIdx =
      carryOf (compare (window lhs lIdx lEnd) (window rhs rIdx rEnd)) := by
  induction lIdx, rIdx using skipEqualWords.induct lhs rhs lEnd rEnd with
  | case1 lIdx rIdx h ih =>
    rw [carryAfterEqualWords_of_eq h, ih, window_cons h.1 hl, window_cons h.2.1 hr, List.compare_cons_cons, h.2.2,
      compare_eq_iff_eq.mpr rfl, Ordering.eq_then]
  | case2 lIdx rIdx h =>
    rw [carryAfterEqualWords, skipEqualWords, if_neg h]
    dsimp only
    by_cases hl' : (lIdx : Int) ≤ lEnd <;> by_cases hr' : (rIdx : Int) ≤ rEnd
    · -- both sides have a word left, and the two words differ
      have hne : lhs.getD lIdx 0 ≠ rhs.getD rIdx 0 := fun e => h ⟨hl', hr', e⟩
      rw [window_cons hl' hl, window_cons hr' hr, List.compare_cons_cons, if_pos hl']
      rcases Nat.lt_or_gt_of_ne hne with hlt | hgt
      · rw [if_pos ⟨hr', hlt⟩, compare_lt_iff_lt.mpr hlt]
        rfl
      · rw [if_neg (fun h' => by omega), compare_gt_iff_gt.mpr hgt]
        rfl
    · rw [window_cons hl' hl, (window_of_lt (by omega) : window rhs rIdx rEnd = []), if_pos hl', if_neg (fun h' => hr' h'.1)]
      rfl
    · rw [(window_of_lt (by omega) : window lhs lIdx lEnd = []), window_cons hr' hr, if_neg hl', if_pos hr']
      rfl
    · rw [window_of_lt (by omega), window_of_lt (by omega), if_neg hl', if_neg hr']
      rfl

namespace Decimal

/-- The integer words of a decimal. -/
def intWords (d : Decimal) : List Nat := d.wordBuf.take (wordCnt d.intCnt)

/-- The fraction words of a decimal. -/
def fracWords (d : Decimal) : List Nat := (d.wordBuf.drop (wordCnt d.intCnt)).take (wordCnt d.fracCnt)

theorem words_eq_append (d : Decimal) : d.words = d.intWords ++ d.fracWords := List.take_add ..

section WellFormed

variable {d : Decimal} (hd : d.WellFormed)
include hd

theorem length_fracWords : d.fracWords.length = wordCnt d.fracCnt := by
  have := hd.fits
  simp only [fracWords, List.length_take, List.length_drop, hd.length]
  omega

/-- The significant integer words start at `skipZeroWords`; from there to the last used word
lie the integer words without their leading zeros, then the fraction words. -/
theorem skipZeroWords_intWords :
    skipZeroWords d.wordBuf (wordCnt d.intCnt) 0 ≤ wordCnt d.intCnt ∧
      wordCnt d.intCnt - skipZeroWords d.wordBuf (wordCnt d.intCnt) 0 = (d.intWords.dropWhile (· == 0)).length ∧
      window d.wordBuf (skipZeroWords d.wordBuf (wordCnt d.intCnt) 0) ((wordCnt d.intCnt + wordCnt d.fracCnt : Nat) - 1) =
        d.intWords.dropWhile (· == 0) ++ d.fracWords := by
  have := hd.fits
  obtain ⟨-, h2, h3⟩ := @skipZeroWords_spec d.wordBuf (wordCnt d.intCnt) 0 (Nat.zero_le _)
    (by rw [hd.length]; omega)
  rw [List.drop_zero, Nat.sub_zero, ← intWords] at h3
  refine ⟨h2, ?_, ?_⟩
  · rw [← h3, List.length_take, List.length_drop, hd.length]
    omega
  · generalize skipZeroWords d.wordBuf (wordCnt d.intCnt) 0 = start at h2 h3
    rw [window, show ((wordCnt d.intCnt + wordCnt d.fracCnt : Nat) - 1 + 1 - (start : Int)).toNat =
      (wordCnt d.intCnt - start) + wordCnt d.fracCnt by omega, List.take_add, h3, List.drop_drop,
      Nat.add_sub_cancel' h2, fracWords]

theorem intWords_lt : ∀ w ∈ d.intWords, w < WORD_BASE :=
  fun w hw => hd.word_lt w (List.mem_of_mem_take hw)

theorem fracWords_lt : ∀ w ∈ d.fracWords, w < WORD_BASE :=
  fun w hw => hd.word_lt w (List.mem_of_mem_drop (List.mem_of_mem_take hw))

/-- From the first significant integer word, the last word that is not zero ends the words
without their trailing zeros. -/
theorem trimZeroWords_words :
    (skipZeroWords d.wordBuf (wordCnt d.intCnt) 0 : Int) ≤ trimZeroWords d.wordBuf
        (skipZeroWords d.wordBuf (wordCnt d.intCnt) 0) (((wordCnt d.intCnt + wordCnt d.fracCnt : Nat) : Int) - 1) + 1 ∧
    trimZeroWords d.wordBuf (skipZeroWords d.wordBuf (wordCnt d.intCnt) 0)
        (((wordCnt d.intCnt + wordCnt d.fracCnt : Nat) : Int) - 1) < d.wordBuf.length ∧
      window d.wordBuf (skipZeroWords d.wordBuf (wordCnt d.intCnt) 0)
          (trimZeroWords d.wordBuf (skipZeroWords d.wordBuf (wordCnt d.intCnt) 0)
            (((wordCnt d.intCnt + wordCnt d.fracCnt : Nat) : Int) - 1)) =
        (d.intWords.dropWhile (· == 0) ++ d.fracWords).rdropWhile (· == 0) := by
  have := hd.fits
  obtain ⟨hs, -, hw⟩ := skipZeroWords_intWords hd
  obtain ⟨hge, hle, ht⟩ := @trimZeroWords_spec d.wordBuf (skipZeroWords d.wordBuf (wordCnt d.intCnt) 0)
    (((wordCnt d.intCnt + wordCnt d.fracCnt : Nat) : Int) - 1) (by omega) (by rw [hd.length]; omega)
  refine ⟨hge, by rw [hd.length]; omega, ?_⟩
  rw [ht, hw]

end WellFormed

end Decimal

/-- On well-formed decimals `calc_sub_carry` compares the magnitudes: first by their numbers
of significant integer words, then word by word, trailing zeros aside. -/
theorem calcSubCarry_fst {lhs rhs : Decimal} (hl : lhs.WellFormed) (hr : rhs.WellFormed) :
    (calcSubCarry lhs rhs).1 = carryOf ((compare (lhs.intWords.dropWhile (· == 0)).length
      (rhs.intWords.dropWhile (· == 0)).length).then
        (compare ((lhs.intWords.dropWhile (· == 0) ++ lhs.fracWords).rdropWhile (· == 0))
          ((rhs.intWords.dropWhile (· == 0) ++ rhs.fracWords).rdropWhile (· == 0)))) := by
  obtain ⟨-, hlc, -⟩ := Decimal.skipZeroWords_intWords hl
  obtain ⟨-, hrc, -⟩ := Decimal.skipZeroWords_intWords hr
  obtain ⟨-, hll, hlw⟩ := Decimal.trimZeroWords_words hl
  obtain ⟨-, hrl, hrw⟩ := Decimal.trimZeroWords_words hr
  simp only [calcSubCarry, hlc, hrc]
  rw [carryAfterEqualWords_eq hll hrl, hlw, hrw]
  rcases Nat.lt_trichotomy (lhs.intWords.dropWhile (· == 0)).length (rhs.intWords.dropWhile (· == 0)).length
    with h | h | h
  · rw [compare_gt_iff_gt.mpr h, compare_lt_iff_lt.mpr h]
    rfl
  · rw [h, compare_eq_iff_eq.mpr rfl, Ordering.eq_then]
  · rw [compare_lt_iff_lt.mpr h, compare_gt_iff_gt.mpr h]
    rfl

/-- The carry of `calc_sub_carry` is the order of the two magnitudes, each scaled to the larger
number of fraction words. -/
theorem calcSubCarry_fst_eq_carryOf {lhs rhs : Decimal} (hl : lhs.WellFormed) (hr : rhs.WellFormed) :
    (calcSubCarry lhs rhs).1 = carryOf (compare
      (lhs.mantissa * WORD_BASE ^ (max (wordCnt lhs.fracCnt) (wordCnt rhs.fracCnt) - wordCnt lhs.fracCnt))
      (rhs.mantissa * WORD_BASE ^ (max (wordCnt lhs.fracCnt) (wordCnt rhs.fracCnt) - wordCnt rhs.fracCnt))) := by
  have h := @List.compare_scaled_valBE WORD_BASE lhs.intWords lhs.fracWords rhs.intWords rhs.fracWords
    (max (wordCnt lhs.fracCnt) (wordCnt rhs.fracCnt)) (by decide)
    (Decimal.intWords_lt hl) (Decimal.fracWords_lt hl) (Decimal.intWords_lt hr) (Decimal.fracWords_lt hr)
    (by rw [Decimal.length_fracWords hl]; omega) (by rw [Decimal.length_fracWords hr]; omega)
  rw [Decimal.length_fracWords hl, Decimal.length_fracWords hr, ← Decimal.words_eq_append,
    ← Decimal.words_eq_append] at h
  rw [calcSubCarry_fst hl hr, Decimal.mantissa, Decimal.mantissa, h]

/-- Magnitudes over one positive denominator compare as the magnitudes. -/
theorem compare_natCast_div {x y : Nat} {c : ℚ} (hc : 0 < c) :
    compare ((x : ℚ) / c) ((y : ℚ) / c) = compare x y := by
  rcases Nat.lt_trichotomy x y with h | rfl | h
  · rw [compare_lt_iff_lt.mpr h, compare_lt_iff_lt.mpr (div_lt_div_of_pos_right (Nat.cast_lt.mpr h) hc)]
  · rw [compare_eq_iff_eq.mpr rfl, compare_eq_iff_eq.mpr rfl]
  · rw [compare_gt_iff_gt.mpr h, compare_gt_iff_gt.mpr (div_lt_div_of_pos_right (Nat.cast_lt.mpr h) hc)]

/-- Negated, they compare the other way round. -/
theorem compare_neg_natCast_div {x y : Nat} {c : ℚ} (hc : 0 < c) :
    compare (-((x : ℚ) / c)) (-((y : ℚ) / c)) = compare y x := by
  rcases Nat.lt_trichotomy x y with h | rfl | h
  · rw [compare_gt_iff_gt.mpr h, compare_gt_iff_gt.mpr (neg_lt_neg (div_lt_div_of_pos_right (Nat.cast_lt.mpr h) hc))]
  · rw [compare_eq_iff_eq.mpr rfl, compare_eq_iff_eq.mpr rfl]
  · rw [compare_lt_iff_lt.mpr h, compare_lt_iff_lt.mpr (neg_lt_neg (div_lt_div_of_pos_right (Nat.cast_lt.mpr h) hc))]

namespace Decimal

/-- The value of a decimal over `WORD_BASE ^ F`, for `F` at least its fraction words. -/
theorem value_eq_scaled (d : Decimal) {F : Nat} (hF : wordCnt d.fracCnt ≤ F) :
    d.value = (if d.negative then -1 else 1) * ((d.mantissa * WORD_BASE ^ (F - wordCnt d.fracCnt) : Nat) : ℚ) /
      (WORD_BASE : ℚ) ^ F := by
  have hpow : (WORD_BASE : ℚ) ^ F = WORD_BASE ^ (F - wordCnt d.fracCnt) * WORD_BASE ^ wordCnt d.fracCnt := by
    rw [← pow_add, Nat.sub_add_cancel hF]
  have hB : (WORD_BASE : ℚ) ≠ 0 := by decide
  rw [value, hpow, Nat.cast_mul, Nat.cast_pow, ← mul_assoc, mul_comm ((WORD_BASE : ℚ) ^ (F - wordCnt d.fracCnt)),
    mul_div_mul_right _ _ (pow_ne_zero _ hB)]

/-- Decimals of one sign compare as their magnitudes, the other way round when negative. -/
theorem compare_value_of_negative_eq {a b : Decimal} (h : a.negative = b.negative) :
    compare a.value b.value =
      let F := max (wordCnt a.fracCnt) (wordCnt b.fracCnt)
      if a.negative then compare (b.mantissa * WORD_BASE ^ (F - wordCnt b.fracCnt)) (a.mantissa * WORD_BASE ^ (F - wordCnt a.fracCnt))
      else compare (a.mantissa * WORD_BASE ^ (F - wordCnt a.fracCnt)) (b.mantissa * WORD_BASE ^ (F - wordCnt b.fracCnt)) := by
  have hc : (0 : ℚ) < (WORD_BASE : ℚ) ^ max (wordCnt a.fracCnt) (wordCnt b.fracCnt) := pow_pos (by decide) _
  rw [value_eq_scaled a (le_max_left _ _), value_eq_scaled b (le_max_right _ _), ← h]
  cases a.negative
  · simp only [Bool.false_eq_true, if_false, one_mul]
    exact compare_natCast_div hc
  · simp only [if_true, neg_one_mul, neg_div]
    exact compare_neg_natCast_div hc

theorem value_neg {d : Decimal} (hd : d.WellFormed) (h : d.negative = true) : d.value < 0 := by
  have hm : (0 : ℚ) < d.mantissa := Nat.cast_pos.mpr (Nat.pos_of_ne_zero (hd.nonNegZero h))
  rw [value, if_pos h, neg_one_mul, neg_div, neg_lt_zero]
  exact div_pos hm (pow_pos (by decide) _)

theorem value_nonneg {d : Decimal} (h : d.negative = false) : 0 ≤ d.value := by
  rw [value, h, if_neg Bool.false_ne_true, one_mul]
  exact div_nonneg (Nat.cast_nonneg _) (pow_nonneg (by decide) _)

end Decimal

namespace Decimal

variable {a b : Decimal}

/-- Equal decimals have one sign and report no carry. -/
theorem cmp_eq_eq (h : a.cmp b = .eq) : a.negative = b.negative ∧ (calcSubCarry a b).1 = none := by
  by_cases hs : a.negative = b.negative
  · refine ⟨hs, ?_⟩
    rw [cmp, if_pos hs] at h
    split at h
    · assumption
    · split at h <;> cases h
  · rw [cmp, if_neg hs] at h
    split at h <;> cases h

/-- On one sign, `cmp` turns the carry's order of the magnitudes into the order of the values. -/
theorem cmp_of_negative_eq (h : a.negative = b.negative) {x y : Nat}
    (hc : (calcSubCarry a b).1 = carryOf (compare x y)) :
    a.cmp b = if a.negative then compare y x else compare x y := by
  rw [cmp, if_pos h, hc]
  rcases Nat.lt_trichotomy x y with hxy | rfl | hxy
  · rw [compare_lt_iff_lt.mpr hxy, compare_gt_iff_gt.mpr hxy]
    cases a.negative <;> rfl
  · rw [compare_eq_iff_eq.mpr rfl]
    cases a.negative <;> rfl
  · rw [compare_gt_iff_gt.mpr hxy, compare_lt_iff_lt.mpr hxy]
    cases a.negative <;> rfl

/-- On well-formed decimals `Ord::cmp` orders by value. -/
theorem cmp_eq_compare_value (ha : a.WellFormed) (hb : b.WellFormed) : a.cmp b = compare a.value b.value := by
  by_cases hs : a.negative = b.negative
  · rw [cmp_of_negative_eq hs (calcSubCarry_fst_eq_carryOf ha hb), compare_value_of_negative_eq hs]
  · -- of two signs, the negative value is below zero and the other is not
    rw [cmp, if_neg hs]
    cases hna : a.negative <;> cases hnb : b.negative <;> rw [hna, hnb] at hs
    · exact absurd rfl hs
    · rw [if_neg Bool.false_ne_true, compare_gt_iff_gt.mpr (lt_of_lt_of_le (value_neg hb hnb) (value_nonneg hna))]
    · rw [if_pos rfl, compare_lt_iff_lt.mpr (lt_of_lt_of_le (value_neg ha hna) (value_nonneg hnb))]
    · exact absurd rfl hs

/-- What `Hash::hash` writes: the number of significant integer words, the words from the first
significant one without trailing zeros, and the sign of a value that is not zero. -/
theorem hashData_eq {d : Decimal} (hd : d.WellFormed) :
    d.hashData = ((d.intWords.dropWhile (· == 0)).length,
      (d.intWords.dropWhile (· == 0) ++ d.fracWords).rdropWhile (· == 0),
      d.negative && !((d.intWords.dropWhile (· == 0) ++ d.fracWords).rdropWhile (· == 0)).isEmpty) := by
  obtain ⟨-, hc, -⟩ := skipZeroWords_intWords hd
  obtain ⟨hge, hlt, hw⟩ := trimZeroWords_words hd
  rw [← hw, hashData, hc, window, show ∀ s : Nat, ∀ l : Int, (s : Int) ≤ l + 1 → (l + 1).toNat - s = (l + 1 - s).toNat from
    fun _ _ h => by omega, ← window, isEmpty_window hlt, Bool.not_not]
  exact hge

/-- Decimals equal under `PartialEq::eq` write the same data to the hasher. -/
theorem hashData_eq_of_beq (ha : a.WellFormed) (hb : b.WellFormed) (h : a.beq b = true) :
    a.hashData = b.hashData := by
  obtain ⟨hs, hc⟩ := cmp_eq_eq (beq_iff_eq.mp h)
  rw [calcSubCarry_fst ha hb, carryOf_eq_none, Ordering.then_eq_eq] at hc
  obtain ⟨hlen, hwords⟩ := hc
  rw [hashData_eq ha, hashData_eq hb, compare_eq_iff_eq.mp hlen, Std.LawfulEqOrd.eq_of_compare hwords, hs]

/-- On well-formed decimals `Ord::cmp` is the order of the rational values, whatever the layout
of their words, and decimals equal under `PartialEq::eq` write the same data to the hasher. -/
theorem cmp_agrees_with_value (a b : Decimal) (ha : a.WellFormed) (hb : b.WellFormed) :
    a.cmp b = compare a.value b.value ∧ (a.beq b = true → a.hashData = b.hashData) :=
  ⟨cmp_eq_compare_value ha hb, hashData_eq_of_beq ha hb⟩

/-- `1.50`, written with a leading zero word, and `1.5` are equal and hash alike. -/
theorem cmp_agrees_with_value_padded :
    (⟨10, 2, 2, false, [0, 1, 500000000, 0, 0, 0, 0, 0, 0]⟩ : Decimal).cmp
        ⟨1, 1, 1, false, [1, 500000000, 0, 0, 0, 0, 0, 0, 0]⟩ = .eq ∧
      ((⟨10, 2, 2, false, [0, 1, 500000000, 0, 0, 0, 0, 0, 0]⟩ : Decimal).cmp
          ⟨1, 1, 1, false, [1, 500000000, 0, 0, 0, 0, 0, 0, 0]⟩ =
        compare (⟨10, 2, 2, false, [0, 1, 500000000, 0, 0, 0, 0, 0, 0]⟩ : Decimal).value
          (⟨1, 1, 1, false, [1, 500000000, 0, 0, 0, 0, 0, 0, 0]⟩ : Decimal).value ∧
        ((⟨10, 2, 2, false, [0, 1, 500000000, 0, 0, 0, 0, 0, 0]⟩ : Decimal).beq
            ⟨1, 1, 1, false, [1, 500000000, 0, 0, 0, 0, 0, 0, 0]⟩ = true →
          (⟨10, 2, 2, false, [0, 1, 500000000, 0, 0, 0, 0, 0, 0]⟩ : Decimal).hashData =
            (⟨1, 1, 1, false, [1, 500000000, 0, 0, 0, 0, 0, 0, 0]⟩ : Decimal).hashData)) :=
  ⟨by decide +kernel, cmp_agrees_with_value _ _ (by decide) (by decide)⟩

end Decimal

end Tikv.Codec.Mysql
