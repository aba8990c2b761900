import Tikv.Codec.Mysql.DecimalCarry
import Tikv.Lib.Rounding
import Mathlib.Algebra.Order.Field.Power

/-!
# `round`, `ceil` and `floor` against rounding the value

`round_with_word_buf_len` rounds a decimal to `frac` fraction digits. Read
as a function on values, it rounds the decimal's value at `frac` digits
(`Rounding.roundAt`): `HalfEven` half away from zero, `Truncate` toward
zero, and `Ceiling` away from zero; the source's `Ceiling` reads only the
digit after the scale when the scale is inside a word, so it stands for
rounding away from zero only on a word boundary.

`IncrReady` names what `round_with_word_buf_len` hands to `handle_incr`, and
`RoundOut` what a rounding returns: `Overflow` exactly when the rounded value
needs more than 81 integer digits, otherwise the rounded value, a negative
result only for a negative rounded value, and a `Truncated` tag only where
the buffer is full.

Results:
* `alignedDoInc_spec`, `roundWordAt_eq`: the source's decision to round up,
  on a word boundary and inside a word, is the rounding of the mantissa;
* `handleIncr_aligned`, `handleIncr_noWord`, `handleIncr_unaligned`: one
  lemma per path of the increment, each through `handleCarry_spec`;
* `handleIncr_spec`: `handle_incr` rounds the value at the scale.
-/
namespace Tikv.Codec.Mysql

open Rounding

/-- The rounding each mode of the source stands for: `HalfEven` rounds half
away from zero. -/
def RoundMode.toMode : RoundMode → Rounding.Mode
  | .halfEven => .halfAwayFromZero
  | .truncate => .towardZero
  | .ceiling => .awayFromZero

theorem WORD_BASE_pow (j : Nat) : WORD_BASE ^ j = 10 ^ (DIGITS_PER_WORD * j) := by
  rw [Nat.pow_mul]
  rfl

theorem WORD_BASE_zpow (z : ℤ) : (WORD_BASE : ℚ) ^ z = 10 ^ ((DIGITS_PER_WORD : ℤ) * z) := by
  rw [zpow_mul]
  norm_num [WORD_BASE, DIGITS_PER_WORD]

/-- Inside a word the source rounds from the digit after the scale alone,
which is what rounding toward zero or half away from zero reads. -/
theorem roundWordAt_eq (w u : Nat) {mode : RoundMode} (hmode : mode ≠ .ceiling) :
    roundWordAt w (10 ^ u) mode = 10 ^ (u + 1) * divRound mode.toMode w (10 ^ (u + 1)) := by
  have hpos : 0 < 10 ^ u := Nat.pow_pos (by omega)
  -- the digit after the scale and the digits above it
  have hsplit : w / 10 ^ u = 10 * (w / 10 ^ (u + 1)) + w / 10 ^ u % 10 := by
    rw [Nat.pow_succ, ← Nat.div_div_eq_div_mul]
    omega
  have hdig : w / 10 ^ u % 10 < 10 := Nat.mod_lt _ (by omega)
  have hdown : w / 10 ^ u - w / 10 ^ u % 10 = 10 * (w / 10 ^ (u + 1)) := by omega
  unfold roundWordAt divRound RoundMode.toMode
  cases mode with
  | ceiling => exact absurd rfl hmode
  | truncate =>
    dsimp only
    rw [if_neg (by omega), hdown, Nat.pow_succ]
    ring
  | halfEven =>
    dsimp only
    have hhalf := le_two_mul_mod_pow_iff w u
    by_cases h5 : 5 ≤ w / 10 ^ u % 10
    · have hup : w / 10 ^ u + 10 - w / 10 ^ u % 10 = 10 * (w / 10 ^ (u + 1) + 1) := by omega
      rw [if_pos (by omega), if_pos (hhalf.mpr h5), hup, Nat.pow_succ]
      ring
    · rw [if_neg (by omega), if_neg (fun h => h5 (hhalf.mp h)), hdown, Nat.pow_succ]
      ring

/-- On a word boundary the source's test is the rounding of the words the
scale drops, `n - k` of them after the `k` kept words. -/
theorem alignedDoInc_spec {buf : List Nat} (hlen : buf.length = WORD_BUF_LEN)
    (hlt : ∀ w ∈ buf, w < WORD_BASE) {k n : Nat} (hkn : k < n) (hn : n ≤ WORD_BUF_LEN) (toIdx : Int)
    (htoIdx : toIdx + 1 = k) (F : Nat) (fwt : Int) (hF : (F : Int) - fwt = n - k) (mode : RoundMode) :
    ∃ inc : Bool, alignedDoInc buf toIdx F fwt mode = some inc ∧
      divRound mode.toMode (List.valBE WORD_BASE ((buf.take n).drop k)) (10 ^ (DIGITS_PER_WORD * (n - k))) =
        inc.toNat := by
  set D := List.valBE WORD_BASE ((buf.take n).drop k) with hD
  have hDlt : D < 10 ^ (DIGITS_PER_WORD * (n - k)) := by
    have h := List.valBE_lt (b := WORD_BASE) (by decide) (l := (buf.take n).drop k)
      (fun x hx => hlt x (List.mem_of_mem_take (List.mem_of_mem_drop hx)))
    rwa [List.length_drop, List.length_take, hlen, Nat.min_eq_left hn, WORD_BASE_pow] at h
  cases mode with
  | truncate =>
    refine ⟨false, rfl, ?_⟩
    simp [divRound, RoundMode.toMode, Nat.div_eq_of_lt hDlt]
  | ceiling =>
    -- `any` over the words from `to_idx + 1` to the last fraction word
    have hany : ((buf.drop k).take ((n - 1 : Int).toNat + 1 - k)).any (· != 0) = decide (D ≠ 0) := by
      rw [show (n - 1 : Int).toNat + 1 - k = n - k by omega, ← List.drop_take, hD]
      rw [Bool.eq_iff_iff, List.any_eq_true, decide_eq_true_iff, Ne, List.valBE_eq_zero_iff (by decide)]
      simp
    refine ⟨decide (D ≠ 0), ?_, ?_⟩
    · simp only [alignedDoInc, anyNonZero]
      rw [if_pos (by omega), show toIdx + 1 = (k : Int) by omega, Int.toNat_natCast,
        show toIdx + F - fwt = (n - 1 : Int) by omega, if_pos (by rw [hlen]; unfold WORD_BUF_LEN at hn ⊢; omega), hany]
    · by_cases hD0 : D = 0
      · simp [divRound, RoundMode.toMode, hD0]
      · simp [divRound, RoundMode.toMode, Nat.div_eq_of_lt hDlt, Nat.mod_eq_of_lt hDlt, hD0]
  | halfEven =>
    -- the first dropped word, and the words after it
    have hk : k < buf.length := by rw [hlen]; omega
    have hcons : (buf.take n).drop k = buf[k] :: (buf.take n).drop (k + 1) := by
      rw [List.drop_eq_getElem_cons (by simp; omega), List.getElem_take]
    have hrest := List.valBE_lt (b := WORD_BASE) (by decide) (l := (buf.take n).drop (k + 1))
      (fun x hx => hlt x (List.mem_of_mem_take (List.mem_of_mem_drop hx)))
    rw [List.length_drop, List.length_take, hlen, Nat.min_eq_left hn, WORD_BASE_pow] at hrest
    have hw : buf[k] < 10 ^ (8 + 1) := hlt _ (List.getElem_mem hk)
    refine ⟨decide (buf[k] / DIG_MASK ≥ 5), ?_, ?_⟩
    · simp only [alignedDoInc, htoIdx, getWord_natCast, List.getElem?_eq_getElem hk, Option.map_eq_map,
        Option.map_some]
    · rw [hD, hcons, List.valBE_cons, List.length_drop, List.length_take, hlen, Nat.min_eq_left hn, WORD_BASE_pow,
        show DIGITS_PER_WORD * (n - k) = DIGITS_PER_WORD * (n - (k + 1)) + 9 by unfold DIGITS_PER_WORD; omega,
        divRound_mul_pow_add (by decide) _ (by decide) hrest]
      show buf[k] / 10 ^ (8 + 1) + (if 10 ^ (8 + 1) ≤ 2 * (buf[k] % 10 ^ (8 + 1)) then 1 else 0) =
        (decide (buf[k] / 10 ^ 8 ≥ 5)).toNat
      rw [Nat.div_eq_of_lt hw, Nat.mod_eq_of_lt hw, Nat.zero_add]
      by_cases h5 : 5 ≤ buf[k] / 10 ^ 8
      · rw [if_pos ((le_two_mul_iff_of_lt hw).mpr h5), decide_eq_true h5]
        rfl
      · rw [if_neg (fun h => h5 ((le_two_mul_iff_of_lt hw).mp h)), decide_eq_false h5]
        rfl

/-- What `round_with_word_buf_len` hands to `handle_incr`: nine digits of
which the integer and fraction words are used, `int_cnt` a whole number of
words, and a scale that drops `9 * frac_words_to - frac` digits (at most
nine) of the word at `to_idx = int_word_cnt + frac_words_to - 1`: a scale on
a word boundary before the last fraction word, or inside a kept word. No
word is kept only for the scale `0` of a decimal without integer words. -/
structure IncrReady (res : Res Decimal) (intWordCnt fracWordCnt : Nat) (fracWordsTo frac : Int) : Prop where
  length : res.unwrap.wordBuf.length = WORD_BUF_LEN
  notOverflow : res.isOverflow = false
  word_lt : ∀ w ∈ res.unwrap.wordBuf, w < WORD_BASE
  intCnt : res.unwrap.intCnt = DIGITS_PER_WORD * intWordCnt
  fracWords : wordCnt res.unwrap.fracCnt = fracWordCnt
  fits : intWordCnt + fracWordCnt ≤ WORD_BUF_LEN
  fracCnt : wordCnt (max 0 frac).toNat = (max 0 fracWordsTo).toNat
  fracWordsTo_lt : fracWordsTo < WORD_BUF_LEN
  fracWordsTo_le : fracWordsTo ≤ fracWordCnt
  dropped : frac ≤ fracWordsTo * DIGITS_PER_WORD ∧ fracWordsTo * DIGITS_PER_WORD ≤ frac + DIGITS_PER_WORD
  aligned : frac = fracWordsTo * DIGITS_PER_WORD → fracWordsTo < fracWordCnt
  kept : 0 ≤ intWordCnt + fracWordsTo
  kept_zero : intWordCnt + fracWordsTo = 0 ↔ frac = 0 ∧ intWordCnt = 0

/-- What rounding returns for a decimal `dec` whose rounded value is `x`:
`Overflow` exactly when `x` needs more than 81 integer digits, and otherwise
the value `x`; a negative result only for a negative `x`; and a `Truncated`
tag only from the input or when `full` holds. -/
structure RoundOut (dec r : Res Decimal) (x : ℚ) (full : Prop) : Prop where
  overflow : r.isOverflow = true ↔ (10 : ℚ) ^ (DIGITS_PER_WORD * WORD_BUF_LEN) ≤ |x|
  value : r.isOverflow = false → r.unwrap.value = x
  negative : r.unwrap.negative = true → x < 0
  truncated : r.isTruncated = true → dec.isTruncated = true ∨ full

/-- Kept words worth at most `10^(9k)` reach `10^81` only as `10^(9k)` with
nine integer words. -/
theorem kept_overflow_iff {N k I : Nat} (hN : N ≤ WORD_BASE ^ k) (hI : I ≤ WORD_BUF_LEN) :
    N = WORD_BASE ^ k ∧ I = WORD_BUF_LEN ↔
      (10 : ℚ) ^ (DIGITS_PER_WORD * WORD_BUF_LEN) ≤ N * (WORD_BASE : ℚ) ^ ((I : ℤ) - k) := by
  have hB : (0 : ℚ) < (WORD_BASE : ℚ) ^ k := pow_pos (by norm_num [WORD_BASE]) k
  have hBI : WORD_BASE ^ I ≤ WORD_BASE ^ WORD_BUF_LEN := Nat.pow_le_pow_right (by decide) hI
  -- both sides times `10^(9k)`, in naturals
  have hnat : (10 : ℚ) ^ (DIGITS_PER_WORD * WORD_BUF_LEN) ≤ N * (WORD_BASE : ℚ) ^ ((I : ℤ) - k) ↔
      WORD_BASE ^ WORD_BUF_LEN * WORD_BASE ^ k ≤ N * WORD_BASE ^ I := by
    rw [zpow_sub₀ (by norm_num [WORD_BASE]), zpow_natCast, zpow_natCast, mul_div_assoc', le_div_iff₀ hB,
      ← Nat.cast_ofNat, ← Nat.cast_pow, ← WORD_BASE_pow]
    exact_mod_cast Iff.rfl
  rw [hnat]
  constructor
  · rintro ⟨rfl, rfl⟩
    rw [Nat.mul_comm]
  · intro hle
    have hup : N * WORD_BASE ^ I ≤ WORD_BASE ^ k * WORD_BASE ^ WORD_BUF_LEN :=
      Nat.mul_le_mul hN hBI
    -- nine integer words: fewer would leave the product below `10^(9k) · 10^81`
    have hI9 : I = WORD_BUF_LEN := by
      by_contra hne
      have hlt : WORD_BASE ^ I < WORD_BASE ^ WORD_BUF_LEN := Nat.pow_lt_pow_right (by decide) (by omega)
      have : N * WORD_BASE ^ I < WORD_BASE ^ k * WORD_BASE ^ WORD_BUF_LEN := by
        calc N * WORD_BASE ^ I ≤ WORD_BASE ^ k * WORD_BASE ^ I := Nat.mul_le_mul_right _ hN
          _ < WORD_BASE ^ k * WORD_BASE ^ WORD_BUF_LEN := Nat.mul_lt_mul_of_pos_left hlt (Nat.pow_pos (by decide))
      rw [Nat.mul_comm (WORD_BASE ^ k)] at this
      omega
    subst hI9
    refine ⟨le_antisymm hN ?_, rfl⟩
    rw [Nat.mul_comm] at hle
    exact Nat.le_of_mul_le_mul_right hle (Nat.pow_pos (by decide))

/-- `handle_carry`'s result read as a rounding: its kept words, worth `N`,
stand for `q · 10^e`. -/
theorem CarryResult.roundOut {dec r : Res Decimal} {k I : Nat} {fwt : Int} {N q : Nat} {e : ℤ}
    (hc : CarryResult dec r k I fwt N) (hI : I ≤ WORD_BUF_LEN) (hN : N ≤ WORD_BASE ^ k)
    (hNq : (N : ℚ) * (WORD_BASE : ℚ) ^ ((I : ℤ) - k) = q * 10 ^ e) :
    RoundOut dec r ((if dec.unwrap.negative then -1 else 1) * q * 10 ^ e) ((WORD_BUF_LEN : ℤ) ≤ I + fwt) := by
  have habs : |(if dec.unwrap.negative then -1 else 1) * (q : ℚ) * 10 ^ e| = q * 10 ^ e := by
    rw [mul_assoc, abs_mul, abs_of_nonneg (by positivity : (0 : ℚ) ≤ q * 10 ^ e)]
    split_ifs <;> simp
  refine ⟨?_, fun hno => ?_, fun hneg => ?_, fun htr => (hc.truncated htr).imp_right And.right⟩
  · rw [hc.overflow, habs, ← hNq]
    exact kept_overflow_iff hN hI
  · rw [hc.value hno, mul_assoc, hNq, mul_assoc]
  · obtain ⟨hdneg, hN0⟩ := hc.negative hneg
    have hq : (0 : ℚ) < q * 10 ^ e := by
      rw [← hNq]
      have hN0' : (0 : ℚ) < N := by exact_mod_cast Nat.pos_of_ne_zero hN0
      exact mul_pos hN0' (zpow_pos (by norm_num [WORD_BASE]) _)
    rw [if_pos hdneg, mul_assoc]
    linarith

section Incr

variable {res : Res Decimal} {I F : Nat} {fwt frac : Int}

theorem IncrReady.mantissa (h : IncrReady res I F fwt frac) :
    res.unwrap.mantissa = List.valBE WORD_BASE (res.unwrap.wordBuf.take (I + F)) := by
  rw [Decimal.mantissa, Decimal.words, h.intCnt, wordCnt_mul I (by have := h.fits; omega), h.fracWords]

/-- The value rounded at the scale is the mantissa rounded at the digits the
scale drops. -/
theorem IncrReady.roundAt_value (h : IncrReady res I F fwt frac) (mode : Rounding.Mode) :
    roundAt mode res.unwrap.value frac = (if res.unwrap.negative then -1 else 1) *
      (divRound mode (List.valBE WORD_BASE (res.unwrap.wordBuf.take (I + F)))
        (10 ^ ((DIGITS_PER_WORD * F : Nat) - frac).toNat) : ℚ) * 10 ^ (-frac) := by
  have hF := h.fracWordsTo_le
  have hd := h.dropped
  have hs : ((DIGITS_PER_WORD * F : Nat) : ℤ) - (((DIGITS_PER_WORD * F : Nat) - frac).toNat : ℕ) = frac := by
    unfold DIGITS_PER_WORD at *
    omega
  have hround := roundAt_mantissa mode res.unwrap.negative res.unwrap.mantissa (DIGITS_PER_WORD * F)
    ((DIGITS_PER_WORD * F : Nat) - frac).toNat
  rw [hs] at hround
  have hval : res.unwrap.value = (if res.unwrap.negative then -1 else 1) * (res.unwrap.mantissa : ℚ) /
      10 ^ (DIGITS_PER_WORD * F) := by
    rw [Decimal.value, h.fracWords, ← Nat.cast_pow, WORD_BASE_pow, Nat.cast_pow, Nat.cast_ofNat]
  rw [hval, hround, h.mantissa, zpow_neg, div_eq_mul_inv]

/-- The buffer after the increment once the words after the kept ones are
cleared (`for i in idx..word_buf_len`), when the scale drops a fraction word. -/
def clearAfter (res₁ : Res Decimal) (t : Nat) (fwt : Int) (F : Nat) : Res Decimal :=
  if fwt < F then
    res₁.map fun d => { d with wordBuf := d.wordBuf.take (t + 1) ++ List.replicate (WORD_BUF_LEN - (t + 1)) 0 }
  else res₁

theorem take_clearAfter {res₁ : Res Decimal} {t : Nat} (fwt : Int) (F : Nat)
    (hlen : res₁.unwrap.wordBuf.length = WORD_BUF_LEN) (ht : t < WORD_BUF_LEN) :
    (clearAfter res₁ t fwt F).unwrap.wordBuf.take (t + 1) = res₁.unwrap.wordBuf.take (t + 1) := by
  unfold clearAfter
  split_ifs
  · rw [Res.unwrap_map, List.take_append_of_le_length (by rw [List.length_take, hlen]; omega), List.take_take,
      Nat.min_self]
  · rfl

@[simp] theorem clearAfter_isOverflow (res₁ : Res Decimal) (t : Nat) (fwt : Int) (F : Nat) :
    (clearAfter res₁ t fwt F).isOverflow = res₁.isOverflow := by
  unfold clearAfter
  split_ifs <;> simp

@[simp] theorem clearAfter_isTruncated (res₁ : Res Decimal) (t : Nat) (fwt : Int) (F : Nat) :
    (clearAfter res₁ t fwt F).isTruncated = res₁.isTruncated := by
  unfold clearAfter
  split_ifs <;> simp

@[simp] theorem clearAfter_negative (res₁ : Res Decimal) (t : Nat) (fwt : Int) (F : Nat) :
    (clearAfter res₁ t fwt F).unwrap.negative = res₁.unwrap.negative := by
  unfold clearAfter
  split_ifs <;> simp

/-- One word `x` written at `t` and the words after the kept ones cleared:
what `handle_carry` needs, when the kept words end at `t`. -/
theorem carryReady_of_kept (h : IncrReady res I F fwt frac) {res₁ : Res Decimal} {t x : Nat}
    (hbuf : res₁.unwrap.wordBuf = res.unwrap.wordBuf.set t x) (hcnt : res₁.unwrap.intCnt = res.unwrap.intCnt)
    (hover : res₁.isOverflow = false) (ht : t < WORD_BUF_LEN) (hx : x ≤ WORD_BASE)
    (hkept : (t : ℤ) + 1 = I + fwt ∨ (I = 0 ∧ fwt = 0 ∧ t = 0 ∧ x = WORD_BASE)) :
    CarryReady (clearAfter res₁ t fwt F) t I frac fwt := by
  have hlen₁ : res₁.unwrap.wordBuf.length = WORD_BUF_LEN := by rw [hbuf, List.length_set, h.length]
  have htlt : t < res.unwrap.wordBuf.length := by rw [h.length]; exact ht
  have htake := take_clearAfter fwt F hlen₁ ht
  have hlen₂ : (clearAfter res₁ t fwt F).unwrap.wordBuf.length = WORD_BUF_LEN := by
    unfold clearAfter
    split_ifs
    · simp only [Res.unwrap_map, List.length_append, List.length_take, List.length_replicate, hlen₁]
      omega
    · exact hlen₁
  have hget : ∀ i, i ≤ t → (clearAfter res₁ t fwt F).unwrap.wordBuf[i]? = res₁.unwrap.wordBuf[i]? := by
    intro i hi
    rw [← List.getElem?_take_of_lt (Nat.lt_succ_of_le hi), htake, List.getElem?_take_of_lt (Nat.lt_succ_of_le hi)]
  have hF := h.fracWordsTo_le
  refine ⟨hlen₂, by simp [hover], ht, ?_, ?_, ?_, by have := h.fits; omega, ?_, h.fracWordsTo_lt, h.fracCnt, ?_⟩
  · -- the words below `t` are the input's
    have hinit : ∀ l : List Nat, l.take t = (l.take (t + 1)).take t := fun l => by
      rw [List.take_take, Nat.min_eq_left (by omega)]
    intro y hy
    rw [hinit, htake, ← hinit, hbuf, List.take_set_of_le le_rfl] at hy
    exact h.word_lt y (List.mem_of_mem_take hy)
  · intro w hw
    rw [hget t le_rfl, hbuf, List.getElem?_set_self htlt] at hw
    cases hw
    exact hx
  · unfold clearAfter
    split_ifs <;> simp [hcnt, h.intCnt]
  · rcases hkept with hk | ⟨h1, h2, h3, h4⟩
    · exact .inl hk
    · subst h3 h4
      refine .inr ⟨h1, h2, rfl, ?_⟩
      rw [hget 0 le_rfl, hbuf, List.getElem?_set_self htlt]
  · intro i hti hiI
    have hfits := h.fits
    unfold clearAfter
    split_ifs with hlt
    · rw [Res.unwrap_map]
      show (_ ++ _)[i]? = _
      rw [List.getElem?_append_right (by simp [hlen₁]; omega), List.getElem?_replicate,
        if_pos (by simp [hlen₁]; unfold WORD_BUF_LEN at *; omega)]
    · -- no word cleared: the kept words reach every integer word
      exfalso
      rcases hkept with hk | ⟨h1, -, -, -⟩ <;> omega

/-- The kept words after the increment: the input's words below `t`, then `x`. -/
theorem kept_clearAfter (h : IncrReady res I F fwt frac) {res₁ : Res Decimal} {t x : Nat}
    (hbuf : res₁.unwrap.wordBuf = res.unwrap.wordBuf.set t x) (ht : t < WORD_BUF_LEN) :
    List.valBE WORD_BASE ((clearAfter res₁ t fwt F).unwrap.wordBuf.take (t + 1)) =
      List.valBE WORD_BASE (res.unwrap.wordBuf.take t) * WORD_BASE + x := by
  have htlt : t < res.unwrap.wordBuf.length := by rw [h.length]; exact ht
  rw [take_clearAfter fwt F (by rw [hbuf, List.length_set, h.length]) ht, hbuf,
    take_succ_of_getElem? (List.getElem?_set_self htlt), List.take_set_of_le le_rfl, List.valBE_concat]

/-- After an increment that keeps the words up to `t`, `handle_incr` clears
the words after them and hands the buffer to `handle_carry`. -/
theorem handleIncr_of_incr {mode : RoundMode} {res₁ : Res Decimal} {t : Nat}
    (hinc : incrLastWord res I fwt frac F mode = some (some (res₁, (t : ℤ))))
    (hidx : (if frac = 0 ∧ I = 0 then (1 : ℤ) else I + fwt) = t + 1)
    (hlen : res₁.unwrap.wordBuf.length = WORD_BUF_LEN) (ht : t < WORD_BUF_LEN) :
    handleIncr res I fwt frac F WORD_BUF_LEN mode = handleCarry (clearAfter res₁ t fwt F) t frac fwt I WORD_BUF_LEN := by
  have hidx' : ((t : ℤ) + 1).toNat = t + 1 := by omega
  have hclear : res₁.mapM (·.zeroWordsAt (t + 1) (WORD_BUF_LEN - (t + 1))) =
      some (res₁.map fun d => { d with wordBuf := d.wordBuf.take (t + 1) ++ List.replicate (WORD_BUF_LEN - (t + 1)) 0 }) := by
    rw [mapM_zeroWordsAt (by rw [hlen]; omega)]
    congr 1
    refine Res.map_congr_unwrap ?_
    rw [List.drop_eq_nil_of_le (by rw [hlen]; omega), List.append_nil]
  simp only [handleIncr, hinc, Option.bind_eq_bind, Option.bind_some, hidx, hidx', hclear,
    if_pos (show (0 : ℤ) ≤ t + 1 by omega), if_neg (show ¬ (t : ℤ) < 0 by omega), Int.toNat_natCast]
  unfold clearAfter
  split_ifs <;> rfl

/-- The used words split after the `k` kept ones. -/
theorem IncrReady.mantissa_split (h : IncrReady res I F fwt frac) {k : Nat} (hk : k ≤ I + F) :
    List.valBE WORD_BASE (res.unwrap.wordBuf.take (I + F)) =
      List.valBE WORD_BASE (res.unwrap.wordBuf.take k) * 10 ^ (DIGITS_PER_WORD * (I + F - k)) +
        List.valBE WORD_BASE ((res.unwrap.wordBuf.take (I + F)).drop k) := by
  rw [List.valBE_take_of_le _ hk, List.length_drop, List.length_take, h.length, Nat.min_eq_left h.fits,
    WORD_BASE_pow]

/-- `handle_carry`'s result on the kept words read as the rounding of `res`,
once the kept words are known to stand for the rounded mantissa `q`. -/
theorem roundOut_of_kept (h : IncrReady res I F fwt frac) (mode : Rounding.Mode) {res₂ r : Res Decimal}
    {t q : Nat} (hready : CarryReady res₂ t I frac fwt)
    (hc : CarryResult res₂ r (t + 1) I fwt (List.valBE WORD_BASE (res₂.unwrap.wordBuf.take (t + 1))))
    (hneg : res₂.unwrap.negative = res.unwrap.negative) (htr : res₂.isTruncated = res.isTruncated)
    (hq : q = divRound mode (List.valBE WORD_BASE (res.unwrap.wordBuf.take (I + F)))
      (10 ^ ((DIGITS_PER_WORD * F : Nat) - frac).toNat))
    (hNq : (List.valBE WORD_BASE (res₂.unwrap.wordBuf.take (t + 1)) : ℚ) *
      (WORD_BASE : ℚ) ^ ((I : ℤ) - (t + 1 : ℕ)) = q * 10 ^ (-frac)) :
    RoundOut res r (roundAt mode res.unwrap.value frac) ((WORD_BUF_LEN : ℤ) ≤ I + fwt) := by
  have hout := hc.roundOut hready.intWordCnt_le hready.kept_le hNq
  rw [hneg] at hout
  rw [h.roundAt_value mode, ← hq]
  exact ⟨hout.overflow, hout.value, hout.negative, fun ht => htr ▸ hout.truncated ht⟩

/-- A scale on a word boundary that keeps words: the last kept word goes up
by the rounding of the dropped words, then the carry. -/
theorem handleIncr_aligned (h : IncrReady res I F fwt frac) (mode : RoundMode)
    (hal : frac = fwt * DIGITS_PER_WORD) (hk : 0 < (I : ℤ) + fwt) :
    ∃ r, handleIncr res I fwt frac F WORD_BUF_LEN mode = some r ∧
      RoundOut res r (roundAt mode.toMode res.unwrap.value frac) ((WORD_BUF_LEN : ℤ) ≤ I + fwt) := by
  obtain ⟨t, htI⟩ : ∃ t : Nat, (t : ℤ) + 1 = I + fwt := ⟨(I + fwt - 1).toNat, by omega⟩
  have hfwt := h.aligned hal
  have hfits := h.fits
  have hn : t + 1 < I + F := by omega
  have ht : t < WORD_BUF_LEN := by omega
  have htlt : t < res.unwrap.wordBuf.length := by rw [h.length]; exact ht
  have hw : res.unwrap.wordBuf[t] < WORD_BASE := h.word_lt _ (List.getElem_mem htlt)
  obtain ⟨inc, hinc, hq⟩ := alignedDoInc_spec h.length h.word_lt hn hfits (I + fwt - 1) (by omega)
    F fwt (by omega) mode
  -- the rounded mantissa: the kept words and the increment
  have hs : ((DIGITS_PER_WORD * F : Nat) - frac).toNat = DIGITS_PER_WORD * (I + F - (t + 1)) := by
    unfold DIGITS_PER_WORD at *
    omega
  have hsplit := h.mantissa_split hn.le
  have hqK : divRound mode.toMode (List.valBE WORD_BASE (res.unwrap.wordBuf.take (I + F))) (10 ^ ((DIGITS_PER_WORD * F : Nat) - frac).toNat) =
      List.valBE WORD_BASE (res.unwrap.wordBuf.take t) * WORD_BASE + res.unwrap.wordBuf[t] + inc.toNat := by
    rw [hs, hsplit, divRound_mul_add _ _ _ (Nat.pow_pos (by omega)), hq, List.valBE_take_succ htlt]
  have hidx : (if frac = 0 ∧ I = 0 then (1 : ℤ) else I + fwt) = t + 1 := by
    rw [if_neg (fun h0 => by have := h.kept_zero.mpr h0; omega), htI]
  have htI' : (I : ℤ) + fwt - 1 = t := by omega
  have hinc' : alignedDoInc res.unwrap.wordBuf t F fwt mode = some inc := by rw [← htI']; exact hinc
  -- the word written at `t` and what `handle_carry` receives
  obtain ⟨res₁, hincr, hbuf, hcnt, hover, hneg, htr⟩ : ∃ res₁ : Res Decimal,
      incrLastWord res I fwt frac F mode = some (some (res₁, (t : ℤ))) ∧
      res₁.unwrap.wordBuf = res.unwrap.wordBuf.set t (res.unwrap.wordBuf[t] + inc.toNat) ∧ res₁.unwrap.intCnt = res.unwrap.intCnt ∧
      res₁.isOverflow = false ∧ res₁.unwrap.negative = res.unwrap.negative ∧
      res₁.isTruncated = res.isTruncated := by
    cases inc with
    | true =>
      have hincr : incrLastWord res I fwt frac F mode =
          some (some (res.map (fun d => { d with wordBuf := d.wordBuf.set t (res.unwrap.wordBuf[t] + 1) }), (t : ℤ))) := by
        simp only [incrLastWord, if_pos hal, htI', hinc', Option.bind_eq_bind, Option.bind_some, if_true,
          if_pos (Int.natCast_nonneg t), getWord_natCast, List.getElem?_eq_getElem htlt,
          mapM_setWordAt rfl htlt]
        rfl
      exact ⟨_, hincr, by simp, by simp, by simp [h.notOverflow], by simp, by simp⟩
    | false =>
      refine ⟨res, ?_, by simp, rfl, h.notOverflow, rfl, rfl⟩
      have hne : ¬ ((I : ℤ) + fwt = 0) := by omega
      simp only [incrLastWord, if_pos hal, htI', hinc', Option.bind_eq_bind, Option.bind_some, Bool.false_eq_true,
        if_false, if_neg hne]
      rfl
  have hlen₁ : res₁.unwrap.wordBuf.length = WORD_BUF_LEN := by rw [hbuf, List.length_set, h.length]
  have hready := carryReady_of_kept h hbuf hcnt hover ht (by cases inc <;> simp <;> omega) (.inl htI)
  obtain ⟨r, hr, hc⟩ := handleCarry_spec hready
  refine ⟨r, by rw [handleIncr_of_incr hincr hidx hlen₁ ht]; exact hr, ?_⟩
  refine roundOut_of_kept h mode.toMode hready hc (by simp [hneg]) (by simp [htr]) hqK.symm ?_
  rw [kept_clearAfter h hbuf ht, WORD_BASE_zpow, show ((DIGITS_PER_WORD : ℤ) * (I - (t + 1 : ℕ))) = -frac by
    push_cast; unfold DIGITS_PER_WORD at *; omega]
  push_cast
  ring

/-- The scale `0` of a decimal without integer words keeps no word: a zero,
or a first word of `10^9` that the carry turns into `1`. -/
theorem handleIncr_noWord (h : IncrReady res I F fwt frac) (mode : RoundMode) (hk : (I : ℤ) + fwt = 0) :
    ∃ r, handleIncr res I fwt frac F WORD_BUF_LEN mode = some r ∧
      RoundOut res r (roundAt mode.toMode res.unwrap.value frac) ((WORD_BUF_LEN : ℤ) ≤ I + fwt) := by
  obtain ⟨hfrac, hI⟩ := h.kept_zero.mp hk
  subst hfrac hI
  have hfwt : fwt = 0 := by omega
  subst hfwt
  have hal : (0 : ℤ) = 0 * DIGITS_PER_WORD := by simp
  have hF := h.aligned hal
  have hfits := h.fits
  have htlt : 0 < res.unwrap.wordBuf.length := by rw [h.length]; decide
  obtain ⟨inc, hinc, hq⟩ := alignedDoInc_spec h.length h.word_lt (k := 0) (n := 0 + F) (by omega) hfits
    ((0 : ℕ) + (0 : ℤ) - 1) (by omega) F 0 (by omega) mode
  -- nothing kept: the rounded mantissa is the increment alone
  have hqK : divRound mode.toMode (List.valBE WORD_BASE (res.unwrap.wordBuf.take (0 + F)))
      (10 ^ ((DIGITS_PER_WORD * F : Nat) - (0 : ℤ)).toNat) = inc.toNat := by
    rw [h.mantissa_split (Nat.zero_le _), List.take_zero, List.valBE_nil, Nat.zero_mul, Nat.zero_add,
      Int.sub_zero, Int.toNat_natCast, Nat.sub_zero, Nat.zero_add] at *
    exact hq
  cases inc with
  | false =>
    -- `return Res::Ok(Self::zero())`
    rw [h.roundAt_value mode.toMode, hqK]
    have hincr : incrLastWord res 0 0 0 F mode = some none := by
      simp only [incrLastWord, hinc, Option.bind_eq_bind, Option.bind_some, Bool.false_eq_true, if_false]
      simp
    refine ⟨.ok Decimal.zero, by simp [handleIncr, hincr], ⟨?_, fun _ => ?_, fun hneg => ?_, fun htr => ?_⟩⟩
    · simp [Res.isOverflow]
    · simp [Res.unwrap, Decimal.value, Decimal.mantissa, Decimal.words, Decimal.zero, Decimal.new]
    · cases hneg
    · cases htr
  | true =>
    -- the first word becomes `10^9`
    have hincr : incrLastWord res 0 0 0 F mode =
        some (some (res.map (fun d => { d with wordBuf := d.wordBuf.set 0 WORD_BASE }), ((0 : ℕ) : ℤ))) := by
      simp only [incrLastWord, hinc, Option.bind_eq_bind, Option.bind_some, if_true]
      simp only [Nat.cast_zero, zero_add, zero_sub, ge_iff_le, Left.nonneg_neg_iff, Int.reduceLE, if_false,
        neg_add_cancel, mapM_setWordAt (i := 0) (j := 0) rfl htlt WORD_BASE]
      rfl
    have hbuf : (res.map (fun d : Decimal => { d with wordBuf := d.wordBuf.set 0 WORD_BASE })).unwrap.wordBuf =
        res.unwrap.wordBuf.set 0 WORD_BASE := by simp
    have hlen₁ : (res.map (fun d : Decimal => { d with wordBuf := d.wordBuf.set 0 WORD_BASE })).unwrap.wordBuf.length =
        WORD_BUF_LEN := by rw [hbuf, List.length_set, h.length]
    have hready := carryReady_of_kept h hbuf (by simp) (by simp [h.notOverflow]) (by decide) le_rfl
      (.inr ⟨rfl, rfl, rfl, rfl⟩)
    obtain ⟨r, hr, hc⟩ := handleCarry_spec hready
    refine ⟨r, by rw [handleIncr_of_incr hincr (by simp) hlen₁ (by decide)]; exact hr, ?_⟩
    refine roundOut_of_kept h mode.toMode hready hc (by simp) (by simp) hqK.symm ?_
    rw [kept_clearAfter h hbuf (by decide), List.take_zero, List.valBE_nil, Nat.zero_mul, Nat.zero_add]
    norm_num [WORD_BASE]

/-- The word at an unaligned scale stays at most `10^9`. -/
theorem roundWordAt_le {w u : Nat} (hu : u ≤ 8) (hw : w < WORD_BASE) {mode : RoundMode} (hmode : mode ≠ .ceiling) :
    roundWordAt w (10 ^ u) mode ≤ WORD_BASE := by
  have hB : WORD_BASE = 10 ^ (u + 1) * 10 ^ (8 - u) := by
    rw [← Nat.pow_add, show u + 1 + (8 - u) = 9 by omega]
    rfl
  have hq : w / 10 ^ (u + 1) < 10 ^ (8 - u) := by
    rw [Nat.div_lt_iff_lt_mul (Nat.pow_pos (by omega)), Nat.mul_comm, ← hB]
    exact hw
  rw [roundWordAt_eq w u hmode, hB]
  exact Nat.mul_le_mul_left _ ((divRound_le _ _ _).trans hq)

/-- A scale inside the word `to_idx`: that word is rounded at the scale from
the digit after it, then the carry. Only `HalfEven` and `Truncate`: the
source's `Ceiling` reads the one digit after the scale. -/
theorem handleIncr_unaligned (h : IncrReady res I F fwt frac) {mode : RoundMode} (hmode : mode ≠ .ceiling)
    (hal : frac ≠ fwt * DIGITS_PER_WORD) :
    ∃ r, handleIncr res I fwt frac F WORD_BUF_LEN mode = some r ∧
      RoundOut res r (roundAt mode.toMode res.unwrap.value frac) ((WORD_BUF_LEN : ℤ) ≤ I + fwt) := by
  have hd := h.dropped
  have hfits := h.fits
  have hF := h.fracWordsTo_le
  -- a word is kept: the scale `0` of a decimal without integer words is on a boundary
  have hk : 0 < (I : ℤ) + fwt := by
    rcases (h.kept).lt_or_eq with hk | hk
    · exact hk
    · obtain ⟨rfl, rfl⟩ := h.kept_zero.mp hk.symm
      exact absurd (by simp; omega) hal
  obtain ⟨t, htI⟩ : ∃ t : Nat, (t : ℤ) + 1 = I + fwt := ⟨(I + fwt - 1).toNat, by omega⟩
  -- `u + 1` digits of the word `t` are dropped
  obtain ⟨u, hu⟩ : ∃ u : Nat, (u : ℤ) = fwt * DIGITS_PER_WORD - frac - 1 :=
    ⟨(fwt * DIGITS_PER_WORD - frac - 1).toNat, by unfold DIGITS_PER_WORD at *; omega⟩
  have hu8 : u ≤ 8 := by unfold DIGITS_PER_WORD at *; omega
  have hn : t + 1 ≤ I + F := by omega
  have ht : t < WORD_BUF_LEN := by omega
  have htlt : t < res.unwrap.wordBuf.length := by rw [h.length]; exact ht
  have hw : res.unwrap.wordBuf[t] < WORD_BASE := h.word_lt _ (List.getElem_mem htlt)
  have hmode' : mode.toMode ≠ .awayFromZero := by cases mode <;> simp_all [RoundMode.toMode]
  -- the rounded mantissa: the kept words rounded at `10^(u + 1)`
  have hs : ((DIGITS_PER_WORD * F : Nat) - frac).toNat = DIGITS_PER_WORD * (I + F - (t + 1)) + (u + 1) := by
    unfold DIGITS_PER_WORD at *
    omega
  have hBsplit : WORD_BASE = 10 ^ (8 - u) * 10 ^ (u + 1) := by
    rw [← Nat.pow_add, show 8 - u + (u + 1) = 9 by omega]
    rfl
  have hdropped := List.valBE_lt (b := WORD_BASE) (by decide) (l := (res.unwrap.wordBuf.take (I + F)).drop (t + 1))
    (fun x hx => h.word_lt x (List.mem_of_mem_take (List.mem_of_mem_drop hx)))
  rw [List.length_drop, List.length_take, h.length, Nat.min_eq_left hfits, WORD_BASE_pow] at hdropped
  have hqK : divRound mode.toMode (List.valBE WORD_BASE (res.unwrap.wordBuf.take (I + F)))
      (10 ^ ((DIGITS_PER_WORD * F : Nat) - frac).toNat) =
      List.valBE WORD_BASE (res.unwrap.wordBuf.take t) * 10 ^ (8 - u) +
        divRound mode.toMode res.unwrap.wordBuf[t] (10 ^ (u + 1)) := by
    rw [hs, h.mantissa_split hn, divRound_mul_pow_add hmode' _ (by omega) hdropped, List.valBE_take_succ htlt,
      hBsplit, ← Nat.mul_assoc, divRound_mul_add _ _ _ (Nat.pow_pos (by omega))]
  have hidx : (if frac = 0 ∧ I = 0 then (1 : ℤ) else I + fwt) = t + 1 := by
    rw [if_neg (fun h0 => hal (by rw [h0.1]; have := h.kept_zero.mpr h0; omega)), htI]
  have htI' : (I : ℤ) + fwt - 1 = t := by omega
  have hten : tenPowAt (fwt * DIGITS_PER_WORD - frac - 1) = some (10 ^ u) := by
    rw [← hu]
    exact tenPowAt_of_le (by omega)
  -- the word written at `t`
  set x := roundWordAt res.unwrap.wordBuf[t] (10 ^ u) mode with hx
  have hincr : incrLastWord res I fwt frac F mode =
      some (some (res.map (fun d => { d with wordBuf := d.wordBuf.set t x }), (t : ℤ))) := by
    simp only [incrLastWord, if_neg hal, hten, htI', Option.bind_eq_bind, Option.bind_some, getWord_natCast,
      List.getElem?_eq_getElem htlt, mapM_setWordAt rfl htlt]
    rfl
  have hbuf : (res.map (fun d : Decimal => { d with wordBuf := d.wordBuf.set t x })).unwrap.wordBuf =
      res.unwrap.wordBuf.set t x := by simp
  have hlen₁ : (res.map (fun d : Decimal => { d with wordBuf := d.wordBuf.set t x })).unwrap.wordBuf.length =
      WORD_BUF_LEN := by rw [hbuf, List.length_set, h.length]
  have hready := carryReady_of_kept h hbuf (by simp) (by simp [h.notOverflow]) ht (roundWordAt_le hu8 hw hmode)
    (.inl htI)
  obtain ⟨r, hr, hc⟩ := handleCarry_spec hready
  refine ⟨r, by rw [handleIncr_of_incr hincr hidx hlen₁ ht]; exact hr, ?_⟩
  refine roundOut_of_kept h mode.toMode hready hc (by simp) (by simp) hqK.symm ?_
  -- the kept words are the rounded mantissa followed by `u + 1` zero digits
  have hN : List.valBE WORD_BASE (res.unwrap.wordBuf.take t) * WORD_BASE + x =
      10 ^ (u + 1) * (List.valBE WORD_BASE (res.unwrap.wordBuf.take t) * 10 ^ (8 - u) +
        divRound mode.toMode res.unwrap.wordBuf[t] (10 ^ (u + 1))) := by
    rw [hx, roundWordAt_eq _ u hmode, hBsplit]
    ring
  have hexp : (10 : ℚ) ^ ((DIGITS_PER_WORD : ℤ) * (I - (t + 1 : ℕ))) * (10 : ℚ) ^ (u + 1) = 10 ^ (-frac) := by
    rw [← zpow_natCast, ← zpow_add₀ (by norm_num)]
    congr 1
    push_cast
    unfold DIGITS_PER_WORD at *
    omega
  rw [kept_clearAfter h hbuf ht, hN, WORD_BASE_zpow, ← hexp]
  push_cast
  ring

/-- `handle_incr` on what `round_with_word_buf_len` hands it rounds the value
at the scale, `Ceiling` only on a word boundary. -/
theorem handleIncr_spec (h : IncrReady res I F fwt frac) {mode : RoundMode}
    (hmode : mode = .ceiling → frac = fwt * DIGITS_PER_WORD) :
    ∃ r, handleIncr res I fwt frac F WORD_BUF_LEN mode = some r ∧
      RoundOut res r (roundAt mode.toMode res.unwrap.value frac) ((WORD_BUF_LEN : ℤ) ≤ I + fwt) := by
  by_cases hal : frac = fwt * DIGITS_PER_WORD
  · rcases h.kept.lt_or_eq with hk | hk
    · exact handleIncr_aligned h mode hal hk
    · exact handleIncr_noWord h mode hk.symm
  · exact handleIncr_unaligned h (fun hc => hal (hmode hc)) hal

end Incr

end Tikv.Codec.Mysql
