import Tikv.Codec.Mysql.DecimalRound

/-!
# What `handle_carry` returns

`handle_incr` leaves the kept words of a rounded decimal in the buffer: the
words before `to_idx` are base-`10^9` digits, the word at `to_idx` may have
reached `10^9`, `int_cnt` is a whole number of words, and the words that
the scale drops are zero. `CarryReady` names these facts. `handle_carry`
then either finds the kept words all zero (a positive zero), keeps them, or
takes the carry of a word at `10^9` up the buffer; a carry past the first
word moves every word one place down and writes a leading `1`.

`CarryResult` says what comes out, for kept words worth `N` in `k` words:
`Overflow` exactly when the carry leaves nine integer words, otherwise the
value `± N · 10^(9 (I - k))`, no negative zero, and a `Truncated` tag only
from the input or from a carry into a buffer that the kept words fill.

Results:
* `handleCarry_zero`, `handleCarry_keep`, `handleCarry_inc`,
  `handleCarry_carry`: one lemma per path of `handle_carry`;
* `handleCarry_spec`: every input `handle_incr` hands over gives a result
  (no panic), and the result is a `CarryResult`.
-/
namespace Tikv.Codec.Mysql

/-- The value of a decimal whose counts use `I + mf` words, the first `k`
of them holding `N` and the others zero. -/
theorem value_eq_of_take {e : Decimal} {k I F N : Nat} (hI : wordCnt e.intCnt = I)
    (hf : wordCnt e.fracCnt = F) (hku : k ≤ I + F) (hlen : I + F ≤ e.wordBuf.length)
    (hN : List.valBE WORD_BASE (e.wordBuf.take k) = N)
    (hz : ∀ i, k ≤ i → i < I + F → e.wordBuf[i]? = some 0) :
    e.value = (if e.negative then -1 else 1) * N * (WORD_BASE : ℚ) ^ ((I : ℤ) - k) := by
  have hm : e.mantissa = N * WORD_BASE ^ (I + F - k) := by
    rw [Decimal.mantissa, Decimal.words, hI, hf, List.valBE_take_of_zero hku hlen hz, hN]
  have hexp : (I : ℤ) - k = ((I + F - k : ℕ) : ℤ) - F := by omega
  rw [Decimal.value, hm, hf, hexp, zpow_sub₀ (by norm_num [WORD_BASE]), zpow_natCast, zpow_natCast]
  push_cast
  ring

/-- What `handle_incr` hands to `handle_carry`: the words below `to_idx` are
digits and the word at `to_idx` at most `10^9`; `int_cnt` is `int_word_cnt`
whole words; the kept words are the integer words and the scale's fraction
words, or the first word alone at `10^9` for a scale at the units of a
decimal without integer words; and the integer words after the kept ones
are zero. -/
structure CarryReady (dec : Res Decimal) (toIdx intWordCnt : Nat) (frac fracWordTo : Int) : Prop where
  length : dec.unwrap.wordBuf.length = WORD_BUF_LEN
  notOverflow : dec.isOverflow = false
  toIdx_lt : toIdx < WORD_BUF_LEN
  digits : ∀ x ∈ dec.unwrap.wordBuf.take toIdx, x < WORD_BASE
  last_le : ∀ w, dec.unwrap.wordBuf[toIdx]? = some w → w ≤ WORD_BASE
  intCnt : dec.unwrap.intCnt = DIGITS_PER_WORD * intWordCnt
  intWordCnt_le : intWordCnt ≤ WORD_BUF_LEN
  kept : ((toIdx : Int) + 1 = intWordCnt + fracWordTo) ∨
    (intWordCnt = 0 ∧ fracWordTo = 0 ∧ toIdx = 0 ∧ dec.unwrap.wordBuf[0]? = some WORD_BASE)
  fracWordTo_lt : fracWordTo < WORD_BUF_LEN
  fracCnt : wordCnt (max 0 frac).toNat = (max 0 fracWordTo).toNat
  between : ∀ i, toIdx < i → i < intWordCnt → dec.unwrap.wordBuf[i]? = some 0

/-- What `handle_carry` returns for the kept words, `N` in their `k` words:
`Overflow` exactly when they carry into a tenth word, and otherwise their
value with `I` integer words; a negative result is not zero; and a
`Truncated` result comes from a truncated input or from a carry into a full
buffer. -/
structure CarryResult (dec r : Res Decimal) (k I : Nat) (fracWordTo : Int) (N : Nat) : Prop where
  overflow : r.isOverflow = true ↔ N = WORD_BASE ^ k ∧ I = WORD_BUF_LEN
  value : r.isOverflow = false →
    r.unwrap.value = (if dec.unwrap.negative then -1 else 1) * N * (WORD_BASE : ℚ) ^ ((I : ℤ) - k)
  negative : r.unwrap.negative = true → dec.unwrap.negative = true ∧ N ≠ 0
  truncated : r.isTruncated = true →
    dec.isTruncated = true ∨ (N = WORD_BASE ^ k ∧ WORD_BUF_LEN ≤ I + fracWordTo)

theorem truncateOnCarry_spec {dec dec' : Res Decimal} {I L : Nat} {fwt frac fwt' frac' : Int}
    (h : truncateOnCarry dec I L fwt frac = (dec', fwt', frac')) :
    (dec' = dec ∧ fwt' = fwt ∧ frac' = frac ∧ (I : ℤ) + fwt < L) ∨
      (dec' = .truncated dec.unwrap ∧ fwt' = fwt - 1 ∧ frac' = (fwt - 1) * DIGITS_PER_WORD ∧ (L : ℤ) ≤ I + fwt) := by
  unfold truncateOnCarry at h
  split_ifs at h with hL
  · cases h
    exact .inr ⟨rfl, rfl, rfl, hL⟩
  · cases h
    exact .inl ⟨rfl, rfl, rfl, by omega⟩

section Carry

variable {dec : Res Decimal} {toIdx I : Nat} {frac fwt : Int}

/-- Every kept word zero: a positive zero. -/
theorem handleCarry_zero (h : CarryReady dec toIdx I frac fwt) {w : Nat}
    (hw : dec.unwrap.wordBuf[toIdx]? = some w) (hwB : w < WORD_BASE)
    (hall : ∀ x ∈ dec.unwrap.wordBuf.take (toIdx + 1), x = 0) :
    ∃ r, handleCarry dec toIdx frac fwt I WORD_BUF_LEN = some r ∧ CarryResult dec r (toIdx + 1) I fwt 0 := by
  obtain ⟨o, ho, hiff⟩ := lastNonZero_spec dec.unwrap.wordBuf toIdx (by rw [h.length]; exact h.toIdx_lt)
  have hnone : o = none := hiff.mpr hall
  subst hnone
  have hcnt : 0 + (fwt + 1).toNat ≤ dec.unwrap.wordBuf.length := by
    rw [h.length]; have := h.fracWordTo_lt; unfold WORD_BUF_LEN at *; omega
  -- the zeroed buffer
  obtain ⟨buf', hzw, hget, hlen'⟩ : ∃ buf', zeroWords 0 (fwt + 1).toNat dec.unwrap.wordBuf = some buf' ∧
      (∀ i, buf'[i]? = if i < (fwt + 1).toNat then some 0 else dec.unwrap.wordBuf[i]?) ∧
      buf'.length = WORD_BUF_LEN :=
    ⟨_, zeroWords_eq hcnt, fun i => by rw [List.getElem?_take_append_replicate_drop 0 hcnt]; simp,
      by simp [h.length]; have := h.fracWordTo_lt; unfold WORD_BUF_LEN at *; omega⟩
  simp only [handleCarry, hw, Option.bind_eq_bind, Option.bind_some, if_neg (not_le.mpr hwB), ho,
    Decimal.zeroWordsAt, Decimal.withFracCnt, hzw, Option.map_some]
  refine ⟨_, rfl, ⟨?_, fun _ => ?_, ?_, ?_⟩⟩
  · simp only [Res.isOverflow, Bool.false_eq_true, false_iff, not_and]
    exact fun h0 => absurd h0.symm (pow_ne_zero _ (by decide))
  · rw [Nat.cast_zero, mul_zero, zero_mul]
    have hz : ∀ i, 0 ≤ i → i < 1 + (max 0 fwt).toNat → buf'[i]? = some 0 := by
      intro i _ hi
      rw [hget i]
      split_ifs with hic
      · rfl
      · -- no word zeroed for a negative scale: the first word is a kept word
        have hi0 : i = 0 := by omega
        subst hi0
        obtain ⟨x, hx⟩ : ∃ x, dec.unwrap.wordBuf[0]? = some x := ⟨_, List.getElem?_eq_getElem (by rw [h.length]; decide)⟩
        rw [hx, hall x (List.mem_iff_getElem?.mpr ⟨0, by rw [List.getElem?_take_of_lt (by omega)]; exact hx⟩)]
    have hF := h.fracWordTo_lt
    dsimp only [Res.unwrap]
    rw [value_eq_of_take (k := 0) (I := 1) (F := (max 0 fwt).toNat) (N := 0) (by show wordCnt 1 = 1; decide) h.fracCnt (by omega)
      (by dsimp only; rw [hlen']; unfold WORD_BUF_LEN at hF ⊢; omega) rfl hz]
    simp
  · simp [Res.unwrap]
  · simp [Res.isTruncated]

/-- The kept words as `take (to_idx + 1)`, the word at `to_idx` last. -/
theorem take_succ_of_getElem? {buf : List Nat} {toIdx w : Nat} (hw : buf[toIdx]? = some w) :
    buf.take (toIdx + 1) = buf.take toIdx ++ [w] := by
  rw [List.take_add_one, hw, Option.toList_some]

/-- The kept words are worth at most `10^(9 (to_idx + 1))`. -/
theorem CarryReady.kept_le (h : CarryReady dec toIdx I frac fwt) :
    List.valBE WORD_BASE (dec.unwrap.wordBuf.take (toIdx + 1)) ≤ WORD_BASE ^ (toIdx + 1) := by
  obtain ⟨w, hw⟩ : ∃ w, dec.unwrap.wordBuf[toIdx]? = some w :=
    ⟨_, List.getElem?_eq_getElem (by rw [h.length]; exact h.toIdx_lt)⟩
  have hlow := List.valBE_lt (b := WORD_BASE) (by decide) h.digits
  rw [List.length_take, Nat.min_eq_left (by rw [h.length]; exact h.toIdx_lt.le)] at hlow
  have hmul := Nat.mul_le_mul_right WORD_BASE hlow
  have hwle := h.last_le w hw
  rw [Nat.succ_mul] at hmul
  rw [take_succ_of_getElem? hw, List.valBE_concat, Nat.pow_succ]
  omega

/-- Kept words below `10^9` and not all zero: the buffer stays, with the scale's fraction count. -/
theorem handleCarry_keep (h : CarryReady dec toIdx I frac fwt) {w : Nat}
    (hw : dec.unwrap.wordBuf[toIdx]? = some w) (hwB : w < WORD_BASE)
    (hnz : ¬ ∀ x ∈ dec.unwrap.wordBuf.take (toIdx + 1), x = 0) :
    ∃ r, handleCarry dec toIdx frac fwt I WORD_BUF_LEN = some r ∧
      CarryResult dec r (toIdx + 1) I fwt (List.valBE WORD_BASE (dec.unwrap.wordBuf.take (toIdx + 1))) := by
  obtain ⟨o, ho, hiff⟩ := lastNonZero_spec dec.unwrap.wordBuf toIdx (by rw [h.length]; exact h.toIdx_lt)
  obtain ⟨t, rfl⟩ : ∃ t, o = some t := Option.ne_none_iff_exists'.mp (fun hn => hnz (hiff.mp hn))
  -- not the special first word: that one is `10^9`
  have hk : (toIdx : ℤ) + 1 = I + fwt := h.kept.resolve_right fun ⟨_, _, h0, hb⟩ => by
    subst h0; rw [hw] at hb; cases hb; exact lt_irrefl _ hwB
  have hdig : ∀ x ∈ dec.unwrap.wordBuf.take (toIdx + 1), x < WORD_BASE := by
    rw [take_succ_of_getElem? hw]
    intro x hx
    rcases List.mem_append.mp hx with hx | hx
    · exact h.digits x hx
    · rw [List.mem_singleton.mp hx]; exact hwB
  have hF := h.fracWordTo_lt
  have hI := h.intWordCnt_le
  have hT := h.toIdx_lt
  simp only [handleCarry, hw, Option.bind_eq_bind, Option.bind_some, if_neg (not_le.mpr hwB), ho]
  rw [handleCarryTail_eq frac (Or.inl (by rw [h.intCnt]; simp [DIGITS_PER_WORD]))]
  refine ⟨_, rfl, ⟨?_, fun _ => ?_, ?_, ?_⟩⟩
  · rw [Res.isOverflow_map, h.notOverflow]
    simp only [Bool.false_eq_true, false_iff, not_and]
    exact fun hN => absurd hN (Nat.ne_of_lt (by
      have := List.valBE_lt (b := WORD_BASE) (by decide) hdig
      rwa [List.length_take, Nat.min_eq_left (by rw [h.length]; exact h.toIdx_lt)] at this))
  · rw [Res.unwrap_map]
    refine value_eq_of_take (k := toIdx + 1) (I := I) (F := (max 0 fwt).toNat) ?_ h.fracCnt (by omega)
      (by rw [show (dec.unwrap.withFracCnt _).wordBuf = dec.unwrap.wordBuf from rfl, h.length];
          unfold WORD_BUF_LEN at hF hI hT ⊢; omega) rfl ?_
    · show wordCnt dec.unwrap.intCnt = I
      rw [h.intCnt, wordCnt_mul I h.intWordCnt_le]
    · intro i hi1 hi2
      exact h.between i (by omega) (by omega)
  · rw [Res.unwrap_map]
    intro hneg
    refine ⟨hneg, fun h0 => hnz ?_⟩
    exact (List.valBE_eq_zero_iff (by decide)).mp h0
  · rw [Res.isTruncated_map]
    exact Or.inl

/-- The last kept word at `10^9` and a carry that stops inside the kept words. -/
theorem handleCarry_inc (h : CarryReady dec toIdx I frac fwt)
    (hw : dec.unwrap.wordBuf[toIdx]? = some WORD_BASE) {buf' : List Nat} {t : Nat}
    (hrun : carryDown toIdx (dec.unwrap.wordBuf.set toIdx 0) 1 = some (buf', t, 0))
    (hlen : buf'.length = WORD_BUF_LEN) (hdrop : buf'.drop toIdx = (dec.unwrap.wordBuf.set toIdx 0).drop toIdx)
    (hdig : ∀ x ∈ buf'.take toIdx, x < WORD_BASE)
    (hval : List.valBE WORD_BASE (buf'.take toIdx) = List.valBE WORD_BASE (dec.unwrap.wordBuf.take toIdx) + 1) :
    ∃ r, handleCarry dec toIdx frac fwt I WORD_BUF_LEN = some r ∧
      CarryResult dec r (toIdx + 1) I fwt (List.valBE WORD_BASE (dec.unwrap.wordBuf.take (toIdx + 1))) := by
  have hT := h.toIdx_lt
  have hI := h.intWordCnt_le
  have hF := h.fracWordTo_lt
  have hlt : toIdx < dec.unwrap.wordBuf.length := by rw [h.length]; exact hT
  -- a carry that stops had a word below it to stop in: not the special first word
  have hk : (toIdx : ℤ) + 1 = I + fwt := h.kept.resolve_right fun ⟨_, _, h0, _⟩ => by
    subst h0; simp [carryDown] at hrun
  simp only [handleCarry, hw, Option.bind_eq_bind, Option.bind_some, if_pos (le_refl WORD_BASE), Nat.sub_self,
    mapM_setWordAt rfl hlt 0, Res.unwrap_map, hrun, if_neg (lt_irrefl 0)]
  rw [handleCarryTail_eq frac (Or.inl (by simp [h.intCnt, DIGITS_PER_WORD]))]
  -- the kept words after the carry: the words below, then zero at `to_idx`
  have hw' : buf'[toIdx]? = some 0 := by
    have h0 := congrArg (·[0]?) hdrop
    simp only [List.getElem?_drop, Nat.add_zero] at h0
    rw [h0, List.getElem?_set_self hlt]
  have hN : List.valBE WORD_BASE (buf'.take (toIdx + 1)) =
      List.valBE WORD_BASE (dec.unwrap.wordBuf.take (toIdx + 1)) := by
    rw [take_succ_of_getElem? hw', take_succ_of_getElem? hw, List.valBE_concat, List.valBE_concat, hval]
    ring
  have hafter : ∀ i, toIdx < i → buf'[i]? = dec.unwrap.wordBuf[i]? := by
    intro i hi
    have h1 := congrArg (·[i - toIdx]?) hdrop
    simp only [List.getElem?_drop, Nat.add_sub_cancel' hi.le] at h1
    rw [h1, List.getElem?_set_ne (by omega)]
  have hdig' : ∀ x ∈ buf'.take (toIdx + 1), x < WORD_BASE := by
    rw [take_succ_of_getElem? hw']
    intro x hx
    rcases List.mem_append.mp hx with hx | hx
    · exact hdig x hx
    · rw [List.mem_singleton.mp hx]; decide
  refine ⟨_, rfl, ⟨?_, fun _ => ?_, ?_, ?_⟩⟩
  · simp only [Res.isOverflow_map, h.notOverflow, Bool.false_eq_true, false_iff, not_and]
    refine fun hN' => absurd hN' (Nat.ne_of_lt ?_)
    rw [← hN]
    have := List.valBE_lt (b := WORD_BASE) (by decide) hdig'
    rwa [List.length_take, Nat.min_eq_left (by rw [hlen]; exact hT)] at this
  · simp only [Res.unwrap_map]
    refine value_eq_of_take (k := toIdx + 1) (I := I) (F := (max 0 fwt).toNat) ?_ h.fracCnt (by omega)
      (by show _ ≤ buf'.length; rw [hlen]; unfold WORD_BUF_LEN at hF hI hT ⊢; omega) hN ?_
    · show wordCnt dec.unwrap.intCnt = I
      rw [h.intCnt, wordCnt_mul I h.intWordCnt_le]
    · intro i hi1 hi2
      show buf'[i]? = some 0
      rw [hafter i (by omega)]
      exact h.between i (by omega) (by omega)
  · simp only [Res.unwrap_map]
    intro hneg
    refine ⟨hneg, ?_⟩
    rw [take_succ_of_getElem? hw, List.valBE_concat]
    have : (0 : ℕ) < WORD_BASE := by decide
    positivity
  · simp only [Res.isTruncated_map]
    exact Or.inl

/-- The carry runs past the first word: a new leading word `1`. -/
theorem handleCarry_carry (h : CarryReady dec toIdx I frac fwt)
    (hw : dec.unwrap.wordBuf[toIdx]? = some WORD_BASE) {buf' : List Nat} {t : Nat}
    (hrun : carryDown toIdx (dec.unwrap.wordBuf.set toIdx 0) 1 = some (buf', t, 1))
    (hlen : buf'.length = WORD_BUF_LEN) (hdrop : buf'.drop toIdx = (dec.unwrap.wordBuf.set toIdx 0).drop toIdx)
    (hzero : ∀ x ∈ buf'.take toIdx, x = 0)
    (hfull : List.valBE WORD_BASE (dec.unwrap.wordBuf.take toIdx) + 1 = WORD_BASE ^ toIdx) :
    ∃ r, handleCarry dec toIdx frac fwt I WORD_BUF_LEN = some r ∧
      CarryResult dec r (toIdx + 1) I fwt (List.valBE WORD_BASE (dec.unwrap.wordBuf.take (toIdx + 1))) := by
  have hT := h.toIdx_lt
  have hI := h.intWordCnt_le
  have hF := h.fracWordTo_lt
  have hlt : toIdx < dec.unwrap.wordBuf.length := by rw [h.length]; exact hT
  have hN : List.valBE WORD_BASE (dec.unwrap.wordBuf.take (toIdx + 1)) = WORD_BASE ^ (toIdx + 1) := by
    rw [take_succ_of_getElem? hw, List.valBE_concat, Nat.pow_succ, ← hfull]
    ring
  simp only [handleCarry, hw, Option.bind_eq_bind, Option.bind_some, if_pos (le_refl WORD_BASE), Nat.sub_self,
    mapM_setWordAt rfl hlt 0, Res.unwrap_map, hrun, if_pos Nat.one_pos]
  set d₂ : Res Decimal := (dec.map fun d => { d with wordBuf := d.wordBuf.set toIdx 0 }).map
    fun d => { d with wordBuf := buf' } with hd₂
  generalize hX : truncateOnCarry d₂ I WORD_BUF_LEN fwt frac = X
  obtain ⟨dec₃, fwt', frac'⟩ := X
  have htr := truncateOnCarry_spec hX
  dsimp only
  have hd₂u : d₂.unwrap = { dec.unwrap with wordBuf := buf' } := by simp [hd₂]
  have hd₃u : dec₃.unwrap = { dec.unwrap with wordBuf := buf' } := by
    rcases htr with ⟨rfl, -⟩ | ⟨rfl, -⟩
    · exact hd₂u
    · exact hd₂u
  have hd₃o : dec₃.isOverflow = false := by
    rcases htr with ⟨rfl, -⟩ | ⟨rfl, -⟩
    · simp [hd₂, h.notOverflow]
    · rfl
  -- the kept words: `to_idx + 1` of them, or the first word alone
  have hk := h.kept
  -- the words moved down the buffer, all zero, and whether one falls off
  have hafter : ∀ i, toIdx < i → buf'[i]? = dec.unwrap.wordBuf[i]? := by
    intro i hi
    have h1 := congrArg (·[i - toIdx]?) hdrop
    simp only [List.getElem?_drop, Nat.add_sub_cancel' hi.le] at h1
    rw [h1, List.getElem?_set_ne (by omega)]
  have hz : ∀ j, j < max (toIdx + 1) I → buf'[j]? = some 0 := by
    intro j hj
    rcases Nat.lt_trichotomy j toIdx with hj' | rfl | hj'
    · rw [List.getElem?_eq_getElem (by rw [hlen]; omega)]
      exact congrArg some (hzero _ (List.mem_iff_getElem.mpr ⟨j, by simp; omega, by simp⟩))
    · have h0 := congrArg (·[0]?) hdrop
      simp only [List.getElem?_drop, Nat.add_zero] at h0
      rw [h0, List.getElem?_set_self hlt]
    · rw [hafter j hj']
      exact h.between j hj' (by omega)
  set n := I + (max fwt' 0).toNat with hn
  have hnle : max n 1 ≤ max (toIdx + 1) I := by
    rcases htr with ⟨-, rfl, -, -⟩ | ⟨-, rfl, -, hL⟩ <;> rcases hk with hk | ⟨rfl, rfl, rfl, -⟩ <;>
      unfold WORD_BUF_LEN at * <;> omega
  have hover : WORD_BUF_LEN ≤ n ↔ I = WORD_BUF_LEN := by
    rcases htr with ⟨-, rfl, -, hL⟩ | ⟨-, rfl, -, hL⟩ <;> rcases hk with hk | ⟨rfl, rfl, rfl, -⟩ <;>
      unfold WORD_BUF_LEN at * <;> omega
  rw [shiftUp_zero WORD_BUF_LEN (by decide) n dec₃ (by unfold WORD_BUF_LEN at *; omega)
    (by rw [hd₃u]; exact hlen)
    (by
      rw [hd₃u]
      intro x hx
      obtain ⟨j, hj, hjx⟩ := List.mem_iff_getElem.mp hx
      simp only [List.length_take] at hj
      have := hz j (by omega)
      rw [List.getElem_take] at hjx
      rw [List.getElem?_eq_getElem (by omega), hjx] at this
      exact Option.some.inj this)]
  simp only [Option.bind_some]
  have hNz : WORD_BASE ^ (toIdx + 1) ≠ 0 := pow_ne_zero _ (by decide)
  by_cases hI9 : I = WORD_BUF_LEN
  · -- a carry out of nine integer words: overflow
    rw [if_pos (hover.mpr hI9), mapM_setWordAt (i := 0) (j := 0) rfl
      (by simp only [Res.unwrap_map, List.length_append, List.length_replicate]; unfold WORD_BUF_LEN; omega) 1]
    simp only [Option.bind_some, Res.unwrap_map]
    have hcnt : dec₃.unwrap.intCnt = DIGITS_PER_WORD * WORD_BUF_LEN := by rw [hd₃u, h.intCnt, hI9]
    simp only [Res.unwrap_overflow, hcnt, lt_irrefl, if_false]
    rw [handleCarryTail_eq frac' (Or.inl (by simp [DIGITS_PER_WORD]))]
    refine ⟨_, rfl, ⟨⟨fun _ => ⟨hN, hI9⟩, fun _ => rfl⟩, fun hno => ?_, fun hneg => ?_, fun htr' => ?_⟩⟩
    · rw [Res.isOverflow_map] at hno
      cases hno
    · simp only [Res.unwrap_map, Res.unwrap_overflow, Decimal.withFracCnt, hd₃u] at hneg
      exact ⟨hneg, hN ▸ hNz⟩
    · rw [Res.isTruncated_map] at htr'
      cases htr'
  · -- a new leading word `1`, one more integer word
    have hI9' : I < WORD_BUF_LEN := lt_of_le_of_ne hI hI9
    have hn9 : ¬ WORD_BUF_LEN ≤ n := fun hle => hI9 (hover.mp hle)
    have hshlen : (List.replicate (min (n + 1) WORD_BUF_LEN) 0 ++ List.drop (n + 1) dec₃.unwrap.wordBuf).length =
        WORD_BUF_LEN := by
      simp only [List.length_append, List.length_replicate, List.length_drop, hd₃u, hlen]
      omega
    rw [if_neg hn9, mapM_setWordAt (i := 0) (j := 0) rfl (by rw [Res.unwrap_map]; dsimp only; rw [hshlen]; decide) 1]
    simp only [Option.bind_some, Res.unwrap_map]
    have hcnt : dec₃.unwrap.intCnt = DIGITS_PER_WORD * I := by rw [hd₃u]; exact h.intCnt
    rw [if_pos (by rw [hcnt]; unfold DIGITS_PER_WORD WORD_BUF_LEN at *; omega)]
    rw [handleCarryTail_eq frac' (Or.inr ⟨by simp only [Res.unwrap_map, hcnt]; unfold DIGITS_PER_WORD; omega,
      by simp only [Res.unwrap_map]; exact List.getElem?_set_self (by rw [hshlen]; decide)⟩)]
    -- the fraction words kept, one fewer after a truncation
    have hfrac : wordCnt (max 0 frac').toNat = (max 0 fwt').toNat := by
      rcases htr with ⟨-, rfl, rfl, -⟩ | ⟨-, rfl, rfl, -⟩
      · exact h.fracCnt
      · rw [show (max 0 ((fwt - 1) * (DIGITS_PER_WORD : ℤ))).toNat = DIGITS_PER_WORD * (max 0 (fwt - 1)).toNat by
          unfold DIGITS_PER_WORD; omega]
        exact wordCnt_mul _ (by unfold WORD_BUF_LEN at *; omega)
    have hpow : ((WORD_BASE ^ (toIdx + 1) : ℕ) : ℚ) * (WORD_BASE : ℚ) ^ ((I : ℤ) - (toIdx + 1 : ℕ)) =
        (WORD_BASE : ℚ) ^ (((I + 1 : ℕ) : ℤ) - (1 : ℕ)) := by
      rw [Nat.cast_pow, ← zpow_natCast, ← zpow_add₀ (by norm_num [WORD_BASE])]
      congr 1
      push_cast
      ring
    refine ⟨_, rfl, ⟨?_, fun _ => ?_, ?_, ?_⟩⟩
    · simp only [Res.isOverflow_map, hd₃o, Bool.false_eq_true, false_iff, not_and]
      exact fun _ => hI9
    · simp only [Res.unwrap_map]
      rw [value_eq_of_take (k := 1) (I := I + 1) (F := (max 0 fwt').toNat) (N := 1)
        (by show wordCnt (dec₃.unwrap.intCnt + 1) = I + 1; rw [hcnt]; exact wordCnt_mul_add_one I hI9')
        hfrac (by omega)
        (by show _ ≤ List.length (List.set _ 0 1); rw [List.length_set, hshlen]; unfold WORD_BUF_LEN at *; omega)
        (by
          show List.valBE WORD_BASE ((List.set _ 0 1).take (0 + 1)) = 1
          rw [take_succ_of_getElem? (List.getElem?_set_self (by rw [hshlen]; decide))]
          rfl)
        (by
          intro i hi1 hi2
          show (List.set _ 0 1)[i]? = some 0
          rw [List.getElem?_set_ne (by omega), List.getElem?_append_left (by simp; omega), List.getElem?_replicate,
            if_pos (by omega)])]
      simp only [Decimal.withFracCnt, hd₃u, hN, ← hpow]
      push_cast
      ring
    · simp only [Res.unwrap_map, Decimal.withFracCnt, hd₃u]
      exact fun hneg => ⟨hneg, hN ▸ hNz⟩
    · simp only [Res.isTruncated_map]
      rcases htr with ⟨rfl, -, -, -⟩ | ⟨rfl, -, -, hL⟩
      · simp only [hd₂, Res.isTruncated_map]
        exact Or.inl
      · exact fun _ => Or.inr ⟨hN, hL⟩


/-- `handle_carry` on what `handle_incr` hands it, by the last kept word:
below `10^9` and zero or not, or at `10^9` with a carry that stops or runs out. -/
theorem handleCarry_spec (h : CarryReady dec toIdx I frac fwt) :
    ∃ r, handleCarry dec toIdx frac fwt I WORD_BUF_LEN = some r ∧
      CarryResult dec r (toIdx + 1) I fwt (List.valBE WORD_BASE (dec.unwrap.wordBuf.take (toIdx + 1))) := by
  have hT := h.toIdx_lt
  have hlt : toIdx < dec.unwrap.wordBuf.length := by rw [h.length]; exact hT
  obtain ⟨w, hw⟩ : ∃ w, dec.unwrap.wordBuf[toIdx]? = some w := ⟨_, List.getElem?_eq_getElem hlt⟩
  rcases Nat.lt_or_ge w WORD_BASE with hwB | hwB
  · by_cases hall : ∀ x ∈ dec.unwrap.wordBuf.take (toIdx + 1), x = 0
    · obtain ⟨r, hr, hres⟩ := handleCarry_zero h hw hwB hall
      rw [(List.valBE_eq_zero_iff (by decide)).mpr hall]
      exact ⟨r, hr, hres⟩
    · exact handleCarry_keep h hw hwB hall
  · obtain rfl : w = WORD_BASE := le_antisymm (h.last_le w hw) hwB
    have htake : (dec.unwrap.wordBuf.set toIdx 0).take toIdx = dec.unwrap.wordBuf.take toIdx :=
      List.take_set_of_le le_rfl
    obtain ⟨buf', t, c, hrun, hlen, hdrop, hdig, hc, hval⟩ :=
      carryDown_spec toIdx (dec.unwrap.wordBuf.set toIdx 0) 1 (by simp; omega) le_rfl
        (by rw [htake]; exact h.digits)
    have hlen' : buf'.length = WORD_BUF_LEN := by rw [hlen, List.length_set, h.length]
    rw [htake] at hval
    rcases (show c = 0 ∨ c = 1 by omega) with rfl | rfl
    · exact handleCarry_inc h hw hrun hlen' hdrop hdig (by simpa using hval)
    · -- the words below were all `10^9 - 1`: they become zero
      have hlow := List.valBE_lt (b := WORD_BASE) (by decide) h.digits
      have hlow' := List.valBE_lt (b := WORD_BASE) (by decide) hdig
      rw [List.length_take, Nat.min_eq_left hlt.le] at hlow
      have hbuf'0 : List.valBE WORD_BASE (buf'.take toIdx) = 0 := by omega
      exact handleCarry_carry h hw hrun hlen' hdrop ((List.valBE_eq_zero_iff (by decide)).mp hbuf'0) (by omega)

end Carry

end Tikv.Codec.Mysql
