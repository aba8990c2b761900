import Tikv.Codec.Mysql.DecimalMul
import Tikv.Codec.Mysql.Time

/-!
# Decimal rounding (`round`, `ceil`, `floor`)

`round_with_word_buf_len` rounds a decimal to `frac` fraction digits, `frac`
an `i8` that may be negative (rounding to tens, hundreds, …). It counts the
words the scale keeps, `frac_words_to`; when the integer words and those do
not fit the buffer it cuts the scale to the words left and tags the result
`Truncated`. A scale at or past the decimal's own fraction only extends the
fraction with zero words. Otherwise `handle_incr` rounds the last kept word:
on a word boundary it decides from the words after the scale (the first
digit for `HalfEven`, any digit for `Ceiling`), inside a word from the digit
after the scale; then it clears the words after the scale. `handle_carry`
takes the carry of a word that reached `10^9` up the buffer and, when it
runs past the first word, moves every word one place down the buffer and
writes a leading `1` (`Overflow` when a word or the 82nd integer digit
falls off the end). A result whose kept words are all zero is a positive
zero.

`ceil` and `floor` round to the units, `Ceiling` away from zero and
`Truncate` toward it, picked by the sign.

Indexes that the source casts from `i8` to `usize` are here `Int`; a
negative one indexes past the buffer, a panic, which makes the model `none`
(`getWord`, `setWord`). No `i8` or `u32` computation of these functions
leaves its range on the inputs of an `i8` scale and a decimal of at most 81
digits, so the model computes in `Int` and `Nat`.
-/
namespace Tikv.Codec.Mysql

/-- mirrors decimal.rs:941-950 (`RoundMode`) -/
inductive RoundMode where
  | halfEven
  | truncate
  | ceiling
  deriving DecidableEq, Repr

/-- `TEN_POW[i]` at a signed index; past the table's ten entries (a panic) is `none`. -/
def tenPowAt (i : Int) : Option Nat := if 0 ≤ i ∧ i ≤ 9 then some (TEN_POW i.toNat) else none

/-- `DIG_MASK = TEN_POW[8]` -/
def DIG_MASK : Nat := 100000000

@[simp] theorem getWord_natCast (buf : List Nat) (i : Nat) : getWord buf i = buf[i]? := by
  simp [getWord]

theorem setWord_natCast_of_lt {buf : List Nat} {i : Nat} (h : i < buf.length) (x : Nat) :
    setWord buf i x = some (buf.set i x) := by
  simp [setWord, h]

theorem tenPowAt_of_le {i : Nat} (h : i ≤ 9) : tenPowAt i = some (10 ^ i) := by
  simp [tenPowAt, h, TEN_POW]

namespace Res

variable {α β : Type}

/-- mirrors decimal.rs:58-60 (`Res::is_truncated`) -/
def isTruncated : Res α → Bool
  | truncated _ => true
  | _ => false

/-- A write through the `DerefMut` of a `Res` that may panic: the tag stays. -/
def mapM (f : α → Option β) : Res α → Option (Res β)
  | ok a => (f a).map ok
  | truncated a => (f a).map truncated
  | overflow a => (f a).map overflow

theorem mapM_eq_some {f : α → Option β} {r : Res α} {b : β} (h : f r.unwrap = some b) :
    r.mapM f = some (r.map fun _ => b) := by
  cases r <;> simp_all [mapM, unwrap, map]

@[simp] theorem unwrap_ok (a : α) : (ok a).unwrap = a := rfl

@[simp] theorem unwrap_overflow (a : α) : (overflow a).unwrap = a := rfl

@[simp] theorem unwrap_truncated (a : α) : (truncated a).unwrap = a := rfl

@[simp] theorem isOverflow_map (f : α → β) (r : Res α) : (r.map f).isOverflow = r.isOverflow := by
  cases r <;> rfl

@[simp] theorem isTruncated_map (f : α → β) (r : Res α) : (r.map f).isTruncated = r.isTruncated := by
  cases r <;> rfl

@[simp] theorem map_map (f : α → β) {γ : Type} (g : β → γ) (r : Res α) : (r.map f).map g = r.map (g ∘ f) := by
  cases r <;> rfl

/-- A map looks at the one value inside. -/
theorem map_congr_unwrap {f g : α → β} {r : Res α} (h : f r.unwrap = g r.unwrap) : r.map f = r.map g := by
  cases r <;> simp_all [map, unwrap]

end Res

/-- `for i in start..start + n { buf[i] = 0 }`; a write past the buffer panics. -/
def zeroWords (start : Nat) : Nat → List Nat → Option (List Nat)
  | 0, buf => some buf
  | n + 1, buf => do zeroWords (start + 1) n (← setWord buf start 0)

theorem zeroWords_eq : ∀ {start n : Nat} {buf : List Nat}, start + n ≤ buf.length →
    zeroWords start n buf = some (buf.take start ++ List.replicate n 0 ++ buf.drop (start + n))
  | start, 0, buf, _ => by simp [zeroWords]
  | start, n + 1, buf, h => by
    have hset : buf.set start 0 = buf.take start ++ 0 :: buf.drop (start + 1) := by
      rw [List.set_eq_take_append_cons_drop, if_pos (by omega)]
    rw [zeroWords, setWord_natCast_of_lt (by omega)]
    show zeroWords (start + 1) n (buf.set start 0) = _
    rw [zeroWords_eq (by simp; omega), hset]
    have hlen : (buf.take start).length = start := by simp; omega
    have hdrop : List.drop (start + (n + 1)) (List.take start buf) = [] :=
      List.drop_eq_nil_of_le (by rw [hlen]; omega)
    simp only [List.take_append, List.drop_append, hlen, List.take_take, hdrop, List.nil_append,
      show min (start + 1) start = start by omega, show start + 1 - start = 1 by omega,
      show start + 1 + n = start + (n + 1) by omega, show start + (n + 1) - start = n + 1 by omega,
      List.drop_succ_cons, List.drop_drop, List.take_succ_cons, List.take_zero, List.replicate_succ,
      List.append_assoc, List.cons_append, List.nil_append]

/-- `buf[a..=b].iter().any(|c| *c != 0)`; a slice past the buffer panics. -/
def anyNonZero (buf : List Nat) (a b : Nat) : Option Bool :=
  if a ≤ b + 1 ∧ b < buf.length then some (((buf.drop a).take (b + 1 - a)).any (· != 0)) else none

namespace Decimal

/-- `self.word_buf[i] = x` -/
def setWordAt (d : Decimal) (i : Int) (x : Nat) : Option Decimal :=
  (setWord d.wordBuf i x).map fun buf => { d with wordBuf := buf }

/-- `for i in start..start + n { self.word_buf[i] = 0 }` -/
def zeroWordsAt (d : Decimal) (start n : Nat) : Option Decimal :=
  (zeroWords start n d.wordBuf).map fun buf => { d with wordBuf := buf }

/-- `self.frac_cnt = frac_cnt; self.result_frac_cnt = self.frac_cnt;` -/
def withFracCnt (d : Decimal) (fracCnt : Nat) : Decimal :=
  { d with fracCnt := fracCnt, resultFracCnt := fracCnt }

@[simp] theorem withFracCnt_intCnt (d : Decimal) (n : Nat) : (d.withFracCnt n).intCnt = d.intCnt := rfl
@[simp] theorem withFracCnt_fracCnt (d : Decimal) (n : Nat) : (d.withFracCnt n).fracCnt = n := rfl
@[simp] theorem withFracCnt_negative (d : Decimal) (n : Nat) : (d.withFracCnt n).negative = d.negative := rfl
@[simp] theorem withFracCnt_wordBuf (d : Decimal) (n : Nat) : (d.withFracCnt n).wordBuf = d.wordBuf := rfl

end Decimal

theorem Decimal.setWordAt_of_lt {d : Decimal} {i : Nat} (h : i < d.wordBuf.length) (x : Nat) :
    d.setWordAt i x = some { d with wordBuf := d.wordBuf.set i x } := by
  simp [Decimal.setWordAt, setWord_natCast_of_lt h]

/-- A word written through `DerefMut`, at an index in the buffer. -/
theorem mapM_setWordAt {r : Res Decimal} {i : Int} {j : Nat} (hij : i = j) (h : j < r.unwrap.wordBuf.length)
    (x : Nat) : r.mapM (·.setWordAt i x) = some (r.map fun d => { d with wordBuf := d.wordBuf.set j x }) := by
  subst hij
  cases r <;> simp_all [Res.mapM, Res.map, Res.unwrap, Decimal.setWordAt_of_lt]

theorem Decimal.zeroWordsAt_eq {d : Decimal} {start n : Nat} (h : start + n ≤ d.wordBuf.length) :
    d.zeroWordsAt start n =
      some { d with wordBuf := d.wordBuf.take start ++ List.replicate n 0 ++ d.wordBuf.drop (start + n) } := by
  simp [Decimal.zeroWordsAt, zeroWords_eq h]

/-- Words cleared through `DerefMut`, inside the buffer. -/
theorem mapM_zeroWordsAt {r : Res Decimal} {start n : Nat} (h : start + n ≤ r.unwrap.wordBuf.length) :
    r.mapM (·.zeroWordsAt start n) = some (r.map fun d =>
      { d with wordBuf := d.wordBuf.take start ++ List.replicate n 0 ++ d.wordBuf.drop (start + n) }) := by
  cases r <;> simp_all [Res.mapM, Res.map, Res.unwrap, Decimal.zeroWordsAt_eq]

/-- mirrors decimal.rs:1236-1256: whether the last word kept by a scale on a
word boundary goes up. `Ceiling` looks for a word after the scale that is
not zero, `HalfEven` at the first digit after the scale. -/
def alignedDoInc (buf : List Nat) (toIdx : Int) (fracWordCnt : Nat) (fracWordsTo : Int)
    (roundMode : RoundMode) : Option Bool :=
  match roundMode with
  | .ceiling =>
    let idx := toIdx + fracWordCnt - fracWordsTo
    if idx > toIdx then anyNonZero buf (toIdx + 1).toNat idx.toNat else pure false
  | .halfEven => (fun w => decide (w / DIG_MASK ≥ 5)) <$> getWord buf (toIdx + 1)
  | .truncate => pure false

/-- mirrors decimal.rs:1264-1280: the last kept word of a scale inside the
word, rounded at `ten_pos = TEN_POW[pos]` from the digit after the scale
alone. -/
def roundWordAt (w tenPos : Nat) (roundMode : RoundMode) : Nat :=
  let shiftedNumber := w / tenPos
  let digAfterScale := shiftedNumber % 10
  let roundDigit : Nat := match roundMode with
    | .ceiling => 0
    | .halfEven => 5
    | .truncate => 10
  let shiftedNumber :=
    if digAfterScale > roundDigit ∨ (roundDigit = 5 ∧ digAfterScale = 5) then shiftedNumber + 10
    else shiftedNumber
  tenPos * (shiftedNumber - digAfterScale)

/-- mirrors decimal.rs:1233-1281, the increment of `handle_incr`: the
rounded result and the index of its last kept word, or `none` for the
`return Res::Ok(Self::zero())` of a scale that keeps no word and rounds
down. -/
def incrLastWord (res : Res Decimal) (intWordCnt : Nat) (fracWordsTo frac : Int)
    (fracWordCnt : Nat) (roundMode : RoundMode) : Option (Option (Res Decimal × Int)) := do
  let buf := res.unwrap.wordBuf
  let toIdx : Int := intWordCnt + fracWordsTo - 1
  if frac = fracWordsTo * DIGITS_PER_WORD then
    if ← alignedDoInc buf toIdx fracWordCnt fracWordsTo roundMode then
      if toIdx ≥ 0 then
        let w ← getWord buf toIdx
        return some (← res.mapM (·.setWordAt toIdx (w + 1)), toIdx)
      else
        return some (← res.mapM (·.setWordAt (toIdx + 1) WORD_BASE), toIdx + 1)
    else if intWordCnt + fracWordsTo = 0 then return none
    else return some (res, toIdx)
  else
    let tenPos ← tenPowAt (fracWordsTo * DIGITS_PER_WORD - frac - 1)
    let w ← getWord buf toIdx
    return some (← res.mapM (·.setWordAt toIdx (roundWordAt w tenPos roundMode)), toIdx)

/-- mirrors decimal.rs:1321-1329, the loop `while carry == 1 && to_idx > 0`
of `handle_carry`: step down and add the carry into the word. Returns the
buffer, `to_idx` and the carry. -/
def carryDown : Nat → List Nat → Nat → Option (List Nat × Nat × Nat)
  | 0, buf, carry => some (buf, 0, carry)
  | toIdx + 1, buf, carry =>
    if carry = 1 then do
      let (x, carry) := add (← buf[toIdx]?) 0 carry
      carryDown toIdx (← setWord buf toIdx x) carry
    else some (buf, toIdx + 1, carry)

/-- `add(w, 0, &mut 1, ..)` on a word: the next word, or zero and a carry at `10^9`. -/
theorem add_word_one {w : Nat} (hw : w < WORD_BASE) :
    add w 0 1 = if w + 1 = WORD_BASE then (0, 1) else (w + 1, 0) := by
  have hmod : (w + 0 + 1) % 2 ^ 32 = w + 1 := Nat.mod_eq_of_lt (by unfold WORD_BASE at hw; omega)
  unfold add
  simp only [hmod]
  by_cases h : w + 1 = WORD_BASE
  · rw [if_pos (by omega), if_pos h, h, Nat.sub_self]
  · rw [if_neg (by omega), if_neg h]

/-- The carry loop adds the carry into the words below `k`: their numeral
and the carry left over, at the weight of `k` words, make the numeral before
plus the carry. The words from `k` on stay. -/
theorem carryDown_spec : ∀ (k : Nat) (buf : List Nat) (c : Nat), k ≤ buf.length → c ≤ 1 →
    (∀ x ∈ buf.take k, x < WORD_BASE) →
    ∃ buf' t c', carryDown k buf c = some (buf', t, c') ∧ buf'.length = buf.length ∧
      buf'.drop k = buf.drop k ∧ (∀ x ∈ buf'.take k, x < WORD_BASE) ∧ c' ≤ 1 ∧
      List.valBE WORD_BASE (buf'.take k) + c' * WORD_BASE ^ k = List.valBE WORD_BASE (buf.take k) + c
  | 0, buf, c, _, hc, _ => ⟨buf, 0, c, rfl, rfl, rfl, by simp, hc, by simp⟩
  | k + 1, buf, c, hk, hc, hdig => by
    by_cases hc1 : c = 1
    · subst hc1
      have hwk : buf[k] < WORD_BASE := hdig _ (List.mem_iff_getElem.mpr ⟨k, by simp; omega, by simp⟩)
      -- the word at `k` takes the carry: the next word, or zero and a carry on
      obtain ⟨x, c₁, hadd, hxc⟩ : ∃ x c₁, add buf[k] 0 1 = (x, c₁) ∧ c₁ ≤ 1 ∧ x + c₁ * WORD_BASE = buf[k] + 1 ∧
          x < WORD_BASE := by
        rw [add_word_one hwk]
        split_ifs with h
        · exact ⟨0, 1, rfl, le_rfl, by omega, by unfold WORD_BASE; omega⟩
        · exact ⟨buf[k] + 1, 0, rfl, Nat.zero_le _, by omega, by omega⟩
      have hdig' : ∀ y ∈ (buf.set k x).take k, y < WORD_BASE := by
        rw [List.take_set_of_le (le_refl k)]
        exact fun y hy => hdig y (List.take_subset_take_left _ (Nat.le_succ k) hy)
      obtain ⟨buf', t, c', hrun, hlen, hdrop, hdig'', hc', hval⟩ :=
        carryDown_spec k (buf.set k x) c₁ (by simp; omega) hxc.1 hdig'
      have hk' : buf'[k]? = some x := by
        have h0 := congrArg (·[0]?) hdrop
        simp only [List.getElem?_drop, Nat.add_zero] at h0
        rw [h0, List.getElem?_set_self (by omega)]
      have htake : buf'.take (k + 1) = buf'.take k ++ [x] := by
        rw [List.take_add_one, hk', Option.toList_some]
      have hset : (buf.set k x).take k = buf.take k := List.take_set_of_le (le_refl k)
      refine ⟨buf', t, c', ?_, by simp [hlen], ?_, ?_, hc', ?_⟩
      · rw [carryDown, if_pos rfl, List.getElem?_eq_getElem (show k < buf.length by omega)]
        simp only [Option.bind_eq_bind, Option.bind_some, hadd, setWord_natCast_of_lt (show k < buf.length by omega)]
        exact hrun
      · have h1 := congrArg (List.drop 1) hdrop
        simp only [List.drop_drop] at h1
        rw [h1, List.drop_set_of_lt (by omega)]
      · rw [htake]
        intro y hy
        rcases List.mem_append.mp hy with hy | hy
        · exact hdig'' y hy
        · rw [List.mem_singleton.mp hy]
          exact hxc.2.2
      · rw [hset] at hval
        rw [htake, List.valBE_concat, List.valBE_take_succ (show k < buf.length by omega), Nat.pow_succ]
        calc List.valBE WORD_BASE (buf'.take k) * WORD_BASE + x + c' * (WORD_BASE ^ k * WORD_BASE)
            = (List.valBE WORD_BASE (buf'.take k) + c' * WORD_BASE ^ k) * WORD_BASE + x := by ring
          _ = (List.valBE WORD_BASE (buf.take k) + c₁) * WORD_BASE + x := by rw [hval]
          _ = List.valBE WORD_BASE (buf.take k) * WORD_BASE + (x + c₁ * WORD_BASE) := by ring
          _ = List.valBE WORD_BASE (buf.take k) * WORD_BASE + buf[k] + 1 := by rw [hxc.2.1]; ring
    · have hc0 : c = 0 := by omega
      subst hc0
      exact ⟨buf, k + 1, 0, by simp [carryDown], rfl, rfl, hdig, Nat.zero_le _, by simp⟩

/-- mirrors decimal.rs:1336-1342: for `i` from `n - 1` down to `0`, the word
moved one place down the buffer, and `Overflow` for the word that would
leave it. -/
def shiftUp (wordBufLen : Nat) : Nat → Res Decimal → Option (Res Decimal)
  | 0, dec => some dec
  | i + 1, dec =>
    if i + 1 < wordBufLen then do
      shiftUp wordBufLen i (← dec.mapM (·.setWordAt (i + 1) (← dec.unwrap.wordBuf[i]?)))
    else shiftUp wordBufLen i (if dec.isOverflow then dec else .overflow dec.unwrap)

/-- Moving zero words down the buffer: the first `n + 1` words are zero after,
and a word that would leave the buffer makes the result `Overflow`. -/
theorem shiftUp_zero (L : Nat) (hL : 0 < L) : ∀ (n : Nat) (dec : Res Decimal), n ≤ L →
    dec.unwrap.wordBuf.length = L → (∀ x ∈ dec.unwrap.wordBuf.take (max n 1), x = 0) →
    shiftUp L n dec = some ((if L ≤ n then Res.overflow dec.unwrap else dec).map fun d =>
      { d with wordBuf := List.replicate (min (n + 1) L) 0 ++ d.wordBuf.drop (n + 1) })
  | 0, dec, _, hlen, hzero => by
    -- the first word is zero already
    have hbuf : List.replicate (min (0 + 1) L) 0 ++ dec.unwrap.wordBuf.drop (0 + 1) = dec.unwrap.wordBuf := by
      obtain ⟨w, ws, hws⟩ := List.exists_cons_of_length_pos (show 0 < dec.unwrap.wordBuf.length by omega)
      rw [hws] at hzero ⊢
      simp only [max_eq_right (Nat.zero_le 1), List.take_succ_cons, List.take_zero, List.mem_singleton,
        forall_eq] at hzero
      rw [hzero, show min (0 + 1) L = 1 by omega]
      rfl
    rw [if_neg (by omega)]
    cases dec <;> simp only [shiftUp, Res.map, Res.unwrap] at hbuf ⊢ <;> rw [hbuf]
  | n + 1, dec, hn, hlen, hzero => by
    have hzero' : ∀ x ∈ dec.unwrap.wordBuf.take (max n 1), x = 0 :=
      fun x hx => hzero x (List.take_subset_take_left _ (by omega) hx)
    by_cases hnL : n + 1 < L
    · -- word `n` is zero and moves to `n + 1`
      have hw : dec.unwrap.wordBuf[n]? = some 0 := by
        rw [List.getElem?_eq_getElem (by omega)]
        exact congrArg some (hzero _ (List.mem_iff_getElem.mpr ⟨n, by simp; omega, by simp⟩))
      have hset : (dec.unwrap.wordBuf.set (n + 1) 0).drop (n + 1) = 0 :: dec.unwrap.wordBuf.drop (n + 2) := by
        rw [List.set_eq_take_append_cons_drop, if_pos (by omega), List.drop_left' (by simp; omega)]
      have ih := shiftUp_zero L hL n (dec.map fun d => { d with wordBuf := d.wordBuf.set (n + 1) 0 })
        (by omega) (by simp [hlen])
        (by
          simp only [Res.unwrap_map]
          rw [List.take_set_of_le (by omega)]
          exact hzero')
      rw [shiftUp, if_pos hnL, hw]
      simp only [Option.bind_eq_bind, Option.bind_some,
        mapM_setWordAt (show ((n : ℤ) + 1) = ((n + 1 : ℕ) : ℤ) by push_cast; rfl)
          (show n + 1 < dec.unwrap.wordBuf.length by omega) 0]
      rw [if_neg (by omega)] at ih
      rw [if_neg (by omega)]
      have hrep : ∀ l : List Nat, List.replicate (n + 1) 0 ++ 0 :: l = List.replicate (n + 1 + 1) 0 ++ l := by
        intro l
        rw [List.replicate_succ' (n := n + 1) (a := 0), List.append_assoc, List.singleton_append]
      cases dec <;> simp only [Res.map, Res.unwrap] at ih hset ⊢ <;> rw [ih, hset, Nat.min_eq_left (by omega),
        Nat.min_eq_left (by omega), hrep]
    · -- word `n` would leave the buffer
      have hnL' : n + 1 = L := by omega
      have hover : (if dec.isOverflow then dec else .overflow dec.unwrap) = .overflow dec.unwrap := by
        cases dec <;> rfl
      have ih := shiftUp_zero L hL n (.overflow dec.unwrap) (by omega) hlen hzero'
      rw [shiftUp, if_neg hnL, hover, ih, if_neg (by omega), if_pos (by omega)]
      simp only [Res.map]
      rw [List.drop_eq_nil_of_le (by omega), List.drop_eq_nil_of_le (by omega), Nat.min_eq_right (by omega),
        Nat.min_eq_right (by omega)]

/-- mirrors decimal.rs:1352-1358, the loop `while dec.word_buf[to_idx] == 0`:
the last word at or above `to_idx` that is not zero, `none` when word `0`
is reached and is zero. -/
def lastNonZero (buf : List Nat) : Nat → Option (Option Nat)
  | 0 => do pure (if (← buf[0]?) = 0 then none else some 0)
  | k + 1 => do if (← buf[k + 1]?) = 0 then lastNonZero buf k else pure (some (k + 1))

/-- The loop `while dec.word_buf[to_idx] == 0` finds no word only when every word up to `to_idx` is zero. -/
theorem lastNonZero_spec (buf : List Nat) : ∀ k, k < buf.length →
    ∃ r, lastNonZero buf k = some r ∧ (r = none ↔ ∀ x ∈ buf.take (k + 1), x = 0)
  | 0, h => by
    refine ⟨if buf[0] = 0 then none else some 0, by simp [lastNonZero, List.getElem?_eq_getElem h], ?_⟩
    rw [List.take_add_one, List.take_zero, List.getElem?_eq_getElem h]
    split_ifs with hw <;> simp [hw]
  | k + 1, h => by
    rw [List.take_add_one, List.getElem?_eq_getElem h, Option.toList_some]
    by_cases hw : buf[k + 1] = 0
    · obtain ⟨r, hr, hiff⟩ := lastNonZero_spec buf k (by omega)
      refine ⟨r, by simp [lastNonZero, List.getElem?_eq_getElem h, hw, hr], ?_⟩
      rw [hiff, hw]
      constructor
      · intro hall x hx
        rcases List.mem_append.mp hx with hx | hx
        · exact hall x hx
        · exact List.mem_singleton.mp hx
      · exact fun hall x hx => hall x (List.mem_append_left _ hx)
    · refine ⟨some (k + 1), by simp [lastNonZero, List.getElem?_eq_getElem h, hw], ?_⟩
      simp only [reduceCtorEq, false_iff]
      exact fun hall => hw (hall _ (List.mem_append_right _ (List.mem_singleton_self _)))

/-- mirrors decimal.rs:1361-1366, the end of `handle_carry`: one more
integer digit when the leading word has grown past `int_cnt`, and the
fraction count of the scale. -/
def handleCarryTail (dec : Res Decimal) (toIdx : Nat) (frac : Int) : Option (Res Decimal) := do
  let firstDig := dec.unwrap.intCnt % DIGITS_PER_WORD
  let grows ← if firstDig > 0 then
      (fun w ten => decide (w ≥ ten)) <$> dec.unwrap.wordBuf[toIdx]? <*> tenPowAt firstDig
    else pure false
  let dec := if grows then dec.map fun d => { d with intCnt := d.intCnt + 1 } else dec
  pure (dec.map (·.withFracCnt (max 0 frac).toNat))

/-- The end of `handle_carry` reads no word when `int_cnt` is a whole number
of words, and finds no new digit in a leading word `1`. -/
theorem handleCarryTail_eq {dec : Res Decimal} {t : Nat} (frac : Int)
    (h : dec.unwrap.intCnt % DIGITS_PER_WORD = 0 ∨
      (dec.unwrap.intCnt % DIGITS_PER_WORD = 1 ∧ dec.unwrap.wordBuf[t]? = some 1)) :
    handleCarryTail dec t frac = some (dec.map (·.withFracCnt (max 0 frac).toNat)) := by
  unfold handleCarryTail
  rcases h with h | ⟨h, ht⟩
  · simp [h]
  · have hten : tenPowAt 1 = some 10 := by decide
    simp [h, ht, hten]

/-- mirrors decimal.rs:1331-1335: a carry out of the first word of a buffer
that the integer and fraction words fill drops the last fraction word and
tags the result `Truncated`. -/
def truncateOnCarry (dec : Res Decimal) (intWordCnt wordBufLen : Nat) (fracWordTo frac : Int) :
    Res Decimal × Int × Int :=
  if intWordCnt + fracWordTo ≥ wordBufLen then
    (Res.truncated dec.unwrap, fracWordTo - 1, (fracWordTo - 1) * DIGITS_PER_WORD)
  else (dec, fracWordTo, frac)

/-- mirrors decimal.rs:1304-1367 (`handle_carry`) -/
def handleCarry (dec : Res Decimal) (toIdx : Nat) (frac fracWordTo : Int) (intWordCnt wordBufLen : Nat) :
    Option (Res Decimal) := do
  let w ← dec.unwrap.wordBuf[toIdx]?
  if w ≥ WORD_BASE then
    let dec ← dec.mapM (·.setWordAt toIdx (w - WORD_BASE))
    let (buf, toIdx, carry) ← carryDown toIdx dec.unwrap.wordBuf 1
    let dec := dec.map fun d => { d with wordBuf := buf }
    if carry > 0 then
      -- the carry runs past the first word: a new leading word `1`
      let (dec, fracWordTo, frac) := truncateOnCarry dec intWordCnt wordBufLen fracWordTo frac
      let dec ← shiftUp wordBufLen (intWordCnt + (max fracWordTo 0).toNat) dec
      let dec ← dec.mapM (·.setWordAt 0 1)
      let dec := if dec.unwrap.intCnt < DIGITS_PER_WORD * wordBufLen then
          dec.map fun d => { d with intCnt := d.intCnt + 1 }
        else .overflow dec.unwrap
      handleCarryTail dec 0 frac
    else handleCarryTail dec toIdx frac
  else
    match ← lastNonZero dec.unwrap.wordBuf toIdx with
    | some toIdx => handleCarryTail dec toIdx frac
    | none =>
      -- every kept word is zero: a positive zero
      let d := { dec.unwrap.withFracCnt (max 0 frac).toNat with intCnt := 1, negative := false }
      let d ← d.zeroWordsAt 0 (fracWordTo + 1).toNat
      pure (.ok d)

/-- mirrors decimal.rs:1224-1302 (`handle_incr`) -/
def handleIncr (res : Res Decimal) (intWordCnt : Nat) (fracWordsTo frac : Int)
    (fracWordCnt wordBufLen : Nat) (roundMode : RoundMode) : Option (Res Decimal) := do
  match ← incrLastWord res intWordCnt fracWordsTo frac fracWordCnt roundMode with
  | none => pure (.ok Decimal.zero)
  | some (res, toIdx) =>
    -- clear the words after the scale; a negative start cast to `usize` makes the range empty
    let res ← if fracWordsTo < fracWordCnt then
        let idx : Int := if frac = 0 ∧ intWordCnt = 0 then 1 else intWordCnt + fracWordsTo
        if 0 ≤ idx then res.mapM (·.zeroWordsAt idx.toNat (wordBufLen - idx.toNat)) else pure res
      else pure res
    -- a negative `to_idx` cast to `usize` indexes past the buffer
    if toIdx < 0 then none
    else handleCarry res toIdx.toNat frac fracWordsTo intWordCnt wordBufLen

/-- mirrors decimal.rs:1182-1186, the `frac_words_to` of a scale: the
fraction words it keeps, or minus the integer words it drops (`i8` division
truncates toward zero). -/
def scaleWords (frac : Int) : Int :=
  if frac > 0 then wordCnt frac.toNat else (frac + 1).tdiv DIGITS_PER_WORD

namespace Decimal

/-- mirrors decimal.rs:1173-1222 (`round_with_word_buf_len`) -/
def roundWithWordBufLen (self : Decimal) (frac : Int) (wordBufLen : Nat) (roundMode : RoundMode) :
    Option (Res Decimal) :=
  let frac := min frac MAX_FRACTION
  let fracWordsTo := scaleWords frac
  let intWordCnt := wordCnt self.intCnt
  let fracWordCnt := wordCnt self.fracCnt
  -- the scale cut to the words left, or `none` for a scale left of every digit
  let start : Option (Res Decimal × Int × Int) :=
    if intWordCnt + fracWordsTo > wordBufLen then
      some (.truncated self, (wordBufLen : Int) - intWordCnt, ((wordBufLen : Int) - intWordCnt) * DIGITS_PER_WORD)
    else if self.intCnt + frac < 0 then none
    else some (.ok self, fracWordsTo, frac)
  match start with
  | none => some (.ok zero)
  | some (res, fracWordsTo, frac) =>
    let res := res.map fun d => { d with intCnt := min intWordCnt wordBufLen * DIGITS_PER_WORD }
    if fracWordsTo > fracWordCnt then do
      let res ← res.mapM (·.zeroWordsAt (intWordCnt + fracWordCnt) (fracWordsTo.toNat - fracWordCnt))
      pure (res.map (·.withFracCnt frac.toNat))
    else if frac ≥ res.unwrap.fracCnt then pure (res.map (·.withFracCnt frac.toNat))
    else handleIncr res intWordCnt fracWordsTo frac fracWordCnt wordBufLen roundMode

/-- mirrors decimal.rs:1169-1171 (`round`) -/
def round (self : Decimal) (frac : Int) (roundMode : RoundMode) : Option (Res Decimal) :=
  self.roundWithWordBufLen frac WORD_BUF_LEN roundMode

/-- mirrors decimal.rs:960-966 (`ceil`) -/
def ceil (self : Decimal) : Option (Res Decimal) :=
  if !self.negative then self.round 0 .ceiling else self.round 0 .truncate

/-- mirrors decimal.rs:969-975 (`floor`) -/
def floor (self : Decimal) : Option (Res Decimal) :=
  if !self.negative then self.round 0 .truncate else self.round 0 .ceiling

end Decimal

end Tikv.Codec.Mysql
