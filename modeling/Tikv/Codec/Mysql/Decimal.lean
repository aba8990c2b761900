import Tikv.Lib.Words
import Mathlib.Algebra.Order.Field.Rat

/-!
# MySQL decimals (`codec/mysql/decimal.rs`)

A `Decimal` keeps its digits in nine `u32` words of nine decimal digits
each (`WORD_BASE = 10^9`): first the words of the integer part, then those
of the fraction, `word_cnt!(int_cnt)` and `word_cnt!(frac_cnt)` of them.
The integer part is right-aligned in its words, the fraction left-aligned,
so the used words read as one base-`10^9` numeral, the decimal's
`mantissa`, with `word_cnt!(frac_cnt)` words after the point.

Arithmetic returns a `Res`: the result, tagged `Ok`, `Truncated` (digits of
the fraction dropped) or `Overflow` (the integer part does not fit).

This module holds the representation the operations share: the constants,
`word_cnt!`, `Res`, the value of a decimal (`Decimal.value`, in `ℚ`) and
what makes a decimal well formed (`Decimal.WellFormed`, decidable). The
counts are `u8` in the source and `Nat` here; on well-formed decimals no
count the operations compute comes near `2^8`. Words are `Nat`, and where
the source adds `u32` words the model wraps the sum modulo `2^32` as the
release build does.
-/
namespace Tikv.Codec.Mysql

/-- mirrors components/tidb_query_datatype/src/codec/mysql/decimal.rs:28-33 (`Res`) -/
inductive Res (α : Type) where
  | ok (a : α)
  | truncated (a : α)
  | overflow (a : α)
  deriving DecidableEq, Repr

namespace Res

variable {α β : Type}

/-- mirrors decimal.rs:36-42 (`Res::map`) -/
def map (f : α → β) : Res α → Res β
  | ok a => ok (f a)
  | truncated a => truncated (f a)
  | overflow a => overflow (f a)

/-- mirrors decimal.rs:44-48 (`Res::unwrap`, also the `Deref` of `Res`) -/
def unwrap : Res α → α
  | ok a | truncated a | overflow a => a

/-- mirrors decimal.rs:50-52 (`Res::is_ok`) -/
def isOk : Res α → Bool
  | ok _ => true
  | _ => false

/-- mirrors decimal.rs:54-56 (`Res::is_overflow`) -/
def isOverflow : Res α → Bool
  | overflow _ => true
  | _ => false

@[simp] theorem unwrap_map (f : α → β) (r : Res α) : (r.map f).unwrap = f r.unwrap := by
  cases r <;> rfl

@[simp] theorem isOk_map (f : α → β) (r : Res α) : (r.map f).isOk = r.isOk := by
  cases r <;> rfl

end Res

/-- `WORD_BUF_LEN`: a decimal holds nine words. -/
def WORD_BUF_LEN : Nat := 9

/-- `DIGITS_PER_WORD` -/
def DIGITS_PER_WORD : Nat := 9

/-- `WORD_BASE = TEN_POW[9]` -/
def WORD_BASE : Nat := 1000000000

/-- `MAX_FRACTION` -/
def MAX_FRACTION : Nat := 30

/-- `NOT_FIXED_DEC` -/
def NOT_FIXED_DEC : Nat := 31

/-- mirrors decimal.rs:148-162 (`word_cnt!`) on an unsigned length: the words
that hold `len` digits, and `WORD_BUF_LEN + 1` for more digits than fit. -/
def wordCnt (len : Nat) : Nat :=
  if len > DIGITS_PER_WORD * WORD_BUF_LEN then WORD_BUF_LEN + 1
  else (len + DIGITS_PER_WORD - 1) / DIGITS_PER_WORD

theorem wordCnt_mul (j : Nat) (h : j ≤ WORD_BUF_LEN) : wordCnt (DIGITS_PER_WORD * j) = j := by
  unfold wordCnt DIGITS_PER_WORD WORD_BUF_LEN at *
  split_ifs <;> omega

theorem wordCnt_mul_add_one (j : Nat) (h : j < WORD_BUF_LEN) :
    wordCnt (DIGITS_PER_WORD * j + 1) = j + 1 := by
  unfold wordCnt DIGITS_PER_WORD WORD_BUF_LEN at *
  split_ifs <;> omega

theorem wordCnt_mono {a b : Nat} (h : a ≤ b) : wordCnt a ≤ wordCnt b := by
  unfold wordCnt DIGITS_PER_WORD WORD_BUF_LEN
  split_ifs <;> omega

/-- mirrors decimal.rs:225-233 (`fix_word_cnt_err`) -/
def fixWordCntErr (intWordCnt fracWordCnt wordBufLen : Nat) : Res (Nat × Nat) :=
  if intWordCnt + fracWordCnt > wordBufLen then
    if intWordCnt > wordBufLen then .overflow (wordBufLen, 0)
    else .truncated (intWordCnt, wordBufLen - intWordCnt)
  else .ok (intWordCnt, fracWordCnt)

/-- mirrors decimal.rs:213-222 (`add`): the word and the carry of
`a + b + carry`, a `u32` sum that wraps. -/
def add (a b carry : Nat) : Nat × Nat :=
  let sum := (a + b + carry) % 2 ^ 32
  if sum ≥ WORD_BASE then (sum - WORD_BASE, 1) else (sum, 0)

/-- mirrors decimal.rs:924-939 (`Decimal`) -/
structure Decimal where
  intCnt : Nat
  fracCnt : Nat
  resultFracCnt : Nat
  negative : Bool
  wordBuf : List Nat
  deriving DecidableEq, Repr

namespace Decimal

/-- mirrors decimal.rs:975-983 (`Decimal::new`) -/
def new (intCnt fracCnt : Nat) (negative : Bool) : Decimal where
  intCnt := intCnt
  fracCnt := fracCnt
  resultFracCnt := fracCnt
  negative := negative
  wordBuf := List.replicate WORD_BUF_LEN 0

/-- mirrors decimal.rs:990-992 (`Decimal::zero`) -/
def zero : Decimal := new 1 0 false

/-- The words that hold the digits: the integer words, then the fraction words. -/
def words (d : Decimal) : List Nat := d.wordBuf.take (wordCnt d.intCnt + wordCnt d.fracCnt)

/-- The digits as one number, in units of the last fraction word. -/
def mantissa (d : Decimal) : Nat := List.valBE WORD_BASE d.words

/-- The number a decimal stands for. -/
def value (d : Decimal) : ℚ :=
  (if d.negative then -1 else 1) * d.mantissa / (WORD_BASE : ℚ) ^ wordCnt d.fracCnt

/-- A decimal as the operations leave it: nine words, each a base-`10^9`
digit, the used ones fit the buffer, no more integer digits than
`int_cnt` says and no more fraction digits than `frac_cnt`, and no
negative zero. -/
structure WellFormed (d : Decimal) : Prop where
  length : d.wordBuf.length = WORD_BUF_LEN
  fits : wordCnt d.intCnt + wordCnt d.fracCnt ≤ WORD_BUF_LEN
  word_lt : ∀ w ∈ d.wordBuf, w < WORD_BASE
  intDigits : d.mantissa < 10 ^ d.intCnt * WORD_BASE ^ wordCnt d.fracCnt
  fracDigits : 10 ^ (DIGITS_PER_WORD * wordCnt d.fracCnt - d.fracCnt) ∣ d.mantissa
  nonNegZero : d.negative = true → d.mantissa ≠ 0

theorem wellFormed_iff (d : Decimal) :
    d.WellFormed ↔
      d.wordBuf.length = WORD_BUF_LEN ∧ wordCnt d.intCnt + wordCnt d.fracCnt ≤ WORD_BUF_LEN ∧
        (∀ w ∈ d.wordBuf, w < WORD_BASE) ∧ d.mantissa < 10 ^ d.intCnt * WORD_BASE ^ wordCnt d.fracCnt ∧
        10 ^ (DIGITS_PER_WORD * wordCnt d.fracCnt - d.fracCnt) ∣ d.mantissa ∧
        (d.negative = true → d.mantissa ≠ 0) :=
  ⟨fun h => ⟨h.1, h.2, h.3, h.4, h.5, h.6⟩, fun ⟨h1, h2, h3, h4, h5, h6⟩ => ⟨h1, h2, h3, h4, h5, h6⟩⟩

instance (d : Decimal) : Decidable d.WellFormed := decidable_of_iff' _ (wellFormed_iff d)

theorem wellFormed_zero : zero.WellFormed := by decide

end Decimal

end Tikv.Codec.Mysql
