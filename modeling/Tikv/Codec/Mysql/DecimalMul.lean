import Tikv.Codec.Mysql.Decimal

/-!
# Decimal multiplication (`do_mul`)

`do_mul` is the schoolbook multiplication of MySQL's `decimal_mul` over the
word buffers: for each word of `lhs`, from the last up, it multiplies the
words of `rhs`, from the last up, splits each 64-bit product into a high and
a low word, adds the low word and the carry into the result buffer, and
after the row pushes the carry up in a loop of its own, returning `Overflow`
when the carry runs past the first word. When the product's words do not
fit, the operands' fraction words are cut before multiplying. The result is
then turned into `0` if it is a negative zero, and its leading zero words
are dropped.

Indexes are signed in the source (`i32`, `isize`) and are here `Int`; an
index outside the buffer is a Rust panic and makes the model `none`. The
loops are recursions on their number of turns.

Results:
* `doMul_inexact`: `add` subtracts `10^9` once where MySQL's `ADD2`
  subtracts it twice, so the buffer's words grow past `10^9` and a product
  of four words by four comes back `Ok` but wrapped; and a product that
  fits is truncated, with a wrong integer part.
-/
namespace Tikv.Codec.Mysql

/-- `buf[i]` at a signed index; out of bounds (a panic) is `none`. -/
def getWord (buf : List Nat) (i : Int) : Option Nat :=
  if 0 ≤ i then buf[i.toNat]? else none

/-- `buf[i] = x` at a signed index; out of bounds (a panic) is `none`. -/
def setWord (buf : List Nat) (i : Int) (x : Nat) : Option (List Nat) :=
  if 0 ≤ i ∧ i.toNat < buf.length then some (buf.set i.toNat x) else none

/-- mirrors decimal.rs:857-874, the inner loop of `do_mul`: `n` turns
multiplying `lhs[l_idx]` by `rhs[r_idx]`, `r_idx` going down, and adding
into `dec.word_buf[idx_to]`, `idx_to` going down. Returns the buffer, the
carry and `idx_to`. -/
def mulWords (lhs rhs : List Nat) (lIdx : Int) :
    Nat → List Nat → Nat → Int → Int → Option (List Nat × Nat × Int)
  | 0, buf, carry, _, idxTo => some (buf, carry, idxTo)
  | n + 1, buf, carry, rIdx, idxTo => do
    let l ← getWord lhs lIdx
    let r ← getWord rhs rIdx
    let p := l * r
    let hi := p / WORD_BASE
    let lo := p - hi * WORD_BASE
    let cur ← getWord buf idxTo
    let (x, carry) := add cur (lo % 2 ^ 32) carry
    let buf ← setWord buf idxTo x
    mulWords lhs rhs lIdx n buf ((carry + hi % 2 ^ 32) % 2 ^ 32) (rIdx - 1) (idxTo - 1)

/-- mirrors decimal.rs:875-886, the carry loop of `do_mul`, at `idx_to = k - 1`:
`.error` is its `return Res::Overflow(dec)` when the carry is left at
`idx_to < 0`. -/
def carryWords : Nat → List Nat → Nat → Option (Except (List Nat) (List Nat))
  | 0, buf, carry => if carry > 0 then some (.error buf) else some (.ok buf)
  | k + 1, buf, carry =>
    if carry > 0 then do
      let cur ← buf[k]?
      let (x, carry) := add cur 0 carry
      let buf ← if k < buf.length then some (buf.set k x) else none
      carryWords k buf carry
    else some (.ok buf)

/-- mirrors decimal.rs:854-890, the outer loop of `do_mul`: `n` rows, for
`l_idx` and `start_to` going down. -/
def mulRows (lhs rhs : List Nat) (rStart rStop : Int) :
    Nat → List Nat → Int → Int → Option (Except (List Nat) (List Nat))
  | 0, buf, _, _ => some (.ok buf)
  | n + 1, buf, lIdx, startTo =>
    match mulWords lhs rhs lIdx (rStart - rStop + 1).toNat buf 0 rStart startTo with
    | none => none
    | some (buf, carry, idxTo) =>
      match carryWords (idxTo + 1).toNat buf carry with
      | some (.ok buf) => mulRows lhs rhs rStart rStop n buf (lIdx - 1) (startTo - 1)
      | r => r

/-- mirrors decimal.rs:836-851: the operands' word counts cut down when the
product's words are truncated, as `(r_int_word_cnt, l_frac_word_cnt,
r_frac_word_cnt)`. -/
def truncateWordCnts (oldIntWordTo oldFracWordTo : Int) (intWordTo fracWordTo : Nat)
    (rIntWordCnt lFracWordCnt rFracWordCnt : Int) : Int × Int × Int :=
  if oldIntWordTo > intWordTo then
    let oldIntWordTo := oldIntWordTo - intWordTo
    let oldFracWordTo := oldIntWordTo.tdiv 2
    (oldIntWordTo - oldFracWordTo, 0, 0)
  else
    let oldFracWordTo := oldFracWordTo - fracWordTo
    let oldIntWordTo := oldFracWordTo.tdiv 2
    if lFracWordCnt ≤ rFracWordCnt then
      (rIntWordCnt, lFracWordCnt - oldIntWordTo, rFracWordCnt - (oldFracWordTo - oldIntWordTo))
    else
      (rIntWordCnt, lFracWordCnt - (oldFracWordTo - oldIntWordTo), rFracWordCnt - oldIntWordTo)

/-- mirrors decimal.rs:893-903: scanning from `idx`, whether the words are zero
up to `end`; reading past the buffer panics. -/
def zeroUpTo (stop : Nat) : Nat → List Nat → Option Bool
  | _, [] => none
  | idx, w :: ws => if w = 0 then (if idx + 1 = stop then some true else zeroUpTo stop (idx + 1) ws) else some false

/-- mirrors decimal.rs:905-910: how many leading zero words the loop skips
while more than one integer word is left. -/
def leadingZeroWords : List Nat → Nat → Option Nat
  | [], _ => none
  | w :: ws, intCnt =>
    if w = 0 ∧ intCnt > DIGITS_PER_WORD then (leadingZeroWords ws (intCnt - DIGITS_PER_WORD)).map (· + 1)
    else some 0

/-- mirrors decimal.rs:911-915: `n` turns of `word_buf[cur_idx] = word_buf[idx_to]`,
from `cur_idx` and `idx_to = skip + cur_idx` up. -/
def moveWords (skip : Nat) : Nat → Nat → List Nat → Option (List Nat)
  | 0, _, buf => some buf
  | n + 1, cur, buf => do
    let w ← buf[skip + cur]?
    let buf ← if cur < buf.length then some (buf.set cur w) else none
    moveWords skip n (cur + 1) buf

/-- mirrors decimal.rs:800-916 (`do_mul`), which is `Mul for &Decimal`
(decimal.rs:2367-2373); `none` is a panic. -/
def doMul (lhs rhs : Decimal) : Option (Res Decimal) := do
  let lIntWordCnt : Int := wordCnt lhs.intCnt
  let lFracWordCnt : Int := wordCnt lhs.fracCnt
  let rIntWordCnt : Int := wordCnt rhs.intCnt
  let rFracWordCnt : Int := wordCnt rhs.fracCnt
  let oldRIntWordCnt := rIntWordCnt
  let intWordTo := wordCnt (lhs.intCnt + rhs.intCnt)
  let fracWordTo := lFracWordCnt + rFracWordCnt
  let res := fixWordCntErr intWordTo fracWordTo.toNat WORD_BUF_LEN
  let (intWordTo', fracWordTo') := res.unwrap
  let dec := { Decimal.new (intWordTo' * DIGITS_PER_WORD) (min (lhs.fracCnt + rhs.fracCnt) NOT_FIXED_DEC)
    (lhs.negative != rhs.negative) with
    resultFracCnt := min (lhs.resultFracCnt + rhs.resultFracCnt) MAX_FRACTION }
  if res.isOverflow then return .overflow dec
  let (dec, rIntWordCnt, lFracWordCnt, rFracWordCnt) :=
    if !res.isOk then
      ({ dec with fracCnt := min dec.fracCnt (fracWordTo' * DIGITS_PER_WORD) },
        truncateWordCnts intWordTo fracWordTo intWordTo' fracWordTo' rIntWordCnt lFracWordCnt rFracWordCnt)
    else (dec, rIntWordCnt, lFracWordCnt, rFracWordCnt)
  let startTo : Int := intWordTo' + fracWordTo' - 1
  let rStart := oldRIntWordCnt + rFracWordCnt - 1
  let rStop := oldRIntWordCnt - rIntWordCnt
  let lIdx := lIntWordCnt + lFracWordCnt - 1
  match ← mulRows lhs.wordBuf rhs.wordBuf rStart rStop (lIdx + 1).toNat dec.wordBuf lIdx startTo with
  | .error buf => return .overflow { dec with wordBuf := buf }
  | .ok buf =>
    let dec := { dec with wordBuf := buf }
    let dec ← if dec.negative then
        (fun z => if z then Decimal.zero else dec) <$> zeroUpTo (intWordTo' + fracWordTo') 0 dec.wordBuf
      else pure dec
    let skip ← leadingZeroWords dec.wordBuf dec.intCnt
    let dToMove := intWordTo' + wordCnt dec.fracCnt - skip
    let buf ← if skip > 0 then moveWords skip dToMove 0 dec.wordBuf else pure dec.wordBuf
    return res.map fun _ => { dec with intCnt := dec.intCnt - skip * DIGITS_PER_WORD, wordBuf := buf }

/-- Two products `do_mul` gets wrong. Four words times four words: after
three rows a word of the buffer is past `2 * 10^9`, a sum of the fourth row
passes `2^32` and wraps, and the product comes back `Ok` short by
`2^32 * 10^36`. `10^35 + 0.5` squared needs eight
integer words and one fraction word, but the fraction words are counted as
two and cut, and the cut drops the operand's fraction word from the rows of
the integer words too: the result is `Truncated` with integer part
`10^70 + 5 * 10^34`. -/
theorem doMul_inexact :
    let a : Decimal := ⟨36, 0, 0, false, [994045030, 500000001, 983859528, 999999999, 0, 0, 0, 0, 0]⟩
    let b : Decimal := ⟨36, 0, 0, false, [988103201, 999999998, 851748543, 999999999, 0, 0, 0, 0, 0]⟩
    let ab : Decimal := ⟨72, 0, 0, false,
      [982219077, 569237661, 818844295, 26955149, 739882174, 826275775, 164391927, 1, 0]⟩
    let c : Decimal := ⟨36, 1, 1, false, [100000000, 0, 0, 0, 500000000, 0, 0, 0, 0]⟩
    let cc : Decimal := ⟨72, 2, 2, false, [10000000, 0, 0, 0, 50000000, 0, 0, 0, 0]⟩
    a.WellFormed ∧ b.WellFormed ∧ doMul a b = some (.ok ab) ∧ ab.value ≠ a.value * b.value ∧
      c.WellFormed ∧ wordCnt (2 * c.intCnt) + wordCnt (2 * c.fracCnt) ≤ WORD_BUF_LEN ∧
      doMul c c = some (.truncated cc) ∧ cc.value.floor ≠ (c.value * c.value).floor := by
  decide +kernel

end Tikv.Codec.Mysql
