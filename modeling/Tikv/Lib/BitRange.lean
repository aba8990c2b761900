import Mathlib.Data.Nat.Bitwise

/-!
# Bit ranges of a 64-bit word

The `bitfield` crate reads and writes a field of an integer as a range of
its bits, `msb..=lsb`, with shifts and masks (`BitRange::bit_range`,
`BitRange::set_bit_range`). `UInt64.bitRange` and `UInt64.setBitRange` are
those two operations on a `u64`, written as the crate writes them.

The lemmas say what they compute, bit by bit (`testBit_bitRange`,
`testBit_setBitRange`), and from that: a field is the word's bits above
`lsb` modulo the field's width (`bitRange_eq`), a field reads back the low
bits of what was written to it (`bitRange_setBitRange_self`), writing one
field leaves the fields apart from it as they were
(`bitRange_setBitRange_of_disjoint`), and the word above a bit is the field
below it and the word above that (`div_two_pow_eq_bitRange`).
`Nat.or_eq_add_of_lt` reads an or of fields that do not overlap as their sum.
-/

namespace UInt64

/-- `BitRange::bit_range` of the `bitfield` crate on a `u64`: the bits
`msb..=lsb`, shifted up to drop the bits above `msb`, then down to `lsb`. -/
def bitRange (x : UInt64) (msb lsb : Nat) : Nat :=
  ((x <<< (63 - msb).toUInt64) >>> (63 - msb + lsb).toUInt64).toNat

/-- `BitRange::set_bit_range` of the `bitfield` crate on a `u64`: the bits
`msb..=lsb` replaced by the low bits of `value`. -/
def setBitRange (x : UInt64) (msb lsb : Nat) (value : Nat) : UInt64 :=
  let mask : UInt64 := ~~~0 <<< (63 - msb).toUInt64 >>> (63 - msb + lsb).toUInt64 <<< lsb.toUInt64
  (x &&& ~~~mask) ||| (value.toUInt64 <<< lsb.toUInt64 &&& mask)

variable {msb lsb : Nat}

theorem toNat_shift_amount {k : Nat} (hk : k < 64) : (k.toUInt64.toBitVec % 64).toNat = k := by
  rw [BitVec.toNat_umod]
  simp
  omega

theorem testBit_bitRange (x : UInt64) (h : lsb ≤ msb) (hm : msb < 64) (i : Nat) :
    (x.bitRange msb lsb).testBit i = (decide (i + lsb ≤ msb) && x.toNat.testBit (i + lsb)) := by
  rw [bitRange, ← UInt64.toNat_toBitVec, BitVec.testBit_toNat, UInt64.toBitVec_shiftRight,
    BitVec.ushiftRight_eq', toNat_shift_amount (by omega), BitVec.getLsbD_ushiftRight,
    UInt64.toBitVec_shiftLeft, BitVec.shiftLeft_eq', toNat_shift_amount (by omega),
    BitVec.getLsbD_shiftLeft, ← UInt64.toNat_toBitVec, BitVec.testBit_toNat]
  have hin : decide (63 - msb + lsb + i < 64) = decide (i + lsb ≤ msb) := by
    simp only [decide_eq_decide]
    omega
  have hlow : decide (63 - msb + lsb + i < 63 - msb) = false := by
    simp only [decide_eq_false_iff_not]
    omega
  rw [hin, hlow, show 63 - msb + lsb + i - (63 - msb) = i + lsb by omega, Bool.not_false,
    Bool.and_true]

theorem bitRange_eq (x : UInt64) (h : lsb ≤ msb) (hm : msb < 64) :
    x.bitRange msb lsb = x.toNat / 2 ^ lsb % 2 ^ (msb + 1 - lsb) := by
  apply Nat.eq_of_testBit_eq
  intro i
  rw [testBit_bitRange x h hm, Nat.testBit_mod_two_pow, Nat.testBit_div_two_pow]
  congr 1
  simp only [decide_eq_decide]
  omega

theorem bitRange_lt (x : UInt64) (h : lsb ≤ msb) (hm : msb < 64) :
    x.bitRange msb lsb < 2 ^ (msb + 1 - lsb) := by
  rw [bitRange_eq x h hm]
  exact Nat.mod_lt _ (Nat.two_pow_pos _)

theorem getLsbD_toUInt64 (v j : Nat) : v.toUInt64.toBitVec.getLsbD j = (decide (j < 64) && v.testBit j) := by
  rw [show v.toUInt64.toBitVec = BitVec.ofNat 64 v from rfl, BitVec.getLsbD_ofNat]

theorem getLsbD_zero (j : Nat) : (0 : UInt64).toBitVec.getLsbD j = false := by
  rw [UInt64.toBitVec_zero, BitVec.getLsbD_zero]

theorem testBit_setBitRange (x : UInt64) (h : lsb ≤ msb) (hm : msb < 64) (v i : Nat) :
    (x.setBitRange msb lsb v).toNat.testBit i =
      if lsb ≤ i ∧ i ≤ msb then v.testBit (i - lsb) else x.toNat.testBit i := by
  rw [setBitRange, ← UInt64.toNat_toBitVec, BitVec.testBit_toNat]
  simp only [UInt64.toBitVec_or, UInt64.toBitVec_and, UInt64.toBitVec_not, UInt64.toBitVec_shiftLeft,
    UInt64.toBitVec_shiftRight, BitVec.shiftLeft_eq', BitVec.ushiftRight_eq',
    toNat_shift_amount (show 63 - msb < 64 by omega), toNat_shift_amount (show 63 - msb + lsb < 64 by omega),
    toNat_shift_amount (show lsb < 64 by omega), BitVec.getLsbD_or, BitVec.getLsbD_and,
    BitVec.getLsbD_not, BitVec.getLsbD_shiftLeft, BitVec.getLsbD_ushiftRight, getLsbD_zero,
    getLsbD_toUInt64]
  rw [← UInt64.toNat_toBitVec, BitVec.testBit_toNat]
  -- the mask has its bits exactly at `lsb..=msb`
  have hmask : (decide (i < 64) && !decide (i < lsb) &&
      (decide (63 - msb + lsb + (i - lsb) < 64) && !decide (63 - msb + lsb + (i - lsb) < 63 - msb) &&
        (decide (63 - msb + lsb + (i - lsb) - (63 - msb) < 64) && !false))) =
      decide (lsb ≤ i ∧ i ≤ msb) := by
    rw [Bool.eq_iff_iff]
    simp only [Bool.not_false, Bool.and_true, Bool.and_eq_true, Bool.not_eq_true', decide_eq_true_eq,
      decide_eq_false_iff_not]
    omega
  rw [hmask]
  by_cases hin : lsb ≤ i ∧ i ≤ msb
  · simp [hin, show i < 64 by omega, show i - lsb < 64 by omega]
  · by_cases hi : i < 64
    · simp [hin, hi]
    · simp [hin, hi, BitVec.getLsbD_of_ge x.toBitVec i (by omega)]

/-- A field reads back the low bits of what was written to it. -/
theorem bitRange_setBitRange_self (x : UInt64) (h : lsb ≤ msb) (hm : msb < 64) (v : Nat) :
    (x.setBitRange msb lsb v).bitRange msb lsb = v % 2 ^ (msb + 1 - lsb) := by
  apply Nat.eq_of_testBit_eq
  intro i
  rw [testBit_bitRange _ h hm, testBit_setBitRange x h hm, Nat.testBit_mod_two_pow]
  by_cases hi : i + lsb ≤ msb
  · rw [if_pos (by omega), Nat.add_sub_cancel]
    simp only [hi, decide_true, Bool.true_and, show i < msb + 1 - lsb by omega]
  · simp only [hi, decide_false, Bool.false_and, show ¬ i < msb + 1 - lsb by omega]

/-- Writing a field leaves a field apart from it as it was. -/
theorem bitRange_setBitRange_of_disjoint {msb' lsb' : Nat} (x : UInt64) (h : lsb ≤ msb) (hm : msb < 64)
    (h' : lsb' ≤ msb') (hm' : msb' < 64) (hd : msb' < lsb ∨ msb < lsb') (v : Nat) :
    (x.setBitRange msb' lsb' v).bitRange msb lsb = x.bitRange msb lsb := by
  apply Nat.eq_of_testBit_eq
  intro i
  rw [testBit_bitRange _ h hm, testBit_bitRange x h hm]
  by_cases hi : i + lsb ≤ msb
  · rw [testBit_setBitRange x h' hm', if_neg (by omega)]
  · simp only [hi, decide_false, Bool.false_and]

/-- Clearing the low bits of a word up to `msb`. -/
theorem toNat_setBitRange_zero (x : UInt64) (hm : msb < 64) :
    (x.setBitRange msb 0 0).toNat = x.toNat / 2 ^ (msb + 1) * 2 ^ (msb + 1) := by
  apply Nat.eq_of_testBit_eq
  intro i
  rw [testBit_setBitRange x (Nat.zero_le _) hm, Nat.zero_testBit]
  by_cases hi : i ≤ msb
  · rw [if_pos ⟨Nat.zero_le _, hi⟩, ← Nat.shiftLeft_eq, Nat.testBit_shiftLeft]
    simp [show ¬ i ≥ msb + 1 by omega]
  · rw [if_neg (by omega), ← Nat.shiftLeft_eq, Nat.testBit_shiftLeft, Nat.testBit_div_two_pow]
    simp [show i ≥ msb + 1 by omega, show i - (msb + 1) + (msb + 1) = i by omega]

/-- The bits at and above `lsb` are the field, then the bits above it. -/
theorem div_two_pow_eq_bitRange (x : UInt64) (h : lsb ≤ msb) (hm : msb < 64) :
    x.toNat / 2 ^ lsb = x.toNat / 2 ^ (msb + 1) * 2 ^ (msb + 1 - lsb) + x.bitRange msb lsb := by
  have hsplit : 2 ^ (msb + 1) = 2 ^ lsb * 2 ^ (msb + 1 - lsb) := by
    rw [← Nat.pow_add]
    congr 1
    omega
  rw [bitRange_eq x h hm, hsplit, ← Nat.div_div_eq_div_mul, Nat.mul_comm]
  exact (Nat.div_add_mod _ _).symm

@[simp]
theorem bitRange_zero : (0 : UInt64).bitRange msb lsb = 0 := by
  simp [bitRange]

/-- Words compare as the numbers they hold. -/
theorem compare_eq_compare_toNat (a b : UInt64) : compare a b = compare a.toNat b.toNat := by
  simp [compare, compareOfLessAndEq, UInt64.lt_iff_toNat_lt, UInt64.toNat_inj]

end UInt64

namespace Nat

/-- Bits below `2 ^ k` or-ed into a multiple of `2 ^ k` add to it. -/
theorem or_eq_add_of_lt {a b k : Nat} (ha : a % 2 ^ k = 0) (hb : b < 2 ^ k) : a ||| b = a + b := by
  obtain ⟨c, rfl⟩ : 2 ^ k ∣ a := Nat.dvd_of_mod_eq_zero ha
  rw [Nat.two_pow_add_eq_or_of_lt hb c]

end Nat
