import Tikv.Codec.Mysql.Time
import Tikv.Lib.Words

/-!
# The packed datum format of a time (`to_packed_u64`, `from_packed_u64`)

A date or a datetime is stored in a datum as one `u64`: `year * 13 + month`
and the day in the bits above 41, hour, minute and second in the 17 bits
below, and the microseconds in the low 24 bits. The packing is a mixed-radix
numeral, the bitfield of a `Time` another (radix 16 for the month), and
both put the year first: as long as the month is below 13 nothing carries
from one field into the next.

Results:
* `cmp_eq_compare_intoArray`: `Time::cmp`, on the word with `fsp_tt`
  cleared, is the lexicographic order of the seven components.
* `compare_packDateTime`: packed words of months up to 12 are in the same
  order.
* `fromPackedU64_packDateTime`: `from_packed_u64` reads the components of a
  non-zero packed date or datetime back, with no validation.
* `fromPackedU64_zero`: the packed zero goes through `Time::new`, which
  accepts the zero date only where the SQL mode allows it
  (`EvalContext.allowsZeroDate`).
* `packed_time_round_trip`: packing a date or a datetime and reading it
  back gives the same components, type and precision, for a zero time only
  in a mode that allows it; `zero_datetime_rejected_when_packed` is the
  zero datetime under a strict `NO_ZERO_DATE`, which packs to 0 and does not
  come back.
-/

namespace Tikv.Codec.Mysql
namespace Time
open UInt64

/-! ## The two numerals -/

/-- The packed word, as a number. -/
theorem toNat_packDateTime (t : Time) :
    t.packDateTime.toNat = (((((t.getYear * 13 + t.getMonth) * 2 ^ 5 + t.getDay) * 2 ^ 5 + t.getHour) *
      2 ^ 6 + t.getMinute) * 2 ^ 6 + t.getSecond) * 2 ^ 24 + t.getMicro := by
  obtain ⟨hy, hm, hd, hh, hmi, hs, hus, -⟩ := fields_lt t
  have hsmall : ∀ n : Nat, n < 2 ^ 20 → n.toUInt64.toNat = n := fun n h =>
    UInt64.toNat_ofNat_of_lt' (by unfold UInt64.size; omega)
  simp only [packDateTime, UInt64.toNat_or, UInt64.toNat_shiftLeft, UInt64.toNat_mul, UInt64.toNat_add,
    hsmall _ (show t.getYear < 2 ^ 20 by omega), hsmall _ (show t.getMonth < 2 ^ 20 by omega),
    hsmall _ (show t.getDay < 2 ^ 20 by omega), hsmall _ (show t.getHour < 2 ^ 20 by omega),
    hsmall _ (show t.getMinute < 2 ^ 20 by omega), hsmall _ (show t.getSecond < 2 ^ 20 by omega),
    hsmall _ hus, UInt64.reduceToNat, Nat.reduceMod, Nat.shiftLeft_eq, Nat.reducePow] at *
  -- no field reaches into the next, so every `|` is a `+`
  simp (disch := omega) only [Nat.mod_eq_of_lt, Nat.or_eq_add_of_lt (k := 5), Nat.or_eq_add_of_lt (k := 6),
    Nat.or_eq_add_of_lt (k := 12), Nat.or_eq_add_of_lt (k := 17), Nat.or_eq_add_of_lt (k := 24)]
  omega

/-- The word above `fsp_tt`, as its fields read most significant first. -/
theorem bits_div_sixteen (t : Time) :
    t.bits.toNat / 16 = (((((t.getYear * 2 ^ 4 + t.getMonth) * 2 ^ 5 + t.getDay) * 2 ^ 5 + t.getHour) *
      2 ^ 6 + t.getMinute) * 2 ^ 6 + t.getSecond) * 2 ^ 20 + t.getMicro := by
  have hus := @div_two_pow_eq_bitRange 23 4 t.bits (by omega) (by omega)
  have hs := @div_two_pow_eq_bitRange 29 24 t.bits (by omega) (by omega)
  have hmi := @div_two_pow_eq_bitRange 35 30 t.bits (by omega) (by omega)
  have hh := @div_two_pow_eq_bitRange 40 36 t.bits (by omega) (by omega)
  have hd := @div_two_pow_eq_bitRange 45 41 t.bits (by omega) (by omega)
  have hm := @div_two_pow_eq_bitRange 49 46 t.bits (by omega) (by omega)
  have hy := @div_two_pow_eq_bitRange 63 50 t.bits (by omega) (by omega)
  have htop : t.bits.toNat / 2 ^ 64 = 0 := Nat.div_eq_of_lt t.bits.toNat_lt
  simp only [Nat.reduceAdd, Nat.reduceSub] at hus hs hmi hh hd hm hy
  -- peel the fields off from the bottom up
  rw [show (16 : Nat) = 2 ^ 4 from rfl, hus, hs, hmi, hh, hd, hm, hy, htop]
  simp only [getYear, getMonth, getDay, getHour, getMinute, getSecond, getMicro, Nat.zero_mul, Nat.zero_add]

/-- The word with `fsp_tt` cleared. -/
theorem toNat_setFspTt_zero (t : Time) : (t.setFspTt 0).bits.toNat = t.bits.toNat / 16 * 16 + 0 :=
  @toNat_setBitRange_zero 3 t.bits (by omega)

/-! ## Order -/

/-- The order of times is the order of their components, the year first. -/
theorem cmp_eq_compare_intoArray (t₁ t₂ : Time) : Time.cmp t₁ t₂ = compare t₁.intoArray t₂.intoArray := by
  obtain ⟨-, hm₁, hd₁, hh₁, hmi₁, hs₁, hus₁, -⟩ := fields_lt t₁
  obtain ⟨-, hm₂, hd₂, hh₂, hmi₂, hs₂, hus₂, -⟩ := fields_lt t₂
  rw [cmp, compare_eq_compare_toNat, toNat_setFspTt_zero, toNat_setFspTt_zero,
    Nat.compare_mul_add (by omega) (by omega), compare_eq_iff_eq.mpr rfl, Ordering.then_eq,
    bits_div_sixteen, bits_div_sixteen, Nat.compare_mul_add hus₁ hus₂, Nat.compare_mul_add hs₁ hs₂,
    Nat.compare_mul_add hmi₁ hmi₂, Nat.compare_mul_add hh₁ hh₂, Nat.compare_mul_add hd₁ hd₂,
    Nat.compare_mul_add hm₁ hm₂]
  simp only [intoArray, List.compare_cons_cons, List.compare_nil_nil, Ordering.then_eq, Ordering.then_assoc]

/-- Packed times of months up to 12 are in the order of their components. -/
theorem compare_packDateTime {t₁ t₂ : Time} (hm₁ : t₁.getMonth ≤ 12) (hm₂ : t₂.getMonth ≤ 12) :
    compare t₁.packDateTime t₂.packDateTime = compare t₁.intoArray t₂.intoArray := by
  obtain ⟨-, -, hd₁, hh₁, hmi₁, hs₁, hus₁, -⟩ := fields_lt t₁
  obtain ⟨-, -, hd₂, hh₂, hmi₂, hs₂, hus₂, -⟩ := fields_lt t₂
  rw [compare_eq_compare_toNat, toNat_packDateTime, toNat_packDateTime,
    Nat.compare_mul_add (by omega) (by omega), Nat.compare_mul_add hs₁ hs₂, Nat.compare_mul_add hmi₁ hmi₂,
    Nat.compare_mul_add hh₁ hh₂, Nat.compare_mul_add hd₁ hd₂,
    Nat.compare_mul_add (show t₁.getMonth < 13 by omega) (show t₂.getMonth < 13 by omega)]
  simp only [intoArray, List.compare_cons_cons, List.compare_nil_nil, Ordering.then_eq, Ordering.then_assoc]

/-! ## The zero time -/

/-- A time is zero when its components are. -/
theorem isZero_iff (t : Time) : t.isZero = true ↔ t.intoArray = [0, 0, 0, 0, 0, 0, 0] := by
  have hdiv := bits_div_sixteen t
  have hclear := toNat_setFspTt_zero t
  rw [isZero, beq_iff_eq, ← UInt64.toNat_inj, hclear, UInt64.toNat_zero]
  simp only [intoArray, List.cons.injEq, and_true]
  constructor
  · intro h
    have h16 : t.bits.toNat / 16 = 0 := by omega
    rw [hdiv] at h16
    simp only [Nat.add_eq_zero_iff, Nat.mul_eq_zero, Nat.pow_eq_zero] at h16
    omega
  · rintro ⟨hy, hm, hd, hh, hmi, hs, hus⟩
    rw [hy, hm, hd, hh, hmi, hs, hus] at hdiv
    omega

/-- The packed word is zero when the components are. -/
theorem packDateTime_eq_zero_iff (t : Time) : t.packDateTime = 0 ↔ t.intoArray = [0, 0, 0, 0, 0, 0, 0] := by
  have hv := toNat_packDateTime t
  rw [← UInt64.toNat_inj, hv, UInt64.toNat_zero]
  simp only [intoArray, List.cons.injEq, and_true]
  constructor
  · intro h
    simp only [Nat.add_eq_zero_iff, Nat.mul_eq_zero, Nat.pow_eq_zero] at h
    omega
  · rintro ⟨hy, hm, hd, hh, hmi, hs, hus⟩
    simp only [hy, hm, hd, hh, hmi, hs, hus, Nat.zero_mul, Nat.add_zero]

theorem fsp_le_six (t : Time) : t.fsp ≤ 6 := by
  have hlt := (fields_lt t).2.2.2.2.2.2.2
  rw [fsp_eq, getTimeType_eq]
  split
  · simp
  · split <;> simp <;> omega

/-! ## Packing and unpacking -/

/-- A date or a datetime packs without a time zone. -/
theorem toPackedU64_of_ne_timestamp (ctx : EvalContext) {t : Time} (h : t.getTimeType ≠ .timestamp) :
    t.toPackedU64 ctx = .ok t.packDateTime := by
  rw [toPackedU64]
  by_cases hz : t.isZero
  · rw [if_pos hz, (packDateTime_eq_zero_iff t).mpr ((isZero_iff t).mp hz)]
  · rw [if_neg hz, if_neg h]

/-- `from_packed_u64` reads the components back out of a non-zero packed date or datetime. -/
theorem fromPackedU64_packDateTime (ctx : EvalContext) {t : Time} (hm : t.getMonth ≤ 12)
    (hne : t.packDateTime ≠ 0) {timeType : TimeType} (htt : timeType ≠ .timestamp) {fsp : Int}
    (hfsp : 0 ≤ fsp ∧ fsp ≤ 6) :
    fromPackedU64 ctx t.packDateTime timeType fsp = .ok (uncheckedNew
      ⟨t.getYear, t.getMonth, t.getDay, t.getHour, t.getMinute, t.getSecond, t.getMicro, fsp, timeType⟩) := by
  obtain ⟨hy, -, hd, hh, hmi, hs, hus, -⟩ := fields_lt t
  have hv := toNat_packDateTime t
  have m5 : ∀ x : Nat, x &&& 31 = x % 32 := fun x => Nat.and_two_pow_sub_one_eq_mod x 5
  have m6 : ∀ x : Nat, x &&& 63 = x % 64 := fun x => Nat.and_two_pow_sub_one_eq_mod x 6
  have m17 : ∀ x : Nat, x &&& 131071 = x % 131072 := fun x => Nat.and_two_pow_sub_one_eq_mod x 17
  have m24 : ∀ x : Nat, x &&& 16777215 = x % 16777216 := fun x => Nat.and_two_pow_sub_one_eq_mod x 24
  have hbind : ∀ (n : Nat) (f : Nat → Except Error Time), (Except.ok n >>= f) = f n := fun _ _ => rfl
  have c5 : ((1 : UInt64) <<< 5 - 1).toNat = 31 := rfl
  have c6 : ((1 : UInt64) <<< 6 - 1).toNat = 63 := rfl
  have c17 : ((1 : UInt64) <<< 17 - 1).toNat = 131071 := rfl
  have c24 : ((1 : UInt64) <<< 24 - 1).toNat = 16777215 := rfl
  rw [fromPackedU64, if_neg hne]
  simp only [checkFsp_of_mem hfsp, hbind, if_neg htt, Int.toNat_of_nonneg hfsp.1]
  simp only [UInt64.toNat_toUInt32, UInt64.toNat_div, UInt64.toNat_mod, UInt64.toNat_shiftRight,
    UInt64.toNat_and, UInt64.reduceToNat, Nat.reduceMod, Nat.shiftRight_eq_div_pow, c5, c6, c17, c24,
    m5, m6, m17, m24, hv, Nat.reducePow] at hy hd hh hmi hs hus ⊢
  -- each component: a digit of the packing, read back by division and remainder
  show Except.ok _ = Except.ok _
  congr 2
  simp only [TimeArgs.mk.injEq, and_true]
  refine ⟨?_, ?_, ?_, ?_, ?_, ?_, ?_⟩ <;> omega

/-- The packed zero is the zero time, where the mode lets `Time::new` build it. -/
theorem fromPackedU64_zero {ctx : EvalContext} (hallow : ctx.allowsZeroDate = true) {timeType : TimeType}
    (htt : timeType ≠ .timestamp) {fsp : Int} (hfsp : 0 ≤ fsp ∧ fsp ≤ 6) :
    fromPackedU64 ctx 0 timeType fsp =
      .ok (uncheckedNew (TimeArgs.zero (if timeType = .date then 0 else fsp) timeType)) := by
  rw [fromPackedU64, if_pos rfl]
  simp only [new_zero hallow hfsp htt]

/-- The precision a time is built with, read back: a date's is 0. -/
theorem fsp_uncheckedNew_of_fsp (t : Time) {a : TimeArgs} (hty : a.timeType = t.getTimeType)
    (hfsp : t.getTimeType ≠ .date → a.fsp = t.fsp) : (uncheckedNew a).fsp = t.fsp := by
  have hle := fsp_le_six t
  rw [fsp_uncheckedNew, hty]
  by_cases hd : t.getTimeType = .date
  · rw [if_pos hd, fsp_eq, if_pos hd]
  · rw [if_neg hd, hfsp hd]
    omega

/-- Packing a date or a datetime of a month up to 12 and reading it back gives its components,
type and precision; the zero time only where the mode allows a zero date. -/
theorem toPackedU64_fromPackedU64 (ctx : EvalContext) {t : Time} (htt : t.getTimeType ≠ .timestamp)
    (hm : t.getMonth ≤ 12) (hz : t.isZero = false ∨ ctx.allowsZeroDate = true) :
    ∃ t', (t.toPackedU64 ctx >>= fun v => fromPackedU64 ctx v t.getTimeType t.fsp) = .ok t' ∧
      t'.intoArray = t.intoArray ∧ t'.getTimeType = t.getTimeType ∧ t'.fsp = t.fsp := by
  obtain ⟨hy, -, hd, hh, hmi, hs, hus, -⟩ := fields_lt t
  have hfsp : 0 ≤ (t.fsp : Int) ∧ (t.fsp : Int) ≤ 6 := ⟨by omega, by exact_mod_cast fsp_le_six t⟩
  rw [toPackedU64_of_ne_timestamp ctx htt]
  show ∃ t', fromPackedU64 ctx t.packDateTime t.getTimeType t.fsp = .ok t' ∧ _
  by_cases h0 : t.isZero
  · have hallow : ctx.allowsZeroDate = true := by simpa [h0] using hz
    have hzero := (isZero_iff t).mp h0
    rw [(packDateTime_eq_zero_iff t).mpr hzero, fromPackedU64_zero hallow htt hfsp]
    refine ⟨_, rfl, ?_, getTimeType_uncheckedNew _, fsp_uncheckedNew_of_fsp t rfl (fun hd => if_neg hd)⟩
    rw [intoArray_uncheckedNew, hzero]
    rfl
  · have hne : t.packDateTime ≠ 0 := fun hp => h0 ((isZero_iff t).mpr ((packDateTime_eq_zero_iff t).mp hp))
    rw [fromPackedU64_packDateTime ctx hm hne htt hfsp]
    refine ⟨_, rfl, ?_, getTimeType_uncheckedNew _, fsp_uncheckedNew_of_fsp t rfl (fun _ => rfl)⟩
    rw [intoArray_uncheckedNew]
    simp only [intoArray, List.cons.injEq, and_true]
    omega

theorem packed_time_round_trip :
    (∀ (ctx : EvalContext) (t : Time), t.getTimeType ≠ .timestamp → t.getMonth ≤ 12 →
      (t.isZero = false ∨ ctx.allowsZeroDate = true) →
      ∃ t', (t.toPackedU64 ctx >>= fun v => fromPackedU64 ctx v t.getTimeType t.fsp) = .ok t' ∧
        t'.intoArray = t.intoArray ∧ t'.getTimeType = t.getTimeType ∧ t'.fsp = t.fsp) ∧
    (∀ (ctx : EvalContext) (t₁ t₂ : Time), t₁.getTimeType ≠ .timestamp → t₂.getTimeType ≠ .timestamp →
      t₁.getMonth ≤ 12 → t₂.getMonth ≤ 12 →
      ∃ v₁ v₂, t₁.toPackedU64 ctx = .ok v₁ ∧ t₂.toPackedU64 ctx = .ok v₂ ∧
        Time.cmp t₁ t₂ = compare v₁ v₂ ∧ Time.cmp t₁ t₂ = compare t₁.intoArray t₂.intoArray) := by
  refine ⟨fun ctx t htt hm hz => toPackedU64_fromPackedU64 ctx htt hm hz, ?_⟩
  intro ctx t₁ t₂ h₁ h₂ hm₁ hm₂
  refine ⟨_, _, toPackedU64_of_ne_timestamp ctx h₁, toPackedU64_of_ne_timestamp ctx h₂, ?_,
    cmp_eq_compare_intoArray t₁ t₂⟩
  rw [cmp_eq_compare_intoArray, compare_packDateTime hm₁ hm₂]

/-- The datetime 2020-02-29 12:30:45.123456 packs and comes back under a strict `NO_ZERO_DATE`. -/
theorem packed_time_round_trip_leap_day :
    ∃ t', ((uncheckedNew ⟨2020, 2, 29, 12, 30, 45, 123456, 6, .dateTime⟩).toPackedU64
        ⟨⟨true, false, true, false, false⟩, false, ⟨fun _ => none, fun _ => none, fun _ => none⟩⟩ >>= fun v =>
        fromPackedU64 ⟨⟨true, false, true, false, false⟩, false, ⟨fun _ => none, fun _ => none, fun _ => none⟩⟩
          v .dateTime 6) = .ok t' ∧
      t'.intoArray = [2020, 2, 29, 12, 30, 45, 123456] ∧ t'.getTimeType = .dateTime ∧ t'.fsp = 6 :=
  packed_time_round_trip.1 _ (uncheckedNew ⟨2020, 2, 29, 12, 30, 45, 123456, 6, .dateTime⟩) (by decide)
    (by decide) (Or.inl (by decide))

/-- Under a strict `NO_ZERO_DATE`, the zero datetime packs to 0, and 0 does not unpack. -/
theorem zero_datetime_rejected_when_packed :
    (⟨0⟩ : Time).isZero = true ∧ (⟨0⟩ : Time).getTimeType = .dateTime ∧ (⟨0⟩ : Time).fsp = 0 ∧
      ((⟨0⟩ : Time).toPackedU64
        ⟨⟨true, false, true, false, false⟩, false, ⟨fun _ => none, fun _ => none, fun _ => none⟩⟩ >>= fun v =>
        fromPackedU64 ⟨⟨true, false, true, false, false⟩, false, ⟨fun _ => none, fun _ => none, fun _ => none⟩⟩
          v .dateTime 0) = .error (.incorrectDatetimeValue 0) := by
  decide

end Time
end Tikv.Codec.Mysql
