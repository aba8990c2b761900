import Tikv.Codec.Mysql.TimePacked
import Mathlib.Tactic.IntervalCases

/-!
# Rounding the fractional seconds of a time (`Time::round_frac`)

`round_frac(frac, fsp)` rounds the microseconds half up to `fsp` digits by
looking at the digit below the last one kept, and reports whether they
reached a whole second. `Time::round_frac` writes the rounded microseconds
into the seven components of `into_array` and, on a whole second, lets
`round_components` carry it right to left: each component at or past its
modulus (plus one for the 1-based year, month and day) gives the modulus
up and adds one to the component before it. The day's modulus is the last
day of the month before the carry. `from_slice` then validates the result
with `Time::new`.

Against the calendar of `Tikv.Lib.Calendar`:
* `roundFrac_eq`: `round_frac` on microseconds below a second is
  `roundHalfUp` to a multiple of `10 ^ (6 - fsp)`, with the carry set
  exactly when that reaches a whole second.
* `roundComponents_carry`: on a valid date and time whose microseconds are
  a whole second, `round_components` is `DateTime.succSecond`, the next
  second, through month ends, leap days and years. It gives up only when
  the carry reaches a year 0, which its guard takes for a zero date.
* `roundFrac_of_valid`: for a valid datetime and a precision at most its
  own, `Time::round_frac` is `DateTime.roundMicro`, which the calendar
  shows to be the date and time of the rounded instant
  (`instant_roundMicro`), as long as that is at most year 9999.
* `roundFrac_rounds_instant`: with the unchanged dates and zero times, and
  the larger precision that is only written, the behaviour as a whole;
  `roundFrac_carry_into_year_zero` is the rounding up to year 1 that
  `round_components` refuses.
-/

namespace Tikv.Codec.Mysql

/-- The seven components of a date and time, as `into_array` lists them. -/
def toParts (d : Calendar.DateTime) : List Nat := [d.year, d.month, d.day, d.hour, d.minute, d.second, d.micro]

/-- A date and time of the calendar, with a precision and a type, as `TimeArgs`. -/
def TimeArgs.ofDateTime (d : Calendar.DateTime) (fsp : Int) (timeType : TimeType) : TimeArgs :=
  ⟨d.year, d.month, d.day, d.hour, d.minute, d.second, d.micro, fsp, timeType⟩

/-! ## The microseconds -/

/-- Rounding half up to a multiple of `M * 10` at the digit below it, as `round_frac` does. -/
theorem roundHalfUp_mul_ten (frac : Nat) {M : Nat} (hM : 0 < M) :
    Calendar.roundHalfUp frac (M * 10) = (frac / M + 5) / 10 * M * 10 := by
  have hhalf : M * 10 / 2 = M * 5 := by omega
  rw [Calendar.roundHalfUp, hhalf, ← Nat.div_div_eq_div_mul, Nat.add_mul_div_left _ _ hM, Nat.mul_assoc]

/-- `round_frac` on microseconds below a second: the microseconds rounded half up to `fsp`
digits, and whether they reached a whole second. -/
theorem roundFrac_eq {frac fsp : Nat} (hfrac : frac < 1000000) (hfsp : fsp ≤ 6) :
    roundFrac frac fsp = (decide (1000000 ≤ Calendar.roundHalfUp frac (10 ^ (6 - fsp))),
      Calendar.roundHalfUp frac (10 ^ (6 - fsp))) := by
  unfold roundFrac
  by_cases h6 : fsp = 6
  · subst h6
    simp [hfrac, Calendar.roundHalfUp]
  · have hpow : 10 ^ (6 - fsp) = 10 ^ (6 - fsp - 1) * 10 := by
      rw [← Nat.pow_succ]
      congr 1
      omega
    rw [if_neg (by simp [h6]), hpow, roundHalfUp_mul_ten frac (Nat.pow_pos (by omega))]
    simp only [ge_iff_le, show ¬ 1000000 ≤ frac by omega, if_false, TEN_POW, beq_self_eq_true, if_true]

/-! ## The carry -/

/-- One position of `round_components` that does not reach its modulus. -/
theorem roundComponentsGo_skip {modulus parts : List Nat} {i : Nat}
    (h : parts.getD (i + 1) 0 < modulus.getD (i + 1) 0 + (if i + 1 < 3 then 1 else 0)) :
    roundComponentsGo modulus (i + 1) parts = roundComponentsGo modulus i parts := by
  rw [roundComponentsGo, if_neg (by omega)]

/-- One position of `round_components` that carries into the one before it. -/
theorem roundComponentsGo_carry {modulus parts : List Nat} {i : Nat}
    (h : modulus.getD (i + 1) 0 + (if i + 1 < 3 then 1 else 0) ≤ parts.getD (i + 1) 0)
    (hprev : ¬ (i + 1 < 4 ∧ parts.getD i 0 = 0) ∧ parts.getD i 0 ≤ modulus.getD i 0) :
    roundComponentsGo modulus (i + 1) parts = roundComponentsGo modulus i
      ((parts.set (i + 1) (parts.getD (i + 1) 0 - modulus.getD (i + 1) 0)).set i (parts.getD i 0 + 1)) := by
  have hget : (parts.set (i + 1) (parts.getD (i + 1) 0 - modulus.getD (i + 1) 0)).getD i 0 = parts.getD i 0 := by
    simp [List.getD_eq_getElem?_getD, List.getElem?_set_ne (show i + 1 ≠ i by omega)]
  rw [roundComponentsGo, if_pos h]
  dsimp only
  rw [hget, if_neg]
  simp only [Bool.or_eq_true, Bool.and_eq_true, decide_eq_true_eq, beq_iff_eq, gt_iff_lt]
  omega

theorem roundComponentsGo_zero (modulus parts : List Nat) : roundComponentsGo modulus 0 parts = some parts := rfl

/-- Positions below which nothing reaches its modulus are left as they are. -/
theorem roundComponentsGo_of_lt {modulus parts : List Nat} {i : Nat}
    (h : ∀ j, j < i → parts.getD (j + 1) 0 < modulus.getD (j + 1) 0 + (if j + 1 < 3 then 1 else 0)) :
    roundComponentsGo modulus i parts = some parts := by
  induction i with
  | zero => rfl
  | succ i ih => rw [roundComponentsGo_skip (h i (by omega)), ih (fun j hj => h j (by omega))]

open Calendar in
/-- `round_components` on a valid date and time whose microseconds are a whole second is the
next second, unless the carry reaches a year 0. -/
theorem roundComponents_carry {d : DateTime} (hv : d.Valid) (hyM : d.year ≤ 4294967295) :
    roundComponents [d.year, d.month, d.day, d.hour, d.minute, d.second, 1000000] =
      if d.year = 0 ∧ d.succSecond.year ≠ d.year then none else some (toParts d.succSecond) := by
  obtain ⟨hm1, hm2, hd1, hd2, hh, hmi, hs, -⟩ := hv
  have hL := monthLength_pos d.year d.month
  simp only [roundComponents, List.getD_cons_succ, List.getD_cons_zero, lastDayOfMonth_eq]
  rw [roundComponentsGo_carry (by simp) (by simp; omega)]
  simp only [List.getD_cons_succ, List.getD_cons_zero, List.set_cons_succ, List.set_cons_zero]
  unfold DateTime.succSecond
  -- one position of the loop for each carry of `succSecond`
  by_cases hs' : d.second < 59
  · rw [if_pos hs', roundComponentsGo_of_lt (by
      intro j hj
      interval_cases j <;> simp only [List.getD_cons_succ, List.getD_cons_zero, Nat.reduceAdd, Nat.reduceLT, reduceIte] <;> omega)]
    simp [toParts]
  rw [if_neg hs', roundComponentsGo_carry (by simp; omega) (by simp; omega)]
  simp only [List.getD_cons_succ, List.getD_cons_zero, List.set_cons_succ, List.set_cons_zero]
  by_cases hmi' : d.minute < 59
  · rw [if_pos hmi', roundComponentsGo_of_lt (by
      intro j hj
      interval_cases j <;> simp only [List.getD_cons_succ, List.getD_cons_zero, Nat.reduceAdd, Nat.reduceLT, reduceIte] <;> omega)]
    simp [toParts]
    omega
  rw [if_neg hmi', roundComponentsGo_carry (by simp; omega) (by simp; omega)]
  simp only [List.getD_cons_succ, List.getD_cons_zero, List.set_cons_succ, List.set_cons_zero]
  by_cases hh' : d.hour < 23
  · rw [if_pos hh', roundComponentsGo_of_lt (by
      intro j hj
      interval_cases j <;> simp only [List.getD_cons_succ, List.getD_cons_zero, Nat.reduceAdd, Nat.reduceLT, reduceIte] <;> omega)]
    simp [toParts]
    omega
  rw [if_neg hh', roundComponentsGo_carry (by simp; omega) (by simp; omega)]
  simp only [List.getD_cons_succ, List.getD_cons_zero, List.set_cons_succ, List.set_cons_zero]
  by_cases hd' : d.day < monthLength d.year d.month
  · rw [if_pos hd', roundComponentsGo_of_lt (by
      intro j hj
      interval_cases j <;> simp only [List.getD_cons_succ, List.getD_cons_zero, Nat.reduceAdd, Nat.reduceLT, reduceIte] <;> omega)]
    simp [toParts]
    omega
  rw [if_neg hd', roundComponentsGo_carry (by simp; omega) (by simp; omega)]
  simp only [List.getD_cons_succ, List.getD_cons_zero, List.set_cons_succ, List.set_cons_zero]
  by_cases hm' : d.month < 12
  · rw [if_pos hm', roundComponentsGo_of_lt (by
      intro j hj
      interval_cases j
      simp only [List.getD_cons_succ, List.getD_cons_zero, Nat.reduceAdd, Nat.reduceLT, reduceIte]
      omega)]
    simp [toParts]
    omega
  -- the month carries into the year, which the guard refuses at year 0
  rw [if_neg hm']
  by_cases hy0 : d.year = 0
  · rw [roundComponentsGo, if_pos (by simp; omega)]
    simp [hy0]
  · rw [roundComponentsGo_carry (by simp; omega) (by simp; omega), roundComponentsGo_zero]
    simp [toParts, hy0]
    omega

/-! ## The time built from the components -/

namespace Time

theorem intoArray_eq_toParts (t : Time) : t.intoArray = toParts t.toArgs.toDateTime := rfl

/-- A valid date and time below year `2 ^ 14` is read back from the bitfield. -/
theorem toDateTime_uncheckedNew {d : Calendar.DateTime} (hv : d.Valid) (hy : d.year < 2 ^ 14) (fsp : Int)
    (timeType : TimeType) : (uncheckedNew (TimeArgs.ofDateTime d fsp timeType)).toArgs.toDateTime = d := by
  obtain ⟨-, hm, -, hd, hh, hmi, hs, hus⟩ := hv
  have hlen := Calendar.monthLength_le d.year d.month
  have h := intoArray_uncheckedNew (TimeArgs.ofDateTime d fsp timeType)
  simp only [intoArray, TimeArgs.ofDateTime, List.cons.injEq, and_true] at h
  obtain ⟨h1, h2, h3, h4, h5, h6, h7⟩ := h
  simp only [toArgs, TimeArgs.toDateTime, TimeArgs.ofDateTime, h1, h2, h3, h4, h5, h6, h7]
  rw [Nat.mod_eq_of_lt hy, Nat.mod_eq_of_lt (by omega), Nat.mod_eq_of_lt (by omega), Nat.mod_eq_of_lt (by omega),
    Nat.mod_eq_of_lt (by omega), Nat.mod_eq_of_lt (by omega), Nat.mod_eq_of_lt (by omega)]

theorem fsp_uncheckedNew_ofDateTime (d : Calendar.DateTime) {fsp : Int} (h0 : 0 ≤ fsp) (h6 : fsp ≤ 6) :
    (uncheckedNew (TimeArgs.ofDateTime d fsp .dateTime)).fsp = fsp.toNat := by
  rw [fsp_uncheckedNew]
  simp only [TimeArgs.ofDateTime, reduceCtorEq, if_false]
  omega

theorem isZero_of_valid {t : Time} (hv : t.toArgs.toDateTime.Valid) : t.isZero = false := by
  have hm := hv.month_pos
  rw [Bool.eq_false_iff, ne_eq, isZero_iff]
  simp only [intoArray, List.cons.injEq, not_and]
  intro _ h
  exact absurd h (by simp only [toArgs, TimeArgs.toDateTime] at hm; omega)

/-- `from_slice` builds a valid date and time up to year 9999 as it is. -/
theorem fromSlice_toParts (ctx : EvalContext) {d : Calendar.DateTime} (hv : d.Valid) (hy : d.year ≤ 9999)
    {fsp : Nat} (hfsp : fsp ≤ 6) :
    fromSlice ctx (toParts d) .dateTime fsp = some (uncheckedNew (TimeArgs.ofDateTime d fsp .dateTime)) := by
  have hnew := new_of_valid ctx (a := TimeArgs.ofDateTime d fsp .dateTime) hv hy rfl
    ⟨Int.natCast_nonneg fsp, show (fsp : Int) ≤ 6 by omega⟩
  rw [toParts, fromSlice]
  exact congrArg Except.toOption hnew

theorem getTimeType_setFsp {t : Time} (h : t.getTimeType ≠ .date) (fsp : Nat) :
    (t.setFsp fsp).getTimeType = t.getTimeType := by
  have hft := getFspTt_setFsp h fsp
  have hne : t.getFspTt / 2 ≠ 7 := fun h7 => h (by rw [getTimeType_eq, if_pos h7])
  rw [getTimeType_eq, getTimeType_eq t, hft, if_neg (by omega), if_neg hne]
  simp only [Nat.add_mod, Nat.mul_mod_right, Nat.mod_mod, Nat.zero_add]

theorem fsp_setFsp {t : Time} (h : t.getTimeType ≠ .date) (fsp : Nat) : (t.setFsp fsp).fsp = min fsp 6 := by
  rw [fsp_eq, getTimeType_setFsp h, if_neg h, getFspTt_setFsp h]
  omega

/-! ## `Time::round_frac` -/

/-- A date or the zero time is returned as it is, whatever the precision asked for. -/
theorem roundFrac_of_date_or_zero (ctx : EvalContext) {t : Time} (h : t.getTimeType = .date ∨ t.isZero = true)
    (fsp : Int) : t.roundFrac ctx fsp = .ok t := by
  rw [Time.roundFrac, if_pos (by simpa using h)]
  rfl

/-- A precision above the time's only sets the precision. -/
theorem roundFrac_of_lt_fsp (ctx : EvalContext) {t : Time} (hd : t.getTimeType ≠ .date) (hz : t.isZero = false)
    {fsp : Int} (h0 : 0 ≤ fsp) (h6 : fsp ≤ 6) (hlt : t.fsp < fsp.toNat) :
    t.roundFrac ctx fsp = .ok (t.setFsp fsp.toNat) := by
  have hbind : ∀ (n : Nat) (f : Nat → Except Error Time), (Except.ok n >>= f) = f n := fun _ _ => rfl
  rw [Time.roundFrac, if_neg (by simp [hd, hz]), checkFsp_of_mem ⟨h0, h6⟩, hbind, if_pos hlt]
  rfl

/-- On a valid datetime and a precision at most its own, `round_frac` gives the calendar's
rounding of the microseconds, when that is representable and does not carry into year 1
from year 0. -/
theorem roundFrac_of_valid (ctx : EvalContext) {t : Time} (hty : t.getTimeType = .dateTime)
    (hv : t.toArgs.toDateTime.Valid) {fsp : Int} (h0 : 0 ≤ fsp) (hle : fsp.toNat ≤ t.fsp)
    (hrep : (t.toArgs.toDateTime.roundMicro (10 ^ (6 - fsp.toNat))).year ≤ 9999)
    (hy : 1 ≤ t.getYear ∨ (t.toArgs.toDateTime.roundMicro (10 ^ (6 - fsp.toNat))).year = t.getYear) :
    t.roundFrac ctx fsp =
      .ok (uncheckedNew (TimeArgs.ofDateTime (t.toArgs.toDateTime.roundMicro (10 ^ (6 - fsp.toNat))) fsp
        .dateTime)) := by
  have hfsp6 := fsp_le_six t
  have hbind : ∀ (n : Nat) (f : Nat → Except Error Time), (Except.ok n >>= f) = f n := fun _ _ => rfl
  have hyM : t.getYear < 2 ^ 14 := (fields_lt t).1
  rw [Time.roundFrac]
  simp only [hty, isZero_of_valid hv, reduceCtorEq, decide_false, Bool.or_false, Bool.false_eq_true, if_false]
  rw [checkFsp_of_mem ⟨h0, by omega⟩, hbind, if_neg (by omega),
    @roundFrac_eq t.getMicro fsp.toNat hv.micro_lt (by omega), intoArray_eq_toParts]
  dsimp only
  generalize hd : t.toArgs.toDateTime = d at hv hrep hy ⊢
  have hdy : d.year = t.getYear := by rw [← hd]; rfl
  have hdus : d.micro = t.getMicro := by rw [← hd]; rfl
  rw [← hdus]
  have hu : 0 < 10 ^ (6 - fsp.toNat) := Nat.pow_pos (by omega)
  have hdvd : 10 ^ (6 - fsp.toNat) ∣ 1000000 := by
    rw [show (1000000 : Nat) = 10 ^ 6 from rfl]
    exact Nat.pow_dvd_pow 10 (by omega)
  generalize 10 ^ (6 - fsp.toNat) = u at hu hdvd hrep hy ⊢
  have hvr := Calendar.DateTime.valid_roundMicro hv u
  by_cases hc : 1000000 ≤ Calendar.roundHalfUp d.micro u
  · -- a whole second: the carry runs through `round_components`
    have hround : d.roundMicro u = d.succSecond := by rw [Calendar.DateTime.roundMicro, if_neg (by omega)]
    rw [hround] at hrep hy hvr ⊢
    obtain ⟨k, hk⟩ := hdvd
    have hle : Calendar.roundHalfUp d.micro u ≤ k * u :=
      Calendar.roundHalfUp_le hu (by rw [Nat.mul_comm, ← hk]; exact hv.micro_lt)
    rw [Nat.mul_comm, ← hk] at hle
    simp only [toParts, List.set_cons_succ, List.set_cons_zero, show Calendar.roundHalfUp d.micro u = 1000000 by omega]
    rw [roundComponents_carry hv (by omega), if_neg (show ¬(d.year = 0 ∧ d.succSecond.year ≠ d.year) by omega)]
    simp only [Nat.le_refl, decide_true, if_true]
    rw [fromSlice_toParts ctx hvr hrep (by omega), Int.toNat_of_nonneg h0]
    rfl
  · have hround : d.roundMicro u = { d with micro := Calendar.roundHalfUp d.micro u } := by
      rw [Calendar.DateTime.roundMicro, if_pos (by omega)]
    rw [hround] at hrep hy hvr ⊢
    simp only [hc, decide_false, Bool.false_eq_true, if_false]
    rw [show (toParts d).set 6 (Calendar.roundHalfUp d.micro u) =
      toParts { d with micro := Calendar.roundHalfUp d.micro u } from rfl, fromSlice_toParts ctx hvr hrep (by omega),
      Int.toNat_of_nonneg h0]
    rfl

theorem roundFrac_rounds_instant (ctx : EvalContext) (t : Time) (fsp : Int) :
    ((t.getTimeType = .date ∨ t.isZero = true) → t.roundFrac ctx fsp = .ok t) ∧
    (t.getTimeType ≠ .date → t.isZero = false → 0 ≤ fsp → fsp ≤ 6 → t.fsp < fsp.toNat →
      ∃ t', t.roundFrac ctx fsp = .ok t' ∧ t'.intoArray = t.intoArray ∧ t'.getTimeType = t.getTimeType ∧
        t'.fsp = fsp.toNat) ∧
    (t.getTimeType = .dateTime → t.toArgs.toDateTime.Valid → 0 ≤ fsp → fsp.toNat ≤ t.fsp →
      (∃ d : Calendar.DateTime, d.Valid ∧
        d.instant = Calendar.roundHalfUp t.toArgs.toDateTime.instant (10 ^ (6 - fsp.toNat))) ∧
      ∀ d : Calendar.DateTime, d.Valid →
        d.instant = Calendar.roundHalfUp t.toArgs.toDateTime.instant (10 ^ (6 - fsp.toNat)) →
        d.year ≤ 9999 → (1 ≤ t.getYear ∨ d.year = 0) →
        ∃ t', t.roundFrac ctx fsp = .ok t' ∧ t'.toArgs.toDateTime = d ∧ t'.getTimeType = .dateTime ∧
          t'.fsp = fsp.toNat) := by
  refine ⟨fun h => roundFrac_of_date_or_zero ctx h fsp, ?_, ?_⟩
  · intro hd hz h0 h6 hlt
    exact ⟨_, roundFrac_of_lt_fsp ctx hd hz h0 h6 hlt, intoArray_setFsp t _, getTimeType_setFsp hd _,
      by rw [fsp_setFsp hd]; omega⟩
  · intro hty hv h0 hle
    have h6 := fsp_le_six t
    have hu : 0 < 10 ^ (6 - fsp.toNat) := Nat.pow_pos (by omega)
    have hdvd : 10 ^ (6 - fsp.toNat) ∣ 1000000 := by
      rw [show (1000000 : Nat) = 10 ^ 6 from rfl]
      exact Nat.pow_dvd_pow 10 (by omega)
    -- the rounded date and time is the one valid date and time at the rounded instant
    have hvr := Calendar.DateTime.valid_roundMicro hv (10 ^ (6 - fsp.toNat))
    have hinst := Calendar.DateTime.instant_roundMicro hv hu hdvd
    refine ⟨⟨_, hvr, hinst⟩, fun d hvd hd hrep hy => ?_⟩
    have hdr : t.toArgs.toDateTime.roundMicro (10 ^ (6 - fsp.toNat)) = d :=
      Calendar.DateTime.eq_of_instant_eq hvr hvd (by rw [hinst, hd])
    have hyt : t.toArgs.toDateTime.year = t.getYear := rfl
    rw [← hdr] at hrep hy
    refine ⟨_, roundFrac_of_valid ctx hty hv h0 hle hrep (by omega), ?_, getTimeType_uncheckedNew _,
      fsp_uncheckedNew_ofDateTime _ h0 (by omega)⟩
    rw [toDateTime_uncheckedNew hvr (by omega), hdr]

/-- The datetime 2019-12-31 23:59:59.5 rounded to whole seconds is 2020-01-01 00:00:00. -/
theorem roundFrac_rounds_instant_new_year :
    ∃ t', (uncheckedNew ⟨2019, 12, 31, 23, 59, 59, 500000, 1, .dateTime⟩).roundFrac
        ⟨⟨true, false, true, false, false⟩, false, ⟨fun _ => none, fun _ => none, fun _ => none⟩⟩ 0 = .ok t' ∧
      t'.toArgs.toDateTime = ⟨2020, 1, 1, 0, 0, 0, 0⟩ ∧ t'.getTimeType = .dateTime ∧ t'.fsp = (0 : Int).toNat :=
  ((roundFrac_rounds_instant _ (uncheckedNew ⟨2019, 12, 31, 23, 59, 59, 500000, 1, .dateTime⟩) 0).2.2
    (by decide) (by decide) (by decide) (by decide)).2 ⟨2020, 1, 1, 0, 0, 0, 0⟩ (by decide)
    (by
      have hv : (uncheckedNew ⟨2019, 12, 31, 23, 59, 59, 500000, 1, .dateTime⟩).toArgs.toDateTime.Valid := by
        decide
      have hr : (uncheckedNew ⟨2019, 12, 31, 23, 59, 59, 500000, 1, .dateTime⟩).toArgs.toDateTime.roundMicro
          (10 ^ (6 - (0 : Int).toNat)) = ⟨2020, 1, 1, 0, 0, 0, 0⟩ := by
        decide
      rw [← hr]
      exact Calendar.DateTime.instant_roundMicro hv (by decide) (by decide))
    (by decide) (Or.inl (by decide))

/-- The datetime 0000-12-31 23:59:59.5 rounded to whole seconds is 0001-01-01 00:00:00, but `round_frac`
gives the zero time: the carry into a year 0 is refused. -/
theorem roundFrac_carry_into_year_zero :
    (uncheckedNew ⟨0, 12, 31, 23, 59, 59, 500000, 1, .dateTime⟩).roundFrac
        ⟨⟨false, false, false, false, false⟩, false, ⟨fun _ => none, fun _ => none, fun _ => none⟩⟩ 0 =
      .ok (uncheckedNew (TimeArgs.zero 0 .dateTime)) ∧
    (uncheckedNew ⟨0, 12, 31, 23, 59, 59, 500000, 1, .dateTime⟩).toArgs.toDateTime.Valid ∧
    (uncheckedNew ⟨0, 12, 31, 23, 59, 59, 500000, 1, .dateTime⟩).toArgs.toDateTime.roundMicro (10 ^ 6) =
      ⟨1, 1, 1, 0, 0, 0, 0⟩ := by
  decide

end Time

end Tikv.Codec.Mysql
