import Mathlib.Algebra.BigOperators.Group.Finset.Basic

/-!
# The proleptic Gregorian calendar

A date and time of day to the microsecond (`Calendar.DateTime`), its
validity, and the instant it names: the microseconds since the start of
year 0, counting every year back to year 0 with the Gregorian leap rule.
`DateTime.succSecond` is the next whole second, carrying into the minute,
hour, day, month and year, and `roundHalfUp n u` is `n` rounded half up
to a multiple of `u`.

The results say that the instant of the next second is one second later
(`instant_succSecond`), that it is a valid date and time again
(`valid_succSecond`), and that rounding an instant to a divisor of a second
only rounds its microseconds (`roundHalfUp_instant`).
-/

namespace Calendar

/-- Gregorian leap years: every fourth year, except centuries not divisible by 400. -/
def IsLeap (y : Nat) : Prop := y % 4 = 0 ∧ (y % 100 ≠ 0 ∨ y % 400 = 0)

instance : DecidablePred IsLeap := fun y =>
  inferInstanceAs (Decidable (y % 4 = 0 ∧ (y % 100 ≠ 0 ∨ y % 400 = 0)))

/-- The number of days of month `m` (1 to 12) of year `y`. -/
def monthLength (y m : Nat) : Nat :=
  match m with
  | 2 => if IsLeap y then 29 else 28
  | 4 | 6 | 9 | 11 => 30
  | _ => 31

/-- The number of days of year `y`. -/
def yearLength (y : Nat) : Nat := if IsLeap y then 366 else 365

/-- The days of the years before year `y`. -/
def daysBeforeYear (y : Nat) : Nat := ∑ k ∈ Finset.range y, yearLength k

/-- The days of the months of year `y` before month `m`. -/
def daysBeforeMonth (y m : Nat) : Nat := ∑ j ∈ Finset.range (m - 1), monthLength y (j + 1)

/-- The days before day `d` of month `m` of year `y`, counted from the first day of year 0. -/
def dayNumber (y m d : Nat) : Nat := daysBeforeYear y + daysBeforeMonth y m + (d - 1)

/-- A date and a time of day, to the microsecond. -/
structure DateTime where
  year : Nat
  month : Nat
  day : Nat
  hour : Nat
  minute : Nat
  second : Nat
  micro : Nat
  deriving DecidableEq, Repr

namespace DateTime

/-- A date of the calendar and a time of day. -/
structure Valid (t : DateTime) : Prop where
  month_pos : 1 ≤ t.month
  month_le : t.month ≤ 12
  day_pos : 1 ≤ t.day
  day_le : t.day ≤ monthLength t.year t.month
  hour_lt : t.hour < 24
  minute_lt : t.minute < 60
  second_lt : t.second < 60
  micro_lt : t.micro < 1000000

instance (t : DateTime) : Decidable t.Valid :=
  decidable_of_iff (1 ≤ t.month ∧ t.month ≤ 12 ∧ 1 ≤ t.day ∧ t.day ≤ monthLength t.year t.month ∧
      t.hour < 24 ∧ t.minute < 60 ∧ t.second < 60 ∧ t.micro < 1000000)
    ⟨fun ⟨h1, h2, h3, h4, h5, h6, h7, h8⟩ => ⟨h1, h2, h3, h4, h5, h6, h7, h8⟩,
      fun ⟨h1, h2, h3, h4, h5, h6, h7, h8⟩ => ⟨h1, h2, h3, h4, h5, h6, h7, h8⟩⟩

/-- The microseconds from the start of year 0 to `t`. -/
def instant (t : DateTime) : Nat :=
  (((dayNumber t.year t.month t.day * 24 + t.hour) * 60 + t.minute) * 60 + t.second) * 1000000 + t.micro

/-- The next whole second after the start of the second of `t`. -/
def succSecond (t : DateTime) : DateTime :=
  if t.second < 59 then { t with second := t.second + 1, micro := 0 }
  else if t.minute < 59 then { t with minute := t.minute + 1, second := 0, micro := 0 }
  else if t.hour < 23 then { t with hour := t.hour + 1, minute := 0, second := 0, micro := 0 }
  else if t.day < monthLength t.year t.month then
    { t with day := t.day + 1, hour := 0, minute := 0, second := 0, micro := 0 }
  else if t.month < 12 then
    { t with month := t.month + 1, day := 1, hour := 0, minute := 0, second := 0, micro := 0 }
  else ⟨t.year + 1, 1, 1, 0, 0, 0, 0⟩

end DateTime

/-- `n` rounded half up to a multiple of `u`. -/
def roundHalfUp (n u : Nat) : Nat := (n + u / 2) / u * u

/-- `t` rounded half up to a multiple of `u` microseconds, `u` a divisor of a
second: the microseconds rounded, or the next second when they round up to a
whole one. -/
def DateTime.roundMicro (t : DateTime) (u : Nat) : DateTime :=
  if roundHalfUp t.micro u < 1000000 then { t with micro := roundHalfUp t.micro u } else t.succSecond

/-! ## Days -/

theorem monthLength_pos (y m : Nat) : 0 < monthLength y m := by
  unfold monthLength
  split
  · split <;> omega
  all_goals omega

theorem monthLength_le (y m : Nat) : monthLength y m ≤ 31 := by
  unfold monthLength
  split
  · split <;> omega
  all_goals omega

theorem daysBeforeMonth_succ (y : Nat) {m : Nat} (hm : 1 ≤ m) :
    daysBeforeMonth y (m + 1) = daysBeforeMonth y m + monthLength y m := by
  have hpred : m + 1 - 1 = (m - 1) + 1 := by omega
  rw [daysBeforeMonth, daysBeforeMonth, hpred, Finset.sum_range_succ, Nat.sub_add_cancel hm]

/-- The twelve months make the year. -/
theorem daysBeforeMonth_thirteen (y : Nat) : daysBeforeMonth y 13 = yearLength y := by
  by_cases hy : IsLeap y <;>
    simp [daysBeforeMonth, yearLength, monthLength, Finset.sum_range_succ, hy]

theorem daysBeforeYear_succ (y : Nat) : daysBeforeYear (y + 1) = daysBeforeYear y + yearLength y := by
  rw [daysBeforeYear, daysBeforeYear, Finset.sum_range_succ]

/-- The day after a day that is not the last of its month. -/
theorem dayNumber_succ_day {y m d : Nat} (hd : 1 ≤ d) :
    dayNumber y m d + 1 = dayNumber y m (d + 1) := by
  unfold dayNumber
  omega

/-- The day after the last day of a month other than December. -/
theorem dayNumber_succ_month {y m : Nat} (hm : 1 ≤ m) :
    dayNumber y m (monthLength y m) + 1 = dayNumber y (m + 1) 1 := by
  have hpos := monthLength_pos y m
  unfold dayNumber
  rw [daysBeforeMonth_succ y hm]
  omega

/-- The day after the last day of December. -/
theorem dayNumber_succ_year (y : Nat) : dayNumber y 12 (monthLength y 12) + 1 = dayNumber (y + 1) 1 1 := by
  have h12 := daysBeforeMonth_succ y (m := 12) (by omega)
  have hpos := monthLength_pos y 12
  have hjan : daysBeforeMonth (y + 1) 1 = 0 := rfl
  unfold dayNumber
  rw [daysBeforeYear_succ, ← daysBeforeMonth_thirteen, h12, hjan]
  omega

/-! ## The next second -/

namespace DateTime

/-- One second on, as the carry runs through the components. -/
theorem instant_succSecond {t : DateTime} (ht : t.Valid) :
    (succSecond t).instant = { t with micro := 0 }.instant + 1000000 := by
  have hmonth := ht.month_pos
  have := ht.hour_lt
  have := ht.minute_lt
  have := ht.second_lt
  unfold succSecond
  split
  · simp only [instant]
    omega
  split
  · simp only [instant]
    omega
  split
  · simp only [instant]
    omega
  split
  · have := dayNumber_succ_day (y := t.year) (m := t.month) ht.day_pos
    simp only [instant]
    omega
  split
  · have hd : t.day = monthLength t.year t.month := Nat.le_antisymm ht.day_le (by omega)
    have := dayNumber_succ_month (y := t.year) hmonth
    simp only [instant]
    rw [← this, ← hd]
    omega
  · have hm : t.month = 12 := by have := ht.month_le; omega
    have hd : t.day = monthLength t.year 12 := by rw [← hm]; exact Nat.le_antisymm ht.day_le (by omega)
    have := dayNumber_succ_year t.year
    simp only [instant]
    rw [← this, hm, ← hd]
    omega

theorem valid_succSecond {t : DateTime} (ht : t.Valid) : (succSecond t).Valid := by
  obtain ⟨hm1, hm2, hd1, hd2, hh, hmi, hs, hus⟩ := ht
  have := monthLength_pos t.year (t.month + 1)
  have := monthLength_pos (t.year + 1) 1
  -- each carry leaves a component one up and those after it at their least
  unfold succSecond
  split
  · exact ⟨hm1, hm2, hd1, hd2, hh, hmi, by dsimp only; omega, by dsimp only; omega⟩
  split
  · exact ⟨hm1, hm2, hd1, hd2, hh, by dsimp only; omega, by dsimp only; omega, by dsimp only; omega⟩
  split
  · refine ⟨hm1, hm2, hd1, hd2, ?_, ?_, ?_, ?_⟩ <;> dsimp only <;> omega
  split
  · refine ⟨hm1, hm2, ?_, ?_, ?_, ?_, ?_, ?_⟩ <;> dsimp only <;> omega
  split
  · refine ⟨?_, ?_, ?_, ?_, ?_, ?_, ?_, ?_⟩ <;> dsimp only <;> omega
  · refine ⟨?_, ?_, ?_, ?_, ?_, ?_, ?_, ?_⟩ <;> dsimp only <;> omega

end DateTime

/-! ## Rounding -/

/-- Whole multiples of `u` come out of the rounding as they went in. -/
theorem roundHalfUp_mul_add {u : Nat} (hu : 0 < u) (a b : Nat) :
    roundHalfUp (a * u + b) u = a * u + roundHalfUp b u := by
  unfold roundHalfUp
  rw [Nat.add_assoc, Nat.add_comm (a * u), Nat.add_mul_div_right _ _ hu, Nat.add_mul]
  omega

/-- Rounding an instant to a divisor of a second rounds its microseconds only. -/
theorem roundHalfUp_instant (t : DateTime) {u : Nat} (hu : 0 < u) (hdvd : u ∣ 1000000) :
    roundHalfUp t.instant u = { t with micro := 0 }.instant + roundHalfUp t.micro u := by
  obtain ⟨k, hk⟩ := hdvd
  have hsplit : t.instant = ((((dayNumber t.year t.month t.day * 24 + t.hour) * 60 + t.minute) * 60 +
      t.second) * k) * u + t.micro := by
    rw [DateTime.instant, hk, Nat.mul_comm u k, Nat.mul_assoc]
  rw [hsplit, roundHalfUp_mul_add hu, DateTime.instant, hk, Nat.mul_comm u k, Nat.mul_assoc]
  rfl

/-- Below a multiple of `u`, rounding does not pass it. -/
theorem roundHalfUp_le {u n k : Nat} (hu : 0 < u) (h : n < k * u) : roundHalfUp n u ≤ k * u := by
  have hlt : (n + u / 2) / u < k + 1 := by
    rw [Nat.div_lt_iff_lt_mul hu, Nat.add_mul, Nat.one_mul]
    omega
  exact Nat.mul_le_mul_right u (by omega)

namespace DateTime

theorem valid_roundMicro {t : DateTime} (ht : t.Valid) (u : Nat) : (t.roundMicro u).Valid := by
  unfold roundMicro
  split
  · exact { ht with micro_lt := by assumption }
  · exact valid_succSecond ht

/-- Rounding the microseconds rounds the instant. -/
theorem instant_roundMicro {t : DateTime} (ht : t.Valid) {u : Nat} (hu : 0 < u) (hdvd : u ∣ 1000000) :
    (t.roundMicro u).instant = roundHalfUp t.instant u := by
  rw [roundHalfUp_instant t hu hdvd, roundMicro]
  split
  · simp only [instant]
    omega
  · -- the microseconds round up to exactly one second
    rename_i hge
    obtain ⟨k, hk⟩ := hdvd
    have hle : roundHalfUp t.micro u ≤ k * u :=
      roundHalfUp_le hu (by rw [Nat.mul_comm, ← hk]; exact ht.micro_lt)
    rw [instant_succSecond ht]
    rw [Nat.mul_comm, ← hk] at hle
    omega

end DateTime

/-! ## A date and time is its instant -/

theorem monotone_daysBeforeYear : Monotone daysBeforeYear :=
  monotone_nat_of_le_succ fun y => by
    rw [daysBeforeYear_succ]
    omega

theorem monotone_daysBeforeMonth (y : Nat) : Monotone (daysBeforeMonth y) := by
  refine monotone_nat_of_le_succ fun m => ?_
  rcases Nat.eq_zero_or_pos m with rfl | hm
  · exact Nat.le_refl _
  · rw [daysBeforeMonth_succ y hm]
    omega

/-- Two points on one step of a monotone staircase are at the same step. -/
theorem eq_of_mem_step {f : Nat → Nat} (hf : Monotone f) {a k k' : Nat} (h : f k ≤ a ∧ a < f (k + 1))
    (h' : f k' ≤ a ∧ a < f (k' + 1)) : k = k' := by
  by_contra hne
  rcases Nat.lt_or_gt_of_ne hne with hlt | hlt
  · have := hf (show k + 1 ≤ k' by omega)
    omega
  · have := hf (show k' + 1 ≤ k by omega)
    omega

/-- The days of a valid date of year `y` are within the year's. -/
theorem dayNumber_mem {y m d : Nat} (hm1 : 1 ≤ m) (hm2 : m ≤ 12) (hd1 : 1 ≤ d) (hd2 : d ≤ monthLength y m) :
    daysBeforeYear y ≤ dayNumber y m d ∧ dayNumber y m d < daysBeforeYear (y + 1) := by
  have hnext := daysBeforeMonth_succ y hm1
  have hyear : daysBeforeMonth y (m + 1) ≤ yearLength y :=
    daysBeforeMonth_thirteen y ▸ monotone_daysBeforeMonth y (by omega)
  rw [daysBeforeYear_succ]
  unfold dayNumber
  omega

namespace DateTime

/-- A valid date and time is determined by its instant. -/
theorem eq_of_instant_eq {t₁ t₂ : DateTime} (h₁ : t₁.Valid) (h₂ : t₂.Valid) (h : t₁.instant = t₂.instant) :
    t₁ = t₂ := by
  obtain ⟨hm1, hm2, hd1, hd2, hh, hmi, hs, hus⟩ := h₁
  obtain ⟨hm1', hm2', hd1', hd2', hh', hmi', hs', hus'⟩ := h₂
  -- the instant is a numeral of mixed radix with the day number as its leading digit
  have hday : dayNumber t₁.year t₁.month t₁.day = dayNumber t₂.year t₂.month t₂.day ∧ t₁.hour = t₂.hour ∧
      t₁.minute = t₂.minute ∧ t₁.second = t₂.second ∧ t₁.micro = t₂.micro := by
    unfold instant at h
    omega
  have hy : t₁.year = t₂.year := by
    refine eq_of_mem_step monotone_daysBeforeYear (dayNumber_mem hm1 hm2 hd1 hd2) ?_
    rw [hday.1]
    exact dayNumber_mem hm1' hm2' hd1' hd2'
  -- within the year, the day is on the step of its month
  have hmonth : ∀ {m d : Nat}, 1 ≤ m → 1 ≤ d → d ≤ monthLength t₂.year m →
      daysBeforeMonth t₂.year m ≤ daysBeforeMonth t₂.year m + (d - 1) ∧
        daysBeforeMonth t₂.year m + (d - 1) < daysBeforeMonth t₂.year (m + 1) := fun hm hd hdl => by
    rw [daysBeforeMonth_succ _ hm]
    omega
  have hdays := hday.1
  unfold dayNumber at hdays
  rw [hy] at hdays hd2
  have hm : t₁.month = t₂.month := by
    refine eq_of_mem_step (monotone_daysBeforeMonth t₂.year) (hmonth hm1 hd1 hd2) ?_
    have : daysBeforeMonth t₂.year t₁.month + (t₁.day - 1) = daysBeforeMonth t₂.year t₂.month + (t₂.day - 1) := by
      omega
    rw [this]
    exact hmonth hm1' hd1' hd2'
  rw [hm] at hdays
  cases t₁
  cases t₂
  simp only [mk.injEq] at *
  omega

end DateTime

end Calendar
