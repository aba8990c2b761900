import Mathlib.Data.Rat.Floor
import Mathlib.Tactic.FieldSimp
import Mathlib.Tactic.Linarith

/-!
# Rounding to a number of decimal places

A rational number rounded to an integer toward zero, half away from zero
or away from zero: its absolute value is rounded down, rounded to the
nearest with halves up, or rounded up, and its sign is kept (`roundInt`).
Rounding to `f` decimal places, `f` possibly negative, rounds `x * 10^f`
(`roundAt`).

On naturals each mode is the quotient and a test of the remainder
(`divRound`). Results:
* `roundInt_natCast_div`, `roundInt_neg`: rounding `± m / B` is `± divRound m B`;
* `roundInt_eq_zero`, `abs_roundInt_lt`: below a half only rounding away from
  zero leaves zero, and no mode moves a number by one or more;
* `roundAt_mantissa`: rounding `± m / 10^F` to `F - s` places is
  `± divRound m (10^s) / 10^(F - s)`, and `roundAt_eq_self` when the number
  already has no more places;
* `le_two_mul_mod_pow_iff`, `le_two_mul_iff_of_lt`: the half test is the first digit dropped;
* `divRound_mul_add`: whole units pass through; `divRound_mul_pow_add`: toward
  zero and half away from zero do not look below the first digit dropped;
* `ceil_eq_roundInt`, `floor_eq_roundInt`: ceiling and floor round away from
  zero or toward it by the sign.
-/

namespace Rounding

/-- Where a number between two integers goes. -/
inductive Mode where
  | towardZero
  | halfAwayFromZero
  | awayFromZero
  deriving DecidableEq, Repr

/-- `m / B` rounded by `mode`: the quotient, and one more when the remainder
calls for it. -/
def divRound (mode : Mode) (m B : Nat) : Nat :=
  m / B + match mode with
    | .towardZero => 0
    | .halfAwayFromZero => if B ≤ 2 * (m % B) then 1 else 0
    | .awayFromZero => if m % B = 0 then 0 else 1

/-- `x` rounded to an integer by `mode`: its absolute value rounded, its sign kept. -/
def roundInt (mode : Mode) (x : ℚ) : ℤ :=
  let n : ℤ := match mode with
    | .towardZero => ⌊|x|⌋
    | .halfAwayFromZero => ⌊|x| + 1 / 2⌋
    | .awayFromZero => ⌈|x|⌉
  if x < 0 then -n else n

/-- `x` rounded to `f` decimal places by `mode`. -/
def roundAt (mode : Mode) (x : ℚ) (f : ℤ) : ℚ := roundInt mode (x * 10 ^ f) / 10 ^ f

section Nat

variable {m B : Nat}

theorem divRound_le (mode : Mode) (m B : Nat) : divRound mode m B ≤ m / B + 1 := by
  unfold divRound
  cases mode with
  | towardZero => dsimp only; omega
  | halfAwayFromZero => dsimp only; split_ifs <;> omega
  | awayFromZero => dsimp only; split_ifs <;> omega

/-- Below half the unit every mode but away from zero gives zero. -/
theorem divRound_eq_zero {mode : Mode} (hmode : mode ≠ .awayFromZero) (h : 2 * m < B) :
    divRound mode m B = 0 := by
  have hdiv : m / B = 0 := Nat.div_eq_of_lt (by omega)
  have hmod : m % B = m := Nat.mod_eq_of_lt (by omega)
  unfold divRound
  cases mode with
  | towardZero => simp [hdiv]
  | halfAwayFromZero => simp [hdiv, hmod, Nat.not_le.mpr h]
  | awayFromZero => exact absurd rfl hmode

/-- The half test at `10^(s + 1)` reads the digit after the last kept one. -/
theorem le_two_mul_mod_pow_iff (m s : Nat) :
    10 ^ (s + 1) ≤ 2 * (m % 10 ^ (s + 1)) ↔ 5 ≤ m / 10 ^ s % 10 := by
  have hpos : 0 < 10 ^ s := Nat.pow_pos (by omega)
  -- the remainder is the digit at `10^s` and what is below it
  have hsplit : m % 10 ^ (s + 1) = 10 ^ s * (m / 10 ^ s % 10) + m % 10 ^ s := by
    rw [Nat.pow_succ, Nat.mod_mul]
    ring
  have hlow : m % 10 ^ s < 10 ^ s := Nat.mod_lt _ hpos
  have hdig : m / 10 ^ s % 10 < 10 := Nat.mod_lt _ (by omega)
  rw [hsplit, Nat.pow_succ]
  constructor
  · intro h
    by_contra hlt
    have : 10 ^ s * (m / 10 ^ s % 10) ≤ 10 ^ s * 4 := Nat.mul_le_mul_left _ (by omega)
    omega
  · intro h
    have : 10 ^ s * 5 ≤ 10 ^ s * (m / 10 ^ s % 10) := Nat.mul_le_mul_left _ h
    omega

/-- Whole units pass through the rounding. -/
theorem divRound_mul_add (mode : Mode) (K D : Nat) (hB : 0 < B) :
    divRound mode (K * B + D) B = K + divRound mode D B := by
  have hdiv : (K * B + D) / B = K + D / B := by
    rw [Nat.add_comm, Nat.add_mul_div_right _ _ hB, Nat.add_comm]
  have hmod : (K * B + D) % B = D % B := by
    rw [Nat.add_comm, Nat.add_mul_mod_self_right]
  unfold divRound
  rw [hdiv, hmod, Nat.add_assoc]

/-- Digits below the first one dropped do not move a rounding toward zero or
half away from zero. -/
theorem divRound_mul_pow_add {mode : Mode} (hmode : mode ≠ .awayFromZero) (A : Nat) {D j t : Nat}
    (ht : 0 < t) (hD : D < 10 ^ j) : divRound mode (A * 10 ^ j + D) (10 ^ (j + t)) = divRound mode A (10 ^ t) := by
  have hpos : 0 < 10 ^ j := Nat.pow_pos (by omega)
  have hlow : (A * 10 ^ j + D) / 10 ^ j = A := by
    rw [Nat.add_comm, Nat.add_mul_div_right _ _ hpos, Nat.div_eq_of_lt hD, Nat.zero_add]
  have hdiv : (A * 10 ^ j + D) / 10 ^ (j + t) = A / 10 ^ t := by
    rw [Nat.pow_add, ← Nat.div_div_eq_div_mul, hlow]
  have hhalf : 10 ^ (j + t) ≤ 2 * ((A * 10 ^ j + D) % 10 ^ (j + t)) ↔ 10 ^ t ≤ 2 * (A % 10 ^ t) := by
    obtain ⟨u, rfl⟩ : ∃ u, t = u + 1 := ⟨t - 1, by omega⟩
    -- the half test reads the digit at `10^(j + u)`, which is a digit of `A`
    have hdigit : (A * 10 ^ j + D) / 10 ^ (j + u) % 10 = A / 10 ^ u % 10 := by
      rw [Nat.pow_add, ← Nat.div_div_eq_div_mul, hlow]
    rw [← Nat.add_assoc, le_two_mul_mod_pow_iff, le_two_mul_mod_pow_iff, hdigit]
  unfold divRound
  cases mode with
  | towardZero => rw [hdiv]
  | halfAwayFromZero => simp only [hdiv, hhalf]
  | awayFromZero => exact absurd rfl hmode

/-- The half test of a number below `10^(s + 1)` reads its leading digit. -/
theorem le_two_mul_iff_of_lt {D s : Nat} (hD : D < 10 ^ (s + 1)) : 10 ^ (s + 1) ≤ 2 * D ↔ 5 ≤ D / 10 ^ s := by
  have hlead : D / 10 ^ s < 10 := Nat.div_lt_of_lt_mul (by rw [← Nat.pow_succ]; exact hD)
  have h := le_two_mul_mod_pow_iff D s
  rwa [Nat.mod_eq_of_lt hD, Nat.mod_eq_of_lt hlead] at h

end Nat

section Rat

variable {mode : Mode}

/-- `m / B` is its quotient and its remainder over `B`. -/
theorem natCast_div_eq {m B : Nat} (hB : 0 < B) :
    (m : ℚ) / B = ((m / B : Nat) : ℚ) + ((m % B : Nat) : ℚ) / B := by
  have hB' : (B : ℚ) ≠ 0 := by exact_mod_cast hB.ne'
  have h := Nat.div_add_mod m B
  field_simp
  exact_mod_cast (by linarith : B * (m / B) + m % B = m).symm.trans (by ring)

theorem mod_div_lt_one {m B : Nat} (hB : 0 < B) : ((m % B : Nat) : ℚ) / B < 1 := by
  have hB' : (0 : ℚ) < B := by exact_mod_cast hB
  rw [div_lt_one hB']
  exact_mod_cast Nat.mod_lt m hB

/-- On a quotient of naturals each mode is `divRound`. -/
theorem roundInt_natCast_div (mode : Mode) (m B : Nat) (hB : 0 < B) :
    roundInt mode ((m : ℚ) / B) = divRound mode m B := by
  have hB' : (0 : ℚ) < B := by exact_mod_cast hB
  have hx : 0 ≤ (m : ℚ) / B := div_nonneg (Nat.cast_nonneg m) hB'.le
  -- `m / B` is the quotient `q` and a fraction `t` in `[0, 1)`
  have hmt := natCast_div_eq (m := m) hB
  have ht0 : 0 ≤ ((m % B : Nat) : ℚ) / B := div_nonneg (Nat.cast_nonneg _) hB'.le
  have ht1 := mod_div_lt_one (m := m) hB
  unfold roundInt divRound
  rw [if_neg (not_lt.mpr hx), abs_of_nonneg hx, hmt]
  generalize m / B = q
  cases mode with
  | towardZero =>
    dsimp only
    rw [Int.floor_eq_iff]
    push_cast
    constructor <;> linarith
  | halfAwayFromZero =>
    dsimp only
    rw [Int.floor_eq_iff]
    split_ifs with hhalf
    · -- the remainder is at least half of `B`
      have : (1 : ℚ) / 2 ≤ ((m % B : Nat) : ℚ) / B := by
        rw [div_le_div_iff₀ (by norm_num) hB']
        exact_mod_cast (by omega : 1 * B ≤ m % B * 2)
      push_cast
      constructor <;> linarith
    · have : ((m % B : Nat) : ℚ) / B < 1 / 2 := by
        rw [div_lt_div_iff₀ hB' (by norm_num)]
        exact_mod_cast (by omega : m % B * 2 < 1 * B)
      push_cast
      constructor <;> linarith
  | awayFromZero =>
    dsimp only
    rw [Int.ceil_eq_iff]
    split_ifs with hzero
    · simp only [hzero, Nat.cast_zero, zero_div, add_zero]
      push_cast
      constructor <;> linarith
    · have : 0 < ((m % B : Nat) : ℚ) / B :=
        div_pos (by exact_mod_cast Nat.pos_of_ne_zero hzero) hB'
      push_cast
      constructor <;> linarith

theorem roundInt_zero (mode : Mode) : roundInt mode 0 = 0 := by
  cases mode <;> norm_num [roundInt, Int.floor_eq_zero_iff]

theorem roundInt_neg (mode : Mode) (x : ℚ) : roundInt mode (-x) = -roundInt mode x := by
  rcases lt_trichotomy x 0 with hx | rfl | hx
  · simp only [roundInt, abs_neg, if_neg (not_lt.mpr (neg_nonneg.mpr hx.le)), if_pos hx, neg_neg]
  · simp [roundInt_zero]
  · simp only [roundInt, abs_neg, if_pos (neg_lt_zero.mpr hx), if_neg (not_lt.mpr hx.le)]

theorem roundInt_intCast (mode : Mode) (z : ℤ) : roundInt mode z = z := by
  rcases lt_or_ge z 0 with hz | hz
  · have habs : |(z : ℚ)| = ((-z : ℤ) : ℚ) := by
      rw [abs_of_neg (by exact_mod_cast hz)]
      push_cast
      ring
    have hz' : (z : ℚ) < 0 := by exact_mod_cast hz
    have hhalf : ⌊(((-z : ℤ) : ℚ) + 1 / 2)⌋ = -z := by
      rw [Int.floor_intCast_add, Int.floor_eq_zero_iff.mpr (by norm_num), add_zero]
    cases mode <;> simp only [roundInt, hz', habs, hhalf, Int.floor_intCast, Int.ceil_intCast, if_true, neg_neg]
  · have habs : |(z : ℚ)| = (z : ℚ) := abs_of_nonneg (by exact_mod_cast hz)
    have hz' : ¬ (z : ℚ) < 0 := not_lt.mpr (by exact_mod_cast hz)
    have hhalf : ⌊((z : ℚ) + 1 / 2)⌋ = z := by
      rw [Int.floor_intCast_add, Int.floor_eq_zero_iff.mpr (by norm_num), add_zero]
    cases mode <;> simp only [roundInt, hz', habs, hhalf, Int.floor_intCast, Int.ceil_intCast, if_false]

/-- Below a half, every mode but away from zero rounds to zero. -/
theorem roundInt_eq_zero {mode : Mode} (hmode : mode ≠ .awayFromZero) {x : ℚ} (h : |x| < 1 / 2) :
    roundInt mode x = 0 := by
  have h0 : 0 ≤ |x| := abs_nonneg x
  cases mode with
  | towardZero =>
    have hf : ⌊|x|⌋ = 0 := Int.floor_eq_zero_iff.mpr ⟨h0, by linarith⟩
    simp only [roundInt, hf, neg_zero, ite_self]
  | halfAwayFromZero =>
    have hf : ⌊|x| + 1 / 2⌋ = 0 := Int.floor_eq_zero_iff.mpr ⟨by linarith, by linarith⟩
    simp only [roundInt, hf, neg_zero, ite_self]
  | awayFromZero => exact absurd rfl hmode

/-- Rounding to an integer moves a value by less than one. -/
theorem abs_roundInt_lt (mode : Mode) (x : ℚ) : |(roundInt mode x : ℚ)| < |x| + 1 := by
  have h0 : 0 ≤ |x| := abs_nonneg x
  -- the magnitude is rounded, the sign put back
  have habs : ∀ n : ℤ, |((if x < 0 then -n else n : ℤ) : ℚ)| = |(n : ℚ)| := by
    intro n
    split_ifs <;> simp
  cases mode with
  | towardZero =>
    rw [roundInt, habs, abs_of_nonneg (by exact_mod_cast Int.floor_nonneg.mpr h0)]
    linarith [Int.floor_le |x|]
  | halfAwayFromZero =>
    rw [roundInt, habs, abs_of_nonneg (by exact_mod_cast Int.floor_nonneg.mpr (by linarith))]
    linarith [Int.floor_le (|x| + 1 / 2)]
  | awayFromZero =>
    rw [roundInt, habs, abs_of_nonneg (by exact_mod_cast (Int.ceil_nonneg h0))]
    exact Int.ceil_lt_add_one _

/-- Rounding `± m / 10^F` to `F - s` places rounds `m` at `10^s`. -/
theorem roundAt_mantissa (mode : Mode) (neg : Bool) (m F s : Nat) :
    roundAt mode ((if neg then -1 else 1) * m / 10 ^ F) ((F : ℤ) - s) =
      (if neg then -1 else 1) * (divRound mode m (10 ^ s) : ℚ) / 10 ^ ((F : ℤ) - s) := by
  have hscale : (if neg then -1 else 1) * (m : ℚ) / 10 ^ F * 10 ^ ((F : ℤ) - s) =
      (if neg then -1 else 1) * ((m : ℚ) / ((10 ^ s : ℕ) : ℚ)) := by
    rw [zpow_sub₀ (by norm_num), zpow_natCast, zpow_natCast]
    push_cast
    field_simp
  have hround := roundInt_natCast_div mode m (10 ^ s) (by positivity)
  push_cast at hround
  unfold roundAt
  rw [hscale]
  cases neg with
  | false => simp [hround]
  | true => simp [neg_mul, roundInt_neg, hround]

/-- A number with no more than `f` places is its own rounding. -/
theorem roundAt_eq_self (mode : Mode) {x : ℚ} {f : ℤ} {z : ℤ} (h : x * 10 ^ f = z) :
    roundAt mode x f = x := by
  unfold roundAt
  rw [h, roundInt_intCast, ← h]
  field_simp

/-- The ceiling rounds away from zero above zero and toward it below. -/
theorem ceil_eq_roundInt (x : ℚ) :
    ⌈x⌉ = roundInt (if x < 0 then .towardZero else .awayFromZero) x := by
  by_cases hx : x < 0
  · simp only [roundInt, if_pos hx, abs_of_neg hx, Int.floor_neg, neg_neg]
  · simp only [roundInt, if_neg hx, abs_of_nonneg (not_lt.mp hx)]

/-- The floor rounds toward zero above zero and away from it below. -/
theorem floor_eq_roundInt (x : ℚ) :
    ⌊x⌋ = roundInt (if x < 0 then .awayFromZero else .towardZero) x := by
  by_cases hx : x < 0
  · simp only [roundInt, if_pos hx, abs_of_neg hx, Int.ceil_neg, neg_neg]
  · simp only [roundInt, if_neg hx, abs_of_nonneg (not_lt.mp hx)]

end Rat

end Rounding
