import Mathlib.Data.Nat.Digits.Defs
import Mathlib.Data.List.DropRight

/-!
# Big-endian numerals

A list of words read most significant first in base `b`, as a decimal's
word buffer is read. `List.valBE` is Mathlib's `Nat.ofDigits` of the reversed
list, so that the lemmas here are about positions counted from the front:
the word at position `i` of a list of length `n` weighs `b ^ (n - 1 - i)`.

The lemmas are those a schoolbook multiplication over a word buffer needs:
how the value splits over an append (`valBE_append`), that writing one
position changes the value by the difference of the words at its weight
(`valBE_set`), and the bound of a numeral whose words are digits
(`valBE_lt`). `Nat.compare_mul_add` compares two numerals of mixed radix
digit by digit, the most significant first.

Comparing two decimals reads their words the same way: `compare_scaled_valBE`
says that two numerals, each scaled to the same number of fraction words,
compare as the number of their significant integer words and then as their
words from the first significant one, trailing zeros dropped.
-/

namespace List

variable {b : Nat}

/-- The value of `l` read as a base-`b` numeral, most significant word first. -/
def valBE (b : Nat) (l : List Nat) : Nat := Nat.ofDigits b l.reverse

@[simp]
theorem valBE_nil : valBE b [] = 0 := rfl

theorem valBE_append (l₁ l₂ : List Nat) :
    valBE b (l₁ ++ l₂) = valBE b l₁ * b ^ l₂.length + valBE b l₂ := by
  rw [valBE, List.reverse_append, Nat.ofDigits_append, List.length_reverse, valBE, valBE]
  ring

@[simp]
theorem valBE_cons (x : Nat) (l : List Nat) : valBE b (x :: l) = x * b ^ l.length + valBE b l := by
  rw [← List.singleton_append, valBE_append]
  simp [valBE, Nat.ofDigits_singleton]

theorem valBE_concat (l : List Nat) (x : Nat) : valBE b (l ++ [x]) = valBE b l * b + x := by
  rw [valBE_append]
  simp [valBE, Nat.ofDigits_singleton]

@[simp]
theorem valBE_replicate_zero (n : Nat) : valBE b (List.replicate n 0) = 0 := by
  rw [valBE, List.reverse_replicate, Nat.ofDigits_replicate_zero]

/-- A numeral of digits is below the base to its length. -/
theorem valBE_lt (hb : 1 < b) {l : List Nat} (hl : ∀ x ∈ l, x < b) : valBE b l < b ^ l.length := by
  rw [valBE, ← List.length_reverse]
  exact Nat.ofDigits_lt_base_pow_length hb (fun x hx => hl x (List.mem_reverse.mp hx))

/-- Writing `x` at position `i` trades the old word for `x`, both at the position's weight. -/
theorem valBE_set {l : List Nat} {i : Nat} (hi : i < l.length) (x : Nat) :
    valBE b (l.set i x) + l[i] * b ^ (l.length - 1 - i) = valBE b l + x * b ^ (l.length - 1 - i) := by
  have hsplit : valBE b l = valBE b (l.take i ++ l[i] :: l.drop (i + 1)) := by simp
  have hdrop : (l.drop (i + 1)).length = l.length - 1 - i := by simp; omega
  rw [List.set_eq_take_append_cons_drop, if_pos hi, hsplit]
  simp only [valBE_append, valBE_cons, List.length_cons, hdrop]
  ring

/-- `valBE_set` for a position among the first `n` words, as a buffer longer
than the numeral it holds is written. -/
theorem valBE_take_set {l : List Nat} {i n : Nat} (hi : i < n) (hn : n ≤ l.length) (x : Nat) :
    valBE b ((l.set i x).take n) + l[i] * b ^ (n - 1 - i) = valBE b (l.take n) + x * b ^ (n - 1 - i) := by
  have hlen : (l.take n).length = n := by simp; omega
  have h := valBE_set (b := b) (l := l.take n) (i := i) (by omega) x
  rw [List.getElem_take] at h
  simp only [hlen] at h
  rw [List.take_set]
  exact h


/-- One more word of a prefix shifts it by the base. -/
theorem valBE_take_succ {l : List Nat} {k : Nat} (hk : k < l.length) :
    valBE b (l.take (k + 1)) = valBE b (l.take k) * b + l[k] := by
  rw [List.take_add_one, List.getElem?_eq_getElem hk, Option.toList_some, valBE_concat]

/-- A prefix is a shorter prefix followed by the words between. -/
theorem valBE_take_of_le (l : List Nat) {k n : Nat} (hkn : k ≤ n) :
    valBE b (l.take n) = valBE b (l.take k) * b ^ ((l.take n).drop k).length +
      valBE b ((l.take n).drop k) := by
  conv_lhs => rw [← List.take_append_drop k (l.take n), List.take_take, Nat.min_eq_left hkn]
  rw [valBE_append]

/-- A numeral in a positive base is zero only when all its words are. -/
theorem valBE_eq_zero_iff (hb : 0 < b) {l : List Nat} : valBE b l = 0 ↔ ∀ x ∈ l, x = 0 := by
  induction l with
  | nil => simp
  | cons a l ih =>
    rw [valBE_cons, List.forall_mem_cons, ← ih]
    have : 0 < b ^ l.length := Nat.pow_pos hb
    constructor
    · intro h
      have ha : a * b ^ l.length = 0 := by omega
      exact ⟨(Nat.mul_eq_zero.mp ha).resolve_right (by omega), by omega⟩
    · rintro ⟨rfl, h⟩
      simp [h]


/-- A prefix followed by zero words is the shorter prefix scaled. -/
theorem valBE_take_of_zero {l : List Nat} {k u : Nat} (hku : k ≤ u) (hu : u ≤ l.length)
    (hz : ∀ i, k ≤ i → i < u → l[i]? = some 0) : valBE b (l.take u) = valBE b (l.take k) * b ^ (u - k) := by
  have hmid : (l.take u).drop k = replicate (u - k) 0 := by
    rw [eq_replicate_iff]
    refine ⟨by simp; omega, fun x hx => ?_⟩
    obtain ⟨j, hj⟩ := mem_iff_getElem?.mp hx
    rw [getElem?_drop, getElem?_take] at hj
    split_ifs at hj with hlt
    rw [hz (k + j) (by omega) hlt] at hj
    exact (Option.some.inj hj).symm
  rw [valBE_take_of_le l hku, hmid, valBE_replicate_zero, length_replicate, Nat.add_zero]

/-- A run of `n` words from `s` overwritten by `a`, read at any position. -/
theorem getElem?_take_append_replicate_drop {α : Type _} {l : List α} {s n i : Nat} (a : α)
    (h : s + n ≤ l.length) :
    (l.take s ++ replicate n a ++ l.drop (s + n))[i]? = if s ≤ i ∧ i < s + n then some a else l[i]? := by
  have hs : (l.take s).length = s := by simp; omega
  rcases Nat.lt_or_ge i s with h1 | h1
  · rw [append_assoc, getElem?_append_left (by omega), getElem?_take_of_lt h1, if_neg (by omega)]
  · rcases Nat.lt_or_ge i (s + n) with h2 | h2
    · rw [append_assoc, getElem?_append_right (by omega), hs, getElem?_append_left (by simp; omega),
        getElem?_replicate, if_pos (by omega), if_pos ⟨h1, h2⟩]
    · rw [getElem?_append_right (by simp; omega), if_neg (by omega), getElem?_drop]
      congr 1
      simp; omega

end List

namespace Nat

/-- Two numbers with a last digit below `B` compare as their leading parts,
then as their last digits. -/
theorem compare_mul_add {B a b x y : Nat} (hx : x < B) (hy : y < B) :
    compare (a * B + x) (b * B + y) = (compare a b).then (compare x y) := by
  rcases Nat.lt_trichotomy a b with hab | rfl | hab
  · have hlt : a * B + x < b * B + y := by
      have := Nat.mul_le_mul_right B (Nat.succ_le_of_lt hab)
      rw [Nat.succ_mul] at this
      omega
    rw [compare_lt_iff_lt.mpr hlt, compare_lt_iff_lt.mpr hab]
    rfl
  · rw [compare_eq_iff_eq.mpr rfl, Ordering.eq_then]
    rcases Nat.lt_trichotomy x y with hxy | rfl | hxy
    · rw [compare_lt_iff_lt.mpr (by omega), compare_lt_iff_lt.mpr hxy]
    · rw [compare_eq_iff_eq.mpr rfl, compare_eq_iff_eq.mpr rfl]
    · rw [compare_gt_iff_gt.mpr (by omega), compare_gt_iff_gt.mpr hxy]
  · have hgt : a * B + x > b * B + y := by
      have := Nat.mul_le_mul_right B (Nat.succ_le_of_lt hab)
      rw [Nat.succ_mul] at this
      omega
    rw [compare_gt_iff_gt.mpr hgt, compare_gt_iff_gt.mpr hab]
    rfl

end Nat

namespace List

variable {b : Nat}

/-- Leading zeros do not change the value. -/
theorem valBE_dropWhile_zero (l : List Nat) : valBE b (l.dropWhile (· == 0)) = valBE b l := by
  induction l with
  | nil => rfl
  | cons a l ih =>
    by_cases ha : a = 0
    · rw [List.dropWhile_cons_of_pos (by simp [ha]), ih, valBE_cons, ha, Nat.zero_mul, Nat.zero_add]
    · rw [List.dropWhile_cons_of_neg (by simp [ha])]

/-- Trailing zeros multiply the value by the base. -/
theorem valBE_append_replicate_zero (l : List Nat) (k : Nat) :
    valBE b (l ++ replicate k 0) = valBE b l * b ^ k := by
  rw [valBE_append, valBE_replicate_zero, length_replicate, Nat.add_zero]

/-- A numeral with a leading digit that is not zero is at least the base to the power of the
number of digits after it. -/
theorem pow_le_valBE {a : Nat} (ha : a ≠ 0) (l : List Nat) : b ^ l.length ≤ valBE b (a :: l) := by
  rw [valBE_cons]
  have : b ^ l.length ≤ a * b ^ l.length := Nat.le_mul_of_pos_left _ (Nat.pos_of_ne_zero ha)
  omega

/-- Digit strings of one length compare as the numbers they write. -/
theorem compare_valBE (hb : 1 < b) {x y : List Nat} (hlen : x.length = y.length) (hx : ∀ a ∈ x, a < b)
    (hy : ∀ a ∈ y, a < b) : compare (valBE b x) (valBE b y) = compare x y := by
  induction x generalizing y with
  | nil =>
    cases y with
    | nil => rfl
    | cons c y => simp at hlen
  | cons a x ih =>
    cases y with
    | nil => simp at hlen
    | cons c y =>
      have hlen' : x.length = y.length := by simpa using hlen
      have hvx := valBE_lt hb (fun d hd => hx d (mem_cons_of_mem a hd))
      have hvy := valBE_lt hb (fun d hd => hy d (mem_cons_of_mem c hd))
      rw [valBE_cons, valBE_cons, hlen', Nat.compare_mul_add (hlen' ▸ hvx) hvy, List.compare_cons_cons,
        ih hlen' (fun d hd => hx d (mem_cons_of_mem a hd)) (fun d hd => hy d (mem_cons_of_mem c hd))]

theorem rdropWhile_cons {α : Type _} (p : α → Bool) (a : α) (l : List α) :
    (a :: l).rdropWhile p = if l.rdropWhile p = [] ∧ p a then [] else a :: l.rdropWhile p := by
  rw [rdropWhile, rdropWhile, reverse_cons, dropWhile_append]
  by_cases hl : l.reverse.dropWhile p = []
  · simp only [hl, isEmpty_nil, if_true, reverse_nil, true_and]
    by_cases ha : p a
    · simp [ha]
    · simp [ha]
  · simp [hl]

theorem compare_nil_of_ne_nil {l : List Nat} (h : l ≠ []) : compare [] l = .lt := by
  cases l with
  | nil => exact absurd rfl h
  | cons a l => rfl

theorem compare_of_ne_nil_nil {l : List Nat} (h : l ≠ []) : compare l [] = .gt := by
  cases l with
  | nil => exact absurd rfl h
  | cons a l => rfl

/-- Trailing zeros do not change how two lists of one length compare. -/
theorem compare_rdropWhile_zero {x y : List Nat} (hlen : x.length = y.length) :
    compare (x.rdropWhile (· == 0)) (y.rdropWhile (· == 0)) = compare x y := by
  induction x generalizing y with
  | nil =>
    cases y with
    | nil => rfl
    | cons c y => simp at hlen
  | cons a x ih =>
    cases y with
    | nil => simp at hlen
    | cons c y =>
      rw [rdropWhile_cons, rdropWhile_cons, List.compare_cons_cons, ← ih (by simpa using hlen)]
      generalize x.rdropWhile (· == 0) = X
      generalize y.rdropWhile (· == 0) = Y
      -- a trimmed tail that is empty leaves the head alone, or nothing if it is zero
      rcases Nat.eq_zero_or_pos a with rfl | ha <;> rcases Nat.eq_zero_or_pos c with rfl | hc
      · by_cases hX : X = [] <;> by_cases hY : Y = [] <;>
          simp [hX, hY, compare_nil_of_ne_nil, compare_of_ne_nil_nil]
      · have hlt : compare 0 c = .lt := compare_lt_iff_lt.mpr hc
        by_cases hX : X = [] <;> by_cases hY : Y = [] <;>
          simp [hX, hY, hlt, Nat.ne_of_gt hc, compare_nil_of_ne_nil, compare_of_ne_nil_nil]
      · have hgt : compare a 0 = .gt := compare_gt_iff_gt.mpr ha
        by_cases hX : X = [] <;> by_cases hY : Y = [] <;>
          simp [hX, hY, hgt, Nat.ne_of_gt ha, compare_nil_of_ne_nil, compare_of_ne_nil_nil]
      · by_cases hX : X = [] <;> by_cases hY : Y = [] <;>
          simp [hX, hY, Nat.ne_of_gt ha, Nat.ne_of_gt hc, compare_nil_of_ne_nil, compare_of_ne_nil_nil]

theorem rdropWhile_append_replicate_zero (l : List Nat) (k : Nat) :
    (l ++ replicate k 0).rdropWhile (· == 0) = l.rdropWhile (· == 0) := by
  induction k with
  | zero => rw [replicate_zero, append_nil]
  | succ k ih => rw [replicate_succ', ← append_assoc, rdropWhile_concat_pos _ _ _ (by simp), ih]

/-- A list without leading zeros is empty or starts with a digit that is not zero. -/
theorem dropWhile_zero_eq_cons {l : List Nat} (h : l.dropWhile (· == 0) ≠ []) :
    ∃ c t, c ≠ 0 ∧ l.dropWhile (· == 0) = c :: t := by
  obtain ⟨c, t, hct⟩ := List.exists_cons_of_ne_nil h
  have hc := List.head?_dropWhile_not (· == 0) l
  rw [hct] at hc
  simp only [head?_cons, beq_eq_false_iff_ne] at hc
  exact ⟨c, t, hc, hct⟩

section Scaled

variable {I₁ R₁ I₂ R₂ : List Nat} {F : Nat}

/-- The integer digits without their leading zeros, the fraction digits, and zeros up to
`F` fraction digits: the same number as the digits scaled to `F` fraction digits. -/
theorem valBE_scaled (I R : List Nat) (F : Nat) :
    valBE b (I ++ R) * b ^ (F - R.length) = valBE b (I.dropWhile (· == 0) ++ R ++ replicate (F - R.length) 0) := by
  rw [valBE_append_replicate_zero, valBE_append, valBE_append, valBE_dropWhile_zero]

theorem length_scaled (I R : List Nat) {F : Nat} (h : R.length ≤ F) :
    (I.dropWhile (· == 0) ++ R ++ replicate (F - R.length) 0).length = (I.dropWhile (· == 0)).length + F := by
  simp only [length_append, length_replicate]
  omega

theorem forall_lt_scaled (hb : 1 < b) {I R : List Nat} (hI : ∀ a ∈ I, a < b) (hR : ∀ a ∈ R, a < b) (F : Nat) :
    ∀ a ∈ I.dropWhile (· == 0) ++ R ++ replicate (F - R.length) 0, a < b := by
  intro a ha
  simp only [mem_append, mem_replicate] at ha
  rcases ha with (ha | ha) | ⟨-, rfl⟩
  · exact hI a ((dropWhile_sublist _).subset ha)
  · exact hR a ha
  · omega

/-- Fewer significant integer digits make a smaller number. -/
theorem valBE_scaled_lt_of_length_lt (hb : 1 < b) (hI₁ : ∀ a ∈ I₁, a < b) (hR₁ : ∀ a ∈ R₁, a < b)
    (h₁ : R₁.length ≤ F) (h₂ : R₂.length ≤ F)
    (hlt : (I₁.dropWhile (· == 0)).length < (I₂.dropWhile (· == 0)).length) :
    valBE b (I₁ ++ R₁) * b ^ (F - R₁.length) < valBE b (I₂ ++ R₂) * b ^ (F - R₂.length) := by
  obtain ⟨c, t, hc, hct⟩ := dropWhile_zero_eq_cons (l := I₂) (fun h => by rw [h] at hlt; simp at hlt)
  have hlen : (t ++ R₂ ++ replicate (F - R₂.length) 0).length = t.length + F := by
    simp only [length_append, length_replicate]
    omega
  rw [hct, length_cons] at hlt
  rw [valBE_scaled I₁ R₁ F, valBE_scaled I₂ R₂ F, hct]
  calc valBE b (I₁.dropWhile (· == 0) ++ R₁ ++ replicate (F - R₁.length) 0)
      < b ^ ((I₁.dropWhile (· == 0)).length + F) := by
        rw [← length_scaled I₁ R₁ h₁]
        exact valBE_lt hb (forall_lt_scaled hb hI₁ hR₁ F)
    _ ≤ b ^ (t.length + F) := Nat.pow_le_pow_right (by omega) (by omega)
    _ ≤ valBE b (c :: (t ++ R₂ ++ replicate (F - R₂.length) 0)) := hlen ▸ pow_le_valBE hc _
    _ = valBE b (c :: t ++ R₂ ++ replicate (F - R₂.length) 0) := rfl

/-- Two numerals, each integer digits then fraction digits and scaled to `F` fraction digits,
compare first by the number of their significant integer digits, then digit by digit from
the first significant one, with trailing zeros dropped. -/
theorem compare_scaled_valBE (hb : 1 < b) (hI₁ : ∀ a ∈ I₁, a < b) (hR₁ : ∀ a ∈ R₁, a < b)
    (hI₂ : ∀ a ∈ I₂, a < b) (hR₂ : ∀ a ∈ R₂, a < b) (h₁ : R₁.length ≤ F) (h₂ : R₂.length ≤ F) :
    compare (valBE b (I₁ ++ R₁) * b ^ (F - R₁.length)) (valBE b (I₂ ++ R₂) * b ^ (F - R₂.length)) =
      (compare (I₁.dropWhile (· == 0)).length (I₂.dropWhile (· == 0)).length).then
        (compare ((I₁.dropWhile (· == 0) ++ R₁).rdropWhile (· == 0))
          ((I₂.dropWhile (· == 0) ++ R₂).rdropWhile (· == 0))) := by
  rcases Nat.lt_trichotomy (I₁.dropWhile (· == 0)).length (I₂.dropWhile (· == 0)).length with hlt | heq | hgt
  · rw [compare_lt_iff_lt.mpr hlt, compare_lt_iff_lt.mpr (valBE_scaled_lt_of_length_lt hb hI₁ hR₁ h₁ h₂ hlt)]
    rfl
  · -- the same number of significant integer digits: the scaled digit strings have one length
    rw [compare_eq_iff_eq.mpr heq, Ordering.eq_then, valBE_scaled I₁ R₁ F, valBE_scaled I₂ R₂ F,
      compare_valBE hb (by rw [length_scaled I₁ R₁ h₁, length_scaled I₂ R₂ h₂, heq])
        (forall_lt_scaled hb hI₁ hR₁ F) (forall_lt_scaled hb hI₂ hR₂ F),
      ← compare_rdropWhile_zero (by rw [length_scaled I₁ R₁ h₁, length_scaled I₂ R₂ h₂, heq]),
      rdropWhile_append_replicate_zero, rdropWhile_append_replicate_zero]
  · rw [compare_gt_iff_gt.mpr hgt, compare_gt_iff_gt.mpr (valBE_scaled_lt_of_length_lt hb hI₂ hR₂ h₂ h₁ hgt)]
    rfl

end Scaled

end List
