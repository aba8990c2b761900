import Mathlib.Data.List.Basic
import Mathlib.Algebra.Group.Nat.Defs

/-!
# Lexicographic order of lists, cut into blocks

The order of lists (`List.lt`, a proper prefix first) compares two byte
strings the way a sorted key-value store does. Encodings that keep this order
are built from blocks, and what a proof needs of them is where two encodings
part: `ForkLt u v` says that `u` and `v` agree up to a position that both have
and that `u` is smaller there. Then every extension of `u` lies below every
extension of `v` (`ForkLt.append`), which is what makes an encoding
prefix-free, and a map that reverses the order of elements swaps the two
sides (`ForkLt.map_anti`).

Big-endian digit strings of a fixed length are ordered as the numbers they
write (`digitsBE_lt_iff`).

Results:
* `lt_cases`: below `v`, a list is a proper prefix of `v` or forks from it.
* `forkLt_of_lt_of_length_eq`: two lists of one length fork where they
  differ.
* `ForkLt.append`, `ForkLt.map_anti`, `ForkLt.prepend`: forks survive
  extension, an order-reversing map, and a common prefix.
* `map_lt_map_iff`: an order embedding keeps the order of lists.
* `not_lt_replicate`: nothing of length `n` lies below `n` copies of a least
  element.
* `digitsBE_lt_iff`: big-endian digits compare as their values.
-/

namespace ListLex

variable {α : Type} [LT α]

/-- `u` and `v` agree up to a position that both have, and `u` has the
smaller element there. -/
def ForkLt (u v : List α) : Prop :=
  ∃ p a b u' v', a < b ∧ u = p ++ a :: u' ∧ v = p ++ b :: v'

theorem ForkLt.append {u v : List α} (h : ForkLt u v) (s t : List α) :
    ForkLt (u ++ s) (v ++ t) := by
  obtain ⟨p, a, b, u', v', hab, rfl, rfl⟩ := h
  exact ⟨p, a, b, u' ++ s, v' ++ t, hab, by simp, by simp⟩

theorem ForkLt.prepend {u v : List α} (h : ForkLt u v) (p : List α) :
    ForkLt (p ++ u) (p ++ v) := by
  obtain ⟨q, a, b, u', v', hab, rfl, rfl⟩ := h
  exact ⟨p ++ q, a, b, u', v', hab, by simp, by simp⟩

theorem ForkLt.lt {u v : List α} (h : ForkLt u v) : u < v := by
  obtain ⟨p, a, b, u', v', hab, rfl, rfl⟩ := h
  exact List.append_left_lt (List.cons_lt_cons_iff.mpr (.inl hab))

/-- A map that reverses the order of elements swaps the sides of a fork. -/
theorem ForkLt.map_anti {β : Type} [LT β] {f : α → β} (hf : ∀ a b, a < b → f b < f a)
    {u v : List α} (h : ForkLt u v) : ForkLt (v.map f) (u.map f) := by
  obtain ⟨p, a, b, u', v', hab, rfl, rfl⟩ := h
  exact ⟨p.map f, f b, f a, v'.map f, u'.map f, hf a b hab, by simp, by simp⟩

theorem forkLt_cons_of_lt {a b : α} (hab : a < b) (u v : List α) : ForkLt (a :: u) (b :: v) :=
  ⟨[], a, b, u, v, hab, rfl, rfl⟩

/-- Below `v`, a list is a proper prefix of `v` or forks from it. -/
theorem lt_cases {u v : List α} (h : u < v) : (∃ w, w ≠ [] ∧ v = u ++ w) ∨ ForkLt u v := by
  induction u generalizing v with
  | nil =>
    cases v with
    | nil => exact absurd h (List.not_lt_nil _)
    | cons b v => exact .inl ⟨b :: v, List.cons_ne_nil _ _, rfl⟩
  | cons a u ih =>
    cases v with
    | nil => exact absurd h (List.not_lt_nil _)
    | cons b v =>
      rcases List.cons_lt_cons_iff.mp h with hab | ⟨rfl, huv⟩
      · exact .inr (forkLt_cons_of_lt hab u v)
      · rcases ih huv with ⟨w, hw, rfl⟩ | hfork
        · exact .inl ⟨w, hw, rfl⟩
        · exact .inr (hfork.prepend [a])

/-- Two lists of one length fork where they differ. -/
theorem forkLt_of_lt_of_length_eq {u v : List α} (hlen : u.length = v.length) (h : u < v) :
    ForkLt u v := by
  rcases lt_cases h with ⟨w, hw, rfl⟩ | hfork
  · simp only [List.length_append, Nat.left_eq_add, List.length_eq_zero_iff] at hlen
    exact absurd hlen hw
  · exact hfork

/-- A fork survives cutting both lists to `n` unless it lies at or past `n`;
the cuts are then equal, and shorter than either list. -/
theorem ForkLt.take_take {u v : List α} (h : ForkLt u v) (n : Nat)
    (hn : u.length ≤ n ∨ v.length ≤ n ∨ u.take n ≠ v.take n) : ForkLt (u.take n) (v.take n) := by
  obtain ⟨p, a, b, u', v', hab, rfl, rfl⟩ := h
  by_cases hp : n ≤ p.length
  · -- the fork lies past `n`: both cuts are `p.take n`
    exfalso
    simp only [List.length_append, List.length_cons, List.take_append_of_le_length hp, ne_eq,
      not_true_eq_false, or_false] at hn
    omega
  · obtain ⟨k, hk⟩ : ∃ k, n - p.length = k + 1 := ⟨n - p.length - 1, by omega⟩
    refine ⟨p, a, b, u'.take k, v'.take k, hab, ?_, ?_⟩ <;>
      rw [List.take_append, List.take_of_length_le (by omega), hk, List.take_succ_cons]

/-- Below a common prefix the order is decided by what follows it. -/
theorem lt_of_append_left_lt [Std.Irrefl (· < · : α → α → Prop)] {l x y : List α}
    (h : l ++ x < l ++ y) : x < y := by
  induction l with
  | nil => exact h
  | cons a l ih =>
    rcases List.cons_lt_cons_iff.mp h with haa | ⟨-, h'⟩
    · exact absurd haa (Std.Irrefl.irrefl a)
    · exact ih h'

/-- An order embedding keeps the order of lists. -/
theorem map_lt_map_iff {β : Type} [LT β] {f : α → β} (hf : ∀ a b, f a < f b ↔ a < b)
    (hinj : Function.Injective f) {u v : List α} : u.map f < v.map f ↔ u < v := by
  induction u generalizing v with
  | nil => cases v <;> simp
  | cons a u ih =>
    cases v with
    | nil => simp
    | cons b v =>
      simp only [List.map_cons, List.cons_lt_cons_iff, hf, ih]
      constructor
      · rintro (hab | ⟨hab, huv⟩)
        · exact .inl hab
        · exact .inr ⟨hinj hab, huv⟩
      · rintro (hab | ⟨rfl, huv⟩)
        · exact .inl hab
        · exact .inr ⟨rfl, huv⟩

/-- Nothing of length `n` lies below `n` copies of a least element. -/
theorem not_lt_replicate {z : α} (hz : ∀ a, ¬ a < z) (w : List α) :
    ¬ w < List.replicate w.length z := by
  induction w with
  | nil => exact List.not_lt_nil _
  | cons a w ih =>
    rw [List.length_cons, List.replicate_succ, List.cons_lt_cons_iff]
    rintro (haz | ⟨-, hw⟩)
    · exact hz a haz
    · exact ih hw

/-! ## Big-endian digits -/

/-- The `n` lowest base-`B` digits of `x`, the most significant first. -/
def digitsBE (B : Nat) : Nat → Nat → List Nat
  | 0, _ => []
  | n + 1, x => x / B ^ n % B :: digitsBE B n x

theorem digitsBE_length (B n x : Nat) : (digitsBE B n x).length = n := by
  induction n with
  | zero => rfl
  | succ n ih => simp [digitsBE, ih]

/-- A number with a digit and the lower part in front of it: the digit
decides first. -/
theorem add_mul_lt_add_mul_iff {P d₁ d₂ r₁ r₂ : Nat} (h₁ : r₁ < P) (h₂ : r₂ < P) :
    r₁ + P * d₁ < r₂ + P * d₂ ↔ d₁ < d₂ ∨ (d₁ = d₂ ∧ r₁ < r₂) := by
  constructor
  · intro h
    rcases Nat.lt_trichotomy d₁ d₂ with hd | rfl | hd
    · exact .inl hd
    · exact .inr ⟨rfl, by omega⟩
    · have : P * (d₂ + 1) ≤ P * d₁ := Nat.mul_le_mul_left P hd
      rw [Nat.mul_succ] at this
      omega
  · rintro (hd | ⟨rfl, hr⟩)
    · have : P * (d₁ + 1) ≤ P * d₂ := Nat.mul_le_mul_left P hd
      rw [Nat.mul_succ] at this
      omega
    · omega

/-- Big-endian digit strings compare as the numbers they write. -/
theorem digitsBE_lt_iff {B : Nat} (hB : 0 < B) (n x y : Nat) :
    digitsBE B n x < digitsBE B n y ↔ x % B ^ n < y % B ^ n := by
  induction n with
  | zero => simp [digitsBE, Nat.mod_one]
  | succ n ih =>
    have hP : 0 < B ^ n := Nat.pow_pos hB
    rw [Nat.mod_pow_succ, Nat.mod_pow_succ,
      add_mul_lt_add_mul_iff (Nat.mod_lt _ hP) (Nat.mod_lt _ hP), ← ih]
    simp only [digitsBE, List.cons_lt_cons_iff]

end ListLex
