import Mathlib.Data.List.Range

/-!
# Windows of consecutive keys

A list whose elements carry the keys `lo, lo + 1, …` in order is a window
onto a longer sequence, as a cache of a log is onto the log. Over a window,
cutting by key is cutting by position: the elements below a key are a
prefix (`IsWindow.filter_lt`), those from a key on are the rest
(`IsWindow.filter_ge`), and the element of key `lo + i` sits at position `i`
(`IsWindow.key_getElem`). Windows are closed under taking, dropping and
appending a window that starts where the first ends.
-/

namespace List

variable {α : Type} {key : α → Nat} {lo : Nat} {l l₁ l₂ : List α}

/-- `l` carries the keys `lo, lo + 1, …` in order. -/
def IsWindow (key : α → Nat) (lo : Nat) (l : List α) : Prop :=
  l.map key = List.range' lo l.length

@[simp]
theorem isWindow_nil : IsWindow key lo [] := rfl

theorem isWindow_cons {a : α} : IsWindow key lo (a :: l) ↔ key a = lo ∧ IsWindow key (lo + 1) l := by
  simp [IsWindow, List.range'_succ]

theorem isWindow_append :
    IsWindow key lo (l₁ ++ l₂) ↔ IsWindow key lo l₁ ∧ IsWindow key (lo + l₁.length) l₂ := by
  induction l₁ generalizing lo with
  | nil => simp
  | cons a l₁ ih =>
    rw [List.cons_append, isWindow_cons, isWindow_cons, ih, List.length_cons]
    rw [show lo + 1 + l₁.length = lo + (l₁.length + 1) by omega, and_assoc]

namespace IsWindow

theorem take (h : IsWindow key lo l) (k : Nat) : IsWindow key lo (l.take k) := by
  rw [← List.take_append_drop k l, isWindow_append] at h
  exact h.1

theorem drop (h : IsWindow key lo l) (k : Nat) : IsWindow key (lo + k) (l.drop k) := by
  rw [IsWindow, List.map_drop, h, List.drop_range', List.length_drop]
  simp

theorem key_getElem (h : IsWindow key lo l) (i : Nat) (hi : i < l.length) : key l[i] = lo + i := by
  have h' := congrArg (·[i]?) h
  simp only [List.getElem?_map, List.getElem?_eq_getElem hi, List.getElem?_range' hi] at h'
  simpa using h'

theorem key_of_head? {a : α} (h : IsWindow key lo l) (ha : l.head? = some a) : key a = lo := by
  obtain ⟨t, rfl⟩ := List.head?_eq_some_iff.mp ha
  exact (isWindow_cons.mp h).1

theorem key_of_getLast? {b : α} (h : IsWindow key lo l) (hb : l.getLast? = some b) :
    key b + 1 = lo + l.length := by
  obtain ⟨t, rfl⟩ := List.getLast?_eq_some_iff.mp hb
  have := (isWindow_append.mp h).2
  rw [isWindow_cons] at this
  simp only [List.length_append, List.length_singleton]
  omega

theorem key_mem {a : α} (h : IsWindow key lo l) (ha : a ∈ l) : lo ≤ key a ∧ key a < lo + l.length := by
  obtain ⟨i, hi, rfl⟩ := List.getElem_of_mem ha
  rw [h.key_getElem i hi]
  omega

/-- An element of key `k` sits at position `k - lo`. -/
theorem getElem?_of_mem {a : α} (h : IsWindow key lo l) (ha : a ∈ l) : l[key a - lo]? = some a := by
  obtain ⟨i, hi, rfl⟩ := List.getElem_of_mem ha
  rw [h.key_getElem i hi, Nat.add_sub_cancel_left, List.getElem?_eq_getElem hi]

/-- The elements below a key are a prefix. -/
theorem filter_lt (h : IsWindow key lo l) (k : Nat) :
    l.filter (fun a => key a < k) = l.take (k - lo) := by
  induction l generalizing lo with
  | nil => simp
  | cons a l ih =>
    obtain ⟨ha, hl⟩ := isWindow_cons.mp h
    by_cases hk : lo < k
    · rw [List.filter_cons_of_pos (by simp [ha, hk]), ih hl,
        show k - lo = k - (lo + 1) + 1 by omega, List.take_succ_cons]
    · rw [List.filter_cons_of_neg (by simp [ha, hk]), ih hl, show k - lo = 0 by omega,
        show k - (lo + 1) = 0 by omega]
      simp

/-- The elements from a key on are the rest. -/
theorem filter_ge (h : IsWindow key lo l) (k : Nat) :
    l.filter (fun a => k ≤ key a) = l.drop (k - lo) := by
  induction l generalizing lo with
  | nil => simp
  | cons a l ih =>
    obtain ⟨ha, hl⟩ := isWindow_cons.mp h
    by_cases hk : lo < k
    · rw [List.filter_cons_of_neg (by simp [ha]; omega), ih hl,
        show k - lo = k - (lo + 1) + 1 by omega, List.drop_succ_cons]
    · rw [List.filter_cons_of_pos (by simp [ha]; omega), show k - lo = 0 by omega]
      rw [show (l.filter fun a => k ≤ key a) = l by
        rw [ih hl, show k - (lo + 1) = 0 by omega, List.drop_zero]]
      rfl

/-- The elements with keys in `[a, b)`, from `a ≥ lo` on, are a slice. -/
theorem filter_range (h : IsWindow key lo l) {a : Nat} (ha : lo ≤ a) (b : Nat) :
    l.filter (fun x => a ≤ key x ∧ key x < b) = (l.drop (a - lo)).take (b - a) := by
  have hdrop := h.drop (a - lo)
  rw [show lo + (a - lo) = a by omega] at hdrop
  rw [← hdrop.filter_lt, ← h.filter_ge, List.filter_filter]
  congr 1
  funext x
  rw [Bool.and_comm, Bool.decide_and]

end IsWindow

end List
