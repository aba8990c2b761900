import Mathlib.Data.List.Basic

/-!
# Half-open ranges of an ordered key space

A range `[lo, hi)` of a linear order, `hi = none` standing for no upper
bound. Cutting a range at non-decreasing points into consecutive pieces
(`pieces`) leaves every point in exactly as many pieces as it was in ranges
before: once if the range held it, never otherwise. Joining two adjacent
ranges is the case of one point. A store of ranges that holds every point
once therefore keeps doing so through both.

A tiling gives every point exactly one owner. Changing the owners of a few
indexes keeps a tiling when, for every point, those indexes own it as often
after as before (`tiling_of_local`).

Results:
* `indicator_join`: two adjacent ranges hold a point as often as their join.
* `countP_pieces`: the pieces of `[lo, hi)` hold a point once if the range
  does, and not at all otherwise.
* `tiling_of_local`: a change that keeps the count of owners among the
  indexes it touches keeps a tiling.
-/
namespace KeyRange

/-- The consecutive pieces of `[lo, hi)` cut at the points `ks`. -/
def pieces {α : Type} (lo : α) : List α → Option α → List (α × Option α)
  | [], hi => [(lo, hi)]
  | k :: ks, hi => (lo, some k) :: pieces k ks hi

theorem pieces_append {α : Type} (lo : α) (ks : List α) (k : α) (hi : Option α) :
    pieces lo (ks ++ [k]) hi = pieces lo ks (some k) ++ [(k, hi)] := by
  induction ks generalizing lo with
  | nil => rfl
  | cons k' ks ih => simp [pieces, ih]

variable {α : Type} [LE α]

/-- `k` is at most the bound `hi`. -/
def BoundLe (k : α) : Option α → Prop
  | none => True
  | some h => k ≤ h

theorem boundLe_of_le_of_boundLe [Std.IsLinearOrder α] {k m : α} {hi : Option α}
    (hk : k ≤ m) (hm : BoundLe m hi) : BoundLe k hi := by
  cases hi with
  | none => trivial
  | some h => exact Std.le_trans hk hm

/-- Every piece of a range cut at non-decreasing points up to the bound ends
no lower than it starts. -/
theorem boundLe_of_mem_pieces {lo : α} {ks : List α} {hi : Option α}
    (hchain : List.IsChain (· ≤ ·) (lo :: ks)) (hlo : BoundLe lo hi)
    (hks : ∀ k ∈ ks, BoundLe k hi) : ∀ p ∈ pieces lo ks hi, BoundLe p.1 p.2 := by
  induction ks generalizing lo with
  | nil => simpa [pieces] using hlo
  | cons k ks ih =>
    rw [List.isChain_cons_cons] at hchain
    intro p hp
    rcases List.mem_cons.mp hp with rfl | hp
    · exact hchain.1
    · exact ih hchain.2 (hks k List.mem_cons_self)
        (fun k' hk' => hks k' (List.mem_cons_of_mem k hk')) p hp

variable [LT α]

/-- `k` lies below the bound `hi`. -/
def Below (k : α) : Option α → Prop
  | none => True
  | some h => k < h

/-- `k` lies in `[lo, hi)`. -/
def Mem (lo : α) (hi : Option α) (k : α) : Prop :=
  lo ≤ k ∧ Below k hi

theorem below_of_lt_of_boundLe [Std.IsLinearOrder α] [Std.LawfulOrderLT α] {k m : α}
    {hi : Option α} (hk : k < m) (hm : BoundLe m hi) : Below k hi := by
  cases hi with
  | none => trivial
  | some h => exact Std.lt_of_lt_of_le hk hm

variable [DecidableLE α] [DecidableLT α]

instance (k : α) (hi : Option α) : Decidable (Below k hi) :=
  match hi with
  | none => inferInstanceAs (Decidable True)
  | some h => inferInstanceAs (Decidable (k < h))

instance (k : α) (hi : Option α) : Decidable (BoundLe k hi) :=
  match hi with
  | none => inferInstanceAs (Decidable True)
  | some h => inferInstanceAs (Decidable (k ≤ h))

instance (lo : α) (hi : Option α) (k : α) : Decidable (Mem lo hi k) :=
  inferInstanceAs (Decidable (lo ≤ k ∧ Below k hi))

/-- Whether the range `r` holds `key`. -/
def holds (key : α) (r : α × Option α) : Bool :=
  decide (Mem r.1 r.2 key)

variable [Std.IsLinearOrder α] [Std.LawfulOrderLT α]

/-- Two adjacent ranges `[lo, mid)` and `[mid, hi)` hold a point as often as
`[lo, hi)` does. -/
theorem indicator_join {lo mid : α} {hi : Option α} (hlo : lo ≤ mid) (hhi : BoundLe mid hi)
    (key : α) :
    ((if Mem lo (some mid) key then 1 else 0) + if Mem mid hi key then 1 else 0) =
      if Mem lo hi key then 1 else 0 := by
  by_cases hk : key < mid
  · -- below `mid`: only the left range can hold it
    have hleft : Mem lo (some mid) key ↔ Mem lo hi key :=
      ⟨fun h => ⟨h.1, below_of_lt_of_boundLe hk hhi⟩, fun h => ⟨h.1, hk⟩⟩
    have hright : ¬ Mem mid hi key := fun h => Std.not_le.mpr hk h.1
    simp only [hleft, hright, if_false, Nat.add_zero]
  · have hmk : mid ≤ key := Std.not_lt.mp hk
    have hleft : ¬ Mem lo (some mid) key := fun h => hk h.2
    have hright : Mem mid hi key ↔ Mem lo hi key :=
      ⟨fun h => ⟨Std.le_trans hlo h.1, h.2⟩, fun h => ⟨hmk, h.2⟩⟩
    simp only [hleft, hright, if_false, Nat.zero_add]

/-- Cut at non-decreasing points up to the bound, the pieces of a range hold
each of its points once and nothing else. The induction is on the points:
the first piece and the range of the rest join to the whole. -/
theorem countP_pieces {lo : α} {ks : List α} {hi : Option α}
    (hchain : List.IsChain (· ≤ ·) (lo :: ks)) (hhi : ∀ k ∈ ks, BoundLe k hi) (key : α) :
    (pieces lo ks hi).countP (holds key) = if Mem lo hi key then 1 else 0 := by
  induction ks generalizing lo with
  | nil => simp [pieces, holds]
  | cons k ks ih =>
    rw [List.isChain_cons_cons] at hchain
    have hrest := ih hchain.2 fun k' hk' => hhi k' (List.mem_cons_of_mem k hk')
    rw [pieces, List.countP_cons, hrest, Nat.add_comm]
    simpa [holds] using indicator_join hchain.1 (hhi k List.mem_cons_self) key

/-! ## Owners -/

section Owners

variable {ι κ : Type}

/-- Every point has exactly one owner. -/
def Tiling (owns : ι → κ → Bool) : Prop :=
  ∀ k, ∃! i, owns i k = true

theorem countP_eq_one_of_unique {C : List ι} (hC : C.Nodup) {p : ι → Bool} {o : ι}
    (ho : o ∈ C) (hp : p o = true) (huniq : ∀ i, p i = true → i = o) : C.countP p = 1 := by
  induction C with
  | nil => exact absurd ho List.not_mem_nil
  | cons a C ih =>
    rw [List.nodup_cons] at hC
    rw [List.countP_cons]
    rcases List.mem_cons.mp ho with rfl | hoC
    · -- `o` is the head: no other index of `C` satisfies `p`
      have hzero : C.countP p = 0 :=
        List.countP_eq_zero.mpr fun i hi hpi => hC.1 (huniq i hpi ▸ hi)
      simp [hzero, hp]
    · have hpa : p a = false := by
        cases hpa : p a with
        | false => rfl
        | true => exact absurd (huniq a hpa ▸ hoC) hC.1
      simp [ih hC.2 hoC, hpa]

theorem unique_of_countP_eq_one {C : List ι} {p : ι → Bool} (h : C.countP p = 1) :
    ∃ i ∈ C, p i = true ∧ ∀ j ∈ C, p j = true → j = i := by
  rw [List.countP_eq_length_filter, List.length_eq_one_iff] at h
  obtain ⟨i, hi⟩ := h
  have hmem : i ∈ C.filter p := by rw [hi]; exact List.mem_singleton_self i
  rw [List.mem_filter] at hmem
  refine ⟨i, hmem.1, hmem.2, fun j hj hpj => ?_⟩
  have hjf : j ∈ C.filter p := List.mem_filter.mpr ⟨hj, hpj⟩
  rw [hi] at hjf
  exact List.mem_singleton.mp hjf

/-- Owners that change only on the indexes `C`, with as many owners of each
point among `C` after as before, keep a tiling. -/
theorem tiling_of_local {owns owns' : ι → κ → Bool} {C : List ι} (hC : C.Nodup)
    (hout : ∀ i, i ∉ C → owns' i = owns i)
    (hcount : ∀ k, C.countP (owns' · k) = C.countP (owns · k)) (h : Tiling owns) :
    Tiling owns' := by
  intro k
  obtain ⟨o, ho, huniq⟩ := h k
  by_cases hoC : o ∈ C
  · -- the owner is among the changed indexes: exactly one of them owns after
    have hone : C.countP (owns · k) = 1 := countP_eq_one_of_unique hC hoC ho huniq
    obtain ⟨i, hiC, hi, hiuniq⟩ := unique_of_countP_eq_one ((hcount k).trans hone)
    refine ⟨i, hi, fun j (hj : owns' j k = true) => ?_⟩
    by_cases hjC : j ∈ C
    · exact hiuniq j hjC hj
    · rw [hout j hjC] at hj
      exact absurd (huniq j hj ▸ hjC) (not_not.mpr hoC)
  · -- the owner is untouched, and no changed index owns the point after
    have hzero : C.countP (owns · k) = 0 :=
      List.countP_eq_zero.mpr fun i hi hown => hoC (huniq i hown ▸ hi)
    have hnone := List.countP_eq_zero.mp ((hcount k).trans hzero)
    have ho' : owns' o k = true := by rw [hout o hoC]; exact ho
    refine ⟨o, ho', fun j (hj : owns' j k = true) => ?_⟩
    by_cases hjC : j ∈ C
    · exact absurd hj (hnone j hjC)
    · rw [hout j hjC] at hj
      exact huniq j hj

end Owners

end KeyRange
