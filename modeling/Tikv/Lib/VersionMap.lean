import Mathlib.Order.Lattice
import Mathlib.Data.List.Basic
import Mathlib.Data.List.Perm.Subperm

/-!
# Version maps

A multi-version store keeps, for one key, the versions written at distinct
timestamps, and reads them newest first: a reader at `ts` wants the newest
version at or below `ts`, and a scan walks the versions downwards from there.
A `VersionMap` is such a set of versions: an association list ordered strictly
from the largest key to the smallest, the order carried as a field so that no
operation can break it.

Keys are any linear order; `UInt64` is given its order as numbers here, since
the library has none for it.

Results:
* `get?_insert`, `get?_erase`: a point update changes one key only.
* `mem_entries_iff`: an entry is in the list exactly when `get?` finds it.
* `seek_eq_some_iff`, `seek_eq_none_iff`: `seek ts` finds the newest version
  at or below `ts`.
* `below_eq_cons`: after the version at `c`, a walk from `ts` goes on with the
  versions strictly below `c`, which is what a new seek below `c` returns.
* `get?_of_below_eq_cons`: the head of a walk is the newest version at or
  below its start.
* `length_le_of_get?`: a map with versions only where another has one, and at
  one more key, has at most one version more.
-/

instance instLinearOrderUInt64 : LinearOrder UInt64 where
  le_refl := UInt64.le_refl
  le_trans := fun _ _ _ => UInt64.le_trans
  le_antisymm := fun _ _ => UInt64.le_antisymm
  le_total := UInt64.le_total
  lt_iff_le_not_ge := fun a b => by
    simp only [UInt64.lt_iff_toNat_lt, UInt64.le_iff_toNat_le]; omega
  toDecidableLE := inferInstance
  toDecidableLT := inferInstance
  toDecidableEq := inferInstance
  min_def := fun _ _ => rfl
  max_def := fun _ _ => rfl

/-- Versions of one key, newest first: the keys strictly decrease along
`entries`. -/
structure VersionMap (κ ν : Type) [LinearOrder κ] where
  entries : List (κ × ν)
  sorted : entries.Pairwise (fun a b => b.1 < a.1)

namespace VersionMap

variable {κ ν : Type} [LinearOrder κ]

instance [DecidableEq ν] : DecidableEq (VersionMap κ ν) := fun m n =>
  if h : m.entries = n.entries then
    isTrue (by cases m; cases n; cases h; rfl)
  else
    isFalse (fun e => h (by rw [e]))

instance [Repr κ] [Repr ν] : Repr (VersionMap κ ν) := ⟨fun m n => reprPrec m.entries n⟩

/-- The map without versions. -/
def empty : VersionMap κ ν := ⟨[], List.Pairwise.nil⟩

/-- The version at exactly `k`. -/
def get? (m : VersionMap κ ν) (k : κ) : Option ν :=
  (m.entries.find? (fun e => e.1 = k)).map Prod.snd

/-- The newest version at or below `ts`, with its key. -/
def seek (m : VersionMap κ ν) (ts : κ) : Option (κ × ν) :=
  m.entries.find? (fun e => e.1 ≤ ts)

/-- The versions at or below `ts`, newest first: what repeated seeks return. -/
def below (m : VersionMap κ ν) (ts : κ) : List (κ × ν) :=
  m.entries.filter (fun e => e.1 ≤ ts)

/-- `insert` on the list: walk past the newer versions, then put `(k, v)` in
front of the older ones, replacing a version at `k`. -/
def insertList (k : κ) (v : ν) : List (κ × ν) → List (κ × ν)
  | [] => [(k, v)]
  | e :: rest =>
    if e.1 < k then (k, v) :: e :: rest
    else if e.1 = k then (k, v) :: rest
    else e :: insertList k v rest

theorem mem_insertList {k : κ} {v : ν} {l : List (κ × ν)}
    (hl : l.Pairwise (fun a b => b.1 < a.1)) (x : κ × ν) :
    x ∈ insertList k v l ↔ x = (k, v) ∨ (x ∈ l ∧ x.1 ≠ k) := by
  induction l with
  | nil => simp [insertList]
  | cons e rest ih =>
    obtain ⟨hhead, hrest⟩ := List.pairwise_cons.mp hl
    have ih := ih hrest
    simp only [insertList]
    split_ifs with hlt heq
    · -- every version here is older than `k`
      have hne : ∀ y ∈ e :: rest, y.1 ≠ k := by
        intro y hy
        rcases List.mem_cons.mp hy with rfl | hy
        · exact ne_of_lt hlt
        · exact ne_of_lt (lt_trans (hhead y hy) hlt)
      rw [List.mem_cons]
      constructor
      · rintro (h | h)
        · exact .inl h
        · exact .inr ⟨h, hne x h⟩
      · rintro (h | ⟨h, -⟩)
        · exact .inl h
        · exact .inr h
    · -- the version at `k` is replaced; the rest is older
      rw [List.mem_cons, List.mem_cons]
      constructor
      · rintro (h | h)
        · exact .inl h
        · exact .inr ⟨.inr h, ne_of_lt (heq ▸ hhead x h)⟩
      · rintro (h | ⟨h | h, hk⟩)
        · exact .inl h
        · exact absurd (by rw [h]; exact heq) hk
        · exact .inr h
    · simp only [List.mem_cons]
      rw [ih]
      constructor
      · rintro (h | h | h)
        · exact .inr ⟨.inl h, by rw [h]; exact heq⟩
        · exact .inl h
        · exact .inr ⟨.inr h.1, h.2⟩
      · rintro (h | ⟨h | h, hk⟩)
        · exact .inr (.inl h)
        · exact .inl h
        · exact .inr (.inr ⟨h, hk⟩)

theorem insertList_sorted {k : κ} {v : ν} {l : List (κ × ν)}
    (hl : l.Pairwise (fun a b => b.1 < a.1)) :
    (insertList k v l).Pairwise (fun a b => b.1 < a.1) := by
  induction l with
  | nil => simp [insertList]
  | cons e rest ih =>
    obtain ⟨hhead, hrest⟩ := List.pairwise_cons.mp hl
    simp only [insertList]
    split_ifs with hlt heq
    · refine List.pairwise_cons.mpr ⟨?_, hl⟩
      intro y hy
      rcases List.mem_cons.mp hy with rfl | hy
      · exact hlt
      · exact lt_trans (hhead y hy) hlt
    · exact List.pairwise_cons.mpr ⟨fun y hy => heq ▸ hhead y hy, hrest⟩
    · refine List.pairwise_cons.mpr ⟨?_, ih hrest⟩
      intro y hy
      rcases (mem_insertList hrest y).mp hy with rfl | ⟨hy, -⟩
      · exact lt_of_le_of_ne (not_lt.mp hlt) (Ne.symm heq)
      · exact hhead y hy

/-- Put the version `v` at `k`, replacing the one there. -/
def insert (m : VersionMap κ ν) (k : κ) (v : ν) : VersionMap κ ν :=
  ⟨insertList k v m.entries, insertList_sorted m.sorted⟩

/-- Remove the version at `k`. -/
def erase (m : VersionMap κ ν) (k : κ) : VersionMap κ ν :=
  ⟨m.entries.filter (fun e => e.1 ≠ k), m.sorted.filter _⟩

/-! ## Point reads -/

theorem mem_entries_iff (m : VersionMap κ ν) (k : κ) (v : ν) :
    (k, v) ∈ m.entries ↔ m.get? k = some v := by
  obtain ⟨l, hl⟩ := m
  simp only [get?]
  induction l with
  | nil => simp
  | cons e rest ih =>
    obtain ⟨hhead, hrest⟩ := List.pairwise_cons.mp hl
    by_cases he : e.1 = k
    · -- `e` is the version at `k`; no older one has the same key
      have hfind : (e :: rest).find? (fun e => e.1 = k) = some e := by simp [he]
      rw [hfind, Option.map_some, List.mem_cons]
      constructor
      · rintro (rfl | h)
        · rfl
        · exact absurd (he ▸ hhead _ h) (lt_irrefl _)
      · intro h
        exact .inl (by rw [← Option.some_inj.mp h, ← he])
    · have hfind : (e :: rest).find? (fun e => e.1 = k) = rest.find? (fun e => e.1 = k) := by
        simp [he]
      rw [hfind, List.mem_cons, ← ih hrest]
      constructor
      · rintro (rfl | h)
        · exact absurd rfl he
        · exact h
      · exact .inr

@[simp]
theorem get?_empty (k : κ) : (empty : VersionMap κ ν).get? k = none := rfl

@[simp]
theorem get?_insert (m : VersionMap κ ν) (k k' : κ) (v : ν) :
    (m.insert k v).get? k' = if k' = k then some v else m.get? k' := by
  cases h : (m.insert k v).get? k' with
  | none =>
    split_ifs with hk
    · subst hk
      have hmem : (k', v) ∈ (m.insert k' v).entries :=
        (mem_insertList m.sorted _).mpr (.inl rfl)
      rw [(mem_entries_iff _ _ _).mp hmem] at h
      cases h
    · cases h' : m.get? k' with
      | none => rfl
      | some w =>
        have hmem : (k', w) ∈ (m.insert k v).entries :=
          (mem_insertList m.sorted _).mpr (.inr ⟨(mem_entries_iff _ _ _).mpr h', hk⟩)
        rw [(mem_entries_iff _ _ _).mp hmem] at h
        cases h
  | some w =>
    have hmem := (mem_insertList m.sorted _).mp ((mem_entries_iff _ _ _).mpr h)
    rcases hmem with he | ⟨hmem, hk⟩
    · cases he
      simp
    · simp only [hk, if_false]
      exact ((mem_entries_iff _ _ _).mp hmem).symm

@[simp]
theorem get?_erase (m : VersionMap κ ν) (k k' : κ) :
    (m.erase k).get? k' = if k' = k then none else m.get? k' := by
  split_ifs with hk
  · subst hk
    cases h : (m.erase k').get? k' with
    | none => rfl
    | some w =>
      have hmem := (mem_entries_iff _ _ _).mpr h
      simp [erase] at hmem
  · cases h : m.get? k' with
    | none =>
      cases h' : (m.erase k).get? k' with
      | none => rfl
      | some w =>
        have hmem := (mem_entries_iff _ _ _).mpr h'
        simp only [erase, List.mem_filter] at hmem
        rw [(mem_entries_iff _ _ _).mp hmem.1] at h
        cases h
    | some w =>
      have hmem : (k', w) ∈ (m.erase k).entries := by
        simp only [erase, List.mem_filter, decide_eq_true_eq]
        exact ⟨(mem_entries_iff _ _ _).mpr h, hk⟩
      exact (mem_entries_iff _ _ _).mp hmem

/-! ## Seeks and walks -/

theorem seek_eq_some_iff (m : VersionMap κ ν) (ts c : κ) (v : ν) :
    m.seek ts = some (c, v) ↔
      m.get? c = some v ∧ c ≤ ts ∧ ∀ c' v', m.get? c' = some v' → c' ≤ ts → c' ≤ c := by
  obtain ⟨l, hl⟩ := m
  simp only [seek, ← mem_entries_iff]
  induction l with
  | nil => simp
  | cons e rest ih =>
    obtain ⟨hhead, hrest⟩ := List.pairwise_cons.mp hl
    by_cases he : e.1 ≤ ts
    · -- `e` is the newest version at or below `ts`
      simp only [List.find?_cons, he, decide_true, List.mem_cons, Option.some.injEq]
      constructor
      · rintro rfl
        refine ⟨.inl rfl, he, ?_⟩
        rintro c' v' (h | h) -
        · exact le_of_eq (Prod.mk.inj h).1
        · exact le_of_lt (hhead _ h)
      · rintro ⟨h | h, hc, hmax⟩
        · exact h.symm
        · exact absurd (hmax e.1 e.2 (.inl rfl) he) (not_le.mpr (hhead _ h))
    · simp only [List.find?_cons, he, decide_false, List.mem_cons]
      rw [ih hrest]
      constructor
      · rintro ⟨h, hc, hmax⟩
        refine ⟨.inr h, hc, ?_⟩
        rintro c' v' (h' | h') hc'
        · exact absurd (h' ▸ hc') he
        · exact hmax c' v' h' hc'
      · rintro ⟨h | h, hc, hmax⟩
        · exact absurd (h ▸ hc) he
        · exact ⟨h, hc, fun c' v' h' hc' => hmax c' v' (.inr h') hc'⟩

theorem seek_eq_none_iff (m : VersionMap κ ν) (ts : κ) :
    m.seek ts = none ↔ ∀ c v, m.get? c = some v → ts < c := by
  simp only [seek, List.find?_eq_none, decide_eq_true_eq, not_le, ← mem_entries_iff]
  exact ⟨fun h c v hc => h _ hc, fun h e he => h e.1 e.2 he⟩

theorem seek_eq_head?_below (m : VersionMap κ ν) (ts : κ) : m.seek ts = (m.below ts).head? := by
  simp [seek, below, List.head?_filter]

theorem mem_below (m : VersionMap κ ν) (ts c : κ) (v : ν) :
    (c, v) ∈ m.below ts ↔ m.get? c = some v ∧ c ≤ ts := by
  simp [below, mem_entries_iff]

/-- The head of a walk from `ts` is the newest version at or below `ts`:
nothing lies between it and `ts`. -/
theorem get?_of_below_eq_cons {m : VersionMap κ ν} {ts c : κ} {v : ν} {rest : List (κ × ν)}
    (h : m.below ts = (c, v) :: rest) :
    m.get? c = some v ∧ c ≤ ts ∧ ∀ k, c < k → k ≤ ts → m.get? k = none := by
  have hseek : m.seek ts = some (c, v) := by rw [seek_eq_head?_below, h]; rfl
  obtain ⟨hget, hle, hmax⟩ := (seek_eq_some_iff m ts c v).mp hseek
  refine ⟨hget, hle, fun k hck hkts => ?_⟩
  cases hk : m.get? k with
  | none => rfl
  | some v' => exact absurd (hmax k v' hk hkts) (not_le.mpr hck)

/-- An empty walk from `ts`: no version at or below `ts`. -/
theorem get?_of_below_eq_nil {m : VersionMap κ ν} {ts : κ} (h : m.below ts = []) (k : κ)
    (hk : k ≤ ts) : m.get? k = none := by
  have hseek : m.seek ts = none := by rw [seek_eq_head?_below, h]; rfl
  cases hget : m.get? k with
  | none => rfl
  | some v => exact absurd hk (not_le.mpr ((seek_eq_none_iff m ts).mp hseek k v hget))

theorem below_sorted (m : VersionMap κ ν) (ts : κ) :
    (m.below ts).Pairwise (fun a b => b.1 < a.1) :=
  m.sorted.filter _

/-- After the version at `c`, a walk from `ts` goes on with the versions
strictly below `c`: the seek at any `ts'` that splits the keys at `c` the same
way. -/
theorem below_eq_cons {m : VersionMap κ ν} {ts c ts' : κ} {v : ν} {rest : List (κ × ν)}
    (h : m.below ts = (c, v) :: rest) (hts' : ∀ c', c' ≤ ts' ↔ c' < c) :
    m.below ts' = rest := by
  obtain ⟨l, hl⟩ := m
  simp only [below] at h ⊢
  induction l with
  | nil => cases h
  | cons e tail ih =>
    obtain ⟨hhead, htail⟩ := List.pairwise_cons.mp hl
    by_cases he : e.1 ≤ ts
    · rw [List.filter_cons_of_pos (by simpa using he)] at h
      obtain ⟨rfl, rfl⟩ := List.cons.inj h
      -- the head is the version at `c`, every later one is below it
      have hnot : ¬ c ≤ ts' := fun h' => lt_irrefl c ((hts' c).mp h')
      rw [List.filter_cons_of_neg (by simpa using hnot)]
      refine List.filter_congr (fun x hx => ?_)
      have hx : x.1 < c := hhead x hx
      simp [(hts' x.1).mpr hx, le_of_lt (lt_of_lt_of_le hx he)]
    · rw [List.filter_cons_of_neg (by simpa using he)] at h
      -- `e` is newer than `c`, so not at or below `ts'` either
      have hec : c < e.1 := hhead _ (List.mem_filter.mp (h ▸ List.mem_cons_self)).1
      rw [List.filter_cons_of_neg (by simpa [hts'] using not_lt.mpr (le_of_lt hec))]
      exact ih htail h

/-! ## Counting versions -/

theorem keys_nodup (m : VersionMap κ ν) : (m.entries.map Prod.fst).Nodup :=
  List.pairwise_map.mpr (m.sorted.imp fun h => ne_of_gt h)

/-- A map whose versions lie where `m` has one, or at `c₀`, has at most one
version more than `m`. -/
theorem length_le_of_get? {m m' : VersionMap κ ν} (c₀ : κ)
    (h : ∀ k v, m'.get? k = some v → (∃ v₀, m.get? k = some v₀) ∨ k = c₀) :
    m'.entries.length ≤ m.entries.length + 1 := by
  have hsub : m'.entries.map Prod.fst ⊆ c₀ :: m.entries.map Prod.fst := by
    intro k hk
    obtain ⟨⟨k', v⟩, hkv, rfl⟩ := List.mem_map.mp hk
    rcases h k' v ((mem_entries_iff _ _ _).mp hkv) with ⟨v₀, hv₀⟩ | rfl
    · exact List.mem_cons_of_mem _
        (List.mem_map.mpr ⟨(k', v₀), (mem_entries_iff _ _ _).mpr hv₀, rfl⟩)
    · exact List.mem_cons_self
  simpa using ((keys_nodup m').subperm hsub).length_le

end VersionMap
