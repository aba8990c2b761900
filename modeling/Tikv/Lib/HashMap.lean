import Mathlib.Algebra.BigOperators.Group.List.Basic
import Mathlib.Data.List.AList
import Mathlib.Data.List.MinMax
import Mathlib.Algebra.GroupWithZero.Nat

/-!
# Hash maps as association lists

A `HashMap<K, V>` is an `AList (fun _ : K => V)`: its keys are distinct by
construction, `lookup` is `get`, `insert` and `erase` are the map's, and a
loop over the map runs over `entries`. This file adds the bulk operations
`retain` (keep what a predicate accepts) and `mapVal` (change every value),
with their lookups, and the entry with the least key (`minEntry`), which
is the first entry of a `BTreeMap` with the same entries. Two maps kept in
step are related by counts over one of them: how many keys a value has
(`countVal`) and a sum over the keys (`sumKeys`), each with one lemma for a
fresh insert and one for an erase.
-/
namespace AList

variable {α β γ : Type}

/-- `HashMap::retain`: the entries that `p` keeps. -/
def retain (p : α → β → Bool) (s : AList (fun _ : α => β)) : AList (fun _ : α => β) :=
  ⟨s.entries.filter (fun e => p e.1 e.2), s.nodupKeys.sublist List.filter_sublist⟩

/-- Every value changed by `f`, as a loop over `iter_mut` does. -/
def mapVal (f : α → β → γ) (s : AList (fun _ : α => β)) : AList (fun _ : α => γ) :=
  ⟨s.entries.map (Sigma.map id f), s.nodupKeys.map₂ f⟩

/-- The number of keys that `s` maps to `b`. -/
def countVal [DecidableEq β] (s : AList (fun _ : α => β)) (b : β) : Nat :=
  s.entries.countP fun e => e.2 = b

/-- The sum of `f` over the keys of `s`. -/
def sumKeys (f : α → Nat) (s : AList (fun _ : α => β)) : Nat := (s.keys.map f).sum

theorem keys_retain_sublist (p : α → β → Bool) (s : AList (fun _ : α => β)) :
    List.Sublist (s.retain p).keys s.keys :=
  List.filter_sublist.map _

variable [DecidableEq α]

theorem mem_lookup_retain {p : α → β → Bool} {s : AList (fun _ : α => β)} {a : α} {b : β} :
    b ∈ (s.retain p).lookup a ↔ b ∈ s.lookup a ∧ p a b = true := by
  rw [mem_lookup_iff, mem_lookup_iff]
  simp [retain]

theorem lookup_retain (p : α → β → Bool) (s : AList (fun _ : α => β)) (a : α) :
    (s.retain p).lookup a = (s.lookup a).filter (p a) := by
  apply Option.ext
  intro b
  rw [← Option.mem_def, mem_lookup_retain, Option.mem_def, Option.filter_eq_some_iff]

@[simp] theorem lookup_mapVal (f : α → β → γ) (s : AList (fun _ : α => β)) (a : α) :
    (s.mapVal f).lookup a = (s.lookup a).map (f a) :=
  List.dlookup_map₂ a

section Counts

theorem countVal_pos_iff [DecidableEq β] {s : AList (fun _ : α => β)} {b : β} :
    0 < s.countVal b ↔ ∃ a, s.lookup a = some b := by
  rw [countVal, List.countP_pos_iff]
  constructor
  · rintro ⟨⟨a, b'⟩, he, hb⟩
    obtain rfl : b' = b := of_decide_eq_true hb
    exact ⟨a, mem_lookup_iff.mpr he⟩
  · rintro ⟨a, h⟩
    exact ⟨⟨a, b⟩, mem_lookup_iff.mp h, decide_eq_true rfl⟩

theorem countVal_insert [DecidableEq β] {s : AList (fun _ : α => β)} {a : α} {b : β} (h : a ∉ s)
    (b' : β) : (s.insert a b).countVal b' = s.countVal b' + if b = b' then 1 else 0 := by
  rw [countVal, countVal, entries_insert_of_notMem h, List.countP_cons]
  simp

theorem countVal_erase [DecidableEq β] {s : AList (fun _ : α => β)} {a : α} {b : β}
    (h : s.lookup a = some b) (b' : β) :
    s.countVal b' = (s.erase a).countVal b' + if b = b' then 1 else 0 := by
  have ha : a ∈ s := lookup_isSome.mp (by simp [h])
  -- the entry of `a` sits between the entries that erasing it keeps
  obtain ⟨b₀, l₁, l₂, -, hs, herase⟩ := List.exists_of_kerase ha
  have hb : s.lookup a = some b₀ := mem_lookup_iff.mpr (by simp [hs])
  obtain rfl : b₀ = b := Option.some_injective _ (hb.symm.trans h)
  have he : (s.erase a).entries = s.entries.kerase a := rfl
  rw [countVal, countVal, he, herase, hs]
  simp [List.countP_append, List.countP_cons]
  omega

theorem sumKeys_insert {f : α → Nat} {s : AList (fun _ : α => β)} {a : α} {b : β} (h : a ∉ s) :
    (s.insert a b).sumKeys f = f a + s.sumKeys f := by
  simp [sumKeys, keys_insert, List.erase_of_not_mem h]

theorem sumKeys_erase {f : α → Nat} {s : AList (fun _ : α => β)} {a : α} (h : a ∈ s) :
    s.sumKeys f = (s.erase a).sumKeys f + f a := by
  rw [sumKeys, sumKeys, keys_erase, ← List.sum_map_erase f h, Nat.add_comm]

end Counts

section MinEntry

variable [LinearOrder α]

/-- The entry with the least key: the first entry of a `BTreeMap`. -/
def minEntry (s : AList (fun _ : α => β)) : Option (α × β) :=
  (s.entries.argmin Sigma.fst).map fun e => (e.1, e.2)

theorem minEntry_eq_some_iff (s : AList (fun _ : α => β)) (a : α) (b : β) :
    s.minEntry = some (a, b) ↔ s.lookup a = some b ∧ ∀ a' ∈ s, a ≤ a' := by
  constructor
  · intro h
    obtain ⟨m, hm, hab⟩ := Option.map_eq_some_iff.mp h
    cases hab
    have hmem := List.argmin_mem hm
    refine ⟨AList.mem_lookup_iff.mpr hmem, fun a' ha' => ?_⟩
    obtain ⟨b', hb'⟩ := Option.isSome_iff_exists.mp (AList.lookup_isSome.mpr ha')
    exact List.le_of_mem_argmin (AList.mem_lookup_iff.mp hb') hm
  · rintro ⟨hb, hmin⟩
    have hmem : Sigma.mk a b ∈ s.entries := AList.mem_lookup_iff.mp hb
    cases hm : s.entries.argmin Sigma.fst with
    | none =>
      rw [List.argmin_eq_none] at hm
      rw [hm] at hmem
      cases hmem
    | some m =>
      -- the least key is `a`, whose value is `b`
      have hle : m.1 ≤ a := List.le_of_mem_argmin hmem hm
      have hmem' := List.argmin_mem hm
      have hge : a ≤ m.1 := hmin m.1 (AList.mem_keys.mpr (List.mem_map_of_mem hmem'))
      have heq : m.1 = a := le_antisymm hle hge
      obtain ⟨a', b'⟩ := m
      cases heq
      have : b' = b := Option.some.inj ((AList.mem_lookup_iff.mpr hmem').symm.trans hb)
      subst this
      simp [minEntry, hm]

end MinEntry

end AList
