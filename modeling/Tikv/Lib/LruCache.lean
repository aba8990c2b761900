import Mathlib.Data.List.AList

/-!
# LRU caches with an eviction policy

An LRU cache is a map together with its keys ordered from the most recently
used to the least (the trace). A read moves the key it finds to the front,
every `sampleMask + 1`-th time; an insert of a new key puts it in front,
reusing the tail's place when the policy finds the cache full, and then
evicts from the tail for as long as the policy asks. The policy sees the size,
the capacity and the tail entry, so that it may evict by age as well as by
size.

The trace is a permutation of the map's keys (`trace_perm`), so the tail is
always a key of the map and eviction always finds something to remove.

Results:
* `lookup_get`, `lookup_getMut`: a read keeps the map; `get_mut` changes the
  one value it finds.
* `keptOrEvicted_insert`: an insert keeps every other key's value unless it
  evicts it, and every entry it evicts was the tail entry shown to the policy
  when it asked for an eviction, at a size no larger than the size with the
  new entry.
* `lookup_insert_self`: an insert stores the new value unless it evicts it.
-/

/-- A cache of `V`s by `K`: the map, its keys from the most recently used to
the least, the capacity the policy compares the size with, and the sampling
of promotions on reads. -/
structure LruCache (K V : Type) where
  map : AList (fun _ : K => V)
  trace : List K
  capacity : Nat
  tick : Nat
  sampleMask : Nat
  trace_perm : trace.Perm map.keys

/-- An eviction policy: from the current size, the capacity and the tail
entry, whether to evict the tail. -/
abbrev EvictPolicy (K V : Type) := Nat → Nat → Option (K × V) → Bool

namespace LruCache

variable {K V : Type} [DecidableEq K]

theorem dropLast_eq_erase {l : List K} {x : K} (hnd : l.Nodup) (h : l.getLast? = some x) :
    l.dropLast = l.erase x := by
  obtain ⟨ys, rfl⟩ := List.getLast?_eq_some_iff.mp h
  have hx : x ∉ ys := fun hx => (List.nodup_append.mp hnd).2.2 x hx x (List.mem_singleton_self x) rfl
  rw [List.dropLast_concat, List.erase_append_right _ hx, List.erase_cons_head, List.append_nil]

omit [DecidableEq K] in
theorem trace_nodup (c : LruCache K V) : c.trace.Nodup :=
  c.trace_perm.nodup_iff.mpr c.map.keys_nodup

omit [DecidableEq K] in
theorem mem_trace {c : LruCache K V} {k : K} : k ∈ c.trace ↔ k ∈ c.map := by
  rw [c.trace_perm.mem_iff, AList.mem_keys]

/-- An empty cache. -/
def empty (capacity sampleMask : Nat) : LruCache K V :=
  ⟨∅, [], capacity, 0, sampleMask, by rw [AList.keys_empty]⟩

/-- mirrors components/tikv_util/src/lru.rs:233-248 (`LruCache::new`): the
capacity is at least 1. -/
def new (capacity sampleMask : Nat) : LruCache K V :=
  empty (if capacity = 0 then 1 else capacity) sampleMask

/-- mirrors components/tikv_util/src/lru.rs:261-264 (`size`): a
`CountTracker` counts the entries. -/
def size (c : LruCache K V) : Nat :=
  c.map.entries.length

/-- mirrors components/tikv_util/src/lru.rs:458-470 (`get_tail_entry`) -/
def tailEntry (c : LruCache K V) : Option (K × V) :=
  if c.map.entries.isEmpty then none
  else
    match c.trace.getLast? with
    | some k => (c.map.lookup k).map (k, ·)
    | none => none

/-- mirrors components/tikv_util/src/lru.rs:74-80 (`Trace::promote`): the
key moves to the front, and its value is `v`. -/
def promote (c : LruCache K V) (k : K) (v : V) : LruCache K V where
  map := c.map.insert k v
  trace := k :: c.trace.erase k
  capacity := c.capacity
  tick := c.tick
  sampleMask := c.sampleMask
  trace_perm := by
    rw [AList.keys_insert]
    exact (c.trace_perm.erase k).cons k

/-- mirrors components/tikv_util/src/lru.rs:66-72 (`Trace::maybe_promote`),
with the value set to `v`. -/
def maybePromote (c : LruCache K V) (k : K) (v : V) (hk : k ∈ c.map) : LruCache K V :=
  if (c.tick + 1) &&& c.sampleMask = 0 then { c.promote k v with tick := c.tick + 1 }
  else
    { c with
      map := c.map.insert k v
      tick := c.tick + 1
      trace_perm := by
        rw [AList.keys_insert]
        exact c.trace_perm.trans (List.perm_cons_erase (AList.mem_keys.mp hk)) }

/-- mirrors components/tikv_util/src/lru.rs:92-101 (`Trace::create`): a new
key in front. -/
def create (c : LruCache K V) (k : K) (v : V) (hk : k ∉ c.map) : LruCache K V where
  map := c.map.insert k v
  trace := k :: c.trace
  capacity := c.capacity
  tick := c.tick
  sampleMask := c.sampleMask
  trace_perm := by
    rw [AList.keys_insert, List.erase_of_not_mem (AList.mem_keys.not.mp hk)]
    exact c.trace_perm.cons k

/-- mirrors components/tikv_util/src/lru.rs:103-115 (`Trace::reuse_tail`),
with the map update of `insert_impl`: the tail's entry goes, the new key
takes its place in front. -/
def reuseTail (c : LruCache K V) (k : K) (v : V) (hk : k ∉ c.map) (old : K)
    (hold : c.trace.getLast? = some old) : LruCache K V where
  map := (c.map.insert k v).erase old
  trace := k :: c.trace.dropLast
  capacity := c.capacity
  tick := c.tick
  sampleMask := c.sampleMask
  trace_perm := by
    have hne : old ≠ k := fun h => hk (h ▸ mem_trace.mp (List.mem_of_getLast? hold))
    rw [AList.keys_erase, AList.keys_insert, List.erase_of_not_mem (AList.mem_keys.not.mp hk),
      List.erase_cons_tail (by simpa using hne.symm), dropLast_eq_erase c.trace_nodup hold]
    exact (c.trace_perm.erase old).cons k

/-- mirrors components/tikv_util/src/lru.rs:129-137 (`Trace::remove_tail`),
with the map removal of `evict_until_fit`. -/
def removeTail (c : LruCache K V) (old : K) (hold : c.trace.getLast? = some old) :
    LruCache K V where
  map := c.map.erase old
  trace := c.trace.dropLast
  capacity := c.capacity
  tick := c.tick
  sampleMask := c.sampleMask
  trace_perm := by
    rw [AList.keys_erase, dropLast_eq_erase c.trace_nodup hold]
    exact c.trace_perm.erase old

/-- mirrors components/tikv_util/src/lru.rs:355-368 (`evict_until_fit`) -/
def evictUntilFit (shouldEvict : EvictPolicy K V) (c : LruCache K V) : LruCache K V :=
  if !shouldEvict c.size c.capacity c.tailEntry || c.map.entries.isEmpty then c
  else
    match hold : c.trace.getLast? with
    | some old => evictUntilFit shouldEvict (c.removeTail old hold)
    | none => c
termination_by c.trace.length
decreasing_by
  simp only [removeTail, List.length_dropLast]
  have : c.trace ≠ [] := by
    intro h
    rw [h] at hold
    cases hold
  have := List.length_pos_iff.mpr this
  omega

/-- mirrors components/tikv_util/src/lru.rs:305-353 (`insert_impl` with
`replace`, that is `insert`) -/
def insert (shouldEvict : EvictPolicy K V) (c : LruCache K V) (k : K) (v : V) : LruCache K V :=
  let shouldEvictOnInsert := shouldEvict (c.size + 1) c.capacity c.tailEntry
  let c' :=
    if hk : k ∈ c.map then c.promote k v
    else if shouldEvictOnInsert then
      match hold : c.trace.getLast? with
      | some old => c.reuseTail k v hk old hold
      | none => c.create k v hk
    else c.create k v hk
  c'.evictUntilFit shouldEvict

/-- mirrors components/tikv_util/src/lru.rs:391-401 (`get`) -/
def get (c : LruCache K V) (k : K) : Option V × LruCache K V :=
  match h : c.map.lookup k with
  | some v => (some v, c.maybePromote k v (AList.lookup_isSome.mp (by rw [h]; rfl)))
  | none => (none, c)

/-- mirrors components/tikv_util/src/lru.rs:413-422 (`get_mut`), with the
caller's change `f` to the value it finds. -/
def getMut (c : LruCache K V) (k : K) (f : V → V) : LruCache K V :=
  match h : c.map.lookup k with
  | some v => c.maybePromote k (f v) (AList.lookup_isSome.mp (by rw [h]; rfl))
  | none => c

/-! ## Lookups -/

@[simp] theorem lookup_empty (capacity sampleMask : Nat) (k : K) :
    (empty capacity sampleMask : LruCache K V).map.lookup k = none := rfl

@[simp] theorem lookup_new (capacity sampleMask : Nat) (k : K) :
    (new capacity sampleMask : LruCache K V).map.lookup k = none := rfl

@[simp] theorem map_maybePromote (c : LruCache K V) (k : K) (v : V) (hk : k ∈ c.map) :
    (c.maybePromote k v hk).map = c.map.insert k v := by
  unfold maybePromote
  split <;> rfl

theorem get_fst (c : LruCache K V) (k : K) : (c.get k).1 = c.map.lookup k := by
  unfold get
  split <;> simp_all

/-- A read keeps every value. -/
theorem lookup_get (c : LruCache K V) (k k' : K) :
    (c.get k).2.map.lookup k' = c.map.lookup k' := by
  unfold get
  split
  · rename_i v h
    rw [map_maybePromote]
    by_cases hk : k' = k
    · subst hk
      rw [AList.lookup_insert, h]
    · rw [AList.lookup_insert_ne hk]
  · rfl

theorem lookup_getMut (c : LruCache K V) (k k' : K) (f : V → V) :
    (c.getMut k f).map.lookup k' = if k' = k then (c.map.lookup k).map f else c.map.lookup k' := by
  unfold getMut
  split
  · rename_i v h
    rw [map_maybePromote]
    by_cases hk : k' = k
    · subst hk
      rw [AList.lookup_insert, if_pos rfl, h]
      rfl
    · rw [AList.lookup_insert_ne hk, if_neg hk]
  · rename_i h
    split
    · subst_vars
      rw [h]
      rfl
    · rfl

theorem lookup_getMut_of_ne (c : LruCache K V) {k k' : K} (f : V → V) (hk : k' ≠ k) :
    (c.getMut k f).map.lookup k' = c.map.lookup k' := by
  rw [lookup_getMut, if_neg hk]

theorem lookup_getMut_self (c : LruCache K V) (k : K) (f : V → V) :
    (c.getMut k f).map.lookup k = (c.map.lookup k).map f := by
  rw [lookup_getMut, if_pos rfl]

/-! ## Eviction -/

/-- What eviction does to one key: it keeps its value, or it removed it as
the tail entry the policy asked to evict, at a size no larger than `n`. -/
def KeptOrEvicted (shouldEvict : EvictPolicy K V) (n : Nat) (c c' : LruCache K V) (k : K) : Prop :=
  c'.map.lookup k = c.map.lookup k ∨
    c'.map.lookup k = none ∧
      ∃ m v, m ≤ n ∧ c.map.lookup k = some v ∧ shouldEvict m c.capacity (some (k, v)) = true

theorem KeptOrEvicted.refl (shouldEvict : EvictPolicy K V) (n : Nat) (c : LruCache K V) (k : K) :
    KeptOrEvicted shouldEvict n c c k :=
  .inl rfl

theorem tailEntry_eq_some {c : LruCache K V} {k : K} {v : V} (h : c.tailEntry = some (k, v)) :
    c.trace.getLast? = some k ∧ c.map.lookup k = some v := by
  unfold tailEntry at h
  split at h
  · cases h
  · split at h
    · rename_i k' hk'
      cases hv : c.map.lookup k' with
      | none => rw [hv] at h; cases h
      | some v' =>
        rw [hv] at h
        cases h
        exact ⟨hk', hv⟩
    · cases h

theorem tailEntry_of_getLast? {c : LruCache K V} {k : K} (h : c.trace.getLast? = some k) :
    ∃ v, c.map.lookup k = some v ∧ c.tailEntry = some (k, v) := by
  have hk : k ∈ c.map := mem_trace.mp (List.mem_of_getLast? h)
  obtain ⟨v, hv⟩ := Option.isSome_iff_exists.mp (AList.lookup_isSome.mpr hk)
  have hne : c.map.entries.isEmpty = false := by
    rw [List.isEmpty_eq_false_iff]
    intro he
    have : c.map.keys = [] := by simp [AList.keys, he]
    rw [AList.mem_keys, this] at hk
    cases hk
  refine ⟨v, hv, ?_⟩
  simp only [tailEntry, hne, Bool.false_eq_true, if_false, h, hv, Option.map_some]

omit [DecidableEq K] in
theorem size_eq_length_keys (c : LruCache K V) : c.size = c.map.keys.length := by
  simp [size, AList.keys, List.keys]

@[simp] theorem size_removeTail (c : LruCache K V) (old : K) (hold : c.trace.getLast? = some old) :
    (c.removeTail old hold).size = c.size - 1 := by
  have hmem : old ∈ c.map := mem_trace.mp (List.mem_of_getLast? hold)
  rw [size_eq_length_keys, size_eq_length_keys]
  simp only [removeTail]
  rw [AList.keys_erase, List.length_erase_of_mem (AList.mem_keys.mp hmem)]

/-- One removal of the tail the policy asked to evict, before the rest of
the loop. -/
theorem keptOrEvicted_removeTail {shouldEvict : EvictPolicy K V} {c c' : LruCache K V} {k old : K}
    (hgo : ¬(!shouldEvict c.size c.capacity c.tailEntry || c.map.entries.isEmpty) = true)
    (hold : c.trace.getLast? = some old)
    (ih : KeptOrEvicted shouldEvict (c.removeTail old hold).size (c.removeTail old hold) c' k) :
    KeptOrEvicted shouldEvict c.size c c' k := by
  obtain ⟨v, hv, htail⟩ := tailEntry_of_getLast? hold
  have hask : shouldEvict c.size c.capacity (some (old, v)) = true := by
    simp only [Bool.or_eq_true, Bool.not_eq_true', not_or] at hgo
    rw [← htail]
    simpa using hgo.1
  rcases ih with hsame | ⟨hnone, m, w, hm, hw, hpol⟩
  · by_cases hk : k = old
    · subst hk
      refine .inr ⟨?_, c.size, v, le_rfl, hv, hask⟩
      rw [hsame]
      exact AList.lookup_erase k c.map
    · left
      rw [hsame]
      exact AList.lookup_erase_ne hk
  · -- the key survived this removal and went later
    have hk : k ≠ old := by
      rintro rfl
      simp [removeTail, AList.lookup_erase] at hw
    refine .inr ⟨hnone, m, w, le_trans hm (by simp), ?_, hpol⟩
    rw [← hw]
    exact (AList.lookup_erase_ne hk).symm

/-- Every entry `evict_until_fit` removes was the tail the policy asked to evict. -/
theorem keptOrEvicted_evictUntilFit (shouldEvict : EvictPolicy K V) (c : LruCache K V) (k : K) :
    KeptOrEvicted shouldEvict c.size c (c.evictUntilFit shouldEvict) k := by
  induction c using evictUntilFit.induct shouldEvict with
  | case1 c hstop =>
    rw [evictUntilFit, if_pos hstop]
    exact .refl _ _ _ _
  | case2 c hgo old hold ih =>
    rw [evictUntilFit, if_neg hgo]
    split
    · rename_i old' hold'
      obtain rfl : old' = old := Option.some.inj (hold'.symm.trans hold)
      exact keptOrEvicted_removeTail hgo hold ih
    · rename_i hnone
      rw [hnone] at hold
      cases hold
  | case3 c hgo hold =>
    rw [evictUntilFit, if_neg hgo]
    split
    · rename_i old' hold'
      rw [hold] at hold'
      cases hold'
    · exact .refl _ _ _ _

theorem KeptOrEvicted.trans {shouldEvict : EvictPolicy K V} {n n' : Nat} {c c' c'' : LruCache K V}
    {k : K} (h : KeptOrEvicted shouldEvict n c c' k) (h' : KeptOrEvicted shouldEvict n' c' c'' k)
    (hn : n' ≤ n) (hcap : c'.capacity = c.capacity) : KeptOrEvicted shouldEvict n c c'' k := by
  rcases h' with hsame' | ⟨hnone', m, v, hm, hv, hpol⟩
  · rw [KeptOrEvicted, hsame']
    exact h
  · rcases h with hsame | ⟨hnone, -⟩
    · exact .inr ⟨hnone', m, v, le_trans hm hn, hsame ▸ hv, hcap ▸ hpol⟩
    · rw [hnone] at hv
      cases hv

theorem capacity_evictUntilFit (shouldEvict : EvictPolicy K V) (c : LruCache K V) :
    (c.evictUntilFit shouldEvict).capacity = c.capacity := by
  induction c using evictUntilFit.induct shouldEvict with
  | case1 c hstop => rw [evictUntilFit, if_pos hstop]
  | case2 c hgo old hold ih =>
    rw [evictUntilFit, if_neg hgo]
    split
    · rename_i old' hold'
      obtain rfl : old' = old := Option.some.inj (hold'.symm.trans hold)
      exact ih
    · rfl
  | case3 c hgo hold =>
    rw [evictUntilFit, if_neg hgo]
    split
    · rename_i old' hold'
      rw [hold] at hold'
      cases hold'
    · rfl

omit [DecidableEq K] in
theorem size_eq_length_trace (c : LruCache K V) : c.size = c.trace.length := by
  rw [size_eq_length_keys, c.trace_perm.length_eq]

/-- Where `insert` puts the new entry, before evicting: in front, over the
tail's place when the policy finds the cache full. -/
def placed (shouldEvict : EvictPolicy K V) (c : LruCache K V) (k : K) (v : V) : LruCache K V :=
  if hk : k ∈ c.map then c.promote k v
  else if shouldEvict (c.size + 1) c.capacity c.tailEntry then
    match hold : c.trace.getLast? with
    | some old => c.reuseTail k v hk old hold
    | none => c.create k v hk
  else c.create k v hk

theorem insert_eq (shouldEvict : EvictPolicy K V) (c : LruCache K V) (k : K) (v : V) :
    c.insert shouldEvict k v = (c.placed shouldEvict k v).evictUntilFit shouldEvict := rfl

theorem size_placed_le (shouldEvict : EvictPolicy K V) (c : LruCache K V) (k : K) (v : V) :
    (c.placed shouldEvict k v).size ≤ c.size + 1 := by
  have hpos : ∀ {l : List K} {x : K}, x ∈ l → 0 < l.length := fun h => List.length_pos_of_mem h
  simp only [size_eq_length_trace]
  unfold placed
  split
  · rename_i hk
    simp only [promote, List.length_cons, List.length_erase_of_mem (mem_trace.mpr hk)]
    have := hpos (mem_trace.mpr hk)
    omega
  · split
    · split
      · rename_i old hold
        simp only [reuseTail, List.length_cons, List.length_dropLast]
        have := hpos (List.mem_of_getLast? hold)
        omega
      · simp [create]
    · simp [create]

theorem lookup_placed_self (shouldEvict : EvictPolicy K V) (c : LruCache K V) (k : K) (v : V) :
    (c.placed shouldEvict k v).map.lookup k = some v := by
  unfold placed
  split
  · exact AList.lookup_insert _
  · rename_i hk
    split
    · split
      · rename_i old hold
        have hne : k ≠ old := fun h => hk (h ▸ mem_trace.mp (List.mem_of_getLast? hold))
        simp only [reuseTail]
        rw [AList.lookup_erase_ne hne, AList.lookup_insert]
      · exact AList.lookup_insert _
    · exact AList.lookup_insert _

/-- Placing the new entry keeps every other value, but the tail's when it
reuses its place, which the policy asked for. -/
theorem keptOrEvicted_placed (shouldEvict : EvictPolicy K V) (c : LruCache K V) {k k' : K} (v : V)
    (hk' : k' ≠ k) : KeptOrEvicted shouldEvict (c.size + 1) c (c.placed shouldEvict k v) k' := by
  unfold placed
  split
  · exact .inl (AList.lookup_insert_ne hk')
  · split
    · rename_i hk hask
      split
      · rename_i old hold
        simp only [reuseTail]
        by_cases hold' : k' = old
        · subst hold'
          obtain ⟨w, hw, htail⟩ := tailEntry_of_getLast? hold
          refine .inr ⟨AList.lookup_erase _ _, c.size + 1, w, le_rfl, hw, ?_⟩
          rw [← htail]
          exact hask
        · left
          show ((c.map.insert k v).erase old).lookup k' = c.map.lookup k'
          rw [AList.lookup_erase_ne hold', AList.lookup_insert_ne hk']
      · exact .inl (AList.lookup_insert_ne hk')
    · exact .inl (AList.lookup_insert_ne hk')

/-- An insert keeps every other key's value, unless it evicts it: then the
entry was the tail the policy asked to evict, at a size no larger than the
size with the new entry. -/
theorem keptOrEvicted_insert (shouldEvict : EvictPolicy K V) (c : LruCache K V) {k k' : K} (v : V)
    (hk' : k' ≠ k) : KeptOrEvicted shouldEvict (c.size + 1) c (c.insert shouldEvict k v) k' :=
  (keptOrEvicted_placed shouldEvict c v hk').trans
    (keptOrEvicted_evictUntilFit shouldEvict _ k') (size_placed_le shouldEvict c k v)
    (by unfold placed; split <;> (try split) <;> (try split) <;> rfl)

/-- An insert stores its value, unless it evicts it at once. -/
theorem lookup_insert_self (shouldEvict : EvictPolicy K V) (c : LruCache K V) (k : K) (v : V) :
    (c.insert shouldEvict k v).map.lookup k = some v ∨ (c.insert shouldEvict k v).map.lookup k = none := by
  rcases keptOrEvicted_evictUntilFit shouldEvict (c.placed shouldEvict k v) k with hsame | ⟨hnone, -⟩
  · left
    rw [insert_eq, hsame, lookup_placed_self]
  · exact .inr hnone

end LruCache
