import Tikv.Util.Lru
/-!
# The LRU cache refines a list of its entries

What an `LruCache` with `CountTracker` and `EvictOnFull` is for: a list of
distinct keys with their values, from the most recently used to the least,
never longer than the capacity (`LruList`). An insert puts its entry in
front and drops entries from the back while the list is over the capacity;
a read moves its entry to the front when the sampled tick says so.

`Represents c rs a` ties the cache `c` to the list `a` through `rs`, the
records of the trace from the front with the key and the value each stands
for: the map and the records hold the same keys, the records are linked in
order between the two sentinels, they and the sentinels are the only cells of
the heap, and the size the policy counts is the number of entries.

Results:
* `promote_spec`, `create_spec`, `reuseTail_spec`, `removeTail_spec`,
  `delete_spec`, `clear_spec`, `drop_spec`: what each operation of the trace does
  to the chain of records, none of them touching memory it does not own.
* `get_spec`, `getMut_spec`, `remove_spec`, `insert_spec`,
  `insertIfNotExist_spec`, `resize_spec`, `getTailEntry_spec`: each call on the
  cache returns what the call on the list returns, and keeps the representation;
  `step_represents` and `run_represents` put them together.
* `drop_isEmpty`: dropping a cache frees every record and both sentinels.
* `lruCache_refines_list`: from `new`, every run of calls.
-/
namespace Tikv.Util.Lru

/-! ## The abstract cache -/

/-- An LRU cache as a list: its entries from the most recently used to the least, no key
twice, never more than the capacity, which is at least 1; and the counter and the mask that
sample the promotions of reads. -/
structure LruList (K V : Type) where
  entries : List (K × V)
  nodup : (entries.map Prod.fst).Nodup
  capacity : Nat
  capacity_pos : 0 < capacity
  length_le : entries.length ≤ capacity
  tick : Nat
  sampleMask : Nat

namespace LruList

variable {K V : Type} [DecidableEq K]

/-- `es` with the entry of `k` in front, holding `v`. -/
def front (es : List (K × V)) (k : K) (v : V) : List (K × V) :=
  (k, v) :: es.filter (fun e => e.1 ≠ k)

/-- `es` with the value of `k` changed to `v` in place. -/
def setValue (es : List (K × V)) (k : K) (v : V) : List (K × V) :=
  es.map fun e => if e.1 = k then (k, v) else e

section Entries

variable {es : List (K × V)} {k : K} {v : V}

omit [DecidableEq K] in
theorem nodup_of_sublist {es' : List (K × V)} (hs : List.Sublist es' es) (h : (es.map Prod.fst).Nodup) :
    (es'.map Prod.fst).Nodup :=
  h.sublist (hs.map _)

theorem nodup_front (h : (es.map Prod.fst).Nodup) : ((front es k v).map Prod.fst).Nodup := by
  rw [front, List.map_cons, List.nodup_cons]
  refine ⟨fun hk => ?_, nodup_of_sublist List.filter_sublist h⟩
  obtain ⟨e, he, hek⟩ := List.mem_map.mp hk
  have hne := (List.mem_filter.mp he).2
  simp [hek] at hne

theorem map_fst_setValue (es : List (K × V)) (k : K) (v : V) :
    (setValue es k v).map Prod.fst = es.map Prod.fst := by
  rw [setValue, List.map_map]
  congr 1
  funext e
  by_cases h : e.1 = k <;> simp [h]

/-- Filtering out the entry of a key that is there once. -/
theorem filter_ne_eq {E₁ E₂ : List (K × V)} (h : ((E₁ ++ (k, v) :: E₂).map Prod.fst).Nodup) :
    (E₁ ++ (k, v) :: E₂).filter (fun e => e.1 ≠ k) = E₁ ++ E₂ := by
  have hnd := List.nodup_append.mp (by simpa using h)
  have h₁ : ∀ x ∈ E₁, x.1 ≠ k := fun x hx hx' => hnd.2.2 x.1 (List.mem_map_of_mem hx) k (by simp) hx'
  have h₂ : ∀ x ∈ E₂, x.1 ≠ k := fun x hx hx' =>
    (List.nodup_cons.mp hnd.2.1).1 (hx' ▸ List.mem_map_of_mem hx)
  rw [List.filter_append, List.filter_cons_of_neg (by simp),
    List.filter_eq_self.mpr (by simpa using h₁), List.filter_eq_self.mpr (by simpa using h₂)]

omit [DecidableEq K] in
/-- An entry of `es` is `es` split around it. -/
theorem exists_split_of_mem (hk : k ∈ es.map Prod.fst) :
    ∃ E₁ v E₂, es = E₁ ++ (k, v) :: E₂ := by
  obtain ⟨⟨k', v⟩, he, rfl⟩ := List.mem_map.mp hk
  obtain ⟨E₁, E₂, rfl⟩ := List.append_of_mem he
  exact ⟨E₁, v, E₂, rfl⟩

theorem front_split {E₁ E₂ : List (K × V)} (h : ((E₁ ++ (k, v) :: E₂).map Prod.fst).Nodup) (w : V) :
    front (E₁ ++ (k, v) :: E₂) k w = (k, w) :: (E₁ ++ E₂) := by
  rw [front, filter_ne_eq h]

theorem front_of_not_mem (hk : k ∉ es.map Prod.fst) : front es k v = (k, v) :: es := by
  rw [front, List.filter_eq_self.mpr]
  intro e he
  exact decide_eq_true fun hek => hk (by rw [← hek]; exact List.mem_map_of_mem he)

theorem length_front_of_mem (h : (es.map Prod.fst).Nodup) (hk : k ∈ es.map Prod.fst) :
    (front es k v).length = es.length := by
  obtain ⟨E₁, v₀, E₂, rfl⟩ := exists_split_of_mem hk
  rw [front_split h]
  simp only [List.length_cons, List.length_append]
  omega

theorem setValue_split {E₁ E₂ : List (K × V)} (h : ((E₁ ++ (k, v) :: E₂).map Prod.fst).Nodup) (w : V) :
    setValue (E₁ ++ (k, v) :: E₂) k w = E₁ ++ (k, w) :: E₂ := by
  have hnd := List.nodup_append.mp (by simpa using h)
  have h₁ : ∀ x ∈ E₁, x.1 ≠ k := fun x hx hx' => hnd.2.2 x.1 (List.mem_map_of_mem hx) k (by simp) hx'
  have h₂ : ∀ x ∈ E₂, x.1 ≠ k := fun x hx hx' =>
    (List.nodup_cons.mp hnd.2.1).1 (hx' ▸ List.mem_map_of_mem hx)
  simp only [setValue, List.map_append, List.map_cons]
  rw [List.map_congr_left (fun x hx => if_neg (h₁ x hx)), List.map_congr_left (fun x hx => if_neg (h₂ x hx))]
  simp

theorem lookup_of_mem (h : (es.map Prod.fst).Nodup) (hm : (k, v) ∈ es) : es.lookup k = some v := by
  obtain ⟨E₁, E₂, rfl⟩ := List.append_of_mem hm
  have hnd := List.nodup_append.mp (by simpa using h)
  refine List.lookup_eq_some_iff.mpr ⟨E₁, E₂, rfl, fun x hx => ?_⟩
  simpa using fun e => hnd.2.2 x.1 (List.mem_map_of_mem hx) k (by simp) e.symm

theorem lookup_of_not_mem (hk : k ∉ es.map Prod.fst) : es.lookup k = none :=
  List.lookup_eq_none_iff.mpr fun x hx => by
    simp only [bne_iff_ne, ne_eq]
    intro e
    exact hk (by rw [e]; exact List.mem_map_of_mem hx)

theorem mem_keys_of_lookup (h : es.lookup k = some v) : k ∈ es.map Prod.fst := by
  induction es with
  | nil => cases h
  | cons e es ih =>
    obtain ⟨k', v'⟩ := e
    by_cases hk : k = k'
    · simp [hk]
    · rw [List.lookup_cons, beq_false_of_ne hk] at h
      exact List.mem_cons_of_mem _ (ih h)

end Entries

/-- mirrors `LruCache::new`: no entries, and a capacity of at least 1. -/
def empty (capacity sampleMask : Nat) : LruList K V where
  entries := []
  nodup := List.nodup_nil
  capacity := if capacity = 0 then 1 else capacity
  capacity_pos := by split <;> omega
  length_le := Nat.zero_le _
  tick := 0
  sampleMask := sampleMask

/-- The value of `k`. -/
def lookup (a : LruList K V) (k : K) : Option V := a.entries.lookup k

/-- Put `(k, v)` in front, over any entry of `k`, then drop entries from the back while
over the capacity. -/
def insert (a : LruList K V) (k : K) (v : V) : LruList K V where
  entries := (front a.entries k v).take a.capacity
  nodup := nodup_of_sublist (List.take_sublist _ _) (nodup_front a.nodup)
  capacity := a.capacity
  capacity_pos := a.capacity_pos
  length_le := List.length_take_le _ _
  tick := a.tick
  sampleMask := a.sampleMask

/-- Insert a key that is not there; keep an entry that is. -/
def insertIfNotExist (a : LruList K V) (k : K) (v : V) : Bool × LruList K V :=
  if k ∈ a.entries.map Prod.fst then (false, a) else (true, a.insert k v)

/-- Delete the entry of `k`. -/
def remove (a : LruList K V) (k : K) : Option V × LruList K V :=
  (a.lookup k,
    { a with
      entries := a.entries.filter (fun e => e.1 ≠ k)
      nodup := nodup_of_sublist List.filter_sublist a.nodup
      length_le := (List.length_filter_le _ _).trans a.length_le })

/-- The entries after a hit on `k`, which holds `v` now: in front when the tick sampled it. -/
def hitEntries (a : LruList K V) (k : K) (v : V) : List (K × V) :=
  if (a.tick + 1) &&& a.sampleMask = 0 then front a.entries k v else setValue a.entries k v

theorem nodup_hitEntries (a : LruList K V) (k : K) (v : V) : ((a.hitEntries k v).map Prod.fst).Nodup := by
  unfold hitEntries
  split
  · exact nodup_front a.nodup
  · rw [map_fst_setValue]
    exact a.nodup

theorem length_hitEntries (a : LruList K V) {k : K} (hk : k ∈ a.entries.map Prod.fst) (v : V) :
    (a.hitEntries k v).length = a.entries.length := by
  unfold hitEntries
  split
  · exact length_front_of_mem a.nodup hk
  · simp [setValue]

/-- A hit on `k` that leaves the value `f v` where it found `v`: the tick counts the hit,
and the entry moves to the front when the tick sampled it. -/
def hit (a : LruList K V) (k : K) (f : V → V) : Option V × LruList K V :=
  match h : a.lookup k with
  | some v =>
    (some v,
      { a with
        entries := a.hitEntries k (f v)
        nodup := nodup_hitEntries a k (f v)
        length_le := by
          rw [length_hitEntries a (mem_keys_of_lookup h)]
          exact a.length_le
        tick := a.tick + 1 })
  | none => (none, a)

/-- A read: the value stays. -/
def get (a : LruList K V) (k : K) : Option V × LruList K V := a.hit k id

/-- A read through a mutable reference, written to by `f`. -/
def getMut (a : LruList K V) (k : K) (f : V → V) : Option V × LruList K V := a.hit k f

theorem hit_of_lookup_none {a : LruList K V} {k : K} (h : a.lookup k = none) (f : V → V) :
    a.hit k f = (none, a) := by
  unfold hit
  split <;> simp_all

theorem hit_of_lookup_some {a : LruList K V} {k : K} {v : V} (h : a.lookup k = some v) (f : V → V) :
    (a.hit k f).1 = some v ∧ (a.hit k f).2.entries = a.hitEntries k (f v) ∧
      (a.hit k f).2.capacity = a.capacity ∧ (a.hit k f).2.tick = a.tick + 1 ∧
      (a.hit k f).2.sampleMask = a.sampleMask := by
  unfold hit
  split <;> simp_all

/-- Set the capacity, at least 1, and drop entries from the back down to it. -/
def resize (a : LruList K V) (capacity : Nat) : LruList K V :=
  let capacity := if capacity = 0 then 1 else capacity
  { a with
    entries := a.entries.take capacity
    nodup := nodup_of_sublist (List.take_sublist _ _) a.nodup
    capacity := capacity
    capacity_pos := by dsimp only [capacity]; split <;> omega
    length_le := List.length_take_le _ _ }

/-- The least recently used entry. -/
def tailEntry (a : LruList K V) : Option (K × V) := a.entries.getLast?

end LruList

/-- `x` between `P` and `Q`, or in front of both when `promote`. -/
def hitOrder {α : Type} (promote : Bool) (P Q : List α) (x : α) : List α :=
  if promote then x :: (P ++ Q) else P ++ x :: Q

section HitOrder

variable {α β : Type} (promote : Bool) (P Q : List α) (x : α)

theorem map_hitOrder (f : α → β) : (hitOrder promote P Q x).map f = hitOrder promote (P.map f) (Q.map f) (f x) := by
  unfold hitOrder
  split <;> simp

theorem perm_hitOrder : (hitOrder promote P Q x).Perm (P ++ x :: Q) := by
  unfold hitOrder
  split
  · exact List.perm_middle.symm
  · exact List.Perm.refl _

end HitOrder

/-! ## The trace -/

open Heap (Node Relinks)

namespace Trace

variable {K : Type} {t : Trace} {h h' : Heap (Record K)} {ps : List Nat}

/-- The sentinels of `t` around the records `ps`. -/
def nodes (t : Trace) (ps : List Nat) : List Nat := t.head :: (ps ++ [t.tail])

/-- `h` links the records `ps` in order between the sentinels of `t`, and holds no other
cell. -/
structure Links (t : Trace) (h : Heap (Record K)) (ps : List Nat) : Prop where
  chain : h.Chain (t.nodes ps)
  nodup : (t.nodes ps).Nodup
  live : ∀ p, h.Live p ↔ p ∈ t.nodes ps

theorem nodes_append_cons (t : Trace) (P Q : List Nat) (r : Nat) :
    t.nodes (P ++ r :: Q) = (t.head :: P) ++ r :: (Q ++ [t.tail]) := by
  simp [nodes]

theorem perm_nodes_cons (t : Trace) (P Q : List Nat) (r : Nat) :
    (t.nodes (r :: (P ++ Q))).Perm (t.nodes (P ++ r :: Q)) := by
  simp only [nodes, List.cons_append, List.append_assoc]
  exact List.perm_middle.symm.cons _

theorem Links.withTick (hl : t.Links h ps) (n : Nat) : ({ t with tick := n }).Links h ps :=
  ⟨hl.chain, hl.nodup, hl.live⟩

theorem Links.nodup_records (hl : t.Links h ps) : ps.Nodup :=
  (List.nodup_cons.mp hl.nodup).2.sublist (List.sublist_append_left _ _)

theorem Links.mem_live (hl : t.Links h ps) {p : Nat} (hp : p ∈ t.nodes ps) : h.Live p :=
  (hl.live p).mpr hp

/-- A relinking that leaves the chain of a permutation of the nodes. -/
theorem Links.relink {ps' : List Nat} (hl : t.Links h ps) (hc : h'.Chain (t.nodes ps'))
    (hp : (t.nodes ps').Perm (t.nodes ps)) (hr : Relinks h h') : t.Links h' ps' :=
  ⟨hc, hp.nodup_iff.mpr hl.nodup, fun q => (hr.live q).trans ((hl.live q).trans hp.mem_iff.symm)⟩

/-- The record before the tail sentinel is the last record. -/
theorem Links.prevOf_tail {R : List Nat} {p : Nat} (hl : t.Links h (R ++ [p])) :
    h.prevOf t.tail = some p := by
  have hc := hl.chain
  rw [Heap.Chain, show t.nodes (R ++ [p]) = (t.head :: R ++ [p]) ++ [t.tail] by simp [nodes],
    List.isChain_append] at hc
  exact (hc.2.2 p (by simp [List.getLast?_cons]) t.tail (by simp)).2

/-- Cutting a record out of the trace joins its neighbours. -/
theorem Links.exists_cutOut {P Q : List Nat} {r : Nat} (hl : t.Links h (P ++ r :: Q)) :
    ∃ h₁, cutOut h r = some h₁ ∧ h₁.Chain (t.nodes (P ++ Q)) ∧ Relinks h h₁ := by
  have hc := hl.chain
  have hnd := hl.nodup
  rw [nodes_append_cons] at hc hnd
  obtain ⟨h₁, hu, hc₁, hr₁⟩ := Heap.exists_unlink hc (List.cons_ne_nil _ _) (by simp) hnd
  exact ⟨h₁, hu, by simpa [nodes] using hc₁, hr₁⟩

theorem Links.nodup_cut {P Q : List Nat} {r : Nat} (hl : t.Links h (P ++ r :: Q)) :
    r ∉ t.nodes (P ++ Q) ∧ (t.nodes (P ++ Q)).Nodup := by
  have hnd := hl.nodup
  rw [nodes_append_cons] at hnd
  have hnodes : t.nodes (P ++ Q) = (t.head :: P) ++ (Q ++ [t.tail]) := by simp [nodes]
  rw [hnodes]
  exact List.nodup_cons.mp (List.nodup_middle.mp hnd)

theorem promote_eq (t : Trace) (h : Heap (Record K)) (r : Nat) :
    t.promote h r = (cutOut h r).bind fun h => h.insertAfter t.head r := rfl

/-- `promote` moves a record to the front and changes no payload. -/
theorem promote_spec {P Q : List Nat} {r : Nat} (hl : t.Links h (P ++ r :: Q)) :
    ∃ h', t.promote h r = some h' ∧ t.Links h' (r :: (P ++ Q)) ∧ Relinks h h' := by
  obtain ⟨h₁, hu, hc₁, hr₁⟩ := hl.exists_cutOut
  have hperm := perm_nodes_cons t P Q r
  obtain ⟨b, B, hbB⟩ := List.exists_cons_of_ne_nil (show P ++ Q ++ [t.tail] ≠ [] by simp)
  have hnodes : t.nodes (r :: (P ++ Q)) = t.head :: r :: b :: B := by simp [nodes, ← hbB]
  have hc₁' : h₁.Chain (t.head :: b :: B) := by simpa [nodes, ← hbB] using hc₁
  obtain ⟨h₂, hi, hc₂, hr₂⟩ := Heap.insertAfter_eq_some hc₁'
    ((hr₁.live r).mpr (hl.mem_live (by simp [nodes])))
    (hnodes ▸ hperm.nodup_iff.mpr hl.nodup)
  have hr := hr₁.trans hr₂
  exact ⟨h₂, by rw [promote_eq, hu]; exact hi, hl.relink (hnodes ▸ hc₂) hperm hr, hr⟩

/-- `maybePromote` counts the hit, and promotes the record when the tick is sampled. -/
theorem maybePromote_spec {P Q : List Nat} {r : Nat} (hl : t.Links h (P ++ r :: Q)) :
    ∃ h', t.maybePromote h r = some ({ t with tick := t.tick + 1 }, h') ∧
      t.Links h' (hitOrder (decide ((t.tick + 1) &&& t.sampleMask = 0)) P Q r) ∧ Relinks h h' := by
  by_cases hs : (t.tick + 1) &&& t.sampleMask = 0
  · obtain ⟨h', hp, hl', hr⟩ := promote_spec hl
    refine ⟨h', ?_, by rw [hitOrder, if_pos (decide_eq_true hs)]; exact hl', hr⟩
    simp only [maybePromote, if_pos hs]
    rw [show ({ t with tick := t.tick + 1 } : Trace).promote h r = t.promote h r from rfl, hp]
    rfl
  · refine ⟨h, ?_, by rw [hitOrder, if_neg (by simpa using hs)]; exact hl, Relinks.refl h⟩
    simp only [maybePromote, if_neg hs]

/-- `create` puts a new record with the key in front. -/
theorem create_spec (hl : t.Links h ps) (k : K) :
    ∃ h', t.create h k = some (h.next, h') ∧ t.Links h' (h.next :: ps) ∧
      ∀ q, h'.dataOf q = if q = h.next then some (some k) else h.dataOf q := by
  obtain ⟨b, B, hbB⟩ := List.exists_cons_of_ne_nil (show ps ++ [t.tail] ≠ [] by simp)
  have hnodes : t.nodes ps = t.head :: b :: B := by rw [nodes, hbB]
  have hc : h.Chain (t.head :: b :: B) := hnodes ▸ hl.chain
  obtain ⟨⟨hhb, -⟩, -⟩ := List.isChain_cons_cons.mp hc
  obtain ⟨n, hn⟩ := Heap.live_iff.mp (Heap.live_of_nextOf hhb)
  have hnext : n.next = b := by simpa [Heap.nextOf, hn] using hhb
  have hlive : ∀ p ∈ t.head :: b :: B, h.Live p := fun p hp => hl.mem_live (hnodes ▸ hp)
  have hfresh : h.next ∉ t.head :: b :: B := fun hm => Heap.not_live_next h (hlive _ hm)
  have hnd : (t.head :: h.next :: b :: B).Nodup := by
    have hnd₀ : (t.head :: b :: B).Nodup := hnodes ▸ hl.nodup
    rw [List.nodup_cons] at hnd₀ ⊢
    refine ⟨fun hm => ?_, List.nodup_cons.mpr ⟨fun hm => hfresh (List.mem_cons_of_mem _ hm), hnd₀.2⟩⟩
    rcases List.mem_cons.mp hm with e | e
    · exact hfresh (e ▸ List.mem_cons_self)
    · exact hnd₀.1 e
  let n₀ : Record K := ⟨t.head, b, some k⟩
  have hc₀ := Heap.chain_alloc hc hlive n₀
  obtain ⟨h₁, h₂, hm₁, hm₂, hc₂, hr⟩ := Heap.splice_eq_some hc₀ hnd
    (by simp [Heap.nextOf, n₀]) (by simp [Heap.prevOf, n₀])
  refine ⟨h₂, by simp [create, hn, hnext, n₀, hm₁, hm₂], ⟨?_, ?_, fun q => ?_⟩, fun q => ?_⟩
  · simpa [nodes, hbB] using hc₂
  · simpa [nodes, hbB] using hnd
  · rw [hr.live, Heap.live_alloc, hl.live, hnodes]
    simp only [nodes, List.cons_append, hbB, List.mem_cons]
    exact or_left_comm
  · rw [hr.dataOf, Heap.dataOf, Heap.cells_alloc]
    split <;> simp [Heap.dataOf, n₀]

theorem reuseTail_eq (t : Trace) (h : Heap (Record K)) (key : K) :
    t.reuseTail h key = (do
      let tail ← h.cells t.tail
      let h ← t.promote h tail.prev
      let r ← h.cells tail.prev
      let oldKey ← r.data
      let h ← h.modify tail.prev fun r => { r with data := some key }
      pure (oldKey, tail.prev, h)) := by
  simp only [reuseTail, promote, bind_assoc]

/-- `reuseTail` moves the last record to the front and swaps its key for the new one. -/
theorem reuseTail_spec {R : List Nat} {r : Nat} {k₀ : K} (hl : t.Links h (R ++ [r]))
    (hk : h.dataOf r = some (some k₀)) (k : K) :
    ∃ h', t.reuseTail h k = some (k₀, r, h') ∧ t.Links h' (r :: R) ∧
      ∀ q, h'.dataOf q = if q = r then some (some k) else h.dataOf q := by
  obtain ⟨n, hn, hnr⟩ := Option.map_eq_some_iff.mp hl.prevOf_tail
  obtain ⟨h₁, hp, hl₁, hr₁⟩ := promote_spec (Q := []) hl
  rw [List.append_nil] at hl₁
  obtain ⟨m, hm, hmk⟩ := Option.map_eq_some_iff.mp ((hr₁.dataOf r).trans hk)
  obtain ⟨h₂, hm₂, -⟩ := Heap.exists_modify hm fun n => { n with data := some k }
  obtain ⟨_, _, _, _, hdata, hlive, _⟩ := Heap.fields_modify hm₂
  refine ⟨h₂, ?_, ⟨Heap.chain_modify (f := fun n => { n with data := some k }) (fun _ => ⟨rfl, rfl⟩) hl₁.chain hm₂, hl₁.nodup,
    fun q => (hlive q).trans (hl₁.live q)⟩, fun q => ?_⟩
  · rw [reuseTail_eq]
    simp [hn, hnr, hp, hm, hmk, hm₂]
  · rw [hdata, hr₁.dataOf]

/-- Cutting a record out and freeing it leaves the others linked, their payloads as they were. -/
theorem cutOut_free_spec {P Q : List Nat} {r : Nat} (hl : t.Links h (P ++ r :: Q)) :
    ∃ h₁ h₂, cutOut h r = some h₁ ∧ h₁.dataOf r = h.dataOf r ∧ h₁.free r = some h₂ ∧
      t.Links h₂ (P ++ Q) ∧ ∀ q, q ≠ r → h₂.dataOf q = h.dataOf q := by
  obtain ⟨h₁, hu, hc₁, hr₁⟩ := hl.exists_cutOut
  obtain ⟨h₂, hf, hcells, -⟩ := Heap.exists_free ((hr₁.live r).mpr (hl.mem_live (by simp [nodes])))
  have hnd' := hl.nodup_cut
  have hdata : ∀ q, q ≠ r → h₂.dataOf q = h.dataOf q := fun q hq => by
    rw [← hr₁.dataOf, Heap.dataOf, Heap.dataOf, hcells, if_neg hq]
  refine ⟨h₁, h₂, hu, hr₁.dataOf r, hf, ⟨?_, ?_, fun q => ?_⟩, hdata⟩
  · exact Heap.chain_free hc₁ hnd'.1 hf
  · exact hnd'.2
  · have hlive : h₂.Live q ↔ q ≠ r ∧ h₁.Live q := by
      rw [Heap.Live, Heap.Live, hcells]
      split <;> simp [*]
    rw [hlive, hr₁.live, hl.live]
    by_cases hq : q = r
    · subst q
      simpa using hnd'.1
    · simp [nodes, hq]

/-- `delete` cuts the record out and frees it. -/
theorem delete_spec {P Q : List Nat} {r : Nat} {k : K} (hl : t.Links h (P ++ r :: Q))
    (hk : h.dataOf r = some (some k)) :
    ∃ h', delete h r = some h' ∧ t.Links h' (P ++ Q) ∧ ∀ q, q ≠ r → h'.dataOf q = h.dataOf q := by
  obtain ⟨h₁, h₂, hu, hd₁, hf, hl₂, hdata⟩ := cutOut_free_spec hl
  obtain ⟨n, hn, hnk⟩ := Option.map_eq_some_iff.mp (hd₁.trans hk)
  exact ⟨h₂, by simp [delete, hu, hn, hnk, hf], hl₂, hdata⟩

/-- `removeTail` frees the last record and returns its key. -/
theorem removeTail_spec {R : List Nat} {r : Nat} {k : K} (hl : t.Links h (R ++ [r]))
    (hk : h.dataOf r = some (some k)) :
    ∃ h', t.removeTail h = some (k, h') ∧ t.Links h' R ∧ ∀ q, q ≠ r → h'.dataOf q = h.dataOf q := by
  obtain ⟨n, hn, hnr⟩ := Option.map_eq_some_iff.mp hl.prevOf_tail
  obtain ⟨h₁, h₂, hu, hd₁, hf, hl₂, hdata⟩ := cutOut_free_spec (Q := []) hl
  obtain ⟨m, hm, hmk⟩ := Option.map_eq_some_iff.mp (hd₁.trans hk)
  refine ⟨h₂, by simp [removeTail, hn, hnr, hu, hm, hmk, hf], by simpa using hl₂, hdata⟩

/-- `getTail` reads the key of the last record. -/
theorem getTail_spec {R : List Nat} {r : Nat} {k : K} (hl : t.Links h (R ++ [r]))
    (hk : h.dataOf r = some (some k)) : t.getTail h = some k := by
  obtain ⟨n, hn, hnr⟩ := Option.map_eq_some_iff.mp hl.prevOf_tail
  obtain ⟨m, hm, hmk⟩ := Option.map_eq_some_iff.mp hk
  simp [getTail, hn, hnr, hm, hmk]

/-- The loop of `clear` frees the records from `cur` to the tail sentinel, given a turn more
than there are records. -/
theorem clearGo_spec {tail : Nat} {ps : List Nat} {fuel : Nat} {h : Heap (Record K)}
    (hc : h.Chain (ps ++ [tail])) (hnd : (ps ++ [tail]).Nodup)
    (hd : ∀ p ∈ ps, ∃ k, h.dataOf p = some (some k)) (hlen : ps.length < fuel) :
    ∃ h', clearGo tail fuel h ((ps ++ [tail]).headD 0) = some h' ∧
      ∀ q, h'.cells q = if q ∈ ps then none else h.cells q := by
  -- one turn per record: the induction frees the first record and recurses on the rest
  induction ps generalizing fuel h with
  | nil =>
    obtain ⟨fuel, rfl⟩ : ∃ f, fuel = f + 1 := ⟨fuel - 1, by omega⟩
    exact ⟨h, by simp [clearGo], fun q => by simp⟩
  | cons p ps ih =>
    obtain ⟨fuel, rfl⟩ : ∃ f, fuel = f + 1 := ⟨fuel - 1, by simp at hlen; omega⟩
    obtain ⟨c, rest, hcr⟩ := List.exists_cons_of_ne_nil (show ps ++ [tail] ≠ [] by simp)
    have hc' : h.Chain (p :: c :: rest) := by simpa [hcr] using hc
    obtain ⟨⟨hpc, -⟩, -⟩ := List.isChain_cons_cons.mp hc'
    obtain ⟨n, hn, hnc⟩ := Option.map_eq_some_iff.mp hpc
    obtain ⟨k, hk⟩ := hd p List.mem_cons_self
    obtain ⟨m, hm, hmk⟩ := Option.map_eq_some_iff.mp hk
    rw [hn, Option.some.injEq] at hm
    subst hm
    have hnd' : p ∉ ps ++ [tail] ∧ (ps ++ [tail]).Nodup := List.nodup_cons.mp (by simpa using hnd)
    have hpt : p ≠ tail := fun e => hnd'.1 (by simp [e])
    obtain ⟨h₁, hf, hcells, -⟩ := Heap.exists_free (Heap.live_iff.mpr ⟨n, hn⟩)
    have hct : h.Chain (ps ++ [tail]) := hcr ▸ hc'.tail
    have hc₁ : h₁.Chain (ps ++ [tail]) := Heap.chain_free hct hnd'.1 hf
    have hd₁ : ∀ q ∈ ps, ∃ k, h₁.dataOf q = some (some k) := fun q hq => by
      have hqp : q ≠ p := fun e => hnd'.1 (by simp [← e, hq])
      rw [Heap.dataOf, hcells, if_neg hqp, ← Heap.dataOf]
      exact hd q (List.mem_cons_of_mem _ hq)
    obtain ⟨h', hrun, hcells'⟩ := ih hc₁ hnd'.2 hd₁ (by simp at hlen; omega)
    refine ⟨h', ?_, fun q => ?_⟩
    · rw [hcr, List.headD_cons] at hrun
      simp [clearGo, hpt, hn, hmk, hf, hnc, hrun]
    · rw [hcells', hcells]
      by_cases hqp : q = p <;> by_cases hq : q ∈ ps <;> simp [hqp, hq]

/-- `clear` frees every record and sutures the sentinels. -/
theorem clear_spec (hl : t.Links h ps) (hd : ∀ p ∈ ps, ∃ k, h.dataOf p = some (some k)) :
    ∃ h', t.clear h = some h' ∧ t.Links h' [] := by
  have hc : h.Chain (t.head :: (ps ++ [t.tail])) := hl.chain
  have hnd : (t.head :: (ps ++ [t.tail])).Nodup := hl.nodup
  obtain ⟨c, rest, hcr⟩ := List.exists_cons_of_ne_nil (show ps ++ [t.tail] ≠ [] by simp)
  obtain ⟨⟨hhc, -⟩, -⟩ := List.isChain_cons_cons.mp (show h.Chain (t.head :: c :: rest) by rw [← hcr]; exact hc)
  obtain ⟨n, hn, hnc⟩ := Option.map_eq_some_iff.mp hhc
  have hlen : ps.length < h.next := by
    have := Heap.length_le_next hl.nodup fun p hp => hl.mem_live hp
    simp [nodes] at this
    omega
  obtain ⟨h₁, hrun, hcells⟩ := clearGo_spec hc.tail (List.nodup_cons.mp hnd).2 hd hlen
  rw [hcr, List.headD_cons] at hrun
  have hnd₁ := List.nodup_cons.mp hnd
  have hht : t.head ∉ ps ∧ t.tail ∉ ps ∧ t.head ≠ t.tail :=
    ⟨fun h => hnd₁.1 (List.mem_append_left _ h),
      fun h => (List.nodup_append.mp hnd₁.2).2.2 _ h _ (List.mem_singleton_self _) rfl,
      fun e => hnd₁.1 (by simp [e])⟩
  have hlive₁ : ∀ q, h₁.Live q ↔ q = t.head ∨ q = t.tail := fun q => by
    rw [Heap.Live, hcells]
    by_cases hq : q ∈ ps
    · have : q ≠ t.head ∧ q ≠ t.tail := ⟨fun e => hht.1 (e ▸ hq), fun e => hht.2.1 (e ▸ hq)⟩
      simp [hq, this]
    · rw [if_neg hq, ← Heap.Live, hl.live]
      simp [nodes, hq]
  obtain ⟨h₂, hlink, hr⟩ := Heap.link_eq_some ((hlive₁ _).mpr (.inl rfl)) ((hlive₁ _).mpr (.inr rfl))
  refine ⟨h₂, by simp [clear, hn, hnc, hrun, suture, hlink], ⟨?_, ?_, fun q => ?_⟩⟩
  · exact List.isChain_pair.mpr ⟨by rw [hr.nextOf, if_pos rfl], by rw [hr.prevOf, if_pos rfl]⟩
  · simpa [nodes] using hht.2.2
  · rw [hr.live, hlive₁]
    simp [nodes]

/-- Dropping the trace of no records frees the two sentinels: no cell is left. -/
theorem drop_spec (hl : t.Links h []) : ∃ h', t.drop h = some h' ∧ h'.IsEmpty := by
  have hht : t.head ≠ t.tail := by simpa [nodes] using hl.nodup
  obtain ⟨h₁, hf₁, hc₁, -⟩ := Heap.exists_free (hl.mem_live (p := t.head) (by simp [nodes]))
  have htail : h₁.Live t.tail := by
    rw [Heap.Live, hc₁, if_neg (Ne.symm hht), ← Heap.Live]
    exact hl.mem_live (p := t.tail) (by simp [nodes])
  obtain ⟨h₂, hf₂, hc₂, -⟩ := Heap.exists_free htail
  refine ⟨h₂, by simp [drop, hf₁, hf₂], fun q => ?_⟩
  rw [hc₂, hc₁]
  by_cases hqt : q = t.tail
  · simp [hqt]
  by_cases hqh : q = t.head
  · simp [hqh]
  have hq : ¬ h.Live q := fun hq => by
    have := (hl.live q).mp hq
    simp only [nodes, List.nil_append, List.mem_cons, List.not_mem_nil, or_false] at this
    rcases this with e | e
    exacts [hqh e, hqt e]
  simpa [hqt, hqh, Heap.Live] using hq

/-- `new` sutures two fresh sentinels and starts the tick at zero. -/
theorem new_spec (sampleMask : Nat) :
    ∃ t h, Trace.new (Heap.empty : Heap (Record K)) sampleMask = some (t, h) ∧ t.Links h [] ∧
      t.tick = 0 ∧ t.sampleMask = sampleMask := by
  let s : Record K := ⟨dangling, dangling, none⟩
  let h₀ := ((Heap.empty.alloc s).2.alloc s).2
  have hlive : ∀ q, h₀.Live q ↔ q = 2 ∨ q = 1 := fun q => by
    rw [Heap.live_alloc, Heap.live_alloc]
    simp [Heap.Live]
  obtain ⟨h₁, hlink, hr⟩ := Heap.link_eq_some ((hlive 1).mpr (.inr rfl)) ((hlive 2).mpr (.inl rfl))
  refine ⟨⟨1, 2, 0, sampleMask⟩, h₁, by
    rw [show Trace.new Heap.empty sampleMask = (h₀.link 1 2).bind fun h => some (⟨1, 2, 0, sampleMask⟩, h)
      from rfl, hlink]
    rfl,
    ⟨?_, by simp [nodes], fun q => ?_⟩, rfl, rfl⟩
  · exact List.isChain_pair.mpr ⟨by rw [hr.nextOf, if_pos rfl], by rw [hr.prevOf, if_pos rfl]⟩
  · rw [hr.live, hlive]
    simp only [nodes, List.nil_append, List.mem_cons, List.not_mem_nil, or_false]
    exact or_comm

end Trace

/-! ## The cache and the list it stands for -/

section Cache

variable {K V : Type} [DecidableEq K]

/-- The map entry that the record `(p, k, v)` stands for: key `k`, value `v`, record `p`. -/
def entryOf (r : Nat × K × V) : Sigma fun _ : K => ValueEntry V := ⟨r.2.1, ⟨r.2.2, r.1⟩⟩

omit [DecidableEq K] in
theorem keys_map_entryOf (rs : List (Nat × K × V)) : (rs.map entryOf).keys = rs.map fun r => r.2.1 := by
  simp [List.keys, entryOf]

omit [DecidableEq K] in
theorem entryOf_eq_iff {r : Nat × K × V} {k : K} {e : ValueEntry V} :
    entryOf r = ⟨k, e⟩ ↔ r = (e.record, k, e.value) := by
  obtain ⟨p, k', v⟩ := r
  obtain ⟨v', p'⟩ := e
  simp only [entryOf, Sigma.mk.injEq, heq_eq_eq, ValueEntry.mk.injEq, Prod.mk.injEq]
  constructor <;> rintro ⟨rfl, rfl, rfl⟩ <;> exact ⟨rfl, rfl, rfl⟩

/-- Erasing the key of a record from the entries of distinct keys. -/
theorem kerase_map_entryOf {P Q : List (Nat × K × V)} {r : Nat × K × V}
    (hnd : ((P ++ r :: Q).map fun r => r.2.1).Nodup) :
    ((P ++ r :: Q).map entryOf).kerase r.2.1 = (P ++ Q).map entryOf := by
  have hP : r.2.1 ∉ (P.map entryOf).keys := by
    rw [keys_map_entryOf]
    exact fun hm => (List.nodup_middle.mp (by simpa using hnd) |> List.nodup_cons.mp).1
      (by simp only [List.mem_append]; exact .inl hm)
  rw [List.map_append, List.kerase_append_right hP, List.map_cons,
    List.kerase_cons_eq (show r.2.1 = (entryOf r).1 from rfl), List.map_append]

/-- The cache `c` holds the records `rs`, each with its key and value, from the front of the
trace: the trace links them in this order, each holds its key, the map has an entry for each
and no other, and the size the policy counts is their number. -/
structure Holds (c : LruCache K V Nat) (rs : List (Nat × K × V)) : Prop where
  links : c.trace.Links c.records (rs.map Prod.fst)
  keys : ∀ r ∈ rs, c.records.dataOf r.1 = some (some r.2.1)
  map_perm : c.map.entries.Perm (rs.map entryOf)
  size : c.sizePolicy = rs.length

/-- The cache `c` with the records `rs` represents the list `a`: the list's entries are those of
the records, and the capacity, the tick and the mask are the cache's. -/
structure Represents (c : LruCache K V Nat) (rs : List (Nat × K × V)) (a : LruList K V) : Prop
    extends Holds c rs where
  entries : a.entries = rs.map Prod.snd
  capacity : c.capacity = a.capacity
  tick : c.trace.tick = a.tick
  sampleMask : c.trace.sampleMask = a.sampleMask

namespace Holds

variable {c : LruCache K V Nat} {rs : List (Nat × K × V)}

omit [DecidableEq K] in
theorem nodup_keys (hh : Holds c rs) : (rs.map fun r => r.2.1).Nodup := by
  have := (List.perm_nodupKeys hh.map_perm).mp c.map.nodupKeys
  rwa [List.NodupKeys, keys_map_entryOf] at this

omit [DecidableEq K] in
/-- The map and the records hold the same keys. -/
theorem mem_keys_iff (hh : Holds c rs) {k : K} : k ∈ c.map.keys ↔ k ∈ rs.map fun r => r.2.1 := by
  rw [AList.keys, ← keys_map_entryOf]
  exact (hh.map_perm.map Sigma.fst).mem_iff

theorem lookup_eq_some (hh : Holds c rs) {k : K} {e : ValueEntry V} :
    c.map.lookup k = some e ↔ (e.record, k, e.value) ∈ rs := by
  rw [← Option.mem_def, AList.mem_lookup_iff, hh.map_perm.mem_iff, List.mem_map]
  constructor
  · rintro ⟨r, hr, he⟩
    rwa [entryOf_eq_iff.mp he] at hr
  · intro h
    exact ⟨_, h, entryOf_eq_iff.mpr rfl⟩

theorem lookup_eq_none (hh : Holds c rs) {k : K} : c.map.lookup k = none ↔ k ∉ rs.map fun r => r.2.1 := by
  rw [AList.lookup_eq_none, AList.mem_keys, hh.mem_keys_iff]

omit [DecidableEq K] in
/-- `len` and `size` both count the records. -/
theorem len_eq (hh : Holds c rs) : c.len = rs.length ∧ c.size countTracker = rs.length := by
  refine ⟨?_, hh.size⟩
  rw [LruCache.len, hh.map_perm.length_eq, List.length_map]

/-- Inserting over the key of a record: the entry is replaced. -/
theorem perm_insert_of_mem {P Q : List (Nat × K × V)} {p : Nat} {k : K} {v : V}
    (hh : Holds c (P ++ (p, k, v) :: Q)) (w : V) :
    (c.map.insert k ⟨w, p⟩).entries.Perm (entryOf (p, k, w) :: (P ++ Q).map entryOf) := by
  rw [AList.entries_insert]
  refine List.Perm.cons _ ?_
  rw [← kerase_map_entryOf (r := (p, k, v)) hh.nodup_keys]
  exact hh.map_perm.kerase c.map.nodupKeys

omit [DecidableEq K] in
/-- A hit on the record `(p, k, v)`, which holds `w` after it: the trace is relinked in the
order of the hit, and the map holds the new value. -/
theorem hit {P Q : List (Nat × K × V)} {p : Nat} {k : K} {v w : V} {s : Bool} {h' : Heap (Record K)}
    {m : AList fun _ : K => ValueEntry V} (hh : Holds c (P ++ (p, k, v) :: Q))
    (hl : c.trace.Links h' (hitOrder s (P.map Prod.fst) (Q.map Prod.fst) p)) (hr : Relinks c.records h')
    (hm : m.entries.Perm ((P ++ (p, k, w) :: Q).map entryOf)) (n : Nat) :
    Holds { c with trace := { c.trace with tick := n }, records := h', map := m } (hitOrder s P Q (p, k, w)) where
  links := by
    rw [map_hitOrder]
    exact hl.withTick n
  keys r hmem := by
    have hk := hh.keys
    simp only [List.mem_append, List.mem_cons] at hk
    rcases List.mem_append.mp ((perm_hitOrder s P Q _).mem_iff.mp hmem) with hP | hQ
    · rw [hr.dataOf]
      exact hk r (.inl hP)
    · rcases List.mem_cons.mp hQ with rfl | hQ
      · rw [hr.dataOf]
        exact hk (p, k, v) (.inr (.inl rfl))
      · rw [hr.dataOf]
        exact hk r (.inr (.inr hQ))
  map_perm := hm.trans ((perm_hitOrder s P Q _).symm.map entryOf)
  size := by
    rw [(perm_hitOrder s P Q _).length_eq]
    simpa using hh.size

/-- A record cut out and freed, and its key erased from the map. -/
theorem remove {P Q : List (Nat × K × V)} {p : Nat} {k : K} {v : V} (hh : Holds c (P ++ (p, k, v) :: Q))
    {h' : Heap (Record K)} (hl : c.trace.Links h' ((P ++ Q).map Prod.fst))
    (hd : ∀ q, q ≠ p → h'.dataOf q = c.records.dataOf q) :
    Holds { c with map := c.map.erase k, records := h', sizePolicy := c.sizePolicy - 1 } (P ++ Q) where
  links := hl
  keys r hmem := by
    have hnd := hh.links.nodup_records
    simp only [List.map_append, List.map_cons] at hnd
    have hrp : r.1 ≠ p := by
      rintro e
      rcases List.mem_append.mp hmem with hP | hQ
      · exact (List.nodup_append.mp hnd).2.2 _ (List.mem_map_of_mem hP) p (by simp) e
      · exact (List.nodup_cons.mp (List.nodup_append.mp hnd).2.1).1 (e ▸ List.mem_map_of_mem hQ)
    rw [hd _ hrp]
    exact hh.keys r (((List.Sublist.refl P).append (List.sublist_cons_self _ Q)).subset hmem)
  map_perm := by
    rw [← kerase_map_entryOf (r := (p, k, v)) hh.nodup_keys]
    exact hh.map_perm.kerase c.map.nodupKeys
  size := by
    rw [hh.size]
    simp

/-- One turn of eviction: the last record goes, with its entry. -/
theorem popTail {R : List (Nat × K × V)} {r : Nat × K × V} (hh : Holds c (R ++ [r])) :
    ∃ c', c.popTail countTracker = some c' ∧ Holds c' R ∧ c'.trace = c.trace ∧ c'.capacity = c.capacity := by
  obtain ⟨p, k, v⟩ := r
  obtain ⟨h', hrt, hl, hd⟩ := Trace.removeTail_spec (R := R.map Prod.fst) (r := p) (k := k)
    (by simpa using hh.links) (hh.keys (p, k, v) (by simp))
  have hk : c.map.lookup k = some ⟨v, p⟩ := hh.lookup_eq_some.mpr (by simp)
  have hrm := hh.remove (by simpa using hl) hd
  rw [List.append_nil] at hrm
  exact ⟨_, by simp [LruCache.popTail, hrt, hk], hrm, rfl, rfl⟩

omit [DecidableEq K] in
theorem withCapacity (hh : Holds c rs) (n : Nat) : Holds { c with capacity := n } rs :=
  ⟨hh.links, hh.keys, hh.map_perm, hh.size⟩

end Holds

theorem LruList.hitEntries_split {a : LruList K V} {P Q : List (Nat × K × V)} {p : Nat} {k : K} {v : V}
    (ha : a.entries = (P ++ (p, k, v) :: Q).map Prod.snd) (w : V) :
    a.hitEntries k w = (hitOrder (decide ((a.tick + 1) &&& a.sampleMask = 0)) P Q (p, k, w)).map Prod.snd := by
  have hnd : ((P.map Prod.snd ++ (k, v) :: Q.map Prod.snd).map Prod.fst).Nodup := by
    simpa [ha] using a.nodup
  rw [LruList.hitEntries, ha, map_hitOrder]
  simp only [List.map_append, List.map_cons]
  by_cases hs : (a.tick + 1) &&& a.sampleMask = 0
  · rw [if_pos hs, hitOrder, if_pos (decide_eq_true hs), LruList.front_split hnd]
  · rw [if_neg hs, hitOrder, if_neg (by simpa using hs), LruList.setValue_split hnd]

namespace Represents

variable {c : LruCache K V Nat} {rs : List (Nat × K × V)} {a : LruList K V}

omit [DecidableEq K] in
theorem keys_eq (hr : Represents c rs a) : a.entries.map Prod.fst = rs.map fun r => r.2.1 := by
  rw [hr.entries, List.map_map]
  rfl

omit [DecidableEq K] in
theorem length_le (hr : Represents c rs a) : rs.length ≤ c.capacity := by
  have := a.length_le
  rwa [hr.entries, List.length_map, ← hr.capacity] at this

theorem lookup_some (hr : Represents c rs a) {k : K} {e : ValueEntry V} (hk : c.map.lookup k = some e) :
    a.lookup k = some e.value := by
  refine LruList.lookup_of_mem (hr.keys_eq ▸ hr.nodup_keys) ?_
  rw [hr.entries]
  exact List.mem_map_of_mem (f := Prod.snd) (hr.lookup_eq_some.mp hk)

theorem lookup_none (hr : Represents c rs a) {k : K} (hk : c.map.lookup k = none) : a.lookup k = none :=
  LruList.lookup_of_not_mem (by rw [hr.keys_eq]; exact hr.lookup_eq_none.mp hk)

/-- A cache that follows the list's hit on the record `(p, k, v)` represents the list after it. -/
theorem after_hit {c' : LruCache K V Nat} {P Q : List (Nat × K × V)} {p : Nat} {k : K} {v : V}
    (hr : Represents c (P ++ (p, k, v) :: Q) a) (ha : a.lookup k = some v) (f : V → V)
    (hh : Holds c' (hitOrder (decide ((c.trace.tick + 1) &&& c.trace.sampleMask = 0)) P Q (p, k, f v)))
    (hcap : c'.capacity = c.capacity) (htick : c'.trace.tick = c.trace.tick + 1)
    (hmask : c'.trace.sampleMask = c.trace.sampleMask) :
    Represents c' (hitOrder (decide ((c.trace.tick + 1) &&& c.trace.sampleMask = 0)) P Q (p, k, f v))
      (a.hit k f).2 := by
  obtain ⟨-, hent, hcap', htick', hmask'⟩ := LruList.hit_of_lookup_some ha f
  refine ⟨hh, ?_, by rw [hcap', hcap, hr.capacity], by rw [htick', htick, hr.tick],
    by rw [hmask', hmask, hr.sampleMask]⟩
  rw [hent, LruList.hitEntries_split hr.entries, ← hr.tick, ← hr.sampleMask]

/-- A cache that follows the list's insert, with the capacity and the trace it had, represents
the list after it. -/
theorem after_insert {c' : LruCache K V Nat} {rs' : List (Nat × K × V)} (hr : Represents c rs a) {k : K} {v : V}
    (hh : Holds c' rs') (hcap : c'.capacity = c.capacity) (htr : c'.trace = c.trace)
    (he : (a.insert k v).entries = rs'.map Prod.snd) : Represents c' rs' (a.insert k v) :=
  ⟨hh, he, by rw [hcap, hr.capacity]; rfl, by rw [htr, hr.tick]; rfl, by rw [htr, hr.sampleMask]; rfl⟩

end Represents

variable {c : LruCache K V Nat} {rs : List (Nat × K × V)} {a : LruList K V}

/-- `get` returns what the list's `get` returns, and keeps the representation. -/
theorem get_spec (hr : Represents c rs a) (k : K) :
    ∃ c' rs', c.get k = some ((a.get k).1, c') ∧ Represents c' rs' (a.get k).2 := by
  cases hk : c.map.lookup k with
  | none =>
    have ha := LruList.hit_of_lookup_none (hr.lookup_none hk) id
    exact ⟨c, rs, by simp [LruCache.get, hk, LruList.get, ha], by rw [LruList.get, ha]; exact hr⟩
  | some e =>
    obtain ⟨P, Q, rfl⟩ := List.append_of_mem (hr.lookup_eq_some.mp hk)
    obtain ⟨h', hp, hl, hrl⟩ := Trace.maybePromote_spec (by simpa using hr.links)
    have ha := hr.lookup_some hk
    refine ⟨{ c with trace := { c.trace with tick := c.trace.tick + 1 }, records := h' },
      hitOrder (decide ((c.trace.tick + 1) &&& c.trace.sampleMask = 0)) P Q (e.record, k, e.value),
      by simp [LruCache.get, hk, hp, LruList.get, (LruList.hit_of_lookup_some ha id).1], ?_⟩
    exact hr.after_hit ha id (hr.hit hl hrl hr.map_perm _) rfl rfl rfl

/-- Eviction stops at once when the size is within the capacity. -/
theorem evictUntilFit_of_le {c : LruCache K V Nat} (h : c.sizePolicy ≤ c.capacity) :
    c.evictUntilFit countTracker evictOnFull = some c := by
  rw [LruCache.evictUntilFit]
  simp [Nat.not_lt.mpr h]

/-- An insert of a key that is not there, with room for it: a new record in front. -/
theorem insertImpl_create (hh : Holds c rs) {k : K} (hk : c.map.lookup k = none) (hlt : rs.length < c.capacity)
    (v : V) (replace : Bool) :
    ∃ c' p, c.insertImpl countTracker evictOnFull k v replace = some (true, c') ∧ Holds c' ((p, k, v) :: rs) ∧
      c'.capacity = c.capacity ∧ c'.trace = c.trace := by
  obtain ⟨h', hcr, hl, hd⟩ := Trace.create_spec hh.links k
  let c' : LruCache K V Nat := { c with
    records := h'
    sizePolicy := c.sizePolicy + 1
    map := c.map.insert k ⟨v, c.records.next⟩ }
  have hh' : Holds c' ((c.records.next, k, v) :: rs) := by
    refine ⟨by simpa using hl, fun r hr => ?_, ?_, by simp [c', hh.size]⟩
    · rcases List.mem_cons.mp hr with rfl | hr
      · simp [c', hd]
      · have hne : r.1 ≠ c.records.next := fun e =>
          Heap.not_live_next c.records (e ▸ hh.links.mem_live (by simp [Trace.nodes, List.mem_map_of_mem hr]))
        simp only [c']
        rw [hd, if_neg hne]
        exact hh.keys r hr
    · simp only [c']
      rw [AList.entries_insert_of_notMem (AList.lookup_eq_none.mp hk)]
      exact hh.map_perm.cons _
  have hev : c'.evictUntilFit countTracker evictOnFull = some c' :=
    evictUntilFit_of_le (by simp [c', hh.size]; omega)
  refine ⟨c', _, ?_, hh', rfl, rfl⟩
  have hno : ¬ c.capacity < c.sizePolicy + 1 := by rw [hh.size]; omega
  simp [LruCache.insertImpl, hk, hno, hcr, c'] at hev ⊢
  rw [hev]
  rfl

/-- An insert of a key that is not there into a full cache: the last record takes the new key
and moves to the front, and the entry of its old key leaves the map. -/
theorem insertImpl_reuse {R : List (Nat × K × V)} {p : Nat} {k₀ : K} {v₀ : V} (hh : Holds c (R ++ [(p, k₀, v₀)]))
    {k : K} (hk : c.map.lookup k = none) (hfull : (R ++ [(p, k₀, v₀)]).length = c.capacity) (v : V) (replace : Bool) :
    ∃ c', c.insertImpl countTracker evictOnFull k v replace = some (true, c') ∧ Holds c' ((p, k, v) :: R) ∧
      c'.capacity = c.capacity ∧ c'.trace = c.trace := by
  obtain ⟨h', hre, hl, hd⟩ := Trace.reuseTail_spec (R := R.map Prod.fst) (r := p) (by simpa using hh.links)
    (hh.keys (p, k₀, v₀) (by simp)) k
  have hkk : k₀ ≠ k := by
    rintro rfl
    exact (hh.lookup_eq_none.mp hk) (by simp)
  have hk₀ : (c.map.insert k ⟨v, p⟩).lookup k₀ = some ⟨v₀, p⟩ := by
    rw [AList.lookup_insert_ne hkk]
    exact hh.lookup_eq_some.mpr (by simp)
  let c' : LruCache K V Nat := { c with
    records := h'
    sizePolicy := c.sizePolicy
    map := (c.map.insert k ⟨v, p⟩).erase k₀ }
  have hh' : Holds c' ((p, k, v) :: R) := by
    refine ⟨by simpa using hl, fun r hr => ?_, ?_, by simp [c', hh.size]⟩
    · rcases List.mem_cons.mp hr with rfl | hr
      · simp [c', hd]
      · have hne : r.1 ≠ p := fun e => by
          have hnd := hh.links.nodup_records
          simp only [List.map_append, List.map_cons, List.map_nil] at hnd
          exact (List.nodup_append.mp hnd).2.2 _ (List.mem_map_of_mem hr) p (by simp) e
        simp only [c']
        rw [hd, if_neg hne]
        exact hh.keys r (by simp [hr])
    · show ((c.map.insert k ⟨v, p⟩).entries.kerase k₀).Perm _
      rw [AList.entries_insert_of_notMem (AList.lookup_eq_none.mp hk), List.kerase_cons_ne hkk]
      refine List.Perm.cons _ ?_
      have := kerase_map_entryOf (P := R) (Q := []) (r := (p, k₀, v₀)) (by simpa using hh.nodup_keys)
      simp only [List.append_nil] at this
      rw [← this]
      exact hh.map_perm.kerase c.map.nodupKeys
  have hev : c'.evictUntilFit countTracker evictOnFull = some c' :=
    evictUntilFit_of_le (by simp [c', hh.size] at hfull ⊢; omega)
  have hyes : c.capacity < c.sizePolicy + 1 := by rw [hh.size]; omega
  refine ⟨c', ?_, hh', rfl, rfl⟩
  simp [LruCache.insertImpl, hk, hyes, hre, hk₀, c'] at hev ⊢
  rw [hev]
  rfl

/-- An insert over a key that is there: the record moves to the front with the new value. -/
theorem insertImpl_replace {P Q : List (Nat × K × V)} {p : Nat} {k : K} {v₀ : V}
    (hh : Holds c (P ++ (p, k, v₀) :: Q)) (hle : (P ++ (p, k, v₀) :: Q).length ≤ c.capacity) (v : V) :
    ∃ c', c.insertImpl countTracker evictOnFull k v true = some (true, c') ∧ Holds c' ((p, k, v) :: (P ++ Q)) ∧
      c'.capacity = c.capacity ∧ c'.trace = c.trace := by
  have hk : c.map.lookup k = some ⟨v₀, p⟩ := hh.lookup_eq_some.mpr (by simp)
  obtain ⟨h', hp, hl, hrl⟩ := Trace.promote_spec (P := P.map Prod.fst) (Q := Q.map Prod.fst) (r := p)
    (by simpa using hh.links)
  let c' : LruCache K V Nat := { c with
    sizePolicy := c.sizePolicy - 1 + 1
    records := h'
    map := c.map.insert k ⟨v, p⟩ }
  have hh' : Holds c' ((p, k, v) :: (P ++ Q)) := by
    refine ⟨by simpa using hl, fun r hr => ?_, hh.perm_insert_of_mem v, by simp [c', hh.size]⟩
    simp only [c']
    rw [hrl.dataOf]
    rcases List.mem_cons.mp hr with rfl | hr
    · exact hh.keys (p, k, v₀) (by simp)
    · exact hh.keys r (((List.Sublist.refl P).append (List.sublist_cons_self _ Q)).subset hr)
  have hev : c'.evictUntilFit countTracker evictOnFull = some c' :=
    evictUntilFit_of_le (by simp [c', hh.size] at hle ⊢; omega)
  refine ⟨c', ?_, hh', rfl, rfl⟩
  simp [LruCache.insertImpl, hk, hp, c'] at hev ⊢
  rw [hev]
  rfl

/-- An insert that keeps an entry that is there changes nothing. -/
theorem insertImpl_keep (hh : Holds c rs) (hle : rs.length ≤ c.capacity) {k : K} {e : ValueEntry V}
    (hk : c.map.lookup k = some e) (v : V) :
    c.insertImpl countTracker evictOnFull k v false = some (false, c) := by
  have hev : c.evictUntilFit countTracker evictOnFull = some c := evictUntilFit_of_le (by rw [hh.size]; exact hle)
  simp [LruCache.insertImpl, hk, hev]

/-- An insert of a key that is not there does what the list's insert does. -/
theorem insertImpl_vacant (hr : Represents c rs a) {k : K} (hk : c.map.lookup k = none) (v : V) (replace : Bool) :
    ∃ c' rs', c.insertImpl countTracker evictOnFull k v replace = some (true, c') ∧
      Represents c' rs' (a.insert k v) := by
  have hkn : k ∉ a.entries.map Prod.fst := by
    rw [hr.keys_eq]
    exact hr.lookup_eq_none.mp hk
  have hfront : LruList.front a.entries k v = (k, v) :: a.entries := LruList.front_of_not_mem hkn
  by_cases hlt : rs.length < c.capacity
  · obtain ⟨c', p, hins, hh', hcap, htr⟩ := insertImpl_create hr.toHolds hk hlt v replace
    refine ⟨c', (p, k, v) :: rs, hins, hr.after_insert hh' hcap htr ?_⟩
    show (LruList.front a.entries k v).take a.capacity = _
    rw [hfront, List.take_of_length_le, hr.entries, List.map_cons]
    rw [List.length_cons, hr.entries, List.length_map, ← hr.capacity]
    omega
  · -- the cache is full: `insert_impl` reuses the tail record
    have hfull : rs.length = c.capacity := le_antisymm hr.length_le (not_lt.mp hlt)
    have hne : rs ≠ [] := by
      rintro rfl
      have := a.capacity_pos
      rw [← hr.capacity, ← hfull] at this
      simp at this
    obtain ⟨R, ⟨p, k₀, v₀⟩, hRx⟩ := (List.eq_nil_or_concat rs).resolve_left hne
    rw [List.concat_eq_append] at hRx
    subst hRx
    obtain ⟨c', hins, hh', hcap, htr⟩ := insertImpl_reuse hr.toHolds hk hfull v replace
    refine ⟨c', (p, k, v) :: R, hins, hr.after_insert hh' hcap htr ?_⟩
    show (LruList.front a.entries k v).take a.capacity = _
    rw [hfront, hr.entries, ← hr.capacity, ← hfull]
    simp

/-- `insert` does what the list's `insert` does. -/
theorem insert_spec (hr : Represents c rs a) (k : K) (v : V) :
    ∃ c' rs', c.insert countTracker evictOnFull k v = some c' ∧ Represents c' rs' (a.insert k v) := by
  cases hk : c.map.lookup k with
  | none =>
    obtain ⟨c', rs', hins, hr'⟩ := insertImpl_vacant hr hk v true
    exact ⟨c', rs', by simp [LruCache.insert, hins], hr'⟩
  | some e =>
    obtain ⟨P, Q, rfl⟩ := List.append_of_mem (hr.lookup_eq_some.mp hk)
    obtain ⟨c', hins, hh', hcap, htr⟩ := insertImpl_replace hr.toHolds hr.length_le v
    refine ⟨c', _, by simp [LruCache.insert, hins], hr.after_insert hh' hcap htr ?_⟩
    have hnd : ((P.map Prod.snd ++ (k, e.value) :: Q.map Prod.snd).map Prod.fst).Nodup := by
      simpa [hr.entries] using a.nodup
    have hlen := hr.length_le
    show (LruList.front a.entries k v).take a.capacity = _
    rw [hr.entries, List.map_append, List.map_cons, LruList.front_split hnd, List.take_of_length_le]
    · simp
    · simp [← hr.capacity] at hlen ⊢
      omega

/-- `insertIfNotExist` does what the list's `insertIfNotExist` does. -/
theorem insertIfNotExist_spec (hr : Represents c rs a) (k : K) (v : V) :
    ∃ c' rs', c.insertIfNotExist countTracker evictOnFull k v = some ((a.insertIfNotExist k v).1, c') ∧
      Represents c' rs' (a.insertIfNotExist k v).2 := by
  cases hk : c.map.lookup k with
  | none =>
    have hkn : k ∉ a.entries.map Prod.fst := by
      rw [hr.keys_eq]
      exact hr.lookup_eq_none.mp hk
    obtain ⟨c', rs', hins, hr'⟩ := insertImpl_vacant hr hk v false
    exact ⟨c', rs', by simp [LruCache.insertIfNotExist, hins, LruList.insertIfNotExist, hkn],
      by simpa [LruList.insertIfNotExist, hkn] using hr'⟩
  | some e =>
    have hkm : k ∈ a.entries.map Prod.fst := by
      rw [hr.keys_eq]
      exact List.mem_map_of_mem (f := fun r => r.2.1) (hr.lookup_eq_some.mp hk)
    refine ⟨c, rs, ?_, by simpa [LruList.insertIfNotExist, hkm] using hr⟩
    rw [LruCache.insertIfNotExist, insertImpl_keep hr.toHolds hr.length_le hk]
    simp [LruList.insertIfNotExist, hkm]

/-- `getMut` returns what the list's `getMut` returns, and keeps the representation. -/
theorem getMut_spec (hr : Represents c rs a) (k : K) (f : V → V) :
    ∃ c' rs', c.getMut k f = some ((a.getMut k f).1, c') ∧ Represents c' rs' (a.getMut k f).2 := by
  cases hk : c.map.lookup k with
  | none =>
    have ha := LruList.hit_of_lookup_none (hr.lookup_none hk) f
    exact ⟨c, rs, by simp [LruCache.getMut, hk, LruList.getMut, ha], by rw [LruList.getMut, ha]; exact hr⟩
  | some e =>
    obtain ⟨P, Q, rfl⟩ := List.append_of_mem (hr.lookup_eq_some.mp hk)
    obtain ⟨h', hp, hl, hrl⟩ := Trace.maybePromote_spec (by simpa using hr.links)
    have ha := hr.lookup_some hk
    have hm : (c.map.insert k ⟨f e.value, e.record⟩).entries.Perm
        ((P ++ (e.record, k, f e.value) :: Q).map entryOf) :=
      (hr.perm_insert_of_mem (f e.value)).trans (by
        simp only [List.map_append, List.map_cons]
        exact List.perm_middle.symm)
    refine ⟨{ c with
        trace := { c.trace with tick := c.trace.tick + 1 }
        records := h'
        map := c.map.insert k ⟨f e.value, e.record⟩ },
      hitOrder (decide ((c.trace.tick + 1) &&& c.trace.sampleMask = 0)) P Q (e.record, k, f e.value),
      by simp [LruCache.getMut, hk, hp, LruList.getMut, (LruList.hit_of_lookup_some ha f).1], ?_⟩
    exact hr.after_hit ha f (hr.hit hl hrl hm _) rfl rfl rfl

/-- `remove` returns what the list's `remove` returns, and keeps the representation. -/
theorem remove_spec (hr : Represents c rs a) (k : K) :
    ∃ c' rs', c.remove countTracker k = some ((a.remove k).1, c') ∧ Represents c' rs' (a.remove k).2 := by
  cases hk : c.map.lookup k with
  | none =>
    have hkn := hr.lookup_eq_none.mp hk
    refine ⟨c, rs, by simp [LruCache.remove, hk, LruList.remove, hr.lookup_none hk], ⟨hr.toHolds, ?_, hr.capacity,
      hr.tick, hr.sampleMask⟩⟩
    show a.entries.filter (fun e => e.1 ≠ k) = _
    rw [List.filter_eq_self.mpr, hr.entries]
    intro x hx
    rw [← hr.keys_eq] at hkn
    exact decide_eq_true fun e => hkn (e ▸ List.mem_map_of_mem hx)
  | some e =>
    obtain ⟨P, Q, rfl⟩ := List.append_of_mem (hr.lookup_eq_some.mp hk)
    obtain ⟨h', hdel, hl, hd⟩ := Trace.delete_spec (P := P.map Prod.fst) (Q := Q.map Prod.fst) (r := e.record)
      (k := k) (by simpa using hr.links) (hr.keys (e.record, k, e.value) (by simp))
    refine ⟨_, P ++ Q, by simp [LruCache.remove, hk, hdel, LruList.remove, hr.lookup_some hk], ⟨hr.remove
      (by simpa using hl) hd, ?_, hr.capacity, hr.tick, hr.sampleMask⟩⟩
    have hnd : ((P.map Prod.snd ++ (k, e.value) :: Q.map Prod.snd).map Prod.fst).Nodup := by
      simpa [hr.entries] using a.nodup
    show a.entries.filter (fun e => e.1 ≠ k) = _
    rw [hr.entries]
    simpa using LruList.filter_ne_eq hnd

/-- The loop of `resize` pops records from the back until no more than `n` are left. -/
theorem shrink_spec (n : Nat) : ∀ (m : Nat) {c : LruCache K V Nat} {rs : List (Nat × K × V)}, rs.length = m →
    Holds c rs → ∃ c', c.shrink countTracker n = some c' ∧ Holds c' (rs.take n) ∧
      c'.capacity = c.capacity ∧ c'.trace = c.trace := by
  -- one popped record per turn: induction on the number of records
  intro m
  induction m with
  | zero =>
    intro c rs hm hh
    rw [List.length_eq_zero_iff] at hm
    subst hm
    refine ⟨c, ?_, by simpa using hh, rfl, rfl⟩
    rw [LruCache.shrink]
    simp [hh.size]
  | succ m ih =>
    intro c rs hm hh
    by_cases hgt : n < rs.length
    · obtain ⟨R, x, hRx⟩ := (List.eq_nil_or_concat rs).resolve_left (by rintro rfl; simp at hm)
      rw [List.concat_eq_append] at hRx
      subst hRx
      obtain ⟨c₁, hpop, hh₁, htr₁, hcap₁⟩ := hh.popTail
      obtain ⟨c₂, hs, hh₂, hcap₂, htr₂⟩ := ih (by simpa using hm) hh₁
      refine ⟨c₂, ?_, ?_, hcap₂.trans hcap₁, htr₂.trans htr₁⟩
      · rw [LruCache.shrink, countTracker_current, hh.size, if_pos hgt]
        split
        · rename_i c' hc'
          rw [hpop, Option.some.injEq] at hc'
          subst hc'
          exact hs
        · rename_i hc'
          rw [hpop] at hc'
          cases hc'
      · rwa [List.take_append_of_le_length (by simp at hgt; omega)]
    · refine ⟨c, ?_, by rwa [List.take_of_length_le (by omega)], rfl, rfl⟩
      rw [LruCache.shrink]
      simp [hh.size]
      omega

/-- `resize` does what the list's `resize` does. -/
theorem resize_spec (hr : Represents c rs a) (n : Nat) :
    ∃ c' rs', c.resize countTracker n = some c' ∧ Represents c' rs' (a.resize n) := by
  obtain ⟨nc, hnc⟩ : ∃ nc, nc = if n = 0 then 1 else n := ⟨_, rfl⟩
  have hres : (a.resize n).entries = a.entries.take nc ∧ (a.resize n).capacity = nc ∧
      (a.resize n).tick = a.tick ∧ (a.resize n).sampleMask = a.sampleMask := by
    subst hnc
    exact ⟨rfl, rfl, rfl, rfl⟩
  have hdef : c.resize countTracker n =
      if nc < c.capacity ∧ (countTracker : SizePolicy K V Nat).current c.sizePolicy > nc then
        c.shrink countTracker nc >>= fun c => pure { c with capacity := nc }
      else some { c with capacity := nc } := by
    subst hnc
    rfl
  rw [hdef, countTracker_current]
  split
  · rename_i hs
    obtain ⟨c₁, hsh, hh₁, -, htr⟩ := shrink_spec nc rs.length rfl hr.toHolds
    refine ⟨{ c₁ with capacity := nc }, _, by rw [hsh]; rfl, ⟨hh₁.withCapacity _, ?_, hres.2.1.symm, ?_, ?_⟩⟩
    · rw [hres.1, hr.entries, List.map_take]
    · rw [hres.2.2.1, ← hr.tick, htr]
    · rw [hres.2.2.2, ← hr.sampleMask, htr]
  · rename_i hs
    -- no record goes: either the capacity grows, or the records already fit
    have hle : rs.length ≤ nc := by
      have hcap := hr.length_le
      have hsize := hr.size
      by_contra h
      exact hs ⟨by omega, by omega⟩
    refine ⟨{ c with capacity := nc }, rs, rfl, ⟨hr.withCapacity _, ?_, hres.2.1.symm, ?_, ?_⟩⟩
    · rw [hres.1, List.take_of_length_le (by rw [hr.entries, List.length_map]; exact hle), hr.entries]
    · rw [hres.2.2.1, ← hr.tick]
    · rw [hres.2.2.2, ← hr.sampleMask]

/-- `getTailEntry` returns the list's last entry. -/
theorem getTailEntry_spec (hr : Represents c rs a) : c.getTailEntry = some a.tailEntry := by
  rw [LruList.tailEntry, hr.entries]
  rcases List.eq_nil_or_concat rs with rfl | ⟨R, ⟨p, k, v⟩, hRx⟩
  · have hnil : c.map.entries = [] := List.Perm.eq_nil (by simpa using hr.map_perm)
    simp [LruCache.getTailEntry, hnil]
  · rw [List.concat_eq_append] at hRx
    subst hRx
    have hne : c.map.entries ≠ [] := fun h => by simpa [h] using hr.map_perm.length_eq
    have ht := Trace.getTail_spec (R := R.map Prod.fst) (r := p) (by simpa using hr.links)
      (hr.keys (p, k, v) (by simp))
    have hk : c.map.lookup k = some ⟨v, p⟩ := hr.lookup_eq_some.mpr (by simp)
    simp [LruCache.getTailEntry, hne, ht, hk]

omit [DecidableEq K] in
/-- `new` makes an empty cache with the list's capacity. -/
theorem new_represents (capacity sampleMask : Nat) :
    ∃ c : LruCache K V Nat, LruCache.new capacity sampleMask 0 = some c ∧
      Represents c [] (LruList.empty capacity sampleMask) := by
  obtain ⟨t, h, hnew, hl, htick, hmask⟩ := Trace.new_spec (K := K) sampleMask
  refine ⟨⟨∅, t, if capacity = 0 then 1 else capacity, 0, h⟩, by simp [LruCache.new, hnew], ⟨⟨by simpa using hl,
    by simp, by simp [AList.empty_entries], rfl⟩, rfl, rfl, htick, hmask⟩⟩

omit [DecidableEq K] in
/-- Dropping the cache frees every record and both sentinels. -/
theorem drop_isEmpty (hh : Holds c rs) : ∃ h, c.drop countTracker = some h ∧ h.IsEmpty := by
  have hd : ∀ p ∈ rs.map Prod.fst, ∃ k, c.records.dataOf p = some (some k) := fun p hp => by
    obtain ⟨r, hr, rfl⟩ := List.mem_map.mp hp
    exact ⟨r.2.1, hh.keys r hr⟩
  obtain ⟨h₁, hcl, hl₁⟩ := Trace.clear_spec hh.links hd
  obtain ⟨h₂, hdr, hem⟩ := Trace.drop_spec hl₁
  exact ⟨h₂, by simp [LruCache.drop, LruCache.clear, hcl, hdr], hem⟩

end Cache

/-! ## Runs of calls -/

/-- A call on the cache; `getMut` carries the caller's write through the reference it gets. -/
inductive Op (K V : Type) where
  | insert (k : K) (v : V)
  | insertIfNotExist (k : K) (v : V)
  | remove (k : K)
  | get (k : K)
  | getMut (k : K) (f : V → V)
  | resize (capacity : Nat)
  | getTailEntry

/-- What a call returns. -/
inductive Ret (K V : Type) where
  | unit
  | inserted (b : Bool)
  | value (v : Option V)
  | entry (e : Option (K × V))
  deriving DecidableEq, Repr

section Runs

variable {K V : Type} [DecidableEq K]

/-- A call on a cache of `with_capacity_sample_and_trace` with `CountTracker`: the size counts
the entries, and the eviction policy is `EvictOnFull`. -/
def LruCache.step (c : LruCache K V Nat) : Op K V → Option (Ret K V × LruCache K V Nat)
  | .insert k v => (c.insert countTracker evictOnFull k v).map fun c => (.unit, c)
  | .insertIfNotExist k v => (c.insertIfNotExist countTracker evictOnFull k v).map fun r => (.inserted r.1, r.2)
  | .remove k => (c.remove countTracker k).map fun r => (.value r.1, r.2)
  | .get k => (c.get k).map fun r => (.value r.1, r.2)
  | .getMut k f => (c.getMut k f).map fun r => (.value r.1, r.2)
  | .resize n => (c.resize countTracker n).map fun c => (.unit, c)
  | .getTailEntry => c.getTailEntry.map fun e => (.entry e, c)

/-- The calls one after another; `none` from the first that touches memory it does not own. -/
def LruCache.run (c : LruCache K V Nat) : List (Op K V) → Option (List (Ret K V) × LruCache K V Nat)
  | [] => some ([], c)
  | o :: os => (c.step o).bind fun r => (r.2.run os).map fun s => (r.1 :: s.1, s.2)

/-- A call on the list. -/
def LruList.step (a : LruList K V) : Op K V → Ret K V × LruList K V
  | .insert k v => (.unit, a.insert k v)
  | .insertIfNotExist k v => (.inserted (a.insertIfNotExist k v).1, (a.insertIfNotExist k v).2)
  | .remove k => (.value (a.remove k).1, (a.remove k).2)
  | .get k => (.value (a.get k).1, (a.get k).2)
  | .getMut k f => (.value (a.getMut k f).1, (a.getMut k f).2)
  | .resize n => (.unit, a.resize n)
  | .getTailEntry => (.entry a.tailEntry, a)

/-- The calls on the list one after another. -/
def LruList.run (a : LruList K V) : List (Op K V) → List (Ret K V) × LruList K V
  | [] => ([], a)
  | o :: os => ((a.step o).1 :: ((a.step o).2.run os).1, ((a.step o).2.run os).2)

variable {c : LruCache K V Nat} {rs : List (Nat × K × V)} {a : LruList K V}

/-- Every call on the cache returns what the call on the list returns, and keeps the
representation. -/
theorem step_represents (hr : Represents c rs a) (o : Op K V) :
    ∃ c' rs', c.step o = some ((a.step o).1, c') ∧ Represents c' rs' (a.step o).2 := by
  cases o with
  | insert k v =>
    obtain ⟨c', rs', h, hr'⟩ := insert_spec hr k v
    exact ⟨c', rs', by simp [LruCache.step, h, LruList.step], hr'⟩
  | insertIfNotExist k v =>
    obtain ⟨c', rs', h, hr'⟩ := insertIfNotExist_spec hr k v
    exact ⟨c', rs', by simp [LruCache.step, h, LruList.step], hr'⟩
  | remove k =>
    obtain ⟨c', rs', h, hr'⟩ := remove_spec hr k
    exact ⟨c', rs', by simp [LruCache.step, h, LruList.step], hr'⟩
  | get k =>
    obtain ⟨c', rs', h, hr'⟩ := get_spec hr k
    exact ⟨c', rs', by simp [LruCache.step, h, LruList.step], hr'⟩
  | getMut k f =>
    obtain ⟨c', rs', h, hr'⟩ := getMut_spec hr k f
    exact ⟨c', rs', by simp [LruCache.step, h, LruList.step], hr'⟩
  | resize n =>
    obtain ⟨c', rs', h, hr'⟩ := resize_spec hr n
    exact ⟨c', rs', by simp [LruCache.step, h, LruList.step], hr'⟩
  | getTailEntry =>
    exact ⟨c, rs, by simp [LruCache.step, getTailEntry_spec hr, LruList.step], hr⟩

/-- A run of calls on the cache returns what the run on the list returns. -/
theorem run_represents (hr : Represents c rs a) (os : List (Op K V)) :
    ∃ c' rs', c.run os = some ((a.run os).1, c') ∧ Represents c' rs' (a.run os).2 := by
  induction os generalizing c rs a with
  | nil => exact ⟨c, rs, rfl, hr⟩
  | cons o os ih =>
    obtain ⟨c₁, rs₁, h₁, hr₁⟩ := step_represents hr o
    obtain ⟨c₂, rs₂, h₂, hr₂⟩ := ih hr₁
    exact ⟨c₂, rs₂, by simp [LruCache.run, h₁, h₂, LruList.run], hr₂⟩

/-- From `new`, any run of calls on an `LruCache` with `CountTracker` and `EvictOnFull` returns
what the same calls on the list of its entries return; after it, the map and the trace hold the
same keys, `len` is `size`, and dropping the cache frees every record and both sentinels. -/
theorem lruCache_refines_list (capacity sampleMask : Nat) (os : List (Op K V)) :
    ∃ c rs, ((LruCache.new capacity sampleMask 0).bind fun c => c.run os) =
        some (((LruList.empty capacity sampleMask).run os).1, c) ∧
      Represents c rs ((LruList.empty capacity sampleMask).run os).2 ∧
      (∀ k, k ∈ c.map.keys ↔ k ∈ rs.map fun r => r.2.1) ∧ c.len = c.size countTracker ∧
      ∃ h, c.drop countTracker = some h ∧ h.IsEmpty := by
  obtain ⟨c₀, hnew, hr₀⟩ := new_represents (K := K) (V := V) capacity sampleMask
  obtain ⟨c, rs, hrun, hr⟩ := run_represents hr₀ os
  refine ⟨c, rs, by rw [hnew, Option.bind_some, hrun], hr, fun k => hr.mem_keys_iff, ?_, drop_isEmpty hr.toHolds⟩
  rw [hr.len_eq.1, hr.len_eq.2]

end Runs

end Tikv.Util.Lru
