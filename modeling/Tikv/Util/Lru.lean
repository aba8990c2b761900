import Tikv.Lib.Heap
import Tikv.Lib.LruCache
/-!
# The LRU cache of `tikv_util` (`components/tikv_util/src/lru.rs`)

`LruCache` keeps a `HashMap` from each key to its value and a pointer to a
`Record`, and a `Trace`: a doubly linked list of the records between two
sentinel records `head` and `tail`, from the most recently used to the least.
Each record holds a copy of its key in a `MaybeUninit<K>`, uninitialised in the
sentinels. A `SizePolicy` keeps the size the `EvictPolicy` compares with the
capacity; `CountTracker` counts entries and `EvictOnFull` evicts while the
count is over the capacity.

The records live in a `Heap (Record K)`, with the `Box` allocations of the
source as `Heap.alloc` and `Heap.free`. Every function that reads or writes a
record, reads a key or frees a record returns `none` where the source would
touch memory it does not own (a dangling pointer, a freed record, an
uninitialised key) and where it panics (`unwrap` of a key the map does not
hold). The loop of `Trace::clear` frees a record each turn, so it can run at
most as many turns as addresses were handed out; a longer run is a double
free, `none` too.

`tick` is a `usize` that wraps; as `Nat` it decides the same, since
`sample_mask < 2 ^ 64` and `(t % 2 ^ 64) &&& m = t &&& m` for such masks.
-/
namespace Tikv.Util.Lru

open Heap (Node)

/-- mirrors components/tikv_util/src/lru.rs:11-15 (`Record`): a node of the trace, its
key `none` while uninitialised. -/
abbrev Record (K : Type) := Node (Option K)

/-- `NonNull::dangling()`: address `0`, never a cell of the heap. -/
def dangling : Nat := 0

/-- mirrors lru.rs:17-20 (`ValueEntry`) -/
structure ValueEntry (V : Type) where
  value : V
  record : Nat
  deriving DecidableEq, Repr

/-- mirrors lru.rs:22-27 (`Trace`) -/
structure Trace where
  head : Nat
  tail : Nat
  tick : Nat
  sampleMask : Nat
  deriving DecidableEq, Repr

variable {K V T : Type}

/-- mirrors lru.rs:29-33 (`suture`) -/
def suture (h : Heap (Record K)) (leading following : Nat) : Option (Heap (Record K)) :=
  h.link leading following

/-- mirrors lru.rs:35-38 (`cut_out`) -/
def cutOut (h : Heap (Record K)) (record : Nat) : Option (Heap (Record K)) :=
  h.unlink record

namespace Trace

/-- mirrors lru.rs:41-63 (`Trace::new`): two sentinels, sutured. -/
def new (h : Heap (Record K)) (sampleMask : Nat) : Option (Trace × Heap (Record K)) := do
  let (head, h) := h.alloc ⟨dangling, dangling, none⟩
  let (tail, h) := h.alloc ⟨dangling, dangling, none⟩
  let h ← suture h head tail
  pure (⟨head, tail, 0, sampleMask⟩, h)

/-- mirrors lru.rs:74-80 (`Trace::promote`) -/
def promote (t : Trace) (h : Heap (Record K)) (record : Nat) : Option (Heap (Record K)) := do
  let h ← cutOut h record
  let head ← h.cells t.head
  let h ← suture h record head.next
  suture h t.head record

/-- mirrors lru.rs:66-72 (`Trace::maybe_promote`) -/
def maybePromote (t : Trace) (h : Heap (Record K)) (record : Nat) : Option (Trace × Heap (Record K)) :=
  let t := { t with tick := t.tick + 1 }
  if t.tick &&& t.sampleMask = 0 then (t.promote h record).map (t, ·) else some (t, h)

/-- mirrors lru.rs:82-88 (`Trace::delete`): the key is dropped in place, then the record
freed. -/
def delete (h : Heap (Record K)) (record : Nat) : Option (Heap (Record K)) := do
  let h ← cutOut h record
  let r ← h.cells record
  let _ ← r.data
  h.free record

/-- mirrors lru.rs:90-101 (`Trace::create`) -/
def create (t : Trace) (h : Heap (Record K)) (key : K) : Option (Nat × Heap (Record K)) := do
  let head ← h.cells t.head
  let (record, h) := h.alloc ⟨t.head, head.next, some key⟩
  let h ← h.modify head.next fun r => { r with prev := record }
  let h ← h.modify t.head fun r => { r with next := record }
  pure (record, h)

/-- mirrors lru.rs:103-115 (`Trace::reuse_tail`): the tail record moves to the front and
takes the new key; the old key is read out. -/
def reuseTail (t : Trace) (h : Heap (Record K)) (key : K) : Option (K × Nat × Heap (Record K)) := do
  let tail ← h.cells t.tail
  let record := tail.prev
  let h ← cutOut h record
  let head ← h.cells t.head
  let h ← suture h record head.next
  let h ← suture h t.head record
  let r ← h.cells record
  let oldKey ← r.data
  let h ← h.modify record fun r => { r with data := some key }
  pure (oldKey, record, h)

/-- The loop of lru.rs:117-128 (`Trace::clear`): from `cur` on to `tail`, each key
dropped and each record freed, with at most `fuel` turns. -/
def clearGo (tail : Nat) : Nat → Heap (Record K) → Nat → Option (Heap (Record K))
  | 0, _, _ => none
  | fuel + 1, h, cur =>
    if cur = tail then some h
    else do
      let r ← h.cells cur
      let _ ← r.data
      let h ← h.free cur
      clearGo tail fuel h r.next

/-- mirrors lru.rs:117-128 (`Trace::clear`) -/
def clear (t : Trace) (h : Heap (Record K)) : Option (Heap (Record K)) := do
  let head ← h.cells t.head
  let h ← clearGo t.tail h.next h head.next
  suture h t.head t.tail

/-- mirrors lru.rs:130-138 (`Trace::remove_tail`) -/
def removeTail (t : Trace) (h : Heap (Record K)) : Option (K × Heap (Record K)) := do
  let tail ← h.cells t.tail
  let record := tail.prev
  let h ← cutOut h record
  let r ← h.cells record
  let key ← r.data
  let h ← h.free record
  pure (key, h)

/-- mirrors lru.rs:140-142 (`Trace::get_tail`) -/
def getTail (t : Trace) (h : Heap (Record K)) : Option K := do
  let tail ← h.cells t.tail
  let r ← h.cells tail.prev
  r.data

/-- mirrors lru.rs:145-152 (`Drop for Trace`): the two sentinels are freed. -/
def drop (t : Trace) (h : Heap (Record K)) : Option (Heap (Record K)) := do
  let h ← h.free t.head
  h.free t.tail

end Trace

/-- mirrors lru.rs:157-162 (`SizePolicy`), over the policy's state `T` -/
structure SizePolicy (K V T : Type) where
  current : T → Nat
  onInsert : T → K → V → T
  onRemove : T → K → V → T
  onReset : T → Nat → T

/-- mirrors lru.rs:164-183 (`CountTracker`) -/
def countTracker : SizePolicy K V Nat where
  current n := n
  onInsert n _ _ := n + 1
  onRemove n _ _ := n - 1
  onReset _ v := v

@[simp] theorem countTracker_current (n : Nat) : (countTracker : SizePolicy K V Nat).current n = n := rfl

@[simp] theorem countTracker_onInsert (n : Nat) (k : K) (v : V) :
    (countTracker : SizePolicy K V Nat).onInsert n k v = n + 1 := rfl

@[simp] theorem countTracker_onRemove (n : Nat) (k : K) (v : V) :
    (countTracker : SizePolicy K V Nat).onRemove n k v = n - 1 := rfl

@[simp] theorem countTracker_onReset (n v : Nat) : (countTracker : SizePolicy K V Nat).onReset n v = v := rfl

/-- mirrors lru.rs:203-215 (`EvictOnFull`) -/
def evictOnFull : EvictPolicy K V := fun currentSize capacity _ => decide (capacity < currentSize)

@[simp] theorem evictOnFull_apply (currentSize capacity : Nat) (tail : Option (K × V)) :
    (evictOnFull : EvictPolicy K V) currentSize capacity tail = decide (capacity < currentSize) := rfl

/-- mirrors lru.rs:217-228 (`LruCache`), with the heap its records live in -/
structure LruCache (K V T : Type) where
  map : AList (fun _ : K => ValueEntry V)
  trace : Trace
  capacity : Nat
  sizePolicy : T
  records : Heap (Record K)

namespace LruCache

variable [DecidableEq K] (sp : SizePolicy K V T) (ep : EvictPolicy K V)

/-- mirrors lru.rs:247-260 (`LruCache::new`): the capacity is at least 1. -/
def new (capacity sampleMask : Nat) (sizePolicy : T) : Option (LruCache K V T) := do
  let capacity := if capacity = 0 then 1 else capacity
  let (trace, records) ← Trace.new Heap.empty sampleMask
  pure ⟨∅, trace, capacity, sizePolicy, records⟩

/-- mirrors lru.rs:262-265 (`size`) -/
def size (c : LruCache K V T) : Nat := sp.current c.sizePolicy

/-- mirrors lru.rs:426-428 (`len`) -/
def len (c : LruCache K V T) : Nat := c.map.entries.length

/-- mirrors lru.rs:455-470 (`get_tail_entry`) -/
def getTailEntry (c : LruCache K V T) : Option (Option (K × V)) :=
  if c.map.entries.isEmpty then some none
  else do
    let k ← c.trace.getTail c.records
    pure ((c.map.lookup k).map fun e => (k, e.value))

/-- What an `EvictPolicy` sees of `get_tail_entry`. -/
def tailForPolicy (c : LruCache K V T) : Option (K × V) := c.getTailEntry.join

/-- One turn of the loops of lru.rs:360-365 and 441-446: the tail record removed, its
entry removed from the map (`unwrap`), the size policy told. -/
def popTail (c : LruCache K V T) : Option (LruCache K V T) := do
  let (key, records) ← c.trace.removeTail c.records
  let entry ← c.map.lookup key
  pure { c with
    map := c.map.erase key
    records := records
    sizePolicy := sp.onRemove c.sizePolicy key entry.value }

theorem length_popTail {c c' : LruCache K V T} (h : c.popTail sp = some c') :
    c'.map.entries.length < c.map.entries.length := by
  unfold popTail at h
  cases hr : c.trace.removeTail c.records with
  | none => rw [hr] at h; cases h
  | some r =>
    obtain ⟨key, records⟩ := r
    cases he : c.map.lookup key with
    | none => simp [hr, he] at h
    | some e =>
      simp only [hr, he, Option.bind_eq_bind, Option.bind_some, Option.pure_def, Option.some.injEq] at h
      subst h
      have hk : key ∈ c.map.keys := AList.mem_keys.mpr (AList.lookup_isSome.mp (by rw [he]; rfl))
      have hlen : ∀ m : AList (fun _ : K => ValueEntry V), m.entries.length = m.keys.length :=
        fun m => (List.length_map _).symm
      show (c.map.erase key).entries.length < _
      rw [hlen, hlen, AList.keys_erase, List.length_erase_of_mem hk]
      exact Nat.sub_lt (List.length_pos_of_mem hk) Nat.one_pos

/-- mirrors lru.rs:355-368 (`evict_until_fit`) -/
def evictUntilFit (c : LruCache K V T) : Option (LruCache K V T) :=
  if !ep (sp.current c.sizePolicy) c.capacity c.tailForPolicy || c.map.entries.isEmpty then some c
  else
    match h : c.popTail sp with
    | some c' => evictUntilFit c'
    | none => none
termination_by c.map.entries.length
decreasing_by exact length_popTail sp h

/-- mirrors lru.rs:305-353 (`insert_impl`): whether the value went in, and the cache. -/
def insertImpl (c : LruCache K V T) (key : K) (value : V) (replace : Bool) :
    Option (Bool × LruCache K V T) := do
  let currentSize := sp.current c.sizePolicy
  let shouldEvictOnInsert := ep (currentSize + 1) c.capacity c.tailForPolicy
  let (inserted, oldKey, c) ← match c.map.lookup key with
    | some e =>
      if replace then do
        let s := sp.onInsert (sp.onRemove c.sizePolicy key e.value) key value
        let records ← c.trace.promote c.records e.record
        pure (true, none, { c with
          sizePolicy := s
          records := records
          map := c.map.insert key { e with value := value } })
      else pure (false, none, c)
    | none => do
      let (oldKey, record, records) ← if shouldEvictOnInsert then do
          let (o, r, h) ← c.trace.reuseTail c.records key
          pure (some o, r, h)
        else do
          let (r, h) ← c.trace.create c.records key
          pure (none, r, h)
      pure (true, oldKey, { c with
        records := records
        sizePolicy := sp.onInsert c.sizePolicy key value
        map := c.map.insert key ⟨value, record⟩ })
  let c ← match oldKey with
    | some o => do
      let entry ← c.map.lookup o
      pure { c with map := c.map.erase o, sizePolicy := sp.onRemove c.sizePolicy o entry.value }
    | none => pure c
  let c ← c.evictUntilFit sp ep
  pure (inserted, c)

/-- mirrors lru.rs:370-373 (`insert`) -/
def insert (c : LruCache K V T) (key : K) (value : V) : Option (LruCache K V T) :=
  (c.insertImpl sp ep key value true).map Prod.snd

/-- mirrors lru.rs:375-380 (`insert_if_not_exist`) -/
def insertIfNotExist (c : LruCache K V T) (key : K) (value : V) : Option (Bool × LruCache K V T) :=
  c.insertImpl sp ep key value false

/-- mirrors lru.rs:382-390 (`remove`) -/
def remove (c : LruCache K V T) (key : K) : Option (Option V × LruCache K V T) :=
  match c.map.lookup key with
  | some v => do
    let records ← Trace.delete c.records v.record
    pure (some v.value, { c with
      map := c.map.erase key
      records := records
      sizePolicy := sp.onRemove c.sizePolicy key v.value })
  | none => some (none, c)

/-- mirrors lru.rs:392-401 (`get`) -/
def get (c : LruCache K V T) (key : K) : Option (Option V × LruCache K V T) :=
  match c.map.lookup key with
  | some v => do
    let (trace, records) ← c.trace.maybePromote c.records v.record
    pure (some v.value, { c with trace := trace, records := records })
  | none => some (none, c)

/-- mirrors lru.rs:414-423 (`get_mut`), with the caller's write `f` through the
reference it returns. -/
def getMut (c : LruCache K V T) (key : K) (f : V → V) : Option (Option V × LruCache K V T) :=
  match c.map.lookup key with
  | some v => do
    let (trace, records) ← c.trace.maybePromote c.records v.record
    pure (some v.value, { c with
      trace := trace
      records := records
      map := c.map.insert key { v with value := f v.value } })
  | none => some (none, c)

/-- The loop of lru.rs:440-446 (`resize`): pop the tail while the size is over `newCap`. -/
def shrink (c : LruCache K V T) (newCap : Nat) : Option (LruCache K V T) :=
  if sp.current c.sizePolicy > newCap then
    match h : c.popTail sp with
    | some c' => shrink c' newCap
    | none => none
  else some c
termination_by c.map.entries.length
decreasing_by exact length_popTail sp h

/-- mirrors lru.rs:436-451 (`resize`): the capacity is at least 1. -/
def resize (c : LruCache K V T) (newCap : Nat) : Option (LruCache K V T) :=
  let newCap := if newCap = 0 then 1 else newCap
  if newCap < c.capacity ∧ sp.current c.sizePolicy > newCap then do
    let c ← c.shrink sp newCap
    pure { c with capacity := newCap }
  else some { c with capacity := newCap }

/-- mirrors lru.rs:267-272 (`clear`) -/
def clear (c : LruCache K V T) : Option (LruCache K V T) := do
  let records ← c.trace.clear c.records
  pure { c with map := ∅, records := records, sizePolicy := sp.onReset c.sizePolicy 0 }

/-- mirrors lru.rs:482-490 (`Drop for LruCache`), then the trace's own `Drop`: the heap
the cache leaves behind. -/
def drop (c : LruCache K V T) : Option (Heap (Record K)) := do
  let c ← c.clear sp
  c.trace.drop c.records

end LruCache

end Tikv.Util.Lru
