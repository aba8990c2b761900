import Tikv.Lib.HashMap
import Tikv.Lib.Trace
import Tikv.Mvcc.Txn
import Tikv.Storage.TxnStatusCache
import Tikv.TxnTypes.Key

/-!
# The resolved-ts resolver (`resolved_ts::resolver`)

A resolver tracks the locks of one region to find a timestamp below every
commit still to come. A normal lock is tracked twice: `locks_by_key` maps its
key to its `start_ts`, and `lock_ts_heap` maps each `start_ts` to the number
of keys locked at it and a sample key. Each tracked key is charged to a
memory quota. The first entry of the heap is the oldest normal transaction,
which bounds the resolved ts. Locks of large transactions are tracked by
`start_ts` only, and bounded through the transaction status cache, whose reads
are a parameter here.

A `MemoryQuota` is shared through an `Arc`; here it belongs to the resolver.

Results:
* `trackLock_of_tracked`, `trackLock_exceeded`: tracking a key tracked
  already changes neither map nor the quota, and a tracking that exceeds the
  quota changes neither map nor the quota.
* `resolverInv_step`: every call keeps the two maps consistent, each count
  exact and the quota in use equal to the sizes of the tracked keys; the
  invariant is split into the heap's (`HeapInv`) and the quota's
  (`QuotaInv`), each kept by a fresh insert and by an erase.
* `run_ok_of_index_le`: lock calls with indexes that do not go down run to
  the end.
* `resolver_consistent`: over every such run from a new resolver, the heap
  holds a `start_ts` exactly when some key is locked at it, with the number
  of such keys; the quota in use is the sum of their sizes; and the oldest
  normal transaction is the least `start_ts` of `locks_by_key`.
-/

namespace Tikv.ResolvedTs
open Tikv.Codec Tikv.TxnTypes Tikv.Storage

/-! ## The memory quota (`tikv_util::memory`) -/

/-- mirrors components/tikv_util/src/memory.rs:178 -/
structure MemoryQuotaExceeded where
  deriving DecidableEq, Repr

/-- mirrors components/tikv_util/src/memory.rs:27 -/
def MAX_MEMORY_ALLOC_SIZE : Nat := 2 ^ 48

/-- mirrors components/tikv_util/src/memory.rs:185-190 (`MemoryQuota`): `in_use`
is an `isize`. -/
structure MemoryQuota where
  inUse : Int
  capacity : Nat
  deriving DecidableEq, Repr

/-- An `isize` read as a `usize` (`as usize`). -/
def isizeAsUsize (v : Int) : Nat := (v % 2 ^ 64).toNat

namespace MemoryQuota

/-- mirrors components/tikv_util/src/memory.rs:226-233 (`MemoryQuota::new`),
with `adjust_capacity`. -/
def new (capacity : Nat) : MemoryQuota :=
  ⟨0, min capacity (2 ^ 63 - 1)⟩

/-- mirrors components/tikv_util/src/memory.rs:242-247 (`in_use`) -/
def inUseBytes (q : MemoryQuota) : Nat := (max q.inUse 0).toNat

/-- mirrors components/tikv_util/src/memory.rs:272-285 (`alloc`): a failed
allocation gives back what it added. -/
def alloc (q : MemoryQuota) (bytes : Nat) : Except MemoryQuotaExceeded MemoryQuota :=
  let capacity : Int := q.capacity
  let inUseBytes := q.inUse
  if bytes > isizeAsUsize (capacity - inUseBytes) ∨ bytes > MAX_MEMORY_ALLOC_SIZE then .error ⟨⟩
  else
    -- `fetch_add` returns the value before the addition
    let newInUseBytes := inUseBytes
    if (bytes : Int) > capacity - newInUseBytes then .error ⟨⟩
    else .ok { q with inUse := inUseBytes + bytes }

/-- mirrors components/tikv_util/src/memory.rs:287-302 (`free`) -/
def free (q : MemoryQuota) (bytes : Nat) : MemoryQuota :=
  if bytes > MAX_MEMORY_ALLOC_SIZE then q
  else
    let newInUseBytes := q.inUse - bytes
    if newInUseBytes < 0 then { q with inUse := newInUseBytes + min (-newInUseBytes) bytes }
    else { q with inUse := newInUseBytes }

theorem alloc_ok {q q' : MemoryQuota} {bytes : Nat} (h : q.alloc bytes = .ok q') :
    q' = { q with inUse := q.inUse + bytes } ∧ bytes ≤ MAX_MEMORY_ALLOC_SIZE := by
  unfold alloc at h
  dsimp only at h
  split at h
  · cases h
  · rename_i hfit
    split at h
    · cases h
    · cases h
      exact ⟨rfl, by omega⟩

/-- Freeing what is in use takes it off exactly. -/
theorem free_of_le {q : MemoryQuota} {bytes : Nat} (hmax : bytes ≤ MAX_MEMORY_ALLOC_SIZE)
    (hle : (bytes : Int) ≤ q.inUse) : (q.free bytes).inUse = q.inUse - bytes := by
  unfold free
  rw [if_neg (by omega)]
  dsimp only
  rw [if_neg (by omega)]

/-- Freeing what was just allocated gives the quota back as it was. -/
theorem free_alloc {q q' : MemoryQuota} {bytes : Nat} (h0 : 0 ≤ q.inUse)
    (h : q.alloc bytes = .ok q') : q'.free bytes = q := by
  obtain ⟨rfl, hmax⟩ := alloc_ok h
  unfold free
  rw [if_neg (by omega)]
  dsimp only
  rw [if_neg (by omega)]
  simp

end MemoryQuota

/-! ## The resolver -/

/-- mirrors components/resolved_ts/src/resolver.rs:56-61 (`TxnLocks`) -/
structure TxnLocks where
  lockCount : Nat
  sampleLock : Option Bytes
  deriving DecidableEq, Repr

/-- mirrors components/resolved_ts/src/resolver.rs:18-29 (`TsSource`) -/
inductive TsSource where
  | lock (txnLocks : TxnLocks)
  | memoryLock (key : Key)
  | pdTso
  | backupStream
  | cdc
  deriving DecidableEq, Repr

/-- mirrors components/resolved_ts/src/resolver.rs:110-115 (`LastAttempt`) -/
structure LastAttempt where
  success : Bool
  ts : TimeStamp
  reason : TsSource
  deriving DecidableEq, Repr

/-- mirrors components/resolved_ts/src/resolver.rs:78-108 (`Resolver`): the
shrink time, the read progress and the status cache are left out. -/
structure Resolver where
  regionId : Nat
  locksByKey : AList (fun _ : Bytes => TimeStamp)
  lockTsHeap : AList (fun _ : TimeStamp => TxnLocks)
  largeTxns : AList (fun _ : TimeStamp => TxnLocks)
  largeTxnKeyRepresentative : AList (fun _ : Bytes => TimeStamp)
  resolvedTs : TimeStamp
  trackedIndex : Nat
  minTs : TimeStamp
  stopped : Bool
  memoryQuota : MemoryQuota
  lastAttempt : Option LastAttempt

namespace Resolver

/-- mirrors components/resolved_ts/src/resolver.rs:185-206 (`with_read_progress`) -/
def new (regionId : Nat) (memoryQuota : MemoryQuota) : Resolver :=
  ⟨regionId, ∅, ∅, ∅, ∅, 0, 0, 0, false, memoryQuota, none⟩

/-- mirrors components/resolved_ts/src/resolver.rs:245-254 (`update_tracked_index`) -/
def updateTrackedIndex (r : Resolver) (index : Nat) : Except String Resolver :=
  if r.trackedIndex ≤ index then .ok { r with trackedIndex := index }
  else .error ("region " ++ toString r.regionId ++ ", tracked_index: " ++
    toString r.trackedIndex ++ ", incoming index: " ++ toString index)

/-- The optional index update that starts `track_lock` and `untrack_lock`. -/
def updateIndex (r : Resolver) : Option Nat → Except String Resolver
  | some index => r.updateTrackedIndex index
  | none => .ok r

/-- mirrors components/resolved_ts/src/resolver.rs:270-282 (`lock_heap_size`):
the key's bytes and a `TimeStamp`. -/
def lockHeapSize (key : Bytes) : Nat := key.length + 8

/-- mirrors components/resolved_ts/src/resolver.rs:336-363 (`track_normal_lock`) -/
def trackNormalLock (r : Resolver) (startTs : TimeStamp) (key : Bytes) :
    Resolver × Except MemoryQuotaExceeded Unit :=
  let bytes := lockHeapSize key
  match r.memoryQuota.alloc bytes with
  | .error e => (r, .error e)
  | .ok memoryQuota =>
    match r.locksByKey.lookup key with
    | some _ => ({ r with memoryQuota := memoryQuota.free bytes }, .ok ())
    | none =>
      let txnLocks := (r.lockTsHeap.lookup startTs).getD ⟨0, some key⟩
      ({ r with
        memoryQuota := memoryQuota
        lockTsHeap := r.lockTsHeap.insert startTs { txnLocks with lockCount := txnLocks.lockCount + 1 }
        locksByKey := r.locksByKey.insert key startTs }, .ok ())

/-- mirrors components/resolved_ts/src/resolver.rs:615-633 (`track_large_txn_lock`) -/
def trackLargeTxnLock (r : Resolver) (startTs : TimeStamp) (key : Bytes) : Resolver :=
  match r.largeTxns.lookup startTs with
  | some entry => { r with largeTxns := r.largeTxns.insert startTs { entry with lockCount := entry.lockCount + 1 } }
  | none =>
    { r with
      largeTxnKeyRepresentative := r.largeTxnKeyRepresentative.insert key startTs
      largeTxns := r.largeTxns.insert startTs ⟨1, some key⟩ }

/-- mirrors components/resolved_ts/src/resolver.rs:309-334 (`track_lock`) -/
def trackLock (r : Resolver) (startTs : TimeStamp) (key : Bytes) (index : Option Nat)
    (generation : Nat) : Except String (Resolver × Except MemoryQuotaExceeded Unit) := do
  let r ← r.updateIndex index
  if generation = 0 then pure (r.trackNormalLock startTs key)
  else pure (r.trackLargeTxnLock startTs key, .ok ())

/-- mirrors components/resolved_ts/src/resolver.rs:365-409 (`untrack_lock`);
the `debug_assert!` of a release build is left out. -/
def untrackLock (r : Resolver) (key : Bytes) (index : Option Nat) : Except String Resolver := do
  let r ← r.updateIndex index
  match r.locksByKey.lookup key with
  | some startTs =>
    let r := { r with
      locksByKey := r.locksByKey.erase key
      memoryQuota := r.memoryQuota.free (lockHeapSize key) }
    match r.lockTsHeap.lookup startTs with
    | some txnLocks =>
      let lockCount := if txnLocks.lockCount > 0 then txnLocks.lockCount - 1 else txnLocks.lockCount
      if lockCount = 0 then pure { r with lockTsHeap := r.lockTsHeap.erase startTs }
      else pure { r with lockTsHeap := r.lockTsHeap.insert startTs { txnLocks with lockCount } }
    | none => pure r
  | none =>
    match r.largeTxnKeyRepresentative.lookup key with
    | some startTs =>
      pure { r with
        largeTxnKeyRepresentative := r.largeTxnKeyRepresentative.erase key
        largeTxns := r.largeTxns.erase startTs }
    | none => pure r

/-- mirrors components/resolved_ts/src/resolver.rs:530-547 (`lookup_min_commit_ts`):
`txnStatus` is what the transaction status cache answers. -/
def lookupMinCommitTs (txnStatus : TimeStamp → Option TxnState) (startTs : TimeStamp) :
    Option TimeStamp :=
  match txnStatus startTs with
  | none => some startTs
  | some (.ongoing minCommitTs) => some minCommitTs
  | some (.committed _) | some .rolledBack => none

/-- The first entry of `lock_ts_heap` (resolver.rs:583-587). -/
def oldestNormalTxn (r : Resolver) : Option (TimeStamp × TxnLocks) :=
  r.lockTsHeap.minEntry

/-- mirrors components/resolved_ts/src/resolver.rs:582-610 (`oldest_transaction`):
`prev` asserts its timestamp is above 0. -/
def oldestTransaction (r : Resolver) (txnStatus : TimeStamp → Option TxnState) :
    Except String (Option (TimeStamp × TxnLocks)) := do
  let large ← (r.largeTxns.entries.filterMap fun e =>
      (lookupMinCommitTs txnStatus e.1).map (·, e.2)).mapM fun (ts, txnLocks) =>
    match Mvcc.TimeStamp.prev ts with
    | .ok ts => .ok (ts, txnLocks)
    | .error _ => .error "assertion failed: self.0 > 0"
  let oldestLargeTxn := large.argmin Prod.fst
  pure <| match r.oldestNormalTxn, oldestLargeTxn with
    | some (ts1, txnLocks1), some (ts2, txnLocks2) =>
      if ts1 < ts2 then some (ts1, txnLocks1) else some (ts2, txnLocks2)
    | some (ts, txnLocks), none => some (ts, txnLocks)
    | none, some (ts, txnLocks) => some (ts, txnLocks)
    | none, none => none

/-- mirrors components/resolved_ts/src/resolver.rs:415-486 (`resolve`), without
the shrinking, the metrics and the publication to the read progress. -/
def resolve (r : Resolver) (txnStatus : TimeStamp → Option TxnState) (minTs : TimeStamp)
    (source : TsSource) : Except String (Resolver × TimeStamp) := do
  if r.stopped then return (r, r.resolvedTs)
  let minLock ← r.oldestTransaction txnStatus
  let hasLock := minLock.isSome
  let minTxnTs := (minLock.map (·.1)).getD minTs
  let newResolvedTs := min minTxnTs minTs
  let reason := match minLock with
    | some (lockTs, txnLocks) => if lockTs < minTs then TsSource.lock txnLocks else source
    | none => source
  let lastAttempt : LastAttempt := ⟨!(r.resolvedTs ≥ newResolvedTs), newResolvedTs, reason⟩
  let resolvedTs := max r.resolvedTs newResolvedTs
  let newMinTs := if hasLock then newResolvedTs else minTs
  pure ({ r with
    lastAttempt := some lastAttempt
    resolvedTs := resolvedTs
    minTs := max r.minTs newMinTs }, resolvedTs)

end Resolver

/-- The calls on a resolver. -/
inductive ResolverCall where
  | trackLock (startTs : TimeStamp) (key : Bytes) (index : Option Nat) (generation : Nat)
  | untrackLock (key : Bytes) (index : Option Nat)
  | resolve (minTs : TimeStamp) (source : TsSource)

/-- The raft index a call brings, if any. -/
def ResolverCall.index : ResolverCall → Option Nat
  | .trackLock _ _ index _ => index
  | .untrackLock _ index => index
  | .resolve _ _ => none

/-- Whether the call is a `resolve`. -/
def ResolverCall.isResolve : ResolverCall → Bool
  | .resolve _ _ => true
  | _ => false

/-- One call on the resolver; a failed tracking leaves the resolver as it
is, a panic ends the run. -/
def Resolver.step (txnStatus : TimeStamp → Option TxnState) (r : Resolver) :
    ResolverCall → Except String Resolver
  | .trackLock startTs key index generation =>
    (r.trackLock startTs key index generation).map Prod.fst
  | .untrackLock key index => r.untrackLock key index
  | .resolve minTs source => (r.resolve txnStatus minTs source).map Prod.fst

/-! ## The bookkeeping invariant -/

section Invariant

open Resolver

/-- The heap of start timestamps agrees with the keys: it holds a `start_ts`
exactly when some key is locked at it, and counts those keys. -/
structure HeapInv (locksByKey : AList (fun _ : Bytes => TimeStamp))
    (lockTsHeap : AList (fun _ : TimeStamp => TxnLocks)) : Prop where
  mem_iff : ∀ ts, ts ∈ lockTsHeap ↔ 0 < locksByKey.countVal ts
  lockCount_eq : ∀ ts txnLocks, lockTsHeap.lookup ts = some txnLocks →
    txnLocks.lockCount = locksByKey.countVal ts

/-- The quota in use is what the tracked keys were charged, each a size the
quota accepts. -/
structure QuotaInv (locksByKey : AList (fun _ : Bytes => TimeStamp))
    (memoryQuota : MemoryQuota) : Prop where
  size_le : ∀ key ∈ locksByKey, lockHeapSize key ≤ MAX_MEMORY_ALLOC_SIZE
  inUse_eq : memoryQuota.inUse = locksByKey.sumKeys lockHeapSize

/-- The normal locks of a resolver are tracked consistently. -/
structure ResolverInv (r : Resolver) : Prop where
  heap : HeapInv r.locksByKey r.lockTsHeap
  quota : QuotaInv r.locksByKey r.memoryQuota

variable {locksByKey : AList (fun _ : Bytes => TimeStamp)}
  {lockTsHeap : AList (fun _ : TimeStamp => TxnLocks)} {memoryQuota : MemoryQuota}
  {key : Bytes} {startTs : TimeStamp}

namespace HeapInv

/-- The count `or_insert_with` starts from is the number of keys locked at
the timestamp. -/
theorem lockCount_getD (h : HeapInv locksByKey lockTsHeap) (ts : TimeStamp)
    (sample : Option Bytes) :
    ((lockTsHeap.lookup ts).getD ⟨0, sample⟩).lockCount = locksByKey.countVal ts := by
  cases hl : lockTsHeap.lookup ts with
  | some txnLocks => exact h.lockCount_eq ts txnLocks hl
  | none =>
    have hts : ¬ 0 < locksByKey.countVal ts := (h.mem_iff ts).not.mp (AList.lookup_eq_none.mp hl)
    simp only [Option.getD_none]
    omega

/-- Tracking a key locked nowhere yet: one key more at `startTs`. -/
theorem insert (h : HeapInv locksByKey lockTsHeap) (hk : key ∉ locksByKey)
    {txnLocks : TxnLocks} (hc : txnLocks.lockCount = locksByKey.countVal startTs) :
    HeapInv (locksByKey.insert key startTs)
      (lockTsHeap.insert startTs { txnLocks with lockCount := txnLocks.lockCount + 1 }) where
  mem_iff ts := by
    rw [AList.mem_insert, AList.countVal_insert hk, h.mem_iff ts]
    by_cases hts : ts = startTs
    · simp [hts]
    · simp [hts, Ne.symm hts]
  lockCount_eq ts txnLocks' hl := by
    rw [AList.countVal_insert hk]
    by_cases hts : ts = startTs
    · subst hts
      rw [AList.lookup_insert] at hl
      cases hl
      simp [hc]
    · rw [AList.lookup_insert_ne hts] at hl
      rw [if_neg (Ne.symm hts), Nat.add_zero]
      exact h.lockCount_eq ts txnLocks' hl

/-- Untracking a key locked at `startTs`: one key less there, and the
timestamp leaves the heap with its last key. -/
theorem erase (h : HeapInv locksByKey lockTsHeap) (hk : locksByKey.lookup key = some startTs)
    {txnLocks : TxnLocks} (hl : lockTsHeap.lookup startTs = some txnLocks) :
    HeapInv (locksByKey.erase key)
      (if txnLocks.lockCount ≤ 1 then lockTsHeap.erase startTs
        else lockTsHeap.insert startTs { txnLocks with lockCount := txnLocks.lockCount - 1 }) := by
  have hne : ∀ ts, ts ≠ startTs → (locksByKey.erase key).countVal ts = locksByKey.countVal ts :=
    fun ts hts => by simp [AList.countVal_erase hk ts, Ne.symm hts]
  have hself : (locksByKey.erase key).countVal startTs + 1 = locksByKey.countVal startTs := by
    simp [AList.countVal_erase hk startTs]
  have hc := h.lockCount_eq startTs txnLocks hl
  split_ifs with hle
  · -- the last key at `startTs` goes, and the timestamp with it
    constructor
    · intro ts
      by_cases hts : ts = startTs
      · subst hts
        simp only [AList.mem_erase, ne_eq, not_true_eq_false, false_and, false_iff]
        omega
      · rw [AList.mem_erase, h.mem_iff ts, hne ts hts]
        simp [hts]
    · intro ts txnLocks' hl'
      by_cases hts : ts = startTs
      · subst hts
        simp [AList.lookup_erase] at hl'
      · rw [AList.lookup_erase_ne hts] at hl'
        rw [hne ts hts]
        exact h.lockCount_eq ts txnLocks' hl'
  · -- keys remain at `startTs`
    constructor
    · intro ts
      rw [AList.mem_insert]
      by_cases hts : ts = startTs
      · subst hts
        simp only [true_or, true_iff]
        omega
      · rw [h.mem_iff ts, hne ts hts]
        simp [hts]
    · intro ts txnLocks' hl'
      by_cases hts : ts = startTs
      · subst hts
        rw [AList.lookup_insert] at hl'
        cases hl'
        simp only
        omega
      · rw [AList.lookup_insert_ne hts] at hl'
        rw [hne ts hts]
        exact h.lockCount_eq ts txnLocks' hl'

end HeapInv

namespace QuotaInv

theorem inUse_nonneg (h : QuotaInv locksByKey memoryQuota) : 0 ≤ memoryQuota.inUse := by
  rw [h.inUse_eq]
  omega

/-- Tracking a new key charges its size. -/
theorem insert (h : QuotaInv locksByKey memoryQuota) (hk : key ∉ locksByKey) {q : MemoryQuota}
    (hq : memoryQuota.alloc (lockHeapSize key) = .ok q) :
    QuotaInv (locksByKey.insert key startTs) q := by
  obtain ⟨rfl, hmax⟩ := MemoryQuota.alloc_ok hq
  constructor
  · intro key' hk'
    rcases (AList.mem_insert _).mp hk' with rfl | hk'
    · exact hmax
    · exact h.size_le key' hk'
  · show memoryQuota.inUse + _ = _
    rw [AList.sumKeys_insert hk, h.inUse_eq]
    push_cast
    omega

/-- Untracking a key gives its size back. -/
theorem erase (h : QuotaInv locksByKey memoryQuota) (hk : key ∈ locksByKey) :
    QuotaInv (locksByKey.erase key) (memoryQuota.free (lockHeapSize key)) := by
  have hsum := AList.sumKeys_erase (f := lockHeapSize) hk
  have hle : (lockHeapSize key : Int) ≤ memoryQuota.inUse := by
    rw [h.inUse_eq, hsum]
    push_cast
    omega
  constructor
  · intro key' hk'
    exact h.size_le key' (AList.mem_erase.mp hk').2
  · rw [MemoryQuota.free_of_le (h.size_le key hk) hle, h.inUse_eq, hsum]
    push_cast
    omega

end QuotaInv

end Invariant

/-! ## What each call does to the normal locks -/

namespace Resolver

variable {r r₀ r' : Resolver} {startTs : TimeStamp} {key : Bytes} {index : Option Nat}

theorem updateIndex_ok (h : r.updateIndex index = .ok r') :
    r' = { r with trackedIndex := index.getD r.trackedIndex } := by
  cases index with
  | none =>
    cases h
    rfl
  | some i =>
    rw [updateIndex, updateTrackedIndex] at h
    split at h
    · cases h
      rfl
    · cases h

theorem updateIndex_of_le (h : ∀ i, index = some i → r.trackedIndex ≤ i) :
    r.updateIndex index = .ok { r with trackedIndex := index.getD r.trackedIndex } := by
  cases index with
  | none => rfl
  | some i => exact if_pos (h i rfl)

/-- The three ways `track_normal_lock` goes: the quota refuses, the key is
tracked already, or the key is new. -/
theorem trackNormalLock_cases (r : Resolver) (startTs : TimeStamp) (key : Bytes) :
    (∃ e, r.memoryQuota.alloc (lockHeapSize key) = .error e ∧
      r.trackNormalLock startTs key = (r, .error e)) ∨
    (∃ q t, r.memoryQuota.alloc (lockHeapSize key) = .ok q ∧ r.locksByKey.lookup key = some t ∧
      r.trackNormalLock startTs key =
        ({ r with memoryQuota := q.free (lockHeapSize key) }, .ok ())) ∨
    (∃ q, r.memoryQuota.alloc (lockHeapSize key) = .ok q ∧ r.locksByKey.lookup key = none ∧
      r.trackNormalLock startTs key = ({ r with
        memoryQuota := q
        lockTsHeap := r.lockTsHeap.insert startTs
          { (r.lockTsHeap.lookup startTs).getD ⟨0, some key⟩ with
            lockCount := ((r.lockTsHeap.lookup startTs).getD ⟨0, some key⟩).lockCount + 1 }
        locksByKey := r.locksByKey.insert key startTs }, .ok ())) := by
  dsimp only [trackNormalLock]
  cases hq : r.memoryQuota.alloc (lockHeapSize key) with
  | error e => exact .inl ⟨e, rfl, rfl⟩
  | ok q =>
    cases hk : r.locksByKey.lookup key with
    | some t => exact .inr (.inl ⟨q, t, rfl, rfl, rfl⟩)
    | none => exact .inr (.inr ⟨q, rfl, rfl, rfl⟩)

theorem trackedIndex_trackNormalLock (r : Resolver) (startTs : TimeStamp) (key : Bytes) :
    (r.trackNormalLock startTs key).1.trackedIndex = r.trackedIndex := by
  rcases trackNormalLock_cases r startTs key with ⟨e, -, h⟩ | ⟨q, t, -, -, h⟩ | ⟨q, -, -, h⟩ <;>
    rw [h]

/-- Large transactions are tracked apart from the normal locks. -/
theorem trackLargeTxnLock_frame (r : Resolver) (startTs : TimeStamp) (key : Bytes) :
    (r.trackLargeTxnLock startTs key).locksByKey = r.locksByKey ∧
      (r.trackLargeTxnLock startTs key).lockTsHeap = r.lockTsHeap ∧
      (r.trackLargeTxnLock startTs key).memoryQuota = r.memoryQuota ∧
      (r.trackLargeTxnLock startTs key).trackedIndex = r.trackedIndex := by
  unfold trackLargeTxnLock
  split <;> exact ⟨rfl, rfl, rfl, rfl⟩

theorem trackLock_ok {generation : Nat} {res : Except MemoryQuotaExceeded Unit}
    (h : r.trackLock startTs key index generation = .ok (r', res)) :
    ∃ r₀, r.updateIndex index = .ok r₀ ∧
      (generation = 0 ∧ r₀.trackNormalLock startTs key = (r', res) ∨
        generation ≠ 0 ∧ r₀.trackLargeTxnLock startTs key = r' ∧ res = .ok ()) := by
  obtain ⟨r₀, hidx, h⟩ := ExceptState.bind_eq_ok h
  refine ⟨r₀, hidx, ?_⟩
  by_cases hg : generation = 0
  · rw [if_pos hg] at h
    exact .inl ⟨hg, Except.ok.inj h⟩
  · rw [if_neg hg] at h
    obtain ⟨h₁, h₂⟩ := Prod.mk.inj (Except.ok.inj h)
    exact .inr ⟨hg, h₁, h₂.symm⟩

/-- `untrack_lock` of a key locked at `startTs`, whose timestamp has
`txnLocks` in the heap: the timestamp leaves the heap with its last key. -/
theorem untrackLock_of_locked {txnLocks : TxnLocks} (hidx : r.updateIndex index = .ok r₀)
    (hk : r₀.locksByKey.lookup key = some startTs)
    (hl : r₀.lockTsHeap.lookup startTs = some txnLocks) :
    r.untrackLock key index = .ok { r₀ with
      locksByKey := r₀.locksByKey.erase key
      memoryQuota := r₀.memoryQuota.free (lockHeapSize key)
      lockTsHeap := if txnLocks.lockCount ≤ 1 then r₀.lockTsHeap.erase startTs
        else r₀.lockTsHeap.insert startTs { txnLocks with lockCount := txnLocks.lockCount - 1 } } := by
  simp only [untrackLock, hidx, hk, hl, bind, Except.bind]
  -- the count is decremented when positive, and the entry goes at zero
  by_cases hle : txnLocks.lockCount ≤ 1
  · rw [if_pos hle, if_pos (by split <;> omega)]
    rfl
  · rw [if_neg hle, if_pos (show txnLocks.lockCount > 0 by omega), if_neg (by omega)]
    rfl

/-- `untrack_lock` of a key that holds no normal lock leaves the normal
locks and the quota alone. -/
theorem untrackLock_of_unlocked (hidx : r.updateIndex index = .ok r₀)
    (hk : r₀.locksByKey.lookup key = none) (h : r.untrackLock key index = .ok r') :
    r'.locksByKey = r₀.locksByKey ∧ r'.lockTsHeap = r₀.lockTsHeap ∧
      r'.memoryQuota = r₀.memoryQuota := by
  simp only [untrackLock, hidx, hk, bind, Except.bind] at h
  split at h <;> cases h <;> exact ⟨rfl, rfl, rfl⟩

/-- Past the index update, `untrack_lock` always succeeds. -/
theorem untrackLock_of_updateIndex (hidx : r.updateIndex index = .ok r₀) :
    ∃ r', r.untrackLock key index = .ok r' ∧ r'.trackedIndex = r₀.trackedIndex := by
  simp only [untrackLock, hidx, bind, Except.bind]
  -- every branch returns `r₀` with other fields changed
  repeat' split
  all_goals exact ⟨_, rfl, rfl⟩

/-- `resolve` moves the resolved ts only. -/
theorem resolve_frame {txnStatus : TimeStamp → Option TxnState} {minTs ts : TimeStamp}
    {source : TsSource} (h : r.resolve txnStatus minTs source = .ok (r', ts)) :
    r'.locksByKey = r.locksByKey ∧ r'.lockTsHeap = r.lockTsHeap ∧
      r'.memoryQuota = r.memoryQuota := by
  simp only [resolve] at h
  split at h
  · cases h
    exact ⟨rfl, rfl, rfl⟩
  · obtain ⟨minLock, -, h⟩ := ExceptState.bind_eq_ok h
    cases h
    exact ⟨rfl, rfl, rfl⟩

/-- Tracking a tracked key leaves the resolver as it is: the allocation is
given back. -/
theorem trackNormalLock_tracked {t : TimeStamp} (h0 : 0 ≤ r.memoryQuota.inUse)
    (hk : r.locksByKey.lookup key = some t) : (r.trackNormalLock startTs key).1 = r := by
  rcases trackNormalLock_cases r startTs key with ⟨e, -, hc⟩ | ⟨q, t', hq, -, hc⟩ | ⟨q, -, hk', -⟩
  · rw [hc]
  · rw [hc]
    simp only [MemoryQuota.free_alloc h0 hq]
  · cases hk'.symm.trans hk

/-- A tracking the quota refuses leaves the resolver as it is. -/
theorem trackNormalLock_exceeded {e : MemoryQuotaExceeded}
    (h : (r.trackNormalLock startTs key).2 = .error e) : (r.trackNormalLock startTs key).1 = r := by
  rcases trackNormalLock_cases r startTs key with ⟨e', -, hc⟩ | ⟨q, t, -, -, hc⟩ | ⟨q, -, -, hc⟩ <;>
    rw [hc] at h ⊢
  all_goals cases h

/-- Tracking a tracked key again changes neither map nor the quota: the key
keeps its first `start_ts` and is counted once. -/
theorem trackLock_of_tracked {t : TimeStamp} {res : Except MemoryQuotaExceeded Unit}
    (h0 : 0 ≤ r.memoryQuota.inUse) (hk : r.locksByKey.lookup key = some t)
    (ht : r.trackLock startTs key index 0 = .ok (r', res)) :
    r'.locksByKey = r.locksByKey ∧ r'.lockTsHeap = r.lockTsHeap ∧
      r'.memoryQuota = r.memoryQuota := by
  obtain ⟨r₀, hidx, ⟨-, hn⟩ | ⟨hg, -⟩⟩ := trackLock_ok ht
  · have hr₀ := updateIndex_ok hidx
    have hr' : r' = r₀ := (congrArg Prod.fst hn).symm.trans
      (trackNormalLock_tracked (by rw [hr₀]; exact h0) (by rw [hr₀]; exact hk))
    rw [hr', hr₀]
    exact ⟨rfl, rfl, rfl⟩
  · exact absurd rfl hg

/-- A tracking the quota refuses changes neither map nor the quota. -/
theorem trackLock_exceeded {e : MemoryQuotaExceeded}
    (ht : r.trackLock startTs key index 0 = .ok (r', .error e)) :
    r'.locksByKey = r.locksByKey ∧ r'.lockTsHeap = r.lockTsHeap ∧
      r'.memoryQuota = r.memoryQuota := by
  obtain ⟨r₀, hidx, ⟨-, hn⟩ | ⟨hg, -⟩⟩ := trackLock_ok ht
  · have hr' : r' = r₀ :=
      (congrArg Prod.fst hn).symm.trans (trackNormalLock_exceeded (congrArg Prod.snd hn))
    rw [hr', updateIndex_ok hidx]
    exact ⟨rfl, rfl, rfl⟩
  · exact absurd rfl hg

/-- Past the index update, tracking a lock succeeds and leaves the index so. -/
theorem step_ok_of_index_le (txnStatus : TimeStamp → Option TxnState) {c : ResolverCall}
    (hc : c.isResolve = false) (hi : ∀ i, c.index = some i → r.trackedIndex ≤ i) :
    ∃ r', Resolver.step txnStatus r c = .ok r' ∧ r'.trackedIndex = c.index.getD r.trackedIndex := by
  cases c with
  | trackLock startTs key index generation =>
    have hidx : r.updateIndex index = .ok { r with trackedIndex := index.getD r.trackedIndex } :=
      updateIndex_of_le hi
    by_cases hg : generation = 0
    · refine ⟨(({ r with trackedIndex := index.getD r.trackedIndex } : Resolver).trackNormalLock
        startTs key).1, ?_, trackedIndex_trackNormalLock _ startTs key⟩
      simp only [Resolver.step, trackLock, hidx, bind, Except.bind, if_pos hg]
      rfl
    · refine ⟨({ r with trackedIndex := index.getD r.trackedIndex } : Resolver).trackLargeTxnLock
        startTs key, ?_, (trackLargeTxnLock_frame _ startTs key).2.2.2⟩
      simp only [Resolver.step, trackLock, hidx, bind, Except.bind, if_neg hg]
      rfl
  | untrackLock key index => exact untrackLock_of_updateIndex (updateIndex_of_le hi)
  | resolve minTs source => cases hc

/-- Lock calls whose indexes do not go down, from indexes not below the
tracked one, run to the end. -/
theorem run_ok_of_index_le (txnStatus : TimeStamp → Option TxnState) :
    ∀ {calls : List ResolverCall} {r : Resolver}, (∀ c ∈ calls, c.isResolve = false) →
      (calls.filterMap ResolverCall.index).Pairwise (· ≤ ·) →
      (∀ i ∈ calls.filterMap ResolverCall.index, r.trackedIndex ≤ i) →
      ∃ r', Trace.run (Resolver.step txnStatus) r calls = .ok r'
  | [], r, _, _, _ => ⟨r, rfl⟩
  | c :: calls, r, hc, hs, hi => by
    obtain ⟨r₁, h₁, hidx₁⟩ :=
      step_ok_of_index_le txnStatus (hc c (by simp)) fun i h => hi i (by simp [h])
    -- the next indexes are not below the one this call brings
    have hi₁ : ∀ i ∈ calls.filterMap ResolverCall.index, r₁.trackedIndex ≤ i := by
      intro i hmem
      rw [hidx₁]
      cases hci : c.index with
      | none => exact hi i (by simp [hci, hmem])
      | some j =>
        rw [List.filterMap_cons, hci, List.pairwise_cons] at hs
        exact hs.1 i hmem
    have hs₁ : (calls.filterMap ResolverCall.index).Pairwise (· ≤ ·) := by
      rw [List.filterMap_cons] at hs
      split at hs
      · exact hs
      · exact (List.pairwise_cons.mp hs).2
    obtain ⟨r', h'⟩ := run_ok_of_index_le txnStatus (fun c' hc' => hc c' (by simp [hc'])) hs₁ hi₁
    exact ⟨r', by rw [Trace.run_cons, h₁]; exact h'⟩

end Resolver

/-! ## Every run keeps the invariant -/

section Runs

variable {r r₀ r' : Resolver}

/-- A call that keeps both maps and the quota keeps the invariant. -/
theorem ResolverInv.frame (h : ResolverInv r) (hk : r'.locksByKey = r.locksByKey)
    (hh : r'.lockTsHeap = r.lockTsHeap) (hq : r'.memoryQuota = r.memoryQuota) : ResolverInv r' := by
  obtain ⟨hheap, hquota⟩ := h
  rw [← hk, ← hh] at hheap
  rw [← hk, ← hq] at hquota
  exact ⟨hheap, hquota⟩

theorem ResolverInv.updateIndex {index : Option Nat} (h : ResolverInv r)
    (hidx : r.updateIndex index = .ok r₀) : ResolverInv r₀ := by
  rw [Resolver.updateIndex_ok hidx]
  exact h.frame rfl rfl rfl

theorem ResolverInv.trackNormalLock (h : ResolverInv r) (startTs : TimeStamp) (key : Bytes) :
    ResolverInv (r.trackNormalLock startTs key).1 := by
  rcases Resolver.trackNormalLock_cases r startTs key with
    ⟨e, -, ht⟩ | ⟨q, t, hq, -, ht⟩ | ⟨q, hq, hk, ht⟩
  · -- the quota refused
    rw [ht]
    exact h
  · -- tracked already: the allocation is given back
    rw [ht]
    exact h.frame rfl rfl (MemoryQuota.free_alloc h.quota.inUse_nonneg hq)
  · -- a new key
    rw [ht]
    have hnot : key ∉ r.locksByKey := AList.lookup_eq_none.mp hk
    exact ⟨h.heap.insert hnot (h.heap.lockCount_getD startTs (some key)), h.quota.insert hnot hq⟩

theorem ResolverInv.untrackLock {key : Bytes} {index : Option Nat} (h : ResolverInv r)
    (hu : r.untrackLock key index = .ok r') : ResolverInv r' := by
  obtain ⟨r₀, hidx⟩ : ∃ r₀, r.updateIndex index = .ok r₀ := by
    cases hidx : r.updateIndex index with
    | ok r₀ => exact ⟨r₀, rfl⟩
    | error e => simp [Resolver.untrackLock, hidx, bind, Except.bind] at hu
  have h₀ := h.updateIndex hidx
  cases hk : r₀.locksByKey.lookup key with
  | none =>
    obtain ⟨h₁, h₂, h₃⟩ := Resolver.untrackLock_of_unlocked hidx hk hu
    exact h₀.frame h₁ h₂ h₃
  | some startTs =>
    -- the key's timestamp is in the heap, as the invariant says
    have hmem : startTs ∈ r₀.lockTsHeap :=
      (h₀.heap.mem_iff startTs).mpr (AList.countVal_pos_iff.mpr ⟨key, hk⟩)
    obtain ⟨txnLocks, hl⟩ := Option.isSome_iff_exists.mp (AList.lookup_isSome.mpr hmem)
    rw [Resolver.untrackLock_of_locked hidx hk hl] at hu
    cases hu
    exact ⟨h₀.heap.erase hk hl, h₀.quota.erase (AList.lookup_isSome.mp (by simp [hk]))⟩

/-- Tracking a key that no normal lock holds, when the quota accepts it:
the key is locked at its `start_ts`, counted once more there, and charged its
size. -/
theorem ResolverInv.trackLock_untracked {startTs : TimeStamp} {key : Bytes} {index : Option Nat}
    (h : ResolverInv r) (hk : r.locksByKey.lookup key = none)
    (ht : r.trackLock startTs key index 0 = .ok (r', .ok ())) :
    r'.locksByKey = r.locksByKey.insert key startTs ∧
      (r'.lockTsHeap.lookup startTs).map TxnLocks.lockCount = some (r.locksByKey.countVal startTs + 1) ∧
      r'.memoryQuota.inUse = r.memoryQuota.inUse + Resolver.lockHeapSize key := by
  obtain ⟨r₀, hidx, ⟨-, hn⟩ | ⟨hg, -⟩⟩ := Resolver.trackLock_ok ht
  · have hr₀ := Resolver.updateIndex_ok hidx
    have h₀ := h.updateIndex hidx
    rcases Resolver.trackNormalLock_cases r₀ startTs key with
      ⟨e, -, hc⟩ | ⟨q, t, -, hk', -⟩ | ⟨q, hq, -, hc⟩
    · -- a refused allocation answers an error
      rw [hc] at hn
      cases (Prod.mk.inj hn).2
    · -- the key was tracked after all
      rw [hr₀] at hk'
      cases hk.symm.trans hk'
    · rw [hc] at hn
      obtain ⟨rfl, -⟩ := Prod.mk.inj hn
      obtain ⟨rfl, -⟩ := MemoryQuota.alloc_ok hq
      refine ⟨by rw [hr₀], ?_, by rw [hr₀]⟩
      rw [AList.lookup_insert, Option.map_some, h₀.heap.lockCount_getD startTs (some key), hr₀]
  · exact absurd rfl hg

/-- Untracking a tracked key removes it and gives its size back. -/
theorem ResolverInv.untrackLock_tracked {key : Bytes} {index : Option Nat} {t : TimeStamp}
    (h : ResolverInv r) (hk : r.locksByKey.lookup key = some t) (hu : r.untrackLock key index = .ok r') :
    r'.locksByKey = r.locksByKey.erase key ∧
      r'.memoryQuota.inUse = r.memoryQuota.inUse - Resolver.lockHeapSize key := by
  obtain ⟨r₀, hidx⟩ : ∃ r₀, r.updateIndex index = .ok r₀ := by
    cases hidx : r.updateIndex index with
    | ok r₀ => exact ⟨r₀, rfl⟩
    | error e => simp [Resolver.untrackLock, hidx, bind, Except.bind] at hu
  have hr₀ := Resolver.updateIndex_ok hidx
  have h₀ := h.updateIndex hidx
  have hk₀ : r₀.locksByKey.lookup key = some t := by rw [hr₀]; exact hk
  -- the key's timestamp is in the heap, as the invariant says
  have hmem : t ∈ r₀.lockTsHeap := (h₀.heap.mem_iff t).mpr (AList.countVal_pos_iff.mpr ⟨key, hk₀⟩)
  obtain ⟨txnLocks, hl⟩ := Option.isSome_iff_exists.mp (AList.lookup_isSome.mpr hmem)
  rw [Resolver.untrackLock_of_locked hidx hk₀ hl] at hu
  cases hu
  have hkey : key ∈ r₀.locksByKey := AList.lookup_isSome.mp (by simp [hk₀])
  have hsum := AList.sumKeys_erase (f := Resolver.lockHeapSize) hkey
  have hle : (Resolver.lockHeapSize key : Int) ≤ r₀.memoryQuota.inUse := by
    rw [h₀.quota.inUse_eq, hsum]
    push_cast
    omega
  refine ⟨by rw [hr₀], ?_⟩
  rw [MemoryQuota.free_of_le (h₀.quota.size_le key hkey) hle, hr₀]

/-- Every call keeps the two maps consistent, each count exact and the quota
in use equal to the sizes of the tracked keys. -/
theorem resolverInv_step {txnStatus : TimeStamp → Option TxnState} {c : ResolverCall}
    (h : ResolverInv r) (hs : Resolver.step txnStatus r c = .ok r') : ResolverInv r' := by
  cases c with
  | trackLock startTs key index generation =>
    obtain ⟨⟨r₁, res⟩, ht, rfl⟩ := ExceptState.map_eq_ok hs
    obtain ⟨r₀, hidx, ⟨-, hn⟩ | ⟨-, hl, -⟩⟩ := Resolver.trackLock_ok ht
    · have h₁ := (h.updateIndex hidx).trackNormalLock startTs key
      rwa [hn] at h₁
    · obtain ⟨h₁, h₂, h₃, -⟩ := Resolver.trackLargeTxnLock_frame r₀ startTs key
      rw [hl] at h₁ h₂ h₃
      exact (h.updateIndex hidx).frame h₁ h₂ h₃
  | untrackLock key index => exact h.untrackLock hs
  | resolve minTs source =>
    obtain ⟨⟨r₁, ts⟩, hr, rfl⟩ := ExceptState.map_eq_ok hs
    obtain ⟨h₁, h₂, h₃⟩ := Resolver.resolve_frame hr
    exact h.frame h₁ h₂ h₃

theorem resolverInv_new (regionId capacity : Nat) :
    ResolverInv (Resolver.new regionId (MemoryQuota.new capacity)) where
  heap := ⟨fun ts => by simp [Resolver.new, AList.countVal], fun ts txnLocks h => by
    simp [Resolver.new] at h⟩
  quota := ⟨fun key hk => by simp [Resolver.new] at hk, rfl⟩

theorem resolverInv_run {txnStatus : TimeStamp → Option TxnState} {regionId capacity : Nat}
    {calls : List ResolverCall}
    (h : Trace.run (Resolver.step txnStatus) (Resolver.new regionId (MemoryQuota.new capacity))
      calls = .ok r) : ResolverInv r :=
  Trace.run_induction (P := fun r _ => ResolverInv r) (resolverInv_new regionId capacity)
    (fun _ _ _ _ hi hs => resolverInv_step hi hs) h

/-- The heap holds a `start_ts` exactly when some key is locked at it. -/
theorem ResolverInv.mem_heap_iff (h : ResolverInv r) (ts : TimeStamp) :
    ts ∈ r.lockTsHeap ↔ ∃ key, r.locksByKey.lookup key = some ts :=
  (h.heap.mem_iff ts).trans AList.countVal_pos_iff

/-- The oldest normal transaction is the least `start_ts` of the keys. -/
theorem ResolverInv.oldest_iff (h : ResolverInv r) (ts : TimeStamp) :
    r.oldestNormalTxn.map Prod.fst = some ts ↔ (∃ key, r.locksByKey.lookup key = some ts) ∧
      ∀ key ts', r.locksByKey.lookup key = some ts' → ts ≤ ts' := by
  rw [Option.map_eq_some_iff]
  constructor
  · rintro ⟨⟨ts, txnLocks⟩, hmin, rfl⟩
    obtain ⟨hl, hle⟩ := (AList.minEntry_eq_some_iff _ _ _).mp hmin
    have hmem : ts ∈ r.lockTsHeap := AList.lookup_isSome.mp (by simp [hl])
    exact ⟨(h.mem_heap_iff ts).mp hmem, fun key ts' hk => hle ts' ((h.mem_heap_iff ts').mpr ⟨key, hk⟩)⟩
  · rintro ⟨hex, hle⟩
    obtain ⟨txnLocks, hl⟩ :=
      Option.isSome_iff_exists.mp (AList.lookup_isSome.mpr ((h.mem_heap_iff ts).mpr hex))
    refine ⟨(ts, txnLocks), (AList.minEntry_eq_some_iff _ _ _).mpr ⟨hl, fun ts' hts' => ?_⟩, rfl⟩
    obtain ⟨key, hk⟩ := (h.mem_heap_iff ts').mp hts'
    exact hle key ts' hk

end Runs

/-! ## The bookkeeping of a run -/

/-- What the bookkeeping of normal locks guarantees. -/
structure LocksConsistent (r : Resolver) : Prop where
  /-- The heap holds a `start_ts` exactly when some key is locked at it. -/
  mem_heap_iff : ∀ ts, ts ∈ r.lockTsHeap ↔ ∃ key, r.locksByKey.lookup key = some ts
  /-- Its count is the number of those keys. -/
  lockCount_eq : ∀ ts txnLocks, r.lockTsHeap.lookup ts = some txnLocks →
    txnLocks.lockCount = r.locksByKey.countVal ts
  /-- The quota in use is the sum of the sizes of the tracked keys. -/
  inUse_eq : r.memoryQuota.inUse = r.locksByKey.sumKeys Resolver.lockHeapSize
  /-- Tracking a tracked key again changes neither map nor the quota. -/
  track_tracked : ∀ startTs key index t r' res, r.locksByKey.lookup key = some t →
    r.trackLock startTs key index 0 = .ok (r', res) →
    r'.locksByKey = r.locksByKey ∧ r'.lockTsHeap = r.lockTsHeap ∧ r'.memoryQuota = r.memoryQuota
  /-- A tracking the quota refuses changes neither map nor the quota. -/
  track_exceeded : ∀ startTs key index r' e, r.trackLock startTs key index 0 = .ok (r', .error e) →
    r'.locksByKey = r.locksByKey ∧ r'.lockTsHeap = r.lockTsHeap ∧ r'.memoryQuota = r.memoryQuota
  /-- A tracking that succeeds on an untracked key locks it at its `start_ts`,
  counts it once there and charges its size. -/
  track_untracked : ∀ startTs key index r', r.locksByKey.lookup key = none →
    r.trackLock startTs key index 0 = .ok (r', .ok ()) →
    r'.locksByKey = r.locksByKey.insert key startTs ∧
      (r'.lockTsHeap.lookup startTs).map TxnLocks.lockCount = some (r.locksByKey.countVal startTs + 1) ∧
      r'.memoryQuota.inUse = r.memoryQuota.inUse + Resolver.lockHeapSize key
  /-- Untracking a tracked key removes it and gives its size back. -/
  untrack_tracked : ∀ key index t r', r.locksByKey.lookup key = some t →
    r.untrackLock key index = .ok r' →
    r'.locksByKey = r.locksByKey.erase key ∧
      r'.memoryQuota.inUse = r.memoryQuota.inUse - Resolver.lockHeapSize key
  /-- The oldest normal transaction is the least `start_ts` of the keys. -/
  oldest_iff : ∀ ts, r.oldestNormalTxn.map Prod.fst = some ts ↔
    (∃ key, r.locksByKey.lookup key = some ts) ∧
      ∀ key ts', r.locksByKey.lookup key = some ts' → ts ≤ ts'

theorem ResolverInv.consistent {r : Resolver} (h : ResolverInv r) : LocksConsistent r where
  mem_heap_iff := h.mem_heap_iff
  lockCount_eq := h.heap.lockCount_eq
  inUse_eq := h.quota.inUse_eq
  track_tracked _ _ _ _ _ _ hk ht := Resolver.trackLock_of_tracked h.quota.inUse_nonneg hk ht
  track_exceeded _ _ _ _ _ ht := Resolver.trackLock_exceeded ht
  track_untracked _ _ _ _ hk ht := h.trackLock_untracked hk ht
  untrack_tracked _ _ _ _ hk hu := h.untrackLock_tracked hk hu
  oldest_iff := h.oldest_iff

theorem resolver_consistent {txnStatus : TimeStamp → Option TxnState} {regionId capacity : Nat}
    {calls : List ResolverCall} (hlock : ∀ c ∈ calls, c.isResolve = false)
    (hidx : (calls.filterMap ResolverCall.index).Pairwise (· ≤ ·)) :
    ∃ r, Trace.run (Resolver.step txnStatus) (Resolver.new regionId (MemoryQuota.new capacity))
      calls = .ok r ∧ LocksConsistent r := by
  obtain ⟨r, hr⟩ := Resolver.run_ok_of_index_le txnStatus
    (r := Resolver.new regionId (MemoryQuota.new capacity)) hlock hidx fun i _ => Nat.zero_le i
  exact ⟨r, hr, (resolverInv_run hr).consistent⟩

theorem resolver_consistent_tracked_twice :
    (∀ c ∈ [ResolverCall.trackLock 10 [97] (some 1) 0, .trackLock 20 [97] (some 2) 0],
      c.isResolve = false) ∧
    ([ResolverCall.trackLock 10 [97] (some 1) 0, .trackLock 20 [97] (some 2) 0].filterMap
      ResolverCall.index).Pairwise (· ≤ ·) ∧
    ∃ r, Trace.run (Resolver.step fun _ => none) (Resolver.new 1 (MemoryQuota.new 1024))
      [.trackLock 10 [97] (some 1) 0, .trackLock 20 [97] (some 2) 0] = .ok r ∧ LocksConsistent r :=
  ⟨by decide, by decide, resolver_consistent (by decide) (by decide)⟩

end Tikv.ResolvedTs
