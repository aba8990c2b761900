import Tikv.Lib.ExceptState
import Tikv.Lib.LruCache
import Tikv.Lib.Trace
import Tikv.Lib.VersionMap
import Tikv.TxnTypes.Types

/-!
# The transaction status cache (`storage::txn::txn_status_cache`)

The cache maps a transaction's `start_ts` to what is known of it: ongoing
with a `min_commit_ts`, committed at a `commit_ts`, or rolled back. It is two
caches of LRU slots, the slot of a `start_ts` being its hash modulo the number
of slots. The large cache holds ongoing transactions whose `min_commit_ts` is
above their `start_ts`, and a read looks there first; the normal cache holds
everything else. A slot evicts its least recently used entry when that entry
has been kept longer than the required time, or when the slot is over its
capacity.

`upsert` updates the entry of the cache its state is routed to, and on the
normal path also the large cache's entry if that one is still ongoing; a
final state is never replaced. The hash of `fxhash` is a parameter.

Results:
* `normalOngoingLe_run`: the normal cache holds ongoing states at or below
  their `start_ts` only.
* `txnStatusCache_monotone`: over a run that evicts nothing, a final result
  of `get` stays while no ongoing state above `start_ts` is upserted for the
  transaction, and ongoing results never decrease while no ongoing state at
  or below `start_ts` is; and a slot evicts an entry only when it is older
  than the required keep time or the slot, with the new entry, is over its
  capacity.
* `txnStatusCache_get_goes_back`: outside those runs `get` does go back,
  although its comment says the large cache's entry is the more up to date:
  a large-path upsert shadows a final state of the normal cache, and a
  normal-path upsert lowers the large cache's `min_commit_ts`.
-/

namespace Tikv.Storage
open Tikv.TxnTypes

/-- mirrors src/storage/txn/txn_status_cache.rs:175-180 -/
inductive TxnState where
  | ongoing (minCommitTs : TimeStamp)
  | committed (commitTs : TimeStamp)
  | rolledBack
  deriving DecidableEq, Repr

/-- mirrors src/storage/txn/txn_status_cache.rs:182-199 (`TxnState::from_ts`) -/
def TxnState.fromTs (startTs minCommitTs commitTs : TimeStamp) (rolledBack : Bool) : TxnState :=
  if rolledBack then .rolledBack
  else if commitTs = 0 then .ongoing (max startTs minCommitTs)
  else .committed commitTs

/-- A state that no upsert replaces. -/
def TxnState.isFinal : TxnState → Bool
  | .ongoing _ => false
  | _ => true

/-- mirrors src/storage/txn/txn_status_cache.rs:157-162: `update_time` in
milliseconds since the epoch. -/
structure CacheEntry where
  state : TxnState
  updateTime : Nat
  deriving DecidableEq, Repr

/-- mirrors src/storage/txn/txn_status_cache.rs:204-208 -/
structure TxnStatusCacheEvictPolicy where
  requiredKeepTimeMillis : Nat
  deriving DecidableEq, Repr

/-- mirrors src/storage/txn/txn_status_cache.rs:246-266 (`should_evict`):
`now` is the system time in milliseconds. -/
def TxnStatusCacheEvictPolicy.shouldEvict (p : TxnStatusCacheEvictPolicy) (now : Nat) :
    EvictPolicy TimeStamp CacheEntry := fun currentSize capacity tail =>
  (match tail with
    | some (_, v) => decide (now > p.requiredKeepTimeMillis + v.updateTime)
    | none => false) || decide (currentSize > capacity)

/-- mirrors src/storage/txn/txn_status_cache.rs:280-288 (`TxnStatusCache`):
the slots of both caches by index, and the policies all slots of a cache
share. -/
structure TxnStatusCache where
  slots : Nat
  normalCache : Fin slots → LruCache TimeStamp CacheEntry
  largeTxnCache : Fin slots → LruCache TimeStamp CacheEntry
  isEnabled : Bool
  normalPolicy : TxnStatusCacheEvictPolicy
  largeTxnPolicy : TxnStatusCacheEvictPolicy
  enabled_slots : isEnabled = true → 0 < slots

namespace TxnStatusCache

/-- mirrors src/storage/txn/txn_status_cache.rs:293-354 (`new_impl`): the
keep times in milliseconds. -/
def newImpl (slots requiredKeepTime largeTxnRequiredKeepTime capacity largeTxnCapacity : Nat) :
    Except String TxnStatusCache :=
  if capacity = 0 then
    .ok ⟨0, nofun, nofun, false, ⟨requiredKeepTime⟩, ⟨largeTxnRequiredKeepTime⟩, nofun⟩
  else if hs : slots = 0 then .error "attempt to divide by zero"
  else
    let allowedCapacityPerSlot := capacity / slots
    let capacityPerSlotForLargeTxns := largeTxnCapacity / slots
    .ok ⟨slots, fun _ => LruCache.new allowedCapacityPerSlot 0,
      fun _ => LruCache.new capacityPerSlotForLargeTxns 0, true, ⟨requiredKeepTime⟩,
      ⟨largeTxnRequiredKeepTime⟩, fun _ => Nat.pos_of_ne_zero hs⟩

variable (hash : TimeStamp → Nat)

/-- mirrors src/storage/txn/txn_status_cache.rs:420-422 (`slot_index`) -/
def slotIndex (c : TxnStatusCache) (h : c.isEnabled = true) (startTs : TimeStamp) : Fin c.slots :=
  ⟨hash startTs % c.slots, Nat.mod_lt _ (c.enabled_slots h)⟩

/-- The cache with slot `i` of the normal cache replaced. -/
def setNormal (c : TxnStatusCache) (i : Fin c.slots) (slot : LruCache TimeStamp CacheEntry) :
    TxnStatusCache :=
  { c with normalCache := Function.update c.normalCache i slot }

/-- The cache with slot `i` of the large cache replaced. -/
def setLarge (c : TxnStatusCache) (i : Fin c.slots) (slot : LruCache TimeStamp CacheEntry) :
    TxnStatusCache :=
  { c with largeTxnCache := Function.update c.largeTxnCache i slot }

/-- The large cache's change to an entry it holds: a larger `min_commit_ts`
replaces an ongoing state. -/
def largeUpdate (existing : CacheEntry) (minCommitTs : TimeStamp) (entry : CacheEntry) :
    CacheEntry :=
  match existing.state with
  | .ongoing existingMinCommitTs => if minCommitTs > existingMinCommitTs then entry else existing
  | _ => existing

/-- The normal path's change to an entry, in either cache: any state replaces
an ongoing one, a commit only at or above its `min_commit_ts`. -/
def normalUpdate (existing entry : CacheEntry) : Except String CacheEntry :=
  match existing.state with
  | .ongoing minCommitTs =>
    match entry.state with
    | .committed commitTs =>
      if minCommitTs ≤ commitTs then .ok entry
      else .error "assertion failed: min_commit_ts <= commit_ts"
    | _ => .ok entry
  | _ => .ok existing

/-- The normal path of `upsert` (txn_status_cache.rs:472-501) in slot `i`. -/
def upsertNormal (c : TxnStatusCache) (i : Fin c.slots) (startTs : TimeStamp) (entry : CacheEntry)
    (clock : Nat) : Except String TxnStatusCache := do
  let normal := c.normalCache i
  let normal ← (match normal.map.lookup startTs with
    | some existing => do
      let updated ← normalUpdate existing entry
      pure (normal.getMut startTs fun _ => updated)
    | none => pure (normal.insert (c.normalPolicy.shouldEvict clock) startTs entry))
  let large := c.largeTxnCache i
  let large ← (match large.map.lookup startTs with
    | some existing => do
      let updated ← normalUpdate existing entry
      pure (large.getMut startTs fun _ => updated)
    | none => pure large)
  pure ((c.setNormal i normal).setLarge i large)

/-- The large path of `upsert` (txn_status_cache.rs:448-470) in slot `i`. -/
def upsertLarge (c : TxnStatusCache) (i : Fin c.slots) (startTs minCommitTs : TimeStamp)
    (entry : CacheEntry) (clock : Nat) : TxnStatusCache :=
  let large := c.largeTxnCache i
  let large := match large.map.lookup startTs with
    | some existing => large.getMut startTs fun _ => largeUpdate existing minCommitTs entry
    | none => large.insert (c.largeTxnPolicy.shouldEvict clock) startTs entry
  c.setLarge i large

/-- mirrors src/storage/txn/txn_status_cache.rs:428-509 (`upsert`): `now` is
the time passed in and `clock` the system time the eviction policy reads,
both in milliseconds. -/
def upsert (c : TxnStatusCache) (startTs : TimeStamp) (state : TxnState) (now clock : Nat) :
    Except String TxnStatusCache :=
  if h : c.isEnabled = true then
    let entry : CacheEntry := ⟨state, now⟩
    let i := c.slotIndex hash h startTs
    match state with
    | .ongoing minCommitTs =>
      if minCommitTs > startTs then .ok (c.upsertLarge i startTs minCommitTs entry clock)
      else c.upsertNormal i startTs entry clock
    | _ => c.upsertNormal i startTs entry clock
  else .ok c

/-- mirrors src/storage/txn/txn_status_cache.rs:517-538 (`get`) -/
def get (c : TxnStatusCache) (startTs : TimeStamp) : Option TxnState × TxnStatusCache :=
  if h : c.isEnabled = true then
    let i := c.slotIndex hash h startTs
    match (c.largeTxnCache i).get startTs with
    | (some entry, large) => (some entry.state, c.setLarge i large)
    | (none, large) =>
      match (c.normalCache i).get startTs with
      | (some entry, normal) => (some entry.state, (c.setLarge i large).setNormal i normal)
      | (none, normal) => (none, (c.setLarge i large).setNormal i normal)
  else (none, c)

/-- The calls on the cache. -/
inductive CacheCall where
  | upsert (startTs : TimeStamp) (state : TxnState) (now clock : Nat)
  | get (startTs : TimeStamp)
  deriving DecidableEq, Repr

/-- One call on the cache. -/
def step (c : TxnStatusCache) : CacheCall → Except String TxnStatusCache
  | .upsert startTs state now clock => c.upsert hash startTs state now clock
  | .get startTs => .ok (c.get hash startTs).2

/-! ## The entries of one transaction -/

/-- The entry of a transaction in the large cache. -/
def largeEntry (c : TxnStatusCache) (startTs : TimeStamp) : Option CacheEntry :=
  if h : c.isEnabled = true then (c.largeTxnCache (c.slotIndex hash h startTs)).map.lookup startTs
  else none

/-- The entry of a transaction in the normal cache. -/
def normalEntry (c : TxnStatusCache) (startTs : TimeStamp) : Option CacheEntry :=
  if h : c.isEnabled = true then (c.normalCache (c.slotIndex hash h startTs)).map.lookup startTs
  else none

theorem largeEntry_of_enabled (c : TxnStatusCache) (h : c.isEnabled = true) (ts : TimeStamp) :
    c.largeEntry hash ts = (c.largeTxnCache (c.slotIndex hash h ts)).map.lookup ts := by
  rw [largeEntry, dif_pos h]

theorem normalEntry_of_enabled (c : TxnStatusCache) (h : c.isEnabled = true) (ts : TimeStamp) :
    c.normalEntry hash ts = (c.normalCache (c.slotIndex hash h ts)).map.lookup ts := by
  rw [normalEntry, dif_pos h]

/-- Changing one large slot changes the large entries of that slot only. -/
theorem largeEntry_setLarge (c : TxnStatusCache) (h : c.isEnabled = true) (i : Fin c.slots)
    (slot : LruCache TimeStamp CacheEntry) (ts : TimeStamp) :
    (c.setLarge i slot).largeEntry hash ts =
      if c.slotIndex hash h ts = i then slot.map.lookup ts else c.largeEntry hash ts := by
  show (if h' : c.isEnabled = true then
      (Function.update c.largeTxnCache i slot (c.slotIndex hash h' ts)).map.lookup ts else none) = _
  rw [dif_pos h, largeEntry_of_enabled hash c h]
  split
  · rename_i hi
    rw [← hi, Function.update_self]
  · rename_i hi
    rw [Function.update_of_ne hi]

/-- Changing one normal slot changes the normal entries of that slot only. -/
theorem normalEntry_setNormal (c : TxnStatusCache) (h : c.isEnabled = true) (i : Fin c.slots)
    (slot : LruCache TimeStamp CacheEntry) (ts : TimeStamp) :
    (c.setNormal i slot).normalEntry hash ts =
      if c.slotIndex hash h ts = i then slot.map.lookup ts else c.normalEntry hash ts := by
  show (if h' : c.isEnabled = true then
      (Function.update c.normalCache i slot (c.slotIndex hash h' ts)).map.lookup ts else none) = _
  rw [dif_pos h, normalEntry_of_enabled hash c h]
  split
  · rename_i hi
    rw [← hi, Function.update_self]
  · rename_i hi
    rw [Function.update_of_ne hi]

@[simp] theorem largeEntry_setNormal (c : TxnStatusCache) (i : Fin c.slots)
    (slot : LruCache TimeStamp CacheEntry) (ts : TimeStamp) :
    (c.setNormal i slot).largeEntry hash ts = c.largeEntry hash ts := rfl

@[simp] theorem normalEntry_setLarge (c : TxnStatusCache) (i : Fin c.slots)
    (slot : LruCache TimeStamp CacheEntry) (ts : TimeStamp) :
    (c.setLarge i slot).normalEntry hash ts = c.normalEntry hash ts := rfl

/-- A slot that keeps the entry of the slot it replaces keeps the entry. -/
theorem largeEntry_setLarge_of_lookup (c : TxnStatusCache) (h : c.isEnabled = true)
    (i : Fin c.slots) (slot : LruCache TimeStamp CacheEntry) (ts : TimeStamp)
    (hslot : slot.map.lookup ts = (c.largeTxnCache i).map.lookup ts) :
    (c.setLarge i slot).largeEntry hash ts = c.largeEntry hash ts := by
  rw [largeEntry_setLarge hash c h]
  split
  · rename_i hi
    rw [hslot, largeEntry_of_enabled hash c h, hi]
  · rfl

theorem normalEntry_setNormal_of_lookup (c : TxnStatusCache) (h : c.isEnabled = true)
    (i : Fin c.slots) (slot : LruCache TimeStamp CacheEntry) (ts : TimeStamp)
    (hslot : slot.map.lookup ts = (c.normalCache i).map.lookup ts) :
    (c.setNormal i slot).normalEntry hash ts = c.normalEntry hash ts := by
  rw [normalEntry_setNormal hash c h]
  split
  · rename_i hi
    rw [hslot, normalEntry_of_enabled hash c h, hi]
  · rfl

/-- `get` answers from the large cache first. -/
theorem get_fst (c : TxnStatusCache) (ts : TimeStamp) :
    (c.get hash ts).1 = match c.largeEntry hash ts with
      | some e => some e.state
      | none => (c.normalEntry hash ts).map (·.state) := by
  unfold get
  split
  · rename_i h
    dsimp only
    rw [largeEntry_of_enabled hash c h, normalEntry_of_enabled hash c h]
    have hl := LruCache.get_fst (c.largeTxnCache (c.slotIndex hash h ts)) ts
    rcases hget : (c.largeTxnCache (c.slotIndex hash h ts)).get ts with ⟨_ | e, large⟩
    · rw [hget] at hl
      dsimp only at hl ⊢
      rw [← hl]
      have hn := LruCache.get_fst (c.normalCache (c.slotIndex hash h ts)) ts
      rcases hget' : (c.normalCache (c.slotIndex hash h ts)).get ts with ⟨_ | e', normal⟩
      · rw [hget'] at hn
        dsimp only at hn ⊢
        rw [← hn]
        rfl
      · rw [hget'] at hn
        dsimp only at hn ⊢
        rw [← hn]
        rfl
    · rw [hget] at hl
      dsimp only at hl ⊢
      rw [← hl]
  · rename_i h
    simp [largeEntry, normalEntry, h]

/-- `get` changes no entry. -/
theorem entries_get (c : TxnStatusCache) (ts' ts : TimeStamp) :
    (c.get hash ts').2.largeEntry hash ts = c.largeEntry hash ts ∧
      (c.get hash ts').2.normalEntry hash ts = c.normalEntry hash ts := by
  unfold get
  split
  · rename_i h
    dsimp only
    have hl := LruCache.lookup_get (c.largeTxnCache (c.slotIndex hash h ts')) ts' ts
    rcases hget : (c.largeTxnCache (c.slotIndex hash h ts')).get ts' with ⟨_ | e, large⟩
    all_goals
      rw [hget] at hl
      dsimp only
    · have hn := LruCache.lookup_get (c.normalCache (c.slotIndex hash h ts')) ts' ts
      rcases hget' : (c.normalCache (c.slotIndex hash h ts')).get ts' with ⟨_ | e', normal⟩
      all_goals
        rw [hget'] at hn
        dsimp only
        exact ⟨largeEntry_setLarge_of_lookup hash c h _ _ ts hl,
          normalEntry_setNormal_of_lookup hash (c.setLarge _ _) h _ _ ts hn⟩
    · exact ⟨largeEntry_setLarge_of_lookup hash c h _ _ ts hl, rfl⟩
  · exact ⟨rfl, rfl⟩

/-! ## What an upsert does -/

/-- Whether an upsert takes the large path: an ongoing state above its
`start_ts`. -/
def goesLarge (startTs : TimeStamp) : TxnState → Bool
  | .ongoing minCommitTs => minCommitTs > startTs
  | _ => false

theorem upsert_cases {c c' : TxnStatusCache} {ts : TimeStamp} {s : TxnState} {now clock : Nat}
    (hup : c.upsert hash ts s now clock = .ok c') :
    (c.isEnabled = false ∧ c' = c) ∨
      ∃ h : c.isEnabled = true,
        (∃ m, s = .ongoing m ∧ m > ts ∧
          c' = c.upsertLarge (c.slotIndex hash h ts) ts m ⟨s, now⟩ clock) ∨
        (goesLarge ts s = false ∧ c.upsertNormal (c.slotIndex hash h ts) ts ⟨s, now⟩ clock = .ok c') := by
  unfold upsert at hup
  split at hup
  · rename_i h
    refine .inr ⟨h, ?_⟩
    dsimp only at hup
    split at hup
    · rename_i m
      split at hup
      · rename_i hm
        cases hup
        exact .inl ⟨m, rfl, hm, rfl⟩
      · rename_i hm
        exact .inr ⟨by simpa [goesLarge] using hm, hup⟩
    · rename_i hs
      refine .inr ⟨?_, hup⟩
      cases s with
      | ongoing m => exact absurd rfl (hs m)
      | committed _ => rfl
      | rolledBack => rfl
  · rename_i h
    cases hup
    exact .inl ⟨by simpa using h, rfl⟩

/-- The normal path changes the normal slot's entry, or inserts one, and an
entry the large slot holds. -/
theorem upsertNormal_spec {c c' : TxnStatusCache} {i : Fin c.slots} {ts : TimeStamp}
    {entry : CacheEntry} {clock : Nat} (hup : c.upsertNormal i ts entry clock = .ok c') :
    ∃ normal large, c' = (c.setNormal i normal).setLarge i large ∧
      (∀ e, (c.normalCache i).map.lookup ts = some e →
        ∃ e', normalUpdate e entry = .ok e' ∧ normal = (c.normalCache i).getMut ts fun _ => e') ∧
      ((c.normalCache i).map.lookup ts = none →
        normal = (c.normalCache i).insert (c.normalPolicy.shouldEvict clock) ts entry) ∧
      (∀ e, (c.largeTxnCache i).map.lookup ts = some e →
        ∃ e', normalUpdate e entry = .ok e' ∧ large = (c.largeTxnCache i).getMut ts fun _ => e') ∧
      ((c.largeTxnCache i).map.lookup ts = none → large = c.largeTxnCache i) := by
  unfold upsertNormal at hup
  dsimp only at hup
  obtain ⟨normal, hnormal, hrest⟩ := ExceptState.bind_eq_ok hup
  obtain ⟨large, hlarge, hpure⟩ := ExceptState.bind_eq_ok hrest
  cases hpure
  refine ⟨normal, large, rfl, fun e he => ?_, fun he => ?_, fun e he => ?_, fun he => ?_⟩
  · rw [he] at hnormal
    obtain ⟨e', hu, hpure'⟩ := ExceptState.bind_eq_ok hnormal
    cases hpure'
    exact ⟨e', hu, rfl⟩
  · rw [he] at hnormal
    cases hnormal
    rfl
  · rw [he] at hlarge
    obtain ⟨e', hu, hpure'⟩ := ExceptState.bind_eq_ok hlarge
    cases hpure'
    exact ⟨e', hu, rfl⟩
  · rw [he] at hlarge
    cases hlarge
    rfl

/-- An entry that a call leaves, or evicts. -/
def KeptOrGone (o o' : Option CacheEntry) : Prop :=
  o' = o ∨ o' = none

theorem largeEntry_setLarge_keptOrGone (c : TxnStatusCache) (h : c.isEnabled = true)
    (i : Fin c.slots) (slot : LruCache TimeStamp CacheEntry) (ts : TimeStamp)
    (hslot : KeptOrGone ((c.largeTxnCache i).map.lookup ts) (slot.map.lookup ts)) :
    KeptOrGone (c.largeEntry hash ts) ((c.setLarge i slot).largeEntry hash ts) := by
  rw [largeEntry_setLarge hash c h]
  split
  · rename_i hi
    rwa [largeEntry_of_enabled hash c h, hi]
  · exact .inl rfl

theorem normalEntry_setNormal_keptOrGone (c : TxnStatusCache) (h : c.isEnabled = true)
    (i : Fin c.slots) (slot : LruCache TimeStamp CacheEntry) (ts : TimeStamp)
    (hslot : KeptOrGone ((c.normalCache i).map.lookup ts) (slot.map.lookup ts)) :
    KeptOrGone (c.normalEntry hash ts) ((c.setNormal i slot).normalEntry hash ts) := by
  rw [normalEntry_setNormal hash c h]
  split
  · rename_i hi
    rwa [normalEntry_of_enabled hash c h, hi]
  · exact .inl rfl

theorem keptOrGone_getMut (slot : LruCache TimeStamp CacheEntry) {ts ts' : TimeStamp}
    (f : CacheEntry → CacheEntry) (hne : ts ≠ ts') :
    KeptOrGone (slot.map.lookup ts) ((slot.getMut ts' f).map.lookup ts) :=
  .inl (slot.lookup_getMut_of_ne f hne)

theorem keptOrGone_insert (slot : LruCache TimeStamp CacheEntry) (p : EvictPolicy TimeStamp CacheEntry)
    {ts ts' : TimeStamp} (v : CacheEntry) (hne : ts ≠ ts') :
    KeptOrGone (slot.map.lookup ts) ((slot.insert p ts' v).map.lookup ts) :=
  (LruCache.keptOrEvicted_insert p slot v hne).imp id (·.1)

/-- An upsert keeps the entries of every other transaction, or evicts them. -/
theorem entries_upsert_of_ne {c c' : TxnStatusCache} {ts ts' : TimeStamp} {s : TxnState}
    {now clock : Nat} (hup : c.upsert hash ts' s now clock = .ok c') (hne : ts ≠ ts') :
    KeptOrGone (c.largeEntry hash ts) (c'.largeEntry hash ts) ∧
      KeptOrGone (c.normalEntry hash ts) (c'.normalEntry hash ts) := by
  rcases upsert_cases hash hup with ⟨-, rfl⟩ | ⟨h, ⟨m, -, -, rfl⟩ | ⟨-, hnormal⟩⟩
  · exact ⟨.inl rfl, .inl rfl⟩
  · refine ⟨largeEntry_setLarge_keptOrGone hash c h _ _ ts ?_, .inl rfl⟩
    split
    · exact keptOrGone_getMut _ _ hne
    · exact keptOrGone_insert _ _ _ hne
  · obtain ⟨normal, large, rfl, hn₁, hn₂, hl₁, hl₂⟩ := upsertNormal_spec hnormal
    refine ⟨largeEntry_setLarge_keptOrGone hash (c.setNormal _ normal) h _ _ ts ?_,
      normalEntry_setNormal_keptOrGone hash c h _ _ ts ?_⟩
    · cases hl : (c.largeTxnCache (c.slotIndex hash h ts')).map.lookup ts' with
      | none =>
        rw [hl₂ hl]
        exact .inl rfl
      | some e =>
        obtain ⟨e', -, rfl⟩ := hl₁ e hl
        exact keptOrGone_getMut _ _ hne
    · cases hn : (c.normalCache (c.slotIndex hash h ts')).map.lookup ts' with
      | none =>
        rw [hn₂ hn]
        exact keptOrGone_insert _ _ _ hne
      | some e =>
        obtain ⟨e', -, rfl⟩ := hn₁ e hn
        exact keptOrGone_getMut _ _ hne

theorem largeEntry_setLarge_self (c : TxnStatusCache) (h : c.isEnabled = true)
    (slot : LruCache TimeStamp CacheEntry) (ts : TimeStamp) :
    (c.setLarge (c.slotIndex hash h ts) slot).largeEntry hash ts = slot.map.lookup ts := by
  rw [largeEntry_setLarge hash c h, if_pos rfl]

theorem normalEntry_setNormal_self (c : TxnStatusCache) (h : c.isEnabled = true)
    (slot : LruCache TimeStamp CacheEntry) (ts : TimeStamp) :
    (c.setNormal (c.slotIndex hash h ts) slot).normalEntry hash ts = slot.map.lookup ts := by
  rw [normalEntry_setNormal hash c h, if_pos rfl]

theorem largeEntry_of_disabled {c : TxnStatusCache} (h : c.isEnabled = false) (ts : TimeStamp) :
    c.largeEntry hash ts = none := by
  simp [largeEntry, h]

theorem normalEntry_of_disabled {c : TxnStatusCache} (h : c.isEnabled = false) (ts : TimeStamp) :
    c.normalEntry hash ts = none := by
  simp [normalEntry, h]

/-- The large path changes the large entry: a larger `min_commit_ts` replaces
an ongoing state, and a new entry is inserted, possibly to be evicted at once. -/
theorem entries_upsert_large {c c' : TxnStatusCache} {ts m : TimeStamp} {s : TxnState}
    {now clock : Nat} (hup : c.upsert hash ts s now clock = .ok c') (hs : s = .ongoing m)
    (hm : m > ts) :
    c'.normalEntry hash ts = c.normalEntry hash ts ∧
      (∀ e, c.largeEntry hash ts = some e → c'.largeEntry hash ts = some (largeUpdate e m ⟨s, now⟩)) ∧
      (c.largeEntry hash ts = none →
        c'.largeEntry hash ts = some ⟨s, now⟩ ∨ c'.largeEntry hash ts = none) := by
  rcases upsert_cases hash hup with ⟨hd, rfl⟩ | ⟨h, ⟨m', hs', -, rfl⟩ | ⟨hgo, -⟩⟩
  · refine ⟨rfl, fun e he => ?_, fun _ => .inr (largeEntry_of_disabled hash hd ts)⟩
    rw [largeEntry_of_disabled hash hd] at he
    cases he
  · rw [hs] at hs'
    cases hs'
    subst hs
    refine ⟨rfl, fun e he => ?_, fun he => ?_⟩
    · rw [largeEntry_of_enabled hash c h] at he
      simp only [upsertLarge, he, largeEntry_setLarge_self hash c h, LruCache.lookup_getMut_self,
        Option.map_some]
    · rw [largeEntry_of_enabled hash c h] at he
      simp only [upsertLarge, he, largeEntry_setLarge_self hash c h]
      exact LruCache.lookup_insert_self _ _ _ _
  · subst hs
    simp [goesLarge, hm] at hgo

/-- The normal path changes the normal entry, or inserts one, and the large
entry if there is one, each by `normalUpdate`. -/
theorem entries_upsert_normal {c c' : TxnStatusCache} {ts : TimeStamp} {s : TxnState}
    {now clock : Nat} (hup : c.upsert hash ts s now clock = .ok c') (hs : goesLarge ts s = false) :
    (∀ e, c.largeEntry hash ts = some e →
      ∃ e', normalUpdate e ⟨s, now⟩ = .ok e' ∧ c'.largeEntry hash ts = some e') ∧
    (c.largeEntry hash ts = none → c'.largeEntry hash ts = none) ∧
    (∀ e, c.normalEntry hash ts = some e →
      ∃ e', normalUpdate e ⟨s, now⟩ = .ok e' ∧ c'.normalEntry hash ts = some e') ∧
    (c.normalEntry hash ts = none →
      c'.normalEntry hash ts = some ⟨s, now⟩ ∨ c'.normalEntry hash ts = none) := by
  rcases upsert_cases hash hup with ⟨hd, rfl⟩ | ⟨h, ⟨m, rfl, hm, -⟩ | ⟨-, hnormal⟩⟩
  · refine ⟨fun e he => ?_, id, fun e he => ?_, fun _ => .inr (normalEntry_of_disabled hash hd ts)⟩
    · rw [largeEntry_of_disabled hash hd] at he
      cases he
    · rw [normalEntry_of_disabled hash hd] at he
      cases he
  · simp [goesLarge, hm] at hs
  · obtain ⟨normal, large, rfl, hn₁, hn₂, hl₁, hl₂⟩ := upsertNormal_spec hnormal
    have hlarge : ((c.setNormal (c.slotIndex hash h ts) normal).setLarge (c.slotIndex hash h ts)
        large).largeEntry hash ts = large.map.lookup ts :=
      (largeEntry_setLarge hash (c.setNormal (c.slotIndex hash h ts) normal) h _ _ ts).trans
        (if_pos rfl)
    have hnormal' : ((c.setNormal (c.slotIndex hash h ts) normal).setLarge (c.slotIndex hash h ts)
        large).normalEntry hash ts = normal.map.lookup ts :=
      normalEntry_setNormal_self hash c h normal ts
    rw [hlarge, hnormal', largeEntry_of_enabled hash c h, normalEntry_of_enabled hash c h]
    refine ⟨fun e he => ?_, fun he => ?_, fun e he => ?_, fun he => ?_⟩
    · obtain ⟨e', hu, rfl⟩ := hl₁ e he
      exact ⟨e', hu, by rw [LruCache.lookup_getMut_self, he]; rfl⟩
    · rw [hl₂ he, he]
    · obtain ⟨e', hu, rfl⟩ := hn₁ e he
      exact ⟨e', hu, by rw [LruCache.lookup_getMut_self, he]; rfl⟩
    · rw [hn₂ he]
      exact LruCache.lookup_insert_self _ _ _ _

theorem normalUpdate_of_final {e : CacheEntry} (entry : CacheEntry) (hf : e.state.isFinal = true) :
    normalUpdate e entry = .ok e := by
  unfold normalUpdate
  split
  · rename_i m hm
    rw [hm] at hf
    cases hf
  · rfl

theorem normalUpdate_ok {e entry e' : CacheEntry} (h : normalUpdate e entry = .ok e') :
    e' = e ∨ e' = entry := by
  unfold normalUpdate at h
  split at h
  · split at h
    · split at h
      · cases h
        exact .inr rfl
      · cases h
    · cases h
      exact .inr rfl
  · cases h
    exact .inl rfl

theorem largeUpdate_cases (e : CacheEntry) (m : TimeStamp) (entry : CacheEntry) :
    largeUpdate e m entry = e ∨
      largeUpdate e m entry = entry ∧ ∃ m', e.state = .ongoing m' ∧ m > m' := by
  unfold largeUpdate
  split
  · rename_i m' hm'
    split
    · exact .inr ⟨rfl, m', hm', ‹_›⟩
    · exact .inl rfl
  · exact .inl rfl

/-! ## The normal cache holds no large transaction -/

/-- Every ongoing state of the normal cache is at or below its `start_ts`. -/
def NormalOngoingLe (c : TxnStatusCache) : Prop :=
  ∀ ts e m, c.normalEntry hash ts = some e → e.state = .ongoing m → m ≤ ts

theorem normalOngoingLe_newImpl {slots keep largeKeep capacity largeCapacity : Nat}
    {c : TxnStatusCache} (h : newImpl slots keep largeKeep capacity largeCapacity = .ok c) :
    NormalOngoingLe hash c := by
  intro ts e m he
  unfold newImpl at h
  split at h
  · cases h
    simp [normalEntry] at he
  · split at h
    · cases h
    · cases h
      simp [normalEntry, LruCache.lookup_new] at he

/-- The state an upsert stores on the normal path is at or below its
`start_ts` when ongoing. -/
theorem ongoing_le_of_goesLarge {ts m : TimeStamp} {s : TxnState} (hs : goesLarge ts s = false)
    (hm : s = .ongoing m) : m ≤ ts := by
  subst hm
  simpa [goesLarge] using hs

theorem normalOngoingLe_step {c c' : TxnStatusCache} {call : CacheCall}
    (hinv : NormalOngoingLe hash c) (h : c.step hash call = .ok c') : NormalOngoingLe hash c' := by
  intro ts e m he hm
  cases call with
  | get ts' =>
    cases h
    rw [(entries_get hash c ts' ts).2] at he
    exact hinv ts e m he hm
  | upsert ts' s now clock =>
    by_cases hne : ts = ts'
    · subst hne
      cases hgo : goesLarge ts s with
      | true =>
        obtain ⟨m', hs, hm'⟩ : ∃ m', s = .ongoing m' ∧ m' > ts := by
          cases s <;> simp_all [goesLarge]
        rw [(entries_upsert_large hash h hs hm').1] at he
        exact hinv ts e m he hm
      | false =>
        -- the entry is the old one, or the state just stored
        obtain ⟨-, -, hn₁, hn₂⟩ := entries_upsert_normal hash h hgo
        cases hold : c.normalEntry hash ts with
        | none =>
          rcases hn₂ hold with hnew | hnone
          · rw [hnew] at he
            cases he
            exact ongoing_le_of_goesLarge hgo hm
          · rw [hnone] at he
            cases he
        | some e₀ =>
          obtain ⟨e', hu, hnew⟩ := hn₁ e₀ hold
          rw [hnew] at he
          cases he
          rcases normalUpdate_ok hu with rfl | rfl
          · exact hinv ts _ m hold hm
          · exact ongoing_le_of_goesLarge hgo hm
    · rcases (entries_upsert_of_ne hash h hne).2 with hsame | hnone
      · rw [hsame] at he
        exact hinv ts e m he hm
      · rw [hnone] at he
        cases he

theorem normalOngoingLe_run {slots keep largeKeep capacity largeCapacity : Nat}
    {c₀ c : TxnStatusCache} {calls : List CacheCall}
    (h₀ : newImpl slots keep largeKeep capacity largeCapacity = .ok c₀)
    (h : Trace.run (step hash) c₀ calls = .ok c) : NormalOngoingLe hash c :=
  Trace.run_induction (P := fun c _ => NormalOngoingLe hash c) (normalOngoingLe_newImpl hash h₀)
    (fun _ _ _ _ hinv hstep => normalOngoingLe_step hash hinv hstep) h

/-! ## Runs that evict nothing -/

/-- A call evicts nothing: every entry of the cache is still there after it. -/
def Retains (c c' : TxnStatusCache) : Prop :=
  ∀ ts, ((c.largeEntry hash ts).isSome → (c'.largeEntry hash ts).isSome) ∧
    ((c.normalEntry hash ts).isSome → (c'.normalEntry hash ts).isSome)

/-- A successful call that evicts nothing. -/
def StepRetaining (c : TxnStatusCache) (call : CacheCall) (c' : TxnStatusCache) : Prop :=
  c.step hash call = .ok c' ∧ Retains hash c c'

theorem KeptOrGone.eq_of_isSome {o o' : Option CacheEntry} (h : KeptOrGone o o')
    (hr : o.isSome → o'.isSome) : o' = o := by
  rcases h with h | h
  · exact h
  · cases o with
    | none => exact h
    | some e =>
      rw [h] at hr
      cases hr rfl

/-- A call that evicts nothing and upserts nothing for `ts` keeps its entries. -/
theorem entries_stepRetaining {c c' : TxnStatusCache} {call : CacheCall} {ts : TimeStamp}
    (h : StepRetaining hash c call c') (hcall : ∀ s now clock, call ≠ .upsert ts s now clock) :
    c'.largeEntry hash ts = c.largeEntry hash ts ∧ c'.normalEntry hash ts = c.normalEntry hash ts := by
  obtain ⟨hstep, hret⟩ := h
  cases call with
  | get ts' =>
    cases hstep
    exact entries_get hash c ts' ts
  | upsert ts' s now clock =>
    have hne : ts ≠ ts' := by
      rintro rfl
      exact hcall s now clock rfl
    obtain ⟨hl, hn⟩ := entries_upsert_of_ne hash hstep hne
    exact ⟨hl.eq_of_isSome (hret ts).1, hn.eq_of_isSome (hret ts).2⟩

/-- The final state `F` of a transaction, read from the large cache, or from
the normal cache when the large one holds nothing. -/
def FinalAt (ts : TimeStamp) (F : TxnState) (c : TxnStatusCache) : Prop :=
  (∃ e, c.largeEntry hash ts = some e ∧ e.state = F) ∨
    c.largeEntry hash ts = none ∧ ∃ e, c.normalEntry hash ts = some e ∧ e.state = F

theorem finalAt_of_get {c : TxnStatusCache} {ts : TimeStamp} {F : TxnState}
    (h : (c.get hash ts).1 = some F) : FinalAt hash ts F c := by
  rw [get_fst] at h
  cases hl : c.largeEntry hash ts with
  | some e =>
    rw [hl] at h
    cases h
    exact .inl ⟨e, hl, rfl⟩
  | none =>
    rw [hl] at h
    obtain ⟨e, he, rfl⟩ := Option.map_eq_some_iff.mp h
    exact .inr ⟨hl, e, he, rfl⟩

theorem get_of_finalAt {c : TxnStatusCache} {ts : TimeStamp} {F : TxnState}
    (h : FinalAt hash ts F c) : (c.get hash ts).1 = some F := by
  rw [get_fst]
  rcases h with ⟨e, he, rfl⟩ | ⟨hl, e, he, rfl⟩
  · rw [he]
  · rw [hl, he]
    rfl

/-- A final state stays across a call that evicts nothing, unless the call
upserts an ongoing state above `start_ts`. -/
theorem finalAt_step {c c' : TxnStatusCache} {call : CacheCall} {ts : TimeStamp} {F : TxnState}
    (hF : F.isFinal = true) (hfin : FinalAt hash ts F c) (h : StepRetaining hash c call c')
    (hcall : ∀ m now clock, call = .upsert ts (.ongoing m) now clock → m ≤ ts) :
    FinalAt hash ts F c' := by
  by_cases hup : ∃ s now clock, call = .upsert ts s now clock
  · obtain ⟨s, now, clock, rfl⟩ := hup
    have hgo : goesLarge ts s = false := by
      cases s with
      | ongoing m => simpa [goesLarge] using hcall m now clock rfl
      | committed _ => rfl
      | rolledBack => rfl
    obtain ⟨hl₁, hl₂, hn₁, -⟩ := entries_upsert_normal hash h.1 hgo
    rcases hfin with ⟨e, he, rfl⟩ | ⟨hl, e, he, rfl⟩
    · obtain ⟨e', hu, he'⟩ := hl₁ e he
      rw [normalUpdate_of_final _ hF] at hu
      cases hu
      exact .inl ⟨e, he', rfl⟩
    · obtain ⟨e', hu, he'⟩ := hn₁ e he
      rw [normalUpdate_of_final _ hF] at hu
      cases hu
      exact .inr ⟨hl₂ hl, e, he', rfl⟩
  · obtain ⟨hl, hn⟩ := entries_stepRetaining hash h fun s now clock hc => hup ⟨s, now, clock, hc⟩
    unfold FinalAt
    rw [hl, hn]
    exact hfin

/-- Every state of a transaction's entries that `get` may return is ongoing
at `m₁` or above, or final; and when the large cache holds nothing, `m₁` is
at or below `start_ts`. -/
def AboveAt (ts m₁ : TimeStamp) (c : TxnStatusCache) : Prop :=
  (∀ e, c.largeEntry hash ts = some e → ∀ m, e.state = .ongoing m → m₁ ≤ m) ∧
    (c.largeEntry hash ts = none →
      m₁ ≤ ts ∧ ∀ e, c.normalEntry hash ts = some e → ∀ m, e.state = .ongoing m → m₁ ≤ m)

theorem aboveAt_of_get {c : TxnStatusCache} {ts m₁ : TimeStamp} (hinv : NormalOngoingLe hash c)
    (h : (c.get hash ts).1 = some (.ongoing m₁)) : AboveAt hash ts m₁ c := by
  rcases finalAt_of_get hash h with ⟨e, he, hs⟩ | ⟨hl, e, he, hs⟩
  · refine ⟨fun e' he' m hm => ?_, fun hl => ?_⟩
    · rw [he] at he'
      cases he'
      rw [hs] at hm
      cases hm
      exact le_rfl
    · rw [he] at hl
      cases hl
  · refine ⟨fun e' he' => ?_, fun _ => ⟨hinv ts e m₁ he hs, fun e' he' m hm => ?_⟩⟩
    · rw [hl] at he'
      cases he'
    · rw [he] at he'
      cases he'
      rw [hs] at hm
      cases hm
      exact le_rfl

/-- Ongoing results do not decrease across a call that evicts nothing, unless
the call upserts an ongoing state at or below `start_ts`. -/
theorem aboveAt_step {c c' : TxnStatusCache} {call : CacheCall} {ts m₁ : TimeStamp}
    (habove : AboveAt hash ts m₁ c) (h : StepRetaining hash c call c')
    (hcall : ∀ m now clock, call = .upsert ts (.ongoing m) now clock → ts < m) :
    AboveAt hash ts m₁ c' := by
  obtain ⟨hL, hN⟩ := habove
  by_cases hup : ∃ s now clock, call = .upsert ts s now clock
  · obtain ⟨s, now, clock, rfl⟩ := hup
    have hupsert : c.upsert hash ts s now clock = .ok c' := h.1
    cases hgo : goesLarge ts s with
    | true =>
      -- the large path: a larger `min_commit_ts`, or a new large entry above `start_ts`
      obtain ⟨m, rfl, hm⟩ : ∃ m, s = .ongoing m ∧ m > ts := by
        cases s <;> simp_all [goesLarge]
      obtain ⟨hn, hl₁, hl₂⟩ := entries_upsert_large hash hupsert rfl hm
      refine ⟨fun e' he' m' hm' => ?_, fun hl' => ?_⟩
      · cases hl : c.largeEntry hash ts with
        | some e =>
          rw [hl₁ e hl] at he'
          cases he'
          rcases largeUpdate_cases e m ⟨.ongoing m, now⟩ with heq | ⟨heq, m'', he, hlt⟩
          · rw [heq] at hm'
            exact hL e hl m' hm'
          · rw [heq] at hm'
            cases hm'
            exact le_of_lt (lt_of_le_of_lt (hL e hl m'' he) hlt)
        | none =>
          rcases hl₂ hl with hnew | hnone
          · rw [hnew] at he'
            cases he'
            cases hm'
            exact le_of_lt (lt_of_le_of_lt (hN hl).1 hm)
          · rw [hnone] at he'
            cases he'
      · have hl : c.largeEntry hash ts = none := by
          cases hl : c.largeEntry hash ts with
          | none => rfl
          | some e =>
            rw [hl₁ e hl] at hl'
            cases hl'
        rw [hn]
        exact hN hl
    | false =>
      -- the normal path: only final states, which stop no bound
      have hfinal : ∀ m, s ≠ .ongoing m := by
        rintro m rfl
        have := hcall m now clock rfl
        simp [goesLarge, this] at hgo
      have hstored : ∀ e e', normalUpdate e ⟨s, now⟩ = .ok e' →
          (∀ m, e.state = .ongoing m → m₁ ≤ m) → ∀ m, e'.state = .ongoing m → m₁ ≤ m := by
        intro e e' hu hab m hm
        rcases normalUpdate_ok hu with rfl | rfl
        · exact hab m hm
        · exact absurd hm (hfinal m)
      obtain ⟨hl₁, hl₂, hn₁, hn₂⟩ := entries_upsert_normal hash hupsert hgo
      refine ⟨fun e' he' => ?_, fun hl' => ?_⟩
      · cases hl : c.largeEntry hash ts with
        | some e =>
          obtain ⟨e'', hu, he''⟩ := hl₁ e hl
          rw [he''] at he'
          cases he'
          exact hstored e _ hu (hL e hl)
        | none =>
          rw [hl₂ hl] at he'
          cases he'
      · have hl : c.largeEntry hash ts = none := by
          cases hl : c.largeEntry hash ts with
          | none => rfl
          | some e =>
            obtain ⟨e'', -, he''⟩ := hl₁ e hl
            rw [he''] at hl'
            cases hl'
        refine ⟨(hN hl).1, fun e' he' => ?_⟩
        cases hn : c.normalEntry hash ts with
        | some e =>
          obtain ⟨e'', hu, he''⟩ := hn₁ e hn
          rw [he''] at he'
          cases he'
          exact hstored e _ hu ((hN hl).2 e hn)
        | none =>
          intro m hm
          rcases hn₂ hn with hnew | hnone
          · rw [hnew] at he'
            cases he'
            exact absurd hm (hfinal m)
          · rw [hnone] at he'
            cases he'
  · obtain ⟨hl, hn⟩ := entries_stepRetaining hash h fun s now clock hc => hup ⟨s, now, clock, hc⟩
    unfold AboveAt
    rw [hl, hn]
    exact ⟨hL, hN⟩

theorem retains_get (c : TxnStatusCache) (ts' : TimeStamp) : Retains hash c (c.get hash ts').2 := by
  intro ts
  rw [(entries_get hash c ts' ts).1, (entries_get hash c ts' ts).2]
  exact ⟨id, id⟩

/-- A slot evicts an entry only when it is older than the keep time, or the
slot with the new entry is over its capacity. -/
theorem evicted_of_shouldEvict (p : TxnStatusCacheEvictPolicy) (clock : Nat)
    (slot : LruCache TimeStamp CacheEntry) {k k' : TimeStamp} (v : CacheEntry) {e : CacheEntry}
    (hne : k' ≠ k) (he : slot.map.lookup k' = some e)
    (hgone : (slot.insert (p.shouldEvict clock) k v).map.lookup k' = none) :
    p.requiredKeepTimeMillis + e.updateTime < clock ∨ slot.capacity < slot.size + 1 := by
  rcases LruCache.keptOrEvicted_insert (p.shouldEvict clock) slot v hne with hsame | ⟨-, m, w, hm, hw, hpol⟩
  · rw [hgone, he] at hsame
    cases hsame
  · rw [he] at hw
    cases hw
    simp only [TxnStatusCacheEvictPolicy.shouldEvict, Bool.or_eq_true, decide_eq_true_eq] at hpol
    rcases hpol with hold | hfull
    · exact .inl hold
    · exact .inr (lt_of_lt_of_le hfull hm)

/-- Over every run from a new cache, and then a run that evicts nothing: a
final result of `get` stays while no ongoing state above `start_ts` is
upserted for the transaction; ongoing results never decrease while no ongoing
state at or below `start_ts` is; and a slot evicts an entry only when it is
older than the required keep time or the slot, with the new entry, is over
its capacity. -/
theorem txnStatusCache_monotone {slots keep largeKeep capacity largeCapacity : Nat}
    {c₀ c₁ c₂ : TxnStatusCache} {pre mid : List CacheCall} (ts : TimeStamp)
    (h₀ : newImpl slots keep largeKeep capacity largeCapacity = .ok c₀)
    (hpre : Trace.run (step hash) c₀ pre = .ok c₁)
    (hmid : Trace.Reaches (StepRetaining hash) c₁ mid c₂) :
    (∀ F, (c₁.get hash ts).1 = some F → F.isFinal = true →
      (∀ m now clock, CacheCall.upsert ts (.ongoing m) now clock ∈ mid → m ≤ ts) →
      (c₂.get hash ts).1 = some F) ∧
    (∀ m₁ m₂, (c₁.get hash ts).1 = some (.ongoing m₁) → (c₂.get hash ts).1 = some (.ongoing m₂) →
      (∀ m now clock, CacheCall.upsert ts (.ongoing m) now clock ∈ mid → ts < m) → m₁ ≤ m₂) ∧
    (∀ (p : TxnStatusCacheEvictPolicy) (clock : Nat) (slot : LruCache TimeStamp CacheEntry)
      (k k' : TimeStamp) (v e : CacheEntry), k' ≠ k → slot.map.lookup k' = some e →
      (slot.insert (p.shouldEvict clock) k v).map.lookup k' = none →
      p.requiredKeepTimeMillis + e.updateTime < clock ∨ slot.capacity < slot.size + 1) := by
  refine ⟨fun F hF hfinal hcalls => ?_, fun m₁ m₂ h₁ h₂ hcalls => ?_,
    fun p clock slot k k' v e hne he hgone => evicted_of_shouldEvict p clock slot v hne he hgone⟩
  · -- the final state is kept by every call of the run
    refine get_of_finalAt hash (hmid.inv (finalAt_of_get hash hF) fun c call c' hmem hfin hstep => ?_)
    exact finalAt_step hash hfinal hfin hstep fun m now clock hc => hcalls m now clock (hc ▸ hmem)
  · -- the bound `m₁` is kept by every call of the run
    have habove := hmid.inv (aboveAt_of_get hash (normalOngoingLe_run hash h₀ hpre) h₁)
      fun c call c' hmem habove hstep =>
        aboveAt_step hash habove hstep fun m now clock hc => hcalls m now clock (hc ▸ hmem)
    rcases finalAt_of_get hash h₂ with ⟨e, he, hs⟩ | ⟨hl, e, he, hs⟩
    · exact habove.1 e he m₂ hs
    · exact (habove.2 hl).2 e he m₂ hs

/-- A committed transaction, then a read: the second read sees the commit
the first one saw. -/
theorem txnStatusCache_monotone_committed :
    ∃ c₀ c₁, newImpl 1 30000 30000 8 8 = .ok c₀ ∧
      Trace.run (step fun _ => 0) c₀ [.upsert 10 (.committed 20) 0 0] = .ok c₁ ∧
      (c₁.get (fun _ => 0) 10).1 = some (.committed 20) ∧
      ((c₁.get (fun _ => 0) 10).2.get (fun _ => 0) 10).1 = some (.committed 20) := by
  obtain ⟨c₀, c₁, h₀, h₁, hget⟩ : ∃ c₀ c₁, newImpl 1 30000 30000 8 8 = .ok c₀ ∧
      Trace.run (step fun _ => 0) c₀ [.upsert 10 (.committed 20) 0 0] = .ok c₁ ∧
      (c₁.get (fun _ => 0) 10).1 = some (.committed 20) :=
    ⟨_, _, rfl, rfl, by decide +kernel⟩
  have hreach : Trace.Reaches (StepRetaining fun _ => 0) c₁ [.get 10] (c₁.get (fun _ => 0) 10).2 :=
    .snoc (.nil c₁) ⟨rfl, retains_get _ c₁ 10⟩
  exact ⟨c₀, c₁, h₀, h₁, hget,
    (txnStatusCache_monotone (fun _ => 0) 10 h₀ h₁ hreach).1 _ hget rfl (by simp)⟩

/-- `get` goes backwards: an ongoing state above `start_ts` for a committed
transaction lands in the large cache, which reads first, while the commit
stays in the normal cache; and an ongoing state at `start_ts` replaces a
larger one. -/
theorem txnStatusCache_get_goes_back :
    (do
      let c ← newImpl 1 30000 30000 8 8
      let c ← Trace.run (step fun _ => 0) c [.upsert 10 (.committed 20) 0 0]
      let before := (c.get (fun _ => 0) 10).1
      let c ← Trace.run (step fun _ => 0) c [.upsert 10 (.ongoing 30) 0 0]
      pure (before, (c.get (fun _ => 0) 10).1, c.normalEntry (fun _ => 0) 10)) =
      Except.ok (some (.committed 20), some (.ongoing 30), some ⟨.committed 20, 0⟩) ∧
    (do
      let c ← newImpl 1 30000 30000 8 8
      let c ← Trace.run (step fun _ => 0) c [.upsert 10 (.ongoing 20) 0 0]
      let before := (c.get (fun _ => 0) 10).1
      let c ← Trace.run (step fun _ => 0) c [.upsert 10 (.ongoing 10) 0 0]
      pure (before, (c.get (fun _ => 0) 10).1)) =
      (Except.ok (some (.ongoing 20), some (.ongoing 10)) : Except String _) := by
  constructor <;> decide +kernel

end TxnStatusCache

end Tikv.Storage
