import Mathlib.Data.List.Destutter
import Tikv.Lib.WaitQueue

/-!
# Scheduler latches

A command latches the hashes of its keys before it runs. Each hash maps to a
slot, `hash & (size - 1)`, and each slot is a queue of `(hash, command id)`
entries shared by all the hashes that map to it; a command holds the latch of
a hash when it is the first entry of that hash in the slot's queue.
`acquire` walks the command's sorted hashes from `owned_count`, counting the
latches it holds and queueing behind the first one it does not; `release`
pops the command off each hash it holds and returns the first waiter of each,
or hands the hash to the next command of the same transaction.

Seen from one hash, the slots are a FIFO queue of command ids
(`Latches.queue`): `acquire` appends to the queues of the hashes it passes and
`release` drops their heads (`acquireGo_queue`, `releaseGo_queue`), whichever
hashes share a slot. The protocol built on these queues is in
`Tikv.Scheduler.LatchProtocol`.

Results:
* `getFirstReqByHash_eq`, `queue_waitForWake`, `queue_popFront`: each latch
  operation on the queue of every hash.
* `acquireGo_queue`: `acquire` on the queues of the hashes.
* `releaseGo_queue`: `release` pops the command off each hash it heads, fails
  no assertion, and wakes the next command of each hash or keeps it for the
  command named.
-/
namespace Tikv.Scheduler

open KeyedQueue

/-- `Latch`: the queue of one slot; `pop_front` may leave holes. -/
structure Latch where
  waiting : List (Option (Nat × Nat))
  deriving DecidableEq, Repr

namespace Latch

/-- mirrors src/storage/txn/latch.rs:34-38 (`Latch::new`) -/
def new : Latch := ⟨[]⟩

/-- mirrors src/storage/txn/latch.rs:42-49 (`get_first_req_by_hash`) -/
def getFirstReqByHash (latch : Latch) (hash : Nat) : Option Nat :=
  go latch.waiting
where
  go : List (Option (Nat × Nat)) → Option Nat
    | [] => none
    | none :: rest => go rest
    | some (h, cid) :: rest => if h = hash then some cid else go rest

/-- mirrors src/storage/txn/latch.rs:85-98 (`maybe_shrink`): the holes at the
front are dropped; the capacity of the deque is not modelled. -/
def maybeShrink (latch : Latch) : Latch :=
  ⟨latch.waiting.dropWhile Option.isNone⟩

/-- The search of `pop_front` (latch.rs:64-70): the first entry of `keyHash`
is taken out, leaving a hole. -/
def takeFirst (keyHash : Nat) : List (Option (Nat × Nat)) → List (Option (Nat × Nat)) × Option (Nat × Nat)
  | [] => ([], none)
  | none :: rest =>
    let r := takeFirst keyHash rest
    (none :: r.1, r.2)
  | some (v, cid) :: rest =>
    if v = keyHash then (none :: rest, some (v, cid))
    else
      let r := takeFirst keyHash rest
      (some (v, cid) :: r.1, r.2)

/-- mirrors src/storage/txn/latch.rs:56-73 (`pop_front`): a hole at the
front is dropped and not pushed back. -/
def popFront (latch : Latch) (keyHash : Nat) : Latch × Option (Nat × Nat) :=
  match latch.waiting with
  | [] => (latch, none)
  | none :: rest =>
    let r := takeFirst keyHash rest
    (⟨r.1⟩, r.2)
  | some (k, cid) :: rest =>
    if k = keyHash then (maybeShrink ⟨rest⟩, some (k, cid))
    else
      let r := takeFirst keyHash (some (k, cid) :: rest)
      (⟨r.1⟩, r.2)

/-- mirrors src/storage/txn/latch.rs:75-77 (`wait_for_wake`) -/
def waitForWake (latch : Latch) (keyHash cid : Nat) : Latch :=
  ⟨latch.waiting ++ [some (keyHash, cid)]⟩

/-- mirrors src/storage/txn/latch.rs:80-82 (`push_preemptive`) -/
def pushPreemptive (latch : Latch) (keyHash cid : Nat) : Latch :=
  ⟨some (keyHash, cid) :: latch.waiting⟩

end Latch

/-- `Lock`: the hashes a command latches, and how many of them it holds. -/
structure Lock where
  requiredHashes : List Nat
  ownedCount : Nat
  deriving DecidableEq, Repr

namespace Lock

/-- mirrors src/storage/txn/latch.rs:115-129 (`Lock::new`): the hashes sorted,
then runs of equal hashes cut to one (`Vec::dedup`). `Lock::hash`, a
`DefaultHasher`, is the parameter `hash`. -/
def new {K : Type} (hash : K → Nat) (keys : List K) : Lock :=
  ⟨((keys.map hash).mergeSort).destutter (· ≠ ·), 0⟩

/-- mirrors src/storage/txn/latch.rs:138-140 (`acquired`) -/
def acquired (lock : Lock) : Bool :=
  lock.requiredHashes.length == lock.ownedCount

/-- mirrors src/storage/txn/latch.rs:144-146 (`force_assume_acquired`) -/
def forceAssumeAcquired (lock : Lock) : Lock :=
  { lock with ownedCount := lock.requiredHashes.length }

/-- mirrors src/storage/txn/latch.rs:148-150 (`is_write_lock`) -/
def isWriteLock (lock : Lock) : Bool :=
  !lock.requiredHashes.isEmpty

theorem isChain_lt_of_le_of_ne : ∀ {l : List Nat}, l.IsChain (· ≤ ·) → l.IsChain (· ≠ ·) →
    l.IsChain (· < ·)
  | [], _, _ => .nil
  | [a], _, _ => .singleton a
  | a :: b :: l, hle, hne => by
    rw [List.isChain_cons_cons] at hle hne ⊢
    exact ⟨Nat.lt_of_le_of_ne hle.1 hne.1, isChain_lt_of_le_of_ne hle.2 hne.2⟩

/-- The hashes of a new lock are strictly increasing: sorted, with the runs
of equal hashes cut to one. -/
theorem new_sorted {K : Type} (hash : K → Nat) (keys : List K) :
    (new hash keys).requiredHashes.Pairwise (· < ·) := by
  have hsorted : ((keys.map hash).mergeSort).Pairwise (fun a b => decide (a ≤ b) = true) :=
    List.pairwise_mergeSort (fun a b c hab hbc => by simp at *; omega) (fun a b => by simp; omega) _
  have hle : (((keys.map hash).mergeSort).destutter (· ≠ ·)).IsChain (· ≤ ·) :=
    ((hsorted.sublist (List.destutter_sublist _ _)).imp (by simp)).isChain
  exact List.isChain_iff_pairwise.mp (isChain_lt_of_le_of_ne hle (List.isChain_destutter _ _))

end Lock

/-- `Latches`: `size` slots, `size` a power of two. -/
structure Latches where
  slots : Nat → Latch
  size : Nat

namespace Latches

/-- mirrors src/storage/txn/latch.rs:167-172 (`Latches::new`) -/
def new (size : Nat) : Latches :=
  ⟨fun _ => Latch.new, size.nextPowerOfTwo⟩

/-- The slot of a hash (latch.rs:266-268, `lock_latch`). -/
def slotOf (latches : Latches) (hash : Nat) : Nat :=
  hash &&& (latches.size - 1)

/-- The latch of a hash's slot (`lock_latch`). -/
def lockLatch (latches : Latches) (hash : Nat) : Latch :=
  latches.slots (latches.slotOf hash)

/-- The latch of a hash's slot replaced. -/
def setLatch (latches : Latches) (hash : Nat) (latch : Latch) : Latches :=
  { latches with slots := Function.update latches.slots (latches.slotOf hash) latch }

/-- The loop of `acquire` (latch.rs:183-199) over
`required_hashes[owned_count..]`: the latches after it and the number of
latches acquired. -/
def acquireGo (who : Nat) : Latches → List Nat → Nat → Latches × Nat
  | latches, [], acquiredCount => (latches, acquiredCount)
  | latches, keyHash :: rest, acquiredCount =>
    let latch := latches.lockLatch keyHash
    match latch.getFirstReqByHash keyHash with
    | some cid =>
      if cid = who then acquireGo who latches rest (acquiredCount + 1)
      else (latches.setLatch keyHash (latch.waitForWake keyHash who), acquiredCount)
    | none =>
      acquireGo who (latches.setLatch keyHash (latch.waitForWake keyHash who)) rest
        (acquiredCount + 1)

/-- mirrors src/storage/txn/latch.rs:182-202 (`acquire`) -/
def acquire (latches : Latches) (lock : Lock) (who : Nat) : Latches × Lock × Bool :=
  let r := acquireGo who latches (lock.requiredHashes.drop lock.ownedCount) 0
  let lock := { lock with ownedCount := lock.ownedCount + r.2 }
  (r.1, lock, lock.acquired)

/-- Whether a released hash is kept for the next command (latch.rs:236-246):
the next keep hash may not lie below it, and is consumed when it equals it. -/
def keepForNextCmd (keyHash : Nat) : List Nat → Except String (Bool × List Nat)
  | [] => .ok (false, [])
  | nextKeepHash :: rest =>
    if nextKeepHash < keyHash then .error "assertion failed: next_keep_hash >= key_hash"
    else if nextKeepHash = keyHash then .ok (true, rest)
    else .ok (false, nextKeepHash :: rest)

/-- The loop of `release` (latch.rs:229-256) over
`required_hashes[..owned_count]`: the latches after it, the keep hashes not
met, and the wake-up list. -/
def releaseGo (who : Nat) (keepCid : Option Nat) :
    Latches → List Nat → List Nat → List Nat → Except String (Latches × List Nat × List Nat)
  | latches, [], keepIt, wakeupList => .ok (latches, keepIt, wakeupList)
  | latches, keyHash :: rest, keepIt, wakeupList =>
    let popped := (latches.lockLatch keyHash).popFront keyHash
    match popped.2 with
    | none => .error "called `Option::unwrap()` on a `None` value"
    | some (v, front) =>
      if front ≠ who then .error "assertion failed: front == who"
      else if v ≠ keyHash then .error "assertion failed: v == key_hash"
      else do
        let latches := latches.setLatch keyHash popped.1
        let keep ← keepForNextCmd keyHash keepIt
        if keep.1 then
          match keepCid with
          | some cid =>
            releaseGo who keepCid
              (latches.setLatch keyHash ((latches.lockLatch keyHash).pushPreemptive keyHash cid))
              rest keep.2 wakeupList
          | none => .error "called `Option::unwrap()` on a `None` value"
        else
          releaseGo who keepCid latches rest keep.2
            (wakeupList ++ ((latches.lockLatch keyHash).getFirstReqByHash keyHash).toList)

/-- mirrors src/storage/txn/latch.rs:211-262 (`release`) -/
def release (latches : Latches) (lock : Lock) (who : Nat)
    (keepLatchesForNextCmd : Option (Nat × Lock)) : Except String (Latches × List Nat) := do
  let keep : Option Nat × List Nat :=
    match keepLatchesForNextCmd with
    | some (cid, lock) => (some cid, lock.requiredHashes)
    | none => (none, [])
  let r ← releaseGo who keep.1 latches (lock.requiredHashes.take lock.ownedCount) keep.2 []
  if r.2.1.isEmpty then pure (r.1, r.2.2)
  else .error "assertion failed: keep_latches_it.next().is_none()"

/-- The commands queued under a hash, in order: its slot's queue seen from
the hash. -/
def queue (latches : Latches) (hash : Nat) : List Nat :=
  ids hash (latches.lockLatch hash).waiting

end Latches

/-! ## The latch operations seen from each hash -/

namespace Latch

theorem getFirstReqByHash_go (hash : Nat) (q : List (Option (Nat × Nat))) :
    getFirstReqByHash.go hash q = (ids hash q).head? := by
  induction q with
  | nil => rfl
  | cons e q ih =>
    rcases e with _ | ⟨h, cid⟩
    · simpa [getFirstReqByHash.go] using ih
    · by_cases hh : h = hash
      · subst hh
        simp [getFirstReqByHash.go]
      · simp [getFirstReqByHash.go, hh, ids_cons_some_of_ne hh, ih]

theorem getFirstReqByHash_eq (latch : Latch) (hash : Nat) :
    latch.getFirstReqByHash hash = (ids hash latch.waiting).head? :=
  getFirstReqByHash_go hash latch.waiting

theorem ids_takeFirst (keyHash k : Nat) (q : List (Option (Nat × Nat))) :
    ids k (takeFirst keyHash q).1 = if k = keyHash then (ids k q).tail else ids k q := by
  induction q with
  | nil => simp [takeFirst]
  | cons e q ih =>
    rcases e with _ | ⟨v, cid⟩
    · simpa [takeFirst] using ih
    · by_cases hv : v = keyHash
      · subst hv
        by_cases hk : k = v
        · subst hk
          simp [takeFirst]
        · simp [takeFirst, hk, ids_cons_some_of_ne (Ne.symm hk)]
      · by_cases hk : v = k
        · subst hk
          simp [takeFirst, hv, ih]
        · simp only [takeFirst, hv, if_false, ids_cons_some_of_ne hk, ih]

theorem takeFirst_snd (keyHash : Nat) (q : List (Option (Nat × Nat))) :
    (takeFirst keyHash q).2 = (ids keyHash q).head?.map (keyHash, ·) := by
  induction q with
  | nil => rfl
  | cons e q ih =>
    rcases e with _ | ⟨v, cid⟩
    · simpa [takeFirst] using ih
    · by_cases hv : v = keyHash
      · subst hv
        simp [takeFirst]
      · simp [takeFirst, hv, ids_cons_some_of_ne hv, ih]

theorem ids_popFront (latch : Latch) (keyHash k : Nat) :
    ids k (latch.popFront keyHash).1.waiting =
      if k = keyHash then (ids k latch.waiting).tail else ids k latch.waiting := by
  unfold popFront
  split
  · rename_i hq
    simp [hq]
  · rename_i rest hq
    simp [hq, ids_takeFirst]
  · rename_i k' cid rest hq
    rw [hq]
    split
    · rename_i hk'
      subst hk'
      by_cases hk : k = k'
      · subst hk
        simp [maybeShrink]
      · simp [maybeShrink, hk, ids_cons_some_of_ne (Ne.symm hk)]
    · exact ids_takeFirst keyHash k _

theorem popFront_snd (latch : Latch) (keyHash : Nat) :
    (latch.popFront keyHash).2 = (ids keyHash latch.waiting).head?.map (keyHash, ·) := by
  unfold popFront
  split
  · rename_i hq
    simp [hq]
  · rename_i rest hq
    simp [hq, takeFirst_snd]
  · rename_i k' cid rest hq
    rw [hq]
    split
    · rename_i hk'
      subst hk'
      simp
    · exact takeFirst_snd keyHash _

end Latch

namespace Latches

theorem queue_setLatch (latches : Latches) (hash : Nat) (latch : Latch) (h : Nat) :
    (latches.setLatch hash latch).queue h =
      if latches.slotOf h = latches.slotOf hash then ids h latch.waiting else latches.queue h := by
  unfold queue lockLatch setLatch
  simp only [slotOf, Function.update_apply]
  by_cases hs : h &&& (latches.size - 1) = hash &&& (latches.size - 1) <;> simp [hs]

/-- The latch of a hash is the latch of every hash in its slot. -/
theorem lockLatch_of_slotOf {latches : Latches} {h hash : Nat}
    (hs : latches.slotOf h = latches.slotOf hash) : latches.lockLatch h = latches.lockLatch hash := by
  simp [lockLatch, hs]

/-- Rewriting the latch of `hash` by an operation that acts on the queue of
`hash` only, as `f`, changes the queues of the hashes as `f` on `hash`. -/
theorem queue_setLatch_of_ids (latches : Latches) (hash : Nat) (latch : Latch)
    (f : List Nat → List Nat)
    (hop : ∀ h, ids h latch.waiting =
      if h = hash then f (latches.queue hash) else ids h (latches.lockLatch hash).waiting) :
    (latches.setLatch hash latch).queue =
      Function.update latches.queue hash (f (latches.queue hash)) := by
  funext h
  rw [queue_setLatch]
  by_cases hh : h = hash
  · subst hh
    simp [hop]
  · rw [Function.update_of_ne hh]
    split
    · rename_i hs
      rw [hop h, if_neg hh, queue, lockLatch_of_slotOf hs]
    · rfl

theorem queue_waitForWake (latches : Latches) (hash cid : Nat) :
    (latches.setLatch hash ((latches.lockLatch hash).waitForWake hash cid)).queue =
      Function.update latches.queue hash (latches.queue hash ++ [cid]) := by
  refine queue_setLatch_of_ids _ _ _ (· ++ [cid]) fun h => ?_
  by_cases hh : h = hash
  · subst hh
    simp [Latch.waitForWake, queue]
  · simp [Latch.waitForWake, hh, ids_cons_some_of_ne (Ne.symm hh)]

theorem queue_popFront (latches : Latches) (hash : Nat) :
    (latches.setLatch hash ((latches.lockLatch hash).popFront hash).1).queue =
      Function.update latches.queue hash (latches.queue hash).tail := by
  refine queue_setLatch_of_ids _ _ _ List.tail fun h => ?_
  rw [Latch.ids_popFront]
  by_cases hh : h = hash
  · subst hh
    simp [queue]
  · simp [hh]

theorem queue_pushPreemptive (latches : Latches) (hash cid : Nat) :
    (latches.setLatch hash ((latches.lockLatch hash).pushPreemptive hash cid)).queue =
      Function.update latches.queue hash (cid :: latches.queue hash) := by
  refine queue_setLatch_of_ids _ _ _ (cid :: ·) fun h => ?_
  by_cases hh : h = hash
  · subst hh
    simp [Latch.pushPreemptive, queue]
  · simp [Latch.pushPreemptive, hh, ids_cons_some_of_ne (Ne.symm hh)]

theorem getFirstReqByHash_lockLatch (latches : Latches) (hash : Nat) :
    (latches.lockLatch hash).getFirstReqByHash hash = (latches.queue hash).head? :=
  Latch.getFirstReqByHash_eq _ _

theorem popFront_lockLatch_snd (latches : Latches) (hash : Nat) :
    ((latches.lockLatch hash).popFront hash).2 = (latches.queue hash).head?.map (hash, ·) :=
  Latch.popFront_snd _ _

@[simp] theorem queue_new (size hash : Nat) : (new size).queue hash = [] := rfl

end Latches

/-! ## `acquire` and `release` on the queues of the hashes -/

/-- `acquire` on the queues of the hashes: the command passes each hash whose
queue it heads, queues on an empty one and passes it, and queues behind the
first hash another command heads, where it stops. -/
def acquireQueues (who : Nat) : (Nat → List Nat) → List Nat → Nat → (Nat → List Nat) × Nat
  | queues, [], n => (queues, n)
  | queues, h :: rest, n =>
    match (queues h).head? with
    | some cid =>
      if cid = who then acquireQueues who queues rest (n + 1)
      else (Function.update queues h (queues h ++ [who]), n)
    | none => acquireQueues who (Function.update queues h (queues h ++ [who])) rest (n + 1)

/-- `release` on the queues of the hashes: the command comes off the head of
each hash, which goes to the command it is kept for, if any, or wakes the
next command queued on it. -/
def releaseQueues (keptFor : Nat → Option Nat) :
    (Nat → List Nat) → List Nat → (Nat → List Nat) × List Nat
  | queues, [] => (queues, [])
  | queues, h :: rest =>
    let queues := Function.update queues h (queues h).tail
    match keptFor h with
    | some cid => releaseQueues keptFor (Function.update queues h (cid :: queues h)) rest
    | none =>
      let r := releaseQueues keptFor queues rest
      (r.1, (queues h).head?.toList ++ r.2)

namespace Latches

theorem acquireGo_queue (who : Nat) (latches : Latches) (hs : List Nat) (n : Nat) :
    (acquireGo who latches hs n).1.queue = (acquireQueues who latches.queue hs n).1 ∧
      (acquireGo who latches hs n).2 = (acquireQueues who latches.queue hs n).2 := by
  induction hs generalizing latches n with
  | nil => exact ⟨rfl, rfl⟩
  | cons h rest ih =>
    simp only [acquireGo, acquireQueues, getFirstReqByHash_lockLatch]
    rcases hq : (latches.queue h).head? with _ | cid
    · simpa [queue_waitForWake] using ih (latches.setLatch h ((latches.lockLatch h).waitForWake h who))
        (n + 1)
    · by_cases hc : cid = who
      · simpa [hc] using ih latches (n + 1)
      · simp [hc, queue_waitForWake]

/-- The command a hash is kept for in the loop of `release`: the kept
command when the hash is among the keep hashes. -/
def keepOf (keepCid : Option Nat) (keepIt : List Nat) (h : Nat) : Option Nat :=
  if h ∈ keepIt then keepCid else none

theorem releaseQueues_congr {keptFor keptFor' : Nat → Option Nat} {hs : List Nat}
    (h : ∀ x ∈ hs, keptFor x = keptFor' x) (queues : Nat → List Nat) :
    releaseQueues keptFor queues hs = releaseQueues keptFor' queues hs := by
  induction hs generalizing queues with
  | nil => rfl
  | cons x rest ih =>
    have hrest : ∀ y ∈ rest, keptFor y = keptFor' y := fun y hy => h y (List.mem_cons_of_mem x hy)
    simp only [releaseQueues, h x List.mem_cons_self, ih hrest]

/-- One step of the loop of `release` at a hash the command heads and does
not keep: the next command of the hash is woken. -/
theorem releaseGo_cons_wake {who : Nat} {keepCid : Option Nat} {latches : Latches} {h : Nat}
    {rest keepIt keepIt' wakeupList : List Nat} (hhead : (latches.queue h).head? = some who)
    (hkeep : keepForNextCmd h keepIt = .ok (false, keepIt')) :
    releaseGo who keepCid latches (h :: rest) keepIt wakeupList =
      releaseGo who keepCid (latches.setLatch h ((latches.lockLatch h).popFront h).1) rest keepIt'
        (wakeupList ++ ((latches.queue h).tail.head?).toList) := by
  simp [releaseGo, popFront_lockLatch_snd, hhead, hkeep, bind, Except.bind,
    getFirstReqByHash_lockLatch, queue_popFront]

/-- One step of the loop of `release` at a hash the command heads and keeps
for `cid`: `cid` goes to the head of the hash. -/
theorem releaseGo_cons_keep {who : Nat} {keepCid : Option Nat} {latches : Latches} {h cid : Nat}
    {rest keepIt keepIt' wakeupList : List Nat} (hhead : (latches.queue h).head? = some who)
    (hkeep : keepForNextCmd h keepIt = .ok (true, keepIt')) (hcid : keepCid = some cid) :
    releaseGo who keepCid latches (h :: rest) keepIt wakeupList =
      releaseGo who keepCid
        ((latches.setLatch h ((latches.lockLatch h).popFront h).1).setLatch h
          (((latches.setLatch h ((latches.lockLatch h).popFront h).1).lockLatch h).pushPreemptive h
            cid)) rest keepIt' wakeupList := by
  simp [releaseGo, popFront_lockLatch_snd, hhead, hkeep, bind, Except.bind, hcid]

theorem releaseQueues_cons_none {keptFor : Nat → Option Nat} {queues : Nat → List Nat} {h : Nat}
    {rest : List Nat} (hk : keptFor h = none) :
    releaseQueues keptFor queues (h :: rest) =
      ((releaseQueues keptFor (Function.update queues h (queues h).tail) rest).1,
        (queues h).tail.head?.toList ++
          (releaseQueues keptFor (Function.update queues h (queues h).tail) rest).2) := by
  simp [releaseQueues, hk]

theorem releaseQueues_cons_some {keptFor : Nat → Option Nat} {queues : Nat → List Nat} {h cid : Nat}
    {rest : List Nat} (hk : keptFor h = some cid) :
    releaseQueues keptFor queues (h :: rest) =
      releaseQueues keptFor (Function.update queues h (cid :: (queues h).tail)) rest := by
  simp [releaseQueues, hk]

/-- The loop of `release` over hashes the command heads, with keep hashes
among them: no assertion fails, every keep hash is met, and the queues and
the wake-up list are those of `releaseQueues`. The induction is on the
hashes; the keep hashes still ahead stay among the hashes still ahead. -/
theorem releaseGo_queue (who : Nat) (keepCid : Option Nat) {hs : List Nat}
    (hsorted : hs.Pairwise (· < ·)) {keepIt : List Nat} (hkeep : keepIt.Pairwise (· < ·))
    (hsub : ∀ k ∈ keepIt, k ∈ hs) (hcid : keepIt ≠ [] → keepCid.isSome = true)
    (latches : Latches) (hhead : ∀ h ∈ hs, (latches.queue h).head? = some who)
    (wakeupList : List Nat) :
    ∃ latches', releaseGo who keepCid latches hs keepIt wakeupList =
        .ok (latches', [], wakeupList ++ (releaseQueues (keepOf keepCid keepIt) latches.queue hs).2) ∧
      latches'.queue = (releaseQueues (keepOf keepCid keepIt) latches.queue hs).1 := by
  induction hs generalizing keepIt latches wakeupList with
  | nil =>
    obtain rfl : keepIt = [] :=
      List.eq_nil_iff_forall_not_mem.mpr fun k hk => List.not_mem_nil (hsub k hk)
    exact ⟨latches, by simp [releaseGo, releaseQueues], rfl⟩
  | cons h rest ih =>
    obtain ⟨hlt, hrest⟩ := List.pairwise_cons.mp hsorted
    have hwho := hhead h List.mem_cons_self
    have hq₁ := queue_popFront latches h
    have hhead₁ : ∀ x ∈ rest,
        ((latches.setLatch h ((latches.lockLatch h).popFront h).1).queue x).head? = some who :=
      fun x hx => by
        rw [hq₁, Function.update_of_ne (Nat.ne_of_gt (hlt x hx))]
        exact hhead x (List.mem_cons_of_mem h hx)
    -- whether `h` is kept: the next keep hash is `h`, or lies further on
    by_cases hkept : h ∈ keepIt
    · obtain ⟨k, ks, rfl⟩ := List.exists_cons_of_ne_nil (List.ne_nil_of_mem hkept)
      obtain ⟨hks, hksorted⟩ := List.pairwise_cons.mp hkeep
      have hkh : k = h := by
        rcases List.mem_cons.mp hkept with he | hmem
        · exact he.symm
        · rcases List.mem_cons.mp (hsub k List.mem_cons_self) with he | hkr
          · exact he
          · exact absurd (hks h hmem) (Nat.lt_asymm (hlt k hkr))
      subst hkh
      obtain ⟨cid, hcid'⟩ := Option.isSome_iff_exists.mp (hcid (List.cons_ne_nil _ _))
      have hsub' : ∀ x ∈ ks, x ∈ rest := fun x hx =>
        (List.mem_cons.mp (hsub x (List.mem_cons_of_mem _ hx))).resolve_left
          (Nat.ne_of_gt (hks x hx))
      obtain ⟨latches', hrun, hqueue⟩ := ih hrest hksorted hsub' (fun _ => by simp [hcid'])
        ((latches.setLatch k ((latches.lockLatch k).popFront k).1).setLatch k
          (((latches.setLatch k ((latches.lockLatch k).popFront k).1).lockLatch k).pushPreemptive k
            cid))
        (fun x hx => by
          rw [queue_pushPreemptive, Function.update_of_ne (Nat.ne_of_gt (hlt x hx))]
          exact hhead₁ x hx) wakeupList
      have hkeepOf : ∀ x ∈ rest, keepOf keepCid ks x = keepOf keepCid (k :: ks) x :=
        fun x hx => by simp [keepOf, Nat.ne_of_gt (hlt x hx)]
      have hk : keepOf keepCid (k :: ks) k = some cid := by simp [keepOf, hcid']
      have hnextk : keepForNextCmd k (k :: ks) = .ok (true, ks) := by simp [keepForNextCmd]
      rw [releaseGo_cons_keep hwho hnextk hcid', hrun,
        releaseQueues_cons_some hk]
      rw [queue_pushPreemptive, hq₁, Function.update_idem, Function.update_self] at hqueue ⊢
      rw [releaseQueues_congr hkeepOf] at hqueue ⊢
      exact ⟨latches', rfl, hqueue⟩
    · -- `h` is not kept: the next keep hash, if any, lies above it
      have hnext : keepForNextCmd h keepIt = .ok (false, keepIt) := by
        rcases keepIt with _ | ⟨k, ks⟩
        · rfl
        · have hkh : k ≠ h := fun he => hkept (he ▸ List.mem_cons_self)
          have hhk : h < k := hlt k ((List.mem_cons.mp (hsub k List.mem_cons_self)).resolve_left hkh)
          simp [keepForNextCmd, Nat.not_lt.mpr (Nat.le_of_lt hhk), hkh]
      have hsub' : ∀ x ∈ keepIt, x ∈ rest := fun x hx =>
        (List.mem_cons.mp (hsub x hx)).resolve_left fun he => hkept (he ▸ hx)
      obtain ⟨latches', hrun, hqueue⟩ := ih hrest hkeep hsub' hcid _ hhead₁
        (wakeupList ++ ((latches.queue h).tail.head?).toList)
      have hk : keepOf keepCid keepIt h = none := by simp [keepOf, hkept]
      rw [releaseGo_cons_wake hwho hnext, hrun, releaseQueues_cons_none hk, hq₁] at *
      exact ⟨latches', by simp, hqueue⟩

/-- The command each released hash is kept for (`keep_latches_for_next_cmd`). -/
def keptFor (keep : Option (Nat × Lock)) (h : Nat) : Option Nat :=
  match keep with
  | some (cid, lock) => if h ∈ lock.requiredHashes then some cid else none
  | none => none

/-- `release` of a lock whose holder heads every hash it owns, keeping a
sorted part of them for the next command: no assertion fails, and the queues
and the wake-up list are those of `releaseQueues`. -/
theorem release_queue {latches : Latches} {lock : Lock} {who : Nat}
    {keep : Option (Nat × Lock)} (hsorted : lock.requiredHashes.Pairwise (· < ·))
    (hhead : ∀ h ∈ lock.requiredHashes.take lock.ownedCount, (latches.queue h).head? = some who)
    (hkeep : ∀ cid next, keep = some (cid, next) → next.requiredHashes.Pairwise (· < ·) ∧
      ∀ k ∈ next.requiredHashes, k ∈ lock.requiredHashes.take lock.ownedCount) :
    ∃ latches', latches.release lock who keep =
        .ok (latches', (releaseQueues (keptFor keep) latches.queue
          (lock.requiredHashes.take lock.ownedCount)).2) ∧
      latches'.queue = (releaseQueues (keptFor keep) latches.queue
        (lock.requiredHashes.take lock.ownedCount)).1 := by
  have htake := hsorted.sublist (List.take_sublist lock.ownedCount lock.requiredHashes)
  rcases keep with _ | ⟨cid, next⟩
  · obtain ⟨latches', hrun, hqueue⟩ := releaseGo_queue who none htake List.Pairwise.nil
      (fun k hk => absurd hk List.not_mem_nil) (fun h => absurd rfl h) latches hhead []
    have hnone : keepOf none [] = keptFor none := by
      funext h
      simp [keepOf, keptFor]
    refine ⟨latches', ?_, by rw [hqueue, hnone]⟩
    simp [release, hrun, hnone, bind, Except.bind, pure, Except.pure]
  · obtain ⟨hnext, hsub⟩ := hkeep cid next rfl
    obtain ⟨latches', hrun, hqueue⟩ := releaseGo_queue who (some cid) htake hnext hsub
      (fun _ => rfl) latches hhead []
    have hsome : keepOf (some cid) next.requiredHashes = keptFor (some (cid, next)) := by
      funext h
      simp [keepOf, keptFor]
    refine ⟨latches', ?_, by rw [hqueue, hsome]⟩
    simp [release, hrun, hsome, bind, Except.bind, pure, Except.pure]

end Latches

/-! ## What `acquire` and `release` do to the queues -/

section QueueSteps

variable {who : Nat} {queues : Nat → List Nat} {h : Nat} {rest : List Nat} {n : Nat}

theorem acquireQueues_cons_none (hq : (queues h).head? = none) :
    acquireQueues who queues (h :: rest) n =
      acquireQueues who (Function.update queues h (queues h ++ [who])) rest (n + 1) := by
  simp [acquireQueues, hq]

theorem acquireQueues_cons_self (hq : (queues h).head? = some who) :
    acquireQueues who queues (h :: rest) n = acquireQueues who queues rest (n + 1) := by
  simp [acquireQueues, hq]

theorem acquireQueues_cons_other {cid : Nat} (hq : (queues h).head? = some cid) (hc : cid ≠ who) :
    acquireQueues who queues (h :: rest) n = (Function.update queues h (queues h ++ [who]), n) := by
  simp [acquireQueues, hq, hc]

/-- `acquire` on the queues of distinct hashes, where the command heads every
queue it is already on: it passes the first `k` hashes and heads their
queues, stops at the next one if any, which another command heads, and is
appended to the queues of those it was not on. -/
theorem acquireQueues_spec (who : Nat) {hs : List Nat} (hnd : hs.Nodup) (queues : Nat → List Nat)
    (hhead : ∀ x ∈ hs, who ∈ queues x → (queues x).head? = some who) (n : Nat) :
    ∃ k ≤ hs.length, (acquireQueues who queues hs n).2 = n + k ∧
      (∀ x ∈ hs.take k, ((acquireQueues who queues hs n).1 x).head? = some who) ∧
      (∀ x ∈ (hs.drop k).head?, (queues x).head?.isSome ∧ (queues x).head? ≠ some who) ∧
      ∀ x, (acquireQueues who queues hs n).1 x =
        if x ∈ hs.take (k + 1) ∧ who ∉ queues x then queues x ++ [who] else queues x := by
  induction hs generalizing queues n with
  | nil => exact ⟨0, Nat.le_refl 0, rfl, by simp, by simp, fun x => by simp [acquireQueues]⟩
  | cons h rest ih =>
    obtain ⟨hh, hnd'⟩ := List.nodup_cons.mp hnd
    have hrest : ∀ x ∈ rest, x ≠ h := fun x hx he => hh (he ▸ hx)
    rcases hq : (queues h).head? with _ | cid
    · -- an empty queue: the command queues on it and passes it
      have hempty : queues h = [] := List.head?_eq_none_iff.mp hq
      obtain ⟨k, hk, hn, hpass, hstop, hq'⟩ :=
        ih hnd' (Function.update queues h (queues h ++ [who]))
          (fun x hx => by
            rw [Function.update_of_ne (hrest x hx)]
            exact hhead x (List.mem_cons_of_mem h hx)) (n + 1)
      have hh' : (acquireQueues who (Function.update queues h (queues h ++ [who])) rest (n + 1)).1 h
          = [who] := by
        rw [hq', if_neg fun hm => hh (List.mem_of_mem_take hm.1), Function.update_self, hempty]
        rfl
      rw [acquireQueues_cons_none hq]
      refine ⟨k + 1, by simpa using hk, by omega, ?_, ?_, fun x => ?_⟩
      · intro x hx
        rcases List.mem_cons.mp (by simpa using hx) with rfl | hx
        · rw [hh']
          rfl
        · exact hpass x hx
      · intro x hx
        have hx' : x ∈ (rest.drop k).head? := by simpa using hx
        have hne : x ≠ h := hrest x (List.mem_of_mem_head? hx' |> List.mem_of_mem_drop)
        simpa [Function.update_of_ne hne] using hstop x hx'
      · by_cases hxh : x = h
        · subst hxh
          rw [hh', if_pos ⟨by simp, by simp [hempty]⟩, hempty]
          rfl
        · rw [hq', Function.update_of_ne hxh]
          simp [hxh]
    · by_cases hc : cid = who
      · -- the command heads the queue already: it passes it
        subst hc
        obtain ⟨k, hk, hn, hpass, hstop, hq'⟩ := ih hnd' queues
          (fun x hx => hhead x (List.mem_cons_of_mem h hx)) (n + 1)
        have hin : cid ∈ queues h := List.mem_of_mem_head? hq
        have hh' : (acquireQueues cid queues rest (n + 1)).1 h = queues h := by
          rw [hq', if_neg fun hm => hh (List.mem_of_mem_take hm.1)]
        rw [acquireQueues_cons_self hq]
        refine ⟨k + 1, by simpa using hk, by omega, ?_, ?_, fun x => ?_⟩
        · intro x hx
          rcases List.mem_cons.mp (by simpa using hx) with rfl | hx
          · rw [hh', hq]
          · exact hpass x hx
        · intro x hx
          simpa using hstop x (by simpa using hx)
        · by_cases hxh : x = h
          · subst hxh
            simp [hh', hin]
          · rw [hq']
            simp [hxh]
      · -- another command heads the queue: the command queues behind it and stops
        have hnot : who ∉ queues h := fun hin => hc (Option.some.inj ((hhead h List.mem_cons_self hin) ▸ hq).symm)
        rw [acquireQueues_cons_other hq hc]
        refine ⟨0, Nat.zero_le _, rfl, by simp, ?_, fun x => ?_⟩
        · intro x hx
          simp only [List.drop_zero, List.head?_cons, Option.mem_def, Option.some.injEq] at hx
          subst hx
          simp [hq, hc]
        · by_cases hxh : x = h
          · subst hxh
            simp [hnot]
          · simp [hxh]

/-- `release` on the queues of distinct hashes: the command comes off each,
the command a hash is kept for goes to its head, and the wake-up list holds
the next command of each hash not kept. -/
theorem releaseQueues_spec (keptFor : Nat → Option Nat) (queues : Nat → List Nat) {hs : List Nat}
    (hnd : hs.Nodup) :
    (releaseQueues keptFor queues hs).1 =
        (fun x => if x ∈ hs then (keptFor x).toList ++ (queues x).tail else queues x) ∧
      (releaseQueues keptFor queues hs).2 =
        hs.filterMap fun x => if (keptFor x).isSome then none else (queues x).tail.head? := by
  induction hs generalizing queues with
  | nil => exact ⟨rfl, rfl⟩
  | cons h rest ih =>
    obtain ⟨hh, hnd'⟩ := List.nodup_cons.mp hnd
    have hrest : ∀ x ∈ rest, x ≠ h := fun x hx he => hh (he ▸ hx)
    rcases hk : keptFor h with _ | cid
    · obtain ⟨h₁, h₂⟩ := ih (Function.update queues h (queues h).tail) hnd'
      rw [Latches.releaseQueues_cons_none hk, h₁, h₂]
      refine ⟨funext fun x => ?_, ?_⟩
      · by_cases hxh : x = h
        · subst hxh
          simp [hh, hk]
        · simp [hxh]
      · have hmap : rest.filterMap (fun x => if (keptFor x).isSome then none
              else (Function.update queues h (queues h).tail x).tail.head?) =
            rest.filterMap fun x => if (keptFor x).isSome then none else (queues x).tail.head? :=
          List.filterMap_congr fun x hx => by rw [Function.update_of_ne (hrest x hx)]
        rw [hmap, List.filterMap_cons]
        cases (queues h).tail.head? <;> simp [hk]
    · obtain ⟨h₁, h₂⟩ := ih (Function.update queues h (cid :: (queues h).tail)) hnd'
      rw [Latches.releaseQueues_cons_some hk, h₁, h₂]
      refine ⟨funext fun x => ?_, ?_⟩
      · by_cases hxh : x = h
        · subst hxh
          simp [hh, hk]
        · simp [hxh]
      · have hmap : rest.filterMap (fun x => if (keptFor x).isSome then none
              else (Function.update queues h (cid :: (queues h).tail) x).tail.head?) =
            rest.filterMap fun x => if (keptFor x).isSome then none else (queues x).tail.head? :=
          List.filterMap_congr fun x hx => by rw [Function.update_of_ne (hrest x hx)]
        rw [hmap, List.filterMap_cons]
        simp [hk]

end QueueSteps

end Tikv.Scheduler
