import Tikv.Mvcc.Reader

/-!
# Prewrite of one key (`txn::actions::prewrite`)

`prewrite_with_generation` checks the key's lock (`check_lock`), the newer
versions (`check_for_newer_version`, unless the constraint check is skipped),
the assertion, and then writes the transaction's lock (`write_lock`): for an
async-commit or 1PC transaction the lock's `min_commit_ts` is computed from
the concurrency manager's `max_ts` (`async_commit_timestamps`), and a 1PC lock
is kept aside for the command to turn into a commit record.

The old value, which only the change-data-capture path reads, is left out:
the model runs without `need_old_value`. `tls_can_enable(LAST_CHANGE_TS)`, the
feature gate of the cluster version, is the parameter `canEnableLastChangeTs`.

Results:
* `skipConstraintCheck_eq_false_iff`: which prewrites check newer versions.
* `asyncCommitTimestamps_gt_maxTs`: a computed `min_commit_ts` is above the
  `max_ts` it was computed from, the start_ts and the for_update_ts.
-/
namespace Tikv.Mvcc
open Tikv.Codec Tikv.TxnTypes

/-- `kvrpcpb::PrewriteRequestPessimisticAction` -/
inductive PrewriteRequestPessimisticAction where
  | skipPessimisticCheck
  | doPessimisticCheck
  | doConstraintCheck
  deriving DecidableEq, Repr

/-- `kvrpcpb::AssertionLevel` -/
inductive AssertionLevel where
  | off
  | fast
  | strict
  deriving DecidableEq, Repr

/-- mirrors components/txn_types/src/types.rs:287-293 -/
inductive MutationType where
  | put
  | delete
  | lock
  | insert
  | other
  deriving DecidableEq, Repr

/-- mirrors components/txn_types/src/types.rs:303-318, for one key -/
inductive Mutation where
  | put (value : Value) (assertion : Assertion)
  | delete (assertion : Assertion)
  | lock (assertion : Assertion)
  | insert (value : Value) (assertion : Assertion)
  | checkNotExists (assertion : Assertion)
  deriving DecidableEq, Repr

namespace Mutation

/-- mirrors components/txn_types/src/types.rs:378-386 -/
def mutationType : Mutation → MutationType
  | .put .. => .put
  | .delete _ => .delete
  | .lock _ => .lock
  | .insert .. => .insert
  | .checkNotExists _ => .other

/-- The value of `into_key_value` (components/txn_types/src/types.rs:388-396). -/
def value : Mutation → Option Value
  | .put v _ => some v
  | .insert v _ => some v
  | _ => none

/-- mirrors components/txn_types/src/types.rs:398-403 -/
def shouldNotExists : Mutation → Bool
  | .insert .. | .checkNotExists _ => true
  | _ => false

/-- mirrors components/txn_types/src/types.rs:405-407 -/
def shouldNotWrite : Mutation → Bool
  | .checkNotExists _ => true
  | _ => false

/-- mirrors components/txn_types/src/types.rs:409-417 -/
def getAssertion : Mutation → Assertion
  | .put _ a | .delete a | .lock a | .insert _ a | .checkNotExists a => a

end Mutation

/-- mirrors components/txn_types/src/lock.rs:46-53 -/
def lockTypeFromMutation : Mutation → Option LockType
  | .put .. | .insert .. => some .put
  | .delete _ => some .delete
  | .lock _ => some .lock
  | .checkNotExists _ => none

/-- mirrors src/storage/txn/actions/prewrite.rs:253-260 -/
inductive CommitKind where
  | twoPc
  | onePc (maxCommitTs : TimeStamp)
  | async (maxCommitTs : TimeStamp)
  deriving DecidableEq, Repr

/-- mirrors src/storage/txn/actions/prewrite.rs:262-268 -/
inductive TransactionKind where
  | optimistic (skipConstraintCheck : Bool)
  | pessimistic (forUpdateTs : TimeStamp)
  deriving DecidableEq, Repr

/-- mirrors src/storage/txn/actions/prewrite.rs:214-227, without
`need_old_value`. -/
structure TransactionProperties where
  startTs : TimeStamp
  kind : TransactionKind
  commitKind : CommitKind
  primary : Bytes
  txnSize : UInt64
  lockTtl : UInt64
  minCommitTs : TimeStamp
  isRetryRequest : Bool
  assertionLevel : AssertionLevel
  txnSource : UInt64
  deriving DecidableEq, Repr

namespace TransactionProperties

/-- mirrors src/storage/txn/actions/prewrite.rs:230-236 -/
def maxCommitTs (p : TransactionProperties) : Except Error TimeStamp :=
  match p.commitKind with
  | .twoPc => .error .panicked
  | .onePc ts => .ok ts
  | .async ts => .ok ts

/-- mirrors src/storage/txn/actions/prewrite.rs:238-243 -/
def isPessimistic (p : TransactionProperties) : Bool :=
  match p.kind with
  | .optimistic _ => false
  | .pessimistic _ => true

/-- mirrors src/storage/txn/actions/prewrite.rs:245-250 -/
def forUpdateTs (p : TransactionProperties) : TimeStamp :=
  match p.kind with
  | .optimistic _ => 0
  | .pessimistic ts => ts

end TransactionProperties

/-- mirrors src/storage/txn/actions/prewrite.rs:270-283 -/
inductive LockStatus where
  | locked (minCommitTs : TimeStamp)
  | pessimistic (forUpdateTs : TimeStamp)
  | none
  deriving DecidableEq, Repr

/-- mirrors src/storage/txn/actions/prewrite.rs:279-283 -/
def LockStatus.hasPessimisticLock : LockStatus → Bool
  | .pessimistic _ => true
  | _ => false

/-- mirrors src/storage/txn/actions/prewrite.rs:285-303 -/
structure PrewriteMutation where
  value : Option Value
  mutationType : MutationType
  secondaryKeys : Option (List Bytes)
  minCommitTs : TimeStamp
  pessimisticAction : PrewriteRequestPessimisticAction
  lockType : Option LockType
  lockTtl : UInt64
  lastChange : LastChange
  shouldNotExist : Bool
  shouldNotWrite : Bool
  assertion : Assertion
  txnProps : TransactionProperties
  deriving DecidableEq, Repr

namespace PrewriteMutation

/-- mirrors src/storage/txn/actions/prewrite.rs:306-341 -/
def fromMutation (mutation : Mutation) (secondaryKeys : Option (List Bytes))
    (pessimisticAction : PrewriteRequestPessimisticAction) (txnProps : TransactionProperties) :
    Except Error PrewriteMutation :=
  if txnProps.isPessimistic && mutation.shouldNotWrite then
    .error (.other "cannot handle checkNotExists in pessimistic prewrite")
  else
    .ok {
      value := mutation.value, mutationType := mutation.mutationType, secondaryKeys,
      minCommitTs := txnProps.minCommitTs, pessimisticAction,
      lockType := lockTypeFromMutation mutation, lockTtl := txnProps.lockTtl,
      lastChange := .unknown, shouldNotExist := mutation.shouldNotExists,
      shouldNotWrite := mutation.shouldNotWrite, assertion := mutation.getAssertion, txnProps }

/-- mirrors src/storage/txn/actions/prewrite.rs:349-355: a pessimistic
transaction reports the lock with a zero TTL. -/
def lockInfo (m : PrewriteMutation) (lock : Lock) : Lock :=
  if m.txnProps.isPessimistic then { lock with ttl := 0 } else lock

/-- mirrors src/storage/txn/actions/prewrite.rs:657-672 -/
def writeConflictError (m : PrewriteMutation) (write : Write) (commitTs : TimeStamp)
    (reason : WriteConflictReason) : Error :=
  .writeConflict m.txnProps.startTs write.startTs commitTs m.txnProps.primary reason

/-- mirrors src/storage/txn/actions/prewrite.rs:357-484. Returns the lock
status and the mutation with what the lock tells it. -/
def checkLock (m : PrewriteMutation) (lock : Lock)
    (pessimisticAction : PrewriteRequestPessimisticAction) (expectedForUpdateTs : Option TimeStamp)
    (generationToWrite : UInt64) : Except Error (LockStatus × PrewriteMutation) :=
  let startTs := m.txnProps.startTs
  if lock.ts ≠ startTs then
    -- a pessimistic prewrite must find its own pessimistic lock
    if pessimisticAction = .doPessimisticCheck then
      .error (.pessimisticLockNotFound startTs .lockTsMismatch)
    else .error (.keyIsLocked (m.lockInfo lock))
  else
    let m := { m with lastChange := lock.lastChange }
    if lock.isPessimisticLock then
      if !m.txnProps.isPessimistic then .error (.lockTypeNotMatch startTs true)
      -- a lock acquired at another for_update_ts than the client knows was lost
      else if expectedForUpdateTs.any (· ≠ lock.forUpdateTs) then
        .error (.pessimisticLockNotFound startTs .lockForUpdateTsMismatch)
      else
        .ok (.pessimistic lock.forUpdateTs,
          { m with lockTtl := Max.max m.lockTtl lock.ttl,
                   minCommitTs := Max.max m.minCommitTs lock.minCommitTs })
    else if generationToWrite > 0 && lock.generation ≥ generationToWrite then
      .error (.generationOutOfOrder generationToWrite lock)
    else if lock.generation > 0 && m.shouldNotExist && lock.lockType = .put then
      .error (.alreadyExist lock.ts)
    else
      -- a duplicated command: the lock is already written
      .ok (.locked (if lock.useAsyncCommit then lock.minCommitTs else 0), m)

/-- mirrors src/storage/txn/actions/prewrite.rs:782-798 -/
def skipConstraintCheck (m : PrewriteMutation) : Bool :=
  match m.txnProps.kind with
  | .optimistic s => s
  | .pessimistic _ =>
    match m.pessimisticAction with
    | .doPessimisticCheck => true
    -- a retried request checks, for idempotency
    | .skipPessimisticCheck => !m.txnProps.isRetryRequest
    | .doConstraintCheck => false

/-- mirrors src/storage/txn/actions/prewrite.rs:800-805 -/
def needMinCommitTs (m : PrewriteMutation) : Bool :=
  match m.txnProps.commitKind with
  | .async _ | .onePc _ => true
  | .twoPc => false

/-- mirrors src/storage/txn/actions/prewrite.rs:807-809 -/
def tryOnePc (m : PrewriteMutation) : Bool :=
  match m.txnProps.commitKind with
  | .onePc _ => true
  | _ => false

/-- mirrors src/storage/txn/actions/prewrite.rs:486-571. The loop walks the
records from the newest; it goes on below a record only past a newer
`Rollback` in a pessimistic transaction. `last_change` is computed from the
newest record (`seek_ts == TimeStamp::max()`). -/
def checkForNewerVersion (m : PrewriteMutation) (snap : KeyState) :
    Except Error (Option (Write × TimeStamp) × PrewriteMutation) :=
  go m TimeStamp.max (snap.writes.below TimeStamp.max)
where
  /-- The loop at seek timestamp `seekTs`, holding the first of the records left. -/
  go (m : PrewriteMutation) (seekTs : TimeStamp) :
      List (TimeStamp × Write) → Except Error (Option (Write × TimeStamp) × PrewriteMutation)
    | [] =>
      -- no record at all when the first seek found nothing
      .ok (none, if seekTs = TimeStamp.max then { m with lastChange := .notExist } else m)
    | (commitTs, write) :: rest => do
      let startTs := m.txnProps.startTs
      -- a record at our start_ts that says we were rolled back
      if commitTs = startTs && (write.writeType = .rollback || write.hasOverlappedRollback) then
        throw (m.writeConflictError write commitTs .selfRolledBack)
      let m ← if seekTs = TimeStamp.max then do
          let lastChange ← nextLastChangeInfo snap write startTs commitTs
          pure { m with lastChange }
        else pure m
      match m.txnProps.kind with
      | .optimistic _ =>
        if commitTs > startTs then throw (m.writeConflictError write commitTs .optimistic)
      | .pessimistic forUpdateTs =>
        if m.pessimisticAction = .doConstraintCheck && commitTs > startTs then
          throw (m.writeConflictError write commitTs .lazyUniquenessCheck)
        if commitTs > forUpdateTs then
          -- newer rollbacks are not conflicts of a pessimistic transaction
          if write.writeType = .rollback then
            let seekTs ← TimeStamp.prev commitTs
            return ← go m seekTs rest
          throw (.pessimisticLockNotFound startTs .nonLockKeyConflict)
      checkDataConstraint snap startTs m.shouldNotExist write commitTs
      return (some (write, commitTs), m)

/-- mirrors src/storage/txn/actions/prewrite.rs:767-780 -/
def assertionFailedError (m : PrewriteMutation) (existingStartTs existingCommitTs : TimeStamp) :
    Error :=
  .assertionFailed m.txnProps.startTs m.assertion existingStartTs existingCommitTs

/-- The assertion error of `check_assertion`
(src/storage/txn/actions/prewrite.rs:741-751) on the write it settled on. -/
def assertionError (m : PrewriteMutation) : Option (Write × TimeStamp) → Option Error
  | none => if m.assertion = .exist then some (m.assertionFailedError 0 0) else none
  | some (w, commitTs) =>
    if m.assertion = .exist && w.writeType = .delete then
      some (m.assertionFailedError w.startTs commitTs)
    else if m.assertion = .notExist && w.writeType = .put then
      some (m.assertionFailedError w.startTs commitTs)
    else none

/-- mirrors src/storage/txn/actions/prewrite.rs:674-765. Returns the write
it reloaded, if it did. -/
def checkAssertion (m : PrewriteMutation) (snap : KeyState) (write : Option (Write × TimeStamp))
    (writeLoaded : Bool) : Except Error (Option (Write × TimeStamp) × Bool) := do
  if m.assertion = .none || m.txnProps.assertionLevel = .off then return (none, false)
  if m.txnProps.assertionLevel ≠ .strict && !writeLoaded then return (none, false)
  -- a loaded write with a GC fence is an invalid version: regard it as none
  let write :=
    if writeLoaded && write.any (fun w => match w.1.gcFence with
        | some gcFenceTs => gcFenceTs ≠ 0
        | none => false) then none
    else write
  -- reload when nothing is loaded, or when what is loaded is not a data version
  let needReload :=
    !writeLoaded || write.any (fun w => w.1.writeType ≠ .put && w.1.writeType ≠ .delete)
  let (write, reloadedWrite, reloaded) ←
    if needReload then do
      let reloadTs := match write with
        | some w => w.2
        | none => TimeStamp.max
      let r ← getWriteWithCommitTs snap reloadTs (some m.txnProps.startTs)
      pure (r, r, true)
    else pure (write, none, false)
  match m.assertionError write with
  | some e =>
    -- an assertion error may come from a rollback: make up the skipped check
    if m.skipConstraintCheck then
      let _ ← m.checkForNewerVersion snap
    throw e
  | none => return (reloadedWrite, reloaded)

end PrewriteMutation

/-- mirrors src/storage/txn/actions/prewrite.rs:811-865: the lock's
`min_commit_ts` above `max_ts`, the start_ts and the for_update_ts, unless it
would pass `max_commit_ts`. Returns it with the lock that carries it. -/
def asyncCommitTimestamps (maxTs : TimeStamp) (lock : Lock)
    (startTs forUpdateTs maxCommitTs : TimeStamp) : Except Error (TimeStamp × Lock) := do
  let minCommitTs ← TimeStamp.next (Max.max (Max.max maxTs startTs) forUpdateTs)
  let minCommitTs := Max.max lock.minCommitTs minCommitTs
  if maxCommitTs ≠ 0 && minCommitTs > maxCommitTs then
    throw (.commitTsTooLarge startTs minCommitTs maxCommitTs)
  return (minCommitTs, { lock with minCommitTs })

namespace PrewriteMutation

/-- The lock `write_lock` builds before the timestamps
(src/storage/txn/actions/prewrite.rs:582-618). -/
def newLock (m : PrewriteMutation) (canEnableLastChangeTs : Bool) (lockType : LockType)
    (forUpdateTsToWrite : TimeStamp) (generation : UInt64) : Lock :=
  let lock := ((Lock.new lockType m.txnProps.primary m.txnProps.startTs m.lockTtl none
    forUpdateTsToWrite m.txnProps.txnSize m.minCommitTs false).setTxnSource
    m.txnProps.txnSource).withGeneration generation
  -- only a `Lock` record needs the pointer: `Put` and `Delete` are changes
  let lock :=
    if canEnableLastChangeTs && lockType = .lock then lock.setLastChange m.lastChange else lock
  let lock := match m.value with
    | some value => if isShortValue value then { lock with shortValue := some value } else lock
    | none => lock
  match m.secondaryKeys with
  | some secondaryKeys => { lock with useAsyncCommit := true, secondaries := secondaryKeys }
  -- the flag keeps the in-memory lock from being skipped by reads at max_ts
  | none => if m.tryOnePc then { lock with useOnePc := true } else lock

/-- mirrors src/storage/txn/actions/prewrite.rs:573-655. Returns the final
`min_commit_ts`; on `CommitTsTooLarge` the lock falls back to 2PC, is written,
and the error is returned. -/
def writeLock (m : PrewriteMutation) (canEnableLastChangeTs : Bool) (lockStatus : LockStatus)
    (generation : UInt64) : TxnM TimeStamp := do
  let forUpdateTsToWrite := match lockStatus with
    | .pessimistic fromPessimisticLock => Max.max m.txnProps.forUpdateTs fromPessimisticLock
    | _ => m.txnProps.forUpdateTs
  let lockType ← match m.lockType with
    | some t => pure t
    | none => throw .panicked
  let lock := m.newLock canEnableLastChangeTs lockType forUpdateTsToWrite generation
  -- a long value goes to the default column family, at start_ts
  if let some value := m.value then
    if !isShortValue value then putValue m.txnProps.startTs value
  let maxTs := (← get).maxTs
  let (res, lock, tryOnePc) ←
    if lock.useAsyncCommit || m.tryOnePc then do
      let maxCommitTs ← liftExcept m.txnProps.maxCommitTs
      pure <| match asyncCommitTimestamps maxTs lock m.txnProps.startTs m.txnProps.forUpdateTs
          maxCommitTs with
        | .ok (ts, lock) => (Except.ok ts, lock, m.tryOnePc)
        | .error (.commitTsTooLarge a b c) =>
          (.error (.commitTsTooLarge a b c),
            { lock with useOnePc := false, useAsyncCommit := false, secondaries := [] }, false)
        | .error e => (.error e, lock, m.tryOnePc)
    else pure (.ok 0, lock, m.tryOnePc)
  if tryOnePc then putLocksFor1pc lock lockStatus.hasPessimisticLock
  else putLock lock
  liftExcept res

end PrewriteMutation

/-- mirrors src/storage/txn/actions/prewrite.rs:867-921: a `DoPessimisticCheck`
key without its pessimistic lock is prewritten as in an optimistic
transaction if nothing was committed since the transaction started. -/
def amendPessimisticLock (m : PrewriteMutation) (snap : KeyState) :
    Except Error PrewriteMutation := do
  let startTs := m.txnProps.startTs
  let write := seekWrite snap TimeStamp.max
  let m ← match write with
    | some (commitTs, w) => do
      if commitTs ≥ startTs then throw (.pessimisticLockNotFound startTs .lockMissingAmendFail)
      let lastChange ← nextLastChangeInfo snap w startTs commitTs
      pure { m with lastChange }
    | none => pure { m with lastChange := .notExist }
  let _ ← m.checkAssertion snap (write.map fun w => (w.2, w.1)) true
  return m

/-- The lock check of `prewrite_with_generation`
(src/storage/txn/actions/prewrite.rs:93-106): the lock status, the mutation,
and whether the lock was amended. -/
def prewriteLockStatus (m : PrewriteMutation) (snap : KeyState)
    (pessimisticAction : PrewriteRequestPessimisticAction) (expectedForUpdateTs : Option TimeStamp)
    (generation : UInt64) : Except Error (LockStatus × PrewriteMutation × Bool) :=
  match snap.lock with
  | some lock => do
    let (st, m) ← m.checkLock lock pessimisticAction expectedForUpdateTs generation
    return (st, m, false)
  | none =>
    if pessimisticAction = .doPessimisticCheck then do
      -- pipelined DML never gets here
      if generation ≠ 0 then throw .panicked
      let m ← amendPessimisticLock m snap
      return (.none, m, true)
    else return (.none, m, false)

/-- mirrors src/storage/txn/actions/prewrite.rs:57-212, the old value left
out. Returns the final `min_commit_ts`. -/
def prewriteWithGeneration (snap : KeyState) (canEnableLastChangeTs : Bool)
    (txnProps : TransactionProperties) (mutation : Mutation) (secondaryKeys : Option (List Bytes))
    (pessimisticAction : PrewriteRequestPessimisticAction) (expectedForUpdateTs : Option TimeStamp)
    (generation : UInt64) : TxnM TimeStamp := do
  let m ← liftExcept (PrewriteMutation.fromMutation mutation secondaryKeys pessimisticAction txnProps)
  -- an insert reads the key: linearizability needs max_ts raised
  if m.shouldNotExist then updateMaxTs txnProps.startTs
  let (lockStatus, m, lockAmended) ←
    liftExcept (prewriteLockStatus m snap pessimisticAction expectedForUpdateTs generation)
  -- a key flushed again by pipelined DML is prewritten again
  if generation = 0 then
    if let .locked ts := lockStatus then return ts
  let (prevWrite, prevWriteLoaded, m) ←
    if !m.skipConstraintCheck then do
      let (w, m) ← liftExcept (m.checkForNewerVersion snap)
      pure (w, true, m)
    else pure (none, false, m)
  let isSubsequentFlush := generation > 0 && lockStatus matches .locked _
  if !lockAmended && !isSubsequentFlush then
    let _ ← liftExcept (m.checkAssertion snap prevWrite prevWriteLoaded)
  if m.shouldNotWrite then
    -- `checkNotExists` is a read
    updateMaxTs txnProps.startTs
    if m.needMinCommitTs then
      let next ← liftExcept (TimeStamp.next txnProps.startTs)
      return Max.max txnProps.minCommitTs next
    else return 0
  m.writeLock canEnableLastChangeTs lockStatus generation

/-- mirrors src/storage/txn/actions/prewrite.rs:34-55 -/
def prewrite (snap : KeyState) (canEnableLastChangeTs : Bool) (txnProps : TransactionProperties)
    (mutation : Mutation) (secondaryKeys : Option (List Bytes))
    (pessimisticAction : PrewriteRequestPessimisticAction) (expectedForUpdateTs : Option TimeStamp) :
    TxnM TimeStamp :=
  prewriteWithGeneration snap canEnableLastChangeTs txnProps mutation secondaryKeys
    pessimisticAction expectedForUpdateTs 0

/-! ## Which prewrites check, and the computed commit timestamp -/

theorem PrewriteMutation.skipConstraintCheck_eq_false_iff (m : PrewriteMutation) :
    m.skipConstraintCheck = false ↔
      m.txnProps.kind = .optimistic false ∨
      (m.txnProps.isPessimistic ∧ (m.pessimisticAction = .doConstraintCheck ∨
        (m.pessimisticAction = .skipPessimisticCheck ∧ m.txnProps.isRetryRequest))) := by
  unfold PrewriteMutation.skipConstraintCheck TransactionProperties.isPessimistic
  rcases m.txnProps.kind with s | f <;> rcases m.pessimisticAction <;> simp

theorem asyncCommitTimestamps_gt_maxTs {maxTs startTs forUpdateTs maxCommitTs : TimeStamp}
    {lock lock' : Lock} {minCommitTs : TimeStamp}
    (h : asyncCommitTimestamps maxTs lock startTs forUpdateTs maxCommitTs = .ok (minCommitTs, lock')) :
    maxTs < minCommitTs ∧ startTs < minCommitTs ∧ forUpdateTs < minCommitTs ∧
      lock'.minCommitTs = minCommitTs := by
  unfold asyncCommitTimestamps at h
  cases hn : TimeStamp.next (Max.max (Max.max maxTs startTs) forUpdateTs) with
  | error e => simp [hn, bind, Except.bind] at h
  | ok n =>
    simp only [hn, bind, Except.bind, pure, Except.pure] at h
    split at h
    · cases h
    · cases h
      -- `next` is one above the largest of the three
      unfold TimeStamp.next at hn
      split at hn
      · rename_i hlt
        cases hn
        have hm : ∀ a : TimeStamp, a ≤ Max.max (Max.max maxTs startTs) forUpdateTs →
            a < Max.max (Max.max maxTs startTs) forUpdateTs + 1 := by
          intro a ha
          rw [UInt64.lt_iff_toNat_lt, UInt64.toNat_add, UInt64.toNat_one]
          rw [UInt64.le_iff_toNat_le] at ha
          have hmax := UInt64.lt_iff_toNat_lt.mp hlt
          simp only [TimeStamp.max] at hmax
          rw [Nat.mod_eq_of_lt (by simp only [UInt64.toNat_ofNat] at hmax; omega)]
          omega
        refine ⟨?_, ?_, ?_, rfl⟩
        · exact lt_of_lt_of_le (hm _ (le_trans (le_max_left _ _) (le_max_left _ _)))
            (le_max_right _ _)
        · exact lt_of_lt_of_le (hm _ (le_trans (le_max_right _ _) (le_max_left _ _)))
            (le_max_right _ _)
        · exact lt_of_lt_of_le (hm _ (le_max_right _ _)) (le_max_right _ _)
      · cases hn

end Tikv.Mvcc
