import Tikv.Mvcc.Reader

/-!
# Pessimistic locks (`txn::actions::acquire_pessimistic_lock`)

A pessimistic transaction locks a key before it prewrites it. The lock is
taken at `for_update_ts`, the snapshot the transaction read: a version
committed after it is a write conflict, unless the request allows locking
with conflict, in which case the lock is taken at that version's `commit_ts`
and the client is told. A rollback record of the transaction itself refuses
the lock. The lock records the key's `last_change` for the prewrite that will
replace it.

`need_old_value` only feeds the change-data-capture path and is left out.

Results:
* `newSuccess_lockedWithConflict`: a lock taken with conflict reports the
  conflicting `commit_ts`, whatever else was asked.
-/
namespace Tikv.Mvcc
open Tikv.Codec Tikv.TxnTypes

/-- mirrors src/storage/types.rs:179-201 -/
inductive PessimisticLockKeyResult where
  | empty
  | value (v : Option Value)
  | existence (e : Bool)
  | lockedWithConflict (value : Option Value) (conflictTs : TimeStamp)
  | waiting
  | failed
  deriving DecidableEq, Repr

/-- mirrors src/storage/types.rs:204-219 -/
def PessimisticLockKeyResult.newSuccess (needValue needCheckExistence : Bool)
    (lockedWithConflictTs : Option TimeStamp) (value : Option Value) : PessimisticLockKeyResult :=
  match lockedWithConflictTs with
  | some conflictTs => .lockedWithConflict value conflictTs
  | none =>
    if needValue then .value value
    else if needCheckExistence then .existence value.isSome
    else .empty

theorem newSuccess_lockedWithConflict (needValue needCheckExistence : Bool) (ts : TimeStamp)
    (value : Option Value) :
    PessimisticLockKeyResult.newSuccess needValue needCheckExistence (some ts) value =
      .lockedWithConflict value ts := rfl

/-- mirrors src/storage/txn/actions/acquire_pessimistic_lock.rs:412-435 -/
structure ConflictInfo where
  conflictStartTs : TimeStamp
  conflictCommitTs : TimeStamp
  deriving DecidableEq, Repr

/-- mirrors src/storage/txn/actions/acquire_pessimistic_lock.rs:418-435 -/
def ConflictInfo.intoWriteConflictError (c : ConflictInfo) (startTs : TimeStamp) (primary : Bytes) :
    Error :=
  .writeConflict startTs c.conflictStartTs c.conflictCommitTs primary .pessimisticRetry

/-- `check_data_constraint` as the lock acquisition reports it: an existing
key found beyond what the client read is a write conflict, for the client to
retry (src/storage/txn/actions/acquire_pessimistic_lock.rs:158-181, 290-305). -/
def checkDataConstraintOrConflict (snap : KeyState) (startTs : TimeStamp) (shouldNotExist : Bool)
    (write : Write) (commitTs : TimeStamp) (conflict : Option ConflictInfo) (primary : Bytes) :
    Except Error Unit :=
  match checkDataConstraint snap startTs shouldNotExist write commitTs with
  | .error (.alreadyExist s) =>
    match conflict with
    | some c => .error (c.intoWriteConflictError startTs primary)
    | none => .error (.alreadyExist s)
  | r => r

/-- The lock acquisition on a key the transaction has already locked
pessimistically (src/storage/txn/actions/acquire_pessimistic_lock.rs:115-220). -/
def acquireOwnPessimisticLock (snap : KeyState) (lock : Lock) (primary : Bytes)
    (shouldNotExist : Bool) (lockTtl : UInt64) (forUpdateTs : TimeStamp)
    (needValue needCheckExistence : Bool) (minCommitTs : TimeStamp)
    (allowLockWithConflict : Bool) : TxnM PessimisticLockKeyResult := do
  let startTs ← startTs
  if lock.ts ≠ startTs then throw (.keyIsLocked lock)
  if !lock.isPessimisticLock then throw (.lockTypeNotMatch startTs false)
  let requestedForUpdateTs := forUpdateTs
  -- a retried request after a lock taken with conflict: answer as that one did
  let (lockedWithConflictTs, needLoadValue, forUpdateTs) :=
    if allowLockWithConflict && forUpdateTs < lock.forUpdateTs then
      (some lock.forUpdateTs, true, lock.forUpdateTs)
    else (none, needValue, forUpdateTs)
  let val ←
    if needLoadValue || needCheckExistence || shouldNotExist then do
      match ← liftExcept (getWriteWithCommitTs snap forUpdateTs (some startTs)) with
      | some (write, commitTs) =>
        let conflict :=
          if commitTs > requestedForUpdateTs then some ⟨write.startTs, commitTs⟩ else none
        liftExcept
          (checkDataConstraintOrConflict snap startTs shouldNotExist write commitTs conflict primary)
        if needLoadValue then pure (some (← liftExcept (loadData snap write)))
        else if needCheckExistence then pure (some [])
        else pure none
      | none => pure none
    else pure none
  -- overwrite the lock with the larger for_update_ts
  if forUpdateTs > lock.forUpdateTs then
    putPessimisticLock {
      primary, startTs, ttl := lockTtl, forUpdateTs, minCommitTs, lastChange := lock.lastChange,
      isLockedWithConflict := lock.isPessimisticLockWithConflict }
  return .newSuccess needValue needCheckExistence lockedWithConflictTs val

/-- The value an acquisition with conflict or a read request returns from the
newest record (src/storage/txn/actions/acquire_pessimistic_lock.rs:312-336). -/
def lockValue (snap : KeyState) (startTs : TimeStamp) (needLoadValue : Bool) (write : Write)
    (commitTs : TimeStamp) : Except Error (Option Value) := do
  match write.writeType with
  | .put =>
    if write.asRef.checkGcFenceAsLatestVersion startTs then
      if needLoadValue then return some (← loadData snap write) else return some []
    else return none
  | .delete => return none
  | .lock | .rollback =>
    let ts ← TimeStamp.prev commitTs
    if needLoadValue then MvccReader.get snap ts (some startTs)
    else return (← getWrite snap ts (some startTs)).map fun _ => []

/-- mirrors src/storage/txn/actions/acquire_pessimistic_lock.rs:40-365 -/
def acquirePessimisticLock (snap : KeyState) (canEnableLastChangeTs : Bool) (primary : Bytes)
    (shouldNotExist : Bool) (lockTtl : UInt64) (forUpdateTs : TimeStamp)
    (needValue needCheckExistence : Bool) (minCommitTs : TimeStamp)
    (lockOnlyIfExists allowLockWithConflict : Bool) : TxnM PessimisticLockKeyResult := do
  let startTs ← startTs
  if lockOnlyIfExists && !needValue then throw (.lockIfExistsFailed startTs)
  -- a read of the value: linearizability needs max_ts raised
  if shouldNotExist || needValue || needCheckExistence then updateMaxTs forUpdateTs
  match snap.lock with
  | some lock =>
    acquireOwnPessimisticLock snap lock primary shouldNotExist lockTtl forUpdateTs needValue
      needCheckExistence minCommitTs allowLockWithConflict
  | none =>
    let (conflictInfo, forUpdateTs, lastChange, val) ← match seekWrite snap TimeStamp.max with
      | some (commitTs, write) => do
        -- a version newer than what the transaction read
        let (conflictInfo, forUpdateTs, needLoadValue) ←
          if commitTs > forUpdateTs then
            if allowLockWithConflict then pure (some ⟨write.startTs, commitTs⟩, commitTs, true)
            else throw (.writeConflict startTs write.startTs commitTs primary .pessimisticRetry)
          else pure (none, forUpdateTs, needValue)
        -- the transaction's own rollback, as a record or as a flag
        if commitTs = startTs && (write.writeType = .rollback || write.hasOverlappedRollback) then
          if !(write.hasOverlappedRollback || write.startTs = commitTs) then throw .panicked
          throw (.pessimisticLockRolledBack startTs)
        if commitTs > startTs then
          if let some (olderCommitTs, olderWrite) := seekWrite snap startTs then
            if olderCommitTs = startTs &&
                (olderWrite.writeType = .rollback || olderWrite.hasOverlappedRollback) then
              throw (.pessimisticLockRolledBack startTs)
        liftExcept
          (checkDataConstraintOrConflict snap startTs shouldNotExist write commitTs conflictInfo
            primary)
        let lastChange ← liftExcept (nextLastChangeInfo snap write startTs commitTs)
        let val ←
          if needValue || needCheckExistence || conflictInfo.isSome then
            liftExcept (lockValue snap startTs needLoadValue write commitTs)
          else pure none
        pure (conflictInfo, forUpdateTs, lastChange, val)
      | none => pure (none, forUpdateTs, LastChange.notExist, none)
    let lastChange := if canEnableLastChangeTs then lastChange else .unknown
    let lock : PessimisticLock := {
      primary, startTs, ttl := lockTtl, forUpdateTs, minCommitTs, lastChange,
      isLockedWithConflict := conflictInfo.isSome }
    if !lockOnlyIfExists || val.isSome then putPessimisticLock lock
    else if let some c := conflictInfo then throw (c.intoWriteConflictError startTs primary)
    return .newSuccess needValue needCheckExistence (conflictInfo.map (·.conflictCommitTs)) val

end Tikv.Mvcc
