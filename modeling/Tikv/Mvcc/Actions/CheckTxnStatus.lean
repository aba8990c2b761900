import Tikv.Mvcc.Reader

/-!
# Commit, rollback and transaction status of one key

`commit` turns the transaction's own lock into a commit record at
`commit_ts`. `rollback_lock` removes the lock and leaves a rollback record at
the transaction's `start_ts` (`make_rollback`): a protected one on a primary
key, and, when another transaction committed at exactly that timestamp, the
overlapped-rollback flag on that transaction's record instead.
`check_txn_status_missing_lock` decides a transaction whose lock is gone from
its commit record and otherwise writes a rollback record, marking an
async-commit lock of another transaction that could commit onto it.
`cleanup` and the check of a present primary lock are built on these.

Results:
* `makeRollback_rollback`: without an overlapped record the rollback record
  is a `Rollback` at the transaction's start, protected as asked.
-/
namespace Tikv.Mvcc
open Tikv.Codec Tikv.TxnTypes

/-- mirrors src/storage/types.rs:102-120 -/
inductive TxnStatus where
  | rolledBack
  | ttlExpire
  | lockNotExist
  | uncommitted (lock : Lock) (minCommitTsPushed : Bool)
  | committed (commitTs : TimeStamp)
  | pessimisticRollBack
  | lockNotExistDoNothing
  deriving DecidableEq, Repr

/-! ## Commit -/

/-- mirrors src/storage/txn/actions/commit.rs:14-116 -/
def commit (snap : KeyState) (commitTs : TimeStamp) : TxnM Unit := do
  let startTs ← startTs
  match snap.lock.filter (fun lock => lock.ts = startTs) with
  | some lock =>
    if commitTs < lock.minCommitTs then
      throw (.commitTsExpired startTs commitTs lock.minCommitTs)
    -- a stale pessimistic lock is removed, not committed
    if lock.isPessimisticLock then unlockKey
    else
      let writeType ← match WriteType.fromLockType lock.lockType with
        | some t => pure t
        | none => throw .panicked
      let write := ((Write.new writeType startTs lock.shortValue).setLastChange
        lock.lastChange).setTxnSource lock.txnSource
      -- the commit lands on a protected rollback recorded in the lock
      let write :=
        if lock.rollbackTs.contains commitTs then write.setOverlappedRollback true none else write
      putWrite commitTs write
      unlockKey
  | none =>
    match (← liftExcept (getTxnCommitRecord snap startTs)).info with
    | some (_, .rollback) | none => throw (.txnLockNotFound startTs commitTs)
    -- committed by a concurrent command
    | some _ => return

/-! ## Rollback records -/

/-- mirrors src/storage/txn/actions/check_txn_status.rs:372-391 -/
def makeRollback (startTs : TimeStamp) (protect : Bool) (overlappedWrite : Option OverlappedWrite) :
    Except Error (Option Write) :=
  match overlappedWrite with
  | some ⟨write, gcFence⟩ =>
    if startTs ≤ write.startTs then .error .panicked
    else if protect then .ok (some (write.setOverlappedRollback true (some gcFence)))
    -- the other transaction's record stays as it is
    else .ok none
  | none => .ok (some (Write.newRollback startTs protect))

theorem makeRollback_rollback (startTs : TimeStamp) (protect : Bool) :
    makeRollback startTs protect none = .ok (some (Write.newRollback startTs protect)) := rfl

/-- mirrors src/storage/txn/actions/check_txn_status.rs:393-398 -/
inductive MissingLockAction where
  | rollback
  | protectedRollback
  | returnError
  deriving DecidableEq, Repr

namespace MissingLockAction

/-- mirrors src/storage/txn/actions/check_txn_status.rs:401-407 -/
def rollbackProtect (protectRollback : Bool) : MissingLockAction :=
  if protectRollback then .protectedRollback else .rollback

/-- mirrors src/storage/txn/actions/check_txn_status.rs:409-415
(`MissingLockAction::rollback`) -/
def rollbackIfNotExist (rollbackIfNotExist : Bool) : MissingLockAction :=
  if rollbackIfNotExist then .protectedRollback else .returnError

/-- mirrors src/storage/txn/actions/check_txn_status.rs:417-423 -/
def collapseRollback : MissingLockAction → Except Error Bool
  | .rollback => .ok true
  | .protectedRollback => .ok false
  | .returnError => .error .panicked

/-- mirrors src/storage/txn/actions/check_txn_status.rs:425-431 -/
def constructWrite (a : MissingLockAction) (ts : TimeStamp)
    (overlappedWrite : Option OverlappedWrite) : Except Error (Option Write) := do
  makeRollback ts (!(← a.collapseRollback)) overlappedWrite

end MissingLockAction

/-- mirrors src/storage/txn/actions/check_txn_status.rs:359-370 -/
def collapsePrevRollback (snap : KeyState) : TxnM Unit := do
  match seekWrite snap (← startTs) with
  | some (commitTs, write) =>
    if write.writeType = .rollback && !write.asRef.isProtected then deleteWrite commitTs
  | none => return

/-- mirrors src/storage/txn/actions/check_txn_status.rs:301-357. The flag
`is_pessimistic_txn` only goes into the released-lock notice, left out. -/
def rollbackLock (snap : KeyState) (key : Bytes) (lock : Lock) (collapseRollback : Bool) :
    TxnM Unit := do
  let startTs ← startTs
  match ← liftExcept (getTxnCommitRecord snap startTs) with
  | .none overlappedWrite =>
    -- only a `Put` without a short value has a value to delete
    if lock.shortValue.isNone && lock.lockType = .put then deleteValue lock.ts
    -- the primary key, and every key of pipelined DML, is protected
    let protect := key = lock.primary || lock.generation > 0
    if let some write ← liftExcept (makeRollback startTs protect overlappedWrite) then
      putWrite startTs write
    if collapseRollback then collapsePrevRollback snap
    unlockKey
  | .singleRecord _ write =>
    -- "txn record found but not expected"
    if write.writeType ≠ .rollback then throw .panicked
    unlockKey
  | .overlappedRollback _ => unlockKey

/-! ## Transaction status -/

/-- mirrors src/storage/txn/actions/check_txn_status.rs:221-241 -/
def checkDeterminedTxnStatus (snap : KeyState) (startTs : TimeStamp) :
    Except Error (Option TxnStatus) := do
  match ← getTxnCommitRecord snap startTs with
  | .singleRecord commitTs write =>
    return some (if write.writeType = .rollback then .rolledBack else .committed commitTs)
  | .overlappedRollback _ => return some .rolledBack
  | .none _ => return none

/-- mirrors src/storage/txn/actions/check_txn_status.rs:243-299 -/
def checkTxnStatusMissingLock (snap : KeyState) (mismatchLock : Option Lock)
    (action : MissingLockAction) (resolvingPessimisticLock : Bool) : TxnM TxnStatus := do
  let startTs ← startTs
  match ← liftExcept (getTxnCommitRecord snap startTs) with
  | .singleRecord commitTs write =>
    return if write.writeType = .rollback then .rolledBack else .committed commitTs
  | .overlappedRollback _ => return .rolledBack
  | .none overlappedWrite =>
    if action = .returnError then throw (.txnNotFound startTs)
    if resolvingPessimisticLock then return .lockNotExistDoNothing
    if ← liftExcept action.collapseRollback then collapsePrevRollback snap
    -- another transaction's lock could commit onto this rollback
    if let (some l, none) := (mismatchLock, overlappedWrite) then
      markRollbackOnMismatchingLock l (action = .protectedRollback)
    -- a stale prewrite arriving later must find the rollback
    if let some write ← liftExcept (action.constructWrite startTs overlappedWrite) then
      putWrite startTs write
    return .lockNotExist

/-- mirrors src/storage/txn/actions/check_txn_status.rs:15-68. Returns the
status when the primary pessimistic lock decides it; the lock is then
released. -/
def checkTxnStatusFromPessimisticPrimaryLock (snap : KeyState) (primaryKey : Bytes) (lock : Lock)
    (currentTs : TimeStamp) (resolvingPessimisticLock : Bool) : TxnM (Option TxnStatus) := do
  -- a lock taken with conflict may be stale: the storage decides first
  if lock.isPessimisticLockWithConflict then
    if let some txnStatus ← liftExcept (checkDeterminedTxnStatus snap (← startTs)) then
      unlockKey
      return some txnStatus
  if TimeStamp.physical lock.ts + lock.ttl < TimeStamp.physical currentTs then
    if resolvingPessimisticLock then
      unlockKey
      return some .pessimisticRollBack
    else
      rollbackLock snap primaryKey lock true
      return some .ttlExpire
  return none

/-- mirrors src/storage/txn/actions/check_txn_status.rs:94-219 -/
def checkTxnStatusLockExists (snap : KeyState) (primaryKey : Bytes) (lock : Lock)
    (currentTs callerStartTs : TimeStamp)
    (forceSyncCommit resolvingPessimisticLock verifyIsPrimary rollbackIfNotExist : Bool) :
    TxnM TxnStatus := do
  if verifyIsPrimary && primaryKey ≠ lock.primary then
    -- a pessimistic lock that is not the primary of a prewritten transaction is invalid
    if !resolvingPessimisticLock && lock.isPessimisticLock then
      let txnStatus ← checkTxnStatusMissingLock snap none
        (MissingLockAction.rollbackIfNotExist rollbackIfNotExist) resolvingPessimisticLock
      unlockKey
      return txnStatus
    else throw (.primaryMismatch lock)
  -- async-commit locks are resolved by ResolveLock, never here
  if lock.useAsyncCommit && !forceSyncCommit then return .uncommitted lock false
  if lock.isPessimisticLock then
    if let some txnStatus ←
        checkTxnStatusFromPessimisticPrimaryLock snap primaryKey lock currentTs
          resolvingPessimisticLock then
      return txnStatus
  else if TimeStamp.physical lock.ts + lock.ttl < TimeStamp.physical currentTs then
    rollbackLock snap primaryKey lock true
    return .ttlExpire
  -- push min_commit_ts past the caller so that its read is not blocked
  let lock ←
    if lock.minCommitTs ≠ 0 && callerStartTs ≠ TimeStamp.max && callerStartTs ≥ lock.minCommitTs
    then do
      let next ← liftExcept (TimeStamp.next callerStartTs)
      let lock := { lock with minCommitTs := if next < currentTs then currentTs else next }
      putLock lock
      pure lock
    else pure lock
  let minCommitTsPushed :=
    (callerStartTs ≠ 0 && lock.minCommitTs > callerStartTs) || callerStartTs = TimeStamp.max
  return .uncommitted lock minCommitTsPushed

/-! ## Cleanup -/

/-- mirrors src/storage/txn/actions/cleanup.rs:22-77 -/
def cleanup (snap : KeyState) (key : Bytes) (currentTs : TimeStamp) (protectRollback : Bool) :
    TxnM Unit := do
  let startTs ← startTs
  match snap.lock.filter (fun lock => lock.ts = startTs) with
  | some lock =>
    -- a lock within its TTL is not rolled back unless `current_ts` is zero
    if currentTs ≠ 0 && TimeStamp.physical lock.ts + lock.ttl ≥ TimeStamp.physical currentTs then
      throw (.keyIsLocked lock)
    rollbackLock snap key lock (!protectRollback)
  | none =>
    match ← checkTxnStatusMissingLock snap snap.lock
        (MissingLockAction.rollbackProtect protectRollback) false with
    | .committed commitTs => throw (.committed startTs commitTs)
    | .rolledBack | .lockNotExist => return
    | _ => throw .panicked

end Tikv.Mvcc
