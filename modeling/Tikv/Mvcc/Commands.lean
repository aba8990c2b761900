import Tikv.Mvcc.Actions.Prewrite
import Tikv.Mvcc.Actions.CheckTxnStatus
import Tikv.Mvcc.Actions.AcquirePessimisticLock

/-!
# Transaction commands on one key (`storage::txn::commands`)

A command runs its actions against a snapshot and, when it succeeds, the
scheduler writes all the modifications they left at once; when it fails
nothing is written. Commands run one at a time on a key (the latches), so a
run of commands is a sequence of atomic steps on `Storage`: the key's column
families and the concurrency manager's `max_ts`. A raise of `max_ts` stays
even when the command then fails.

Every command here acts on the one key `key`: a request that names several
keys is taken for its part on this key. The requests keep the fields the
commands read; the lock-waiting and change-data-capture parameters are left
out.

Results:
* `process_failed`: a command that fails writes nothing.
-/
namespace Tikv.Mvcc
open Tikv.Codec Tikv.TxnTypes

/-- One key's column families and the concurrency manager. -/
structure Storage where
  key : KeyState
  maxTs : TimeStamp
  deriving DecidableEq

/-- The engine writes the command's modifications. -/
def Storage.write (s : Storage) (txn : MvccTxn) : Storage :=
  { key := s.key.applyModifies txn.modifies, maxTs := txn.maxTs }

/-- Nothing is written; the raises of `max_ts` stay. -/
def Storage.discard (s : Storage) (txn : MvccTxn) : Storage :=
  { s with maxTs := txn.maxTs }

/-- mirrors src/storage/types.rs:403-407 -/
inductive SecondaryLocksStatus where
  | locked (locks : List Lock)
  | committed (commitTs : TimeStamp)
  | rolledBack
  deriving DecidableEq, Repr

/-- mirrors src/storage/types.rs:143-148 -/
structure PrewriteResult where
  locks : List Error
  minCommitTs : TimeStamp
  onePcCommitTs : TimeStamp
  deriving DecidableEq, Repr

/-- mirrors src/storage/txn/mod.rs:52-89, the results of these commands. -/
inductive ProcessResult where
  | res
  | prewriteResult (result : PrewriteResult)
  | txnStatus (txnStatus : TxnStatus)
  | pessimisticLockRes (res : PessimisticLockKeyResult)
  | secondaryLocksStatus (status : SecondaryLocksStatus)
  deriving DecidableEq, Repr

/-! ## Prewrite -/

/-- A prewrite request (`Prewrite` or `PrewritePessimistic`) for its mutation
on the key. `committedInStatusCache` is whether the transaction status cache
knows the transaction committed. -/
structure PrewriteRequest where
  mutation : Mutation
  pessimisticAction : PrewriteRequestPessimisticAction
  expectedForUpdateTs : Option TimeStamp
  primary : Bytes
  startTs : TimeStamp
  lockTtl : UInt64
  kind : TransactionKind
  txnSize : UInt64
  minCommitTs : TimeStamp
  maxCommitTs : TimeStamp
  secondaryKeys : Option (List Bytes)
  tryOnePc : Bool
  assertionLevel : AssertionLevel
  isRetryRequest : Bool
  txnSource : UInt64
  committedInStatusCache : Bool
  deriving DecidableEq, Repr

/-- mirrors src/storage/txn/commands/prewrite.rs:966-987 -/
def handle1pcLocks (commitTs : TimeStamp) : TxnM Unit := do
  let locks := (← get).locksFor1pc
  modify fun t => { t with locksFor1pc := [] }
  locks.forM fun (lock, deletePessimisticLock) => do
    let writeType ← match WriteType.fromLockType lock.lockType with
      | some t => pure t
      | none => throw .panicked
    let write := ((Write.new writeType (← startTs) lock.shortValue).setLastChange
      lock.lastChange).setTxnSource lock.txnSource
    -- "should be impossible to overwrite rollback records"
    putWrite commitTs write
    if deletePessimisticLock then unlockKey

/-- mirrors src/storage/txn/commands/prewrite.rs:989-996 -/
def fallback1pcLocks : TxnM Unit := do
  let locks := (← get).locksFor1pc
  modify fun t => { t with locksFor1pc := [] }
  locks.forM fun (lock, _) => putLock { lock with useOnePc := false }

/-- mirrors src/storage/txn/commands/prewrite.rs:949-964 -/
def onePcCommit (tryOnePc : Bool) (finalMinCommitTs : TimeStamp) : TxnM TimeStamp := do
  if tryOnePc then
    if finalMinCommitTs = 0 then throw .panicked
    handle1pcLocks finalMinCommitTs
    return finalMinCommitTs
  else
    if (← get).locksFor1pc ≠ [] then throw .panicked
    return 0

/-- mirrors src/storage/txn/actions/common.rs:69-90: a prewrite that failed
with a conflict succeeds after all when the transaction is already
committed. -/
def checkCommittedRecordOnErr (snap : KeyState) (startTs : TimeStamp) (err : Error) :
    Except Error TimeStamp :=
  match getTxnCommitRecord snap startTs with
  | .ok (.singleRecord commitTs write) =>
    if write.writeType ≠ .rollback then .ok commitTs else .error err
  | .ok _ => .error err
  | .error e => .error e

/-- mirrors src/storage/txn/commands/prewrite.rs:719-797 (`write_result`):
nothing is written when a key is locked. -/
def prewriteWriteResult (s : Storage) (txn : MvccTxn) (asyncCommit tryOnePc : Bool)
    (locks : List Error) (finalMinCommitTs : TimeStamp) : Storage × Except Error ProcessResult :=
  let asyncCommitTs := if asyncCommit then finalMinCommitTs else 0
  if locks.isEmpty then
    match runTxn (onePcCommit tryOnePc finalMinCommitTs) txn with
    | (.ok onePcCommitTs, txn) =>
      (s.write txn, .ok (.prewriteResult ⟨[], asyncCommitTs, onePcCommitTs⟩))
    | (.error e, txn) => (s.discard txn, .error e)
  else (s.discard txn, .ok (.prewriteResult ⟨locks, asyncCommitTs, 0⟩))

/-- The prewrite falls back to 2PC: the 1PC lock becomes an ordinary lock and
the request no longer asks for async commit or 1PC
(src/storage/txn/commands/prewrite.rs:654-664). -/
def prewriteFallback (s : Storage) (txn : MvccTxn) : Storage × Except Error ProcessResult :=
  prewriteWriteResult s (runTxn fallback1pcLocks txn).2 false false [] 0

/-- The prewrite returns what it knows of the committed transaction, and
writes nothing (src/storage/txn/actions/common.rs:79-86,
src/storage/txn/commands/prewrite.rs:732-760). -/
def prewriteCommitted (s : Storage) (txn : MvccTxn) (asyncCommit tryOnePc : Bool)
    (commitTs : TimeStamp) : Storage × Except Error ProcessResult :=
  prewriteWriteResult s { txn with modifies := [], locksFor1pc := [] } asyncCommit tryOnePc []
    commitTs

/-- mirrors src/storage/txn/commands/prewrite.rs:497-711
(`Prewriter::process_write` and `prewrite` for the key's mutation). -/
def processPrewrite (key : Bytes) (canEnableLastChangeTs : Bool) (req : PrewriteRequest)
    (s : Storage) : Storage × Except Error ProcessResult :=
  -- a transaction known to be committed is prewritten as a retry
  let isRetryRequest :=
    req.isRetryRequest || (req.kind matches .pessimistic _ && req.committedInStatusCache)
  let commitKind : CommitKind :=
    if req.tryOnePc then .onePc req.maxCommitTs
    else if req.secondaryKeys.isSome then .async req.maxCommitTs
    else .twoPc
  let txnProps : TransactionProperties := {
    startTs := req.startTs, kind := req.kind, commitKind, primary := req.primary,
    txnSize := req.txnSize, lockTtl := req.lockTtl, minCommitTs := req.minCommitTs,
    isRetryRequest, assertionLevel := req.assertionLevel, txnSource := req.txnSource }
  -- the secondaries go to the primary's lock only
  let secondaries :=
    if req.secondaryKeys.any (fun keys => !keys.isEmpty) && key = req.primary then
      req.secondaryKeys
    else req.secondaryKeys.map fun _ => []
  let needMinCommitTs := secondaries.isSome || req.tryOnePc
  -- an optimistic mutation carries no pessimistic action
  let (pessimisticAction, expectedForUpdateTs) := match req.kind with
    | .optimistic _ => (PrewriteRequestPessimisticAction.skipPessimisticCheck, none)
    | .pessimistic _ => (req.pessimisticAction, req.expectedForUpdateTs)
  let asyncCommit := req.secondaryKeys.isSome
  match runTxn (prewrite s.key canEnableLastChangeTs txnProps req.mutation secondaries
      pessimisticAction expectedForUpdateTs) (MvccTxn.new req.startTs s.maxTs) with
  | (.ok ts, txn) =>
    if !(needMinCommitTs && ts = 0) then
      prewriteWriteResult s txn asyncCommit req.tryOnePc [] (if needMinCommitTs then ts else 0)
    -- the lock was prewritten before and has fallen back from async commit or 1PC
    else prewriteFallback s txn
  | (.error e, txn) =>
    let committed := checkCommittedRecordOnErr s.key req.startTs e
    match e with
    | .writeConflict _ _ conflictCommitTs _ _ =>
      if conflictCommitTs > req.startTs then
        match committed with
        | .ok commitTs => prewriteCommitted s txn asyncCommit req.tryOnePc commitTs
        | .error e => (s.discard txn, .error e)
      else (s.discard txn, .error e)
    | .pessimisticLockNotFound .. =>
      match committed with
      | .ok commitTs => prewriteCommitted s txn asyncCommit req.tryOnePc commitTs
      | .error e => (s.discard txn, .error e)
    | .commitTsTooLarge .. =>
      -- a retry of a committed transaction must not fall back and commit twice
      match committed with
      | .ok commitTs => prewriteCommitted s txn asyncCommit req.tryOnePc commitTs
      | .error _ => prewriteFallback s txn
    | .keyIsLocked _ =>
      match committed with
      | .ok commitTs => prewriteCommitted s txn asyncCommit req.tryOnePc commitTs
      | .error e => prewriteWriteResult s txn asyncCommit req.tryOnePc [e] 0
    | e => (s.discard txn, .error e)

/-! ## Pessimistic locks -/

/-- An `AcquirePessimisticLock` request for the key. `waitTimeout` is whether
the request waits for a lock it meets. -/
structure AcquirePessimisticLockRequest where
  primary : Bytes
  startTs : TimeStamp
  lockTtl : UInt64
  isFirstLock : Bool
  forUpdateTs : TimeStamp
  waitTimeout : Bool
  shouldNotExist : Bool
  returnValues : Bool
  checkExistence : Bool
  minCommitTs : TimeStamp
  lockOnlyIfExists : Bool
  allowLockWithConflict : Bool
  deriving DecidableEq, Repr

/-- mirrors src/storage/txn/commands/acquire_pessimistic_lock.rs:80-194: a
lock met is waited for or reported, and nothing is locked. -/
def processAcquirePessimisticLock (canEnableLastChangeTs : Bool)
    (req : AcquirePessimisticLockRequest) (s : Storage) : Storage × Except Error ProcessResult :=
  match runTxn (acquirePessimisticLock s.key canEnableLastChangeTs req.primary req.shouldNotExist
      req.lockTtl req.forUpdateTs req.returnValues req.checkExistence req.minCommitTs
      req.lockOnlyIfExists req.allowLockWithConflict) (MvccTxn.new req.startTs s.maxTs) with
  | (.ok res, txn) => (s.write txn, .ok (.pessimisticLockRes res))
  | (.error (.keyIsLocked lock), txn) =>
    if req.waitTimeout then (s.discard txn, .ok (.pessimisticLockRes .waiting))
    else if req.allowLockWithConflict then (s.discard txn, .ok (.pessimisticLockRes .failed))
    else (s.discard txn, .error (.keyIsLocked lock))
  | (.error e, txn) => (s.discard txn, .error e)

/-- mirrors src/storage/txn/commands/pessimistic_rollback.rs:56-115 -/
def pessimisticRollback (snap : KeyState) (forUpdateTs : TimeStamp) : TxnM Unit := do
  if let some lock := snap.lock then
    if lock.isPessimisticLock && lock.ts = (← startTs) && lock.forUpdateTs ≤ forUpdateTs then
      unlockKey

/-- mirrors src/storage/txn/commands/txn_heart_beat.rs:57-112 -/
def txnHeartBeat (snap : KeyState) (adviseTtl : UInt64) (minCommitTs : TimeStamp) :
    TxnM TxnStatus := do
  let startTs ← startTs
  match snap.lock.filter (fun lock => lock.ts = startTs) with
  | some lock =>
    let ttlUpdated := lock.ttl < adviseTtl
    let lock := if ttlUpdated then { lock with ttl := adviseTtl } else lock
    -- only a pipelined transaction without async commit has its min_commit_ts pushed
    let pushMinCommitTs :=
      !lock.useAsyncCommit && lock.generation > 0 && minCommitTs > 0 &&
        lock.minCommitTs < minCommitTs
    let lock := if pushMinCommitTs then { lock with minCommitTs } else lock
    if ttlUpdated || pushMinCommitTs then putLock lock
    return .uncommitted lock false
  | none => throw (.txnNotFound startTs)

/-! ## Secondary locks of async commit -/

/-- mirrors src/storage/txn/commands/check_secondary_locks.rs:53-58 -/
inductive SecondaryLockStatus where
  | locked (lock : Lock)
  | committed (commitTs : TimeStamp)
  | rolledBack
  deriving DecidableEq, Repr

/-- mirrors src/storage/txn/commands/check_secondary_locks.rs:60-89. The flag
says a rollback record is to be written. -/
def checkSecondaryDeterminedTxnStatus (snap : KeyState) (startTs : TimeStamp) :
    Except Error (SecondaryLockStatus × Bool × Option OverlappedWrite) := do
  match ← getTxnCommitRecord snap startTs with
  | .singleRecord commitTs write =>
    let status := if write.writeType ≠ .rollback then .committed commitTs else .rolledBack
    return (status, false, none)
  | .overlappedRollback _ => return (.rolledBack, false, none)
  | .none overlappedWrite => return (.rolledBack, true, overlappedWrite)

/-- mirrors src/storage/txn/commands/check_secondary_locks.rs:91-141 -/
def checkStatusFromLock (snap : KeyState) (lock : Lock) :
    TxnM (SecondaryLockStatus × Bool × Option OverlappedWrite) := do
  let startTs ← startTs
  let overlappedWrite ←
    if lock.isPessimisticLockWithConflict then do
      let (status, needRollback, overlappedWrite) ←
        liftExcept (checkSecondaryDeterminedTxnStatus snap startTs)
      -- a commit or rollback record makes the pessimistic lock stale
      if !needRollback then
        unlockKey
        return (status, needRollback, overlappedWrite)
      pure overlappedWrite
    else pure none
  if lock.isPessimisticLock then
    unlockKey
    let overlappedWriteRes ←
      if lock.isPessimisticLockWithConflict then pure overlappedWrite
      else
        match ← liftExcept (getTxnCommitRecord snap startTs) with
        | .none overlappedWrite => pure overlappedWrite
        -- `unwrap_none`: "txn record found but not expected"
        | _ => throw .panicked
    return (.rolledBack, true, overlappedWriteRes)
  else return (.locked lock, false, none)

/-- mirrors src/storage/txn/commands/check_secondary_locks.rs:143-210, for the
key. -/
def checkSecondaryLocks (snap : KeyState) : TxnM SecondaryLocksStatus := do
  let startTs ← startTs
  let (status, needRollback, overlappedWrite, mismatchLock) ←
    match snap.lock.filter (fun lock => lock.ts = startTs) with
    | some lock => do
      let (status, needRollback, overlappedWrite) ← checkStatusFromLock snap lock
      pure (status, needRollback, overlappedWrite, none)
    | none => do
      let (status, needRollback, overlappedWrite) ←
        liftExcept (checkSecondaryDeterminedTxnStatus snap startTs)
      pure (status, needRollback, overlappedWrite, snap.lock)
  -- the rollback is protected: a stale lock request and prewrite must fail
  if needRollback then
    if let some l := mismatchLock then markRollbackOnMismatchingLock l true
    if let some write ← liftExcept (makeRollback startTs true overlappedWrite) then
      putWrite startTs write
      collapsePrevRollback snap
  match status with
  | .locked lock => return .locked [lock]
  | .committed commitTs => return .committed commitTs
  | .rolledBack => return .rolledBack

/-! ## The commands -/

/-- A `CheckTxnStatus` request on the key as a primary. -/
structure CheckTxnStatusRequest where
  lockTs : TimeStamp
  callerStartTs : TimeStamp
  currentTs : TimeStamp
  rollbackIfNotExist : Bool
  forceSyncCommit : Bool
  resolvingPessimisticLock : Bool
  verifyIsPrimary : Bool
  deriving DecidableEq, Repr

/-- The commands a key receives. `resolveLock` carries the lock the read
phase found (its start_ts and whether it is pessimistic) and the decided
commit_ts, zero for a rollback. -/
inductive Command where
  | prewrite (req : PrewriteRequest)
  | acquirePessimisticLock (req : AcquirePessimisticLockRequest)
  | commit (lockTs commitTs : TimeStamp)
  | cleanup (startTs currentTs : TimeStamp)
  | rollback (startTs : TimeStamp)
  | checkTxnStatus (req : CheckTxnStatusRequest)
  | pessimisticRollback (startTs forUpdateTs : TimeStamp)
  | txnHeartBeat (startTs : TimeStamp) (adviseTtl : UInt64) (minCommitTs : TimeStamp)
  | checkSecondaryLocks (startTs : TimeStamp)
  | resolveLock (lockTs : TimeStamp) (lockIsPessimistic : Bool) (commitTs : TimeStamp)
  | resolveLockLite (startTs commitTs : TimeStamp)
  deriving DecidableEq, Repr

/-- A command's result as a `Storage` step: its modifications are written
when it succeeds. -/
def finish {α : Type} (s : Storage) (f : α → ProcessResult) : Except Error α × MvccTxn →
    Storage × Except Error ProcessResult
  | (.ok a, txn) => (s.write txn, .ok (f a))
  | (.error e, txn) => (s.discard txn, .error e)

/-- mirrors src/storage/txn/commands/check_txn_status.rs:85-129, the
`max_ts` raise and the check. -/
def checkTxnStatus (snap : KeyState) (key : Bytes) (req : CheckTxnStatusRequest) :
    TxnM TxnStatus := do
  let newMaxTs := if req.currentTs ≠ TimeStamp.max && req.currentTs > req.lockTs then
    req.currentTs else req.lockTs
  let newMaxTs := if req.callerStartTs ≠ TimeStamp.max && req.callerStartTs > newMaxTs then
    req.callerStartTs else newMaxTs
  updateMaxTs newMaxTs
  match snap.lock.filter (fun lock => lock.ts = req.lockTs) with
  | some lock =>
    checkTxnStatusLockExists snap key lock req.currentTs req.callerStartTs req.forceSyncCommit
      req.resolvingPessimisticLock req.verifyIsPrimary req.rollbackIfNotExist
  | none =>
    checkTxnStatusMissingLock snap snap.lock
      (MissingLockAction.rollbackIfNotExist req.rollbackIfNotExist) req.resolvingPessimisticLock

/-- mirrors src/storage/txn/commands/resolve_lock.rs:82-130, for the key:
commit at the decided `commit_ts`, or clean up when it is zero. -/
def resolveLock (snap : KeyState) (key : Bytes) (lockIsPessimistic : Bool)
    (commitTs : TimeStamp) : TxnM Unit := do
  let lockTs ← startTs
  if commitTs = 0 then cleanup snap key 0 false
  else if commitTs > lockTs then
    -- a pessimistic lock left by a committed transaction is resolved quietly
    tryCatch (commit snap commitTs) fun e =>
      match e with
      | .txnLockNotFound .. => if lockIsPessimistic then pure () else throw e
      | e => throw e
  else throw (.invalidTxnTso lockTs commitTs)

/-- One command on the key, as the scheduler runs it (`process_write`). -/
def processWrite (key : Bytes) (canEnableLastChangeTs : Bool) :
    Command → Storage → Storage × Except Error ProcessResult
  | .prewrite req, s => processPrewrite key canEnableLastChangeTs req s
  | .acquirePessimisticLock req, s => processAcquirePessimisticLock canEnableLastChangeTs req s
  | .commit lockTs commitTs, s =>
    -- mirrors src/storage/txn/commands/commit.rs:49-89
    if commitTs ≤ lockTs then (s, .error (.invalidTxnTso lockTs commitTs))
    else finish s (fun _ => .txnStatus (.committed commitTs))
      (runTxn (commit s.key commitTs) (MvccTxn.new lockTs s.maxTs))
  | .cleanup startTs currentTs, s =>
    -- mirrors src/storage/txn/commands/cleanup.rs:50-88: "It is not allowed for
    -- commit to overwrite a protected rollback. So we update max_ts"
    finish s (fun _ => .res)
      (runTxn (do updateMaxTs startTs; cleanup s.key key currentTs true)
        (MvccTxn.new startTs s.maxTs))
  | .rollback startTs, s =>
    -- mirrors src/storage/txn/commands/rollback.rs:50-85: no max_ts raise
    finish s (fun _ => .res) (runTxn (cleanup s.key key 0 false) (MvccTxn.new startTs s.maxTs))
  | .checkTxnStatus req, s =>
    finish s .txnStatus (runTxn (checkTxnStatus s.key key req) (MvccTxn.new req.lockTs s.maxTs))
  | .pessimisticRollback startTs forUpdateTs, s =>
    finish s (fun _ => .res)
      (runTxn (pessimisticRollback s.key forUpdateTs) (MvccTxn.new startTs s.maxTs))
  | .txnHeartBeat startTs adviseTtl minCommitTs, s =>
    finish s .txnStatus
      (runTxn (txnHeartBeat s.key adviseTtl minCommitTs) (MvccTxn.new startTs s.maxTs))
  | .checkSecondaryLocks startTs, s =>
    -- mirrors src/storage/txn/commands/check_secondary_locks.rs:144-152: max_ts raised
    finish s .secondaryLocksStatus
      (runTxn (do updateMaxTs startTs; checkSecondaryLocks s.key) (MvccTxn.new startTs s.maxTs))
  | .resolveLock lockTs lockIsPessimistic commitTs, s =>
    finish s (fun _ => .res)
      (runTxn (resolveLock s.key key lockIsPessimistic commitTs) (MvccTxn.new lockTs s.maxTs))
  | .resolveLockLite startTs commitTs, s =>
    -- mirrors src/storage/txn/commands/resolve_lock_lite.rs:52-90
    finish s (fun _ => .res)
      (runTxn (if commitTs ≠ 0 then commit s.key commitTs else cleanup s.key key 0 false)
        (MvccTxn.new startTs s.maxTs))

/-! ## A failed command writes nothing -/

theorem finish_key_of_error {α : Type} (s : Storage) (f : α → ProcessResult)
    (r : Except Error α × MvccTxn) (e : Error) (h : (finish s f r).2 = .error e) :
    (finish s f r).1.key = s.key := by
  obtain ⟨r, txn⟩ := r
  cases r with
  | ok a => simp [finish] at h
  | error e' => rfl

theorem prewriteWriteResult_key_of_error (s : Storage) (txn : MvccTxn) (asyncCommit tryOnePc : Bool)
    (locks : List Error) (finalMinCommitTs : TimeStamp)
    (h : (prewriteWriteResult s txn asyncCommit tryOnePc locks finalMinCommitTs).2 = .error e) :
    (prewriteWriteResult s txn asyncCommit tryOnePc locks finalMinCommitTs).1.key = s.key := by
  revert h
  unfold prewriteWriteResult
  repeat' split
  all_goals intro h
  all_goals first | rfl | simp at h

theorem processPrewrite_key_of_error (key : Bytes) (canEnableLastChangeTs : Bool)
    (req : PrewriteRequest) (s : Storage) (e : Error)
    (h : (processPrewrite key canEnableLastChangeTs req s).2 = .error e) :
    (processPrewrite key canEnableLastChangeTs req s).1.key = s.key := by
  revert h
  unfold processPrewrite prewriteFallback prewriteCommitted
  dsimp only
  -- every branch either discards the buffer or goes through `prewriteWriteResult`
  repeat' split
  all_goals intro h
  all_goals first
    | rfl
    | exact prewriteWriteResult_key_of_error _ _ _ _ _ _ h

/-- A command that fails writes nothing: only `max_ts` may have moved. -/
theorem process_failed (key : Bytes) (canEnableLastChangeTs : Bool) (c : Command) (s : Storage)
    (e : Error) (h : (processWrite key canEnableLastChangeTs c s).2 = .error e) :
    (processWrite key canEnableLastChangeTs c s).1.key = s.key := by
  cases c with
  | prewrite req => exact processPrewrite_key_of_error key canEnableLastChangeTs req s e h
  | acquirePessimisticLock req =>
    revert h
    simp only [processWrite, processAcquirePessimisticLock]
    repeat' split
    all_goals intro h
    all_goals first | rfl | simp at h
  | commit lockTs commitTs =>
    revert h
    simp only [processWrite]
    split
    · intro _; rfl
    · exact finish_key_of_error _ _ _ e
  | _ => exact finish_key_of_error _ _ _ e h

end Tikv.Mvcc
