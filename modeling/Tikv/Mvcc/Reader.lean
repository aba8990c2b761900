import Tikv.Mvcc.Txn

/-!
# Reading one key (`storage::mvcc::reader`)

`seek_write(key, ts)` finds the newest write record at or below `ts`. The
reader's loops call it again at `commit_ts.prev()` after each record they
pass, which finds the next older record: `seekWrite_prev` proves it, so the
loops here walk the list of records from the first seek down (`below`), one
record a turn, and stay structurally recursive.

`get_write_with_commit_ts` is the read path of every transactional get: it
returns the newest `Put` at or below `ts` unless a `Delete` or a `NotExist`
pointer comes first, skips `Lock` and `Rollback` records, and jumps through a
`last_change` pointer with a point get when the pointer says many versions
lie in between (`SEEK_BOUND`).

`get_txn_commit_record` scans from the newest record down to the
transaction's `start_ts` for the transaction's own commit or rollback record.

Results:
* `seekWrite_prev`: the seek below a record the walk holds is the rest of
  the walk.
* `getWriteWithCommitTs_jump_target`: a pointer jump ends the loop, on the
  record it points to.
-/
namespace Tikv.Mvcc
open Tikv.Codec Tikv.TxnTypes

/-- mirrors components/tikv_kv/src/lib.rs:73 -/
def SEEK_BOUND : UInt64 := 8

/-- mirrors src/storage/mvcc/reader/reader.rs:455-486 (`seek_write`) -/
def seekWrite (snap : KeyState) (ts : TimeStamp) : Option (TimeStamp × Write) :=
  snap.writes.seek ts

/-- After a record at `commitTs` that the walk from `ts` holds, the next seek,
at `commit_ts.prev()`, returns the rest of the walk. -/
theorem seekWrite_prev {snap : KeyState} {ts commitTs : TimeStamp} {write : Write}
    {rest : List (TimeStamp × Write)} (h : snap.writes.below ts = (commitTs, write) :: rest)
    (hpos : 0 < commitTs) :
    snap.writes.below (commitTs - 1) = rest ∧ seekWrite snap (commitTs - 1) = rest.head? := by
  have hpos' : 0 < commitTs.toNat := by simpa [UInt64.lt_iff_toNat_lt] using hpos
  have hsub : (commitTs - 1).toNat = commitTs.toNat - 1 := by
    rw [UInt64.toNat_sub_of_le _ _ (by rw [UInt64.le_iff_toNat_le]; simp only [UInt64.toNat_one]; omega)]
    rfl
  have hsplit : ∀ c : TimeStamp, c ≤ commitTs - 1 ↔ c < commitTs := by
    intro c
    rw [UInt64.le_iff_toNat_le, UInt64.lt_iff_toNat_lt, hsub]
    omega
  have hbelow := VersionMap.below_eq_cons h hsplit
  exact ⟨hbelow, by rw [seekWrite, VersionMap.seek_eq_head?_below, hbelow]⟩

/-! ## `get_write_with_commit_ts` -/

/-- What one turn of the loop of `get_write_with_commit_ts` does with the
record it holds: end with a result, jump through `last_change`, or go on
below the record. -/
inductive WriteTurn where
  | done (res : Option (Write × TimeStamp))
  | jump (lastChangeTs : TimeStamp)
  | next
  deriving DecidableEq, Repr

/-- mirrors src/storage/mvcc/reader/reader.rs:551-592, the body of the loop
for the record `(commit_ts, write)`. -/
def writeTurn (gcFenceLimit : Option TimeStamp) (commitTs : TimeStamp) (write : Write) :
    WriteTurn :=
  if gcFenceLimit.any (fun limit => !write.asRef.checkGcFenceAsLatestVersion limit) then
    .done none
  else
    match write.writeType with
    | .put => .done (some (write, commitTs))
    | .delete => .done none
    | .lock | .rollback =>
      match write.lastChange with
      | .notExist => .done none
      | .exist lastChangeTs n => if n ≥ SEEK_BOUND then .jump lastChangeTs else .next
      | .unknown => .next

/-- The result of a turn that ends the loop. -/
def WriteTurn.result : WriteTurn → Option (Write × TimeStamp)
  | .done r => r
  | _ => none

/-- A `Put` or `Delete` record always ends the loop. -/
theorem writeTurn_dataVersion (gcFenceLimit : Option TimeStamp) (commitTs : TimeStamp)
    (write : Write) (h : write.writeType = .put ∨ write.writeType = .delete) :
    writeTurn gcFenceLimit commitTs write = .done (writeTurn gcFenceLimit commitTs write).result := by
  unfold writeTurn
  split
  · rfl
  · rcases h with h | h <;> simp [h, WriteTurn.result]

section Turn

variable {gcFenceLimit : Option TimeStamp} {commitTs lastChangeTs : TimeStamp} {write : Write}

/-- A jump is made from a `Lock` or `Rollback` record through its own pointer. -/
theorem writeTurn_eq_jump (h : writeTurn gcFenceLimit commitTs write = .jump lastChangeTs) :
    (write.writeType = .lock ∨ write.writeType = .rollback) ∧
      ∃ n, write.lastChange = .exist lastChangeTs n := by
  unfold writeTurn at h
  split at h
  · cases h
  · cases hwt : write.writeType <;> simp only [hwt, reduceCtorEq] at h
    all_goals
      refine ⟨by simp, ?_⟩
      cases hlc : write.lastChange with
      | exist p n =>
        simp only [hlc] at h
        split at h
        · cases h
          exact ⟨n, rfl⟩
        · cases h
      | notExist | unknown => simp [hlc] at h

/-- The walk goes on below a `Lock` or `Rollback` record whose pointer is
unknown or too close to jump through. -/
theorem writeTurn_eq_next (h : writeTurn gcFenceLimit commitTs write = .next) :
    (write.writeType = .lock ∨ write.writeType = .rollback) ∧
      (write.lastChange = .unknown ∨ ∃ p n, write.lastChange = .exist p n) := by
  unfold writeTurn at h
  split at h
  · cases h
  · cases hwt : write.writeType <;> simp only [hwt, reduceCtorEq] at h
    all_goals
      refine ⟨by simp, ?_⟩
      cases hlc : write.lastChange with
      | exist p n => exact .inr ⟨p, n, rfl⟩
      | unknown => exact .inl rfl
      | notExist => simp [hlc] at h

end Turn

/-- mirrors src/storage/mvcc/reader/reader.rs:541-602. The loop walks the
records at or below `ts` (`seekWrite_prev`); a pointer jump reads the record
at `last_change_ts` with a point get, asserts it is a `Put` or a `Delete`, and
the next turn decides on it. -/
def getWriteWithCommitTs (snap : KeyState) (ts : TimeStamp) (gcFenceLimit : Option TimeStamp) :
    Except Error (Option (Write × TimeStamp)) :=
  go ts (snap.writes.below ts)
where
  /-- The loop at seek timestamp `ts`, holding the first of the records left. -/
  go (ts : TimeStamp) : List (TimeStamp × Write) → Except Error (Option (Write × TimeStamp))
    | [] => .ok none
    | (commitTs, write) :: rest =>
      match writeTurn gcFenceLimit commitTs write with
      | .done r => .ok r
      | .jump lastChangeTs =>
        match snap.writes.get? lastChangeTs with
        | none => .ok none
        | some w =>
          if w.writeType = .put ∨ w.writeType = .delete then
            .ok (writeTurn gcFenceLimit lastChangeTs w).result
          else .error .panicked
      | .next =>
        -- "this should only happen in tests"
        if ts = 0 then .ok none
        else
          match TimeStamp.prev commitTs with
          | .ok ts => go ts rest
          | .error e => .error e

/-- mirrors src/storage/mvcc/reader/reader.rs:525-535 -/
def getWrite (snap : KeyState) (ts : TimeStamp) (gcFenceLimit : Option TimeStamp) :
    Except Error (Option Write) :=
  (getWriteWithCommitTs snap ts gcFenceLimit).map (Option.map Prod.fst)

/-- A jump through `last_change` ends the walk on the record it points to. -/
theorem getWriteWithCommitTs_jump_target (snap : KeyState) (gcFenceLimit : Option TimeStamp)
    (ts commitTs lastChangeTs : TimeStamp) (write w : Write) (rest : List (TimeStamp × Write))
    (hturn : writeTurn gcFenceLimit commitTs write = .jump lastChangeTs)
    (hw : snap.writes.get? lastChangeTs = some w)
    (hdata : w.writeType = .put ∨ w.writeType = .delete) :
    getWriteWithCommitTs.go snap gcFenceLimit ts ((commitTs, write) :: rest) =
      .ok (writeTurn gcFenceLimit lastChangeTs w).result := by
  simp only [getWriteWithCommitTs.go, hturn, hw, hdata, if_true]

/-- Below a record that lets the loop go on, the walk seeks again at the
timestamp under the record, unless it started at timestamp 0. -/
theorem getWriteWithCommitTs_go_next (snap : KeyState) (gcFenceLimit : Option TimeStamp)
    (ts commitTs : TimeStamp) (write : Write) (rest : List (TimeStamp × Write))
    (hturn : writeTurn gcFenceLimit commitTs write = .next) :
    getWriteWithCommitTs.go snap gcFenceLimit ts ((commitTs, write) :: rest) =
      if ts = 0 then .ok none
      else (TimeStamp.prev commitTs).bind fun ts' =>
        getWriteWithCommitTs.go snap gcFenceLimit ts' rest := by
  simp only [getWriteWithCommitTs.go, hturn]
  cases TimeStamp.prev commitTs <;> rfl

/-! ## Values -/

/-- mirrors src/storage/mvcc/reader/reader.rs:198-216 (`get_value`) -/
def getValue (snap : KeyState) (startTs : TimeStamp) : Option Value :=
  snap.data.get? startTs

/-- mirrors src/storage/mvcc/reader/reader.rs:218-232 (`load_data`) -/
def loadData (snap : KeyState) (write : Write) : Except Error Value :=
  if write.writeType ≠ .put then .error .panicked
  else
    match write.shortValue with
    | some v => .ok v
    | none =>
      match getValue snap write.startTs with
      | some v => .ok v
      | none => .error (.defaultNotFound write.startTs)

/-- mirrors src/storage/mvcc/reader/reader.rs:502-514 (`get`) -/
def MvccReader.get (snap : KeyState) (ts : TimeStamp) (gcFenceLimit : Option TimeStamp) :
    Except Error (Option Value) := do
  match ← getWrite snap ts gcFenceLimit with
  | some write => return some (← loadData snap write)
  | none => return none

/-! ## `get_txn_commit_record` -/

/-- mirrors src/storage/mvcc/reader/mod.rs:49-54 -/
structure OverlappedWrite where
  write : Write
  gcFence : TimeStamp
  deriving DecidableEq, Repr

/-- mirrors src/storage/mvcc/reader/mod.rs:27-47 -/
inductive TxnCommitRecord where
  | none (overlappedWrite : Option OverlappedWrite)
  | singleRecord (commitTs : TimeStamp) (write : Write)
  | overlappedRollback (commitTs : TimeStamp)
  deriving DecidableEq, Repr

/-- mirrors src/storage/mvcc/reader/mod.rs:64-70 -/
def TxnCommitRecord.info : TxnCommitRecord → Option (TimeStamp × WriteType)
  | .none _ => Option.none
  | .singleRecord commitTs write => some (commitTs, write.writeType)
  | .overlappedRollback commitTs => some (commitTs, .rollback)

/-- mirrors src/storage/mvcc/reader/reader.rs:604-635. The scan walks every
record from the newest (`seek_write(key, TimeStamp::max())`) down to the
first one below `start_ts`. -/
def getTxnCommitRecord (snap : KeyState) (startTs : TimeStamp) : Except Error TxnCommitRecord :=
  go 0 (snap.writes.below TimeStamp.max)
where
  /-- The scan holding the first of the records left; `gcFence` is the
  commit_ts of the last `Put` or `Delete` passed. -/
  go (gcFence : TimeStamp) : List (TimeStamp × Write) → Except Error TxnCommitRecord
    | [] => .ok (.none none)
    | (commitTs, write) :: rest =>
      if write.startTs = startTs then .ok (.singleRecord commitTs write)
      else if commitTs = startTs then
        if write.hasOverlappedRollback then .ok (.overlappedRollback commitTs)
        else .ok (.none (some ⟨write, gcFence⟩))
      else
        let gcFence :=
          if write.writeType = .put ∨ write.writeType = .delete then commitTs else gcFence
        if commitTs < startTs then .ok (.none none)
        else
          match TimeStamp.prev commitTs with
          | .ok _ => go gcFence rest
          | .error e => .error e

/-! ## Reads the actions share (`txn::actions::common`, `check_data_constraint`) -/

/-- `stat.write.next` of the walk in `next_last_change_info`: the cursor
steps once for each record after the first it visits, which are the records
above the `Put` it ends on, up to `commit_ts`. -/
def walkedVersions (snap : KeyState) (commitTs lastChangeTs : TimeStamp) : UInt64 :=
  UInt64.ofNat ((snap.writes.below commitTs).filter (fun e => lastChangeTs < e.1)).length

/-- mirrors src/storage/txn/actions/common.rs:11-61 -/
def nextLastChangeInfo (snap : KeyState) (write : Write) (startTs commitTs : TimeStamp) :
    Except Error LastChange :=
  match write.writeType with
  | .put | .delete => liftTxnTypes (LastChange.makeExist commitTs 1)
  | .lock | .rollback =>
    match write.lastChange with
    | .exist lastChangeTs n => liftTxnTypes (LastChange.makeExist lastChangeTs (n + 1))
    | .notExist => .ok .notExist
    | .unknown =>
      -- an older TiKV wrote this record: walk down to the last change
      match getWriteWithCommitTs snap commitTs (some startTs) with
      | .error e => .error e
      | .ok none => .ok .notExist
      | .ok (some (w, lastChangeTs)) =>
        if w.writeType ≠ .put then .error .panicked
        else
          liftTxnTypes
            (LastChange.makeExist lastChangeTs (walkedVersions snap commitTs lastChangeTs + 1))

/-- mirrors src/storage/txn/actions/check_data_constraint.rs:15-50. `write`
is the newest record, at `write_commit_ts`; the reader reads as `start_ts`. -/
def checkDataConstraint (snap : KeyState) (startTs : TimeStamp) (shouldNotExist : Bool)
    (write : Write) (writeCommitTs : TimeStamp) : Except Error Unit := do
  -- a newest record with a GC fence belongs to an already-deleted version
  let writeIsInvalid := match write.gcFence with
    | some gcFenceTs => gcFenceTs ≠ 0
    | none => false
  if !shouldNotExist || write.writeType = .delete || writeIsInvalid then return
  let existingStartTs ←
    if write.writeType = .put then pure (some write.startTs)
    else do
      let ts ← TimeStamp.prev writeCommitTs
      pure ((← getWrite snap ts (some startTs)).map (·.startTs))
  match existingStartTs with
  | some s => throw (.alreadyExist s)
  | none => return

end Tikv.Mvcc
