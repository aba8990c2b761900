import Tikv.Mvcc.AcquireSpec
import Tikv.Mvcc.LastChange.Run

/-!
# A pessimistic lock request on a key that a run reached

`AcquireSpec` states what `acquire_pessimistic_lock` does on an unlocked key
whose records can be trusted (`KeyConsistent`). Every key that a run of
commands reaches from the empty key is such a key while the run has fewer
than `2^64 - 1` commands, so that the pointers' counts fit in a `u64`
(`KeyInv.keyConsistent`, from `reaches_keyInv` under the hypotheses of
`KeyStep`).

On a key its transaction has locked pessimistically, the request
(src/storage/txn/actions/acquire_pessimistic_lock.rs:110-220) reads the
newest version at its `for_update_ts`, or at the lock's when it tolerates a
conflict and the lock is newer, and rewrites the lock only to raise its
`for_update_ts`, keeping its pointer. A retried request then finds the lock it
wrote and writes nothing more: the request is idempotent. Its reads depend on
the storage only through the records and values (`ownLockValue_congr`), and on
`max_ts` only as the request raises it, which a second raise leaves
(`raise_raise`).

Results:
* `processAcquirePessimisticLock_locked`: what the request leaves on a key its
  transaction has locked pessimistically.
* `processAcquirePessimisticLock_idem`: run again on the storage it left, the
  request leaves it and gives the same reply.
* `acquireOwn_spec`: the request meets `AcquireOwn` on such a key.
* `acquirePessimisticLock_reachable`: on every key that a run reaches, the
  request does what `AcquireContract` gives: `AcquireUnlocked` on an unlocked
  key, `AcquireOwn` on the transaction's own pessimistic lock.
* `acquire_stale_pointer_value`: without the hypothesis `top` of `KeyStep`,
  a request returns a value that is not the key's latest.
-/
namespace Tikv.Mvcc
open Tikv.Codec Tikv.TxnTypes ExceptState

/-! ## The request on a key the transaction has locked -/

/-- What `acquire_pessimistic_lock` reads on a key its transaction has locked:
the constraint check and the value or existence asked for, from the newest
data version at or below `forUpdateTs` when it is a `Put`, where
`requestedForUpdateTs` is the request's
(src/storage/txn/actions/acquire_pessimistic_lock.rs:148-190). -/
def ownLockValue (snap : KeyState) (startTs requestedForUpdateTs forUpdateTs : TimeStamp)
    (shouldNotExist needLoadValue needCheckExistence : Bool) (primary : Bytes) :
    Except Error (Option Value) :=
  if needLoadValue || needCheckExistence || shouldNotExist then do
    match ← getWriteWithCommitTs snap forUpdateTs (some startTs) with
    | some (write, commitTs) =>
      let conflict : Option ConflictInfo :=
        if commitTs > requestedForUpdateTs then some ⟨write.startTs, commitTs⟩ else none
      checkDataConstraintOrConflict snap startTs shouldNotExist write commitTs conflict primary
      if needLoadValue then return some (← loadData snap write)
      else if needCheckExistence then return some []
      else return none
    | none => return none
  else return none

section Records

variable {k k' : KeyState}

/-- The readers look at the write and default column families only. -/
theorem getWriteWithCommitTs_go_congr (hw : k'.writes = k.writes) (gcFenceLimit : Option TimeStamp) :
    ∀ (ts : TimeStamp) (l : List (TimeStamp × Write)),
      getWriteWithCommitTs.go k' gcFenceLimit ts l = getWriteWithCommitTs.go k gcFenceLimit ts l := by
  intro ts l
  induction l generalizing ts with
  | nil => rfl
  | cons e l ih =>
    simp only [getWriteWithCommitTs.go, hw, ih]

theorem getWriteWithCommitTs_congr (hw : k'.writes = k.writes) (ts : TimeStamp)
    (gcFenceLimit : Option TimeStamp) :
    getWriteWithCommitTs k' ts gcFenceLimit = getWriteWithCommitTs k ts gcFenceLimit := by
  unfold getWriteWithCommitTs
  rw [getWriteWithCommitTs_go_congr hw, hw]

theorem checkDataConstraintOrConflict_congr (hw : k'.writes = k.writes) (startTs : TimeStamp)
    (shouldNotExist : Bool) (write : Write) (commitTs : TimeStamp) (conflict : Option ConflictInfo)
    (primary : Bytes) :
    checkDataConstraintOrConflict k' startTs shouldNotExist write commitTs conflict primary =
      checkDataConstraintOrConflict k startTs shouldNotExist write commitTs conflict primary := by
  simp only [checkDataConstraintOrConflict, checkDataConstraint, getWrite,
    getWriteWithCommitTs_congr hw]

theorem loadData_congr (hd : k'.data = k.data) (write : Write) : loadData k' write = loadData k write := by
  simp only [loadData, getValue, hd]

theorem ownLockValue_congr (hw : k'.writes = k.writes) (hd : k'.data = k.data)
    (startTs requestedForUpdateTs forUpdateTs : TimeStamp)
    (shouldNotExist needLoadValue needCheckExistence : Bool) (primary : Bytes) :
    ownLockValue k' startTs requestedForUpdateTs forUpdateTs shouldNotExist needLoadValue
        needCheckExistence primary =
      ownLockValue k startTs requestedForUpdateTs forUpdateTs shouldNotExist needLoadValue
        needCheckExistence primary := by
  simp only [ownLockValue, getWriteWithCommitTs_congr hw, checkDataConstraintOrConflict_congr hw,
    loadData_congr hd]

end Records

section Own

variable {snap : KeyState} {lock : Lock} {primary : Bytes} {shouldNotExist : Bool} {lockTtl : UInt64}
  {forUpdateTs : TimeStamp} {needValue needCheckExistence : Bool} {minCommitTs : TimeStamp}
  {allowLockWithConflict : Bool} {t : MvccTxn}

/-- A retried request after a lock taken with conflict answers as that one
did, and writes nothing. -/
theorem run_acquireOwnPessimisticLock_retried (hts : lock.ts = t.startTs)
    (hp : lock.isPessimisticLock = true)
    (hc : (allowLockWithConflict && decide (forUpdateTs < lock.forUpdateTs)) = true) :
    run (acquireOwnPessimisticLock snap lock primary shouldNotExist lockTtl forUpdateTs needValue
      needCheckExistence minCommitTs allowLockWithConflict) t =
      ((ownLockValue snap t.startTs forUpdateTs lock.forUpdateTs shouldNotExist true
        needCheckExistence primary).map
          (.newSuccess needValue needCheckExistence (some lock.forUpdateTs)), t) := by
  unfold acquireOwnPessimisticLock ownLockValue
  rw [run_bind_of_ok (run_startTs t)]
  simp only [hts, hp, hc, ne_eq, not_true_eq_false, if_false, if_true, Bool.not_true,
    Bool.false_eq_true, Bool.true_or, lt_irrefl]
  -- the reads, case by case
  cases hg : getWriteWithCommitTs snap lock.forUpdateTs (some t.startTs) with
  | error e => simp
  | ok r =>
    rcases r with _ | ⟨w, c⟩
    · simp
    · cases hcd : checkDataConstraintOrConflict snap t.startTs shouldNotExist w c
        (if c > forUpdateTs then some ⟨w.startTs, c⟩ else none) primary with
      | error e => simp [hcd]
      | ok u =>
        cases hl : loadData snap w with
        | error e => simp_all
        | ok v => simp_all

/-- Otherwise the lock is rewritten at the request's `for_update_ts` when that
is larger and the reads succeed. -/
theorem run_acquireOwnPessimisticLock (hts : lock.ts = t.startTs)
    (hp : lock.isPessimisticLock = true)
    (hc : (allowLockWithConflict && decide (forUpdateTs < lock.forUpdateTs)) = false) :
    run (acquireOwnPessimisticLock snap lock primary shouldNotExist lockTtl forUpdateTs needValue
      needCheckExistence minCommitTs allowLockWithConflict) t =
      ((ownLockValue snap t.startTs forUpdateTs forUpdateTs shouldNotExist needValue
        needCheckExistence primary).map (.newSuccess needValue needCheckExistence none),
      if (ownLockValue snap t.startTs forUpdateTs forUpdateTs shouldNotExist needValue
          needCheckExistence primary).isOk && decide (lock.forUpdateTs < forUpdateTs) then
        { t with modifies := t.modifies ++ [.putLock (PessimisticLock.toLock
          ⟨primary, t.startTs, lockTtl, forUpdateTs, minCommitTs, lock.lastChange,
            lock.isPessimisticLockWithConflict⟩)] }
      else t) := by
  unfold acquireOwnPessimisticLock ownLockValue
  rw [run_bind_of_ok (run_startTs t)]
  simp only [hts, hp, hc, ne_eq, not_true_eq_false, if_false, Bool.not_true, Bool.false_eq_true]
  -- the reads, case by case; whether the lock is rewritten is decided by `hlt`
  by_cases hlt : lock.forUpdateTs < forUpdateTs
  all_goals
    simp only [gt_iff_lt, hlt, ↓reduceIte, decide_true, decide_false, Bool.and_true,
      Bool.and_false]
    split
    · cases hg : getWriteWithCommitTs snap forUpdateTs (some t.startTs) with
      | error e => simp
      | ok r =>
        rcases r with _ | ⟨w, c⟩
        · simp_all [putPessimisticLock]
        · cases hcd : checkDataConstraintOrConflict snap t.startTs shouldNotExist w c
            (if c > forUpdateTs then some ⟨w.startTs, c⟩ else none) primary with
          | error e => simp [hcd]
          | ok u =>
            cases hl : loadData snap w with
            | error e => split_ifs <;> simp_all [putPessimisticLock]
            | ok v => split_ifs <;> simp_all [putPessimisticLock]
    · simp_all [putPessimisticLock]

/-- On a locked key the request, past its flag check and the raise of
`max_ts`, is the acquisition on the lock. -/
theorem run_acquirePessimisticLock_locked (hl : snap.lock = some lock) {b lockOnlyIfExists : Bool}
    (hflags : (lockOnlyIfExists && !needValue) = false) (startTs maxTs : TimeStamp) :
    runTxn (acquirePessimisticLock snap b primary shouldNotExist lockTtl forUpdateTs needValue
      needCheckExistence minCommitTs lockOnlyIfExists allowLockWithConflict)
      (MvccTxn.new startTs maxTs) =
      run (acquireOwnPessimisticLock snap lock primary shouldNotExist lockTtl forUpdateTs needValue
        needCheckExistence minCommitTs allowLockWithConflict)
        (MvccTxn.new startTs (if (shouldNotExist || needValue || needCheckExistence) = true ∧
          forUpdateTs ≠ TimeStamp.max then Max.max maxTs forUpdateTs else maxTs)) := by
  unfold runTxn acquirePessimisticLock
  rw [run_bind_of_ok (run_startTs _)]
  simp only [hflags, Bool.false_eq_true, if_false, hl]
  exact run_ite_updateMaxTs _ _ forUpdateTs _

/-- `max_ts` after the raise for the request's reads; raising it again
changes nothing. -/
theorem raise_raise (c : Prop) [Decidable c] (m f : TimeStamp) :
    (if c then Max.max (if c then Max.max m f else m) f else if c then Max.max m f else m) =
      if c then Max.max m f else m := by
  split_ifs
  · rw [max_assoc, max_self]
  · rfl

end Own

section Command

variable {b : Bool} {req : AcquirePessimisticLockRequest} {s : Storage} {l : Lock}

/-- A request that writes nothing leaves the key, and `max_ts` as its run
raised it. -/
theorem processAcquirePessimisticLock_fst_of_nil {r : Except Error PessimisticLockKeyResult}
    {t : MvccTxn}
    (hrun : runTxn (acquirePessimisticLock s.key b req.primary req.shouldNotExist req.lockTtl
      req.forUpdateTs req.returnValues req.checkExistence req.minCommitTs req.lockOnlyIfExists
      req.allowLockWithConflict) (MvccTxn.new req.startTs s.maxTs) = (r, t))
    (ht : t.modifies = []) :
    (processAcquirePessimisticLock b req s).1 = ⟨s.key, t.maxTs⟩ := by
  rw [processAcquirePessimisticLock, hrun]
  split
  all_goals
    rename_i heq
    cases heq
  · simp [Storage.write, ht]
  · split <;> (try split) <;> rfl
  · rfl

/-- On a locked key the request depends on `max_ts` only as its reads raise
it. -/
theorem processAcquirePessimisticLock_raise (hl : s.key.lock = some l)
    (hflags : (req.lockOnlyIfExists && !req.returnValues) = false) :
    processAcquirePessimisticLock b req s = processAcquirePessimisticLock b req
      ⟨s.key, if (req.shouldNotExist || req.returnValues || req.checkExistence) = true ∧
        req.forUpdateTs ≠ TimeStamp.max then Max.max s.maxTs req.forUpdateTs else s.maxTs⟩ := by
  simp only [processAcquirePessimisticLock]
  rw [run_acquirePessimisticLock_locked hl hflags, run_acquirePessimisticLock_locked hl hflags,
    raise_raise]
  -- the write and the discard read only the key of the storage
  rfl

/-- The lock the request writes over its own pessimistic lock `l`, at its
`for_update_ts`. -/
def AcquirePessimisticLockRequest.ownLock (req : AcquirePessimisticLockRequest) (l : Lock) :
    PessimisticLock :=
  ⟨req.primary, req.startTs, req.lockTtl, req.forUpdateTs, req.minCommitTs, l.lastChange,
    l.isPessimisticLockWithConflict⟩

/-- On a key the transaction has locked pessimistically, the request leaves
the key, or rewrites the lock at its larger `for_update_ts` after reads that
succeed; `max_ts` ends as the reads raised it. -/
theorem processAcquirePessimisticLock_locked (hl : s.key.lock = some l)
    (hts : l.ts = req.startTs) (hp : l.isPessimisticLock = true)
    (hflags : (req.lockOnlyIfExists && !req.returnValues) = false) :
    let m₁ := if (req.shouldNotExist || req.returnValues || req.checkExistence) = true ∧
      req.forUpdateTs ≠ TimeStamp.max then Max.max s.maxTs req.forUpdateTs else s.maxTs
    (processAcquirePessimisticLock b req s).1 = ⟨s.key, m₁⟩ ∨
      (req.allowLockWithConflict && decide (req.forUpdateTs < l.forUpdateTs)) = false ∧
      l.forUpdateTs < req.forUpdateTs ∧ ∃ val,
        ownLockValue s.key req.startTs req.forUpdateTs req.forUpdateTs req.shouldNotExist
          req.returnValues req.checkExistence req.primary = .ok val ∧
        processAcquirePessimisticLock b req s =
          (⟨{ s.key with lock := some (req.ownLock l).toLock }, m₁⟩,
            .ok (.pessimisticLockRes (.newSuccess req.returnValues req.checkExistence none val))) := by
  intro m₁
  have hrun : runTxn (acquirePessimisticLock s.key b req.primary req.shouldNotExist req.lockTtl
      req.forUpdateTs req.returnValues req.checkExistence req.minCommitTs req.lockOnlyIfExists
      req.allowLockWithConflict) (MvccTxn.new req.startTs s.maxTs) =
      run (acquireOwnPessimisticLock s.key l req.primary req.shouldNotExist req.lockTtl
        req.forUpdateTs req.returnValues req.checkExistence req.minCommitTs
        req.allowLockWithConflict) (MvccTxn.new req.startTs m₁) :=
    run_acquirePessimisticLock_locked hl hflags _ _
  cases hc : (req.allowLockWithConflict && decide (req.forUpdateTs < l.forUpdateTs)) with
  | true =>
    -- a retry after a lock taken with conflict writes nothing
    rw [run_acquireOwnPessimisticLock_retried hts hp hc] at hrun
    exact .inl (processAcquirePessimisticLock_fst_of_nil hrun rfl)
  | false =>
    rw [run_acquireOwnPessimisticLock hts hp hc,
      show (MvccTxn.new req.startTs m₁).startTs = req.startTs from rfl] at hrun
    split at hrun
    · rename_i hw
      simp only [Bool.and_eq_true, decide_eq_true_eq] at hw
      obtain ⟨hok, hlt⟩ := hw
      obtain ⟨val, hval⟩ : ∃ val, ownLockValue s.key req.startTs req.forUpdateTs req.forUpdateTs
          req.shouldNotExist req.returnValues req.checkExistence req.primary = .ok val := by
        revert hok
        cases ownLockValue s.key req.startTs req.forUpdateTs req.forUpdateTs req.shouldNotExist
          req.returnValues req.checkExistence req.primary <;> simp
      rw [hval] at hrun
      refine .inr ⟨rfl, hlt, val, hval, ?_⟩
      rw [processAcquirePessimisticLock_of_ok hrun]
      rfl
    · exact .inl (processAcquirePessimisticLock_fst_of_nil hrun rfl)

/-- Run on the lock it wrote, the request reads as before and writes
nothing. -/
theorem processAcquirePessimisticLock_ownLock {k : KeyState} {m : TimeStamp} {val : Option Value}
    (hval : ownLockValue k req.startTs req.forUpdateTs req.forUpdateTs req.shouldNotExist
      req.returnValues req.checkExistence req.primary = .ok val)
    (hflags : (req.lockOnlyIfExists && !req.returnValues) = false)
    (hm : (if (req.shouldNotExist || req.returnValues || req.checkExistence) = true ∧
      req.forUpdateTs ≠ TimeStamp.max then Max.max m req.forUpdateTs else m) = m) :
    processAcquirePessimisticLock b req ⟨{ k with lock := some (req.ownLock l).toLock }, m⟩ =
      (⟨{ k with lock := some (req.ownLock l).toLock }, m⟩,
        .ok (.pessimisticLockRes (.newSuccess req.returnValues req.checkExistence none val))) := by
  have hfut : (req.ownLock l).toLock.forUpdateTs = req.forUpdateTs := rfl
  have hc : (req.allowLockWithConflict &&
      decide (req.forUpdateTs < (req.ownLock l).toLock.forUpdateTs)) = false := by
    simp [hfut]
  have hrun : runTxn (acquirePessimisticLock { k with lock := some (req.ownLock l).toLock } b
      req.primary req.shouldNotExist req.lockTtl req.forUpdateTs req.returnValues
      req.checkExistence req.minCommitTs req.lockOnlyIfExists req.allowLockWithConflict)
      (MvccTxn.new req.startTs m) =
      (.ok (.newSuccess req.returnValues req.checkExistence none val), MvccTxn.new req.startTs m) := by
    have hval' : ownLockValue { k with lock := some (req.ownLock l).toLock } req.startTs
        req.forUpdateTs req.forUpdateTs req.shouldNotExist req.returnValues req.checkExistence
        req.primary = .ok val := by
      rw [← hval]
      exact ownLockValue_congr (by rfl) (by rfl) _ _ _ _ _ _ _
    rw [run_acquirePessimisticLock_locked rfl hflags, hm, run_acquireOwnPessimisticLock rfl rfl hc,
      show (MvccTxn.new req.startTs m).startTs = req.startTs from rfl, hval']
    simp [hfut]
  rw [processAcquirePessimisticLock_of_ok (s := ⟨{ k with lock := some (req.ownLock l).toLock }, m⟩)
    hrun]
  rfl

/-- `lock_only_if_exists` without `need_value` is refused before anything is
read. -/
theorem processAcquirePessimisticLock_refused
    (hflags : (req.lockOnlyIfExists && !req.returnValues) = true) :
    processAcquirePessimisticLock b req s = (s, .error (.lockIfExistsFailed req.startTs)) := by
  simp [processAcquirePessimisticLock, runTxn, acquirePessimisticLock, hflags,
    run_bind_of_ok (run_startTs _), Storage.discard, MvccTxn.new]

/-- The request on a key its transaction has locked pessimistically is
idempotent: run again on the storage it left, it leaves that storage and gives
the same reply. -/
theorem processAcquirePessimisticLock_idem (hl : s.key.lock = some l) (hts : l.ts = req.startTs)
    (hp : l.isPessimisticLock = true) :
    processAcquirePessimisticLock b req (processAcquirePessimisticLock b req s).1 =
      processAcquirePessimisticLock b req s := by
  cases hflags : (req.lockOnlyIfExists && !req.returnValues) with
  | true => rw [processAcquirePessimisticLock_refused hflags, processAcquirePessimisticLock_refused hflags]
  | false =>
    rcases processAcquirePessimisticLock_locked (b := b) hl hts hp hflags with
      h | ⟨-, -, val, hval, h⟩
    · -- nothing written: only `max_ts` moved, and raising it again changes nothing
      rw [h]
      exact (processAcquirePessimisticLock_raise hl hflags).symm
    · -- the request finds the lock it wrote at its own `for_update_ts`, and writes nothing more
      rw [h]
      exact processAcquirePessimisticLock_ownLock hval hflags (raise_raise _ s.maxTs req.forUpdateTs)

/-- On a key its transaction has locked pessimistically, the request leaves
the key, or rewrites the lock at its larger `for_update_ts`. -/
theorem processAcquirePessimisticLock_key_of_own (hl : s.key.lock = some l)
    (hts : l.ts = req.startTs) (hp : l.isPessimisticLock = true) :
    (processAcquirePessimisticLock b req s).1.key = s.key ∨
      l.forUpdateTs < req.forUpdateTs ∧ (processAcquirePessimisticLock b req s).1.key =
        { s.key with lock := some (req.ownLock l).toLock } := by
  cases hflags : (req.lockOnlyIfExists && !req.returnValues) with
  | true => exact .inl (by rw [processAcquirePessimisticLock_refused hflags])
  | false =>
    rcases processAcquirePessimisticLock_locked (b := b) hl hts hp hflags with
      h | ⟨-, hlt, _, -, h⟩
    · exact .inl (by rw [h])
    · exact .inr ⟨hlt, by rw [h]⟩

/-- What a pessimistic lock request does on a key its transaction has locked
pessimistically with `l`: the records and values stay; the lock stays, or is
rewritten at the request's larger `for_update_ts` with the pointer of `l`;
and run again on the storage it left, the request leaves that storage and
gives the same reply. -/
structure AcquireOwn (canEnableLastChangeTs : Bool) (req : AcquirePessimisticLockRequest)
    (s : Storage) (l : Lock) (out : Storage × Except Error ProcessResult) : Prop where
  writes : out.1.key.writes = s.key.writes
  data : out.1.key.data = s.key.data
  lock : out.1.key.lock = some l ∨
    l.forUpdateTs < req.forUpdateTs ∧ out.1.key.lock = some (req.ownLock l).toLock
  idempotent : processAcquirePessimisticLock canEnableLastChangeTs req out.1 = out

theorem acquireOwn_spec (hl : s.key.lock = some l) (hts : l.ts = req.startTs)
    (hp : l.isPessimisticLock = true) :
    AcquireOwn b req s l (processAcquirePessimisticLock b req s) := by
  have hidem := processAcquirePessimisticLock_idem (b := b) hl hts hp
  rcases processAcquirePessimisticLock_key_of_own (b := b) hl hts hp with h | ⟨hlt, h⟩
  · exact ⟨by rw [h], by rw [h], .inl (by rw [h, hl]), hidem⟩
  · exact ⟨by rw [h], by rw [h], .inr ⟨hlt, by rw [h]⟩, hidem⟩

end Command

/-! ## Runs -/

/-- A key whose records a run kept `KeyInv` can be read with trust while its
pointers and records count below `2^64 - 1`. -/
theorem KeyInv.keyConsistent {k : KeyState} (hk : KeyInv k) (hb : k.versionBound + 1 < 2 ^ 64) :
    KeyConsistent k where
  inv := hk.inv
  pos := hk.pos
  value c w hw hput := loadData_of_valueStored hput (hk.value c w hw hput)
  counts c w p n hw hlc := by
    have h := recordVersions_le_versionBound hw
    rw [hlc, lastChangeVersions] at h
    omega
  size := by
    have := length_le_versionBound k
    omega

/-- What `acquire_pessimistic_lock` does by its contract: on an unlocked key
with a newest record, when `lock_only_if_exists` comes with `need_value`, the
outcome `AcquireUnlocked` gives; on a key its transaction has locked
pessimistically, what `AcquireOwn` gives. -/
structure AcquireContract (canEnableLastChangeTs : Bool) (req : AcquirePessimisticLockRequest)
    (s : Storage) (out : Storage × Except Error ProcessResult) : Prop where
  unlocked : (req.lockOnlyIfExists = true → req.returnValues = true) → s.key.lock = none →
    ∀ c w, seekWrite s.key TimeStamp.max = some (c, w) →
      AcquireUnlocked canEnableLastChangeTs req s c w out
  own : ∀ l, s.key.lock = some l → l.ts = req.startTs → l.isPessimisticLock = true →
    AcquireOwn canEnableLastChangeTs req s l out

/-- mirrors the contract of src/storage/txn/actions/acquire_pessimistic_lock.rs:40-397:
on every key a run of commands reaches from the empty key, with fewer than
`2^64 - 1` commands, every request does what `AcquireContract` gives. -/
theorem acquirePessimisticLock_reachable {key : Bytes} {b : Bool} {m : TimeStamp}
    {cmds : List Command} {s : Storage}
    (hrun : Trace.Reaches (KeyStep key b) ⟨KeyState.empty, m⟩ cmds s)
    (hlen : cmds.length + 1 < 2 ^ 64) (req : AcquirePessimisticLockRequest) :
    AcquireContract b req s (processAcquirePessimisticLock b req s) := by
  obtain ⟨hk, hb⟩ := reaches_keyInv hrun
  have hc : KeyConsistent s.key := hk.keyConsistent (by omega)
  exact ⟨fun hflags hlock c w hseek => acquireUnlocked_spec hc hlock hseek hflags,
    fun l hl hts hp => acquireOwn_spec hl hts hp⟩

/-- From the empty key, the transaction of 10 puts a value and commits at 20,
and the transaction of 30 locks the key pessimistically at `for_update_ts` 30:
a run that meets the hypotheses, on whose key a request at 35 does what
`AcquireContract` gives. -/
theorem acquirePessimisticLock_reachable_relock :
    let put : PrewriteRequest :=
      { mutation := .put [1] .none, pessimisticAction := .skipPessimisticCheck,
        expectedForUpdateTs := none, primary := [107], startTs := 10, lockTtl := 3000,
        kind := .optimistic false, txnSize := 1, minCommitTs := 0, maxCommitTs := 0,
        secondaryKeys := none, tryOnePc := false, assertionLevel := .off, isRetryRequest := false,
        txnSource := 0, committedInStatusCache := false }
    let acquire : AcquirePessimisticLockRequest :=
      ⟨[107], 30, 3000, true, 30, false, false, true, false, 0, false, false⟩
    let s₁ := (processWrite [107] true (.prewrite put) ⟨KeyState.empty, 0⟩).1
    let s₂ := (processWrite [107] true (.commit 10 20) s₁).1
    let s₃ := (processWrite [107] true (.acquirePessimisticLock acquire) s₂).1
    let req := { acquire with forUpdateTs := 35 }
    Trace.Reaches (KeyStep [107] true) ⟨KeyState.empty, 0⟩
        [.prewrite put, .commit 10 20, .acquirePessimisticLock acquire] s₃ ∧
      [Command.prewrite put, .commit 10 20, .acquirePessimisticLock acquire].length + 1 < 2 ^ 64 ∧
      AcquireContract true req s₃ (processAcquirePessimisticLock true req s₃) := by
  intro put acquire s₁ s₂ s₃ req
  have h₁ : StepOk [107] true (.prewrite put) ⟨KeyState.empty, 0⟩ :=
    ⟨by decide, (fun _ _ h => nomatch h), newVersionsOnTop_of_writes_eq (by decide)⟩
  have h₂ : StepOk [107] true (.commit 10 20) s₁ :=
    ⟨by decide, (fun _ _ h => nomatch h),
      newVersionsOnTop_first (c := 20) (w := ⟨.put, 10, some [1], false, none, .unknown, 0⟩)
        (by decide) (by decide)⟩
  have h₃ : StepOk [107] true (.acquirePessimisticLock acquire) s₂ :=
    ⟨by decide, (fun _ _ h => nomatch h), newVersionsOnTop_of_writes_eq (by decide)⟩
  have hrun : Trace.Reaches (KeyStep [107] true) ⟨KeyState.empty, 0⟩
      [.prewrite put, .commit 10 20, .acquirePessimisticLock acquire] s₃ :=
    .snoc (.snoc (.snoc (.nil _) ⟨h₁, rfl⟩) ⟨h₂, rfl⟩) ⟨h₃, rfl⟩
  exact ⟨hrun, by decide, acquirePessimisticLock_reachable hrun (by decide) req⟩

/-- Without `top` a request reads a stale value. From the empty key the
transaction of 10 puts 1 and commits at 20; nine transactions commit `Lock`
records at 31, 33, ..., 47, whose pointers name the `Put` at 20 across one to
nine versions; then a pessimistic prewrite that skips the check, under async
commit, puts 2 and commits at its computed 27, below them. The key's latest
value is 2, but a request with `need_value` walks down from 46, jumps from the
record at 45 (eight versions, `SEEK_BOUND`) to 20 and returns 1. -/
theorem acquire_stale_pointer_value :
    let prewrite (mutation : Mutation) (startTs : TimeStamp) (kind : TransactionKind)
        (secondaryKeys : Option (List Bytes)) : Command :=
      .prewrite {
        mutation, pessimisticAction := .skipPessimisticCheck, expectedForUpdateTs := none,
        primary := [107], startTs, lockTtl := 3000, kind, txnSize := 1, minCommitTs := 0,
        maxCommitTs := 0, secondaryKeys, tryOnePc := false, assertionLevel := .off,
        isRetryRequest := false, txnSource := 0, committedInStatusCache := false }
    let cmds := [prewrite (.put [1] .none) 10 (.optimistic false) none, .commit 10 20] ++
      ((List.range 9).flatMap fun i =>
        [prewrite (.lock .none) (30 + 2 * i.toUInt64) (.optimistic false) none,
          .commit (30 + 2 * i.toUInt64) (31 + 2 * i.toUInt64)]) ++
      [prewrite (.put [2] .none) 25 (.pessimistic 26) (some []), .commit 25 27]
    let s := cmds.foldl (fun s cmd => (processWrite [107] true cmd s).1) ⟨KeyState.empty, 0⟩
    let req : AcquirePessimisticLockRequest :=
      ⟨[107], 100, 3000, true, 100, false, false, true, false, 0, false, false⟩
    s.key.writes.get? 27 = some ⟨.put, 25, some [2], false, none, .unknown, 0⟩ ∧
      (s.key.writes.entries.all fun e => e.1 ≤ 27 ∨ e.2.writeType = .lock) = true ∧
      (processWrite [107] true (.acquirePessimisticLock req) s).2 =
        .ok (.pessimisticLockRes (.value (some [1]))) := by
  decide +kernel

end Tikv.Mvcc
