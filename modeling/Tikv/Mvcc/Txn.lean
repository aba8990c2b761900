import Tikv.TxnTypes.Write
import Tikv.Lib.VersionMap
import Tikv.Lib.ExceptState

/-!
# One key's MVCC state and the transaction buffer (`storage::mvcc::txn`)

The transaction layer stores a key in three column families: the lock CF holds
at most one lock, the write CF holds the commit and rollback records at
`key{commit_ts}`, and the default CF holds long values at `key{start_ts}`.
`KeyState` is that state for one key, the versions kept newest first
(`VersionMap`). Records are kept decoded: what a command writes is
`Lock::to_bytes` or `WriteRef::to_bytes` of a record that the round trips of
`Tikv.TxnTypes` read back.

An action reads a snapshot and appends modifications to an `MvccTxn`; the
command that ran it writes them all at once, or nothing when it fails. The
concurrency manager's `max_ts` travels with the buffer: actions read it and
raise it, and a raise stays even when the action then fails, as in the source
where it is a shared atomic.

`Appends P` relates a buffer to a later one that only got modifications
`P` allows: what an action may write is stated with it, one action at a
time, and composed with `ExceptState.rel_bind`.

Results:
* `applyModifies_append`: writing two batches is writing their concatenation.
* `applyModifies_writes_get?`, `applyModifies_lock`: after a batch, a record
  or the lock is as before, or is what the last modification of it in the
  batch made it.
* `updateMaxTs_maxTs`: `update_max_ts` only ever raises `max_ts`.
-/
namespace Tikv.Mvcc
open Tikv.Codec Tikv.TxnTypes

/-! ## Timestamps (`txn_types::timestamp`) -/

namespace TimeStamp

/-- mirrors components/txn_types/src/timestamp.rs:28-30 (`TimeStamp::max()`) -/
def max : TimeStamp := 0xFFFFFFFFFFFFFFFF

theorem le_max (ts : TimeStamp) : ts ≤ max := by
  rw [UInt64.le_iff_toNat_le]
  have := ts.toNat_lt
  simp only [max, UInt64.reduceToNat]
  omega

/-- mirrors components/txn_types/src/timestamp.rs:16 -/
def TSO_PHYSICAL_SHIFT_BITS : UInt64 := 18

/-- mirrors components/txn_types/src/timestamp.rs:37-39 -/
def physical (ts : TimeStamp) : UInt64 := ts >>> TSO_PHYSICAL_SHIFT_BITS

end TimeStamp

/-- `kvrpcpb::WriteConflictReason`, the reasons raised here. -/
inductive WriteConflictReason where
  | optimistic
  | pessimisticRetry
  | selfRolledBack
  | lazyUniquenessCheck
  deriving DecidableEq, Repr

/-- mirrors src/storage/mvcc/mod.rs:464-470 -/
inductive PessimisticLockNotFoundReason where
  | lockTsMismatch
  | lockMissingAmendFail
  | lockForUpdateTsMismatch
  | nonLockKeyConflict
  deriving DecidableEq, Repr

/-- `kvrpcpb::Assertion` -/
inductive Assertion where
  | none
  | exist
  | notExist
  deriving DecidableEq, Repr

/-- mirrors src/storage/mvcc/mod.rs:32-205 (`ErrorInner`), the variants the
transaction actions raise, with the key left out (every action here is about
one key). `invalidTxnTso` is `txn::ErrorInner::InvalidTxnTso`; `panicked`
stands for an `assert!` or `panic!`: the process aborts there. -/
inductive Error where
  | keyIsLocked (lock : Lock)
  | badFormat (e : TxnTypes.Error)
  | committed (startTs commitTs : TimeStamp)
  | pessimisticLockRolledBack (startTs : TimeStamp)
  | txnLockNotFound (startTs commitTs : TimeStamp)
  | txnNotFound (startTs : TimeStamp)
  | lockTypeNotMatch (startTs : TimeStamp) (pessimistic : Bool)
  | writeConflict (startTs conflictStartTs conflictCommitTs : TimeStamp) (primary : Bytes)
      (reason : WriteConflictReason)
  | alreadyExist (existingStartTs : TimeStamp)
  | defaultNotFound (startTs : TimeStamp)
  | commitTsExpired (startTs commitTs minCommitTs : TimeStamp)
  | pessimisticLockNotFound (startTs : TimeStamp) (reason : PessimisticLockNotFoundReason)
  | commitTsTooLarge (startTs minCommitTs maxCommitTs : TimeStamp)
  | assertionFailed (startTs : TimeStamp) (assertion : Assertion)
      (existingStartTs existingCommitTs : TimeStamp)
  | lockIfExistsFailed (startTs : TimeStamp)
  | primaryMismatch (lock : Lock)
  | generationOutOfOrder (generation : UInt64) (lock : Lock)
  | invalidTxnTso (startTs commitTs : TimeStamp)
  | other (msg : String)
  | panicked
  deriving DecidableEq, Repr

namespace TimeStamp

/-- mirrors components/txn_types/src/timestamp.rs:46-50 -/
def next (ts : TimeStamp) : Except Error TimeStamp :=
  if ts < max then .ok (ts + 1) else .error .panicked

/-- mirrors components/txn_types/src/timestamp.rs:52-56 -/
def prev (ts : TimeStamp) : Except Error TimeStamp :=
  if 0 < ts then .ok (ts - 1) else .error .panicked

end TimeStamp

/-- `?` on a `txn_types` result. -/
def liftTxnTypes {α : Type} : Except TxnTypes.Error α → Except Error α
  | .ok a => .ok a
  | .error e => .error (.badFormat e)

/-! ## State of one key -/

/-- The lock, write and default column families restricted to one key. -/
structure KeyState where
  lock : Option Lock
  writes : VersionMap TimeStamp Write
  data : VersionMap TimeStamp Value
  deriving DecidableEq

/-- A key nothing was ever written to. -/
def KeyState.empty : KeyState := ⟨none, .empty, .empty⟩

/-- mirrors components/tikv_kv/src/lib.rs:82-89 (`Modify`), the puts and
deletes of one key's three column families. -/
inductive Modify where
  | putLock (lock : Lock)
  | deleteLock
  | putWrite (commitTs : TimeStamp) (write : Write)
  | deleteWrite (commitTs : TimeStamp)
  | putValue (startTs : TimeStamp) (value : Value)
  | deleteValue (startTs : TimeStamp)
  deriving DecidableEq, Repr

/-- What the engine does with one modification. -/
def Modify.apply (s : KeyState) : Modify → KeyState
  | .putLock l => { s with lock := some l }
  | .deleteLock => { s with lock := none }
  | .putWrite ts w => { s with writes := s.writes.insert ts w }
  | .deleteWrite ts => { s with writes := s.writes.erase ts }
  | .putValue ts v => { s with data := s.data.insert ts v }
  | .deleteValue ts => { s with data := s.data.erase ts }

/-- Writing a batch of modifications, in order. -/
def KeyState.applyModifies (s : KeyState) (ms : List Modify) : KeyState :=
  ms.foldl Modify.apply s

@[simp]
theorem applyModifies_nil (s : KeyState) : s.applyModifies [] = s := rfl

@[simp]
theorem applyModifies_cons (s : KeyState) (m : Modify) (ms : List Modify) :
    s.applyModifies (m :: ms) = (m.apply s).applyModifies ms := rfl

theorem applyModifies_append (s : KeyState) (ms ms' : List Modify) :
    s.applyModifies (ms ++ ms') = (s.applyModifies ms).applyModifies ms' :=
  List.foldl_append

/-- After a batch, the record at `c` is the one before, or the one the batch
put there, or none when the batch deleted it. -/
theorem applyModifies_writes_get? (s : KeyState) (ms : List Modify) (c : TimeStamp) :
    (s.applyModifies ms).writes.get? c = s.writes.get? c ∨
      (∃ w, .putWrite c w ∈ ms ∧ (s.applyModifies ms).writes.get? c = some w) ∨
      (.deleteWrite c ∈ ms ∧ (s.applyModifies ms).writes.get? c = none) := by
  induction ms generalizing s with
  | nil => exact .inl rfl
  | cons m ms ih =>
    rw [applyModifies_cons]
    rcases ih (m.apply s) with h | ⟨w, hw, h⟩ | ⟨hd, h⟩
    · -- the rest left `c` alone: the first modification decides
      rw [h]
      cases m with
      | putWrite c' w =>
        simp only [Modify.apply, VersionMap.get?_insert]
        split_ifs with hc
        · exact .inr (.inl ⟨w, by simp [hc], rfl⟩)
        · exact .inl rfl
      | deleteWrite c' =>
        simp only [Modify.apply, VersionMap.get?_erase]
        split_ifs with hc
        · exact .inr (.inr ⟨by simp [hc], rfl⟩)
        · exact .inl rfl
      | _ => exact .inl rfl
    · exact .inr (.inl ⟨w, List.mem_cons_of_mem _ hw, h⟩)
    · exact .inr (.inr ⟨List.mem_cons_of_mem _ hd, h⟩)

/-- After a batch, the lock is the one before, or one the batch put, or none
when the batch deleted it. -/
theorem applyModifies_lock (s : KeyState) (ms : List Modify) :
    (s.applyModifies ms).lock = s.lock ∨
      (∃ l, .putLock l ∈ ms ∧ (s.applyModifies ms).lock = some l) ∨
      (.deleteLock ∈ ms ∧ (s.applyModifies ms).lock = none) := by
  induction ms generalizing s with
  | nil => exact .inl rfl
  | cons m ms ih =>
    rw [applyModifies_cons]
    rcases ih (m.apply s) with h | ⟨l, hl, h⟩ | ⟨hd, h⟩
    · rw [h]
      cases m with
      | putLock l => exact .inr (.inl ⟨l, by simp, rfl⟩)
      | deleteLock => exact .inr (.inr ⟨by simp, rfl⟩)
      | _ => exact .inl rfl
    · exact .inr (.inl ⟨l, List.mem_cons_of_mem _ hl, h⟩)
    · exact .inr (.inr ⟨List.mem_cons_of_mem _ hd, h⟩)

/-! ## The transaction buffer -/

/-- mirrors src/storage/mvcc/txn.rs:60-85. `locksFor1pc` holds this key's lock
with `remove_pessimistic_lock`; `maxTs` is the concurrency manager's `max_ts`.
The new-lock list and the key guards only serve waiters and readers of
in-memory locks, and are left out. -/
structure MvccTxn where
  startTs : TimeStamp
  modifies : List Modify
  locksFor1pc : List (Lock × Bool)
  maxTs : TimeStamp
  deriving DecidableEq, Repr

/-- mirrors src/storage/mvcc/txn.rs:88-100 -/
def MvccTxn.new (startTs maxTs : TimeStamp) : MvccTxn := ⟨startTs, [], [], maxTs⟩

/-- An action: it may fail, and it leaves its modifications in the buffer. -/
abbrev TxnM := ExceptT Error (StateM MvccTxn)

/-- An action run on a buffer. -/
def runTxn {α : Type} (x : TxnM α) (txn : MvccTxn) : Except Error α × MvccTxn :=
  ExceptState.run x txn

/-- `?` on a reader result inside an action. -/
def liftExcept {α : Type} (x : Except Error α) : TxnM α :=
  match x with
  | .ok a => pure a
  | .error e => throw e

/-- The transaction's `start_ts`. -/
def startTs : TxnM TimeStamp := do
  return (← get).startTs

/-- Append one modification. -/
def push (m : Modify) : TxnM Unit :=
  modify fun t => { t with modifies := t.modifies ++ [m] }

/-- mirrors src/storage/mvcc/txn.rs:122-130 -/
def putLock (lock : Lock) : TxnM Unit := push (.putLock lock)

/-- mirrors src/storage/mvcc/txn.rs:132-134 -/
def putLocksFor1pc (lock : Lock) (removePessimisticLock : Bool) : TxnM Unit :=
  modify fun t => { t with locksFor1pc := t.locksFor1pc ++ [(lock, removePessimisticLock)] }

/-- mirrors src/storage/mvcc/txn.rs:138-145; the engine writes it as
`into_lock().to_bytes()` (components/tikv_kv/src/lib.rs:156-161). -/
def putPessimisticLock (lock : PessimisticLock) : TxnM Unit := push (.putLock lock.toLock)

/-- mirrors src/storage/mvcc/txn.rs:150-161 -/
def unlockKey : TxnM Unit := push .deleteLock

/-- mirrors src/storage/mvcc/txn.rs:163-167 -/
def putValue (ts : TimeStamp) (value : Value) : TxnM Unit := push (.putValue ts value)

/-- mirrors src/storage/mvcc/txn.rs:169-173 -/
def deleteValue (ts : TimeStamp) : TxnM Unit := push (.deleteValue ts)

/-- mirrors src/storage/mvcc/txn.rs:175-179 -/
def putWrite (ts : TimeStamp) (write : Write) : TxnM Unit := push (.putWrite ts write)

/-- mirrors src/storage/mvcc/txn.rs:181-185 -/
def deleteWrite (ts : TimeStamp) : TxnM Unit := push (.deleteWrite ts)

/-- mirrors components/concurrency_manager/src/lib.rs:198-241; the check of
`new_ts` against the limit from PD is left out. -/
def updateMaxTs (ts : TimeStamp) : TxnM Unit :=
  if ts = TimeStamp.max then pure ()
  else modify fun t => { t with maxTs := Max.max t.maxTs ts }

/-- mirrors src/storage/mvcc/txn.rs:187-224 -/
def markRollbackOnMismatchingLock (lock : Lock) (isProtected : Bool) : TxnM Unit := do
  let startTs ← startTs
  if lock.ts = startTs then throw .panicked
  -- a rollback record that is not protected may be overwritten
  if !isProtected then return
  -- the lock's commit can no longer land on this rollback
  if startTs < lock.minCommitTs then return
  -- only async commit uses a calculated commit_ts
  if !lock.useAsyncCommit then return
  putLock { lock with rollbackTs := lock.rollbackTs ++ [startTs] }

theorem updateMaxTs_maxTs (ts : TimeStamp) (t : MvccTxn) :
    t.maxTs ≤ (runTxn (updateMaxTs ts) t).2.maxTs := by
  unfold updateMaxTs
  split
  · exact le_refl _
  · exact le_max_left _ _

/-! ## Runs of the primitives -/

section Run
open ExceptState

variable {α : Type} (t : MvccTxn)

@[simp]
theorem run_liftExcept (x : Except Error α) : run (liftExcept x) t = (x, t) := by
  cases x <;> rfl

@[simp]
theorem liftExcept_ok (a : α) : liftExcept (.ok a) = pure a := rfl

@[simp]
theorem liftExcept_error (e : Error) : (liftExcept (.error e) : TxnM α) = throw e := rfl

@[simp]
theorem run_startTs : run startTs t = (.ok t.startTs, t) := rfl

@[simp]
theorem run_push (m : Modify) : run (push m) t = (.ok (), { t with modifies := t.modifies ++ [m] }) :=
  rfl

@[simp]
theorem run_updateMaxTs (ts : TimeStamp) :
    run (updateMaxTs ts) t =
      (.ok (), if ts = TimeStamp.max then t else { t with maxTs := Max.max t.maxTs ts }) := by
  unfold updateMaxTs
  split <;> rfl

/-- A `max_ts` raise that a condition guards: the rest runs on the buffer
with `max_ts` raised or not. -/
theorem run_ite_updateMaxTs (p : Prop) [Decidable p] (ts : TimeStamp) (x : TxnM α) :
    run (if p then (updateMaxTs ts >>= fun _ => x) else x) t =
      run x { t with maxTs := if p ∧ ts ≠ TimeStamp.max then Max.max t.maxTs ts else t.maxTs } := by
  by_cases hp : p
  · by_cases hts : ts = TimeStamp.max <;> simp [hp, hts, run_bind]
  · simp [hp]

end Run

/-! ## What an action appends -/

/-- From `t` to `t'` the buffer kept its `start_ts` and got modifications
appended, each allowed by `P`; `max_ts` and the 1PC locks may change. -/
def Appends (P : Modify → Prop) (t t' : MvccTxn) : Prop :=
  t'.startTs = t.startTs ∧ ∃ ms, t'.modifies = t.modifies ++ ms ∧ ∀ m ∈ ms, P m

namespace Appends

variable {P : Modify → Prop}

instance : IsTrans MvccTxn (Appends P) where
  trans _ _ _ := by
    rintro ⟨hs₁, ms₁, hm₁, hP₁⟩ ⟨hs₂, ms₂, hm₂, hP₂⟩
    refine ⟨hs₂.trans hs₁, ms₁ ++ ms₂, by rw [hm₂, hm₁, List.append_assoc], ?_⟩
    intro m hm
    rcases List.mem_append.mp hm with h | h
    · exact hP₁ m h
    · exact hP₂ m h

instance : Std.Refl (Appends P) where
  refl t := ⟨rfl, [], by simp, by simp⟩

/-- A buffer whose modifications did not change. -/
theorem of_modifies {t t' : MvccTxn} (hs : t'.startTs = t.startTs)
    (hm : t'.modifies = t.modifies) : Appends P t t' :=
  ⟨hs, [], by simp [hm], by simp⟩

theorem push {t : MvccTxn} {m : Modify} (hm : P m) :
    Appends P t { t with modifies := t.modifies ++ [m] } :=
  ⟨rfl, [m], rfl, by simpa using hm⟩

theorem mono {Q : Modify → Prop} (hPQ : ∀ m, P m → Q m) {t t' : MvccTxn} (h : Appends P t t') :
    Appends Q t t' :=
  let ⟨hs, ms, hm, hP⟩ := h
  ⟨hs, ms, hm, fun m hm => hPQ m (hP m hm)⟩

end Appends

section Keeps
open ExceptState

variable {α β : Type} {R : MvccTxn → MvccTxn → Prop} {P : Modify → Prop}

/-- The continuation of `?` runs on the value the result holds. -/
theorem keeps_liftExcept_bind [Std.Refl R] {x : Except Error α} {f : α → TxnM β}
    (hf : ∀ a, x = .ok a → Keeps R (f a)) : Keeps R (liftExcept x >>= f) := by
  intro t
  cases x with
  | error e => exact Std.Refl.refl t
  | ok a =>
    rw [run_bind_of_ok (run_liftExcept t (.ok a))]
    exact hf a rfl t

theorem keeps_startTs [Std.Refl R] : Keeps R startTs := fun t => Std.Refl.refl t

theorem keeps_push {m : Modify} (hm : P m) : Keeps (Appends P) (push m) :=
  fun _ => Appends.push hm

theorem keeps_putLock {l : Lock} (h : P (.putLock l)) : Keeps (Appends P) (putLock l) :=
  keeps_push h

theorem keeps_unlockKey (h : P .deleteLock) : Keeps (Appends P) unlockKey := keeps_push h

theorem keeps_putWrite {ts : TimeStamp} {w : Write} (h : P (.putWrite ts w)) :
    Keeps (Appends P) (putWrite ts w) :=
  keeps_push h

theorem keeps_deleteWrite {ts : TimeStamp} (h : P (.deleteWrite ts)) :
    Keeps (Appends P) (deleteWrite ts) :=
  keeps_push h

theorem keeps_putValue {ts : TimeStamp} {v : Value} (h : P (.putValue ts v)) :
    Keeps (Appends P) (putValue ts v) :=
  keeps_push h

theorem keeps_deleteValue {ts : TimeStamp} (h : P (.deleteValue ts)) :
    Keeps (Appends P) (deleteValue ts) :=
  keeps_push h

theorem keeps_updateMaxTs (ts : TimeStamp) : Keeps (Appends P) (updateMaxTs ts) := by
  intro t
  rw [run_updateMaxTs]
  split
  · exact Std.Refl.refl t
  · exact Appends.of_modifies rfl rfl

/-- A change of the 1PC locks or of `max_ts` appends nothing. -/
theorem keeps_modify {f : MvccTxn → MvccTxn} (hs : ∀ t, (f t).startTs = t.startTs)
    (hm : ∀ t, (f t).modifies = t.modifies) : Keeps (Appends P) (modify f : TxnM Unit) :=
  fun t => Appends.of_modifies (hs t) (hm t)

end Keeps

end Tikv.Mvcc
