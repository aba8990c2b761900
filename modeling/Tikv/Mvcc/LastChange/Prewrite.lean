import Tikv.Mvcc.LastChange.Actions

/-!
# What a prewrite writes

`prewrite` (src/storage/txn/actions/prewrite.rs) checks the key's lock, its
newer versions and the assertion on the way to `write_lock`, and the
`Prewrite` command (src/storage/txn/commands/prewrite.rs) then writes the
buffer, commits it in 1PC, falls back to 2PC, or writes nothing. Each check
hands on a mutation whose pointer is one a lock may carry (`MutationOk`);
`write_lock` builds the lock from it (`NewLockOf`) and puts the long value,
then the lock, in the lock column family or aside for 1PC (`WriteLockOut`).

From a fresh buffer a prewrite leaves the transaction's values and at most
one lock (`Prewritten`). A lock kept for 1PC goes with a commit timestamp
above `start_ts`, and without a pessimistic lock to remove only on a key with
no lock; this is what lets the 1PC commit leave no lock behind.

Results:
* `writeLock_run`: what `write_lock` leaves, for every mutation.
* `prewrite_run`: what a prewrite leaves in a fresh buffer.
* `Prewritten.stepBatch`, `Prewritten.stepBatch_handle1pcLocks`,
  `Prewritten.fallback`: that buffer written as it is, committed in 1PC, or
  fallen back to 2PC.
* `processPrewrite_stepBatch`: every prewrite command writes a batch of
  `StepBatch`.
-/
namespace Tikv.Mvcc
open Tikv.Codec Tikv.TxnTypes ExceptState

namespace PrewriteMutation

/-- The mutation's value when it is too long to be inline: `write_lock` puts it
in the default column family at the transaction's `start_ts`. -/
def valueBatch (m : PrewriteMutation) : List Modify :=
  match m.value with
  | some v => if isShortValue v then [] else [.putValue m.txnProps.startTs v]
  | none => []

/-- Two mutations that agree on what `write_lock` makes of the transaction and
the value. -/
structure Same (m m' : PrewriteMutation) : Prop where
  txnProps : m'.txnProps = m.txnProps
  value : m'.value = m.value
  lockType : m'.lockType = m.lockType

theorem Same.refl (m : PrewriteMutation) : Same m m := ⟨rfl, rfl, rfl⟩

theorem Same.trans {m m' m'' : PrewriteMutation} (h : Same m m') (h' : Same m' m'') : Same m m'' :=
  ⟨h'.txnProps.trans h.txnProps, h'.value.trans h.value, h'.lockType.trans h.lockType⟩

end PrewriteMutation

/-- A mutation of the transaction `txnProps` ready for `write_lock` on `snap`:
its pointer is one a lock may carry, and a `Put` has a value. -/
structure MutationOk (snap : KeyState) (txnProps : TransactionProperties) (m : PrewriteMutation) :
    Prop where
  txnProps : m.txnProps = txnProps
  pointer : NewPointer snap m.lastChange
  value : m.lockType = some .put → m.value.isSome

theorem MutationOk.of_same {snap : KeyState} {txnProps : TransactionProperties}
    {m m' : PrewriteMutation} (h : MutationOk snap txnProps m) (hs : m.Same m')
    (hp : NewPointer snap m'.lastChange) : MutationOk snap txnProps m' :=
  ⟨hs.txnProps.trans h.txnProps, hp, fun hput => hs.value ▸ h.value (hs.lockType ▸ hput)⟩

theorem fromMutation_ok {mutation : Mutation} {secondaryKeys : Option (List Bytes)}
    {pessimisticAction : PrewriteRequestPessimisticAction} {txnProps : TransactionProperties}
    {m : PrewriteMutation}
    (h : PrewriteMutation.fromMutation mutation secondaryKeys pessimisticAction txnProps = .ok m)
    (snap : KeyState) : MutationOk snap txnProps m := by
  unfold PrewriteMutation.fromMutation at h
  split at h
  · cases h
  · cases h
    refine ⟨rfl, newPointer_unknown snap, fun hput => ?_⟩
    cases mutation <;> first | rfl | cases hput

section Pipeline

variable {snap : KeyState} {m m' : PrewriteMutation}

theorem checkLock_ok {lock : Lock} {pessimisticAction : PrewriteRequestPessimisticAction}
    {expectedForUpdateTs : Option TimeStamp} {generation : UInt64} {ls : LockStatus}
    (h : m.checkLock lock pessimisticAction expectedForUpdateTs generation = .ok (ls, m')) :
    m.Same m' ∧ m'.lastChange = lock.lastChange ∧
      (ls.hasPessimisticLock = false → ∃ ts, ls = .locked ts) := by
  unfold PrewriteMutation.checkLock at h
  simp only at h
  split_ifs at h <;> cases h <;> exact ⟨⟨rfl, rfl, rfl⟩, rfl, by simp [LockStatus.hasPessimisticLock]⟩

theorem amendPessimisticLock_ok (hk : KeyInv snap) (h : amendPessimisticLock m snap = .ok m') :
    m.Same m' ∧ NewPointer snap m'.lastChange := by
  unfold amendPessimisticLock at h
  cases hs : seekWrite snap TimeStamp.max with
  | none =>
    simp only [hs, bind, Except.bind, pure, Except.pure] at h
    split at h
    · cases h
    · cases h
      exact ⟨⟨rfl, rfl, rfl⟩, newPointer_notExist hs⟩
  | some e =>
    obtain ⟨c, w⟩ := e
    simp only [hs, bind, Except.bind, pure, Except.pure] at h
    -- a version at or above `start_ts` fails the amend
    split_ifs at h
    cases hlc : nextLastChangeInfo snap w m.txnProps.startTs c with
    | error e => simp [hlc] at h
    | ok lc =>
      simp only [hlc] at h
      split at h
      · cases h
      · cases h
        exact ⟨⟨rfl, rfl, rfl⟩, newPointer_nextLastChangeInfo hk hs hlc⟩

/-- The lock check: the key's own lock gives its pointer, an amend computes
one, and a lock status without a pessimistic lock comes from a key with no
lock, unless the prewrite is a duplicate. -/
theorem prewriteLockStatus_ok (hk : KeyInv snap) (hm : NewPointer snap m.lastChange)
    {pessimisticAction : PrewriteRequestPessimisticAction} {expectedForUpdateTs : Option TimeStamp}
    {generation : UInt64} {ls : LockStatus} {amended : Bool}
    (h : prewriteLockStatus m snap pessimisticAction expectedForUpdateTs generation =
      .ok (ls, m', amended)) :
    m.Same m' ∧ NewPointer snap m'.lastChange ∧
      (ls.hasPessimisticLock = false → (∃ ts, ls = .locked ts) ∨ snap.lock = none) := by
  unfold prewriteLockStatus at h
  split at h
  · rename_i lock hl
    cases hc : m.checkLock lock pessimisticAction expectedForUpdateTs generation with
    | error e => simp [hc, bind, Except.bind] at h
    | ok r =>
      obtain ⟨ls', m''⟩ := r
      simp only [hc, bind, Except.bind, pure, Except.pure, Except.ok.injEq, Prod.mk.injEq] at h
      obtain ⟨rfl, rfl, -⟩ := h
      obtain ⟨hs, hlc, hls⟩ := checkLock_ok hc
      exact ⟨hs, hlc ▸ hk.newPointer_lock hl, fun hp => .inl (hls hp)⟩
  · rename_i hl
    split at h
    · -- pipelined DML never amends
      split_ifs at h
      · cases h
      dsimp only at h
      cases ha : amendPessimisticLock m snap with
      | error e => simp [ha, bind, Except.bind] at h
      | ok m'' =>
        simp only [ha, bind, Except.bind, pure, Except.pure, Except.ok.injEq, Prod.mk.injEq] at h
        obtain ⟨rfl, rfl, -⟩ := h
        obtain ⟨hs, hp⟩ := amendPessimisticLock_ok hk ha
        exact ⟨hs, hp, fun _ => .inr hl⟩
    · simp only [pure, Except.pure, Except.ok.injEq, Prod.mk.injEq] at h
      obtain ⟨rfl, rfl, -⟩ := h
      exact ⟨.refl m, hm, fun _ => .inr hl⟩

theorem checkForNewerVersion_go_ok (hk : KeyInv snap) (l : List (TimeStamp × Write)) :
    ∀ (seekTs : TimeStamp) (m m' : PrewriteMutation) (w? : Option (Write × TimeStamp)),
      (seekTs = TimeStamp.max → l = snap.writes.below TimeStamp.max) →
      NewPointer snap m.lastChange →
      PrewriteMutation.checkForNewerVersion.go snap m seekTs l = .ok (w?, m') →
      m.Same m' ∧ NewPointer snap m'.lastChange := by
  induction l with
  | nil =>
    intro seekTs m m' w? hseek hm h
    simp only [PrewriteMutation.checkForNewerVersion.go, Except.ok.injEq, Prod.mk.injEq] at h
    obtain ⟨-, rfl⟩ := h
    split_ifs with hmax
    · -- no record at all
      refine ⟨⟨rfl, rfl, rfl⟩, newPointer_notExist ?_⟩
      rw [seekWrite, VersionMap.seek_eq_head?_below, ← hseek hmax]
      rfl
    · exact ⟨.refl m, hm⟩
  | cons e rest ih =>
    obtain ⟨c, w⟩ := e
    intro seekTs m m' w? hseek hm h
    unfold PrewriteMutation.checkForNewerVersion.go at h
    extract_lets startTs decide pointer at h
    -- after the pointer, the mutation is kept or handed to the walk below
    have hdecide : ∀ m₁, m.Same m₁ → NewPointer snap m₁.lastChange → decide m₁ = .ok (w?, m') →
        m.Same m' ∧ NewPointer snap m'.lastChange := by
      intro m₁ hs hp h₁
      dsimp only [decide] at h₁
      have hkeep : ∀ x : Except Error Unit, (x >>= fun _ => pure (some (w, c), m₁)) = .ok (w?, m') →
          m.Same m' ∧ NewPointer snap m'.lastChange := by
        intro x hx
        cases x with
        | error e => cases hx
        | ok u =>
          cases hx
          exact ⟨hs, hp⟩
      -- the conflicts fail; the record ends the walk, or a newer rollback of a
      -- pessimistic transaction lets the walk go below it
      split at h₁ <;> split_ifs at h₁
      all_goals try cases h₁
      · exact hkeep _ h₁
      · cases hprev : TimeStamp.prev c with
        | error e => simp [hprev, bind, Except.bind] at h₁
        | ok ts =>
          simp only [hprev, bind, Except.bind] at h₁
          obtain ⟨hpos, rfl⟩ := prev_ok hprev
          have hbelow : c - 1 ≠ TimeStamp.max := fun heq =>
            absurd ((le_sub_one_iff hpos _).mp (heq ▸ le_rfl)) (not_lt.mpr (TimeStamp.le_max c))
          obtain ⟨hs', hp'⟩ := ih (c - 1) m₁ m' w? (fun h => absurd h hbelow) hp h₁
          exact ⟨hs.trans hs', hp'⟩
      · exact hkeep _ h₁
    -- a rollback of the transaction itself fails the walk
    split_ifs at h
    · cases h
    dsimp only [pointer] at h
    split_ifs at h with hmax
    · -- the first record is the newest: its pointer is the next one
      have hseek' : seekWrite snap TimeStamp.max = some (c, w) := by
        rw [seekWrite, VersionMap.seek_eq_head?_below, ← hseek hmax]
        rfl
      cases hlc : nextLastChangeInfo snap w startTs c with
      | error e => simp [hlc, bind, Except.bind] at h
      | ok lc =>
        simp only [hlc, bind, Except.bind, pure, Except.pure] at h
        exact hdecide { m with lastChange := lc } ⟨rfl, rfl, rfl⟩
          (newPointer_nextLastChangeInfo hk hseek' hlc) h
    · exact hdecide m (.refl m) hm h

theorem checkForNewerVersion_ok (hk : KeyInv snap) (hm : NewPointer snap m.lastChange)
    {w? : Option (Write × TimeStamp)} (h : m.checkForNewerVersion snap = .ok (w?, m')) :
    m.Same m' ∧ NewPointer snap m'.lastChange :=
  checkForNewerVersion_go_ok hk _ _ m m' w? (fun _ => rfl) hm h

end Pipeline

/-! ## `write_lock` -/

/-- The lock `write_lock` builds for the mutation: at the transaction's
`start_ts`, of the mutation's type, with the mutation's pointer when it is a
`Lock` record and pointers are enabled, and with the value when it is short. -/
structure NewLockOf (m : PrewriteMutation) (b : Bool) (lock : Lock) : Prop where
  ts : lock.ts = m.txnProps.startTs
  lockType : m.lockType = some lock.lockType
  lastChange : lock.lastChange = if b && lock.lockType = .lock then m.lastChange else .unknown
  shortValue : lock.shortValue = m.value.filter isShortValue

theorem newLock_of {m : PrewriteMutation} {lt : LockType} (hlt : m.lockType = some lt) (b : Bool)
    (forUpdateTs : TimeStamp) (generation : UInt64) :
    NewLockOf m b (m.newLock b lt forUpdateTs generation) := by
  unfold PrewriteMutation.newLock
  extract_lets lock₀ lock₁ lock₂
  -- the async-commit and 1PC flags leave the fields the invariant reads
  have h₂ : NewLockOf m b lock₂ := by
    have h₁ : lock₁.ts = m.txnProps.startTs ∧ lock₁.lockType = lt ∧
        lock₁.lastChange = (if b && lt = .lock then m.lastChange else .unknown) ∧
        lock₁.shortValue = none := by
      simp only [lock₁, lock₀]
      split <;> simp_all [Lock.new, Lock.setTxnSource, Lock.withGeneration, Lock.setLastChange]
    obtain ⟨hts, htype, hlc, hsv⟩ := h₁
    have hsame : lock₂.ts = lock₁.ts ∧ lock₂.lockType = lock₁.lockType ∧
        lock₂.lastChange = lock₁.lastChange := by
      simp only [lock₂]
      split
      · split <;> exact ⟨rfl, rfl, rfl⟩
      · exact ⟨rfl, rfl, rfl⟩
    refine ⟨hsame.1.trans hts, by rw [hsame.2.1, htype, hlt], by rw [hsame.2.2, hsame.2.1, htype, hlc], ?_⟩
    simp only [lock₂]
    split
    · rename_i v hv
      rw [hv]
      split <;> simp_all [Option.filter]
    · rename_i hv
      rw [hsv, hv]
      rfl
  split
  · exact ⟨h₂.ts, h₂.lockType, h₂.lastChange, h₂.shortValue⟩
  · split
    · exact ⟨h₂.ts, h₂.lockType, h₂.lastChange, h₂.shortValue⟩
    · exact h₂

theorem asyncCommitTimestamps_lock {maxTs startTs forUpdateTs maxCommitTs ts : TimeStamp}
    {lock lock' : Lock}
    (h : asyncCommitTimestamps maxTs lock startTs forUpdateTs maxCommitTs = .ok (ts, lock')) :
    lock' = { lock with minCommitTs := ts } := by
  unfold asyncCommitTimestamps at h
  cases hn : TimeStamp.next (Max.max (Max.max maxTs startTs) forUpdateTs) with
  | error e => simp [hn, bind, Except.bind] at h
  | ok n =>
    simp only [hn, bind, Except.bind, pure, Except.pure] at h
    split at h
    · cases h
    · cases h
      rfl

/-- What `write_lock` leaves from the buffer `t`, with its result: when it
fails before the lock, nothing but part of the mutation's value; otherwise the
value and the lock, put in the lock column family or kept aside for 1PC, which
it keeps only with a commit timestamp above the transaction's start. -/
inductive WriteLockOut (m : PrewriteMutation) (b hasPessimisticLock : Bool) (t : MvccTxn) :
    Except Error TimeStamp × MvccTxn → Prop
  | values {r : Except Error TimeStamp} {t' : MvccTxn} {vs : List Modify}
      (hvs : vs ⊆ m.valueBatch) (hs : t'.startTs = t.startTs)
      (hm : t'.modifies = t.modifies ++ vs) (hp : t'.locksFor1pc = t.locksFor1pc) :
      WriteLockOut m b hasPessimisticLock t (r, t')
  | lock {r : Except Error TimeStamp} {t' : MvccTxn} {lock : Lock} (hl : NewLockOf m b lock)
      (hs : t'.startTs = t.startTs) (hm : t'.modifies = t.modifies ++ m.valueBatch ++ [.putLock lock])
      (hp : t'.locksFor1pc = t.locksFor1pc) :
      WriteLockOut m b hasPessimisticLock t (r, t')
  | onePc {r : Except Error TimeStamp} {t' : MvccTxn} {lock : Lock} (hl : NewLockOf m b lock)
      (hs : t'.startTs = t.startTs) (hm : t'.modifies = t.modifies ++ m.valueBatch)
      (hp : t'.locksFor1pc = t.locksFor1pc ++ [(lock, hasPessimisticLock)])
      (hts : ∀ ts, r = .ok ts → m.txnProps.startTs < ts) :
      WriteLockOut m b hasPessimisticLock t (r, t')

theorem writeLock_run (m : PrewriteMutation) (b : Bool) (ls : LockStatus) (generation : UInt64)
    (t : MvccTxn) :
    WriteLockOut m b ls.hasPessimisticLock t (run (m.writeLock b ls generation) t) := by
  unfold PrewriteMutation.writeLock
  extract_lets forUpdateTs write afterLockType
  -- the lock goes to the lock column family, or aside for 1PC
  have hwrite : ∀ (res : Except Error TimeStamp) (lock : Lock) (tryOnePc : Bool) (t₁ : MvccTxn),
      NewLockOf m b lock → (tryOnePc = true → ∀ ts, res = .ok ts → m.txnProps.startTs < ts) →
      t₁.startTs = t.startTs → t₁.modifies = t.modifies ++ m.valueBatch →
      t₁.locksFor1pc = t.locksFor1pc →
      WriteLockOut m b ls.hasPessimisticLock t (run (write (res, lock, tryOnePc)) t₁) := by
    intro res lock tryOnePc t₁ hl h1pc hs hm hp
    dsimp only [write]
    split
    · rename_i h
      rw [putLocksFor1pc, run_bind_of_ok (run_modify _ t₁), run_liftExcept]
      exact .onePc hl hs hm (by simp [hp]) (h1pc h)
    · rw [putLock, run_bind_of_ok (run_push _ _), run_liftExcept]
      exact .lock hl hs (by simp [hm]) hp
  cases hlt : m.lockType with
  | none =>
    dsimp only
    rw [run_bind_of_error (run_throw _ t)]
    exact .values (List.nil_subset _) rfl (by simp) rfl
  | some lt =>
    dsimp only
    rw [run_bind_of_ok (run_pure lt t)]
    dsimp -zeta only [afterLockType]
    extract_lets lock afterValue
    have hlock : NewLockOf m b lock := newLock_of hlt b forUpdateTs generation
    have hafter : ∀ t₁ : MvccTxn, t₁.startTs = t.startTs → t₁.modifies = t.modifies ++ m.valueBatch →
        t₁.locksFor1pc = t.locksFor1pc →
        WriteLockOut m b ls.hasPessimisticLock t (run (afterValue ()) t₁) := by
      intro t₁ hs hm hp
      dsimp only [afterValue]
      rw [run_bind_of_ok (run_get t₁)]
      split
      · cases hmc : m.txnProps.maxCommitTs with
        | error e =>
          rw [run_bind_of_error (run_liftExcept t₁ (.error e))]
          exact .values (List.Subset.refl _) hs hm hp
        | ok maxCommitTs =>
          rw [run_bind_of_ok (run_liftExcept t₁ (.ok maxCommitTs)),
            run_bind_of_ok (run_pure _ t₁)]
          split
          · rename_i ts lock' hasync
            refine hwrite _ _ _ t₁ ?_ (fun _ ts' h => ?_) hs hm hp
            · rw [asyncCommitTimestamps_lock hasync]
              exact ⟨hlock.ts, hlock.lockType, hlock.lastChange, hlock.shortValue⟩
            · cases h
              exact (asyncCommitTimestamps_gt_maxTs hasync).2.1
          · exact hwrite _ _ _ t₁ ⟨hlock.ts, hlock.lockType, hlock.lastChange, hlock.shortValue⟩
              nofun hs hm hp
          · exact hwrite _ _ _ t₁ hlock (fun _ ts h => by cases h) hs hm hp
      · rename_i hcond
        rw [run_bind_of_ok (run_pure _ t₁)]
        refine hwrite _ _ _ t₁ hlock (fun h1pc => absurd ?_ hcond) hs hm hp
        simp [h1pc]
    -- a long value goes to the default column family first
    cases hv : m.value with
    | none => exact hafter t rfl (by simp [PrewriteMutation.valueBatch, hv]) rfl
    | some v =>
      dsimp only
      split
      · rename_i hlong
        rw [putValue, run_bind_of_ok (run_push _ _)]
        refine hafter _ rfl ?_ rfl
        simp_all [PrewriteMutation.valueBatch]
      · rename_i hshort
        refine hafter t rfl ?_ rfl
        simp_all [PrewriteMutation.valueBatch]

/-! ## The buffer a prewrite leaves -/

/-- A buffer of the transaction of `st` that holds nothing yet. -/
structure Fresh (st : TimeStamp) (t : MvccTxn) : Prop where
  startTs : t.startTs = st
  modifies : t.modifies = []
  locksFor1pc : t.locksFor1pc = []

theorem Fresh.updateMaxTs {st : TimeStamp} {t : MvccTxn} (h : Fresh st t) (ts : TimeStamp) :
    Fresh st (if ts = TimeStamp.max then t else { t with maxTs := Max.max t.maxTs ts }) := by
  split
  · exact h
  · exact ⟨h.startTs, h.modifies, h.locksFor1pc⟩

/-- Values of the transaction of `st`, for the default column family. -/
def ValuesOf (st : TimeStamp) (ms : List Modify) : Prop :=
  ∀ x ∈ ms, ∃ v, x = .putValue st v

/-- A lock of the transaction of `st` that a prewrite may leave on `snap`
after the values `vs`: a pointer a lock may carry, and the value of a `Put`
inline or among `vs`. -/
structure LockOk (snap : KeyState) (st : TimeStamp) (vs : List Modify) (lock : Lock) : Prop where
  pointer : NewPointer snap lock.lastChange
  ts : lock.ts = st
  value : lock.lockType = .put → lock.shortValue.isSome ∨ ∃ v, .putValue st v ∈ vs

/-- What a prewrite of the transaction of `st` leaves in a fresh buffer, with
its result: values only, or values and the lock. The lock goes to the lock
column family, or aside for 1PC; there only with a commit timestamp above
`st`, and without a pessimistic lock to remove only from a key with no lock. -/
inductive Prewritten (snap : KeyState) (st : TimeStamp) : Except Error TimeStamp × MvccTxn → Prop
  | values {r : Except Error TimeStamp} {t : MvccTxn} (hvs : ValuesOf st t.modifies)
      (hp : t.locksFor1pc = []) : Prewritten snap st (r, t)
  | lock {r : Except Error TimeStamp} {t : MvccTxn} {vs : List Modify} {lock : Lock}
      (hvs : ValuesOf st vs) (hl : LockOk snap st vs lock) (hm : t.modifies = vs ++ [.putLock lock])
      (hp : t.locksFor1pc = []) : Prewritten snap st (r, t)
  | onePc {r : Except Error TimeStamp} {t : MvccTxn} {lock : Lock} {hasPessimisticLock : Bool}
      (hvs : ValuesOf st t.modifies) (hl : LockOk snap st t.modifies lock) (hs : t.startTs = st)
      (hp : t.locksFor1pc = [(lock, hasPessimisticLock)])
      (hpess : hasPessimisticLock = false → snap.lock = none) (hts : ∀ ts, r = .ok ts → st < ts) :
      Prewritten snap st (r, t)

theorem Fresh.prewritten {snap : KeyState} {st : TimeStamp} {t : MvccTxn} (h : Fresh st t)
    (r : Except Error TimeStamp) : Prewritten snap st (r, t) :=
  .values (by rw [h.modifies]; exact fun _ h => absurd h List.not_mem_nil) h.locksFor1pc

section Buffer

variable {snap : KeyState} {txnProps : TransactionProperties} {m : PrewriteMutation}

theorem valueBatch_valuesOf (m : PrewriteMutation) : ValuesOf m.txnProps.startTs m.valueBatch := by
  unfold PrewriteMutation.valueBatch
  split
  · split
    · exact fun _ h => absurd h List.not_mem_nil
    · intro x hx
      exact ⟨_, List.mem_singleton.mp hx⟩
  · exact fun _ h => absurd h List.not_mem_nil

theorem lockOk_of (hm : MutationOk snap txnProps m) {b : Bool} {lock : Lock} (hl : NewLockOf m b lock) :
    LockOk snap txnProps.startTs m.valueBatch lock := by
  refine ⟨?_, hl.ts.trans (congrArg _ hm.txnProps), fun hput => ?_⟩
  · rw [hl.lastChange]
    split
    · exact hm.pointer
    · exact newPointer_unknown snap
  · -- a `Put` carries a value: inline when short, in the batch otherwise
    obtain ⟨v, hv⟩ := Option.isSome_iff_exists.mp (hm.value (hput ▸ hl.lockType))
    rw [hl.shortValue, hv]
    by_cases hshort : isShortValue v
    · exact .inl (by simp [Option.filter, hshort])
    · refine .inr ⟨v, ?_⟩
      simp [PrewriteMutation.valueBatch, hv, hshort, hm.txnProps]

theorem prewritten_of_writeLockOut (hm : MutationOk snap txnProps m) {b hasPessimisticLock : Bool}
    (hpess : hasPessimisticLock = false → snap.lock = none) {t : MvccTxn}
    (ht : Fresh txnProps.startTs t) {res : Except Error TimeStamp × MvccTxn}
    (h : WriteLockOut m b hasPessimisticLock t res) : Prewritten snap txnProps.startTs res := by
  have hvs : ValuesOf txnProps.startTs m.valueBatch := hm.txnProps ▸ valueBatch_valuesOf m
  cases h with
  | values hsub hs hmods hp =>
    refine .values ?_ (hp.trans ht.locksFor1pc)
    rw [hmods, ht.modifies, List.nil_append]
    exact fun x hx => hvs x (hsub hx)
  | lock hl hs hmods hp =>
    refine .lock hvs (lockOk_of hm hl) ?_ (hp.trans ht.locksFor1pc)
    rw [hmods, ht.modifies, List.nil_append]
  | onePc hl hs hmods hp hts =>
    have hmods : _ = m.valueBatch := hmods.trans (by rw [ht.modifies, List.nil_append])
    refine .onePc (hmods ▸ hvs) (hmods ▸ lockOk_of hm hl) (hs.trans ht.startTs) ?_ hpess
      (hm.txnProps ▸ hts)
    rw [hp, ht.locksFor1pc, List.nil_append]

/-- A prewrite leaves in a fresh buffer values of the transaction, and its lock
when it writes one. -/
theorem prewrite_run (hk : KeyInv snap) (b : Bool) (txnProps : TransactionProperties)
    (mutation : Mutation) (secondaryKeys : Option (List Bytes))
    (pessimisticAction : PrewriteRequestPessimisticAction) (expectedForUpdateTs : Option TimeStamp)
    {t : MvccTxn} (ht : Fresh txnProps.startTs t) :
    Prewritten snap txnProps.startTs (run (prewrite snap b txnProps mutation secondaryKeys
      pessimisticAction expectedForUpdateTs) t) := by
  unfold prewrite prewriteWithGeneration
  cases hfm : PrewriteMutation.fromMutation mutation secondaryKeys pessimisticAction txnProps with
  | error e =>
    rw [run_bind_of_error (run_liftExcept t (.error e))]
    exact ht.prewritten _
  | ok m₀ =>
    rw [run_bind_of_ok (run_liftExcept t (.ok m₀))]
    dsimp -zeta only
    extract_lets afterMaxTs
    have hm₀ := fromMutation_ok hfm snap
    -- up to `write_lock` the buffer only has `max_ts` raised
    have hlocked : ∀ t₁, Fresh txnProps.startTs t₁ →
        Prewritten snap txnProps.startTs (run (afterMaxTs ()) t₁) := by
      intro t₁ ht₁
      dsimp -zeta only [afterMaxTs]
      cases hls : prewriteLockStatus m₀ snap pessimisticAction expectedForUpdateTs 0 with
      | error e =>
        rw [run_bind_of_error (run_liftExcept t₁ (.error e))]
        exact ht₁.prewritten _
      | ok res =>
        obtain ⟨ls, m₁, amended⟩ := res
        rw [run_bind_of_ok (run_liftExcept t₁ _)]
        dsimp -zeta only
        extract_lets isSubsequentFlush afterCheck afterLocked
        obtain ⟨hs₁, hp₁, hpess₁⟩ := prewriteLockStatus_ok hk hm₀.pointer hls
        have hm₁ := hm₀.of_same hs₁ hp₁
        -- after the lock check: the constraint check, the assertion, and `write_lock`
        have hcheck : ∀ (x : Option (Write × TimeStamp) × Bool × PrewriteMutation) (t₂ : MvccTxn),
            MutationOk snap txnProps x.2.2 → (ls.hasPessimisticLock = false → snap.lock = none) →
            Fresh txnProps.startTs t₂ → Prewritten snap txnProps.startTs (run (afterCheck x) t₂) := by
          intro x t₂ hm₂ hpess ht₂
          dsimp -zeta only [afterCheck]
          extract_lets afterAssert
          have hfinal : ∀ t₃, Fresh txnProps.startTs t₃ →
              Prewritten snap txnProps.startTs (run (afterAssert ()) t₃) := by
            intro t₃ ht₃
            dsimp -zeta only [afterAssert]
            split
            · -- a mutation that writes nothing only raises `max_ts`
              rw [run_bind_of_ok (run_updateMaxTs t₃ _)]
              have ht₄ := ht₃.updateMaxTs txnProps.startTs
              split
              · cases hn : TimeStamp.next txnProps.startTs with
                | error e =>
                  rw [run_bind_of_error (run_liftExcept _ (.error e))]
                  exact ht₄.prewritten _
                | ok n =>
                  rw [run_bind_of_ok (run_liftExcept _ (.ok n))]
                  exact ht₄.prewritten _
              · exact ht₄.prewritten _
            · exact prewritten_of_writeLockOut hm₂ hpess ht₃ (writeLock_run x.2.2 b ls 0 t₃)
          split
          · cases hca : x.2.2.checkAssertion snap x.1 x.2.1 with
            | error e =>
              rw [run_bind_of_error (run_liftExcept t₂ (.error e))]
              exact ht₂.prewritten _
            | ok a =>
              rw [run_bind_of_ok (run_liftExcept t₂ (.ok a))]
              exact hfinal t₂ ht₂
          · exact hfinal t₂ ht₂
        have hchecked : ∀ t₂, Fresh txnProps.startTs t₂ →
            (ls.hasPessimisticLock = false → snap.lock = none) →
            Prewritten snap txnProps.startTs (run (afterLocked ()) t₂) := by
          intro t₂ ht₂ hpess
          dsimp -zeta only [afterLocked]
          split
          · cases hc : m₁.checkForNewerVersion snap with
            | error e =>
              rw [run_bind_of_error (run_liftExcept t₂ (.error e))]
              exact ht₂.prewritten _
            | ok res =>
              obtain ⟨hs₂, hp₂⟩ := checkForNewerVersion_ok hk hm₁.pointer hc
              rw [run_bind_of_ok (run_liftExcept t₂ (.ok res)), run_bind_of_ok (run_pure _ t₂)]
              exact hcheck (res.1, true, res.2) t₂ (hm₁.of_same hs₂ hp₂) hpess ht₂
          · rw [run_bind_of_ok (run_pure _ t₂)]
            exact hcheck (none, false, m₁) t₂ hm₁ hpess ht₂
        -- a duplicate prewrite of a key it locked returns at once
        rw [if_pos rfl]
        split
        · exact ht₁.prewritten _
        · rename_i hnot
          exact hchecked t₁ ht₁ fun hp => (hpess₁ hp).resolve_left fun ⟨ts, h⟩ => hnot ts h
    split
    · rw [run_bind_of_ok (run_updateMaxTs t _)]
      exact hlocked _ (ht.updateMaxTs _)
    · exact hlocked t ht

end Buffer

/-! ## What the prewrite command writes -/

section Write

variable {snap : KeyState} {st : TimeStamp}

theorem ValuesOf.sound {ms : List Modify} (h : ValuesOf st ms) : ∀ m ∈ ms, Sound snap st m := by
  intro m hm
  obtain ⟨v, rfl⟩ := h m hm
  rfl

theorem ValuesOf.lock_eq {ms : List Modify} (h : ValuesOf st ms) (k : KeyState) :
    (k.applyModifies ms).lock = k.lock := by
  rcases applyModifies_lock k ms with h' | ⟨l, hl, -⟩ | ⟨hd, -⟩
  · exact h'
  · obtain ⟨v, hv⟩ := h _ hl
    cases hv
  · obtain ⟨v, hv⟩ := h _ hd
    cases hv

theorem ValuesOf.not_deleteValue {ms : List Modify} (h : ValuesOf st ms) (ts : TimeStamp) :
    .deleteValue ts ∉ ms := fun hd => by
  obtain ⟨v, hv⟩ := h _ hd
  cases hv

/-- The value of a `Put` lock or record the batch leaves, inline or among the
batch's values. -/
theorem LockOk.valueStored {vs ms : List Modify} {lock : Lock} (hl : LockOk snap st vs lock)
    (hput : lock.lockType = .put) (hvs : ∀ x ∈ vs, x ∈ ms) (hdel : .deleteValue st ∉ ms) :
    ValueStored (snap.applyModifies ms) lock.shortValue st := by
  rcases hl.value hput with hs | ⟨v, hv⟩
  · exact .inl hs
  · exact .inr (applyModifies_data_isSome hdel (.inr ⟨v, hvs _ hv⟩))

/-- A prewrite with no lock kept aside for 1PC commits nothing. -/
theorem Prewritten.stepBatch (hk : KeyInv snap) {r : Except Error TimeStamp} {t : MvccTxn}
    (h : Prewritten snap st (r, t)) (hp : t.locksFor1pc = []) :
    StepBatch snap st (snap.applyModifies t.modifies) := by
  cases h with
  | values hvs _ =>
    refine .keeps hvs.sound fun l hl hput => ?_
    rw [hvs.lock_eq] at hl
    exact (hk.lockValue l hl hput).after (hvs.not_deleteValue _)
  | @lock _ _ vs lock hvs hl hm _ =>
    rw [hm]
    have hdel : ∀ ts, .deleteValue ts ∉ vs ++ [.putLock lock] := by
      intro ts hd
      rcases List.mem_append.mp hd with hd | hd
      · exact hvs.not_deleteValue ts hd
      · cases List.mem_singleton.mp hd
    refine .keeps (fun m hm => ?_) fun l hlk hput => ?_
    · rcases List.mem_append.mp hm with hm | hm
      · exact hvs.sound m hm
      · rw [List.mem_singleton.mp hm]
        exact hl.pointer
    · -- the batch ends with the lock
      rw [applyModifies_append] at hlk
      cases hlk
      exact hl.ts ▸ hl.valueStored hput (fun x hx => List.mem_append_left _ hx) (hdel st)
  | onePc _ _ _ hp' =>
    rw [hp'] at hp
    cases hp

theorem run_handle1pcLocks_nil (c : TimeStamp) {t : MvccTxn} (hp : t.locksFor1pc = []) :
    run (handle1pcLocks c) t = (.ok (), { t with locksFor1pc := [] }) := by
  unfold handle1pcLocks
  rw [run_bind_of_ok (run_get t), run_bind_of_ok (run_modify _ t), hp]
  rfl

theorem run_handle1pcLocks_single (c : TimeStamp) {t t' : MvccTxn} {lock : Lock} {d : Bool}
    (hp : t.locksFor1pc = [(lock, d)]) (h : run (handle1pcLocks c) t = (.ok (), t')) :
    ∃ wt, WriteType.fromLockType lock.lockType = some wt ∧
      t'.modifies = t.modifies ++ .putWrite c (((Write.new wt t.startTs lock.shortValue).setLastChange
        lock.lastChange).setTxnSource lock.txnSource) :: (if d then [.deleteLock] else []) := by
  unfold handle1pcLocks at h
  rw [run_bind_of_ok (run_get t), run_bind_of_ok (run_modify _ t), hp] at h
  simp only [List.forM] at h
  cases hwt : WriteType.fromLockType lock.lockType with
  | none =>
    simp only [hwt] at h
    rw [run_bind_of_error (run_bind_of_error (run_throw _ _))] at h
    cases h
  | some wt =>
    refine ⟨wt, rfl, ?_⟩
    simp only [hwt] at h
    obtain ⟨u, t₁, h₁, h₂⟩ := run_bind_ok h
    rw [run_pure] at h₂
    cases h₂
    rw [run_bind_of_ok (run_pure _ _), run_bind_of_ok (run_startTs _), putWrite,
      run_bind_of_ok (run_push _ _)] at h₁
    split at h₁
    · rw [unlockKey, run_push] at h₁
      cases h₁
      simp [*]
    · rw [run_pure] at h₁
      cases h₁
      simp [*]

/-- A loop each of whose turns appends one modification appends them in
order. -/
theorem run_forM_of_push {α : Type} (f : α → TxnM Unit) (g : α → Modify)
    (hf : ∀ a t, run (f a) t = (.ok (), { t with modifies := t.modifies ++ [g a] })) :
    ∀ (l : List α) (t : MvccTxn),
      run (l.forM f) t = (.ok (), { t with modifies := t.modifies ++ l.map g }) := by
  intro l
  induction l with
  | nil => intro t; simp [List.forM]
  | cons a l ih =>
    intro t
    simp only [List.forM]
    rw [run_bind_of_ok (hf a t), ih]
    simp

theorem run_fallback1pcLocks (t : MvccTxn) :
    run fallback1pcLocks t = (.ok (), { t with
      modifies := t.modifies ++ t.locksFor1pc.map fun p => .putLock { p.1 with useOnePc := false },
      locksFor1pc := [] }) := by
  unfold fallback1pcLocks
  rw [run_bind_of_ok (run_get t), run_bind_of_ok (run_modify _ t)]
  -- each lock goes to the lock column family in turn
  rw [run_forM_of_push _ (fun p => .putLock { p.1 with useOnePc := false })]
  rintro ⟨lock, _⟩ u
  exact run_push _ _

/-- Without the 1PC commit, the lock kept aside for it goes to the lock column
family. -/
theorem Prewritten.fallback {r : Except Error TimeStamp} {t : MvccTxn}
    (h : Prewritten snap st (r, t)) (r' : Except Error TimeStamp) :
    Prewritten snap st (r', (run fallback1pcLocks t).2) := by
  rw [run_fallback1pcLocks]
  cases h with
  | values hvs hp =>
    refine .values ?_ rfl
    simpa [hp] using hvs
  | lock hvs hl hm hp =>
    refine .lock hvs hl ?_ rfl
    simpa [hp] using hm
  | @onePc _ _ lock _ hvs hl hs hp =>
    have hl' : LockOk snap st t.modifies { lock with useOnePc := false } :=
      ⟨hl.pointer, hl.ts, hl.value⟩
    refine .lock hvs hl' ?_ rfl
    simp [hp]

/-- A batch with no new lock leaves the key's lock, or none. -/
theorem applyModifies_lock_of_no_putLock {k : KeyState} {ms : List Modify}
    (hput : ∀ l, .putLock l ∉ ms) :
    (k.applyModifies ms).lock = k.lock ∨ (k.applyModifies ms).lock = none := by
  rcases applyModifies_lock k ms with h | ⟨l, hl, -⟩ | ⟨-, h⟩
  · exact .inl h
  · exact absurd hl (hput l)
  · exact .inr h

/-- The 1PC commit: the transaction's values, its record at the computed
`commit_ts` above `st`, and the removal of a pessimistic lock. -/
theorem Prewritten.stepBatch_handle1pcLocks (hk : KeyInv snap) {f : TimeStamp} {t t' : MvccTxn}
    (h : Prewritten snap st (.ok f, t)) (hrun : run (handle1pcLocks f) t = (.ok (), t')) :
    StepBatch snap st (snap.applyModifies t'.modifies) := by
  cases h with
  | values hvs hp =>
    rw [run_handle1pcLocks_nil f hp] at hrun
    cases hrun
    exact (Prewritten.values (r := .ok f) hvs hp).stepBatch hk hp
  | lock hvs hl hm hp =>
    rw [run_handle1pcLocks_nil f hp] at hrun
    cases hrun
    exact (Prewritten.lock (r := .ok f) hvs hl hm hp).stepBatch hk hp
  | @onePc _ _ lock d hvs hl hs hp hpess hts =>
    obtain ⟨wt, hwt, hmods⟩ := run_handle1pcLocks_single f hp hrun
    rw [hmods, hs]
    have hput : ∀ l, .putLock l ∉ t.modifies ++ .putWrite f (((Write.new wt st lock.shortValue).setLastChange
        lock.lastChange).setTxnSource lock.txnSource) :: (if d then [.deleteLock] else []) := by
      intro l hl
      rcases List.mem_append.mp hl with hl | hl
      · obtain ⟨v, hv⟩ := hvs _ hl
        cases hv
      · cases d <;> simp at hl
    have hdel : ∀ ts, .deleteValue ts ∉ t.modifies ++ .putWrite f (((Write.new wt st
        lock.shortValue).setLastChange lock.lastChange).setTxnSource lock.txnSource) ::
          (if d then [.deleteLock] else []) := by
      intro ts hd
      rcases List.mem_append.mp hd with hd | hd
      · exact hvs.not_deleteValue ts hd
      · cases d <;> simp at hd
    refine .commit (hts f rfl) (fun m hm => ?_) ?_ fun c' w hw hwput => ?_
    · rcases List.mem_append.mp hm with hm | hm
      · obtain ⟨v, rfl⟩ := hvs m hm
        rfl
      · rcases List.mem_cons.mp hm with rfl | hm
        · exact commitSound_ofLock hl.pointer hwt st f lock.txnSource
        · cases d <;> simp at hm
          subst hm
          trivial
    · -- the pessimistic lock is removed, or there was no lock
      cases d with
      | true => exact applyModifies_lock_of_deleteLock (by simp) hput
      | false => exact (applyModifies_lock_of_no_putLock hput).elim (·.trans (hpess rfl)) id
    · rcases List.mem_append.mp hw with hw | hw
      · obtain ⟨v, hv⟩ := hvs _ hw
        cases hv
      · rcases List.mem_cons.mp hw with hw | hw
        · cases hw
          have hwt' : wt = .put := hwput
          subst hwt'
          exact hl.valueStored (fromLockType_put hwt) (fun x hx => List.mem_append_left _ hx) (hdel st)
        · cases d <;> simp at hw

/-- `write_result`: a prewrite commits in 1PC at the timestamp it computed, or
writes what it prewrote, or nothing. -/
theorem prewriteWriteResult_stepBatch {s : Storage} (hk : KeyInv s.key) {r : Except Error TimeStamp}
    {t : MvccTxn} (h : Prewritten s.key st (r, t)) {asyncCommit tryOnePc : Bool}
    {locks : List Error} {f : TimeStamp} (hf : locks = [] → tryOnePc = true → r = .ok f) :
    StepBatch s.key st (prewriteWriteResult s t asyncCommit tryOnePc locks f).1.key := by
  unfold prewriteWriteResult
  extract_lets asyncCommitTs
  split
  · rename_i hnil
    split
    · rename_i ts t' hrun
      show StepBatch s.key st (s.key.applyModifies t'.modifies)
      cases tryOnePc with
      | false =>
        -- no 1PC lock may be left
        simp only [runTxn, onePcCommit, Bool.false_eq_true, if_false] at hrun
        rw [run_bind_of_ok (run_get t)] at hrun
        split at hrun
        · rw [run_bind_of_error (run_throw _ t)] at hrun
          cases hrun
        · rename_i hp
          cases hrun
          exact h.stepBatch hk (not_not.mp hp)
      | true =>
        simp only [runTxn, onePcCommit, if_true] at hrun
        have hf := hf (List.isEmpty_iff.mp hnil) rfl
        subst hf
        split at hrun
        · rw [run_bind_of_error (run_throw _ t)] at hrun
          cases hrun
        · obtain ⟨u, t₁, h₁, h₂⟩ := run_bind_ok hrun
          rw [run_pure] at h₂
          cases h₂
          exact h.stepBatch_handle1pcLocks hk h₁
    · exact .same
  · exact .same

/-- A prewrite command writes a batch that commits nothing, or commits in 1PC. -/
theorem processPrewrite_stepBatch (key : Bytes) (b : Bool) (req : PrewriteRequest) {s : Storage}
    (hk : KeyInv s.key) : StepBatch s.key req.startTs (processPrewrite key b req s).1.key := by
  unfold processPrewrite
  extract_lets isRetryRequest commitKind txnProps secondaries needMinCommitTs asyncCommit
  have hcommitted : ∀ t c,
      StepBatch s.key req.startTs (prewriteCommitted s t asyncCommit req.tryOnePc c).1.key :=
    fun t c => prewriteWriteResult_stepBatch hk (r := .ok c) (.values (fun _ h => by cases h) rfl)
      fun _ _ => rfl
  have hfallback : ∀ r t, Prewritten s.key req.startTs (r, t) →
      StepBatch s.key req.startTs (prewriteFallback s t).1.key :=
    fun r t h => prewriteWriteResult_stepBatch hk (h.fallback (.ok 0)) nofun
  split
  rename_i pessimisticAction expectedForUpdateTs _
  have hw : Prewritten s.key req.startTs (runTxn (prewrite s.key b txnProps req.mutation secondaries
      pessimisticAction expectedForUpdateTs) (MvccTxn.new req.startTs s.maxTs)) :=
    prewrite_run hk b txnProps req.mutation secondaries pessimisticAction expectedForUpdateTs
      ⟨rfl, rfl, rfl⟩
  generalize runTxn (prewrite s.key b txnProps req.mutation secondaries pessimisticAction
    expectedForUpdateTs) (MvccTxn.new req.startTs s.maxTs) = res at hw ⊢
  obtain ⟨r, t⟩ := res
  cases r with
  | ok ts =>
    dsimp only
    split
    · refine prewriteWriteResult_stepBatch hk hw fun _ h1pc => ?_
      simp [needMinCommitTs, h1pc]
    · exact hfallback _ _ hw
  | error e =>
    dsimp only
    repeat' split
    all_goals first
      | exact .same
      | exact hcommitted _ _
      | exact hfallback _ _ hw

end Write

end Tikv.Mvcc
