import Tikv.Mvcc.LastChange.Batch
import Tikv.Mvcc.Commands

/-!
# What each action appends to the buffer

An action runs on a buffer of the transaction of `st` and appends
modifications to it. For every run, failed ones included, each action but a
commit appends only what a batch that commits nothing may hold
(`ActionSound`): a lock with a true pointer and, when it is a `Put`, a stored
value; a new `Rollback` record or an overlapped-rollback flag at `st`; the
removal of a `Rollback` record; and the removal of the transaction's value,
which only a rollback of a lock does and which is allowed only when the
caller said so (`del`). A commit appends its commit record and the removal
of the lock (`CommitAction`).

Which lock a batch leaves depends on its order. A rollback ends with the
removal of the lock (`LockGone`, over the successful runs), and a commit
leaves no lock or writes nothing (`UnlocksOrNothing`, over all runs). The
answers an action computes on the way (`ReturnsAt`) feed the rest: a rollback
record is written only from an answer of `get_txn_commit_record` that found no
record of the transaction.

The proofs follow each action's text with the rules of `ExceptState.Keeps`,
at the transaction's `start_ts` (`AppendsAt`); `lockValue_after` and
`stepBatch_of_acts`, `stepBatch_of_commit` turn what the runs append into a
`StepBatch`.

Results:
* `rollbackLock_acts`, `checkTxnStatus_acts`, `cleanup_acts`,
  `pessimisticRollback_acts`, `txnHeartBeat_acts`, `checkSecondaryLocks_acts`,
  `acquirePessimisticLock_acts`: these actions append only `ActionSound`
  modifications.
* `checkTxnStatus_lockGone`, `cleanup_lockGone`: a rollback of the
  transaction's lock leaves no lock.
* `commit_acts`, `commit_unlocks`: what a commit appends.
* `stepBatch_of_acts`, `stepBatch_of_commit`: the batches of the commands.
-/
namespace Tikv.Mvcc
open Tikv.Codec Tikv.TxnTypes ExceptState

/-! ## Runs at the transaction's `start_ts` -/

/-- From a buffer of the transaction of `st`, `Appends P`. -/
def AppendsAt (st : TimeStamp) (P : Modify → Prop) (t t' : MvccTxn) : Prop :=
  t.startTs = st → Appends P t t'

instance {st : TimeStamp} {P : Modify → Prop} : IsTrans MvccTxn (AppendsAt st P) where
  trans _ _ _ h₁ h₂ hst :=
    have h := h₁ hst
    IsTrans.trans _ _ _ h (h₂ (h.1.trans hst))

instance {st : TimeStamp} {P : Modify → Prop} : Std.Refl (AppendsAt st P) where
  refl t _ := Std.Refl.refl t

variable {α : Type} {st : TimeStamp} {P : Modify → Prop}

theorem keepsAt_of_keeps {x : TxnM α} (h : Keeps (Appends P) x) : Keeps (AppendsAt st P) x :=
  fun t _ => h t

theorem keepsAt_startTs_bind {f : TimeStamp → TxnM α} (h : Keeps (AppendsAt st P) (f st)) :
    Keeps (AppendsAt st P) (startTs >>= f) := by
  intro t hst
  rw [run_bind_of_ok (run_startTs t), hst]
  exact h t hst

/-- Every successful run from a buffer of `start_ts = st` returns a value that
satisfies `Q`. -/
def ReturnsAt (st : TimeStamp) (x : TxnM α) (Q : α → Prop) : Prop :=
  ∀ t a t', t.startTs = st → run x t = (.ok a, t') → Q a

section Returns

variable {β : Type} {Q : β → Prop}

theorem returnsAt_pure {b : β} (h : Q b) : ReturnsAt st (pure b : TxnM β) Q := by
  intro t b' t' _ hrun
  rw [run_pure] at hrun
  cases hrun
  exact h

theorem returnsAt_throw (e : Error) : ReturnsAt st (throw e : TxnM β) Q := by
  intro t b t' _ hrun
  rw [run_throw] at hrun
  cases hrun

theorem returnsAt_throw_bind {f : α → TxnM β} (e : Error) : ReturnsAt st (throw e >>= f) Q := by
  intro t b t' _ hrun
  rw [run_bind_of_error (run_throw e t)] at hrun
  cases hrun

theorem returnsAt_true (x : TxnM β) : ReturnsAt st x fun _ => True := fun _ _ _ _ _ => trivial

theorem returnsAt_bind {x : TxnM α} {f : α → TxnM β} {Q₁ : α → Prop}
    (hx : Keeps (AppendsAt st P) x) (hxQ : ReturnsAt st x Q₁) (hf : ∀ a, Q₁ a → ReturnsAt st (f a) Q) :
    ReturnsAt st (x >>= f) Q := by
  intro t b t'' hst hrun
  obtain ⟨a, t', hx', hf'⟩ := run_bind_ok hrun
  have ht' : t'.startTs = st := by
    have h := (hx t hst).1
    rw [hx'] at h
    exact h.trans hst
  exact hf a (hxQ t a t' hst hx') t' b t'' ht' hf'

theorem returnsAt_startTs_bind {f : TimeStamp → TxnM β} (h : ReturnsAt st (f st) Q) :
    ReturnsAt st (startTs >>= f) Q := by
  intro t b t' hst hrun
  rw [run_bind_of_ok (run_startTs t), hst] at hrun
  exact h t b t' hst hrun

theorem returnsAt_liftExcept_bind {x : Except Error α} {f : α → TxnM β}
    (hf : ∀ a, x = .ok a → ReturnsAt st (f a) Q) : ReturnsAt st (liftExcept x >>= f) Q := by
  intro t b t' hst hrun
  cases x with
  | error e =>
    rw [run_bind_of_error (run_liftExcept t (.error e))] at hrun
    cases hrun
  | ok a =>
    rw [run_bind_of_ok (run_liftExcept t (.ok a))] at hrun
    exact hf a rfl t b t' hst hrun

/-- The continuation may use what the first part is known to return. -/
theorem keepsAt_bind_returns {x : TxnM α} {f : α → TxnM β} {Q₁ : α → Prop}
    (hx : Keeps (AppendsAt st P) x) (hxQ : ReturnsAt st x Q₁)
    (hf : ∀ a, Q₁ a → Keeps (AppendsAt st P) (f a)) : Keeps (AppendsAt st P) (x >>= f) := by
  intro t
  by_cases hst : t.startTs = st
  · exact rel_bind _ (hx t) fun a t' hrun => hf a (hxQ t a t' hst hrun) t'
  · exact fun h => absurd h hst

end Returns

/-- A batch after which no lock is left, whatever the key held. -/
def LockGoneIn (ms : List Modify) : Prop :=
  ∀ k : KeyState, (k.applyModifies ms).lock = none

theorem LockGoneIn.append_left {ms : List Modify} (ms₀ : List Modify) (h : LockGoneIn ms) :
    LockGoneIn (ms₀ ++ ms) := fun k => by
  rw [applyModifies_append]
  exact h _

/-- Every successful run from a buffer of `start_ts = st` leaves no lock. -/
def LockGone (st : TimeStamp) (x : TxnM α) : Prop :=
  ∀ t a t', t.startTs = st → run x t = (.ok a, t') → LockGoneIn t'.modifies

section LockGone

variable {β : Type}

theorem lockGone_unlockKey : LockGone st unlockKey := by
  intro t _ t' _ hrun
  rw [unlockKey, run_push] at hrun
  cases hrun
  intro k
  rw [applyModifies_append]
  rfl

theorem lockGone_bind {x : TxnM α} {f : α → TxnM β} (hx : Keeps (AppendsAt st P) x)
    (hf : ∀ a, LockGone st (f a)) : LockGone st (x >>= f) := by
  intro t b t'' hst hrun
  obtain ⟨a, t', hx', hf'⟩ := run_bind_ok hrun
  have ht' : t'.startTs = st := by
    have h := (hx t hst).1
    rw [hx'] at h
    exact h.trans hst
  exact hf a t' b t'' ht' hf'

theorem lockGone_bind_pure {x : TxnM α} {g : α → β} (hx : LockGone st x) :
    LockGone st (x >>= fun a => pure (g a)) := by
  intro t b t' hst hrun
  obtain ⟨a, t₁, hx', hp⟩ := run_bind_ok hrun
  rw [run_pure] at hp
  cases hp
  exact hx t a _ hst hx'

theorem lockGone_startTs_bind {f : TimeStamp → TxnM β} (h : LockGone st (f st)) :
    LockGone st (startTs >>= f) := by
  intro t b t' hst hrun
  rw [run_bind_of_ok (run_startTs t), hst] at hrun
  exact h t b t' hst hrun

theorem lockGone_liftExcept_bind {x : Except Error α} {f : α → TxnM β}
    (hf : ∀ a, x = .ok a → LockGone st (f a)) : LockGone st (liftExcept x >>= f) := by
  intro t b t' hst hrun
  cases x with
  | error e =>
    rw [run_bind_of_error (run_liftExcept t (.error e))] at hrun
    cases hrun
  | ok a =>
    rw [run_bind_of_ok (run_liftExcept t (.ok a))] at hrun
    exact hf a rfl t b t' hst hrun

theorem lockGone_throw (e : Error) : LockGone st (throw e : TxnM β) := by
  intro t b t' _ hrun
  rw [run_throw] at hrun
  cases hrun

theorem lockGone_ite_bind {c : Prop} [Decidable c] {x : TxnM PUnit} {k : PUnit → TxnM β}
    (hx : Keeps (AppendsAt st P) x) (hk : ∀ u, LockGone st (k u)) :
    LockGone st (if c then x >>= k else k ⟨⟩) := by
  split
  · exact lockGone_bind hx hk
  · exact hk ⟨⟩

end LockGone

/-! ## What an action may append -/

variable {snap : KeyState} {del : Bool}

/-- A `Put` lock put by the batch has its value in the snapshot. -/
def LockValued (snap : KeyState) : Modify → Prop
  | .putLock l => l.lockType = .put → ValueStored snap l.shortValue l.ts
  | _ => True

/-- The modification keeps the default column family. -/
def KeepsValues : Modify → Prop
  | .deleteValue _ => False
  | _ => True

/-- A modification an action of the transaction of `st` may append to a batch
of the snapshot `snap`; values are removed only when `del` allows it. -/
def ActionSound (snap : KeyState) (st : TimeStamp) (del : Bool) (m : Modify) : Prop :=
  Sound snap st m ∧ LockValued snap m ∧ (del = false → KeepsValues m)

theorem newPointer_unknown (k : KeyState) : NewPointer k .unknown :=
  ⟨trivial, Nat.zero_le _⟩

theorem KeyInv.newPointer_lock {k : KeyState} (hk : KeyInv k) {l : Lock} (hl : k.lock = some l) :
    NewPointer k l.lastChange :=
  ⟨hk.inv.lock l hl, Nat.le_succ_of_le (lockVersions_le_versionBound hl)⟩

/-- A key with no record has no data version. -/
theorem newPointer_notExist {k : KeyState} (h : seekWrite k TimeStamp.max = none) :
    NewPointer k .notExist := by
  refine ⟨fun q _ hput => ?_, Nat.zero_le _⟩
  obtain ⟨w, hw, -⟩ := exists_get?_of_dataVersionAt (by rw [hput]; exact Option.some_ne_none _)
  exact absurd ((VersionMap.seek_eq_none_iff _ _).mp h q w hw) (not_lt.mpr (TimeStamp.le_max q))

theorem lastChangeVersions_makeExist {ts n : TimeStamp} {lc : LastChange}
    (h : liftTxnTypes (LastChange.makeExist ts n) = .ok lc) : lastChangeVersions lc = n.toNat := by
  rw [makeExist_ok h]
  rfl

theorem toNat_add_one_le (n : TimeStamp) : (n + 1).toNat ≤ n.toNat + 1 := by
  rw [UInt64.toNat_add, UInt64.toNat_one]
  exact Nat.mod_le _ _

/-- The pointer computed from the newest record is true, and counts at most
one version more than the records. -/
theorem newPointer_nextLastChangeInfo {k : KeyState} (hk : KeyInv k) {c : TimeStamp} {w : Write}
    (hseek : seekWrite k TimeStamp.max = some (c, w)) {lc : LastChange}
    (h : nextLastChangeInfo k w st c = .ok lc) : NewPointer k lc := by
  refine ⟨nextLastChangeInfo_pointerOk hk.inv.records hk.inv.fence hseek h, ?_⟩
  have hget := (get?_above_seek_max hseek).1
  unfold nextLastChangeInfo at h
  cases hwt : w.writeType with
  | put | delete =>
    simp only [hwt] at h
    rw [lastChangeVersions_makeExist h]
    exact Nat.le_add_left _ _
  | lock | rollback =>
    simp only [hwt] at h
    cases hlc : w.lastChange with
    | exist p n =>
      simp only [hlc] at h
      rw [lastChangeVersions_makeExist h]
      have hn := recordVersions_le_versionBound hget
      rw [hlc] at hn
      exact (toNat_add_one_le n).trans (Nat.add_le_add_right hn 1)
    | notExist =>
      simp only [hlc, Except.ok.injEq] at h
      subst h
      exact Nat.zero_le _
    | unknown =>
      simp only [hlc] at h
      split at h
      · cases h
      · cases h
        exact Nat.zero_le _
      · split at h
        · cases h
        · rw [lastChangeVersions_makeExist h]
          -- the walk counts records of the column
          refine (toNat_add_one_le _).trans (Nat.add_le_add_right ?_ 1)
          unfold walkedVersions
          rw [UInt64.toNat_ofNat']
          refine (Nat.mod_le _ _).trans ((List.length_filter_le _ _).trans ?_)
          exact (List.length_filter_le _ _).trans (length_le_versionBound k)

/-- A lock written back with the pointer, type, value and transaction of the
key's lock. -/
theorem actionSound_putLock_of_lock (hk : KeyInv snap) {lock l : Lock} (hl : snap.lock = some lock)
    (hlc : l.lastChange = lock.lastChange) (htype : l.lockType = lock.lockType)
    (hsv : l.shortValue = lock.shortValue) (hts : l.ts = lock.ts) :
    ActionSound snap st del (.putLock l) := by
  refine ⟨show NewPointer snap l.lastChange from hlc ▸ hk.newPointer_lock hl, fun hput => ?_,
    fun _ => trivial⟩
  rw [hsv, hts]
  exact hk.lockValue lock hl (htype ▸ hput)

theorem toLock_lastChange (l : PessimisticLock) : l.toLock.lastChange = l.lastChange := rfl

theorem toLock_lockType (l : PessimisticLock) : l.toLock.lockType = .pessimistic := rfl

/-- A pessimistic lock has no value: only its pointer matters. -/
theorem actionSound_putPessimisticLock {l : PessimisticLock} (h : NewPointer snap l.lastChange) :
    ActionSound snap st del (.putLock l.toLock) := by
  refine ⟨h, fun hput => ?_, fun _ => trivial⟩
  rw [toLock_lockType] at hput
  cases hput

theorem unlockKey_acts : Keeps (AppendsAt st (ActionSound snap st del)) unlockKey :=
  keepsAt_of_keeps (keeps_unlockKey ⟨trivial, trivial, fun _ => trivial⟩)

/-! ## Rollback records -/

theorem startTs_ne_of_none {ws : VersionMap TimeStamp Write} {ow : Option OverlappedWrite}
    (hrec : CommitRecordSpec ws st (.none ow))
    (horder : ∀ c w, ws.get? c = some w → w.startTs ≤ c) :
    ∀ c w, ws.get? c = some w → w.startTs ≠ st := by
  intro c w hw heq
  rcases lt_trichotomy c st with hlt | rfl | hgt
  · exact absurd (heq ▸ horder c w hw) (not_le.mpr hlt)
  · cases ow with
    | none =>
      rw [hrec.1] at hw
      cases hw
    | some o =>
      obtain ⟨w₀, g⟩ := o
      rw [hrec.1] at hw
      cases hw
      exact hrec.2.1 heq
  · cases ow with
    | none => exact hrec.2 c w hw hgt heq
    | some o =>
      obtain ⟨w₀, g⟩ := o
      exact hrec.2.2.2.2 c w hw hgt heq

theorem makeRollback_keeps {protect : Bool} {ow : Option OverlappedWrite}
    {w : Write} (hrec : CommitRecordSpec snap.writes st (.none ow))
    (h : makeRollback st protect ow = .ok (some w)) : KeepsVersions snap (.putWrite st w) := by
  unfold makeRollback at h
  split at h
  · rename_i w₀ g
    obtain ⟨h₀, -, -, hg, -⟩ := hrec
    split_ifs at h
    · cases h
      exact .inr ⟨w₀, some g, h₀, rfl, hg⟩
    · cases h
  · cases h
    exact .inl ⟨rfl, rfl, rfl, rfl, hrec.1⟩

theorem constructWrite_keeps {a : MissingLockAction} {ow : Option OverlappedWrite} {w : Write}
    (hrec : CommitRecordSpec snap.writes st (.none ow))
    (h : a.constructWrite st ow = .ok (some w)) : KeepsVersions snap (.putWrite st w) := by
  unfold MissingLockAction.constructWrite at h
  cases hc : a.collapseRollback with
  | error e => simp [hc, bind, Except.bind] at h
  | ok c =>
    simp only [hc, bind, Except.bind] at h
    exact makeRollback_keeps hrec h

theorem makeRollback_acts {protect : Bool} {ow : Option OverlappedWrite}
    {w : Write} (hrec : CommitRecordSpec snap.writes st (.none ow))
    (h : makeRollback st protect ow = .ok (some w)) : ActionSound snap st del (.putWrite st w) :=
  ⟨⟨rfl, makeRollback_keeps hrec h⟩, trivial, fun _ => trivial⟩

theorem constructWrite_acts {a : MissingLockAction} {ow : Option OverlappedWrite} {w : Write}
    (hrec : CommitRecordSpec snap.writes st (.none ow))
    (h : a.constructWrite st ow = .ok (some w)) : ActionSound snap st del (.putWrite st w) :=
  ⟨⟨rfl, constructWrite_keeps hrec h⟩, trivial, fun _ => trivial⟩

theorem collapsePrevRollback_acts :
    Keeps (AppendsAt st (ActionSound snap st del)) (collapsePrevRollback snap) := by
  unfold collapsePrevRollback
  refine keepsAt_startTs_bind ?_
  split
  · rename_i c w hseek
    refine Keeps.ite (fun hcond => keepsAt_of_keeps (keeps_deleteWrite ⟨?_, trivial, fun _ => trivial⟩))
      fun _ => Keeps.pure ()
    have hcond' : w.writeType = .rollback ∧ w.asRef.isProtected = false := by simpa using hcond
    exact ⟨w, ((VersionMap.seek_eq_some_iff _ _ _ _).mp hseek).1, hcond'.1⟩
  · exact Keeps.pure ()

theorem rollbackLock_acts (hk : KeyInv snap) {lock : Lock} (hts : lock.ts = st)
    (hdel : del = false → (lock.shortValue.isNone && lock.lockType = .put) = false)
    (key : Bytes) (collapse : Bool) :
    Keeps (AppendsAt st (ActionSound snap st del)) (rollbackLock snap key lock collapse) := by
  unfold rollbackLock
  refine keepsAt_startTs_bind (keeps_liftExcept_bind fun r hr => ?_)
  have hrec := getTxnCommitRecord_spec hr
  split
  · extract_lets protect unlock collapseThenUnlock putThenCollapse
    have hunlock : ∀ u, Keeps (AppendsAt st (ActionSound snap st del)) (unlock u) :=
      fun _ => keepsAt_of_keeps (keeps_unlockKey ⟨trivial, trivial, fun _ => trivial⟩)
    have hcollapse : ∀ u, Keeps (AppendsAt st (ActionSound snap st del)) (collapseThenUnlock u) :=
      fun _ => Keeps.ite_bind (fun _ => collapsePrevRollback_acts) hunlock
    have hput : ∀ u, Keeps (AppendsAt st (ActionSound snap st del)) (putThenCollapse u) := by
      intro _
      refine keeps_liftExcept_bind fun w? hw => ?_
      split
      · exact Keeps.bind (keepsAt_of_keeps (keeps_putWrite (makeRollback_acts hrec hw))) hcollapse
      · exact hcollapse ()
    -- the value removed is the transaction's own, and no record is the transaction's
    refine Keeps.ite_bind (fun hv => keepsAt_of_keeps (keeps_deleteValue
      ⟨⟨hts, startTs_ne_of_none hrec hk.order⟩, trivial, fun hd => ?_⟩)) hput
    exact absurd (hdel hd) (by simpa using hv)
  · extract_lets unlock
    exact Keeps.ite_bind (fun _ => Keeps.throw _)
      fun _ => keepsAt_of_keeps (keeps_unlockKey ⟨trivial, trivial, fun _ => trivial⟩)
  · exact keepsAt_of_keeps (keeps_unlockKey ⟨trivial, trivial, fun _ => trivial⟩)

/-- A rollback ends with the lock deleted. -/
theorem rollbackLock_lockGone (key : Bytes) (lock : Lock) (collapse : Bool) :
    LockGone st (rollbackLock snap key lock collapse) := by
  unfold rollbackLock
  refine lockGone_startTs_bind (lockGone_liftExcept_bind fun r hr => ?_)
  have hrec := getTxnCommitRecord_spec hr
  split
  · extract_lets protect unlock collapseThenUnlock putThenCollapse
    have hcollapse : ∀ u, LockGone st (collapseThenUnlock u) := fun _ =>
      lockGone_ite_bind (P := ActionSound snap st true) collapsePrevRollback_acts
        fun _ => lockGone_unlockKey
    have hput : ∀ u, LockGone st (putThenCollapse u) := by
      intro _
      refine lockGone_liftExcept_bind fun w? hw => ?_
      split
      · exact lockGone_bind (P := ActionSound snap st true)
          (keepsAt_of_keeps (keeps_putWrite (makeRollback_acts hrec hw))) hcollapse
      · exact hcollapse ()
    exact lockGone_ite_bind (keepsAt_of_keeps (keeps_deleteValue (P := fun _ => True) trivial)) hput
  · extract_lets unlock
    exact lockGone_ite_bind (P := fun _ => True) (fun _ _ => Std.Refl.refl _)
      fun _ => lockGone_unlockKey
  · exact lockGone_unlockKey

theorem markRollbackOnMismatchingLock_acts (hk : KeyInv snap) {lock : Lock}
    (hl : snap.lock = some lock) (isProtected : Bool) :
    Keeps (AppendsAt st (ActionSound snap st del)) (markRollbackOnMismatchingLock lock isProtected) := by
  unfold markRollbackOnMismatchingLock
  refine keeps_startTs.bind fun _ => ?_
  extract_lets mark
  -- the lock put back is the one met, with `start_ts` added to its `rollback_ts`
  have hmark : ∀ u, Keeps (AppendsAt st (ActionSound snap st del)) (mark u) := fun _ =>
    Keeps.ite (fun _ => Keeps.pure ()) fun _ => Keeps.ite (fun _ => Keeps.pure ()) fun _ =>
      Keeps.ite (fun _ => Keeps.pure ()) fun _ =>
        keepsAt_of_keeps (keeps_putLock (actionSound_putLock_of_lock hk hl rfl rfl rfl rfl))
  exact Keeps.ite_bind (fun _ => Keeps.throw _) hmark

/-- The check of a transaction whose lock is gone. The lock met in its place,
if any, is the key's lock. -/
theorem checkTxnStatusMissingLock_acts (hk : KeyInv snap) {mismatchLock : Option Lock}
    (hmis : ∀ l ∈ mismatchLock, snap.lock = some l)
    (action : MissingLockAction) (resolvingPessimisticLock : Bool) :
    Keeps (AppendsAt st (ActionSound snap st del))
      (checkTxnStatusMissingLock snap mismatchLock action resolvingPessimisticLock) := by
  unfold checkTxnStatusMissingLock
  extract_lets done
  refine keepsAt_startTs_bind (keeps_liftExcept_bind fun r hr => ?_)
  have hrec := getTxnCommitRecord_spec hr
  split
  · exact Keeps.pure _
  · exact Keeps.pure _
  · extract_lets construct mark collapse
    have hdone : ∀ u, Keeps (AppendsAt st (ActionSound snap st del)) (done u) :=
      fun _ => Keeps.pure _
    have hconstruct : ∀ u, Keeps (AppendsAt st (ActionSound snap st del)) (construct u) := by
      intro _
      refine keeps_liftExcept_bind fun w? hw => ?_
      split
      · exact Keeps.bind (keepsAt_of_keeps (keeps_putWrite (constructWrite_acts hrec hw))) hdone
      · exact hdone ()
    have hmark : ∀ u, Keeps (AppendsAt st (ActionSound snap st del)) (mark u) := by
      intro _
      dsimp only [mark]
      split
      · rename_i lk hmatch
        simp only [Prod.mk.injEq] at hmatch
        exact Keeps.bind (markRollbackOnMismatchingLock_acts hk (hmis lk hmatch.1) _) hconstruct
      · exact hconstruct ()
    have hcollapse : ∀ u, Keeps (AppendsAt st (ActionSound snap st del)) (collapse u) := by
      intro _
      refine Keeps.ite (fun _ => Keeps.pure _) fun _ => ?_
      exact keeps_liftExcept_bind fun c _ =>
        Keeps.ite_bind (fun _ => collapsePrevRollback_acts) hmark
    exact Keeps.ite_bind (fun _ => Keeps.throw _) hcollapse

/-! ## Transaction status, cleanup and heartbeat -/

/-- A pessimistic lock has no value to remove. -/
theorem noValue_of_pessimistic {lock : Lock} (hpess : lock.isPessimisticLock = true) :
    (lock.shortValue.isNone && lock.lockType = .put) = false := by
  simp only [Lock.isPessimisticLock, decide_eq_true_eq] at hpess
  simp [hpess]

theorem checkTxnStatusFromPessimisticPrimaryLock_acts (hk : KeyInv snap) {lock : Lock}
    (hts : lock.ts = st) (hpess : lock.isPessimisticLock = true) (primaryKey : Bytes)
    (currentTs : TimeStamp) (resolvingPessimisticLock : Bool) :
    Keeps (AppendsAt st (ActionSound snap st del))
      (checkTxnStatusFromPessimisticPrimaryLock snap primaryKey lock currentTs
        resolvingPessimisticLock) := by
  unfold checkTxnStatusFromPessimisticPrimaryLock
  extract_lets expire
  have hexpire : ∀ u, Keeps (AppendsAt st (ActionSound snap st del)) (expire u) := fun _ =>
    Keeps.ite
      (fun _ => Keeps.ite (fun _ => Keeps.bind unlockKey_acts fun _ => Keeps.pure _)
        fun _ => Keeps.bind
          (rollbackLock_acts hk hts (fun _ => noValue_of_pessimistic hpess) _ _)
          fun _ => Keeps.pure _)
      fun _ => Keeps.pure _
  refine Keeps.ite (fun _ => Keeps.bind keeps_startTs fun _ => keeps_liftExcept_bind fun r _ => ?_)
    fun _ => hexpire ()
  split
  · exact Keeps.bind unlockKey_acts fun _ => Keeps.pure _
  · exact hexpire ()

/-- The branch of the check of a present primary lock that rolls it back for its
TTL (src/storage/txn/actions/check_txn_status.rs:178-189): the only one that
can remove the transaction's value. -/
def LockExistsRollsBack (lock : Lock) (primaryKey : Bytes) (currentTs : TimeStamp)
    (forceSyncCommit verifyIsPrimary : Bool) : Prop :=
  (verifyIsPrimary && decide (primaryKey ≠ lock.primary)) = false ∧
    (lock.useAsyncCommit && !forceSyncCommit) = false ∧ lock.isPessimisticLock = false ∧
    TimeStamp.physical lock.ts + lock.ttl < TimeStamp.physical currentTs

theorem checkTxnStatusLockExists_acts (hk : KeyInv snap) {lock : Lock} (hl : snap.lock = some lock)
    (hts : lock.ts = st) (primaryKey : Bytes) (currentTs callerStartTs : TimeStamp)
    (forceSyncCommit resolvingPessimisticLock verifyIsPrimary rollbackIfNotExist : Bool)
    (hdel : del = false → LockExistsRollsBack lock primaryKey currentTs forceSyncCommit
      verifyIsPrimary → (lock.shortValue.isNone && lock.lockType = .put) = false) :
    Keeps (AppendsAt st (ActionSound snap st del))
      (checkTxnStatusLockExists snap primaryKey lock currentTs callerStartTs forceSyncCommit
        resolvingPessimisticLock verifyIsPrimary rollbackIfNotExist) := by
  unfold checkTxnStatusLockExists
  extract_lets uncommitted push rest
  have huncommitted : ∀ l, Keeps (AppendsAt st (ActionSound snap st del)) (uncommitted l) :=
    fun _ => Keeps.pure _
  -- the lock is written back with its `min_commit_ts` pushed
  have hpush : ∀ u, Keeps (AppendsAt st (ActionSound snap st del)) (push u) := fun _ =>
    Keeps.ite
      (fun _ => keeps_liftExcept_bind fun _ _ =>
        Keeps.bind (keepsAt_of_keeps (keeps_putLock (actionSound_putLock_of_lock hk hl rfl rfl rfl rfl)))
          fun _ => Keeps.bind (Keeps.pure _) huncommitted)
      fun _ => Keeps.bind (Keeps.pure _) huncommitted
  have hrest : (verifyIsPrimary && decide (primaryKey ≠ lock.primary)) = false → ∀ u,
      Keeps (AppendsAt st (ActionSound snap st del)) (rest u) := by
    intro hverify _
    refine Keeps.ite (fun _ => Keeps.pure _) fun hasync => Keeps.ite (fun hpess => ?_) fun hpess => ?_
    · refine Keeps.bind (checkTxnStatusFromPessimisticPrimaryLock_acts hk hts hpess _ _ _) fun r => ?_
      split
      · exact Keeps.pure _
      · exact hpush ()
    · refine Keeps.ite (fun hexp => ?_) fun _ => hpush ()
      refine Keeps.bind (rollbackLock_acts hk hts (fun hd => hdel hd ⟨hverify, ?_, ?_, hexp⟩) _ _)
        fun _ => Keeps.pure _
      · simpa using hasync
      · simpa using hpess
  refine Keeps.ite (fun hverify => Keeps.ite (fun _ => ?_) fun _ => ?_) fun hverify => ?_
  · exact Keeps.bind (checkTxnStatusMissingLock_acts hk (fun _ h => by simp at h) _ _)
      fun _ => Keeps.bind unlockKey_acts fun _ => Keeps.pure _
  · exact Keeps.throw_bind _ _
  · exact hrest (by simpa using hverify) ()

theorem checkTxnStatusLockExists_lockGone {lock : Lock} {primaryKey : Bytes}
    {currentTs : TimeStamp} {forceSyncCommit verifyIsPrimary : Bool}
    (hrb : LockExistsRollsBack lock primaryKey currentTs forceSyncCommit verifyIsPrimary)
    (callerStartTs : TimeStamp) (resolvingPessimisticLock rollbackIfNotExist : Bool) :
    LockGone st (checkTxnStatusLockExists snap primaryKey lock currentTs callerStartTs
      forceSyncCommit resolvingPessimisticLock verifyIsPrimary rollbackIfNotExist) := by
  obtain ⟨hverify, hasync, hpess, hexp⟩ := hrb
  unfold checkTxnStatusLockExists
  extract_lets uncommitted push rest
  rw [if_neg (by simpa using hverify)]
  dsimp only [rest]
  rw [if_neg (by simpa using hasync), if_neg (by simpa using hpess), if_pos hexp]
  exact lockGone_bind_pure (rollbackLock_lockGone _ _ _)

/-- The check of the transaction's primary (`CheckTxnStatus`) rolls back its
lock for its TTL. -/
def CheckTxnStatusRollsBack (snap : KeyState) (key : Bytes) (req : CheckTxnStatusRequest) : Prop :=
  ∃ lock, snap.lock = some lock ∧ lock.ts = req.lockTs ∧
    LockExistsRollsBack lock key req.currentTs req.forceSyncCommit req.verifyIsPrimary

theorem checkTxnStatus_acts (hk : KeyInv snap) (key : Bytes) (req : CheckTxnStatusRequest)
    (hdel : del = false → ∀ lock, snap.lock = some lock → lock.ts = req.lockTs →
      LockExistsRollsBack lock key req.currentTs req.forceSyncCommit req.verifyIsPrimary →
      (lock.shortValue.isNone && lock.lockType = .put) = false) :
    Keeps (AppendsAt req.lockTs (ActionSound snap req.lockTs del)) (checkTxnStatus snap key req) := by
  unfold checkTxnStatus
  refine Keeps.bind (keepsAt_of_keeps (keeps_updateMaxTs _)) fun _ => ?_
  split
  · rename_i lock hfilter
    obtain ⟨hl, hts⟩ := Option.filter_eq_some_iff.mp hfilter
    have hts : lock.ts = req.lockTs := by simpa using hts
    exact checkTxnStatusLockExists_acts hk hl hts _ _ _ _ _ _ _ (fun hd => hdel hd lock hl hts)
  · exact checkTxnStatusMissingLock_acts hk (fun _ h => Option.mem_def.mp h) _ _

theorem checkTxnStatus_lockGone {key : Bytes} {req : CheckTxnStatusRequest}
    (h : CheckTxnStatusRollsBack snap key req) : LockGone req.lockTs (checkTxnStatus snap key req) := by
  obtain ⟨lock, hl, hts, hrb⟩ := h
  have hfilter : snap.lock.filter (fun l => l.ts = req.lockTs) = some lock := by
    rw [hl]
    simp [hts]
  unfold checkTxnStatus
  refine lockGone_bind (keepsAt_of_keeps (keeps_updateMaxTs (P := fun _ => True) _)) fun _ => ?_
  rw [hfilter]
  exact checkTxnStatusLockExists_lockGone hrb _ _ _

theorem cleanup_acts (hk : KeyInv snap) (key : Bytes) (currentTs : TimeStamp) (protectRollback : Bool)
    (hdel : del = false → ∀ lock, snap.lock = some lock → lock.ts = st →
      (lock.shortValue.isNone && lock.lockType = .put) = false) :
    Keeps (AppendsAt st (ActionSound snap st del)) (cleanup snap key currentTs protectRollback) := by
  unfold cleanup
  refine keepsAt_startTs_bind ?_
  split
  · rename_i lock hfilter
    obtain ⟨hl, hts⟩ := Option.filter_eq_some_iff.mp hfilter
    have hts : lock.ts = st := by simpa using hts
    extract_lets rollback
    exact Keeps.ite_bind (fun _ => Keeps.throw _)
      fun _ => rollbackLock_acts hk hts (fun hd => hdel hd lock hl hts) _ _
  · refine Keeps.bind (checkTxnStatusMissingLock_acts hk (fun _ h => Option.mem_def.mp h) _ _)
      fun r => ?_
    -- `cleanup` returns on a rollback or a missing lock and fails on every other status
    cases r with
    | rolledBack | lockNotExist => exact Keeps.pure _
    | committed commitTs => exact Keeps.throw _
    | ttlExpire | uncommitted _ _ | pessimisticRollBack | lockNotExistDoNothing => exact Keeps.throw _

theorem cleanup_lockGone {lock : Lock} (hl : snap.lock = some lock) (hts : lock.ts = st)
    (key : Bytes) (currentTs : TimeStamp) (protectRollback : Bool) :
    LockGone st (cleanup snap key currentTs protectRollback) := by
  have hfilter : snap.lock.filter (fun l => l.ts = st) = some lock := by
    rw [hl]
    simp [hts]
  unfold cleanup
  refine lockGone_startTs_bind ?_
  rw [hfilter]
  dsimp -zeta only
  extract_lets rollback
  exact lockGone_ite_bind (P := fun _ => True) (fun _ _ => Std.Refl.refl _)
    fun _ => rollbackLock_lockGone _ _ _

theorem pessimisticRollback_acts (forUpdateTs : TimeStamp) :
    Keeps (AppendsAt st (ActionSound snap st del)) (pessimisticRollback snap forUpdateTs) := by
  unfold pessimisticRollback
  split
  · exact Keeps.bind keeps_startTs fun _ => Keeps.ite (fun _ => unlockKey_acts) fun _ => Keeps.pure _
  · exact Keeps.pure _

theorem txnHeartBeat_acts (hk : KeyInv snap) (adviseTtl : UInt64) (minCommitTs : TimeStamp) :
    Keeps (AppendsAt st (ActionSound snap st del)) (txnHeartBeat snap adviseTtl minCommitTs) := by
  unfold txnHeartBeat
  refine Keeps.bind keeps_startTs fun _ => ?_
  split
  · rename_i lock hfilter
    have hl := (Option.filter_eq_some_iff.mp hfilter).1
    -- the lock put back differs from the key's in its TTL and `min_commit_ts` only
    refine Keeps.ite_bind (fun _ => keepsAt_of_keeps (keeps_putLock
      (actionSound_putLock_of_lock hk hl ?_ ?_ ?_ ?_))) fun _ => Keeps.pure _ <;>
      split_ifs <;> rfl
  · exact Keeps.throw _

/-! ## Secondary locks of async commit -/

theorem checkSecondaryDeterminedTxnStatus_needRollback {st : TimeStamp}
    {status : SecondaryLockStatus} {ow : Option OverlappedWrite}
    (h : checkSecondaryDeterminedTxnStatus snap st = .ok (status, true, ow)) :
    getTxnCommitRecord snap st = .ok (.none ow) := by
  unfold checkSecondaryDeterminedTxnStatus at h
  cases hr : getTxnCommitRecord snap st with
  | error e => simp [hr, bind, Except.bind] at h
  | ok r =>
    cases r <;> simp [hr, bind, Except.bind, pure, Except.pure] at h
    rw [h.2]

theorem checkStatusFromLock_acts (lock : Lock) :
    Keeps (AppendsAt st (ActionSound snap st del)) (checkStatusFromLock snap lock) := by
  unfold checkStatusFromLock
  refine Keeps.bind keeps_startTs fun _ => ?_
  extract_lets done rolledBack
  have hrolledBack : ∀ ow, Keeps (AppendsAt st (ActionSound snap st del)) (rolledBack ow) := by
    intro _
    dsimp only [rolledBack]
    refine Keeps.ite (fun _ => Keeps.bind unlockKey_acts fun _ => ?_) fun _ => Keeps.pure _
    refine Keeps.ite (fun _ => Keeps.bind (Keeps.pure _) fun _ => Keeps.pure _) fun _ => ?_
    refine keeps_liftExcept_bind fun r _ => ?_
    split
    · exact Keeps.bind (Keeps.pure _) fun _ => Keeps.pure _
    · exact Keeps.bind (Keeps.throw _) fun _ => Keeps.pure _
  refine Keeps.ite (fun _ => keeps_liftExcept_bind fun r _ => ?_)
    fun _ => Keeps.bind (Keeps.pure _) hrolledBack
  split
  exact Keeps.ite (fun _ => Keeps.bind unlockKey_acts fun _ => Keeps.pure _)
    fun _ => Keeps.bind (Keeps.pure _) hrolledBack

/-- A rollback is asked for only when the transaction has no commit record,
and it carries the overlapped write of that answer. -/
theorem checkStatusFromLock_returns (lock : Lock) :
    ReturnsAt st (checkStatusFromLock snap lock)
      fun r => r.2.1 = true → getTxnCommitRecord snap st = .ok (.none r.2.2) := by
  unfold checkStatusFromLock
  refine returnsAt_startTs_bind ?_
  extract_lets done rolledBack
  have hrolledBack : ∀ ow, (lock.isPessimisticLockWithConflict = true →
      getTxnCommitRecord snap st = .ok (.none ow)) →
      ReturnsAt st (rolledBack ow) fun r => r.2.1 = true →
        getTxnCommitRecord snap st = .ok (.none r.2.2) := by
    intro ow how
    dsimp only [rolledBack]
    split
    · refine returnsAt_bind (keepsAt_of_keeps (keeps_unlockKey (P := fun _ => True) trivial))
        (returnsAt_true _) fun _ _ => ?_
      split
      · simp only [pure_bind]
        exact returnsAt_pure fun _ => how ‹_›
      · refine returnsAt_liftExcept_bind fun r hr => ?_
        split
        · simp only [pure_bind]
          exact returnsAt_pure fun _ => hr
        · exact returnsAt_throw_bind _
    · exact returnsAt_pure nofun
  split
  · refine returnsAt_liftExcept_bind fun x hx => ?_
    split
    rename_i status needRollback ow
    split
    · refine returnsAt_bind (keepsAt_of_keeps (keeps_unlockKey (P := fun _ => True) trivial))
        (returnsAt_true _) fun _ _ => returnsAt_pure fun h => ?_
      simp_all
    · have hnr : needRollback = true := by simpa using ‹¬(!needRollback) = true›
      subst hnr
      simp only [pure_bind]
      exact hrolledBack ow fun _ => checkSecondaryDeterminedTxnStatus_needRollback hx
  · simp only [pure_bind]
    exact hrolledBack none fun h => absurd h ‹_›

theorem checkSecondaryLocks_acts (hk : KeyInv snap) :
    Keeps (AppendsAt st (ActionSound snap st del)) (checkSecondaryLocks snap) := by
  unfold checkSecondaryLocks
  refine keepsAt_startTs_bind ?_
  extract_lets decide
  -- the rollback record is written from the answer of the commit-record read
  have hdecide : ∀ x : SecondaryLockStatus × Bool × Option OverlappedWrite × Option Lock,
      (x.2.1 = true → getTxnCommitRecord snap st = .ok (.none x.2.2.1)) →
      (∀ l ∈ x.2.2.2, snap.lock = some l) →
      Keeps (AppendsAt st (ActionSound snap st del)) (decide x) := by
    rintro ⟨status, needRollback, ow, mismatchLock⟩ hrec hmis
    dsimp -zeta only [decide]
    extract_lets reply rollback
    have hreply : ∀ u, Keeps (AppendsAt st (ActionSound snap st del)) (reply u) := by
      intro _
      dsimp only [reply]
      split <;> exact Keeps.pure _
    refine Keeps.ite (fun hnr => ?_) fun _ => hreply ()
    have hrec := getTxnCommitRecord_spec (hrec hnr)
    have hrollback : ∀ u, Keeps (AppendsAt st (ActionSound snap st del)) (rollback u) := by
      intro _
      dsimp only [rollback]
      refine keeps_liftExcept_bind fun w? hw => ?_
      split
      · exact Keeps.bind (keepsAt_of_keeps (keeps_putWrite (makeRollback_acts hrec hw)))
          fun _ => Keeps.bind collapsePrevRollback_acts hreply
      · exact hreply ()
    split
    · exact Keeps.bind (markRollbackOnMismatchingLock_acts hk (hmis _ rfl) _) hrollback
    · exact hrollback ()
  split
  · rename_i lock _
    refine keepsAt_bind_returns (checkStatusFromLock_acts lock) (checkStatusFromLock_returns lock)
      fun x hx => ?_
    obtain ⟨status, needRollback, ow⟩ := x
    simp only [pure_bind]
    exact hdecide (status, needRollback, ow, none) hx fun _ h => by cases h
  · refine keeps_liftExcept_bind fun x hx => ?_
    obtain ⟨status, needRollback, ow⟩ := x
    simp only [pure_bind]
    refine hdecide (status, needRollback, ow, snap.lock) (fun hnr => ?_) fun _ h => h
    subst hnr
    exact checkSecondaryDeterminedTxnStatus_needRollback hx

/-! ## Pessimistic locks -/

theorem acquireOwnPessimisticLock_acts (hk : KeyInv snap) {lock : Lock} (hl : snap.lock = some lock)
    (primary : Bytes) (shouldNotExist : Bool) (lockTtl : UInt64) (forUpdateTs : TimeStamp)
    (needValue needCheckExistence : Bool) (minCommitTs : TimeStamp) (allowLockWithConflict : Bool) :
    Keeps (AppendsAt st (ActionSound snap st del))
      (acquireOwnPessimisticLock snap lock primary shouldNotExist lockTtl forUpdateTs needValue
        needCheckExistence minCommitTs allowLockWithConflict) := by
  unfold acquireOwnPessimisticLock
  refine Keeps.bind keeps_startTs fun _ => ?_
  extract_lets requested read check
  -- the lock is written back with the pointer it had
  have hput : ∀ l : PessimisticLock, l.lastChange = lock.lastChange →
      Keeps (AppendsAt st (ActionSound snap st del)) (putPessimisticLock l) := fun l hlc =>
    keepsAt_of_keeps (keeps_push (actionSound_putPessimisticLock (by
      rw [hlc]
      exact hk.newPointer_lock hl)))
  have hread : ∀ u, Keeps (AppendsAt st (ActionSound snap st del)) (read u) := by
    intro _
    dsimp -zeta only [read]
    split <;>
    · extract_lets finish
      have hfinish : ∀ val, Keeps (AppendsAt st (ActionSound snap st del)) (finish val) :=
        fun _ => Keeps.ite_bind (fun _ => hput _ rfl) fun _ => Keeps.pure _
      refine Keeps.ite (fun _ => keeps_liftExcept_bind fun r _ => ?_)
        fun _ => Keeps.bind (Keeps.pure _) hfinish
      split
      · refine keeps_liftExcept_bind fun _ _ => ?_
        refine Keeps.ite (fun _ => keeps_liftExcept_bind fun _ _ => Keeps.bind (Keeps.pure _) hfinish)
          fun _ => ?_
        exact Keeps.ite (fun _ => Keeps.bind (Keeps.pure _) hfinish)
          fun _ => Keeps.bind (Keeps.pure _) hfinish
      · exact Keeps.bind (Keeps.pure _) hfinish
  exact Keeps.ite_bind (fun _ => Keeps.throw _)
    fun _ => Keeps.ite_bind (fun _ => Keeps.throw _) hread

theorem acquirePessimisticLock_acts (hk : KeyInv snap) (canEnableLastChangeTs : Bool)
    (primary : Bytes) (shouldNotExist : Bool) (lockTtl : UInt64) (forUpdateTs : TimeStamp)
    (needValue needCheckExistence : Bool) (minCommitTs : TimeStamp)
    (lockOnlyIfExists allowLockWithConflict : Bool) :
    Keeps (AppendsAt st (ActionSound snap st del))
      (acquirePessimisticLock snap canEnableLastChangeTs primary shouldNotExist lockTtl forUpdateTs
        needValue needCheckExistence minCommitTs lockOnlyIfExists allowLockWithConflict) := by
  unfold acquirePessimisticLock
  refine Keeps.bind keeps_startTs fun _ => ?_
  extract_lets writeLock body start
  -- the new lock carries the pointer computed from the newest record, or none
  have hwrite : ∀ x : Option ConflictInfo × TimeStamp × LastChange × Option Value,
      NewPointer snap x.2.2.1 → Keeps (AppendsAt st (ActionSound snap st del)) (writeLock x) := by
    rintro ⟨conflictInfo, forUpdateTs, lastChange, val⟩ hlc
    dsimp -zeta only [writeLock]
    extract_lets lastChange lock reply
    have hlock : NewPointer snap lock.lastChange := by
      simp only [lock, lastChange]
      split
      · exact hlc
      · exact newPointer_unknown snap
    refine Keeps.ite (fun _ => Keeps.bind (keepsAt_of_keeps (keeps_push
      (actionSound_putPessimisticLock hlock))) fun _ => Keeps.pure _) fun _ => ?_
    split
    · exact Keeps.throw_bind _ _
    · exact Keeps.pure _
  have hbody : ∀ u, Keeps (AppendsAt st (ActionSound snap st del)) (body u) := by
    intro _
    dsimp -zeta only [body]
    split
    · exact acquireOwnPessimisticLock_acts hk ‹_› _ _ _ _ _ _ _ _
    split
    · rename_i c w hseek
      extract_lets check
      have hcheck : ∀ x, Keeps (AppendsAt st (ActionSound snap st del)) (check x) := by
        rintro ⟨conflictInfo, forUpdateTs, needLoadValue⟩
        dsimp -zeta only [check]
        extract_lets read older
        have hread : ∀ u, Keeps (AppendsAt st (ActionSound snap st del)) (read u) := fun _ =>
          keeps_liftExcept_bind fun _ _ => keeps_liftExcept_bind fun lc hlc =>
            Keeps.ite (fun _ => keeps_liftExcept_bind fun val _ =>
                Keeps.pure_bind (hwrite (conflictInfo, forUpdateTs, lc, val)
                  (newPointer_nextLastChangeInfo hk hseek hlc)))
              fun _ => Keeps.pure_bind (Keeps.pure_bind (hwrite (conflictInfo, forUpdateTs, lc, none)
                (newPointer_nextLastChangeInfo hk hseek hlc)))
        have holder : ∀ u, Keeps (AppendsAt st (ActionSound snap st del)) (older u) := by
          intro _
          refine Keeps.ite (fun _ => ?_) fun _ => hread ()
          split
          · exact Keeps.ite (fun _ => Keeps.throw_bind _ _) fun _ => hread ()
          · exact hread ()
        refine Keeps.ite (fun _ => ?_) fun _ => holder ()
        exact Keeps.ite (fun _ => Keeps.throw_bind _ _) fun _ => Keeps.throw_bind _ _
      exact Keeps.ite (fun _ => Keeps.ite (fun _ => Keeps.pure_bind (hcheck _))
        fun _ => Keeps.throw_bind _ _) fun _ => Keeps.pure_bind (hcheck _)
    · exact Keeps.pure_bind (hwrite (none, forUpdateTs, .notExist, none) (newPointer_notExist ‹_›))
  exact Keeps.ite_bind (fun _ => Keeps.throw _)
    fun _ => Keeps.ite_bind (fun _ => keepsAt_of_keeps (keeps_updateMaxTs _)) hbody

/-! ## Commits -/

theorem fromLockType_ne_rollback {lt : LockType} {wt : WriteType}
    (h : WriteType.fromLockType lt = some wt) : wt ≠ .rollback := by
  cases lt <;> cases h <;> decide

theorem fromLockType_put {lt : LockType} (h : WriteType.fromLockType lt = some .put) :
    lt = .put := by
  cases lt <;> cases h
  rfl

/-- The commit record of a lock whose pointer is true. -/
theorem commitSound_ofLock {k : KeyState} {lock : Lock} (hp : NewPointer k lock.lastChange)
    {wt : WriteType} (hwt : WriteType.fromLockType lock.lockType = some wt) (st c : TimeStamp)
    (src : UInt64) :
    CommitSound k st c
      (.putWrite c (((Write.new wt st lock.shortValue).setLastChange lock.lastChange).setTxnSource src)) :=
  ⟨rfl, ⟨fromLockType_ne_rollback hwt, rfl, hp.1⟩, rfl, hp.2⟩

/-- The same record carrying the overlapped-rollback flag. -/
theorem commitSound_ofLock_overlapped {k : KeyState} {lock : Lock} (hp : NewPointer k lock.lastChange)
    {wt : WriteType} (hwt : WriteType.fromLockType lock.lockType = some wt) (st c : TimeStamp)
    (src : UInt64) :
    CommitSound k st c (.putWrite c ((((Write.new wt st lock.shortValue).setLastChange
      lock.lastChange).setTxnSource src).setOverlappedRollback true none)) :=
  ⟨rfl, ⟨fromLockType_ne_rollback hwt, rfl, hp.1⟩, rfl, hp.2⟩

/-- A `Put` record committed from the snapshot's lock has the lock's value. -/
def CommitValued (snap : KeyState) : Modify → Prop
  | .putWrite _ w => w.writeType = .put → ValueStored snap w.shortValue w.startTs
  | _ => True

/-- What a commit may write, and the value of what it commits. -/
def CommitAction (snap : KeyState) (st commitTs : TimeStamp) (m : Modify) : Prop :=
  CommitSound snap st commitTs m ∧ CommitValued snap m

theorem commitValued_ofLock {k : KeyState} {lock : Lock}
    (hv : lock.lockType = .put → ValueStored k lock.shortValue st) {wt : WriteType}
    (hwt : WriteType.fromLockType lock.lockType = some wt) (c : TimeStamp) (src : UInt64)
    (overlapped : Bool) :
    CommitValued k (.putWrite c (if overlapped then
      (((Write.new wt st lock.shortValue).setLastChange lock.lastChange).setTxnSource
        src).setOverlappedRollback true none
      else ((Write.new wt st lock.shortValue).setLastChange lock.lastChange).setTxnSource src)) := by
  intro hput
  split at hput <;>
  · subst hput
    split <;> exact hv (fromLockType_put hwt)

theorem commit_acts (hk : KeyInv snap) (commitTs : TimeStamp) :
    Keeps (AppendsAt st (CommitAction snap st commitTs)) (commit snap commitTs) := by
  unfold commit
  refine keepsAt_startTs_bind ?_
  split
  · rename_i lock hfilter
    obtain ⟨hl, hts⟩ := Option.filter_eq_some_iff.mp hfilter
    have hts : lock.ts = st := by simpa using hts
    have hp := hk.newPointer_lock hl
    have hv : lock.lockType = .put → ValueStored snap lock.shortValue st :=
      fun hput => hts ▸ hk.lockValue lock hl hput
    extract_lets record rest
    have hrecord : ∀ wt, WriteType.fromLockType lock.lockType = some wt →
        Keeps (AppendsAt st (CommitAction snap st commitTs)) (record wt) := by
      intro wt hwt
      dsimp -zeta only [record]
      extract_lets write write'
      refine Keeps.bind (keepsAt_of_keeps (keeps_putWrite ⟨?_, ?_⟩))
        fun _ => keepsAt_of_keeps (keeps_unlockKey ⟨trivial, trivial⟩)
      · dsimp only [write', write]
        split
        · exact commitSound_ofLock_overlapped hp hwt st commitTs _
        · exact commitSound_ofLock hp hwt st commitTs _
      · exact commitValued_ofLock hv hwt commitTs _ _
    refine Keeps.ite_bind (fun _ => Keeps.throw _) fun _ => ?_
    dsimp -zeta only [rest]
    refine Keeps.ite (fun _ => keepsAt_of_keeps (keeps_unlockKey ⟨trivial, trivial⟩)) fun _ => ?_
    split
    · exact Keeps.pure_bind (hrecord _ ‹_›)
    · exact Keeps.throw_bind _ _
  · refine keeps_liftExcept_bind fun r _ => ?_
    split
    · exact Keeps.throw _
    · exact Keeps.throw _
    · exact Keeps.pure _

/-- From `t` to `t'` nothing was appended, or a batch that leaves no lock. -/
def UnlocksOrNothing (t t' : MvccTxn) : Prop :=
  t'.modifies = t.modifies ∨ ∃ ms, t'.modifies = t.modifies ++ ms ∧ LockGoneIn ms

instance : IsTrans MvccTxn UnlocksOrNothing where
  trans _ _ _ h₁ h₂ := by
    rcases h₁ with h₁ | ⟨ms₁, h₁, g₁⟩ <;> rcases h₂ with h₂ | ⟨ms₂, h₂, g₂⟩
    · exact .inl (h₂.trans h₁)
    · exact .inr ⟨ms₂, by rw [h₂, h₁], g₂⟩
    · exact .inr ⟨ms₁, h₂.trans h₁, g₁⟩
    · exact .inr ⟨ms₁ ++ ms₂, by rw [h₂, h₁, List.append_assoc], g₂.append_left ms₁⟩

instance : Std.Refl UnlocksOrNothing where
  refl _ := .inl rfl

theorem unlocksOrNothing_unlockKey : Keeps UnlocksOrNothing unlockKey := fun t =>
  .inr ⟨[.deleteLock], by rw [unlockKey, run_push], fun _ => rfl⟩

/-- A commit record followed by the removal of the lock. -/
theorem unlocksOrNothing_putWrite_unlockKey (c : TimeStamp) (w : Write) :
    Keeps UnlocksOrNothing (putWrite c w >>= fun _ => unlockKey) := fun t => by
  rw [run_bind_of_ok (by rw [putWrite, run_push]), unlockKey, run_push]
  exact .inr ⟨[.putWrite c w, .deleteLock], by simp, fun _ => rfl⟩

/-- A commit that succeeds leaves no lock, unless it wrote nothing. -/
theorem commit_unlocks (commitTs : TimeStamp) : Keeps UnlocksOrNothing (commit snap commitTs) := by
  unfold commit
  refine Keeps.bind keeps_startTs fun _ => ?_
  split
  · extract_lets record rest
    refine Keeps.ite_bind (fun _ => Keeps.throw _) fun _ => ?_
    dsimp -zeta only [rest]
    refine Keeps.ite (fun _ => unlocksOrNothing_unlockKey) fun _ => ?_
    split
    · exact Keeps.pure_bind (unlocksOrNothing_putWrite_unlockKey _ _)
    · exact Keeps.throw_bind _ _
  · refine keeps_liftExcept_bind fun r _ => ?_
    split
    · exact Keeps.throw _
    · exact Keeps.throw _
    · exact Keeps.pure _

/-! ## The batch of a command -/

/-- The lock a batch leaves has its value: a batch that removes values removes
the lock, and a lock it puts had its value in the snapshot. -/
theorem lockValue_after {k : KeyState} {ms : List Modify} (hk : KeyInv k)
    (hms : ∀ m ∈ ms, ActionSound k st del m) (hgone : del = true → LockGoneIn ms) :
    ∀ l, (k.applyModifies ms).lock = some l → l.lockType = .put →
      ValueStored (k.applyModifies ms) l.shortValue l.ts := by
  intro l hl hput
  cases del with
  | true =>
    rw [hgone rfl k] at hl
    cases hl
  | false =>
    have hkeep : ∀ ts, .deleteValue ts ∉ ms := fun ts hd => (hms _ hd).2.2 rfl
    rcases applyModifies_lock k ms with h | ⟨l', hl', h⟩ | ⟨-, h⟩
    · exact (hk.lockValue l (h ▸ hl) hput).after (hkeep _)
    · rw [hl] at h
      cases h
      exact ((hms _ hl').2.1 hput).after (hkeep _)
    · rw [hl] at h
      cases h

theorem stepBatch_of_acts (hk : KeyInv snap) {ms : List Modify}
    (hms : ∀ m ∈ ms, ActionSound snap st del m) (hgone : del = true → LockGoneIn ms) :
    StepBatch snap st (snap.applyModifies ms) :=
  .keeps (fun m hm => (hms m hm).1) (lockValue_after hk hms hgone)

theorem stepBatch_of_commit {c : TimeStamp} (hct : st < c) {ms : List Modify}
    (hms : ∀ m ∈ ms, CommitAction snap st c m) (hdone : ms = [] ∨ LockGoneIn ms) :
    StepBatch snap st (snap.applyModifies ms) := by
  have hsound : ∀ m ∈ ms, CommitSound snap st c m := fun m hm => (hms m hm).1
  rcases hdone with rfl | hgone
  · exact .same
  · refine .commit hct hsound (hgone snap) fun c' w hw hput => ?_
    exact ((hms _ hw).2 hput).after (commitSound_not_deleteValue hsound _)

end Tikv.Mvcc
