import Tikv.Mvcc.LastChange.Invariant
import Tikv.Mvcc.Commands

/-!
# What a pessimistic lock request does on an unlocked key

On a key with no lock, `acquire_pessimistic_lock` decides from the newest
record, at `commit_ts = c`: a version newer than `for_update_ts` is a write
conflict unless the request tolerates it; a rollback of the transaction at
its `start_ts` refuses the lock; `should_not_exist` refuses a key whose
newest data version is a `Put`; otherwise the lock is written, at
`max(for_update_ts, c)`, and the value the request asked for is the key's
value as of now.

The reads on the way are right when the key's records can be trusted
(`KeyConsistent`): true `last_change` pointers and GC fences
(`LastChangeInv`), records above timestamp 0, a stored value for every
`Put`, and version counts within `u64`; `AcquireRun` shows that every key a
run of commands reaches is such a key. Under it each read the action makes
is replaced by what it is specified to return: the constraint check by the
newest data version (`checkDataConstraint_newest`), the value read by the
latest value (`lockValue_newest`), the pointer by a true one
(`nextLastChangeInfo_newest`).

Two behaviours of the source lie outside the plain reading of its
contract: `lock_only_if_exists` without `need_value` fails before anything
else, and `lock_only_if_exists` on a key with no value after a tolerated
conflict reports the conflict as a write conflict, where the value part
would lead one to expect `LockedWithConflict` with no lock written.

Results:
* `acquireUnlocked_spec`: every outcome of the request on an unlocked,
  consistent key, case by case.
-/
namespace Tikv.Mvcc
open Tikv.Codec Tikv.TxnTypes ExceptState

/-- A key whose records a reader can trust: true pointers and fences, every
record above timestamp 0, a value for every `Put`, and version counts that
fit in a `u64`. -/
structure KeyConsistent (k : KeyState) : Prop where
  inv : LastChangeInv k
  pos : ∀ c w, k.writes.get? c = some w → 0 < c
  value : ∀ c w, k.writes.get? c = some w → w.writeType = .put → ∃ v, loadData k w = .ok v
  counts : ∀ c w p n, k.writes.get? c = some w → w.lastChange = .exist p n → n.toNat + 1 < 2 ^ 64
  size : k.writes.entries.length + 1 < 2 ^ 64

/-- `v` is the key's value as of now: the value of the newest data version
when it is a `Put`, `none` when it is a `Delete` or there is none. -/
def LatestValue (k : KeyState) : Option Value → Prop
  | none => WalkResult k.writes TimeStamp.max none
  | some v => ∃ w p, WalkResult k.writes TimeStamp.max (some (w, p)) ∧ loadData k w = .ok v

/-- What `should_not_exist` asks of the key's newest data version `r`: that
it is no `Put`. -/
def existenceCheck (shouldNotExist : Bool) : Option (Write × TimeStamp) → Except Error Unit
  | some (w, _) => if shouldNotExist then .error (.alreadyExist w.startTs) else .ok ()
  | none => .ok ()

/-- A record at `ts` that says the transaction of `ts` was rolled back. -/
def RolledBackAt (k : KeyState) (ts : TimeStamp) : Prop :=
  ∃ w, k.writes.get? ts = some w ∧ (w.writeType = .rollback ∨ w.hasOverlappedRollback = true)

/-- What the reply carries of the key's latest value `v`: the value when it
was asked for or a conflict was tolerated, only whether there is one when
existence was asked. -/
def acquiredValue (needValue needCheckExistence conflict : Bool) (v : Option Value) :
    Option Value :=
  if needValue || conflict then v else if needCheckExistence then v.map fun _ => [] else none

/-- The lock a request takes on an unlocked key whose newest record is at `c`:
at `max(for_update_ts, c)`, with the pointer `lc` when pointers are enabled. -/
def AcquirePessimisticLockRequest.lockAt (req : AcquirePessimisticLockRequest)
    (canEnableLastChangeTs : Bool) (c : TimeStamp) (lc : LastChange) : PessimisticLock where
  primary := req.primary
  startTs := req.startTs
  ttl := req.lockTtl
  forUpdateTs := max req.forUpdateTs c
  minCommitTs := req.minCommitTs
  lastChange := if canEnableLastChangeTs then lc else .unknown
  isLockedWithConflict := decide (req.forUpdateTs < c)

/-- The latest value is the value of the newest data version, whichever
walk found it. -/
theorem LatestValue.eq_of_walk {k : KeyState} {v : Option Value} {r : Option (Write × TimeStamp)}
    (hv : LatestValue k v) (hr : WalkResult k.writes TimeStamp.max r) :
    v = r.bind fun p => (loadData k p.1).toOption := by
  match v, r, hv, hr with
  | none, none, _, _ => rfl
  | none, some _, hv, hr =>
    cases WalkResult.unique (show WalkResult k.writes TimeStamp.max none from hv) hr
  | some _, none, ⟨w, p, hw, _⟩, hr => cases WalkResult.unique hw hr
  | some _, some _, ⟨w, p, hw, hx⟩, hr =>
    obtain ⟨rfl, rfl⟩ := Prod.mk.inj (Option.some.inj (WalkResult.unique hw hr))
    simp [hx, Except.toOption]

theorem LatestValue.unique {k : KeyState} {v v' : Option Value} (h : LatestValue k v)
    (h' : LatestValue k v') : v = v' := by
  match v, v', h, h' with
  | none, none, _, _ => rfl
  | none, some _, h, ⟨w, p, hw, _⟩ =>
    cases WalkResult.unique (show WalkResult k.writes TimeStamp.max none from h) hw
  | some _, none, ⟨w, p, hw, _⟩, h' =>
    cases WalkResult.unique hw (show WalkResult k.writes TimeStamp.max none from h')
  | some _, some _, ⟨w, p, hw, hv⟩, ⟨w', p', hw', hv'⟩ =>
    obtain ⟨rfl, rfl⟩ := Prod.mk.inj (Option.some.inj (WalkResult.unique hw hw'))
    rw [hv] at hv'
    exact congrArg some (Except.ok.inj hv')

section Newest

variable {snap : KeyState} {c : TimeStamp} {w : Write}

/-- Some result is right for every read timestamp: the plain scan's. -/
theorem walkResult_exists (ws : VersionMap TimeStamp Write) (ts : TimeStamp) :
    ∃ r, WalkResult ws ts r :=
  ⟨_, walkResult_scanDataVersion ws ts _ [] rfl (by simp)⟩

theorem KeyConsistent.latestValue_exists (hk : KeyConsistent snap) : ∃ v, LatestValue snap v := by
  obtain ⟨r, hwalk⟩ := walkResult_exists snap.writes TimeStamp.max
  match r, hwalk with
  | none, hwalk => exact ⟨none, hwalk⟩
  | some (w, p), hwalk =>
    obtain ⟨v, hv⟩ := hk.value p w hwalk.1 hwalk.2.1
    exact ⟨some v, w, p, hwalk, hv⟩

/-- A walk that starts above every data version ends without error, on the
newest data version of the key. -/
theorem KeyConsistent.walk_of_above (hk : KeyConsistent snap)
    (hseek : seekWrite snap TimeStamp.max = some (c, w)) {ts : TimeStamp}
    (hts : ∀ q, ts < q → dataVersionAt snap.writes q = none) (gcFenceLimit : Option TimeStamp) :
    ∃ r, getWriteWithCommitTs snap ts gcFenceLimit = .ok r ∧
      WalkResult snap.writes TimeStamp.max r := by
  obtain ⟨-, habove⟩ := get?_above_seek_max hseek
  obtain ⟨r, hr⟩ : ∃ r, getWriteWithCommitTs.go snap gcFenceLimit ts (snap.writes.below ts) = .ok r :=
    getWriteWithCommitTs_go_ok
      (fun c' w' hc' _ => ⟨hk.inv.records c' w' hc', fun _ => hk.pos c' w' hc'⟩) ts
  have hpassed : ∀ c', c' ≤ ts → (∀ q, c' < q → q ≤ ts → dataVersionAt snap.writes q = none) →
      ∀ q, c' < q → q ≤ c → dataVersionAt snap.writes q = none := by
    intro c' _ hbetween q hq _
    rcases le_or_gt q ts with hqts | hqts
    · exact hbetween q hq hqts
    · exact hts q hqts
  have hwalk : WalkResult snap.writes ts r :=
    getWriteWithCommitTs_sound (fun c' w' hc' _ => hk.inv.records c' w' hc')
      (fun c' w' hc' hle hbetween =>
        fencePasses_from_top habove hk.inv.fence _ c' w' hc' (hpassed c' hle hbetween)) hr
  exact ⟨r, hr, hwalk.lift (TimeStamp.le_max ts) fun q hq _ => hts q hq⟩

theorem prev_eq_ok {c : TimeStamp} (h : 0 < c) : TimeStamp.prev c = .ok (c - 1) := if_pos h

theorem makeExist_eq_ok {ts n : TimeStamp} (hts : ts ≠ 0) (hn : 0 < n) :
    liftTxnTypes (LastChange.makeExist ts n) = .ok (.exist ts n) := by
  simp [LastChange.makeExist, hts, hn, liftTxnTypes]

/-- The newest record's GC fence is unset: a fence names a data version above
its record, and there is none. -/
theorem KeyConsistent.newest_gcFence (hk : KeyConsistent snap)
    (hseek : seekWrite snap TimeStamp.max = some (c, w)) :
    w.gcFence = none ∨ w.gcFence = some 0 := by
  obtain ⟨hget, habove⟩ := get?_above_seek_max hseek
  have hf := hk.inv.fence c w hget
  cases hg : w.gcFence with
  | none => exact .inl rfl
  | some g =>
    rw [hg] at hf
    refine .inr (congrArg some (not_not.mp fun hg0 => ?_))
    obtain ⟨hcg, hdata⟩ := hf hg0
    exact hdata (dataVersionAt_of_get?_none (habove g hcg))

theorem KeyConsistent.newest_checkGcFence (hk : KeyConsistent snap)
    (hseek : seekWrite snap TimeStamp.max = some (c, w)) (ts : TimeStamp) :
    w.asRef.checkGcFenceAsLatestVersion ts = true := by
  unfold Write.asRef WriteRef.checkGcFenceAsLatestVersion
  rcases hk.newest_gcFence hseek with hg | hg <;> simp [hg]

/-- Below a newest `Lock` or `Rollback` record lie all the data versions. -/
theorem KeyConsistent.no_data_above_prev (hk : KeyConsistent snap)
    (hseek : seekWrite snap TimeStamp.max = some (c, w))
    (hwt : w.writeType = .lock ∨ w.writeType = .rollback) :
    ∀ q, c - 1 < q → dataVersionAt snap.writes q = none := by
  obtain ⟨hget, habove⟩ := get?_above_seek_max hseek
  intro q hq
  have hcq : c ≤ q := not_lt.mp fun hlt => not_lt.mpr ((le_sub_one_iff (hk.pos c w hget) q).mpr hlt) hq
  rcases eq_or_lt_of_le hcq with rfl | hlt
  · exact dataVersionAt_of_not_data hget hwt
  · exact dataVersionAt_of_get?_none (habove q hlt)

/-- The newest record is the newest data version when it is one. -/
theorem walkResult_newest_data (hseek : seekWrite snap TimeStamp.max = some (c, w))
    (hdata : w.writeType = .put ∨ w.writeType = .delete) :
    WalkResult snap.writes TimeStamp.max (if w.writeType = .put then some (w, c) else none) := by
  obtain ⟨hget, habove⟩ := get?_above_seek_max hseek
  exact walkResult_of_data hget hdata (TimeStamp.le_max c)
    fun q hq _ => dataVersionAt_of_get?_none (habove q hq)

/-- mirrors the contract of src/storage/txn/actions/check_data_constraint.rs:15-50
on the newest record: `should_not_exist` fails exactly when the key's newest
data version is a `Put`, naming its transaction. -/
theorem checkDataConstraint_newest (hk : KeyConsistent snap)
    (hseek : seekWrite snap TimeStamp.max = some (c, w)) {r : Option (Write × TimeStamp)}
    (hr : WalkResult snap.writes TimeStamp.max r) (startTs : TimeStamp) (shouldNotExist : Bool) :
    checkDataConstraint snap startTs shouldNotExist w c = existenceCheck shouldNotExist r := by
  obtain ⟨hget, -⟩ := get?_above_seek_max hseek
  have hfence := hk.newest_gcFence hseek
  cases shouldNotExist with
  | false =>
    cases r with
    | none => rfl
    | some p => simp [checkDataConstraint, existenceCheck, pure, Except.pure]
  | true =>
    cases hwt : w.writeType with
    | put =>
      have hw := walkResult_newest_data hseek (.inl hwt)
      rw [if_pos hwt] at hw
      rw [WalkResult.unique hr hw]
      rcases hfence with hg | hg <;>
        simp [checkDataConstraint, existenceCheck, hg, hwt, throw, throwThe, MonadExcept.throw,
          MonadExceptOf.throw]
    | delete =>
      have hw := walkResult_newest_data hseek (.inr hwt)
      simp only [hwt, reduceCtorEq, if_false] at hw
      rw [WalkResult.unique hr hw]
      simp [checkDataConstraint, existenceCheck, hwt, pure, Except.pure]
    | lock | rollback =>
      obtain ⟨r', hr', hw'⟩ := hk.walk_of_above hseek (hk.no_data_above_prev hseek (by simp [hwt]))
        (some startTs)
      rw [WalkResult.unique hr hw']
      rcases hfence with hg | hg <;> cases r' with
      | none => simp [checkDataConstraint, existenceCheck, hg, hwt, prev_eq_ok (hk.pos c w hget),
          getWrite, hr', bind, Except.bind, pure, Except.pure, Except.map]
      | some p => simp [checkDataConstraint, existenceCheck, hg, hwt, prev_eq_ok (hk.pos c w hget),
          getWrite, hr', bind, Except.bind, Except.map, pure, Except.pure, throw, throwThe,
          MonadExcept.throw, MonadExceptOf.throw]

theorem checkDataConstraintOrConflict_ok (hk : KeyConsistent snap)
    (hseek : seekWrite snap TimeStamp.max = some (c, w)) {shouldNotExist : Bool}
    (hnone : shouldNotExist = true → WalkResult snap.writes TimeStamp.max none)
    (startTs : TimeStamp) (conflict : Option ConflictInfo) (primary : Bytes) :
    checkDataConstraintOrConflict snap startTs shouldNotExist w c conflict primary = .ok () := by
  obtain ⟨r, hr⟩ := walkResult_exists snap.writes TimeStamp.max
  have hcheck : existenceCheck shouldNotExist r = .ok () := by
    cases shouldNotExist with
    | false => cases r <;> rfl
    | true => rw [WalkResult.unique hr (hnone rfl)]; rfl
  rw [checkDataConstraintOrConflict, checkDataConstraint_newest hk hseek hr, hcheck]

/-- The value read for the lock is the key's latest value, or only whether
there is one when the value is not loaded. -/
theorem lockValue_newest (hk : KeyConsistent snap)
    (hseek : seekWrite snap TimeStamp.max = some (c, w)) {v : Option Value}
    (hv : LatestValue snap v) (startTs : TimeStamp) (needLoadValue : Bool) :
    lockValue snap startTs needLoadValue w c =
      .ok (if needLoadValue then v else v.map fun _ => []) := by
  obtain ⟨hget, -⟩ := get?_above_seek_max hseek
  cases hwt : w.writeType with
  | put =>
    have hw := walkResult_newest_data hseek (.inl hwt)
    rw [if_pos hwt] at hw
    obtain ⟨x, hx⟩ := hk.value c w hget hwt
    rw [hv.eq_of_walk hw]
    cases needLoadValue <;>
      simp [lockValue, hwt, hk.newest_checkGcFence hseek, hx, Except.toOption, bind, Except.bind,
        pure, Except.pure]
  | delete =>
    have hw := walkResult_newest_data hseek (.inr hwt)
    simp only [hwt, reduceCtorEq, if_false] at hw
    rw [hv.eq_of_walk hw]
    cases needLoadValue <;> simp [lockValue, hwt, pure, Except.pure]
  | lock | rollback =>
    obtain ⟨r, hr, hw⟩ := hk.walk_of_above hseek (hk.no_data_above_prev hseek (by simp [hwt]))
      (some startTs)
    rw [hv.eq_of_walk hw]
    cases r with
    | none =>
      cases needLoadValue <;>
        simp [lockValue, hwt, prev_eq_ok (hk.pos c w hget), MvccReader.get, getWrite, hr, bind,
          Except.bind, Except.map, pure, Except.pure]
    | some p =>
      obtain ⟨x, hx⟩ := hk.value p.2 p.1 hw.1 hw.2.1
      cases needLoadValue <;>
        simp [lockValue, hwt, prev_eq_ok (hk.pos c w hget), MvccReader.get, getWrite, hr, hx,
          Except.toOption, bind, Except.bind, Except.map, pure, Except.pure]

/-- The count of a walk fits in a `u64` with one to spare. -/
theorem KeyConsistent.walkedVersions_succ_pos (hk : KeyConsistent snap) (c p : TimeStamp) :
    0 < walkedVersions snap c p + 1 := by
  have hlen : ((snap.writes.below c).filter fun e => p < e.1).length ≤
      snap.writes.entries.length :=
    (List.length_filter_le _ _).trans (List.length_filter_le _ _)
  have hsize := hk.size
  rw [UInt64.lt_iff_toNat_lt, UInt64.toNat_add, walkedVersions, UInt64.toNat_ofNat']
  simp
  omega

/-- The pointer the lock records is computed without error, and true. -/
theorem nextLastChangeInfo_newest (hk : KeyConsistent snap)
    (hseek : seekWrite snap TimeStamp.max = some (c, w)) (startTs : TimeStamp) :
    ∃ lc, nextLastChangeInfo snap w startTs c = .ok lc ∧ PointerOk snap.writes ⊤ lc := by
  obtain ⟨hget, habove⟩ := get?_above_seek_max hseek
  have hne : ∀ {q u}, snap.writes.get? q = some u → q ≠ 0 :=
    fun hq => ne_of_gt (hk.pos _ _ hq)
  suffices h : ∃ lc, nextLastChangeInfo snap w startTs c = .ok lc from
    let ⟨lc, hlc⟩ := h
    ⟨lc, hlc, nextLastChangeInfo_pointerOk hk.inv.records hk.inv.fence hseek hlc⟩
  cases hwt : w.writeType with
  | put | delete => exact ⟨_, by simp only [nextLastChangeInfo, hwt]; exact makeExist_eq_ok (hne hget) (by decide)⟩
  | lock | rollback =>
    cases hlc : w.lastChange with
    | exist p n =>
      have hp := hk.inv.records c w hget
      rw [hlc] at hp
      obtain ⟨u, hu, -⟩ := exists_get?_of_dataVersionAt hp.2.1
      have hn : n.toNat + 1 < 2 ^ 64 := hk.counts c w p n hget hlc
      refine ⟨.exist p (n + 1), ?_⟩
      simp only [nextLastChangeInfo, hwt, hlc]
      refine makeExist_eq_ok (hne hu) ?_
      rw [UInt64.lt_iff_toNat_lt, UInt64.toNat_add]
      simp only [UInt64.toNat_zero, UInt64.toNat_one]
      omega
    | notExist => exact ⟨.notExist, by simp only [nextLastChangeInfo, hwt, hlc]⟩
    | unknown =>
      obtain ⟨r, hr, hw⟩ := hk.walk_of_above hseek
        (fun q hq => dataVersionAt_of_get?_none (habove q hq)) (some startTs)
      cases r with
      | none => exact ⟨.notExist, by simp only [nextLastChangeInfo, hwt, hlc, hr]⟩
      | some e =>
        obtain ⟨u, p⟩ := e
        obtain ⟨hu, hput, -⟩ := hw
        refine ⟨.exist p (walkedVersions snap c p + 1), ?_⟩
        simp only [nextLastChangeInfo, hwt, hlc, hr, hput, ne_eq, not_true_eq_false, if_false]
        exact makeExist_eq_ok (hne hu) (hk.walkedVersions_succ_pos c p)

/-- The source's two checks for the transaction's own rollback: the newest
record at `start_ts`, or the record the seek at `start_ts` finds below a newer
one. -/
theorem rolledBackAt_cases (hseek : seekWrite snap TimeStamp.max = some (c, w)) {ts : TimeStamp}
    (h : RolledBackAt snap ts) :
    (c = ts ∧ (w.writeType = .rollback ∨ w.hasOverlappedRollback = true)) ∨
      (c ≠ ts ∧ ts < c ∧ ∃ w', seekWrite snap ts = some (ts, w') ∧
        (w'.writeType = .rollback ∨ w'.hasOverlappedRollback = true)) := by
  obtain ⟨hget, habove⟩ := get?_above_seek_max hseek
  obtain ⟨w', hw', hrb⟩ := h
  have hts : ts ≤ c := not_lt.mp fun hlt => by rw [habove ts hlt] at hw'; cases hw'
  rcases eq_or_lt_of_le hts with rfl | hlt
  · rw [hget] at hw'
    cases hw'
    exact .inl ⟨rfl, hrb⟩
  · refine .inr ⟨ne_of_gt hlt, hlt, w', ?_, hrb⟩
    refine (VersionMap.seek_eq_some_iff _ _ _ _).mpr ⟨hw', le_rfl, fun c' _ _ hc' => hc'⟩

theorem not_rolledBack_newest (hseek : seekWrite snap TimeStamp.max = some (c, w))
    {ts : TimeStamp} (h : ¬RolledBackAt snap ts) :
    ¬(c = ts ∧ (w.writeType = .rollback ∨ w.hasOverlappedRollback = true)) := by
  rintro ⟨rfl, hrb⟩
  exact h ⟨w, (get?_above_seek_max hseek).1, hrb⟩

theorem not_rolledBack_seek {ts oc : TimeStamp} {ow : Write} (h : ¬RolledBackAt snap ts)
    (hs : seekWrite snap ts = some (oc, ow)) :
    ¬(oc = ts ∧ (ow.writeType = .rollback ∨ ow.hasOverlappedRollback = true)) := by
  rintro ⟨rfl, hrb⟩
  exact h ⟨ow, ((VersionMap.seek_eq_some_iff _ _ _ _).mp hs).1, hrb⟩

end Newest

/-! ## The request on an unlocked key -/

section Unlocked

variable {snap : KeyState} {c : TimeStamp} {w : Write} {t : MvccTxn}
  {canEnableLastChangeTs : Bool} {primary : Bytes} {shouldNotExist : Bool} {lockTtl : UInt64}
  {forUpdateTs : TimeStamp} {needValue needCheckExistence : Bool} {minCommitTs : TimeStamp}
  {lockOnlyIfExists allowLockWithConflict : Bool} {r : Except Error PessimisticLockKeyResult}
  {t' : MvccTxn}

theorem acquire_writeConflict (hlock : snap.lock = none)
    (hseek : seekWrite snap TimeStamp.max = some (c, w))
    (hflags : (lockOnlyIfExists && !needValue) = false) (hc : forUpdateTs < c)
    (hallow : allowLockWithConflict = false)
    (hrun : runTxn (acquirePessimisticLock snap canEnableLastChangeTs primary shouldNotExist
      lockTtl forUpdateTs needValue needCheckExistence minCommitTs lockOnlyIfExists
      allowLockWithConflict) t = (r, t')) :
    r = .error (.writeConflict t.startTs w.startTs c primary .pessimisticRetry) := by
  have hr : (runTxn _ t).1 = r := congrArg Prod.fst hrun
  subst hr
  simp [runTxn, acquirePessimisticLock, hlock, hseek, hflags, hc, hallow,
    run_bind_of_ok (run_startTs t), run_ite_updateMaxTs]

theorem acquire_rolledBack (hk : KeyConsistent snap) (hlock : snap.lock = none)
    (hseek : seekWrite snap TimeStamp.max = some (c, w))
    (hflags : (lockOnlyIfExists && !needValue) = false)
    (hallow : forUpdateTs < c → allowLockWithConflict = true) (hrb : RolledBackAt snap t.startTs)
    (hrun : runTxn (acquirePessimisticLock snap canEnableLastChangeTs primary shouldNotExist
      lockTtl forUpdateTs needValue needCheckExistence minCommitTs lockOnlyIfExists
      allowLockWithConflict) t = (r, t')) :
    r = .error (.pessimisticLockRolledBack t.startTs) := by
  have hr : (runTxn _ t).1 = r := congrArg Prod.fst hrun
  subst hr
  rcases rolledBackAt_cases hseek hrb with ⟨rfl, hrb⟩ | ⟨hne, hlt, w', hs, hrb⟩
  · -- the newest record is the rollback; a `Rollback` record lies at its own `start_ts`
    have hassert : ¬(w.hasOverlappedRollback = false ∧ ¬w.startTs = t.startTs) := by
      rintro ⟨hov, hst⟩
      have hwt : w.writeType = .rollback := by simpa [hov] using hrb
      exact hst (hk.inv.rollback _ w (get?_above_seek_max hseek).1 hwt).1
    by_cases hc : forUpdateTs < t.startTs
    · simp [runTxn, acquirePessimisticLock, hlock, hseek, hflags, hc, hallow hc, hrb, hassert,
        run_bind_of_ok (run_startTs t), run_ite_updateMaxTs]
    · simp [runTxn, acquirePessimisticLock, hlock, hseek, hflags, hc, hrb, hassert,
        run_bind_of_ok (run_startTs t), run_ite_updateMaxTs]
  · by_cases hc : forUpdateTs < c
    · simp [runTxn, acquirePessimisticLock, hlock, hseek, hflags, hc, hallow hc, hne, hlt, hs,
        hrb, run_bind_of_ok (run_startTs t), run_ite_updateMaxTs]
    · simp [runTxn, acquirePessimisticLock, hlock, hseek, hflags, hc, hne, hlt, hs, hrb,
        run_bind_of_ok (run_startTs t), run_ite_updateMaxTs]

theorem acquire_alreadyExist (hk : KeyConsistent snap) (hlock : snap.lock = none)
    (hseek : seekWrite snap TimeStamp.max = some (c, w))
    (hflags : (lockOnlyIfExists && !needValue) = false)
    (hallow : forUpdateTs < c → allowLockWithConflict = true) (hrb : ¬RolledBackAt snap t.startTs)
    {w' : Write} {p : TimeStamp} (hput : WalkResult snap.writes TimeStamp.max (some (w', p)))
    (hrun : runTxn (acquirePessimisticLock snap canEnableLastChangeTs primary true lockTtl
      forUpdateTs needValue needCheckExistence minCommitTs lockOnlyIfExists
      allowLockWithConflict) t = (r, t')) :
    r = .error (if forUpdateTs < c then .writeConflict t.startTs w.startTs c primary .pessimisticRetry
        else .alreadyExist w'.startTs) := by
  have hr : (runTxn _ t).1 = r := congrArg Prod.fst hrun
  subst hr
  have hrb₁ := not_rolledBack_newest hseek hrb
  have hcheck := checkDataConstraint_newest hk hseek hput t.startTs true
  by_cases hc : forUpdateTs < c
  · cases hs : seekWrite snap t.startTs with
    | none =>
      simp [runTxn, acquirePessimisticLock, hlock, hseek, hflags, hc, hallow hc, hrb₁, hs,
        checkDataConstraintOrConflict, hcheck, existenceCheck, ConflictInfo.intoWriteConflictError,
        run_bind_of_ok (run_startTs t), run_bind, run_updateMaxTs]
    | some e =>
      obtain ⟨oc, ow⟩ := e
      simp [runTxn, acquirePessimisticLock, hlock, hseek, hflags, hc, hallow hc, hrb₁, hs,
        not_rolledBack_seek hrb hs, checkDataConstraintOrConflict, hcheck, existenceCheck,
        ConflictInfo.intoWriteConflictError, run_bind_of_ok (run_startTs t), run_bind, run_updateMaxTs]
  · cases hs : seekWrite snap t.startTs with
    | none =>
      simp [runTxn, acquirePessimisticLock, hlock, hseek, hflags, hc, hrb₁, hs,
        checkDataConstraintOrConflict, hcheck, existenceCheck, run_bind_of_ok (run_startTs t),
        run_bind, run_updateMaxTs]
    | some e =>
      obtain ⟨oc, ow⟩ := e
      simp [runTxn, acquirePessimisticLock, hlock, hseek, hflags, hc, hrb₁, hs,
        not_rolledBack_seek hrb hs, checkDataConstraintOrConflict, hcheck, existenceCheck,
        run_bind_of_ok (run_startTs t), run_bind, run_updateMaxTs]

/-- The lock is written at `max(for_update_ts, c)` with the reply built from
the latest value, except for a tolerated conflict on a key with no value under
`lock_only_if_exists`, which is reported as a write conflict. -/
theorem acquire_locked (hk : KeyConsistent snap) (hlock : snap.lock = none)
    (hseek : seekWrite snap TimeStamp.max = some (c, w))
    (hflags : (lockOnlyIfExists && !needValue) = false)
    (hallow : forUpdateTs < c → allowLockWithConflict = true) (hrb : ¬RolledBackAt snap t.startTs)
    (hnone : shouldNotExist = true → WalkResult snap.writes TimeStamp.max none)
    {v : Option Value} (hv : LatestValue snap v) {lc : LastChange}
    (hlc : nextLastChangeInfo snap w t.startTs c = .ok lc)
    (hrun : runTxn (acquirePessimisticLock snap canEnableLastChangeTs primary shouldNotExist
      lockTtl forUpdateTs needValue needCheckExistence minCommitTs lockOnlyIfExists
      allowLockWithConflict) t = (r, t')) :
    if lockOnlyIfExists && (acquiredValue needValue needCheckExistence (decide (forUpdateTs < c))
        v).isNone && decide (forUpdateTs < c) then
      r = .error (.writeConflict t.startTs w.startTs c primary .pessimisticRetry)
    else
      r = .ok (.newSuccess needValue needCheckExistence (if forUpdateTs < c then some c else none)
          (acquiredValue needValue needCheckExistence (decide (forUpdateTs < c)) v)) ∧
      t'.modifies =
        t.modifies ++
          if !lockOnlyIfExists ||
              (acquiredValue needValue needCheckExistence (decide (forUpdateTs < c)) v).isSome then
            [.putLock (PessimisticLock.toLock
              { primary, startTs := t.startTs, ttl := lockTtl, forUpdateTs := max forUpdateTs c,
                minCommitTs, lastChange := if canEnableLastChangeTs then lc else .unknown,
                isLockedWithConflict := decide (forUpdateTs < c) })]
          else [] := by
  have hr : (runTxn _ t).1 = r := congrArg Prod.fst hrun
  have ht : (runTxn _ t).2 = t' := congrArg Prod.snd hrun
  subst hr ht
  have hrb₁ := not_rolledBack_newest hseek hrb
  have hcheck := checkDataConstraintOrConflict_ok hk hseek hnone t.startTs
  have hval := lockValue_newest hk hseek hv t.startTs
  by_cases hc : forUpdateTs < c
  · -- a tolerated conflict: the lock is taken at `c` and the value loaded
    have hmax : max forUpdateTs c = c := max_eq_right (le_of_lt hc)
    cases hs : seekWrite snap t.startTs with
    | none =>
      simp [acquiredValue, runTxn, acquirePessimisticLock, hlock, hseek, hflags, hc, hallow hc,
        hrb₁, hs, hcheck, hval, hlc, hmax, run_bind_of_ok (run_startTs t), run_ite_updateMaxTs,
        putPessimisticLock]
      cases lockOnlyIfExists <;> cases v <;> simp [ConflictInfo.intoWriteConflictError]
    | some e =>
      obtain ⟨oc, ow⟩ := e
      simp [acquiredValue, runTxn, acquirePessimisticLock, hlock, hseek, hflags, hc, hallow hc,
        hrb₁, hs, not_rolledBack_seek hrb hs, hcheck, hval, hlc, hmax,
        run_bind_of_ok (run_startTs t), run_ite_updateMaxTs, putPessimisticLock]
      cases lockOnlyIfExists <;> cases v <;> simp [ConflictInfo.intoWriteConflictError]
  · have hmax : max forUpdateTs c = forUpdateTs := max_eq_left (not_lt.mp hc)
    cases hs : seekWrite snap t.startTs with
    | none =>
      simp [acquiredValue, runTxn, acquirePessimisticLock, hlock, hseek, hflags, hc, hrb₁, hs,
        hcheck, hval, hlc, hmax, run_bind_of_ok (run_startTs t), run_ite_updateMaxTs,
        putPessimisticLock]
      cases lockOnlyIfExists <;> cases needValue <;> cases needCheckExistence <;> cases v <;>
        simp_all
    | some e =>
      obtain ⟨oc, ow⟩ := e
      simp [acquiredValue, runTxn, acquirePessimisticLock, hlock, hseek, hflags, hc, hrb₁, hs,
        not_rolledBack_seek hrb hs, hcheck, hval, hlc, hmax, run_bind_of_ok (run_startTs t),
        run_ite_updateMaxTs, putPessimisticLock]
      cases lockOnlyIfExists <;> cases needValue <;> cases needCheckExistence <;> cases v <;>
        simp_all

end Unlocked

/-! ## The command -/

section Command

variable {canEnableLastChangeTs : Bool} {req : AcquirePessimisticLockRequest} {s : Storage}

theorem processAcquirePessimisticLock_of_error {e : Error} {txn : MvccTxn}
    (hrun : runTxn (acquirePessimisticLock s.key canEnableLastChangeTs req.primary
      req.shouldNotExist req.lockTtl req.forUpdateTs req.returnValues req.checkExistence
      req.minCommitTs req.lockOnlyIfExists req.allowLockWithConflict)
      (MvccTxn.new req.startTs s.maxTs) = (.error e, txn))
    (he : ∀ l, e ≠ .keyIsLocked l) :
    (processAcquirePessimisticLock canEnableLastChangeTs req s).2 = .error e := by
  rw [processAcquirePessimisticLock, hrun]
  split
  · rename_i h
    cases h
  · rename_i lock _ h
    cases h
    exact absurd rfl (he lock)
  · rename_i h
    cases h
    rfl

theorem processAcquirePessimisticLock_of_ok {res : PessimisticLockKeyResult} {txn : MvccTxn}
    (hrun : runTxn (acquirePessimisticLock s.key canEnableLastChangeTs req.primary
      req.shouldNotExist req.lockTtl req.forUpdateTs req.returnValues req.checkExistence
      req.minCommitTs req.lockOnlyIfExists req.allowLockWithConflict)
      (MvccTxn.new req.startTs s.maxTs) = (.ok res, txn)) :
    processAcquirePessimisticLock canEnableLastChangeTs req s =
      (s.write txn, .ok (.pessimisticLockRes res)) := by
  rw [processAcquirePessimisticLock, hrun]

/-- What a pessimistic lock request does, by its contract, on an unlocked key
whose newest record is `w` at `c`; `out` is the storage the command leaves and
its reply. -/
structure AcquireUnlocked (canEnableLastChangeTs : Bool) (req : AcquirePessimisticLockRequest)
    (s : Storage) (c : TimeStamp) (w : Write) (out : Storage × Except Error ProcessResult) :
    Prop where
  /-- A newer version that is not tolerated is a write conflict. -/
  writeConflict : req.forUpdateTs < c → req.allowLockWithConflict = false →
    out.2 = .error (.writeConflict req.startTs w.startTs c req.primary .pessimisticRetry)
  /-- The transaction's own rollback refuses the lock. -/
  rolledBack : (req.forUpdateTs < c → req.allowLockWithConflict = true) →
    RolledBackAt s.key req.startTs → out.2 = .error (.pessimisticLockRolledBack req.startTs)
  /-- `should_not_exist` refuses a key whose newest data version is a `Put`,
  as a write conflict when a conflict was tolerated. -/
  alreadyExist : (req.forUpdateTs < c → req.allowLockWithConflict = true) →
    ¬RolledBackAt s.key req.startTs → req.shouldNotExist = true →
    ∀ w' p, WalkResult s.key.writes TimeStamp.max (some (w', p)) →
      out.2 = .error (if req.forUpdateTs < c then
        .writeConflict req.startTs w.startTs c req.primary .pessimisticRetry
        else .alreadyExist w'.startTs)
  /-- `lock_only_if_exists` on a key with no value, after a tolerated
  conflict, reports the conflict. -/
  noValueConflict : (req.forUpdateTs < c → req.allowLockWithConflict = true) →
    ¬RolledBackAt s.key req.startTs →
    (req.shouldNotExist = true → WalkResult s.key.writes TimeStamp.max none) →
    req.lockOnlyIfExists = true → LatestValue s.key none → req.forUpdateTs < c →
    out.2 = .error (.writeConflict req.startTs w.startTs c req.primary .pessimisticRetry)
  /-- Otherwise the lock is taken at `max(for_update_ts, c)` with a true
  pointer, unless `lock_only_if_exists` finds no value, and the reply carries
  the latest value and the conflict tolerated. -/
  locked : (req.forUpdateTs < c → req.allowLockWithConflict = true) →
    ¬RolledBackAt s.key req.startTs →
    (req.shouldNotExist = true → WalkResult s.key.writes TimeStamp.max none) →
    ¬(req.lockOnlyIfExists = true ∧ LatestValue s.key none ∧ req.forUpdateTs < c) →
    ∃ v lc, LatestValue s.key v ∧ PointerOk s.key.writes ⊤ lc ∧
      out.2 = .ok (.pessimisticLockRes (.newSuccess req.returnValues req.checkExistence
        (if req.forUpdateTs < c then some c else none)
        (acquiredValue req.returnValues req.checkExistence (decide (req.forUpdateTs < c)) v))) ∧
      out.1.key = if req.lockOnlyIfExists = false ∨ v.isSome then
        { s.key with lock := some (req.lockAt canEnableLastChangeTs c lc).toLock } else s.key

/-- mirrors the contract of src/storage/txn/actions/acquire_pessimistic_lock.rs:40-397 on
a key with no lock: on a consistent key, with `lock_only_if_exists` only
together with `need_value`, every outcome is the one `AcquireUnlocked` gives. -/
theorem acquireUnlocked_spec (hk : KeyConsistent s.key) (hlock : s.key.lock = none)
    {c : TimeStamp} {w : Write} (hseek : seekWrite s.key TimeStamp.max = some (c, w))
    (hflags : req.lockOnlyIfExists = true → req.returnValues = true) :
    AcquireUnlocked canEnableLastChangeTs req s c w
      (processAcquirePessimisticLock canEnableLastChangeTs req s) := by
  have hflags' : (req.lockOnlyIfExists && !req.returnValues) = false := by
    cases h : req.lockOnlyIfExists
    · rfl
    · simp [hflags h]
  obtain ⟨v, hv⟩ := hk.latestValue_exists
  obtain ⟨lc, hlc, hptr⟩ := nextLastChangeInfo_newest hk hseek req.startTs
  obtain ⟨r, txn, hrun⟩ : ∃ r txn, runTxn (acquirePessimisticLock s.key canEnableLastChangeTs
      req.primary req.shouldNotExist req.lockTtl req.forUpdateTs req.returnValues
      req.checkExistence req.minCommitTs req.lockOnlyIfExists req.allowLockWithConflict)
      (MvccTxn.new req.startTs s.maxTs) = (r, txn) := ⟨_, _, rfl⟩
  refine ⟨fun hc hallow => ?_, fun hallow hrb => ?_, fun hallow hrb hsne w' p hput => ?_,
    fun hallow hrb hnone hlo hv' hc => ?_, fun hallow hrb hnone hnot => ?_⟩
  · obtain rfl := acquire_writeConflict hlock hseek hflags' hc hallow hrun
    exact processAcquirePessimisticLock_of_error hrun fun _ => nofun
  · obtain rfl := acquire_rolledBack hk hlock hseek hflags' hallow hrb hrun
    exact processAcquirePessimisticLock_of_error hrun fun _ => nofun
  · have hrun' := hrun
    rw [hsne] at hrun'
    obtain rfl := acquire_alreadyExist hk hlock hseek hflags' hallow hrb hput hrun'
    refine processAcquirePessimisticLock_of_error hrun ?_
    split <;> exact fun _ => nofun
  · have hcond : (req.lockOnlyIfExists && (acquiredValue req.returnValues req.checkExistence
        (decide (req.forUpdateTs < c)) none).isNone && decide (req.forUpdateTs < c)) = true := by
      simp [acquiredValue, hlo, hflags hlo, hc]
    obtain rfl := Eq.mp (if_pos hcond) (acquire_locked hk hlock hseek hflags' hallow hrb hnone hv' hlc hrun)
    exact processAcquirePessimisticLock_of_error hrun fun _ => nofun
  · -- with `lock_only_if_exists` the value is asked for, so the reply's value is the latest one
    have hval : req.lockOnlyIfExists = true →
        acquiredValue req.returnValues req.checkExistence (decide (req.forUpdateTs < c)) v = v :=
      fun hlo => by simp [acquiredValue, hflags hlo]
    have hcond : ¬(req.lockOnlyIfExists && (acquiredValue req.returnValues req.checkExistence
        (decide (req.forUpdateTs < c)) v).isNone && decide (req.forUpdateTs < c)) = true := by
      intro h
      simp only [Bool.and_eq_true, decide_eq_true_eq, Option.isNone_iff_eq_none] at h
      obtain ⟨⟨hlo, hnone'⟩, hc⟩ := h
      rw [hval hlo] at hnone'
      subst hnone'
      exact hnot ⟨hlo, hv, hc⟩
    obtain ⟨rfl, hmods⟩ := Eq.mp (if_neg hcond)
      (acquire_locked hk hlock hseek hflags' hallow hrb hnone hv hlc hrun)
    refine ⟨v, lc, hv, hptr, by rw [processAcquirePessimisticLock_of_ok hrun], ?_⟩
    rw [processAcquirePessimisticLock_of_ok hrun]
    simp only [Storage.write, hmods, MvccTxn.new, List.nil_append]
    cases hlo : req.lockOnlyIfExists
    · rfl
    · rw [hval hlo]
      cases v <;> rfl

/-- From the empty key, the transaction of 10 deletes the key and commits at
20. The transaction of 5 then asks at `for_update_ts` 10 with
`lock_only_if_exists`, `need_value` and `allow_lock_with_conflict`: the
conflict at 20 is tolerated and the key has no value, and the request fails
with a write conflict, where returning `LockedWithConflict(20)` with no lock
would follow the rest of the contract. -/
theorem acquire_lockOnlyIfExists_conflict_fails :
    let delete : PrewriteRequest :=
      { mutation := .delete .none, pessimisticAction := .skipPessimisticCheck,
        expectedForUpdateTs := none, primary := [107], startTs := 10, lockTtl := 3000,
        kind := .optimistic false, txnSize := 1, minCommitTs := 0, maxCommitTs := 0,
        secondaryKeys := none, tryOnePc := false, assertionLevel := .off, isRetryRequest := false,
        txnSource := 0, committedInStatusCache := false }
    let req : AcquirePessimisticLockRequest :=
      ⟨[107], 5, 3000, true, 10, false, false, true, false, 0, true, true⟩
    let s := (processWrite [107] true (.commit 10 20)
      (processWrite [107] true (.prewrite delete) ⟨KeyState.empty, 0⟩).1).1
    (processWrite [107] true (.acquirePessimisticLock req) s).2 =
      .error (.writeConflict 5 10 20 [107] .pessimisticRetry) := by
  decide

end Command

end Tikv.Mvcc
