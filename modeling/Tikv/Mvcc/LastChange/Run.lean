import Tikv.Mvcc.LastChange.Prewrite
import Tikv.Lib.Trace

/-!
# Runs of commands keep a key's records trustworthy

The scheduler runs one command at a time on a key (`processWrite`). Each
command builds a buffer for the transaction of its `start_ts` (the lock's for
`Commit`, `CheckTxnStatus` and `ResolveLock`) and writes it when it succeeds.
Every command writes a batch of `StepBatch`: one that commits nothing, or a
commit above `start_ts` that leaves no lock (`processWrite_stepBatch`). So
from the empty key every run keeps `KeyInv`, and a run of `n` commands leaves
pointers and records that count at most `n` (`reaches_keyInv`).

## Hypotheses

A run is one of `KeyStep`, whose steps meet `StepOk`:

* `startTs_pos`: a transaction starts above timestamp 0 (PD never hands out
  0);
* `lite`: a `ResolveLockLite` that commits does so above the transaction's
  start; the command takes the `commit_ts` from the client and does not check
  it (src/storage/txn/commands/resolve_lock_lite.rs:62-70);
* `top`: a `Put`, `Delete` or `Lock` record that the command commits lies
  above every other one of the key. Only commits can break it: the other
  commands add `Rollback` records and overlapped-rollback flags, which it
  leaves out. A prewrite that skips the constraint check under async commit
  or 1PC commits at a computed timestamp that may lie below a newer `Lock`
  record, whose pointer then skips the new version; with `top` no record's
  pointer goes stale. `acquire_stale_pointer_value` (in `AcquireRun`) shows
  a read that such a pointer misleads.

Results:
* `processWrite_stepBatch`: every command writes a batch of `StepBatch`.
* `keyStep_keyInv`: one step keeps `KeyInv` and raises `versionBound` by at
  most one.
* `reaches_keyInv`: every run from the empty key keeps `KeyInv`, with
  `versionBound` at most its number of commands.
-/
namespace Tikv.Mvcc
open Tikv.Codec Tikv.TxnTypes ExceptState

/-- The `start_ts` of the buffer a command builds (`MvccTxn::new`): the
lock's for `Commit`, `CheckTxnStatus` and `ResolveLock`. -/
def Command.txnStartTs : Command → TimeStamp
  | .prewrite req => req.startTs
  | .acquirePessimisticLock req => req.startTs
  | .commit lockTs _ => lockTs
  | .cleanup startTs _ => startTs
  | .rollback startTs => startTs
  | .checkTxnStatus req => req.lockTs
  | .pessimisticRollback startTs _ => startTs
  | .txnHeartBeat startTs _ _ => startTs
  | .checkSecondaryLocks startTs => startTs
  | .resolveLock lockTs _ _ => lockTs
  | .resolveLockLite startTs _ => startTs

/-! ## The batch of one command -/

section Steps

variable {α : Type} {s : Storage} {st : TimeStamp}

/-- What a run from the command's fresh buffer appends is all it holds. -/
theorem modifies_of_run {P : Modify → Prop} {x : TxnM α} (hx : Keeps (AppendsAt st P) x)
    {r : Except Error α} {t : MvccTxn} (hrun : runTxn x (MvccTxn.new st s.maxTs) = (r, t)) :
    ∀ m ∈ t.modifies, P m := by
  obtain ⟨-, ms, hms, hP⟩ := hx.of_run hrun rfl
  rw [hms]
  exact hP

theorem stepBatch_write (hk : KeyInv s.key) (del : Bool) {x : TxnM α}
    (hx : Keeps (AppendsAt st (ActionSound s.key st del)) x) (hgone : del = true → LockGone st x)
    {a : α} {t : MvccTxn} (hrun : runTxn x (MvccTxn.new st s.maxTs) = (.ok a, t)) :
    StepBatch s.key st (s.write t).key :=
  stepBatch_of_acts hk (modifies_of_run hx hrun) fun hd => hgone hd _ a t rfl hrun

/-- A command whose action appends only `ActionSound` modifications, and
leaves no lock when it removes a value. -/
theorem finish_stepBatch (hk : KeyInv s.key) (del : Bool) {x : TxnM α}
    (hx : Keeps (AppendsAt st (ActionSound s.key st del)) x) (hgone : del = true → LockGone st x)
    (f : α → ProcessResult) :
    StepBatch s.key st (finish s f (runTxn x (MvccTxn.new st s.maxTs))).1.key := by
  rcases hrun : runTxn x (MvccTxn.new st s.maxTs) with ⟨_ | a, t⟩
  · exact .same
  · exact stepBatch_write hk del hx hgone hrun

/-- A command that removes no value. -/
theorem finish_stepBatch_of_keeps (hk : KeyInv s.key) {x : TxnM α}
    (hx : Keeps (AppendsAt st (ActionSound s.key st false)) x) (f : α → ProcessResult) :
    StepBatch s.key st (finish s f (runTxn x (MvccTxn.new st s.maxTs))).1.key :=
  finish_stepBatch hk false hx (fun h => absurd h Bool.false_ne_true) f

/-- A command that commits at `c` above `st`. -/
theorem finish_stepBatch_commit {c : TimeStamp} (hct : st < c) {x : TxnM α}
    (hx : Keeps (AppendsAt st (CommitAction s.key st c)) x) (hu : Keeps UnlocksOrNothing x)
    (f : α → ProcessResult) :
    StepBatch s.key st (finish s f (runTxn x (MvccTxn.new st s.maxTs))).1.key := by
  rcases hrun : runTxn x (MvccTxn.new st s.maxTs) with ⟨_ | a, t⟩
  · exact .same
  · -- from the empty buffer the run appended nothing, or a batch that leaves no lock
    have hdone : t.modifies = [] ∨ LockGoneIn t.modifies := by
      rcases hu.of_run hrun with h | ⟨ms, hms, hgone⟩
      · exact .inl h
      · exact .inr (by rw [hms]; exact hgone)
    exact stepBatch_of_commit hct (modifies_of_run hx hrun) hdone

/-- A cleanup removes the transaction's value only when it rolls back the
transaction's lock, and then leaves no lock. -/
theorem cleanup_del (hk : KeyInv s.key) (st : TimeStamp) (key : Bytes) (currentTs : TimeStamp)
    (protectRollback : Bool) : ∃ del,
      Keeps (AppendsAt st (ActionSound s.key st del)) (cleanup s.key key currentTs protectRollback) ∧
      (del = true → LockGone st (cleanup s.key key currentTs protectRollback)) := by
  by_cases hlk : ∃ lock, s.key.lock = some lock ∧ lock.ts = st
  · obtain ⟨lock, hl, hts⟩ := hlk
    exact ⟨true, cleanup_acts hk key currentTs protectRollback nofun,
      fun _ => cleanup_lockGone hl hts key currentTs protectRollback⟩
  · exact ⟨false, cleanup_acts hk key currentTs protectRollback
      fun _ lock hl hts => absurd ⟨lock, hl, hts⟩ hlk, nofun⟩

/-- The same for `CheckTxnStatus`, which removes the value only when it rolls
back the lock. -/
theorem checkTxnStatus_del (hk : KeyInv s.key) (key : Bytes) (req : CheckTxnStatusRequest) :
    ∃ del, Keeps (AppendsAt req.lockTs (ActionSound s.key req.lockTs del))
        (checkTxnStatus s.key key req) ∧
      (del = true → LockGone req.lockTs (checkTxnStatus s.key key req)) := by
  by_cases hrb : CheckTxnStatusRollsBack s.key key req
  · exact ⟨true, checkTxnStatus_acts hk key req nofun, fun _ => checkTxnStatus_lockGone hrb⟩
  · exact ⟨false, checkTxnStatus_acts hk key req
      fun _ lock hl hts hlock => absurd ⟨lock, hl, hts, hlock⟩ hrb, nofun⟩

/-- A resolve that commits, at `commitTs` above the lock's `start_ts`:
a lock already gone is tolerated for a pessimistic lock. -/
theorem resolveLock_commits {c : TimeStamp} (hk : KeyInv s.key) (st : TimeStamp) (key : Bytes) (p : Bool)
    (hc : c ≠ 0) :
    Keeps (AppendsAt st (CommitAction s.key st c)) (resolveLock s.key key p c) ∧
      Keeps UnlocksOrNothing (resolveLock s.key key p c) := by
  unfold resolveLock
  refine ⟨keepsAt_startTs_bind ?_, Keeps.bind keeps_startTs fun lockTs => ?_⟩
  · refine Keeps.ite (fun h => absurd h hc) fun _ => Keeps.ite (fun _ =>
      Keeps.tryCatch (commit_acts hk c) fun e => ?_) fun _ => Keeps.throw _
    split
    · exact Keeps.ite (fun _ => Keeps.pure _) fun _ => Keeps.throw _
    · exact Keeps.throw _
  · refine Keeps.ite (fun h => absurd h hc) fun _ => Keeps.ite (fun _ =>
      Keeps.tryCatch (commit_unlocks c) fun e => ?_) fun _ => Keeps.throw _
    split
    · exact Keeps.ite (fun _ => Keeps.pure _) fun _ => Keeps.throw _
    · exact Keeps.throw _

/-- Every command writes a batch of `StepBatch` for the transaction it
builds its buffer for. -/
theorem processWrite_stepBatch (key : Bytes) (b : Bool) (cmd : Command) (hk : KeyInv s.key)
    (hlite : ∀ st c, cmd = .resolveLockLite st c → c ≠ 0 → st < c) :
    StepBatch s.key cmd.txnStartTs (processWrite key b cmd s).1.key := by
  cases cmd with
  | prewrite req => exact processPrewrite_stepBatch key b req hk
  | acquirePessimisticLock req =>
    have hx : Keeps (AppendsAt req.startTs (ActionSound s.key req.startTs false))
        (acquirePessimisticLock s.key b req.primary req.shouldNotExist req.lockTtl
          req.forUpdateTs req.returnValues req.checkExistence req.minCommitTs req.lockOnlyIfExists
          req.allowLockWithConflict) :=
      acquirePessimisticLock_acts hk _ _ _ _ _ _ _ _ _ _
    show StepBatch s.key req.startTs (processAcquirePessimisticLock b req s).1.key
    unfold processAcquirePessimisticLock
    -- a lock met or any other failure writes nothing
    split
    · exact stepBatch_write hk false hx (fun h => absurd h Bool.false_ne_true) ‹_›
    all_goals first | exact .same | split <;> (try split) <;> exact .same
  | commit lockTs commitTs =>
    simp only [processWrite, Command.txnStartTs]
    split
    · exact .same
    · exact finish_stepBatch_commit (lt_of_not_ge ‹_›) (commit_acts hk commitTs)
        (commit_unlocks commitTs) _
  | cleanup startTs currentTs =>
    -- "It is not allowed for commit to overwrite a protected rollback": `max_ts` first
    obtain ⟨del, hx, hgone⟩ := cleanup_del hk startTs key currentTs true
    have hmax : Keeps (AppendsAt startTs (ActionSound s.key startTs del))
        (updateMaxTs startTs) := keepsAt_of_keeps (keeps_updateMaxTs _)
    exact finish_stepBatch hk del (Keeps.bind hmax fun _ => hx)
      (fun hd => lockGone_bind hmax fun _ => hgone hd) _
  | rollback startTs =>
    obtain ⟨del, hx, hgone⟩ := cleanup_del hk startTs key 0 false
    exact finish_stepBatch hk del hx hgone _
  | checkTxnStatus req =>
    obtain ⟨del, hx, hgone⟩ := checkTxnStatus_del hk key req
    exact finish_stepBatch hk del hx hgone _
  | pessimisticRollback startTs forUpdateTs =>
    exact finish_stepBatch_of_keeps hk (pessimisticRollback_acts forUpdateTs) _
  | txnHeartBeat startTs adviseTtl minCommitTs =>
    exact finish_stepBatch_of_keeps hk (txnHeartBeat_acts hk adviseTtl minCommitTs) _
  | checkSecondaryLocks startTs =>
    exact finish_stepBatch_of_keeps hk (Keeps.bind (keepsAt_of_keeps (keeps_updateMaxTs _))
      fun _ => checkSecondaryLocks_acts hk) _
  | resolveLock lockTs lockIsPessimistic commitTs =>
    simp only [processWrite, Command.txnStartTs]
    by_cases hc : commitTs = 0
    · -- a rollback
      subst hc
      obtain ⟨del, hx, hgone⟩ := cleanup_del hk lockTs key 0 false
      have hres : resolveLock s.key key lockIsPessimistic 0 =
          startTs >>= fun _ => cleanup s.key key 0 false := by
        simp [resolveLock]
      rw [hres]
      exact finish_stepBatch hk del (keepsAt_startTs_bind hx)
        (fun hd => lockGone_startTs_bind (hgone hd)) _
    · by_cases hlt : lockTs < commitTs
      · obtain ⟨hx, hu⟩ := resolveLock_commits hk lockTs key lockIsPessimistic hc
        exact finish_stepBatch_commit hlt hx hu _
      · -- a `commit_ts` at or below the lock's `start_ts` is refused
        have hrun : (runTxn (resolveLock s.key key lockIsPessimistic commitTs)
            (MvccTxn.new lockTs s.maxTs)).1 = .error (.invalidTxnTso lockTs commitTs) := by
          simp [runTxn, resolveLock, run_bind_of_ok (run_startTs _), hc, hlt, MvccTxn.new]
        rcases hr : runTxn (resolveLock s.key key lockIsPessimistic commitTs)
          (MvccTxn.new lockTs s.maxTs) with ⟨_ | a, t⟩
        · exact .same
        · rw [hr] at hrun
          cases hrun
  | resolveLockLite startTs commitTs =>
    simp only [processWrite, Command.txnStartTs]
    by_cases hc : commitTs = 0
    · obtain ⟨del, hx, hgone⟩ := cleanup_del hk startTs key 0 false
      rw [if_neg (not_not.mpr hc)]
      exact finish_stepBatch hk del hx hgone _
    · rw [if_pos hc]
      exact finish_stepBatch_commit (hlite startTs commitTs rfl hc) (commit_acts hk commitTs)
        (commit_unlocks commitTs) _

end Steps

/-! ## Runs -/

/-- What a run assumes of a command it runs on the key in the state `s`. -/
structure StepOk (key : Bytes) (b : Bool) (cmd : Command) (s : Storage) : Prop where
  startTs_pos : 0 < cmd.txnStartTs
  lite : ∀ st c, cmd = .resolveLockLite st c → c ≠ 0 → st < c
  top : NewVersionsOnTop s.key (processWrite key b cmd s).1.key

/-- `top` holds of a command that adds no record. -/
theorem newVersionsOnTop_of_writes_eq {k k' : KeyState} (h : k'.writes = k.writes) :
    NewVersionsOnTop k k' := by
  intro c w hw _
  exact .inl ⟨w, h ▸ hw, rfl, rfl⟩

/-- `top` holds of the first record of a key. -/
theorem newVersionsOnTop_first {k k' : KeyState} {c : TimeStamp} {w : Write}
    (hk : k.writes = VersionMap.empty) (hk' : k'.writes = VersionMap.empty.insert c w) :
    NewVersionsOnTop k k' := by
  have hone : ∀ q u, k'.writes.get? q = some u → q = c := by
    intro q u h
    rw [hk', VersionMap.get?_insert, VersionMap.get?_empty] at h
    split_ifs at h with hq
    exact hq
  intro q u hq _
  refine .inr ⟨fun w₀ h₀ => by simp [hk, VersionMap.get?_empty] at h₀, fun q' u' hq' _ hne => ?_⟩
  exact absurd ((hone q' u' hq').trans (hone q u hq).symm) hne

/-- A step of the key: a command that meets `StepOk`, and the storage it
leaves. -/
def KeyStep (key : Bytes) (b : Bool) (s : Storage) (cmd : Command) (s' : Storage) : Prop :=
  StepOk key b cmd s ∧ s' = (processWrite key b cmd s).1

section Runs

variable {key : Bytes} {b : Bool}

theorem keyStep_keyInv {s s' : Storage} {cmd : Command} (hk : KeyInv s.key)
    (h : KeyStep key b s cmd s') : KeyInv s'.key ∧ s'.key.versionBound ≤ s.key.versionBound + 1 := by
  obtain ⟨hok, rfl⟩ := h
  exact (processWrite_stepBatch key b cmd hk hok.lite).keyInv hk hok.startTs_pos hok.top

/-- Every run from the empty key keeps `KeyInv`; its pointers and records
count at most the number of commands. -/
theorem reaches_keyInv {m : TimeStamp} {cmds : List Command} {s : Storage}
    (h : Trace.Reaches (KeyStep key b) ⟨KeyState.empty, m⟩ cmds s) :
    KeyInv s.key ∧ s.key.versionBound ≤ cmds.length := by
  -- induction on the run, one command at a time
  induction h with
  | nil => exact ⟨keyInv_empty, Nat.le_of_eq rfl⟩
  | snoc _ hstep ih =>
    obtain ⟨hk, hb⟩ := ih
    obtain ⟨hk', hb'⟩ := keyStep_keyInv hk hstep
    refine ⟨hk', ?_⟩
    rw [List.length_append, List.length_singleton]
    omega

end Runs

end Tikv.Mvcc
