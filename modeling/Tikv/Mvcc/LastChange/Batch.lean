import Tikv.Mvcc.LastChange.Invariant

/-!
# What a command's batch keeps of a key

`LastChangeInv` is what the readers of the pointers need. A reader of the
values needs more of a key (`KeyInv`): every record above timestamp 0 and at
or above the start of its transaction, and the value of every `Put`, record
or lock, stored inline or in the default column family at the transaction's
`start_ts`.

A command of the transaction of `st` writes one of two kinds of batches:

* a batch that commits nothing (`Sound`): locks with a true pointer, a new
  `Rollback` record or an overlapped-rollback flag at `st`, the removal of a
  `Rollback` record, the transaction's value, and the removal of that value
  when no record is the transaction's. `keyInv_keeps` needs besides that the
  value of the lock the batch leaves, which depends on the order of the
  batch and is shown for each command;
* a commit batch (`CommitSound`): the transaction's value, its commit record
  at one `commit_ts` above `st`, and the removal of the lock.
  `keyInv_commit` needs the lock gone, the new version on top and the value
  of the new record.

All the records of a batch lie at one timestamp, so a batch adds at most one
record, and a pointer it writes counts at most one version more than the key
did: `versionBound` bounds both, and a batch raises it by at most one.

Results:
* `keyInv_keeps`, `keyInv_commit`: the two kinds of batches keep `KeyInv`.
* `versionBound_keeps`, `versionBound_commit`: they raise `versionBound` by
  at most one.
* `StepBatch.keyInv`: the same for what one command leaves.
-/
namespace Tikv.Mvcc
open Tikv.Codec Tikv.TxnTypes

/-! ## The invariant -/

/-- The value of a `Put` of the transaction of `ts` can be read: it is inline,
or in the default column family at `ts`. -/
def ValueStored (k : KeyState) (shortValue : Option Value) (ts : TimeStamp) : Prop :=
  shortValue.isSome ∨ (k.data.get? ts).isSome

/-- What the commands keep of a key besides its true pointers: records above
timestamp 0 and at or above their transaction's start, and the values of the
`Put` records and of a `Put` lock. -/
structure KeyInv (k : KeyState) : Prop where
  inv : LastChangeInv k
  pos : ∀ c w, k.writes.get? c = some w → 0 < c
  order : ∀ c w, k.writes.get? c = some w → w.startTs ≤ c
  value : ∀ c w, k.writes.get? c = some w → w.writeType = .put →
    ValueStored k w.shortValue w.startTs
  lockValue : ∀ l, k.lock = some l → l.lockType = .put → ValueStored k l.shortValue l.ts

theorem keyInv_empty : KeyInv KeyState.empty where
  inv := inv_empty
  pos _ _ h := by simp [KeyState.empty] at h
  order _ _ h := by simp [KeyState.empty] at h
  value _ _ h := by simp [KeyState.empty] at h
  lockValue _ h := by simp [KeyState.empty] at h

/-- A stored value loads. -/
theorem loadData_of_valueStored {k : KeyState} {w : Write} (hput : w.writeType = .put)
    (h : ValueStored k w.shortValue w.startTs) : ∃ v, loadData k w = .ok v := by
  cases hs : w.shortValue with
  | some v => exact ⟨v, by simp [loadData, hput, hs]⟩
  | none =>
    rw [hs] at h
    obtain ⟨v, hv⟩ := Option.isSome_iff_exists.mp (h.resolve_left (by simp))
    exact ⟨v, by simp [loadData, hput, hs, getValue, hv]⟩

/-! ## Pointer counts -/

/-- The versions a pointer says lie between its record and the version it
names; zero when it names none. -/
def lastChangeVersions : LastChange → Nat
  | .exist _ n => n.toNat
  | _ => 0

/-- A bound on what the key's pointers count and on its number of records. -/
def KeyState.versionBound (k : KeyState) : Nat :=
  max k.writes.entries.length
    (max ((k.lock.map fun l => lastChangeVersions l.lastChange).getD 0)
      (k.writes.entries.foldr (fun e b => max (lastChangeVersions e.2.lastChange) b) 0))

theorem foldr_max_le_iff {α : Type} (f : α → Nat) (l : List α) (N : Nat) :
    l.foldr (fun e b => max (f e) b) 0 ≤ N ↔ ∀ e ∈ l, f e ≤ N := by
  induction l with
  | nil => simp
  | cons e l ih => simp [ih]

theorem versionBound_le_iff (k : KeyState) (N : Nat) :
    k.versionBound ≤ N ↔ k.writes.entries.length ≤ N ∧
      (∀ l, k.lock = some l → lastChangeVersions l.lastChange ≤ N) ∧
      ∀ c w, k.writes.get? c = some w → lastChangeVersions w.lastChange ≤ N := by
  have hlock : (k.lock.map fun l => lastChangeVersions l.lastChange).getD 0 ≤ N ↔
      ∀ l, k.lock = some l → lastChangeVersions l.lastChange ≤ N := by
    cases k.lock <;> simp
  have hrecords : (∀ e ∈ k.writes.entries, lastChangeVersions e.2.lastChange ≤ N) ↔
      ∀ c w, k.writes.get? c = some w → lastChangeVersions w.lastChange ≤ N := by
    simp only [← VersionMap.mem_entries_iff]
    exact ⟨fun h c w hcw => h _ hcw, fun h e he => h e.1 e.2 he⟩
  rw [KeyState.versionBound, Nat.max_le, Nat.max_le, hlock, foldr_max_le_iff, hrecords]

theorem length_le_versionBound (k : KeyState) : k.writes.entries.length ≤ k.versionBound :=
  ((versionBound_le_iff k _).mp le_rfl).1

theorem lockVersions_le_versionBound {k : KeyState} {l : Lock} (hl : k.lock = some l) :
    lastChangeVersions l.lastChange ≤ k.versionBound :=
  ((versionBound_le_iff k _).mp le_rfl).2.1 l hl

theorem recordVersions_le_versionBound {k : KeyState} {c : TimeStamp} {w : Write}
    (hw : k.writes.get? c = some w) : lastChangeVersions w.lastChange ≤ k.versionBound :=
  ((versionBound_le_iff k _).mp le_rfl).2.2 c w hw

/-! ## What a batch may write -/

/-- A pointer a batch may give a lock: true of the whole column, and counting
at most one version more than the key's records and lock. -/
def NewPointer (k : KeyState) (lc : LastChange) : Prop :=
  PointerOk k.writes ⊤ lc ∧ lastChangeVersions lc ≤ k.versionBound + 1

/-- A modification, by the transaction of `st`, of a batch that commits
nothing: a lock with a true pointer counting at most one version more than the
key, a new `Rollback` record or an overlapped-rollback flag at `st`, the
removal of a `Rollback` record, the transaction's value, or the removal of it
when no record of `k` is the transaction's. -/
def Sound (k : KeyState) (st : TimeStamp) : Modify → Prop
  | .putLock l => NewPointer k l.lastChange
  | .deleteLock => True
  | .putWrite c w => c = st ∧ (RollbackNew k c w ∨ OverlappedFlag k c w)
  | .deleteWrite c => ∃ w, k.writes.get? c = some w ∧ w.writeType = .rollback
  | .putValue ts _ => ts = st
  | .deleteValue ts => ts = st ∧ ∀ c w, k.writes.get? c = some w → w.startTs ≠ st

theorem Sound.keepsVersions {k : KeyState} {st : TimeStamp} {m : Modify} (h : Sound k st m) :
    KeepsVersions k m := by
  cases m with
  | putLock l => exact h.1
  | putWrite c w => exact h.2
  | deleteWrite c => exact h
  | _ => trivial

/-- A modification of a commit at `commitTs` by the transaction of `st`: the
transaction's value, its commit record with a pointer true of the whole column,
or the removal of the lock. -/
def CommitSound (k : KeyState) (st commitTs : TimeStamp) : Modify → Prop
  | .putWrite c w => c = commitTs ∧ CommitRecord k w ∧ w.startTs = st ∧
      lastChangeVersions w.lastChange ≤ k.versionBound + 1
  | .putValue ts _ => ts = st
  | .deleteLock => True
  | _ => False

theorem CommitSound.allowed {k : KeyState} {st commitTs : TimeStamp} {m : Modify}
    (h : CommitSound k st commitTs m) : Allowed k m := by
  cases m with
  | putWrite c w => exact .inr h.2.1
  | putValue ts v => trivial
  | deleteLock => trivial
  | _ => exact h.elim

/-! ## Values and the lock after a batch -/

section After

variable {k : KeyState} {ms : List Modify}

/-- A value that no modification of the batch removes stays, and one the batch
puts is there. -/
theorem applyModifies_data_isSome {ts : TimeStamp} (hdel : .deleteValue ts ∉ ms)
    (h : (k.data.get? ts).isSome ∨ ∃ v, .putValue ts v ∈ ms) :
    ((k.applyModifies ms).data.get? ts).isSome := by
  induction ms generalizing k with
  | nil => simpa using h
  | cons m ms ih =>
    rw [applyModifies_cons]
    refine ih (fun hm => hdel (List.mem_cons_of_mem _ hm)) ?_
    rcases h with h | ⟨v, hv⟩
    · -- the first modification keeps the value at `ts` unless it is the one removing it
      left
      cases m with
      | putValue ts' v' =>
        simp only [Modify.apply, VersionMap.get?_insert]
        split_ifs <;> simp [h]
      | deleteValue ts' =>
        simp only [Modify.apply, VersionMap.get?_erase]
        split_ifs with hts
        · exact absurd (hts ▸ List.mem_cons_self) hdel
        · exact h
      | _ => exact h
    · rcases List.mem_cons.mp hv with rfl | hv
      · exact .inl (by simp [Modify.apply])
      · exact .inr ⟨v, hv⟩

theorem ValueStored.after {sv : Option Value} {ts : TimeStamp} (h : ValueStored k sv ts)
    (hdel : .deleteValue ts ∉ ms) : ValueStored (k.applyModifies ms) sv ts :=
  h.imp_right fun h => applyModifies_data_isSome hdel (.inl h)

/-- A batch that removes the lock and puts none leaves no lock. -/
theorem applyModifies_lock_of_deleteLock (hdel : .deleteLock ∈ ms)
    (hput : ∀ l, .putLock l ∉ ms) : (k.applyModifies ms).lock = none := by
  induction ms generalizing k with
  | nil => cases hdel
  | cons m ms ih =>
    rw [applyModifies_cons]
    have hput' : ∀ l, .putLock l ∉ ms := fun l hl => hput l (List.mem_cons_of_mem _ hl)
    rcases List.mem_cons.mp hdel with rfl | hdel'
    · -- after the removal only another removal can touch the lock
      rcases applyModifies_lock (Modify.deleteLock.apply k) ms with h | ⟨l, hl, -⟩ | ⟨-, h⟩
      · exact h
      · exact absurd hl (hput' l)
      · exact h
    · exact ih hdel' hput'

end After

/-! ## Batches that commit nothing -/

section Keeps

variable {k : KeyState} {st : TimeStamp} {ms : List Modify}

/-- What the record at `c` is after such a batch: the old one, or a new
`Rollback` record or flag at `st`. -/
theorem sound_record_cases (hms : ∀ m ∈ ms, Sound k st m) {c : TimeStamp} {w : Write}
    (hw : (k.applyModifies ms).writes.get? c = some w) :
    k.writes.get? c = some w ∨ (c = st ∧ (RollbackNew k c w ∨ OverlappedFlag k c w)) := by
  rcases applyModifies_writes_get? k ms c with h | ⟨w', hw', h⟩ | ⟨-, h⟩
  · exact .inl (h ▸ hw)
  · rw [hw] at h
    cases h
    exact .inr (hms _ hw')
  · rw [hw] at h
    cases h

/-- A value of an old record stays: the batch removes only the value of its
own transaction, which no old record is. -/
theorem valueStored_after_sound (hms : ∀ m ∈ ms, Sound k st m) {c : TimeStamp} {w : Write}
    (hw : k.writes.get? c = some w) (h : ValueStored k w.shortValue w.startTs) :
    ValueStored (k.applyModifies ms) w.shortValue w.startTs :=
  h.after fun hdel => (hms _ hdel).2 c w hw (hms _ hdel).1

/-- A batch that commits nothing keeps the invariant, given the value of the
lock it leaves. -/
theorem keyInv_keeps (hk : KeyInv k) (hst : 0 < st) (hms : ∀ m ∈ ms, Sound k st m)
    (hlock : ∀ l, (k.applyModifies ms).lock = some l → l.lockType = .put →
      ValueStored (k.applyModifies ms) l.shortValue l.ts) :
    KeyInv (k.applyModifies ms) where
  inv := inv_applyModifies_keeps hk.inv fun m hm => (hms m hm).keepsVersions
  pos c w hw := by
    rcases sound_record_cases hms hw with h | ⟨rfl, -⟩
    · exact hk.pos c w h
    · exact hst
  order c w hw := by
    rcases sound_record_cases hms hw with h | ⟨rfl, hnew | ⟨w₀, g, h₀, rfl, -⟩⟩
    · exact hk.order c w h
    · exact le_of_eq hnew.2.1
    · exact hk.order c w₀ h₀
  value c w hw hput := by
    rcases sound_record_cases hms hw with h | ⟨rfl, hnew | ⟨w₀, g, h₀, rfl, -⟩⟩
    · exact valueStored_after_sound hms h (hk.value c w h hput)
    · rw [hnew.1] at hput
      cases hput
    · -- the flag keeps the record's type, value and transaction
      exact valueStored_after_sound (w := w₀) hms h₀ (hk.value c w₀ h₀ hput)
  lockValue := hlock

/-- Such a batch adds at most the record at `st`, and its pointers count at
most one version more than the key's. -/
theorem versionBound_keeps (hms : ∀ m ∈ ms, Sound k st m) :
    (k.applyModifies ms).versionBound ≤ k.versionBound + 1 := by
  refine (versionBound_le_iff _ _).mpr ⟨?_, fun l hl => ?_, fun c w hw => ?_⟩
  · refine le_trans (VersionMap.length_le_of_get? st fun c w hw => ?_)
      (Nat.add_le_add_right (length_le_versionBound k) 1)
    rcases sound_record_cases hms hw with h | ⟨rfl, -⟩
    · exact .inl ⟨w, h⟩
    · exact .inr rfl
  · rcases applyModifies_lock k ms with h | ⟨l', hl', h⟩ | ⟨-, h⟩
    · exact Nat.le_succ_of_le (lockVersions_le_versionBound (h ▸ hl))
    · rw [hl] at h
      cases h
      exact (hms _ hl').2
    · rw [hl] at h
      cases h
  · rcases sound_record_cases hms hw with h | ⟨-, hnew | ⟨w₀, g, h₀, rfl, -⟩⟩
    · exact Nat.le_succ_of_le (recordVersions_le_versionBound h)
    · simp [hnew.2.2.1, lastChangeVersions]
    · -- the flag keeps the record's pointer
      exact Nat.le_succ_of_le (recordVersions_le_versionBound (w := w₀) h₀)

end Keeps

/-! ## Commit batches -/

section Commit

variable {k : KeyState} {st commitTs : TimeStamp} {ms : List Modify}

/-- What the record at `c` is after a commit batch: the old one, or the new
commit record. -/
theorem commit_record_cases (hms : ∀ m ∈ ms, CommitSound k st commitTs m) {c : TimeStamp}
    {w : Write} (hw : (k.applyModifies ms).writes.get? c = some w) :
    k.writes.get? c = some w ∨ (.putWrite c w ∈ ms ∧ CommitSound k st commitTs (.putWrite c w)) := by
  rcases applyModifies_writes_get? k ms c with h | ⟨w', hw', h⟩ | ⟨hd, -⟩
  · exact .inl (h ▸ hw)
  · rw [hw] at h
    cases h
    exact .inr ⟨hw', hms _ hw'⟩
  · exact (hms _ hd).elim

theorem commitSound_not_deleteValue (hms : ∀ m ∈ ms, CommitSound k st commitTs m)
    (ts : TimeStamp) : .deleteValue ts ∉ ms :=
  fun h => hms _ h

/-- A commit batch keeps the invariant when it commits above the transaction's
start, leaves no lock, puts its version on top, and stores the value it
commits. -/
theorem keyInv_commit (hk : KeyInv k) (hct : st < commitTs)
    (hms : ∀ m ∈ ms, CommitSound k st commitTs m)
    (htop : NewVersionsOnTop k (k.applyModifies ms)) (hlock : (k.applyModifies ms).lock = none)
    (hval : ∀ c w, .putWrite c w ∈ ms → w.writeType = .put →
      ValueStored (k.applyModifies ms) w.shortValue w.startTs) :
    KeyInv (k.applyModifies ms) where
  inv := inv_applyModifies_commit hk.inv (fun m hm => (hms m hm).allowed) htop hlock
  pos c w hw := by
    rcases commit_record_cases hms hw with h | ⟨-, rfl, -⟩
    · exact hk.pos c w h
    · exact lt_of_le_of_lt UInt64.zero_le hct
  order c w hw := by
    rcases commit_record_cases hms hw with h | ⟨-, rfl, -, hst, -⟩
    · exact hk.order c w h
    · exact hst ▸ le_of_lt hct
  value c w hw hput := by
    rcases commit_record_cases hms hw with h | ⟨hmem, -⟩
    · exact (hk.value c w h hput).after (commitSound_not_deleteValue hms _)
    · exact hval c w hmem hput
  lockValue l hl := by
    rw [hlock] at hl
    cases hl

theorem versionBound_commit (hms : ∀ m ∈ ms, CommitSound k st commitTs m) :
    (k.applyModifies ms).versionBound ≤ k.versionBound + 1 := by
  refine (versionBound_le_iff _ _).mpr ⟨?_, fun l hl => ?_, fun c w hw => ?_⟩
  · refine le_trans (VersionMap.length_le_of_get? commitTs fun c w hw => ?_)
      (Nat.add_le_add_right (length_le_versionBound k) 1)
    rcases commit_record_cases hms hw with h | ⟨-, rfl, -⟩
    · exact .inl ⟨w, h⟩
    · exact .inr rfl
  · -- a commit puts no lock
    rcases applyModifies_lock k ms with h | ⟨l', hl', -⟩ | ⟨-, h⟩
    · exact Nat.le_succ_of_le (lockVersions_le_versionBound (h ▸ hl))
    · exact (hms _ hl').elim
    · rw [hl] at h
      cases h
  · rcases commit_record_cases hms hw with h | ⟨-, -, -, -, hn⟩
    · exact Nat.le_succ_of_le (recordVersions_le_versionBound h)
    · exact hn

end Commit

/-! ## What a command leaves -/

/-- What a command of the transaction of `st` leaves of the key `k` it read:
the key as it was, a batch that commits nothing and leaves its lock's value,
or a commit at `c` above `st` that leaves no lock and has the values it
commits. -/
inductive StepBatch (k : KeyState) (st : TimeStamp) : KeyState → Prop
  | same : StepBatch k st k
  | keeps {ms : List Modify} (hms : ∀ m ∈ ms, Sound k st m)
      (hlock : ∀ l, (k.applyModifies ms).lock = some l → l.lockType = .put →
        ValueStored (k.applyModifies ms) l.shortValue l.ts) :
      StepBatch k st (k.applyModifies ms)
  | commit {c : TimeStamp} {ms : List Modify} (hct : st < c)
      (hms : ∀ m ∈ ms, CommitSound k st c m) (hlock : (k.applyModifies ms).lock = none)
      (hval : ∀ c' w, .putWrite c' w ∈ ms → w.writeType = .put →
        ValueStored (k.applyModifies ms) w.shortValue w.startTs) :
      StepBatch k st (k.applyModifies ms)

/-- One command keeps `KeyInv` when its new versions land on top, and raises
`versionBound` by at most one. -/
theorem StepBatch.keyInv {k k' : KeyState} {st : TimeStamp} (h : StepBatch k st k') (hk : KeyInv k)
    (hst : 0 < st) (htop : NewVersionsOnTop k k') :
    KeyInv k' ∧ k'.versionBound ≤ k.versionBound + 1 := by
  cases h with
  | same => exact ⟨hk, Nat.le_succ _⟩
  | keeps hms hlock => exact ⟨keyInv_keeps hk hst hms hlock, versionBound_keeps hms⟩
  | commit hct hms hlock hval =>
    exact ⟨keyInv_commit hk hct hms htop hlock hval, versionBound_commit hms⟩

end Tikv.Mvcc
