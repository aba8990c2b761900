import Tikv.Mvcc.Versions

/-!
# The invariant of the `last_change` pointers

`LastChangeInv` is what keeps the pointers of a key true: every record's and
the lock's pointer is true (`PointerOk`), a `Rollback` record sits at its own
`start_ts` and carries no pointer, and a GC fence names a data version above
its record.

A command changes the key by a batch of modifications. Sorted by what they
do to the data versions, a command writes

* modifications that keep them (`KeepsVersions`): a lock whose pointer is
  true, a new `Rollback` record where there is none, the overlapped-rollback
  flag on a record with a fence that is true, the removal of a `Rollback`
  record; and
* commit records (`CommitRecord`): a `Put`, `Delete` or `Lock` record that
  carries a pointer true of the whole column.

A batch of the first kind keeps the invariant (`inv_applyModifies_keeps`).
A batch with commit records keeps it when the lock is gone afterwards and the
new versions land on top (`NewVersionsOnTop`: every new `Put`, `Delete` or
`Lock` record lies above every other one and replaces none):
`inv_applyModifies_commit`. The source ensures the second condition by its
write-conflict checks and by its timestamps; a prewrite that skips the check
can break it. `Batch` adds what the readers of values need (`KeyInv`), and
`Run` carries both over every run of commands from the empty key
(`reaches_keyInv`).

Results:
* `inv_applyModifies_keeps`, `inv_applyModifies_commit`: the two kinds of
  batches keep the invariant.
-/
namespace Tikv.Mvcc
open Tikv.Codec Tikv.TxnTypes

/-- The pointers of a key are true. -/
structure LastChangeInv (k : KeyState) : Prop where
  records : ∀ c w, k.writes.get? c = some w → PointerOk k.writes c w.lastChange
  lock : ∀ l, k.lock = some l → PointerOk k.writes ⊤ l.lastChange
  rollback : ∀ c w, k.writes.get? c = some w → w.writeType = .rollback →
    w.startTs = c ∧ w.lastChange = .unknown
  fence : ∀ c w, k.writes.get? c = some w → FenceOk k.writes c w.gcFence

theorem inv_empty : LastChangeInv KeyState.empty where
  records _ _ h := by simp [KeyState.empty] at h
  lock _ h := by simp [KeyState.empty] at h
  rollback _ _ h := by simp [KeyState.empty] at h
  fence _ _ h := by simp [KeyState.empty] at h

/-! ## What a batch may do -/

/-- A new `Rollback` record at its own `start_ts`, where there is none. -/
def RollbackNew (k : KeyState) (c : TimeStamp) (w : Write) : Prop :=
  w.writeType = .rollback ∧ w.startTs = c ∧ w.lastChange = .unknown ∧ w.gcFence = none ∧
    k.writes.get? c = none

/-- The overlapped-rollback flag set on the record at `c`, with a true fence. -/
def OverlappedFlag (k : KeyState) (c : TimeStamp) (w : Write) : Prop :=
  ∃ w₀ g, k.writes.get? c = some w₀ ∧ w = w₀.setOverlappedRollback true g ∧ FenceOk k.writes c g

/-- A commit record: no `Rollback`, no fence, and a pointer true of the whole
column. -/
def CommitRecord (k : KeyState) (w : Write) : Prop :=
  w.writeType ≠ .rollback ∧ w.gcFence = none ∧ PointerOk k.writes ⊤ w.lastChange

/-- A modification that keeps the data versions of `k`. -/
def KeepsVersions (k : KeyState) : Modify → Prop
  | .putLock l => PointerOk k.writes ⊤ l.lastChange
  | .putWrite c w => RollbackNew k c w ∨ OverlappedFlag k c w
  | .deleteWrite c => ∃ w, k.writes.get? c = some w ∧ w.writeType = .rollback
  | _ => True

/-- A modification a command with commit records may write. -/
def Allowed (k : KeyState) : Modify → Prop
  | .putWrite c w => KeepsVersions k (.putWrite c w) ∨ CommitRecord k w
  | m => KeepsVersions k m

theorem Allowed.of_keeps {k : KeyState} {m : Modify} (h : KeepsVersions k m) : Allowed k m := by
  cases m <;> first | exact .inl h | exact h

/-- Every new `Put`, `Delete` or `Lock` record of `k'` lies above every other
one and takes the place of none of `k`; a record kept with its type and
pointer is not new. -/
def NewVersionsOnTop (k k' : KeyState) : Prop :=
  ∀ c w, k'.writes.get? c = some w → w.writeType ≠ .rollback →
    (∃ w₀, k.writes.get? c = some w₀ ∧ w₀.writeType = w.writeType ∧
      w₀.lastChange = w.lastChange) ∨
    ((∀ w₀, k.writes.get? c = some w₀ → w₀.writeType = .rollback) ∧
      ∀ q w', k'.writes.get? q = some w' → w'.writeType ≠ .rollback → q ≠ c → q < c)

/-! ## Records after a batch -/

section Batch

variable {k : KeyState} {ms : List Modify}

/-- What the record at `c` is after a batch of allowed modifications. -/
theorem record_cases (hms : ∀ m ∈ ms, Allowed k m) (c : TimeStamp) :
    (k.applyModifies ms).writes.get? c = k.writes.get? c ∨
      (∃ w, (k.applyModifies ms).writes.get? c = some w ∧
        (RollbackNew k c w ∨ OverlappedFlag k c w ∨ CommitRecord k w)) ∨
      ((k.applyModifies ms).writes.get? c = none ∧
        ∃ w, k.writes.get? c = some w ∧ w.writeType = .rollback) := by
  rcases applyModifies_writes_get? k ms c with h | ⟨w, hw, h⟩ | ⟨hd, h⟩
  · exact .inl h
  · refine .inr (.inl ⟨w, h, ?_⟩)
    rcases hms _ hw with (h' | h') | h'
    · exact .inl h'
    · exact .inr (.inl h')
    · exact .inr (.inr h')
  · exact .inr (.inr ⟨h, hms _ hd⟩)

theorem setOverlappedRollback_writeType (w : Write) (b : Bool) (g : Option TimeStamp) :
    (w.setOverlappedRollback b g).writeType = w.writeType := rfl

theorem setOverlappedRollback_lastChange (w : Write) (b : Bool) (g : Option TimeStamp) :
    (w.setOverlappedRollback b g).lastChange = w.lastChange := rfl

theorem setOverlappedRollback_startTs (w : Write) (b : Bool) (g : Option TimeStamp) :
    (w.setOverlappedRollback b g).startTs = w.startTs := rfl

/-- A `Put`, `Delete` or `Lock` record stays one after a batch. -/
theorem nonRollback_stays (hms : ∀ m ∈ ms, Allowed k m) {c : TimeStamp} {w₀ : Write}
    (h₀ : k.writes.get? c = some w₀) (hw₀ : w₀.writeType ≠ .rollback) :
    ∃ w, (k.applyModifies ms).writes.get? c = some w ∧ w.writeType ≠ .rollback := by
  rcases record_cases hms c with h | ⟨w, h, hnew | ⟨w₁, g, h₁, rfl, -⟩ | hcommit⟩ | ⟨-, w₁, h₁, hr⟩
  · exact ⟨w₀, h.trans h₀, hw₀⟩
  · rw [hnew.2.2.2.2] at h₀
    cases h₀
  · rw [h₀] at h₁
    cases h₁
    exact ⟨_, h, hw₀⟩
  · exact ⟨w, h, hcommit.1⟩
  · rw [h₀] at h₁
    cases h₁
    exact absurd hr hw₀

/-- A data version that a batch changes is a new record on top. -/
theorem dataVersionAt_changed (hms : ∀ m ∈ ms, Allowed k m)
    (htop : NewVersionsOnTop k (k.applyModifies ms)) {q : TimeStamp}
    (hq : dataVersionAt (k.applyModifies ms).writes q ≠ dataVersionAt k.writes q) :
    dataVersionAt k.writes q = none ∧
      ∃ w, (k.applyModifies ms).writes.get? q = some w ∧ w.writeType ≠ .rollback ∧
        ∀ q' w', (k.applyModifies ms).writes.get? q' = some w' → w'.writeType ≠ .rollback →
          q' ≠ q → q' < q := by
  rcases record_cases hms q with h | ⟨w, h, hnew | ⟨w₀, g, h₀, rfl, -⟩ | hcommit⟩ | ⟨h, w₀, h₀, hr⟩
  · exact absurd (by simp only [dataVersionAt, h]) hq
  · -- a new `Rollback` record where none was
    have : dataVersionAt (k.applyModifies ms).writes q = none :=
      dataVersionAt_of_not_data h (.inr hnew.1)
    rw [this, dataVersionAt_of_get?_none hnew.2.2.2.2] at hq
    exact absurd rfl hq
  · -- the flag keeps the type
    rw [dataVersionAt_of_get? h, dataVersionAt_of_get? h₀, setOverlappedRollback_writeType] at hq
    exact absurd rfl hq
  · rcases htop q w h hcommit.1 with ⟨w₀, h₀, htype, -⟩ | ⟨hold, habove⟩
    · rw [dataVersionAt_of_get? h, dataVersionAt_of_get? h₀, htype] at hq
      exact absurd rfl hq
    · refine ⟨?_, w, h, hcommit.1, habove⟩
      cases h₀ : k.writes.get? q with
      | none => exact dataVersionAt_of_get?_none h₀
      | some w₀ => exact dataVersionAt_of_not_data h₀ (.inr (hold w₀ h₀))
  · -- a removed `Rollback` record
    rw [dataVersionAt_of_get?_none h, dataVersionAt_of_not_data h₀ (.inr hr)] at hq
    exact absurd rfl hq

/-- Below a `Put`, `Delete` or `Lock` record of the new state the data
versions are the old ones: a changed one would be the new top. -/
theorem dataVersionAt_same_below (hms : ∀ m ∈ ms, Allowed k m)
    (htop : NewVersionsOnTop k (k.applyModifies ms)) {c : TimeStamp} {w : Write}
    (hw : (k.applyModifies ms).writes.get? c = some w) (hwt : w.writeType ≠ .rollback) :
    ∀ q, q < c → dataVersionAt (k.applyModifies ms).writes q = dataVersionAt k.writes q := by
  intro q hqc
  by_contra hne
  obtain ⟨-, -, -, -, habove⟩ := dataVersionAt_changed hms htop hne
  exact absurd (habove c w hw hwt (ne_of_gt hqc)) (not_lt.mpr (le_of_lt hqc))

/-- A fence stays true: the data version it names is not changed by a batch
whose new versions land on top. -/
theorem FenceOk.after (hms : ∀ m ∈ ms, Allowed k m)
    (htop : NewVersionsOnTop k (k.applyModifies ms)) {c : TimeStamp} {g : Option TimeStamp}
    (h : FenceOk k.writes c g) : FenceOk (k.applyModifies ms).writes c g := by
  cases g with
  | none => trivial
  | some g =>
    intro hg0
    obtain ⟨hcg, hdata⟩ := h hg0
    refine ⟨hcg, fun hnone => hdata ?_⟩
    by_contra hne
    have hchanged : dataVersionAt (k.applyModifies ms).writes g ≠ dataVersionAt k.writes g := by
      rw [hnone]
      exact Ne.symm hne
    exact hne (dataVersionAt_changed hms htop hchanged).1

/-- A pointer true below a `Put`, `Delete` or `Lock` record of the new state
stays true. -/
theorem PointerOk.after (hms : ∀ m ∈ ms, Allowed k m)
    (htop : NewVersionsOnTop k (k.applyModifies ms)) {c : TimeStamp} {w : Write}
    (hw : (k.applyModifies ms).writes.get? c = some w) (hwt : w.writeType ≠ .rollback)
    {lc : LastChange} (h : PointerOk k.writes c lc) : PointerOk (k.applyModifies ms).writes c lc :=
  h.congr fun q hq => dataVersionAt_same_below hms htop hw hwt q (WithTop.coe_lt_coe.mp hq)

theorem records_after (hinv : LastChangeInv k) (hms : ∀ m ∈ ms, Allowed k m)
    (htop : NewVersionsOnTop k (k.applyModifies ms)) (c : TimeStamp) (w : Write)
    (hw : (k.applyModifies ms).writes.get? c = some w) :
    PointerOk (k.applyModifies ms).writes c w.lastChange := by
  -- a `Rollback` record carries no pointer
  have hold : ∀ w₀, k.writes.get? c = some w₀ → w₀.writeType = w.writeType →
      w₀.lastChange = w.lastChange → PointerOk (k.applyModifies ms).writes c w.lastChange := by
    intro w₀ h₀ htype hlc
    by_cases hr : w.writeType = .rollback
    · rw [← hlc, (hinv.rollback c w₀ h₀ (htype.trans hr)).2]
      trivial
    · rw [← hlc]
      exact PointerOk.after hms htop hw hr (hinv.records c w₀ h₀)
  rcases record_cases hms c with h | ⟨w', h, hnew | ⟨w₀, g, h₀, rfl, -⟩ | hcommit⟩ | ⟨h, -⟩
  · exact hold w (h ▸ hw) rfl rfl
  · rw [hw] at h
    cases h
    rw [hnew.2.2.1]
    trivial
  · rw [hw] at h
    cases h
    exact hold w₀ h₀ rfl rfl
  · rw [hw] at h
    cases h
    rcases htop c w hw hcommit.1 with ⟨w₀, h₀, htype, hlc⟩ | ⟨hrb, habove⟩
    · exact hold w₀ h₀ htype hlc
    · -- the new top: its pointer, true of the old column, is true below it
      refine PointerOk.of_top (fun q hcq => ?_) (dataVersionAt_same_below hms htop hw hcommit.1)
        hcommit.2.2
      rcases eq_or_lt_of_le hcq with rfl | hlt
      · cases h₀ : k.writes.get? c with
        | none => exact dataVersionAt_of_get?_none h₀
        | some w₀ => exact dataVersionAt_of_not_data h₀ (.inr (hrb w₀ h₀))
      · cases h₀ : k.writes.get? q with
        | none => exact dataVersionAt_of_get?_none h₀
        | some w₀ =>
          by_cases hr₀ : w₀.writeType = .rollback
          · exact dataVersionAt_of_not_data h₀ (.inr hr₀)
          · obtain ⟨w', hw', hwt'⟩ := nonRollback_stays hms h₀ hr₀
            exact absurd (habove q w' hw' hwt' (ne_of_gt hlt)) (not_lt.mpr (le_of_lt hlt))
  · rw [hw] at h
    cases h

theorem rollback_after (hinv : LastChangeInv k) (hms : ∀ m ∈ ms, Allowed k m) (c : TimeStamp)
    (w : Write) (hw : (k.applyModifies ms).writes.get? c = some w) (hr : w.writeType = .rollback) :
    w.startTs = c ∧ w.lastChange = .unknown := by
  rcases record_cases hms c with h | ⟨w', h, hnew | ⟨w₀, g, h₀, rfl, -⟩ | hcommit⟩ | ⟨h, -⟩
  · exact hinv.rollback c w (h ▸ hw) hr
  · rw [hw] at h
    cases h
    exact ⟨hnew.2.1, hnew.2.2.1⟩
  · rw [hw] at h
    cases h
    exact hinv.rollback c w₀ h₀ hr
  · rw [hw] at h
    cases h
    exact absurd hr hcommit.1
  · rw [hw] at h
    cases h

theorem fence_after (hinv : LastChangeInv k) (hms : ∀ m ∈ ms, Allowed k m)
    (htop : NewVersionsOnTop k (k.applyModifies ms)) (c : TimeStamp) (w : Write)
    (hw : (k.applyModifies ms).writes.get? c = some w) :
    FenceOk (k.applyModifies ms).writes c w.gcFence := by
  rcases record_cases hms c with h | ⟨w', h, hnew | ⟨w₀, g, h₀, rfl, hg⟩ | hcommit⟩ | ⟨h, -⟩
  · exact (hinv.fence c w (h ▸ hw)).after hms htop
  · rw [hw] at h
    cases h
    rw [hnew.2.2.2.1]
    trivial
  · rw [hw] at h
    cases h
    exact hg.after hms htop
  · rw [hw] at h
    cases h
    rw [hcommit.2.1]
    trivial
  · rw [hw] at h
    cases h

/-- A batch with commit records keeps the invariant when its new versions
land on top and the lock is gone. -/
theorem inv_applyModifies_commit (hinv : LastChangeInv k) (hms : ∀ m ∈ ms, Allowed k m)
    (htop : NewVersionsOnTop k (k.applyModifies ms)) (hlock : (k.applyModifies ms).lock = none) :
    LastChangeInv (k.applyModifies ms) where
  records := records_after hinv hms htop
  lock l hl := by rw [hlock] at hl; cases hl
  rollback := rollback_after hinv hms
  fence := fence_after hinv hms htop

/-! ## Batches that keep the data versions -/

theorem record_cases_keeps (hms : ∀ m ∈ ms, KeepsVersions k m) (c : TimeStamp) :
    (k.applyModifies ms).writes.get? c = k.writes.get? c ∨
      (∃ w, (k.applyModifies ms).writes.get? c = some w ∧
        (RollbackNew k c w ∨ OverlappedFlag k c w)) ∨
      ((k.applyModifies ms).writes.get? c = none ∧
        ∃ w, k.writes.get? c = some w ∧ w.writeType = .rollback) := by
  rcases applyModifies_writes_get? k ms c with h | ⟨w, hw, h⟩ | ⟨hd, h⟩
  · exact .inl h
  · exact .inr (.inl ⟨w, h, hms _ hw⟩)
  · exact .inr (.inr ⟨h, hms _ hd⟩)

/-- Such a batch changes no data version. -/
theorem dataVersionAt_keeps (hms : ∀ m ∈ ms, KeepsVersions k m) (q : TimeStamp) :
    dataVersionAt (k.applyModifies ms).writes q = dataVersionAt k.writes q := by
  rcases record_cases_keeps hms q with h | ⟨w, h, hnew | ⟨w₀, g, h₀, rfl, -⟩⟩ | ⟨h, w₀, h₀, hr⟩
  · simp only [dataVersionAt, h]
  · rw [dataVersionAt_of_not_data h (.inr hnew.1), dataVersionAt_of_get?_none hnew.2.2.2.2]
  · rw [dataVersionAt_of_get? h, dataVersionAt_of_get? h₀, setOverlappedRollback_writeType]
  · rw [dataVersionAt_of_get?_none h, dataVersionAt_of_not_data h₀ (.inr hr)]

/-- Such a batch has no new versions. -/
theorem newVersionsOnTop_keeps (hms : ∀ m ∈ ms, KeepsVersions k m) :
    NewVersionsOnTop k (k.applyModifies ms) := by
  intro c w hw hwt
  left
  rcases record_cases_keeps hms c with h | ⟨w', h, hnew | ⟨w₀, g, h₀, rfl, -⟩⟩ | ⟨h, -⟩
  · exact ⟨w, h ▸ hw, rfl, rfl⟩
  · rw [hw] at h
    cases h
    exact absurd hnew.1 hwt
  · rw [hw] at h
    cases h
    exact ⟨w₀, h₀, rfl, rfl⟩
  · rw [hw] at h
    cases h

/-- A batch that keeps the data versions keeps the invariant. -/
theorem inv_applyModifies_keeps (hinv : LastChangeInv k) (hms : ∀ m ∈ ms, KeepsVersions k m) :
    LastChangeInv (k.applyModifies ms) := by
  have hall : ∀ m ∈ ms, Allowed k m := fun m hm => Allowed.of_keeps (hms m hm)
  have htop := newVersionsOnTop_keeps hms
  refine ⟨records_after hinv hall htop, fun l hl => ?_, rollback_after hinv hall,
    fence_after hinv hall htop⟩
  have hsame : ∀ q : TimeStamp, (q : WithTop TimeStamp) < ⊤ →
      dataVersionAt (k.applyModifies ms).writes q = dataVersionAt k.writes q :=
    fun q _ => dataVersionAt_keeps hms q
  rcases applyModifies_lock k ms with h | ⟨l', hl', h⟩ | ⟨-, h⟩
  · exact (hinv.lock l (h ▸ hl)).congr hsame
  · rw [hl] at h
    cases h
    exact (hms _ hl').congr hsame
  · rw [hl] at h
    cases h

end Batch

end Tikv.Mvcc
