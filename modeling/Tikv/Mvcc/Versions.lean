import Mathlib.Order.WithBot
import Tikv.Mvcc.Reader

/-!
# What the records of a key say, and what the reader makes of them

A key's value changes only at its data versions, the `Put` and `Delete`
records; `Lock` and `Rollback` records change nothing. `dataVersionAt` is that
view of the write column. A `last_change` pointer of a record or of a lock
claims something about the data versions below it (`PointerOk`): `Exist{ts}`
that the newest one lies at `ts`, `NotExist` that the newest one, if any, is a
`Delete`. The bound is the record's `commit_ts`, or `⊤` for a lock, which
speaks of the whole column.

When every record's pointer says the truth, the reader's walk finds the
newest data version (`getWriteWithCommitTs_sound`), and so
`next_last_change_info` computes a true pointer from the newest record
(`nextLastChangeInfo_pointerOk`). `get_txn_commit_record` is specified by
what its scan from the newest record has passed (`getTxnCommitRecord_spec`).

Results:
* `PointerOk.congr`: a pointer stays true while the data versions below its
  bound stay.
* `getWriteWithCommitTs_sound`: with true pointers and GC fences out of the
  walk's way, `get_write_with_commit_ts` returns the newest `Put` at or below
  its timestamp, or `none` when the newest data version there is a `Delete`.
* `getWriteWithCommitTs_eq_scan`: with no GC fence limit, the walk that jumps
  through pointers returns what the plain scan skipping `Lock` and `Rollback`
  records returns.
* `nextLastChangeInfo_pointerOk`: the pointer computed from the newest record
  is true of the whole column.
* `getTxnCommitRecord_spec`: the scan's answer, in terms of the records.
-/
namespace Tikv.Mvcc
open Tikv.Codec Tikv.TxnTypes

/-- The data version at `q`: the type of the `Put` or `Delete` record there,
if that is what lies at `q`. -/
def dataVersionAt (ws : VersionMap TimeStamp Write) (q : TimeStamp) : Option WriteType :=
  match ws.get? q with
  | some w => if w.writeType = .put ∨ w.writeType = .delete then some w.writeType else none
  | none => none

theorem dataVersionAt_of_get? {ws : VersionMap TimeStamp Write} {q : TimeStamp} {w : Write}
    (h : ws.get? q = some w) :
    dataVersionAt ws q =
      if w.writeType = .put ∨ w.writeType = .delete then some w.writeType else none := by
  simp [dataVersionAt, h]

theorem dataVersionAt_of_get?_none {ws : VersionMap TimeStamp Write} {q : TimeStamp}
    (h : ws.get? q = none) : dataVersionAt ws q = none := by
  simp [dataVersionAt, h]

/-- A `Lock` or `Rollback` record is no data version. -/
theorem dataVersionAt_of_not_data {ws : VersionMap TimeStamp Write} {q : TimeStamp} {w : Write}
    (h : ws.get? q = some w) (hw : w.writeType = .lock ∨ w.writeType = .rollback) :
    dataVersionAt ws q = none := by
  rw [dataVersionAt_of_get? h]
  rcases hw with hw | hw <;> simp [hw]

theorem exists_get?_of_dataVersionAt {ws : VersionMap TimeStamp Write} {q : TimeStamp}
    (h : dataVersionAt ws q ≠ none) :
    ∃ w, ws.get? q = some w ∧ (w.writeType = .put ∨ w.writeType = .delete) := by
  unfold dataVersionAt at h
  split at h
  · rename_i w hw
    split at h
    · exact ⟨w, hw, ‹_›⟩
    · exact absurd rfl h
  · exact absurd rfl h

/-- A data version is a record of its type. -/
theorem get?_of_dataVersionAt {ws : VersionMap TimeStamp Write} {q : TimeStamp} {t : WriteType}
    (h : dataVersionAt ws q = some t) :
    ∃ w, ws.get? q = some w ∧ w.writeType = t ∧ (t = .put ∨ t = .delete) := by
  unfold dataVersionAt at h
  split at h
  · rename_i w hw
    split at h
    · cases h
      rename_i hdata
      exact ⟨w, hw, rfl, hdata⟩
    · cases h
  · cases h

/-! ## True pointers -/

/-- What a `last_change` below `bound` claims of the data versions: `Exist{p}`
that the newest one below `bound` lies at `p`; `NotExist` that no `Put` below
`bound` is newer than every `Delete` below `bound`. -/
def PointerOk (ws : VersionMap TimeStamp Write) (bound : WithTop TimeStamp) : LastChange → Prop
  | .exist p _ =>
    (p : WithTop TimeStamp) < bound ∧ dataVersionAt ws p ≠ none ∧
      ∀ q : TimeStamp, p < q → (q : WithTop TimeStamp) < bound → dataVersionAt ws q = none
  | .notExist =>
    ∀ q : TimeStamp, (q : WithTop TimeStamp) < bound → dataVersionAt ws q = some .put →
      ∃ q' : TimeStamp, q < q' ∧ (q' : WithTop TimeStamp) < bound ∧
        dataVersionAt ws q' = some .delete
  | .unknown => True

@[simp]
theorem pointerOk_unknown (ws : VersionMap TimeStamp Write) (bound : WithTop TimeStamp) :
    PointerOk ws bound .unknown := trivial

/-- A pointer stays true while the data versions below its bound stay. -/
theorem PointerOk.congr {ws ws' : VersionMap TimeStamp Write} {bound : WithTop TimeStamp}
    {lc : LastChange}
    (hsame : ∀ q : TimeStamp, (q : WithTop TimeStamp) < bound →
      dataVersionAt ws' q = dataVersionAt ws q)
    (h : PointerOk ws bound lc) : PointerOk ws' bound lc := by
  cases lc with
  | unknown => trivial
  | exist p n =>
    obtain ⟨hp, hdata, hnone⟩ := h
    refine ⟨hp, by rwa [hsame p hp], fun q hpq hq => ?_⟩
    rw [hsame q hq]
    exact hnone q hpq hq
  | notExist =>
    intro q hq hput
    rw [hsame q hq] at hput
    obtain ⟨q', hqq', hq', hdel⟩ := h q hq hput
    exact ⟨q', hqq', hq', by rwa [hsame q' hq']⟩

/-- A pointer true of the whole column is true below a record put above all
of it. -/
theorem PointerOk.of_top {ws ws' : VersionMap TimeStamp Write} {c : TimeStamp} {lc : LastChange}
    (habove : ∀ q, c ≤ q → dataVersionAt ws q = none)
    (hsame : ∀ q, q < c → dataVersionAt ws' q = dataVersionAt ws q)
    (h : PointerOk ws ⊤ lc) : PointerOk ws' c lc := by
  have hlt : ∀ q, dataVersionAt ws q ≠ none → q < c := fun q hq =>
    lt_of_not_ge fun hcq => hq (habove q hcq)
  cases lc with
  | unknown => trivial
  | exist p n =>
    obtain ⟨-, hdata, hnone⟩ := h
    have hpc := hlt p hdata
    refine ⟨WithTop.coe_lt_coe.mpr hpc, by rwa [hsame p hpc], fun q hpq hq => ?_⟩
    have hqc := WithTop.coe_lt_coe.mp hq
    rw [hsame q hqc]
    exact hnone q hpq (WithTop.coe_lt_top q)
  | notExist =>
    intro q hq hput
    have hqc := WithTop.coe_lt_coe.mp hq
    rw [hsame q hqc] at hput
    obtain ⟨q', hqq', -, hdel⟩ := h q (WithTop.coe_lt_top q) hput
    have hq'c := hlt q' (by rw [hdel]; exact Option.some_ne_none _)
    exact ⟨q', hqq', WithTop.coe_lt_coe.mpr hq'c, by rwa [hsame q' hq'c]⟩

/-! ## The walk of `get_write_with_commit_ts` -/

/-- What `get_write_with_commit_ts` at `ts` should return: the newest data
version at or below `ts` when it is a `Put`, and `none` when there is none or
it is a `Delete`. -/
def WalkResult (ws : VersionMap TimeStamp Write) (ts : TimeStamp) :
    Option (Write × TimeStamp) → Prop
  | some (w, p) =>
    ws.get? p = some w ∧ w.writeType = .put ∧ p ≤ ts ∧
      ∀ q, p < q → q ≤ ts → dataVersionAt ws q = none
  | none =>
    ∀ q, q ≤ ts → dataVersionAt ws q = some .put →
      ∃ q', q < q' ∧ q' ≤ ts ∧ dataVersionAt ws q' = some .delete

/-- The walk ends on the data version at `p`, the newest at or below `ts`:
the result is right for `ts`. -/
theorem walkResult_of_data {ws : VersionMap TimeStamp Write} {ts p : TimeStamp} {w : Write}
    (hget : ws.get? p = some w) (hdata : w.writeType = .put ∨ w.writeType = .delete)
    (hpts : p ≤ ts) (hnone : ∀ q, p < q → q ≤ ts → dataVersionAt ws q = none) :
    WalkResult ws ts (if w.writeType = .put then some (w, p) else none) := by
  rcases hdata with hput | hdel
  · simp only [hput, if_true]
    exact ⟨hget, hput, hpts, hnone⟩
  · simp only [hdel, reduceCtorEq, if_false]
    intro q hq hqput
    have hqp : q < p := by
      rcases lt_trichotomy q p with h | rfl | h
      · exact h
      · rw [dataVersionAt_of_get? hget, hdel] at hqput
        simp at hqput
      · rw [hnone q h hq] at hqput
        cases hqput
    refine ⟨p, hqp, hpts, ?_⟩
    rw [dataVersionAt_of_get? hget, hdel]
    simp

/-- The result for `ts` is the result for a lower `ts'` when no data version
lies between them. -/
theorem WalkResult.lift {ws : VersionMap TimeStamp Write} {ts ts' : TimeStamp}
    {r : Option (Write × TimeStamp)} (hle : ts' ≤ ts)
    (hnone : ∀ q, ts' < q → q ≤ ts → dataVersionAt ws q = none) (h : WalkResult ws ts' r) :
    WalkResult ws ts r := by
  match r, h with
  | some (w, p), ⟨hget, hput, hp, hbetween⟩ =>
    refine ⟨hget, hput, le_trans hp hle, fun q hpq hq => ?_⟩
    rcases le_or_gt q ts' with hq' | hq'
    · exact hbetween q hpq hq'
    · exact hnone q hq' hq
  | none, h =>
    intro q hq hput
    rcases le_or_gt q ts' with hq' | hq'
    · obtain ⟨q', hqq', hq'ts, hdel⟩ := h q hq' hput
      exact ⟨q', hqq', le_trans hq'ts hle, hdel⟩
    · rw [hnone q hq' hq] at hput
      cases hput

/-- Seeking below a record at `c > 0` splits the timestamps at `c`. -/
theorem le_sub_one_iff {c : TimeStamp} (hpos : 0 < c) (q : TimeStamp) : q ≤ c - 1 ↔ q < c := by
  have hpos' : 0 < c.toNat := by simpa [UInt64.lt_iff_toNat_lt] using hpos
  have hsub : (c - 1).toNat = c.toNat - 1 := by
    rw [UInt64.toNat_sub_of_le _ _ (by rw [UInt64.le_iff_toNat_le]; simp only [UInt64.toNat_one]; omega)]
    rfl
  rw [UInt64.le_iff_toNat_le, UInt64.lt_iff_toNat_lt, hsub]
  omega

theorem prev_ok {c ts : TimeStamp} (h : TimeStamp.prev c = .ok ts) : 0 < c ∧ ts = c - 1 := by
  unfold TimeStamp.prev at h
  split at h
  · cases h
    exact ⟨‹_›, rfl⟩
  · cases h

section Walk

variable {snap : KeyState} {gcFenceLimit : Option TimeStamp} {ts : TimeStamp}

/-- A record whose GC fence does not stop a walk with this limit. -/
def FencePasses (gcFenceLimit : Option TimeStamp) (w : Write) : Prop :=
  ∀ l ∈ gcFenceLimit, w.asRef.checkGcFenceAsLatestVersion l = true

theorem FencePasses.any_eq_false {w : Write} (h : FencePasses gcFenceLimit w) :
    gcFenceLimit.any (fun l => !w.asRef.checkGcFenceAsLatestVersion l) = false := by
  cases gcFenceLimit with
  | none => rfl
  | some l => simp [h l rfl]

/-- The walk from `seekTs`, below which it has passed no data version up to
`ts`, returns what is right for `ts`. The induction follows the records from
the newest at or below `seekTs`. -/
theorem getWriteWithCommitTs_go_sound
    (hptr : ∀ c w, snap.writes.get? c = some w → (w.writeType = .lock ∨ w.writeType = .rollback) →
      PointerOk snap.writes c w.lastChange)
    (hfence : ∀ c w, snap.writes.get? c = some w → c ≤ ts →
      (∀ q, c < q → q ≤ ts → dataVersionAt snap.writes q = none) → FencePasses gcFenceLimit w)
    (seekTs : TimeStamp) (hseek : seekTs ≤ ts)
    (hpassed : ∀ q, seekTs < q → q ≤ ts → dataVersionAt snap.writes q = none)
    {r : Option (Write × TimeStamp)}
    (h : getWriteWithCommitTs.go snap gcFenceLimit seekTs (snap.writes.below seekTs) = .ok r) :
    WalkResult snap.writes ts r := by
  generalize hl : snap.writes.below seekTs = l at h
  induction l generalizing seekTs with
  | nil =>
    simp only [getWriteWithCommitTs.go, Except.ok.injEq] at h
    subst h
    intro q hq hput
    rcases le_or_gt q seekTs with hq' | hq'
    · rw [dataVersionAt_of_get?_none (VersionMap.get?_of_below_eq_nil hl q hq')] at hput
      cases hput
    · rw [hpassed q hq' hq] at hput
      cases hput
  | cons e rest ih =>
    obtain ⟨c, w⟩ := e
    obtain ⟨hget, hcs, hempty⟩ := VersionMap.get?_of_below_eq_cons hl
    -- no data version between the record and `ts`
    have habove : ∀ q, c < q → q ≤ ts → dataVersionAt snap.writes q = none := by
      intro q hcq hq
      rcases le_or_gt q seekTs with hq' | hq'
      · exact dataVersionAt_of_get?_none (hempty q hcq hq')
      · exact hpassed q hq' hq
    have hcts := le_trans hcs hseek
    have hpass := (hfence c w hget hcts habove).any_eq_false
    -- going on below the record: the walk from `c - 1` has passed nothing
    have hnext : writeTurn gcFenceLimit c w = .next →
        (∀ q, c ≤ q → q ≤ ts → dataVersionAt snap.writes q = none) → WalkResult snap.writes ts r := by
      intro hturn habove'
      rw [getWriteWithCommitTs_go_next snap gcFenceLimit seekTs c w rest hturn] at h
      split_ifs at h with hzero
      · cases h
        intro q hq hput
        have hc0 : c = 0 := le_antisymm (hzero ▸ hcs) UInt64.zero_le
        rw [habove' q (hc0 ▸ UInt64.zero_le) hq] at hput
        cases hput
      · cases hprev : TimeStamp.prev c with
        | error e => rw [hprev] at h; cases h
        | ok ts' =>
          obtain ⟨hpos, rfl⟩ := prev_ok hprev
          rw [hprev] at h
          have hrest := (seekWrite_prev hl hpos).1
          refine ih (c - 1) (le_trans (le_of_lt ((le_sub_one_iff hpos _).mp le_rfl)) hcts)
            (fun q hq hqts => habove' q ?_ hqts) hrest h
          exact not_lt.mp fun hqc => (not_lt.mpr ((le_sub_one_iff hpos q).mpr hqc)) hq
    simp only [getWriteWithCommitTs.go, writeTurn, hpass, Bool.false_eq_true, if_false] at h
    cases hwt : w.writeType with
    | put =>
      simp only [hwt, Except.ok.injEq] at h
      subst h
      have := walkResult_of_data hget (.inl hwt) hcts habove
      simpa [hwt] using this
    | delete =>
      simp only [hwt, Except.ok.injEq] at h
      subst h
      have := walkResult_of_data hget (.inr hwt) hcts habove
      simpa [hwt] using this
    | lock | rollback =>
      have hnd : dataVersionAt snap.writes c = none :=
        dataVersionAt_of_not_data hget (by simp [hwt])
      -- nothing from the record up to `ts`
      have habove' : ∀ q, c ≤ q → q ≤ ts → dataVersionAt snap.writes q = none := by
        intro q hcq hq
        rcases eq_or_lt_of_le hcq with rfl | hlt
        · exact hnd
        · exact habove q hlt hq
      have hp := hptr c w hget (by simp [hwt])
      cases hlc : w.lastChange with
      | notExist =>
        simp only [hwt, hlc, Except.ok.injEq] at h
        subst h
        rw [hlc] at hp
        intro q hq hput
        have hqc : q < c := lt_of_not_ge fun hcq => by rw [habove' q hcq hq] at hput; cases hput
        obtain ⟨q', hqq', hq'c, hdel⟩ := hp q (WithTop.coe_lt_coe.mpr hqc) hput
        exact ⟨q', hqq', le_trans (le_of_lt (WithTop.coe_lt_coe.mp hq'c)) hcts, hdel⟩
      | exist p n =>
        rw [hlc] at hp
        obtain ⟨hpc, hpdata, hpnone⟩ := hp
        have hpc' := WithTop.coe_lt_coe.mp hpc
        -- no data version from `p` up to `ts` but `p` itself
        have hpabove : ∀ q, p < q → q ≤ ts → dataVersionAt snap.writes q = none := by
          intro q hpq hq
          rcases lt_or_ge q c with hqc | hcq
          · exact hpnone q hpq (WithTop.coe_lt_coe.mpr hqc)
          · exact habove' q hcq hq
        obtain ⟨t, w', hw', rfl, ht⟩ : ∃ t w', snap.writes.get? p = some w' ∧ w'.writeType = t ∧
            (t = .put ∨ t = .delete) := by
          cases hdv : dataVersionAt snap.writes p with
          | none => exact absurd hdv hpdata
          | some t =>
            obtain ⟨w', hw', ht, hdata⟩ := get?_of_dataVersionAt hdv
            exact ⟨t, w', hw', ht, hdata⟩
        have hpts := le_trans (le_of_lt hpc') hcts
        simp only [hwt, hlc] at h
        by_cases hbound : n ≥ SEEK_BOUND
        · -- the jump reads the record the pointer names
          simp only [if_pos hbound, hw', ht, if_true] at h
          have hpass' := (hfence p w' hw' hpts hpabove).any_eq_false
          rcases ht with ht | ht
          · simp only [hpass', Bool.false_eq_true, if_false, ht, WriteTurn.result,
              Except.ok.injEq] at h
            subst h
            have := walkResult_of_data hw' (.inl ht) hpts hpabove
            simpa [ht] using this
          · simp only [hpass', Bool.false_eq_true, if_false, ht, WriteTurn.result,
              Except.ok.injEq] at h
            subst h
            have := walkResult_of_data hw' (.inr ht) hpts hpabove
            simpa [ht] using this
        · exact hnext (by simp [writeTurn, hpass, hwt, hlc, hbound]) habove'
      | unknown => exact hnext (by simp [writeTurn, hpass, hwt, hlc]) habove'

theorem getWriteWithCommitTs_sound
    (hptr : ∀ c w, snap.writes.get? c = some w → (w.writeType = .lock ∨ w.writeType = .rollback) →
      PointerOk snap.writes c w.lastChange)
    (hfence : ∀ c w, snap.writes.get? c = some w → c ≤ ts →
      (∀ q, c < q → q ≤ ts → dataVersionAt snap.writes q = none) → FencePasses gcFenceLimit w)
    {r : Option (Write × TimeStamp)} (h : getWriteWithCommitTs snap ts gcFenceLimit = .ok r) :
    WalkResult snap.writes ts r :=
  getWriteWithCommitTs_go_sound hptr hfence ts le_rfl
    (fun _ hq hq' => absurd hq' (not_le.mpr hq)) h

/-- A walk whose pointers are true, and whose `Lock` and `Rollback` records
with no pointer lie above timestamp 0, ends without error: a jump lands on the
data version its pointer names, and below any other record there is a
timestamp to seek at. -/
theorem getWriteWithCommitTs_go_ok
    (hptr : ∀ c w, snap.writes.get? c = some w → (w.writeType = .lock ∨ w.writeType = .rollback) →
      PointerOk snap.writes c w.lastChange ∧ (w.lastChange = .unknown → 0 < c))
    (seekTs : TimeStamp) :
    ∃ r, getWriteWithCommitTs.go snap gcFenceLimit seekTs (snap.writes.below seekTs) = .ok r := by
  generalize hl : snap.writes.below seekTs = l
  induction l generalizing seekTs with
  | nil => exact ⟨none, rfl⟩
  | cons e rest ih =>
    obtain ⟨c, w⟩ := e
    obtain ⟨hget, -, -⟩ := VersionMap.get?_of_below_eq_cons hl
    cases hturn : writeTurn gcFenceLimit c w with
    | done r => exact ⟨r, by simp [getWriteWithCommitTs.go, hturn]⟩
    | jump p =>
      obtain ⟨hlr, n, hlc⟩ := writeTurn_eq_jump hturn
      have hp := (hptr c w hget hlr).1
      rw [hlc] at hp
      -- the pointer names a data version
      obtain ⟨w', hw', hdata⟩ := exists_get?_of_dataVersionAt hp.2.1
      exact ⟨_, getWriteWithCommitTs_jump_target snap gcFenceLimit seekTs c p w w' rest hturn hw'
        hdata⟩
    | next =>
      obtain ⟨hlr, hlc⟩ := writeTurn_eq_next hturn
      -- below the record there is a timestamp to seek at
      have hpos : 0 < c := by
        rcases hlc with hlc | ⟨p, n, hlc⟩
        · exact (hptr c w hget hlr).2 hlc
        · have hp := (hptr c w hget hlr).1
          rw [hlc] at hp
          exact lt_of_le_of_lt UInt64.zero_le (WithTop.coe_lt_coe.mp hp.1)
      by_cases hzero : seekTs = 0
      · exact ⟨none, by simp [getWriteWithCommitTs.go, hturn, hzero]⟩
      · obtain ⟨r, hr⟩ := ih (c - 1) (seekWrite_prev hl hpos).1
        refine ⟨r, ?_⟩
        simp only [getWriteWithCommitTs.go, hturn, hzero, if_false, TimeStamp.prev, if_pos hpos]
        exact hr

end Walk

/-! ## The pointer jumps against the plain scan -/

/-- The plain scan of records, newest first, that skips every `Lock` and
`Rollback` record and stops at the first `Put` or `Delete`. -/
def scanDataVersion : List (TimeStamp × Write) → Option (Write × TimeStamp)
  | [] => none
  | (c, w) :: rest =>
    match w.writeType with
    | .put => some (w, c)
    | .delete => none
    | .lock | .rollback => scanDataVersion rest

theorem dataVersionAt_of_put {ws : VersionMap TimeStamp Write} {q : TimeStamp} {w : Write}
    (h : ws.get? q = some w) (hput : w.writeType = .put) : dataVersionAt ws q = some .put := by
  rw [dataVersionAt_of_get? h, hput]
  simp

/-- At most one result is right for `ts`. -/
theorem WalkResult.unique {ws : VersionMap TimeStamp Write} {ts : TimeStamp}
    {r r' : Option (Write × TimeStamp)} (h : WalkResult ws ts r) (h' : WalkResult ws ts r') :
    r = r' := by
  -- a `Put` that the other side says a `Delete` lies above
  have hput_none : ∀ w p, WalkResult ws ts (some (w, p)) → WalkResult ws ts none → False := by
    rintro w p ⟨hget, hput, hp, hnone⟩ hnil
    obtain ⟨q', hpq', hq', hdel⟩ := hnil p hp (dataVersionAt_of_put hget hput)
    rw [hnone q' hpq' hq'] at hdel
    cases hdel
  match r, r', h, h' with
  | none, none, _, _ => rfl
  | some (w, p), none, h, h' => exact (hput_none w p h h').elim
  | none, some (w, p), h, h' => exact (hput_none w p h' h).elim
  | some (w, p), some (w', p'), ⟨hget, hput, hp, hnone⟩, ⟨hget', hput', hp', hnone'⟩ =>
    have hpp : p = p' := by
      rcases lt_trichotomy p p' with hlt | heq | hgt
      · have := hnone p' hlt hp'
        rw [dataVersionAt_of_put hget' hput'] at this
        cases this
      · exact heq
      · have := hnone' p hgt hp
        rw [dataVersionAt_of_put hget hput] at this
        cases this
    subst hpp
    rw [hget] at hget'
    cases hget'
    rfl

/-- The plain scan of the records at or below `ts` is right for `ts`. The
induction runs over the records left, `pre` being the `Lock` and `Rollback`
records already skipped. -/
theorem walkResult_scanDataVersion (ws : VersionMap TimeStamp Write) (ts : TimeStamp) :
    ∀ (l pre : List (TimeStamp × Write)), ws.below ts = pre ++ l →
      (∀ e ∈ pre, e.2.writeType = .lock ∨ e.2.writeType = .rollback) →
      WalkResult ws ts (scanDataVersion l) := by
  -- a data version at or below `ts` is one of `l`
  have hdata : ∀ (l pre : List (TimeStamp × Write)), ws.below ts = pre ++ l →
      (∀ e ∈ pre, e.2.writeType = .lock ∨ e.2.writeType = .rollback) →
      ∀ q, q ≤ ts → dataVersionAt ws q ≠ none → ∃ w, (q, w) ∈ l := by
    intro l pre hl hpre q hq hdv
    obtain ⟨w, hw, hd⟩ := exists_get?_of_dataVersionAt hdv
    have hmem : (q, w) ∈ pre ++ l := hl ▸ (VersionMap.mem_below ws ts q w).mpr ⟨hw, hq⟩
    rcases List.mem_append.mp hmem with hpre' | hl'
    · rcases hpre _ hpre' with h | h <;> rcases hd with h' | h' <;> rw [h] at h' <;> cases h'
    · exact ⟨w, hl'⟩
  intro l
  induction l with
  | nil =>
    intro pre hl hpre q hq hput
    obtain ⟨w, hw⟩ := hdata [] pre hl hpre q hq (by rw [hput]; simp)
    cases hw
  | cons e rest ih =>
    intro pre hl hpre
    obtain ⟨c, w⟩ := e
    have hmem : (c, w) ∈ ws.below ts := by rw [hl]; simp
    obtain ⟨hget, hcts⟩ := (VersionMap.mem_below ws ts c w).mp hmem
    -- the records left after `(c, w)` lie below it
    have hsorted : ∀ e ∈ rest, e.1 < c := by
      have := ws.below_sorted ts
      rw [hl, List.pairwise_append] at this
      exact fun e he => (List.pairwise_cons.mp this.2.1).1 e he
    have habove : ∀ q, c < q → q ≤ ts → dataVersionAt ws q = none := by
      intro q hcq hq
      by_contra hdv
      obtain ⟨w', hw'⟩ := hdata ((c, w) :: rest) pre hl hpre q hq hdv
      rcases List.mem_cons.mp hw' with heq | hrest
      · cases heq
        exact lt_irrefl c hcq
      · exact lt_asymm hcq (hsorted _ hrest)
    cases hwt : w.writeType with
    | put =>
      have := walkResult_of_data hget (.inl hwt) hcts habove
      simpa [scanDataVersion, hwt] using this
    | delete =>
      have := walkResult_of_data hget (.inr hwt) hcts habove
      simpa [scanDataVersion, hwt] using this
    | lock | rollback =>
      simp only [scanDataVersion, hwt]
      refine ih (pre ++ [(c, w)]) (by simp [hl]) fun e he => ?_
      rcases List.mem_append.mp he with he | he
      · exact hpre e he
      · rw [List.mem_singleton.mp he]
        simp [hwt]

/-- The last_change shortcut is sound: when every `Lock` and `Rollback`
record's pointer is true and those with no pointer lie above timestamp 0,
`get_write_with_commit_ts` with no GC fence limit returns what the plain scan
that skips every `Lock` and `Rollback` record returns. -/
theorem getWriteWithCommitTs_eq_scan (snap : KeyState) (ts : TimeStamp)
    (hptr : ∀ c w, snap.writes.get? c = some w → (w.writeType = .lock ∨ w.writeType = .rollback) →
      PointerOk snap.writes c w.lastChange ∧ (w.lastChange = .unknown → 0 < c)) :
    getWriteWithCommitTs snap ts none = .ok (scanDataVersion (snap.writes.below ts)) := by
  obtain ⟨r, hr⟩ : ∃ r, getWriteWithCommitTs.go snap none ts (snap.writes.below ts) = .ok r :=
    getWriteWithCommitTs_go_ok hptr ts
  have hwalk : WalkResult snap.writes ts r :=
    getWriteWithCommitTs_sound (fun c w hc hlr => (hptr c w hc hlr).1)
      (fun _ _ _ _ _ l hl => by simp at hl) hr
  rw [getWriteWithCommitTs, hr,
    hwalk.unique (walkResult_scanDataVersion snap.writes ts (snap.writes.below ts) [] rfl
      (by simp))]


/-- A `Lock` record at 20 whose pointer names the `Put` at 10 eight versions
down: the read at 25 jumps to it. -/
theorem getWriteWithCommitTs_eq_scan_jump :
    let put : Write := ⟨.put, 5, some [1], false, none, .unknown, 0⟩
    let lock : Write := ⟨.lock, 15, none, false, none, .exist 10 8, 0⟩
    let snap : KeyState := ⟨none, (VersionMap.empty.insert 10 put).insert 20 lock, .empty⟩
    getWriteWithCommitTs snap 25 none = .ok (some (put, 10)) := by
  intro put lock snap
  rw [getWriteWithCommitTs_eq_scan snap 25 ?_]
  · decide
  · intro c w hc hlr
    simp only [snap, VersionMap.get?_insert, VersionMap.get?_empty] at hc
    split_ifs at hc with h20 h10
    · subst h20
      cases hc
      refine ⟨⟨WithTop.coe_lt_coe.mpr (by decide), by decide, fun q h10q hq20 => ?_⟩, by simp [lock]⟩
      have hq20' : q ≠ 20 := ne_of_lt (WithTop.coe_lt_coe.mp hq20)
      simp [dataVersionAt, snap, hq20', (ne_of_lt h10q).symm]
    · cases hc
      simp [put] at hlr

/-- A `Lock` record at timestamp 0 with no pointer: the walk from 5 calls
`commit_ts.prev()` on it, whose assertion fails, where the plain scan finds
nothing. -/
theorem getWriteWithCommitTs_lock_at_zero_panics :
    let lock : Write := ⟨.lock, 0, none, false, none, .unknown, 0⟩
    let snap : KeyState := ⟨none, VersionMap.empty.insert 0 lock, .empty⟩
    getWriteWithCommitTs snap 5 none = .error .panicked ∧
      scanDataVersion (snap.writes.below 5) = none := by
  decide

/-! ## `next_last_change_info` from the newest record -/

/-- A fence that names a data version above its record. -/
def FenceOk (ws : VersionMap TimeStamp Write) (c : TimeStamp) : Option TimeStamp → Prop
  | some g => g ≠ 0 → c < g ∧ dataVersionAt ws g ≠ none
  | none => True

theorem makeExist_ok {ts n : TimeStamp} {lc : LastChange}
    (h : liftTxnTypes (LastChange.makeExist ts n) = .ok lc) : lc = .exist ts n := by
  unfold LastChange.makeExist at h
  split at h
  · cases h
    rfl
  · cases h

/-- Nothing lies above the newest record. -/
theorem get?_above_seek_max {snap : KeyState} {commitTs : TimeStamp} {write : Write}
    (hseek : seekWrite snap TimeStamp.max = some (commitTs, write)) :
    snap.writes.get? commitTs = some write ∧ ∀ q, commitTs < q → snap.writes.get? q = none := by
  obtain ⟨hget, -, hmax⟩ := (VersionMap.seek_eq_some_iff _ _ _ _).mp hseek
  refine ⟨hget, fun q hq => ?_⟩
  cases hq' : snap.writes.get? q with
  | none => rfl
  | some v => exact absurd (hmax q v hq' (TimeStamp.le_max q)) (not_le.mpr hq)

/-- A walk from the newest record meets no GC fence: a fence names a data
version above its record, which the walk would have ended on. -/
theorem fencePasses_from_top {snap : KeyState} {commitTs : TimeStamp}
    (habove : ∀ q, commitTs < q → snap.writes.get? q = none)
    (hfence : ∀ c w, snap.writes.get? c = some w → FenceOk snap.writes c w.gcFence)
    (gcFenceLimit : Option TimeStamp) (c : TimeStamp) (w : Write)
    (hget : snap.writes.get? c = some w)
    (hpassed : ∀ q, c < q → q ≤ commitTs → dataVersionAt snap.writes q = none) :
    FencePasses gcFenceLimit w := by
  intro l _
  have hf := hfence c w hget
  unfold Write.asRef WriteRef.checkGcFenceAsLatestVersion
  cases hg : w.gcFence with
  | none => rfl
  | some g =>
    rw [hg] at hf
    by_cases hg0 : g = 0
    · simp [hg0]
    · obtain ⟨hcg, hdata⟩ := hf hg0
      -- the fence's data version lies at or below the newest record
      have hgtop : g ≤ commitTs := by
        refine not_lt.mp fun hlt => hdata ?_
        exact dataVersionAt_of_get?_none (habove g hlt)
      exact absurd (hpassed g hcg hgtop) hdata

/-- mirrors the contract of src/storage/txn/actions/common.rs:11-61: from the
newest record, the next pointer is true of the whole column. -/
theorem nextLastChangeInfo_pointerOk {snap : KeyState} {write : Write}
    {startTs commitTs : TimeStamp} {lc : LastChange}
    (hptr : ∀ c w, snap.writes.get? c = some w → PointerOk snap.writes c w.lastChange)
    (hfence : ∀ c w, snap.writes.get? c = some w → FenceOk snap.writes c w.gcFence)
    (hseek : seekWrite snap TimeStamp.max = some (commitTs, write))
    (h : nextLastChangeInfo snap write startTs commitTs = .ok lc) :
    PointerOk snap.writes ⊤ lc := by
  obtain ⟨hget, habove⟩ := get?_above_seek_max hseek
  have hnone : ∀ q, commitTs < q → dataVersionAt snap.writes q = none :=
    fun q hq => dataVersionAt_of_get?_none (habove q hq)
  unfold nextLastChangeInfo at h
  cases hwt : write.writeType with
  | put | delete =>
    simp only [hwt] at h
    rw [makeExist_ok h]
    refine ⟨WithTop.coe_lt_top _, by simp [dataVersionAt_of_get? hget, hwt], ?_⟩
    exact fun q hq _ => hnone q hq
  | lock | rollback =>
    have hnd : dataVersionAt snap.writes commitTs = none :=
      dataVersionAt_of_not_data hget (by simp [hwt])
    have hp := hptr commitTs write hget
    cases hlc : write.lastChange with
    | exist p n =>
      simp only [hwt, hlc] at h
      rw [makeExist_ok h]
      rw [hlc] at hp
      obtain ⟨hpc, hpdata, hpnone⟩ := hp
      refine ⟨WithTop.coe_lt_top _, hpdata, fun q hpq _ => ?_⟩
      rcases lt_trichotomy q commitTs with hq | rfl | hq
      · exact hpnone q hpq (WithTop.coe_lt_coe.mpr hq)
      · exact hnd
      · exact hnone q hq
    | notExist =>
      simp only [hwt, hlc, Except.ok.injEq] at h
      subst h
      rw [hlc] at hp
      intro q _ hput
      rcases lt_trichotomy q commitTs with hq | rfl | hq
      · obtain ⟨q', hqq', -, hdel⟩ := hp q (WithTop.coe_lt_coe.mpr hq) hput
        exact ⟨q', hqq', WithTop.coe_lt_top _, hdel⟩
      · rw [hnd] at hput
        cases hput
      · rw [hnone q hq] at hput
        cases hput
    | unknown =>
      simp only [hwt, hlc] at h
      -- the walk from the newest record finds the newest data version
      have hwalk : ∀ r, getWriteWithCommitTs snap commitTs (some startTs) = .ok r →
          WalkResult snap.writes commitTs r :=
        fun r hr => getWriteWithCommitTs_sound (fun c w hc _ => hptr c w hc)
          (fun c w hc _ hpassed => fencePasses_from_top habove hfence _ c w hc hpassed) hr
      split at h
      · cases h
      · rename_i hr
        cases h
        intro q _ hput
        rcases le_or_gt q commitTs with hq | hq
        · obtain ⟨q', hqq', -, hdel⟩ := hwalk none hr q hq hput
          exact ⟨q', hqq', WithTop.coe_lt_top _, hdel⟩
        · rw [hnone q hq] at hput
          cases hput
      · rename_i w p hr
        split at h
        · cases h
        · rw [makeExist_ok h]
          obtain ⟨hw, hput, -, hbetween⟩ := hwalk _ hr
          refine ⟨WithTop.coe_lt_top _, by simp [dataVersionAt_of_get? hw, hput], ?_⟩
          intro q hpq _
          rcases le_or_gt q commitTs with hq | hq
          · exact hbetween q hpq hq
          · exact hnone q hq

/-! ## `get_txn_commit_record` -/

/-- What the answer of `get_txn_commit_record` for `startTs` says of the
records: the newest record of the transaction, or the record of another
transaction at `startTs`, or that none of its records lies at or above
`startTs`. -/
def CommitRecordSpec (ws : VersionMap TimeStamp Write) (startTs : TimeStamp) :
    TxnCommitRecord → Prop
  | .singleRecord c w =>
    ws.get? c = some w ∧ w.startTs = startTs ∧
      ∀ c' w', ws.get? c' = some w' → c < c' → w'.startTs ≠ startTs
  | .overlappedRollback c =>
    c = startTs ∧ (∃ w, ws.get? startTs = some w ∧ w.startTs ≠ startTs ∧
      w.hasOverlappedRollback = true) ∧
      ∀ c' w', ws.get? c' = some w' → startTs < c' → w'.startTs ≠ startTs
  | .none (some ⟨w, gcFence⟩) =>
    ws.get? startTs = some w ∧ w.startTs ≠ startTs ∧ w.hasOverlappedRollback = false ∧
      FenceOk ws startTs (some gcFence) ∧
      ∀ c' w', ws.get? c' = some w' → startTs < c' → w'.startTs ≠ startTs
  | .none none =>
    ws.get? startTs = none ∧ ∀ c' w', ws.get? c' = some w' → startTs < c' → w'.startTs ≠ startTs

/-- The scan from `ts` down, having passed only records above `startTs` of
other transactions, with `gcFence` a data version among them or zero. -/
theorem getTxnCommitRecord_go_spec (snap : KeyState) (startTs : TimeStamp) (ts gcFence : TimeStamp)
    (hpassed : ∀ c w, snap.writes.get? c = some w → ts < c → startTs < c ∧ w.startTs ≠ startTs)
    (hgc : FenceOk snap.writes startTs (some gcFence)) {r : TxnCommitRecord}
    (h : getTxnCommitRecord.go startTs gcFence (snap.writes.below ts) = .ok r) :
    CommitRecordSpec snap.writes startTs r := by
  generalize hl : snap.writes.below ts = l at h
  induction l generalizing ts gcFence with
  | nil =>
    simp only [getTxnCommitRecord.go, Except.ok.injEq] at h
    subst h
    -- every record is above `ts`, so above `startTs`
    have hall : ∀ c w, snap.writes.get? c = some w → startTs < c ∧ w.startTs ≠ startTs := by
      intro c w hc
      rcases le_or_gt c ts with hcts | hcts
      · rw [VersionMap.get?_of_below_eq_nil hl c hcts] at hc
        cases hc
      · exact hpassed c w hc hcts
    refine ⟨?_, fun c' w' hc' _ => (hall c' w' hc').2⟩
    cases hst : snap.writes.get? startTs with
    | none => rfl
    | some w => exact absurd (hall startTs w hst).1 (lt_irrefl _)
  | cons e rest ih =>
    obtain ⟨c, w⟩ := e
    obtain ⟨hget, hcts, hempty⟩ := VersionMap.get?_of_below_eq_cons hl
    -- the records above `c` are the ones passed
    have hpassed' : ∀ c' w', snap.writes.get? c' = some w' → c < c' →
        startTs < c' ∧ w'.startTs ≠ startTs := by
      intro c' w' hc' hcc'
      rcases le_or_gt c' ts with h' | h'
      · rw [hempty c' hcc' h'] at hc'
        cases hc'
      · exact hpassed c' w' hc' h'
    simp only [getTxnCommitRecord.go] at h
    by_cases hst : w.startTs = startTs
    · -- the transaction's own record
      simp only [hst, if_true, Except.ok.injEq] at h
      subst h
      exact ⟨hget, hst, fun c' w' hc' hcc' => (hpassed' c' w' hc' hcc').2⟩
    simp only [hst, if_false] at h
    by_cases hcst : c = startTs
    · -- another transaction's record at `startTs`
      subst hcst
      simp only [if_true] at h
      by_cases hovr : w.hasOverlappedRollback = true
      · simp only [hovr, if_true, Except.ok.injEq] at h
        subst h
        exact ⟨rfl, ⟨w, hget, hst, hovr⟩, fun c' w' hc' hcc' => (hpassed' c' w' hc' hcc').2⟩
      · simp only [hovr, Bool.false_eq_true, if_false, Except.ok.injEq] at h
        subst h
        exact ⟨hget, hst, by simpa using hovr, hgc,
          fun c' w' hc' hcc' => (hpassed' c' w' hc' hcc').2⟩
    simp only [hcst, if_false] at h
    by_cases hlt : c < startTs
    · -- the scan stopped below `startTs`: no record at `startTs`
      simp only [hlt, if_true, Except.ok.injEq] at h
      subst h
      refine ⟨?_, fun c' w' hc' hsc' => (hpassed' c' w' hc' (lt_trans hlt hsc')).2⟩
      cases hs : snap.writes.get? startTs with
      | none => rfl
      | some w' => exact absurd (hpassed' startTs w' hs hlt).1 (lt_irrefl _)
    simp only [hlt, if_false] at h
    cases hprev : TimeStamp.prev c with
    | error e => simp [hprev] at h
    | ok _ =>
      obtain ⟨hpos, -⟩ := prev_ok hprev
      simp only [hprev] at h
      have hsc : startTs < c := lt_of_le_of_ne (not_lt.mp hlt) (Ne.symm hcst)
      refine ih (c - 1) _ ?_ ?_ (seekWrite_prev hl hpos).1 h
      · intro c' w' hc' hc'c
        have hcc' : c ≤ c' :=
          not_lt.mp fun h' => (not_lt.mpr ((le_sub_one_iff hpos c').mpr h')) hc'c
        rcases eq_or_lt_of_le hcc' with rfl | hlt'
        · rw [hget] at hc'
          cases hc'
          exact ⟨hsc, hst⟩
        · exact hpassed' c' w' hc' hlt'
      · -- the fence moves to a data version passed
        split_ifs with hdata
        · intro _
          exact ⟨hsc, by simp [dataVersionAt_of_get? hget, hdata]⟩
        · exact hgc

theorem getTxnCommitRecord_spec {snap : KeyState} {startTs : TimeStamp} {r : TxnCommitRecord}
    (h : getTxnCommitRecord snap startTs = .ok r) : CommitRecordSpec snap.writes startTs r :=
  getTxnCommitRecord_go_spec snap startTs TimeStamp.max 0
    (fun c _ _ hc => absurd (TimeStamp.le_max c) (not_le.mpr hc)) (fun h0 => absurd rfl h0) h

end Tikv.Mvcc
