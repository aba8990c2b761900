import Mathlib.Data.Int.Order.Basic
import Tikv.Lib.Trace
import Tikv.Codec.Number

/-!
# The leader lease (`raftstore::store::util::Lease`)

A leader serves reads locally while its lease holds. `renew(send_ts)` extends
the lease to `send_ts + max_lease` when that is later than its bound, a
suspect bound included; `suspect(send_ts)` marks the lease suspect up to
`send_ts + max_lease` (a leader transfer is under way); `expire()` drops it.
`inspect(ts)` answers `Valid` before a valid bound, `Suspect` on a suspect
one, and `Expired` otherwise.

The local reader threads read a `RemoteLease`, a handle on an `expired_time`
atomic the lease shares with them (an `Arc`), in the millisecond encoding of
`timespec_to_u64`, which rounds down. The lease renews its connected remote
when its bound has moved by more than `max_drift`, and stores 0 in it when it
disconnects it (`suspect`, `expire`, `expire_remote_lease`). The atomics
are cells of `SharedLease`, a remote handle being the index of its cell.

A `Timespec` of the `time` crate is `sec` seconds and `0 ≤ nsec < 10⁹`
nanoseconds; it is modelled as the number of nanoseconds `sec · 10⁹ + nsec`,
which orders, adds and subtracts them as the crate does, and a `Duration` as
a signed number of nanoseconds: both are `Int` here.

Results:
* `timespecToU64_cellBelow`: the encoding decodes without failing to at most
  the time encoded.
* `leaseInv_step`: every call keeps the invariant tying the bound to the
  calls since the last `expire()` and the cells to the bound.
* `lease_safe`: over every run, `Valid` comes from a renewal since the last
  `expire()` and after the last `suspect`, the connected remote is never
  valid longer than the lease, and every disconnected remote is expired.
-/

namespace Tikv.Raftstore

/-- mirrors components/raftstore/src/store/util.rs:514-521 -/
inductive LeaseState where
  | suspect
  | valid
  | expired
  deriving DecidableEq, Repr

/-! ## The millisecond encoding -/

/-- `NSEC_PER_SEC` of the `time` crate. -/
def NSEC_PER_SEC : Int := 1000000000

/-- mirrors components/raftstore/src/store/util.rs:719: `32 -
NSEC_PER_MSEC.leading_zeros()`, the bit length of 1 000 000. -/
def TIMESPEC_NSEC_SHIFT : Nat := 20

/-- mirrors components/raftstore/src/store/util.rs:722: `64 -
MSEC_PER_SEC.leading_zeros()`, the bit length of 1 000. -/
def TIMESPEC_SEC_SHIFT : Nat := 10

/-- mirrors components/raftstore/src/store/util.rs:724 -/
def TIMESPEC_NSEC_MASK : UInt64 := (1 <<< TIMESPEC_SEC_SHIFT.toUInt64) - 1

/-- mirrors components/raftstore/src/store/util.rs:733-750 (`timespec_to_u64`):
the seconds above bit 10, the nanoseconds shifted down by 20 below. -/
def timespecToU64 (ts : Int) : Except String UInt64 :=
  let sec := ts / NSEC_PER_SEC
  let nsec := ts % NSEC_PER_SEC
  if ¬ (0 ≤ sec ∧ sec < 2 ^ (64 - TIMESPEC_SEC_SHIFT)) then
    .error "assertion failed: ts.sec >= 0 && ts.sec < (1i64 << (64 - TIMESPEC_SEC_SHIFT))"
  else if ¬ 0 ≤ nsec then .error "assertion failed: ts.nsec >= 0"
  else
    let ms := nsec.toNat >>> TIMESPEC_NSEC_SHIFT
    let sec := UInt64.ofNat sec.toNat <<< TIMESPEC_SEC_SHIFT.toUInt64
    .ok (sec ||| UInt64.ofNat ms)

/-- mirrors components/raftstore/src/store/util.rs:758-762 (`u64_to_timespec`),
with the range check of `Timespec::new`. -/
def u64ToTimespec (u : UInt64) : Except String Int :=
  let sec := u >>> TIMESPEC_SEC_SHIFT.toUInt64
  let nsec := (u &&& TIMESPEC_NSEC_MASK) <<< TIMESPEC_NSEC_SHIFT.toUInt64
  if nsec.toNat < 1000000000 then .ok (sec.toNat * NSEC_PER_SEC + nsec.toNat)
  else .error "assertion failed: nsec >= 0 && nsec < NSEC_PER_SEC"

/-- A cell value that decodes to at most `b`. -/
def CellBelow (u : UInt64) (b : Int) : Prop :=
  ∃ e, u64ToTimespec u = .ok e ∧ e ≤ b

theorem CellBelow.mono {u : UInt64} {b b' : Int} (h : CellBelow u b) (hb : b ≤ b') :
    CellBelow u b' := by
  obtain ⟨e, he, heb⟩ := h
  exact ⟨e, he, le_trans heb hb⟩

@[simp]
theorem u64ToTimespec_zero : u64ToTimespec 0 = .ok 0 := by decide

/-- The encoding of `sec` seconds and `ms` units of 2²⁰ ns, on naturals. -/
theorem encode_toNat (sec ms : Nat) (hsec : sec < 2 ^ 54) (hms : ms < 2 ^ 10) :
    ((UInt64.ofNat sec <<< (10 : Nat).toUInt64) ||| UInt64.ofNat ms).toNat = sec * 2 ^ 10 + ms := by
  have hs : (UInt64.ofNat sec).toNat = sec := Tikv.Codec.ofNat_toNat_of_lt (by omega)
  have hm : (UInt64.ofNat ms).toNat = ms := Tikv.Codec.ofNat_toNat_of_lt (by omega)
  rw [UInt64.toNat_or, UInt64.toNat_shiftLeft, hs, hm]
  show (sec <<< 10) % 2 ^ 64 ||| ms = sec * 2 ^ 10 + ms
  rw [Nat.shiftLeft_eq, Nat.mod_eq_of_lt (by omega), Nat.mul_comm,
    ← Nat.two_pow_add_eq_or_of_lt hms]

theorem u64ToTimespec_encode (sec ms : Nat) (hsec : sec < 2 ^ 54) (hms : ms * 2 ^ 20 < 1000000000) :
    u64ToTimespec ((UInt64.ofNat sec <<< (10 : Nat).toUInt64) ||| UInt64.ofNat ms) =
      .ok (sec * NSEC_PER_SEC + (ms * 2 ^ 20 : Nat)) := by
  have hms' : ms < 2 ^ 10 := by omega
  have hu := encode_toNat sec ms hsec hms'
  -- the seconds come back from above bit 10, the units from below it
  have hsec' : ((UInt64.ofNat sec <<< (10 : Nat).toUInt64 ||| UInt64.ofNat ms) >>>
      TIMESPEC_SEC_SHIFT.toUInt64).toNat = sec := by
    rw [UInt64.toNat_shiftRight, hu]
    show (sec * 2 ^ 10 + ms) >>> 10 = sec
    rw [Nat.shiftRight_eq_div_pow]
    omega
  have hnsec : (((UInt64.ofNat sec <<< (10 : Nat).toUInt64 ||| UInt64.ofNat ms) &&&
      TIMESPEC_NSEC_MASK) <<< TIMESPEC_NSEC_SHIFT.toUInt64).toNat = ms * 2 ^ 20 := by
    rw [UInt64.toNat_shiftLeft, UInt64.toNat_and, hu]
    have hmask : TIMESPEC_NSEC_MASK.toNat = 2 ^ 10 - 1 := rfl
    rw [hmask, Nat.and_two_pow_sub_one_eq_mod]
    show ((sec * 2 ^ 10 + ms) % 2 ^ 10) <<< 20 % 2 ^ 64 = ms * 2 ^ 20
    rw [Nat.shiftLeft_eq]
    have hlow : (sec * 2 ^ 10 + ms) % 2 ^ 10 = ms := by omega
    rw [hlow, Nat.mod_eq_of_lt (by omega)]
  unfold u64ToTimespec
  simp only [hsec', hnsec]
  exact if_pos hms

/-- The encoding loses at most the nanoseconds below a unit of 2²⁰: it
decodes, and to no later time. -/
theorem timespecToU64_cellBelow {ts : Int} {u : UInt64} (h : timespecToU64 ts = .ok u) :
    CellBelow u ts := by
  unfold timespecToU64 at h
  dsimp only at h
  split at h
  · cases h
  split at h
  · cases h
  rename_i hsec hnn
  cases h
  have hsec := not_not.mp hsec
  have hnn := not_not.mp hnn
  simp only [NSEC_PER_SEC, TIMESPEC_SEC_SHIFT, TIMESPEC_NSEC_SHIFT] at hsec hnn ⊢
  -- the units of 2²⁰ ns below the second
  set ms := (ts % 1000000000).toNat >>> 20 with hms
  have hle : ms * 1048576 ≤ (ts % 1000000000).toNat := by
    rw [hms, Nat.shiftRight_eq_div_pow]
    exact Nat.div_mul_le_self _ _
  have hle' : (ms : Int) * 1048576 ≤ ts % 1000000000 := by
    rw [← Int.toNat_of_nonneg hnn]
    exact_mod_cast hle
  have hlt : ts % 1000000000 < 1000000000 := Int.emod_lt_of_pos ts (by decide)
  have hms_lt : ms * 2 ^ 20 < 1000000000 := by
    have : (ms : Int) * 1048576 < 1000000000 := by omega
    omega
  have h54 : (ts / 1000000000).toNat < 2 ^ 54 := by
    have hpow : (2 : Int) ^ (64 - 10) = 18014398509481984 := by decide
    have := hsec.2
    rw [hpow] at this
    omega
  refine ⟨_, u64ToTimespec_encode (ts / 1000000000).toNat ms h54 hms_lt, ?_⟩
  have hsec0 : (((ts / 1000000000).toNat : Nat) : Int) = ts / 1000000000 :=
    Int.toNat_of_nonneg hsec.1
  have hdiv := Int.ediv_mul_add_emod ts 1000000000
  simp only [NSEC_PER_SEC]
  push_cast
  rw [hsec0]
  omega

/-! ## The lease and its remotes -/

/-- mirrors components/raftstore/src/store/util.rs:668-673 (`RemoteLease`):
`cell` is the `expired_time` it shares with the lease; `renewing` only serves
`need_renew` and is left out. -/
structure RemoteLease where
  cell : Nat
  term : Nat
  deriving DecidableEq, Repr

/-- mirrors components/raftstore/src/store/util.rs:501-511 (`Lease`): a
suspect bound is `Sum.inl`, a valid one `Sum.inr` (`Either`). -/
structure Lease where
  bound : Option (Int ⊕ Int)
  maxLease : Int
  maxDrift : Int
  advanceRenewLease : Int
  lastUpdate : Int
  remote : Option RemoteLease
  deriving DecidableEq, Repr

/-- The lease and the `expired_time` atomics of the remotes it handed out, by
cell. -/
structure SharedLease where
  lease : Lease
  expiredTime : List UInt64
  deriving DecidableEq, Repr

namespace Lease

/-- mirrors components/raftstore/src/store/util.rs:524-534 (`Lease::new`) -/
def new (maxLease advanceRenewLease : Int) : Lease :=
  ⟨none, maxLease, maxLease / 3, advanceRenewLease, 0, none⟩

/-- mirrors components/raftstore/src/store/util.rs:539-541 (`next_expired_time`) -/
def nextExpiredTime (l : Lease) (sendTs : Int) : Int :=
  sendTs + l.maxLease

/-- The first half of `renew` (util.rs:545-557): a valid bound at `bound`
over any bound no later. -/
def renewBound (l : Lease) (bound : Int) : Lease :=
  match l.bound with
  | some (.inl ts) | some (.inr ts) =>
    if ts ≤ bound then { l with bound := some (.inr bound) } else l
  | none => { l with bound := some (.inr bound) }

/-- mirrors components/raftstore/src/store/util.rs:581-593 (`inspect`): `now`
is the clock `monotonic_raw_now()` read when `ts` is `None`. -/
def inspect (l : Lease) (ts : Option Int) (now : Int) : LeaseState :=
  match l.bound with
  | some (.inl _) => .suspect
  | some (.inr bound) => if ts.getD now < bound then .valid else .expired
  | none => .expired

end Lease

namespace RemoteLease

/-- mirrors components/raftstore/src/store/util.rs:676-683 (`RemoteLease::inspect`) -/
def inspect (r : RemoteLease) (expiredTime : List UInt64) (ts : Option Int) (now : Int) :
    Except String LeaseState := do
  let expiredTime ← u64ToTimespec (expiredTime.getD r.cell 0)
  pure (if ts.getD now < expiredTime then .valid else .expired)

/-- mirrors components/raftstore/src/store/util.rs:685-689 (`RemoteLease::renew`) -/
def renew (r : RemoteLease) (bound : Int) (expiredTime : List UInt64) :
    Except String (List UInt64) := do
  pure (expiredTime.set r.cell (← timespecToU64 bound))

/-- mirrors components/raftstore/src/store/util.rs:696-698 (`RemoteLease::expire`) -/
def expire (r : RemoteLease) (expiredTime : List UInt64) : List UInt64 :=
  expiredTime.set r.cell 0

end RemoteLease

namespace SharedLease

/-- A new lease, with no remote handed out. -/
def new (maxLease advanceRenewLease : Int) : SharedLease :=
  ⟨Lease.new maxLease advanceRenewLease, []⟩

/-- mirrors components/raftstore/src/store/util.rs:544-567 (`renew`) -/
def renew (s : SharedLease) (sendTs : Int) : Except String SharedLease :=
  let l := s.lease.renewBound (s.lease.nextExpiredTime sendTs)
  -- renew the remote if the valid bound moved by more than `max_drift`
  match l.bound with
  | some (.inr bound) =>
    if bound - l.lastUpdate > l.maxDrift then
      let l := { l with lastUpdate := bound }
      match l.remote with
      | some r => do pure ⟨l, ← r.renew bound s.expiredTime⟩
      | none => pure ⟨l, s.expiredTime⟩
    else pure ⟨l, s.expiredTime⟩
  | _ => pure ⟨l, s.expiredTime⟩

/-- mirrors components/raftstore/src/store/util.rs:600-605 (`expire_remote_lease`) -/
def expireRemoteLease (s : SharedLease) : SharedLease :=
  match s.lease.remote with
  | some r => ⟨{ s.lease with remote := none }, r.expire s.expiredTime⟩
  | none => s

/-- mirrors components/raftstore/src/store/util.rs:570-574 (`suspect`) -/
def suspect (s : SharedLease) (sendTs : Int) : SharedLease :=
  let s := s.expireRemoteLease
  ⟨{ s.lease with bound := some (.inl (s.lease.nextExpiredTime sendTs)) }, s.expiredTime⟩

/-- mirrors components/raftstore/src/store/util.rs:595-598 (`expire`) -/
def expire (s : SharedLease) : SharedLease :=
  let s := s.expireRemoteLease
  ⟨{ s.lease with bound := none }, s.expiredTime⟩

/-- mirrors components/raftstore/src/store/util.rs:608-633 (`maybe_new_remote_lease`):
the new remote reads a new cell. -/
def maybeNewRemoteLease (s : SharedLease) (term : Nat) :
    Except String (SharedLease × Option RemoteLease) :=
  match s.lease.remote with
  | some remote =>
    if remote.term = term then .ok (s, none)
    else .error "internal error: entered unreachable code: Must expire the old remote lease first!"
  | none => do
    let expiredTime ← match s.lease.bound with
      | some (.inr ts) => timespecToU64 ts
      | _ => pure 0
    let remote : RemoteLease := ⟨s.expiredTime.length, term⟩
    pure (⟨{ s.lease with remote := some remote }, s.expiredTime ++ [expiredTime]⟩, some remote)

end SharedLease

/-- The calls on a lease. -/
inductive LeaseCall where
  | renew (sendTs : Int)
  | suspect (sendTs : Int)
  | expire
  | expireRemoteLease
  | maybeNewRemoteLease (term : Nat)
  deriving DecidableEq, Repr

def LeaseCall.isExpire : LeaseCall → Bool
  | .expire => true
  | _ => false

/-- One call on the lease. -/
def SharedLease.step (s : SharedLease) : LeaseCall → Except String SharedLease
  | .renew sendTs => s.renew sendTs
  | .suspect sendTs => .ok (s.suspect sendTs)
  | .expire => .ok s.expire
  | .expireRemoteLease => .ok s.expireRemoteLease
  | .maybeNewRemoteLease term => (s.maybeNewRemoteLease term).map Prod.fst

/-! ## The cells -/

theorem getD_set_cell (l : List UInt64) (i j : Nat) (u : UInt64) :
    (l.set i u).getD j 0 = if i = j ∧ i < l.length then u else l.getD j 0 := by
  simp only [List.getD_eq_getElem?_getD, List.getElem?_set]
  by_cases hij : i = j
  · subst hij
    by_cases hi : i < l.length <;> simp [hi]
  · simp [hij]

theorem getD_concat_cell (l : List UInt64) (j : Nat) (u : UInt64) :
    (l ++ [u]).getD j 0 = if j = l.length then u else l.getD j 0 := by
  simp only [List.getD_eq_getElem?_getD]
  rcases lt_trichotomy j l.length with hj | rfl | hj
  · rw [List.getElem?_append_left hj, if_neg (ne_of_lt hj)]
  · simp
  · rw [List.getElem?_append_right (le_of_lt hj), if_neg (ne_of_gt hj),
      List.getElem?_eq_none (by simp; omega), List.getElem?_eq_none (le_of_lt hj)]

/-! ## What each call does -/

theorem Lease.renewBound_spec (l : Lease) (bound : Int) :
    (l.renewBound bound).maxLease = l.maxLease ∧ (l.renewBound bound).remote = l.remote ∧
      ((l.renewBound bound).bound = l.bound ∨
        (l.renewBound bound).bound = some (.inr bound) ∧
          ∀ b, (l.bound = some (.inl b) ∨ l.bound = some (.inr b)) → b ≤ bound) := by
  unfold Lease.renewBound
  split
  · rename_i ts hts
    split
    · rename_i hle
      refine ⟨rfl, rfl, .inr ⟨rfl, fun b hb => ?_⟩⟩
      simp only [hts, Option.some.injEq, Sum.inl.injEq, reduceCtorEq, or_false] at hb
      exact hb ▸ hle
    · exact ⟨rfl, rfl, .inl rfl⟩
  · rename_i ts hts
    split
    · rename_i hle
      refine ⟨rfl, rfl, .inr ⟨rfl, fun b hb => ?_⟩⟩
      simp only [hts, Option.some.injEq, Sum.inr.injEq, reduceCtorEq, false_or] at hb
      exact hb ▸ hle
    · exact ⟨rfl, rfl, .inl rfl⟩
  · rename_i hnone
    refine ⟨rfl, rfl, .inr ⟨rfl, fun b hb => ?_⟩⟩
    rcases hb with hb | hb <;> rw [hnone] at hb <;> cases hb

namespace SharedLease

variable {s s' : SharedLease}

/-- Disconnecting the remote clears its cell, and every cell is 0 afterwards
when only the connected one was not. -/
theorem expireRemoteLease_spec (s : SharedLease) :
    s.expireRemoteLease.lease = { s.lease with remote := none } ∧
      s.expireRemoteLease.expiredTime.length = s.expiredTime.length ∧
      ∀ i, s.expireRemoteLease.expiredTime.getD i 0 =
        if s.lease.remote.map (·.cell) = some i then 0 else s.expiredTime.getD i 0 := by
  unfold expireRemoteLease
  cases hr : s.lease.remote with
  | none =>
    obtain ⟨⟨bound, maxLease, maxDrift, adv, lastUpdate, remote⟩, cells⟩ := s
    cases hr
    simp
  | some r =>
    refine ⟨rfl, List.length_set, fun i => ?_⟩
    simp only [RemoteLease.expire, getD_set_cell, Option.map_some, Option.some_inj]
    by_cases hi : r.cell = i
    · subst hi
      by_cases hlen : r.cell < s.expiredTime.length
      · simp [hlen]
      · simp only [true_and, hlen, if_false, if_true, List.getD_eq_getElem?_getD]
        rw [List.getElem?_eq_none (by omega)]
        rfl
    · simp [hi]

/-- What `renew(send_ts)` can do: raise the bound to a valid one at
`send_ts + max_lease` over a bound no later, or leave it; and store that valid
bound in the connected remote's cell. -/
theorem renew_spec {t : Int} (h : s.renew t = .ok s') :
    s'.lease.maxLease = s.lease.maxLease ∧ s'.lease.remote = s.lease.remote ∧
      (s'.lease.bound = s.lease.bound ∨
        s'.lease.bound = some (.inr (t + s.lease.maxLease)) ∧
          ∀ b, (s.lease.bound = some (.inl b) ∨ s.lease.bound = some (.inr b)) →
            b ≤ t + s.lease.maxLease) ∧
      (s'.expiredTime = s.expiredTime ∨
        ∃ r b u, s.lease.remote = some r ∧ s'.lease.bound = some (.inr b) ∧
          timespecToU64 b = .ok u ∧ s'.expiredTime = s.expiredTime.set r.cell u) := by
  obtain ⟨hmax, hremote, hbound⟩ := s.lease.renewBound_spec (t + s.lease.maxLease)
  unfold renew at h
  dsimp only [Lease.nextExpiredTime] at h
  generalize hl : s.lease.renewBound (t + s.lease.maxLease) = l at h hmax hremote hbound
  -- the remote is renewed only on a valid bound that moved far enough
  have hsame : s' = ⟨{ l with lastUpdate := s'.lease.lastUpdate }, s.expiredTime⟩ ∨
      ∃ r b u, l.remote = some r ∧ l.bound = some (.inr b) ∧ timespecToU64 b = .ok u ∧
        s' = ⟨{ l with lastUpdate := b }, s.expiredTime.set r.cell u⟩ := by
    split at h
    · rename_i b hb
      split at h
      · split at h
        · rename_i r hr
          cases hu : timespecToU64 b with
          | error e => simp [RemoteLease.renew, hu, bind, Except.bind] at h
          | ok u =>
            simp only [RemoteLease.renew, hu, bind, Except.bind, pure, Except.pure,
              Except.ok.injEq] at h
            exact .inr ⟨r, b, u, hr, hb, hu, h.symm⟩
        · cases h
          exact .inl rfl
      · cases h
        exact .inl rfl
    · cases h
      exact .inl rfl
  rcases hsame with hs' | ⟨r, b, u, hr, hb, hu, rfl⟩
  · rw [hs']
    exact ⟨hmax, hremote, hbound, .inl rfl⟩
  · exact ⟨hmax, hremote, hbound, .inr ⟨r, b, u, hremote ▸ hr, hb, hu, rfl⟩⟩

/-- With no remote connected, `maybe_new_remote_lease` appends a cell holding
the valid bound, or 0, and connects it. -/
theorem maybeNewRemoteLease_spec {term : Nat} {r : Option RemoteLease}
    (hnone : s.lease.remote = none) (h : s.maybeNewRemoteLease term = .ok (s', r)) :
    ∃ e, s' = ⟨{ s.lease with remote := some ⟨s.expiredTime.length, term⟩ },
        s.expiredTime ++ [e]⟩ ∧
      (e = 0 ∨ ∃ b, s.lease.bound = some (.inr b) ∧ CellBelow e b) := by
  unfold maybeNewRemoteLease at h
  rw [hnone] at h
  dsimp only at h
  split at h
  · rename_i b hb
    cases hu : timespecToU64 b with
    | error e => simp [hu, bind, Except.bind] at h
    | ok u =>
      simp only [hu, bind, Except.bind, pure, Except.pure, Except.ok.injEq, Prod.mk.injEq] at h
      exact ⟨u, h.1.symm, .inr ⟨b, hb, timespecToU64_cellBelow hu⟩⟩
  · simp only [bind, Except.bind, pure, Except.pure, Except.ok.injEq, Prod.mk.injEq] at h
    exact ⟨0, h.1.symm, .inl rfl⟩

end SharedLease

/-! ## The invariant over the calls made -/

/-- The calls since the last `expire()`. -/
def sinceExpire (calls : List LeaseCall) : List LeaseCall :=
  Trace.sinceLast LeaseCall.isExpire calls

/-- A `suspect` call in `calls`, with no later `suspect` and no later `renew`
at or after its time. -/
def SuspectOpen (calls : List LeaseCall) (t : Int) : Prop :=
  ∃ pre post, calls = pre ++ .suspect t :: post ∧ (∀ t', .suspect t' ∉ post) ∧
    ∀ t', t ≤ t' → .renew t' ∉ post

/-- What every run from a new lease keeps: a valid bound comes from a renewal
since the last `expire()`; an open suspect keeps its suspect bound; a cell
not connected is 0, and the connected one is 0 or below the valid bound. -/
structure LeaseInv (maxLease : Int) (s : SharedLease) (calls : List LeaseCall) : Prop where
  maxLease_eq : s.lease.maxLease = maxLease
  renewed : ∀ b, s.lease.bound = some (.inr b) → ∃ t, .renew t ∈ sinceExpire calls ∧ b = t + maxLease
  suspected : ∀ t, SuspectOpen (sinceExpire calls) t → s.lease.bound = some (.inl (t + maxLease))
  remoteCell : ∀ r, s.lease.remote = some r → r.cell < s.expiredTime.length
  disconnected : ∀ i, s.lease.remote.map (·.cell) ≠ some i → s.expiredTime.getD i 0 = 0
  connected : ∀ r, s.lease.remote = some r → s.expiredTime.getD r.cell 0 = 0 ∨
    ∃ b, s.lease.bound = some (.inr b) ∧ CellBelow (s.expiredTime.getD r.cell 0) b

theorem leaseInv_new (maxLease advanceRenewLease : Int) :
    LeaseInv maxLease (SharedLease.new maxLease advanceRenewLease) [] where
  maxLease_eq := rfl
  renewed _ h := by cases h
  suspected _ h := by
    obtain ⟨pre, post, hcalls, -⟩ := h
    simp [sinceExpire] at hcalls
  remoteCell _ h := by cases h
  disconnected _ _ := by simp [SharedLease.new]
  connected _ h := by cases h

/-- A call that is neither a `suspect` nor a `renew` leaves every suspect open. -/
theorem SuspectOpen.concat {calls : List LeaseCall} {c : LeaseCall} {t : Int}
    (hc : ∀ t', c ≠ .suspect t' ∧ c ≠ .renew t') (h : SuspectOpen (calls ++ [c]) t) :
    SuspectOpen calls t := by
  obtain ⟨pre, post, hcalls, hsus, hren⟩ := h
  rcases Trace.concat_eq_append_cons hcalls with ⟨-, hy, -⟩ | ⟨post', rfl, hl⟩
  · exact absurd hy.symm (hc t).1
  · exact ⟨pre, post', hl, fun t' ht' => hsus t' (List.mem_append_left _ ht'),
      fun t' hle ht' => hren t' hle (List.mem_append_left _ ht')⟩

section Step

variable {maxLease : Int} {s s' : SharedLease} {calls : List LeaseCall}

/-- The calls that do not touch the bound: `expire_remote_lease`, and
`maybe_new_remote_lease` when the remote stays. -/
theorem LeaseInv.history {c : LeaseCall} (hc : ∀ t', c ≠ .suspect t' ∧ c ≠ .renew t')
    (hne : c ≠ .expire) (hinv : LeaseInv maxLease s calls)
    (hbound : s'.lease.bound = s.lease.bound) :
    (∀ b, s'.lease.bound = some (.inr b) → ∃ t, .renew t ∈ sinceExpire (calls ++ [c]) ∧
      b = t + maxLease) ∧
    ∀ t, SuspectOpen (sinceExpire (calls ++ [c])) t → s'.lease.bound = some (.inl (t + maxLease)) := by
  have hsince : sinceExpire (calls ++ [c]) = sinceExpire calls ++ [c] := by
    cases c <;> first | exact absurd rfl hne | simp [sinceExpire, LeaseCall.isExpire]
  rw [hsince, hbound]
  refine ⟨fun b hb => ?_, fun t ht => hinv.suspected t (ht.concat hc)⟩
  obtain ⟨t, ht, hbt⟩ := hinv.renewed b hb
  exact ⟨t, List.mem_append_left _ ht, hbt⟩

/-- After the remote is disconnected every cell is 0. -/
theorem LeaseInv.cells_expireRemoteLease (hinv : LeaseInv maxLease s calls) (i : Nat) :
    s.expireRemoteLease.expiredTime.getD i 0 = 0 := by
  rw [s.expireRemoteLease_spec.2.2]
  split
  · rfl
  · exact hinv.disconnected i ‹_›

theorem LeaseInv.expireRemoteLease (hinv : LeaseInv maxLease s calls) :
    LeaseInv maxLease s.expireRemoteLease (calls ++ [.expireRemoteLease]) := by
  have hlease := s.expireRemoteLease_spec.1
  obtain ⟨hren, hsus⟩ := hinv.history (c := .expireRemoteLease) (fun _ => ⟨nofun, nofun⟩) nofun
    (by rw [hlease])
  refine ⟨by rw [hlease]; exact hinv.maxLease_eq, hren, hsus, fun r hr => ?_,
    fun i _ => hinv.cells_expireRemoteLease i, fun r hr => ?_⟩
  · rw [hlease] at hr
    cases hr
  · rw [hlease] at hr
    cases hr

theorem LeaseInv.suspect (hinv : LeaseInv maxLease s calls) (t : Int) :
    LeaseInv maxLease (s.suspect t) (calls ++ [.suspect t]) := by
  have hlease := s.expireRemoteLease_spec.1
  have hsince : sinceExpire (calls ++ [.suspect t]) = sinceExpire calls ++ [.suspect t] := by
    simp [sinceExpire, LeaseCall.isExpire]
  refine ⟨by simp [SharedLease.suspect, hlease, hinv.maxLease_eq], fun b hb => ?_,
    fun t₀ ht₀ => ?_, fun r hr => ?_, fun i _ => hinv.cells_expireRemoteLease i, fun r hr => ?_⟩
  · simp [SharedLease.suspect] at hb
  · -- the suspect just made is the open one
    obtain ⟨pre, post, hcalls, hsus, -⟩ := ht₀
    rw [hsince] at hcalls
    rcases Trace.concat_eq_append_cons hcalls with ⟨-, hy, -⟩ | ⟨post', rfl, -⟩
    · cases hy
      simp [SharedLease.suspect, Lease.nextExpiredTime, hlease, hinv.maxLease_eq]
    · exact absurd (List.mem_append_right _ (List.mem_singleton_self _)) (hsus t)
  · simp [SharedLease.suspect, hlease] at hr
  · simp [SharedLease.suspect, hlease] at hr

theorem LeaseInv.expire (hinv : LeaseInv maxLease s calls) :
    LeaseInv maxLease s.expire (calls ++ [.expire]) := by
  have hlease := s.expireRemoteLease_spec.1
  have hsince : sinceExpire (calls ++ [.expire]) = [] := by
    simp [sinceExpire, LeaseCall.isExpire]
  refine ⟨by simp [SharedLease.expire, hlease, hinv.maxLease_eq], fun b hb => ?_,
    fun t₀ ht₀ => ?_, fun r hr => ?_, fun i _ => hinv.cells_expireRemoteLease i, fun r hr => ?_⟩
  · simp [SharedLease.expire] at hb
  · obtain ⟨pre, post, hcalls, -⟩ := ht₀
    rw [hsince] at hcalls
    simp at hcalls
  · simp [SharedLease.expire, hlease] at hr
  · simp [SharedLease.expire, hlease] at hr

theorem LeaseInv.maybeNewRemoteLease (hinv : LeaseInv maxLease s calls) {term : Nat}
    {r : Option RemoteLease} (h : s.maybeNewRemoteLease term = .ok (s', r)) :
    LeaseInv maxLease s' (calls ++ [.maybeNewRemoteLease term]) := by
  cases hremote : s.lease.remote with
  | some remote =>
    -- a remote of this term is connected already
    simp only [SharedLease.maybeNewRemoteLease, hremote] at h
    split at h
    · cases h
      obtain ⟨hren, hsus⟩ := hinv.history (c := .maybeNewRemoteLease term) (fun _ => ⟨nofun, nofun⟩)
        nofun rfl
      exact ⟨hinv.maxLease_eq, hren, hsus, hinv.remoteCell, hinv.disconnected, hinv.connected⟩
    · cases h
  | none =>
    obtain ⟨e, rfl, hcell⟩ := SharedLease.maybeNewRemoteLease_spec hremote h
    obtain ⟨hren, hsus⟩ := hinv.history (c := .maybeNewRemoteLease term) (fun _ => ⟨nofun, nofun⟩)
      nofun rfl
    refine ⟨hinv.maxLease_eq, hren, hsus, fun r hr => ?_, fun i hi => ?_, fun r hr => ?_⟩
    · cases hr
      simp
    · rw [getD_concat_cell, if_neg (fun h' => hi (by simp [h']))]
      exact hinv.disconnected i (by simp [hremote])
    · cases hr
      simpa [getD_concat_cell] using hcell

theorem LeaseInv.renew (hinv : LeaseInv maxLease s calls) {t : Int} (h : s.renew t = .ok s') :
    LeaseInv maxLease s' (calls ++ [.renew t]) := by
  obtain ⟨hmax, hremote, hbound, hcells⟩ := SharedLease.renew_spec h
  have hM := hinv.maxLease_eq
  have hsince : sinceExpire (calls ++ [.renew t]) = sinceExpire calls ++ [.renew t] := by
    simp [sinceExpire, LeaseCall.isExpire]
  refine ⟨hmax.trans hM, fun b hb => ?_, fun t₀ ht₀ => ?_, fun r hr => ?_, fun i hi => ?_,
    fun r hr => ?_⟩
  · -- a valid bound is the old one, or this renewal's
    rw [hsince]
    rcases hbound with hsame | ⟨hnew, -⟩
    · obtain ⟨t', ht', hbt⟩ := hinv.renewed b (hsame ▸ hb)
      exact ⟨t', List.mem_append_left _ ht', hbt⟩
    · rw [hnew] at hb
      cases hb
      exact ⟨t, List.mem_append_right _ (List.mem_singleton_self _), by rw [hM]⟩
  · -- an open suspect was open before, and a renewal before it changes nothing
    obtain ⟨pre, post, hcalls, hsus, hren⟩ := ht₀
    rw [hsince] at hcalls
    rcases Trace.concat_eq_append_cons hcalls with ⟨-, hy, -⟩ | ⟨post', rfl, hl⟩
    · cases hy
    · have htt₀ : t < t₀ := lt_of_not_ge fun hle =>
        hren t hle (List.mem_append_right _ (List.mem_singleton_self _))
      have hold := hinv.suspected t₀ ⟨pre, post', hl, fun t' ht' => hsus t' (List.mem_append_left _ ht'),
        fun t' hle ht' => hren t' hle (List.mem_append_left _ ht')⟩
      rcases hbound with hsame | ⟨-, hle⟩
      · rw [hsame, hold]
      · have := hle (t₀ + maxLease) (.inl hold)
        rw [hM] at this
        omega
  · rw [hremote] at hr
    rcases hcells with hsame | ⟨_, _, _, _, _, _, hset⟩
    · rw [hsame]
      exact hinv.remoteCell r hr
    · rw [hset, List.length_set]
      exact hinv.remoteCell r hr
  · rw [hremote] at hi
    rcases hcells with hsame | ⟨r, _, _, hr, _, _, hset⟩
    · rw [hsame]
      exact hinv.disconnected i hi
    · rw [hset, getD_set_cell, if_neg (fun h' => hi (by simp [hr, h'.1]))]
      exact hinv.disconnected i hi
  · rw [hremote] at hr
    rcases hcells with hsame | ⟨r', b, u, hr', hb, hu, hset⟩
    · -- the cell stays, below a bound that only grew
      rw [hsame]
      rcases hinv.connected r hr with hzero | ⟨b, hb, hbelow⟩
      · exact .inl hzero
      · rcases hbound with hsame' | ⟨hnew, hle⟩
        · exact .inr ⟨b, hsame' ▸ hb, hbelow⟩
        · exact .inr ⟨_, hnew, hbelow.mono (hle b (.inr hb))⟩
    · rw [hr] at hr'
      cases hr'
      rw [hset, getD_set_cell, if_pos ⟨rfl, hinv.remoteCell r hr⟩]
      exact .inr ⟨b, hb, timespecToU64_cellBelow hu⟩

theorem leaseInv_step (hinv : LeaseInv maxLease s calls) {c : LeaseCall}
    (h : s.step c = .ok s') : LeaseInv maxLease s' (calls ++ [c]) := by
  cases c with
  | renew t => exact hinv.renew h
  | suspect t =>
    cases h
    exact hinv.suspect t
  | expire =>
    cases h
    exact hinv.expire
  | expireRemoteLease =>
    cases h
    exact hinv.expireRemoteLease
  | maybeNewRemoteLease term =>
    simp only [SharedLease.step] at h
    cases hm : s.maybeNewRemoteLease term with
    | error e => rw [hm] at h; cases h
    | ok p =>
      rw [hm] at h
      cases h
      exact hinv.maybeNewRemoteLease hm

end Step

/-! ## What the readers see -/

section Safe

variable {maxLease : Int} {s : SharedLease} {calls : List LeaseCall}

theorem Lease.inspect_eq_valid {l : Lease} {ts now : Int} (h : l.inspect (some ts) now = .valid) :
    ∃ b, l.bound = some (.inr b) ∧ ts < b := by
  unfold Lease.inspect at h
  split at h
  · cases h
  · rename_i b hb
    split at h
    · exact ⟨b, hb, ‹_›⟩
    · cases h
  · cases h

theorem RemoteLease.inspect_eq_valid {r : RemoteLease} {cells : List UInt64} {ts now : Int}
    (h : r.inspect cells (some ts) now = .ok .valid) :
    ∃ e, u64ToTimespec (cells.getD r.cell 0) = .ok e ∧ ts < e := by
  unfold RemoteLease.inspect at h
  cases he : u64ToTimespec (cells.getD r.cell 0) with
  | error err =>
    simp only [he, bind, Except.bind] at h
    cases h
  | ok e =>
    simp only [he, bind, Except.bind, pure, Except.pure, Except.ok.injEq] at h
    split at h
    · exact ⟨e, rfl, ‹_›⟩
    · cases h

/-- A remote whose cell holds 0 is expired from time 0 on. -/
theorem RemoteLease.inspect_of_zero {r : RemoteLease} {cells : List UInt64} {ts now : Int}
    (hzero : cells.getD r.cell 0 = 0) (hts : 0 ≤ ts) :
    r.inspect cells (some ts) now = .ok .expired := by
  simp only [RemoteLease.inspect, hzero, u64ToTimespec_zero, bind, Except.bind, pure,
    Except.pure, Option.getD_some]
  rw [if_neg (not_lt.mpr hts)]

/-- What every run guarantees the readers of the lease. -/
structure LeaseSafe (maxLease : Int) (s : SharedLease) (calls : List LeaseCall) : Prop where
  /-- `Valid` at `ts` comes from a renewal since the last `expire()` whose
  bound is past `ts`. -/
  valid_renewed : ∀ ts now, s.lease.inspect (some ts) now = .valid →
    ∃ t, .renew t ∈ sinceExpire calls ∧ ts < t + maxLease
  /-- The lease stays suspect after a `suspect` with no later `suspect` and no
  later renewal at or after its time. -/
  suspect_open : ∀ t ts now, SuspectOpen (sinceExpire calls) t → s.lease.inspect ts now = .suspect
  /-- The connected remote is valid at a time `ts ≥ 0` only if the lease is. -/
  remote_valid : ∀ r ts now, s.lease.remote = some r → 0 ≤ ts →
    r.inspect s.expiredTime (some ts) now = .ok .valid → s.lease.inspect (some ts) now = .valid
  /-- A remote not connected is expired at every time `ts ≥ 0`. -/
  disconnected_expired : ∀ (r : RemoteLease) ts now, s.lease.remote.map (·.cell) ≠ some r.cell →
    0 ≤ ts → r.inspect s.expiredTime (some ts) now = .ok .expired

theorem LeaseInv.safe (hinv : LeaseInv maxLease s calls) : LeaseSafe maxLease s calls where
  valid_renewed ts now h := by
    obtain ⟨b, hb, hlt⟩ := Lease.inspect_eq_valid h
    obtain ⟨t, ht, rfl⟩ := hinv.renewed b hb
    exact ⟨t, ht, hlt⟩
  suspect_open t ts now h := by
    simp [Lease.inspect, hinv.suspected t h]
  remote_valid r ts now hr hts h := by
    obtain ⟨e, he, hlt⟩ := RemoteLease.inspect_eq_valid h
    rcases hinv.connected r hr with hzero | ⟨b, hb, e', he', hle⟩
    · -- a zero cell decodes to time 0, which `ts` is not before
      rw [hzero, u64ToTimespec_zero] at he
      cases he
      omega
    · rw [he] at he'
      cases he'
      simp only [Lease.inspect, hb, Option.getD_some]
      exact if_pos (lt_of_lt_of_le hlt hle)
  disconnected_expired r ts now hr hts :=
    RemoteLease.inspect_of_zero (hinv.disconnected r.cell hr) hts

/-- Over every run of calls from a new lease, `Valid` comes from a renewal
since the last `expire()`, an open `suspect` keeps the lease suspect, the
connected remote is valid only while the lease is, and every other remote is
expired. -/
theorem lease_safe {maxLease advanceRenewLease : Int}
    (h : Trace.run SharedLease.step (SharedLease.new maxLease advanceRenewLease) calls = .ok s) :
    LeaseSafe maxLease s calls :=
  (Trace.run_induction (leaseInv_new maxLease advanceRenewLease)
    (fun _ _ _ _ hinv hstep => leaseInv_step hinv hstep) h).safe

/-- A remote handed out, then renewed past `max_drift`: the lease is valid to
11 s and its remote to the encoded 11 s. -/
theorem lease_safe_renewed_remote :
    Trace.run SharedLease.step (SharedLease.new 9000000000 0)
        [.maybeNewRemoteLease 1, .renew 2000000000] =
      .ok ⟨⟨some (.inr 11000000000), 9000000000, 3000000000, 0, 11000000000, some ⟨0, 1⟩⟩,
        [11264]⟩ ∧
    LeaseSafe 9000000000
      ⟨⟨some (.inr 11000000000), 9000000000, 3000000000, 0, 11000000000, some ⟨0, 1⟩⟩, [11264]⟩
      [.maybeNewRemoteLease 1, .renew 2000000000] :=
  ⟨rfl, lease_safe rfl⟩

/-- A `suspect` is not closed by every later renewal: after an `expire()`, or
after a second `suspect` at an earlier time, a renewal before the first
suspect's time makes the lease valid. -/
theorem lease_valid_before_suspect_renewed :
    (Trace.run SharedLease.step (SharedLease.new 10 0) [.suspect 10, .expire, .renew 5]).map
        (fun s => s.lease.inspect (some 6) 0) = .ok .valid ∧
      (Trace.run SharedLease.step (SharedLease.new 10 0) [.suspect 10, .suspect 5, .renew 7]).map
        (fun s => s.lease.inspect (some 8) 0) = .ok .valid :=
  ⟨rfl, rfl⟩

end Safe

end Tikv.Raftstore
