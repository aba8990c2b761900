import Tikv.TxnTypes.Types

/-!
# Lock records (`txn_types::lock`)

A lock is stored in the lock column family as its type flag, the primary key
(compact bytes), the start timestamp and TTL (varints), then a tail of
optional fields, each one tag byte and a payload, in a fixed order. `parse`
reads the header, returns `Lock::new(..)` when nothing follows, and otherwise
loops over tagged fields until the input ends or a tag it does not know
(forward compatibility: it stops there and ignores the rest).

`to_bytes` writes the secondaries only under `use_async_commit`
("Only valid when use_async_commit is true"), never writes `use_one_pc`, and
writes `last_change` only when it is not `Unknown`.

The round trip is proved through `LockField`, a description of the tail:
`toBytes_eq_fields` says what `to_bytes` writes is the header followed by the
encodings of `l.fields`; `parseFields_flatMap` runs the loop over such a tail
one field at a time.

Results:
* `parseFields_flatMap`: the field loop reads back every list of fields.
* `Lock.parse_toBytes`: every lock whose secondaries are empty unless
  `use_async_commit` holds survives `to_bytes` then `parse`.
* `Lock.parse_toBytes_secondaries_dropped`: without `use_async_commit`, the
  secondaries are not written and come back empty.
-/
namespace Tikv.TxnTypes
open Tikv.Codec Decoding

/-- mirrors components/txn_types/src/lock.rs:22-28 -/
inductive LockType where
  | put
  | delete
  | lock
  | pessimistic
  deriving DecidableEq, Repr

/-- mirrors components/txn_types/src/lock.rs:75-116 -/
structure Lock where
  lockType : LockType
  primary : Bytes
  ts : TimeStamp
  ttl : UInt64
  shortValue : Option Value
  forUpdateTs : TimeStamp
  txnSize : UInt64
  minCommitTs : TimeStamp
  useAsyncCommit : Bool
  useOnePc : Bool
  secondaries : List Bytes
  rollbackTs : List TimeStamp
  lastChange : LastChange
  txnSource : UInt64
  isLockedWithConflict : Bool
  generation : UInt64
  deriving DecidableEq, Repr

namespace Lock

/-- `b'P'` -/
def FLAG_PUT : UInt8 := 0x50
/-- `b'D'` -/
def FLAG_DELETE : UInt8 := 0x44
/-- `b'L'` -/
def FLAG_LOCK : UInt8 := 0x4c
/-- `b'S'` -/
def FLAG_PESSIMISTIC : UInt8 := 0x53
/-- `b'f'` -/
def FOR_UPDATE_TS_PREFIX : UInt8 := 0x66
/-- `b't'` -/
def TXN_SIZE_PREFIX : UInt8 := 0x74
/-- `b'c'` -/
def MIN_COMMIT_TS_PREFIX : UInt8 := 0x63
/-- `b'a'` -/
def ASYNC_COMMIT_PREFIX : UInt8 := 0x61
/-- `b'r'` -/
def ROLLBACK_TS_PREFIX : UInt8 := 0x72
/-- `b'l'` -/
def LAST_CHANGE_PREFIX : UInt8 := 0x6c
/-- `b's'` -/
def TXN_SOURCE_PREFIX : UInt8 := 0x73
/-- `b'F'` -/
def PESSIMISTIC_LOCK_WITH_CONFLICT_PREFIX : UInt8 := 0x46
/-- `b'g'` -/
def GENERATION_PREFIX : UInt8 := 0x67

end Lock

namespace LockType
open Lock

/-- mirrors components/txn_types/src/lock.rs:55-63 -/
def fromU8 (b : UInt8) : Option LockType :=
  if b = FLAG_PUT then some .put
  else if b = FLAG_DELETE then some .delete
  else if b = FLAG_LOCK then some .lock
  else if b = FLAG_PESSIMISTIC then some .pessimistic
  else none

/-- mirrors components/txn_types/src/lock.rs:65-72 -/
def toU8 : LockType → UInt8
  | .put => FLAG_PUT
  | .delete => FLAG_DELETE
  | .lock => FLAG_LOCK
  | .pessimistic => FLAG_PESSIMISTIC

@[simp]
theorem fromU8_toU8 (t : LockType) : fromU8 t.toU8 = some t := by
  cases t <;> rfl

end LockType

namespace Lock

/-- mirrors components/txn_types/src/lock.rs:157-186 -/
def new (lockType : LockType) (primary : Bytes) (ts : TimeStamp) (ttl : UInt64)
    (shortValue : Option Value) (forUpdateTs : TimeStamp) (txnSize : UInt64)
    (minCommitTs : TimeStamp) (isLockedWithConflict : Bool) : Lock :=
  { lockType, primary, ts, ttl, shortValue, forUpdateTs, txnSize, minCommitTs,
    useAsyncCommit := false, useOnePc := false, secondaries := [], rollbackTs := [],
    lastChange := .unknown, txnSource := 0, isLockedWithConflict, generation := 0 }

/-- mirrors components/txn_types/src/lock.rs:221-279 (`to_bytes`) -/
def toBytes (l : Lock) : Bytes :=
  l.lockType.toU8 :: encodeCompactBytes l.primary ++ encodeVarU64 l.ts ++ encodeVarU64 l.ttl ++
  (match l.shortValue with
    | some v => SHORT_VALUE_PREFIX :: UInt8.ofNat v.length :: v
    | none => []) ++
  (if l.forUpdateTs ≠ 0 then FOR_UPDATE_TS_PREFIX :: encodeU64 l.forUpdateTs else []) ++
  (if l.txnSize > 0 then TXN_SIZE_PREFIX :: encodeU64 l.txnSize else []) ++
  (if l.minCommitTs ≠ 0 then MIN_COMMIT_TS_PREFIX :: encodeU64 l.minCommitTs else []) ++
  (if l.useAsyncCommit then
    ASYNC_COMMIT_PREFIX :: encodeVarU64 (UInt64.ofNat l.secondaries.length) ++
      l.secondaries.flatMap encodeCompactBytes
  else []) ++
  (if l.rollbackTs ≠ [] then
    ROLLBACK_TS_PREFIX :: encodeVarU64 (UInt64.ofNat l.rollbackTs.length) ++
      l.rollbackTs.flatMap encodeU64
  else []) ++
  (match l.lastChange with
    | .unknown => []
    | lc => LAST_CHANGE_PREFIX :: encodeU64 lc.toParts.1 ++ encodeVarU64 lc.toParts.2) ++
  (if l.txnSource ≠ 0 then TXN_SOURCE_PREFIX :: encodeVarU64 l.txnSource else []) ++
  (if l.isLockedWithConflict then [PESSIMISTIC_LOCK_WITH_CONFLICT_PREFIX] else []) ++
  (if l.generation > 0 then GENERATION_PREFIX :: encodeU64 l.generation else [])

end Lock

/-- The locals of `parse`'s field loop (components/txn_types/src/lock.rs:353-364),
with their initial values. -/
structure LockFields where
  shortValue : Option Value := none
  forUpdateTs : TimeStamp := 0
  txnSize : UInt64 := 0
  minCommitTs : TimeStamp := 0
  useAsyncCommit : Bool := false
  secondaries : List Bytes := []
  rollbackTs : List TimeStamp := []
  lastChangeTs : TimeStamp := 0
  estimatedVersionsToLastChange : UInt64 := 0
  txnSource : UInt64 := 0
  isLockedWithConflict : Bool := false
  generation : UInt64 := 0
  deriving DecidableEq, Repr

namespace Lock

/-- mirrors components/txn_types/src/lock.rs:366-417, one turn of the
`while !b.is_empty()` loop: the field under the next tag, or `none` for the
`break` on a tag it does not know. -/
def parseField : Bytes → LockFields → Option (Except Error (Bytes × LockFields))
  | [], _ => some (.error (.io .eof))
  | tag :: b, st =>
    if tag = SHORT_VALUE_PREFIX then some do
      let (len, b) ← readU8 b
      if b.length < len.toNat then throw .assertionFailed
      pure (b.drop len.toNat, { st with shortValue := some (b.take len.toNat) })
    else if tag = FOR_UPDATE_TS_PREFIX then some do
      let (v, b) ← liftCodec (decodeU64 b)
      pure (b, { st with forUpdateTs := v })
    else if tag = TXN_SIZE_PREFIX then some do
      let (v, b) ← liftCodec (decodeU64 b)
      pure (b, { st with txnSize := v })
    else if tag = MIN_COMMIT_TS_PREFIX then some do
      let (v, b) ← liftCodec (decodeU64 b)
      pure (b, { st with minCommitTs := v })
    else if tag = ASYNC_COMMIT_PREFIX then some do
      let (len, b) ← liftCodec (decodeVarU64 b)
      let (secondaries, b) ← decodeN (fun b => liftCodec (decodeCompactBytes b)) len.toNat b
      pure (b, { st with useAsyncCommit := true, secondaries })
    else if tag = ROLLBACK_TS_PREFIX then some do
      let (len, b) ← liftCodec (decodeVarU64 b)
      let (rollbackTs, b) ← decodeN (fun b => liftCodec (decodeU64 b)) len.toNat b
      pure (b, { st with rollbackTs })
    else if tag = LAST_CHANGE_PREFIX then some do
      let (ts, b) ← liftCodec (decodeU64 b)
      let (n, b) ← liftCodec (decodeVarU64 b)
      pure (b, { st with lastChangeTs := ts, estimatedVersionsToLastChange := n })
    else if tag = TXN_SOURCE_PREFIX then some do
      let (v, b) ← liftCodec (decodeVarU64 b)
      pure (b, { st with txnSource := v })
    else if tag = PESSIMISTIC_LOCK_WITH_CONFLICT_PREFIX then
      some (.ok (b, { st with isLockedWithConflict := true }))
    else if tag = GENERATION_PREFIX then some do
      let (v, b) ← liftCodec (decodeU64 b)
      pure (b, { st with generation := v })
    -- an unknown tag ends the loop, leaving the rest unread
    else none

/-- mirrors components/txn_types/src/lock.rs:365-418, the loop. The fuel is
the input's length: every turn reads a tag byte. -/
def parseFields (fuel : Nat) (b : Bytes) (st : LockFields) : Except Error LockFields :=
  runFields parseField fuel b st

/-- mirrors components/txn_types/src/lock.rs:419-438: the lock built from the
loop's locals. -/
def fromFields (lockType : LockType) (primary : Bytes) (ts : TimeStamp) (ttl : UInt64)
    (st : LockFields) : Except Error Lock := do
  let lastChange ← LastChange.fromParts st.lastChangeTs st.estimatedVersionsToLastChange
  let lock := { Lock.new lockType primary ts ttl st.shortValue st.forUpdateTs st.txnSize
      st.minCommitTs st.isLockedWithConflict with
    lastChange, txnSource := st.txnSource, rollbackTs := st.rollbackTs,
    generation := st.generation }
  return if st.useAsyncCommit then { lock with useAsyncCommit := true, secondaries := st.secondaries }
    else lock

/-- mirrors components/txn_types/src/lock.rs:325-439 (`parse`) -/
def parse (b : Bytes) : Except Error Lock := do
  if b.isEmpty then throw .badFormatLock
  let (tag, b) ← readU8 b
  let lockType ← match LockType.fromU8 tag with
    | some t => pure t
    | none => throw .badFormatLock
  let (primary, b) ← liftCodec (decodeCompactBytes b)
  let (ts, b) ← liftCodec (decodeVarU64 b)
  let (ttl, b) ← if b.isEmpty then pure (0, b) else liftCodec (decodeVarU64 b)
  if b.isEmpty then
    return Lock.new lockType primary ts ttl none 0 0 0 false
  let st ← parseFields b.length b {}
  fromFields lockType primary ts ttl st

/-- The early return builds what the loop's end builds from the initial locals. -/
theorem fromFields_default (lockType : LockType) (primary : Bytes) (ts : TimeStamp) (ttl : UInt64) :
    fromFields lockType primary ts ttl {} = .ok (Lock.new lockType primary ts ttl none 0 0 0 false) :=
  rfl

end Lock

/-! ## The tail as a list of fields -/

/-- One optional field of a lock's tail, with the payload `to_bytes` writes
after its tag. -/
inductive LockField where
  | shortValue (v : Value)
  | forUpdateTs (ts : TimeStamp)
  | txnSize (n : UInt64)
  | minCommitTs (ts : TimeStamp)
  | asyncCommit (secondaries : List Bytes)
  | rollbackTs (ts : List TimeStamp)
  | lastChange (ts : TimeStamp) (versions : UInt64)
  | txnSource (source : UInt64)
  | lockedWithConflict
  | generation (generation : UInt64)
  deriving DecidableEq, Repr

namespace LockField
open Lock

/-- The bytes of one field, as the matching branch of `to_bytes` writes them. -/
def toBytes : LockField → Bytes
  | .shortValue v => SHORT_VALUE_PREFIX :: UInt8.ofNat v.length :: v
  | .forUpdateTs ts => FOR_UPDATE_TS_PREFIX :: encodeU64 ts
  | .txnSize n => TXN_SIZE_PREFIX :: encodeU64 n
  | .minCommitTs ts => MIN_COMMIT_TS_PREFIX :: encodeU64 ts
  | .asyncCommit ks =>
    ASYNC_COMMIT_PREFIX :: encodeVarU64 (UInt64.ofNat ks.length) ++ ks.flatMap encodeCompactBytes
  | .rollbackTs ts =>
    ROLLBACK_TS_PREFIX :: encodeVarU64 (UInt64.ofNat ts.length) ++ ts.flatMap encodeU64
  | .lastChange ts n => LAST_CHANGE_PREFIX :: encodeU64 ts ++ encodeVarU64 n
  | .txnSource s => TXN_SOURCE_PREFIX :: encodeVarU64 s
  | .lockedWithConflict => [PESSIMISTIC_LOCK_WITH_CONFLICT_PREFIX]
  | .generation g => GENERATION_PREFIX :: encodeU64 g

/-- What the loop's branch for the field does to its locals. -/
def read (st : LockFields) : LockField → LockFields
  | .shortValue v => { st with shortValue := some v }
  | .forUpdateTs ts => { st with forUpdateTs := ts }
  | .txnSize n => { st with txnSize := n }
  | .minCommitTs ts => { st with minCommitTs := ts }
  | .asyncCommit ks => { st with useAsyncCommit := true, secondaries := ks }
  | .rollbackTs ts => { st with rollbackTs := ts }
  | .lastChange ts n => { st with lastChangeTs := ts, estimatedVersionsToLastChange := n }
  | .txnSource s => { st with txnSource := s }
  | .lockedWithConflict => { st with isLockedWithConflict := true }
  | .generation g => { st with generation := g }

/-- The lengths `to_bytes` writes fit where it writes them: a short value's
length in one byte (`v.len() as u8`), a list's length and each key's in a
`usize`. -/
def Fits : LockField → Prop
  | .shortValue v => v.length ≤ SHORT_VALUE_MAX_LEN
  | .asyncCommit ks => ks.length < 2 ^ 64 ∧ ∀ k ∈ ks, k.length < 2 ^ 64
  | .rollbackTs ts => ts.length < 2 ^ 64
  | _ => True

theorem toBytes_ne_nil (f : LockField) : f.toBytes ≠ [] := by
  cases f <;> simp [toBytes]

end LockField

namespace Lock

/-- One turn of the loop reads one field back, whatever follows it. -/
theorem parseField_toBytes (f : LockField) (hf : f.Fits) (rest : Bytes) (st : LockFields) :
    parseField (f.toBytes ++ rest) st = some (.ok (rest, f.read st)) := by
  cases f with
  | shortValue v =>
    have hlen : (UInt8.ofNat v.length).toNat = v.length :=
      UInt8.toNat_ofNat_of_lt (by simp only [LockField.Fits, SHORT_VALUE_MAX_LEN] at hf; change _ < 256; omega)
    simp [LockField.toBytes, parseField, readU8, hlen, bind, Except.bind, pure, Except.pure,
      LockField.read]
  | asyncCommit ks =>
    obtain ⟨hn, hks⟩ := hf
    have hdec := decodeN_flatMap (fun b => liftCodec (decodeCompactBytes b)) encodeCompactBytes ks
      (fun k hk r => by simp [decodeCompactBytes_encodeCompactBytes k r (hks k hk)]) rest
    simp +decide [LockField.toBytes, parseField, bind, Except.bind, pure, Except.pure,
      decodeVarU64_encodeVarU64, ofNat_toNat_of_lt hn, hdec, LockField.read]
  | rollbackTs ts =>
    have hdec := decodeN_flatMap (fun b => liftCodec (decodeU64 b)) encodeU64 ts
      (fun t _ r => by simp [decodeU64_encodeU64]) rest
    simp +decide [LockField.toBytes, parseField, bind, Except.bind, pure, Except.pure,
      decodeVarU64_encodeVarU64, ofNat_toNat_of_lt hf, hdec, LockField.read]
  | _ =>
    simp +decide [LockField.toBytes, parseField, bind, Except.bind, pure, Except.pure,
      decodeVarU64_encodeVarU64, decodeU64_encodeU64, LockField.read]

/-- Run on a tail made of fields, with the fuel `parse` gives it, the loop
ends with every field read. -/
theorem parseFields_flatMap (fs : List LockField) (hfs : ∀ f ∈ fs, f.Fits) :
    parseFields (fs.flatMap LockField.toBytes).length (fs.flatMap LockField.toBytes) {} =
      .ok (fs.foldl LockField.read {}) :=
  runFields_flatMap_length parseField LockField.toBytes LockField.read LockField.Fits
    LockField.toBytes_ne_nil parseField_toBytes fs hfs {}

/-- The fields `to_bytes` writes after the header, in its order. -/
def fields (l : Lock) : List LockField :=
  (match l.shortValue with
    | some v => [LockField.shortValue v]
    | none => []) ++
  (if l.forUpdateTs ≠ 0 then [LockField.forUpdateTs l.forUpdateTs] else []) ++
  (if l.txnSize > 0 then [LockField.txnSize l.txnSize] else []) ++
  (if l.minCommitTs ≠ 0 then [LockField.minCommitTs l.minCommitTs] else []) ++
  (if l.useAsyncCommit then [LockField.asyncCommit l.secondaries] else []) ++
  (if l.rollbackTs ≠ [] then [LockField.rollbackTs l.rollbackTs] else []) ++
  (match l.lastChange with
    | .unknown => []
    | lc => [LockField.lastChange lc.toParts.1 lc.toParts.2]) ++
  (if l.txnSource ≠ 0 then [LockField.txnSource l.txnSource] else []) ++
  (if l.isLockedWithConflict then [LockField.lockedWithConflict] else []) ++
  (if l.generation > 0 then [LockField.generation l.generation] else [])

theorem toBytes_eq_fields (l : Lock) :
    l.toBytes = l.lockType.toU8 :: encodeCompactBytes l.primary ++ encodeVarU64 l.ts ++
      encodeVarU64 l.ttl ++ l.fields.flatMap LockField.toBytes := by
  rcases l with ⟨lt, p, ts, ttl, sv, fut, size, mct, async, onepc, secs, rbs, lc, src, conflict, gen⟩
  cases sv <;> cases lc <;>
    simp [toBytes, fields, List.flatMap_append, apply_ite (List.flatMap LockField.toBytes),
      LockField.toBytes]

/-- The loop's locals once every field of `l` is read. -/
def toLockFields (l : Lock) : LockFields where
  shortValue := l.shortValue
  forUpdateTs := l.forUpdateTs
  txnSize := l.txnSize
  minCommitTs := l.minCommitTs
  useAsyncCommit := l.useAsyncCommit
  secondaries := l.secondaries
  rollbackTs := l.rollbackTs
  lastChangeTs := l.lastChange.toParts.1
  estimatedVersionsToLastChange := l.lastChange.toParts.2
  txnSource := l.txnSource
  isLockedWithConflict := l.isLockedWithConflict
  generation := l.generation

/-! A field `to_bytes` leaves out leaves its local at the initial value, which
is what the lock holds there; so skipping it and reading it agree. The
short value, async-commit and conflict flags and `last_change` each have their
own statement, since reading them sets more than the value. -/

theorem foldl_shortValue (sv : Option Value) (st : LockFields) (h : st.shortValue = none) :
    (match sv with
      | some v => [LockField.shortValue v]
      | none => []).foldl LockField.read st = { st with shortValue := sv } := by
  cases sv with
  | some v => rfl
  | none => cases st; simp_all

theorem foldl_asyncCommit (async : Bool) (secs : List Bytes) (st : LockFields)
    (h1 : st.useAsyncCommit = false) (h2 : st.secondaries = []) (hsec : async = false → secs = []) :
    (if async = true then [LockField.asyncCommit secs] else []).foldl LockField.read st =
      { st with useAsyncCommit := async, secondaries := secs } := by
  cases async with
  | true => rfl
  | false => cases st; simp_all

theorem foldl_lastChange (lc : LastChange) (st : LockFields) (h1 : st.lastChangeTs = 0)
    (h2 : st.estimatedVersionsToLastChange = 0) :
    (match lc with
      | .unknown => []
      | lc => [LockField.lastChange lc.toParts.1 lc.toParts.2]).foldl LockField.read st =
      { st with lastChangeTs := lc.toParts.1, estimatedVersionsToLastChange := lc.toParts.2 } := by
  cases lc with
  | unknown => cases st; simp_all [LastChange.toParts]
  | _ => rfl

theorem foldl_lockedWithConflict (conflict : Bool) (st : LockFields)
    (h : st.isLockedWithConflict = false) :
    (if conflict = true then [LockField.lockedWithConflict] else []).foldl LockField.read st =
      { st with isLockedWithConflict := conflict } := by
  cases conflict with
  | true => rfl
  | false => cases st; simp_all

/-- Reading back every field `to_bytes` wrote restores every local, provided
no secondaries sit in a lock that does not use async commit. -/
theorem foldl_fields (l : Lock) (hsec : l.useAsyncCommit = false → l.secondaries = []) :
    l.fields.foldl LockField.read {} = l.toLockFields := by
  rcases l with ⟨lt, p, ts, ttl, sv, fut, size, mct, async, onepc, secs, rbs, lc, src, conflict, gen⟩
  simp only at hsec
  simp only [fields, List.append_assoc]
  -- peel the segments off from the front, each against the locals so far
  rw [List.foldl_append, foldl_shortValue _ _ rfl,
    List.foldl_append, foldl_ite_singleton (by intro h; simp_all [LockField.read]),
    List.foldl_append, foldl_ite_singleton (by intro h; simp_all [LockField.read]),
    List.foldl_append, foldl_ite_singleton (by intro h; simp_all [LockField.read]),
    List.foldl_append, foldl_asyncCommit _ _ _ rfl rfl hsec,
    List.foldl_append, foldl_ite_singleton (by intro h; simp_all [LockField.read]),
    List.foldl_append, foldl_lastChange _ _ rfl rfl,
    List.foldl_append, foldl_ite_singleton (by intro h; simp_all [LockField.read]),
    List.foldl_append, foldl_lockedWithConflict _ _ rfl,
    foldl_ite_singleton (by intro h; simp_all [LockField.read])]
  rfl

/-- Every length `to_bytes` writes in a `usize` fits one: the lengths of the
lock's `Vec`s are `usize`s in the source. -/
def FitsUsize (l : Lock) : Prop :=
  l.primary.length < 2 ^ 64 ∧ l.secondaries.length < 2 ^ 64 ∧
    (∀ k ∈ l.secondaries, k.length < 2 ^ 64) ∧ l.rollbackTs.length < 2 ^ 64

instance (l : Lock) : Decidable l.FitsUsize := by
  unfold FitsUsize; infer_instance

theorem fields_fits (l : Lock) (hShort : ∀ v ∈ l.shortValue, isShortValue v) (hFit : l.FitsUsize) :
    ∀ f ∈ l.fields, f.Fits := by
  obtain ⟨-, hn, hks, hr⟩ := hFit
  rcases l with ⟨lt, p, ts, ttl, sv, fut, size, mct, async, onepc, secs, rbs, lc, src, conflict, gen⟩
  simp only at hShort hn hks hr
  intro f hf
  -- only three kinds of field carry a length
  cases f with
  | shortValue v =>
    have hv : sv = some v := by cases sv <;> cases lc <;> simp_all [fields]
    simpa [LockField.Fits, isShortValue] using hShort v (Option.mem_def.mpr hv)
  | asyncCommit ks =>
    have hk : ks = secs := by cases sv <;> cases lc <;> simp_all [fields]
    subst hk
    exact ⟨hn, hks⟩
  | rollbackTs ts =>
    have ht : ts = rbs := by cases sv <;> cases lc <;> simp_all [fields]
    subst ht
    exact hr
  | _ => trivial

/-- The locals restored from `to_bytes` give back the lock, when `last_change`
is one `make_exist` could build, `use_one_pc` (never written) is off and the
secondaries (written only under async commit) are empty without it. -/
theorem fromFields_toLockFields (l : Lock) (hOnePc : l.useOnePc = false) (hLast : l.lastChange.Valid)
    (hsec : l.useAsyncCommit = false → l.secondaries = []) :
    fromFields l.lockType l.primary l.ts l.ttl l.toLockFields = .ok l := by
  rcases l with ⟨lt, p, ts, ttl, sv, fut, size, mct, async, onepc, secs, rbs, lc, src, conflict, gen⟩
  simp only at hOnePc hLast hsec
  subst hOnePc
  have hfrom := LastChange.fromParts_toParts lc hLast
  cases async with
  | false =>
    obtain rfl : secs = [] := hsec rfl
    simp [fromFields, toLockFields, hfrom, Lock.new, bind, Except.bind, pure, Except.pure]
  | true =>
    simp [fromFields, toLockFields, hfrom, Lock.new, bind, Except.bind, pure, Except.pure]

/-- `parse` on a header followed by a tail: `Lock::new` for an empty tail, the
field loop otherwise. -/
theorem parse_header (t : LockType) (p : Bytes) (ts : TimeStamp) (ttl : UInt64) (tail : Bytes)
    (hp : p.length < 2 ^ 64) :
    parse (t.toU8 :: encodeCompactBytes p ++ encodeVarU64 ts ++ encodeVarU64 ttl ++ tail) =
      if tail.isEmpty then .ok (Lock.new t p ts ttl none 0 0 0 false)
      else parseFields tail.length tail {} >>= fromFields t p ts ttl := by
  have httl : (encodeVarU64 ttl ++ tail).isEmpty = false := by
    simp [encodeVarU64_ne_nil]
  simp only [List.cons_append, List.append_assoc, parse, List.isEmpty_cons, readU8,
    LockType.fromU8_toU8, decodeCompactBytes_encodeCompactBytes p _ hp, decodeVarU64_encodeVarU64,
    httl, liftCodec_ok, bind, Except.bind, pure, Except.pure, if_false, Bool.false_eq_true]

/-- What `parse` makes of `to_bytes`: the header, then the loop's locals after
every field `to_bytes` wrote. -/
theorem parse_toBytes_eq_fromFields (l : Lock) (hShort : ∀ v ∈ l.shortValue, isShortValue v)
    (hFit : l.FitsUsize) :
    parse l.toBytes = fromFields l.lockType l.primary l.ts l.ttl (l.fields.foldl LockField.read {}) := by
  rw [toBytes_eq_fields, parse_header _ _ _ _ _ hFit.1]
  by_cases hnil : l.fields = []
  · -- nothing after the header: the early return builds what the loop's end would
    simp only [hnil, List.flatMap_nil, List.isEmpty_nil, if_true, List.foldl_nil]
    exact (fromFields_default _ _ _ _).symm
  · obtain ⟨f, fs, hcons⟩ := List.exists_cons_of_ne_nil hnil
    have htail : (l.fields.flatMap LockField.toBytes).isEmpty = false := by
      simp [hcons, LockField.toBytes_ne_nil]
    rw [htail, if_neg Bool.false_ne_true, parseFields_flatMap _ (fields_fits l hShort hFit)]
    simp only [bind, Except.bind]

/-- `to_bytes` never writes the secondaries of a lock without async commit. -/
theorem toBytes_of_not_async (l : Lock) (hAsync : l.useAsyncCommit = false) :
    l.toBytes = { l with secondaries := [] }.toBytes := by
  simp [toBytes, hAsync]

/-- The round trip of a lock record: `parse(to_bytes(l)) = Ok(l)`. -/
theorem parse_toBytes (l : Lock) (hOnePc : l.useOnePc = false)
    (hShort : ∀ v ∈ l.shortValue, isShortValue v) (hLast : l.lastChange.Valid)
    (hSec : l.useAsyncCommit = false → l.secondaries = []) (hFit : l.FitsUsize) :
    parse l.toBytes = .ok l := by
  rw [parse_toBytes_eq_fromFields l hShort hFit, foldl_fields l hSec]
  exact fromFields_toLockFields l hOnePc hLast hSec

theorem parse_toBytes_full_lock :
    parse ({
        lockType := .pessimistic, primary := [0x6b, 0x31], ts := 10, ttl := 3000,
        shortValue := some [0x76], forUpdateTs := 12, txnSize := 2, minCommitTs := 13,
        useAsyncCommit := true, useOnePc := false, secondaries := [[0x6b, 0x32]], rollbackTs := [5],
        lastChange := .exist 8 2, txnSource := 1, isLockedWithConflict := true, generation := 3
      } : Lock).toBytes =
      .ok {
        lockType := .pessimistic, primary := [0x6b, 0x31], ts := 10, ttl := 3000,
        shortValue := some [0x76], forUpdateTs := 12, txnSize := 2, minCommitTs := 13,
        useAsyncCommit := true, useOnePc := false, secondaries := [[0x6b, 0x32]], rollbackTs := [5],
        lastChange := .exist 8 2, txnSource := 1, isLockedWithConflict := true, generation := 3 } :=
  parse_toBytes _ rfl (by decide) (by decide) (by decide) (by decide)

/-- Without async commit the secondaries are dropped: the lock comes back with
none. -/
theorem parse_toBytes_secondaries_dropped (l : Lock) (hOnePc : l.useOnePc = false)
    (hShort : ∀ v ∈ l.shortValue, isShortValue v) (hLast : l.lastChange.Valid)
    (hAsync : l.useAsyncCommit = false) (hFit : l.FitsUsize) :
    parse l.toBytes = .ok { l with secondaries := [] } := by
  have hFit' : ({ l with secondaries := [] } : Lock).FitsUsize :=
    ⟨hFit.1, by simp, by simp, hFit.2.2.2⟩
  have hSec : ({ l with secondaries := [] } : Lock).useAsyncCommit = false →
      ({ l with secondaries := [] } : Lock).secondaries = [] := fun _ => rfl
  rw [toBytes_of_not_async l hAsync,
    parse_toBytes_eq_fromFields { l with secondaries := [] } hShort hFit', foldl_fields _ hSec]
  exact fromFields_toLockFields { l with secondaries := [] } hOnePc hLast hSec

/-- A lock without async commit but with secondaries does not survive the
round trip. -/
theorem parse_toBytes_loses_secondaries :
    ∃ l : Lock, l.useOnePc = false ∧ (∀ v ∈ l.shortValue, isShortValue v) ∧ l.lastChange.Valid ∧
      parse l.toBytes ≠ .ok l := by
  let l : Lock := { Lock.new .lock [0x6b] 1 0 none 0 0 0 false with secondaries := [[0x73]] }
  have hDropped := parse_toBytes_secondaries_dropped l rfl (by decide) (by decide) rfl (by decide)
  refine ⟨l, rfl, by decide, by decide, ?_⟩
  rw [hDropped]
  decide

/-! ## Lock accessors and pessimistic locks -/

/-- mirrors components/txn_types/src/lock.rs:200-205 -/
def setLastChange (l : Lock) (lastChange : LastChange) : Lock :=
  { l with lastChange }

/-- mirrors components/txn_types/src/lock.rs:207-212 -/
def setTxnSource (l : Lock) (source : UInt64) : Lock :=
  { l with txnSource := source }

/-- mirrors components/txn_types/src/lock.rs:214-219 -/
def withGeneration (l : Lock) (generation : UInt64) : Lock :=
  { l with generation }

/-- mirrors components/txn_types/src/lock.rs:574-576 -/
def isPessimisticTxn (l : Lock) : Bool := l.forUpdateTs ≠ 0

/-- mirrors components/txn_types/src/lock.rs:578-580 -/
def isPessimisticLock (l : Lock) : Bool := l.lockType = .pessimistic

/-- mirrors components/txn_types/src/lock.rs:582-584 -/
def isPessimisticLockWithConflict (l : Lock) : Bool :=
  l.isPessimisticLock && l.isLockedWithConflict

end Lock

/-- mirrors components/txn_types/src/lock.rs:589-600; the primary is kept raw. -/
structure PessimisticLock where
  primary : Bytes
  startTs : TimeStamp
  ttl : UInt64
  forUpdateTs : TimeStamp
  minCommitTs : TimeStamp
  lastChange : LastChange
  isLockedWithConflict : Bool
  deriving DecidableEq, Repr

/-- mirrors components/txn_types/src/lock.rs:603-616 (`to_lock`; `into_lock`
at 619-632 builds the same lock) -/
def PessimisticLock.toLock (l : PessimisticLock) : Lock :=
  (Lock.new .pessimistic l.primary l.startTs l.ttl none l.forUpdateTs 0 l.minCommitTs
    l.isLockedWithConflict).setLastChange l.lastChange

end Tikv.TxnTypes
