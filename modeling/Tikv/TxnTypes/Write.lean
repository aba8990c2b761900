import Tikv.TxnTypes.Lock

/-!
# Write records (`txn_types::write`)

A write record is stored in the write column family at `key{commit_ts}`: its
type flag, the start timestamp (varint), then optional tagged fields in a
fixed order (short value, overlapped-rollback flag, GC fence, last change,
txn source). `WriteRef` is the record borrowed from the bytes it was parsed
from; borrowing is not modelled, so it holds the same data as `Write`.

The overlapped-rollback flag `'R'` is also the flag of the `Rollback` type:
the two never meet, since the type is the first byte and the flag only ever
follows the start timestamp. A GC fence of `Some(0)` is written (tag and
eight zero bytes), so it is told apart from `None`.

The round trip is proved as for locks, through `WriteField`, a description of
the tail.

Results:
* `WriteRef.parseFields_flatMap`: the field loop reads back every list of
  fields.
* `Write.parse_toBytes_toOwned`: every write whose short value fits a byte
  and whose `last_change` is one `make_exist` could build parses back to its
  own `as_ref`, which `to_owned` turns back into the write.
-/
namespace Tikv.TxnTypes
open Tikv.Codec Decoding

/-- mirrors components/txn_types/src/write.rs:17-23 -/
inductive WriteType where
  | put
  | delete
  | lock
  | rollback
  deriving DecidableEq, Repr

/-- mirrors components/txn_types/src/write.rs:71-162 -/
structure Write where
  writeType : WriteType
  startTs : TimeStamp
  shortValue : Option Value
  hasOverlappedRollback : Bool
  gcFence : Option TimeStamp
  lastChange : LastChange
  txnSource : UInt64
  deriving DecidableEq, Repr

/-- mirrors components/txn_types/src/write.rs:267-289 -/
structure WriteRef where
  writeType : WriteType
  startTs : TimeStamp
  shortValue : Option Value
  hasOverlappedRollback : Bool
  gcFence : Option TimeStamp
  lastChange : LastChange
  txnSource : UInt64
  deriving DecidableEq, Repr

namespace Write

/-- `b'P'` -/
def FLAG_PUT : UInt8 := 0x50
/-- `b'D'` -/
def FLAG_DELETE : UInt8 := 0x44
/-- `b'L'` -/
def FLAG_LOCK : UInt8 := 0x4c
/-- `b'R'` -/
def FLAG_ROLLBACK : UInt8 := 0x52
/-- `b'R'` -/
def FLAG_OVERLAPPED_ROLLBACK : UInt8 := 0x52
/-- `b'F'` -/
def GC_FENCE_PREFIX : UInt8 := 0x46
/-- `b'l'` -/
def LAST_CHANGE_PREFIX : UInt8 := 0x6c
/-- `b'S'` -/
def TXN_SOURCE_PREFIX : UInt8 := 0x53
/-- `b"p"`, the short value of a protected rollback -/
def PROTECTED_ROLLBACK_SHORT_VALUE : Bytes := [0x70]

end Write

namespace WriteType
open Write

/-- mirrors components/txn_types/src/write.rs:40-47 -/
def fromLockType : LockType → Option WriteType
  | .put => some .put
  | .delete => some .delete
  | .lock => some .lock
  | .pessimistic => none

/-- mirrors components/txn_types/src/write.rs:49-57 -/
def fromU8 (b : UInt8) : Option WriteType :=
  if b = FLAG_PUT then some .put
  else if b = FLAG_DELETE then some .delete
  else if b = FLAG_LOCK then some .lock
  else if b = FLAG_ROLLBACK then some .rollback
  else none

/-- mirrors components/txn_types/src/write.rs:59-66 -/
def toU8 : WriteType → UInt8
  | .put => FLAG_PUT
  | .delete => FLAG_DELETE
  | .lock => FLAG_LOCK
  | .rollback => FLAG_ROLLBACK

@[simp]
theorem fromU8_toU8 (t : WriteType) : fromU8 t.toU8 = some t := by
  cases t <;> rfl

end WriteType

namespace Write

/-- mirrors components/txn_types/src/write.rs:188-200 -/
def new (writeType : WriteType) (startTs : TimeStamp) (shortValue : Option Value) : Write :=
  { writeType, startTs, shortValue, hasOverlappedRollback := false, gcFence := none,
    lastChange := .unknown, txnSource := 0 }

/-- mirrors components/txn_types/src/write.rs:202-220 -/
def newRollback (startTs : TimeStamp) (protect : Bool) : Write :=
  { writeType := .rollback, startTs,
    shortValue := if protect then some PROTECTED_ROLLBACK_SHORT_VALUE else none,
    hasOverlappedRollback := false, gcFence := none, lastChange := .unknown, txnSource := 0 }

/-- mirrors components/txn_types/src/write.rs:222-231 -/
def setOverlappedRollback (w : Write) (hasOverlappedRollback : Bool) (gcFence : Option TimeStamp) :
    Write :=
  { w with hasOverlappedRollback, gcFence }

/-- mirrors components/txn_types/src/write.rs:233-237 -/
def setLastChange (w : Write) (lastChange : LastChange) : Write :=
  { w with lastChange }

/-- mirrors components/txn_types/src/write.rs:239-244 -/
def setTxnSource (w : Write) (source : UInt64) : Write :=
  { w with txnSource := source }

/-- mirrors components/txn_types/src/write.rs:246-252 -/
def parseType (b : Bytes) : Except Error WriteType :=
  match b with
  | [] => .error .badFormatWrite
  | tag :: _ =>
    match WriteType.fromU8 tag with
    | some t => .ok t
    | none => .error .badFormatWrite

/-- mirrors components/txn_types/src/write.rs:254-265 -/
def asRef (w : Write) : WriteRef :=
  { writeType := w.writeType, startTs := w.startTs, shortValue := w.shortValue,
    hasOverlappedRollback := w.hasOverlappedRollback, gcFence := w.gcFence,
    lastChange := w.lastChange, txnSource := w.txnSource }

end Write

/-- The locals of `WriteRef::parse`'s field loop
(components/txn_types/src/write.rs:306-311), with their initial values. -/
structure WriteFields where
  shortValue : Option Value := none
  hasOverlappedRollback : Bool := false
  gcFence : Option TimeStamp := none
  lastChangeTs : TimeStamp := 0
  estimatedVersionsToLastChange : UInt64 := 0
  txnSource : UInt64 := 0
  deriving DecidableEq, Repr

namespace WriteRef
open Write

/-- mirrors components/txn_types/src/write.rs:313-346, one turn of the
`while !b.is_empty()` loop: the field under the next tag, or `none` for the
`break` on a tag it does not know. -/
def parseField : Bytes → WriteFields → Option (Except Error (Bytes × WriteFields))
  | [], _ => some (.error .badFormatWrite)
  | tag :: b, st =>
    if tag = SHORT_VALUE_PREFIX then some do
      let (len, b) ← match readU8 b with
        | .ok r => pure r
        | .error _ => throw .badFormatWrite
      if b.length < len.toNat then throw .assertionFailed
      pure (b.drop len.toNat, { st with shortValue := some (b.take len.toNat) })
    else if tag = FLAG_OVERLAPPED_ROLLBACK then
      some (.ok (b, { st with hasOverlappedRollback := true }))
    else if tag = GC_FENCE_PREFIX then some do
      let (ts, b) ← liftCodec (decodeU64 b)
      pure (b, { st with gcFence := some ts })
    else if tag = LAST_CHANGE_PREFIX then some do
      let (ts, b) ← liftCodec (decodeU64 b)
      let (n, b) ← liftCodec (decodeVarU64 b)
      pure (b, { st with lastChangeTs := ts, estimatedVersionsToLastChange := n })
    else if tag = TXN_SOURCE_PREFIX then some do
      let (v, b) ← liftCodec (decodeVarU64 b)
      pure (b, { st with txnSource := v })
    -- an unknown tag ends the loop, leaving the rest unread
    else none

/-- mirrors components/txn_types/src/write.rs:313-346, the loop. The fuel is
the input's length: every turn reads a tag byte. -/
def parseFields (fuel : Nat) (b : Bytes) (st : WriteFields) : Except Error WriteFields :=
  runFields parseField fuel b st

/-- mirrors components/txn_types/src/write.rs:348-356: the record built from
the loop's locals. -/
def fromFields (writeType : WriteType) (startTs : TimeStamp) (st : WriteFields) :
    Except Error WriteRef := do
  let lastChange ← LastChange.fromParts st.lastChangeTs st.estimatedVersionsToLastChange
  pure {
    writeType, startTs, shortValue := st.shortValue,
    hasOverlappedRollback := st.hasOverlappedRollback, gcFence := st.gcFence, lastChange,
    txnSource := st.txnSource }

/-- mirrors components/txn_types/src/write.rs:295-357 (`parse`); a failed
`read_u8` or `read_var_u64` is reported as a bad write. -/
def parse (b : Bytes) : Except Error WriteRef := do
  let (tag, b) ← match readU8 b with
    | .ok r => pure r
    | .error _ => throw .badFormatWrite
  let writeType ← match WriteType.fromU8 tag with
    | some t => pure t
    | none => throw .badFormatWrite
  let (startTs, b) ← match readVarU64 b with
    | .ok r => pure r
    | .error _ => throw .badFormatWrite
  let st ← parseFields b.length b {}
  fromFields writeType startTs st

/-- mirrors components/txn_types/src/write.rs:359-392 (`to_bytes`) -/
def toBytes (w : WriteRef) : Bytes :=
  w.writeType.toU8 :: encodeVarU64 w.startTs ++
  (match w.shortValue with
    | some v => SHORT_VALUE_PREFIX :: UInt8.ofNat v.length :: v
    | none => []) ++
  (if w.hasOverlappedRollback then [FLAG_OVERLAPPED_ROLLBACK] else []) ++
  (match w.gcFence with
    | some ts => GC_FENCE_PREFIX :: encodeU64 ts
    | none => []) ++
  (match w.lastChange with
    | .unknown => []
    | lc => LAST_CHANGE_PREFIX :: encodeU64 lc.toParts.1 ++ encodeVarU64 lc.toParts.2) ++
  (if w.txnSource ≠ 0 then TXN_SOURCE_PREFIX :: encodeVarU64 w.txnSource else [])

/-- mirrors components/txn_types/src/write.rs:414-438 -/
def checkGcFenceAsLatestVersion (w : WriteRef) (readTs : TimeStamp) : Bool :=
  match w.gcFence with
  | some gcFenceTs => !(gcFenceTs ≠ 0 && gcFenceTs ≤ readTs)
  | none => true

/-- mirrors components/txn_types/src/write.rs:440-448 -/
def isProtected (w : WriteRef) : Bool :=
  w.writeType == .rollback && (w.shortValue.map (· == PROTECTED_ROLLBACK_SHORT_VALUE)).getD false

/-- mirrors components/txn_types/src/write.rs:450-460 -/
def toOwned (w : WriteRef) : Write :=
  ((Write.new w.writeType w.startTs w.shortValue).setOverlappedRollback w.hasOverlappedRollback
    w.gcFence).setLastChange w.lastChange |>.setTxnSource w.txnSource

end WriteRef

/-! ## The tail as a list of fields -/

/-- One optional field of a write's tail, with the payload `to_bytes` writes
after its tag. -/
inductive WriteField where
  | shortValue (v : Value)
  | overlappedRollback
  | gcFence (ts : TimeStamp)
  | lastChange (ts : TimeStamp) (versions : UInt64)
  | txnSource (source : UInt64)
  deriving DecidableEq, Repr

namespace WriteField
open Write

/-- The bytes of one field, as the matching branch of `to_bytes` writes them. -/
def toBytes : WriteField → Bytes
  | .shortValue v => SHORT_VALUE_PREFIX :: UInt8.ofNat v.length :: v
  | .overlappedRollback => [FLAG_OVERLAPPED_ROLLBACK]
  | .gcFence ts => GC_FENCE_PREFIX :: encodeU64 ts
  | .lastChange ts n => LAST_CHANGE_PREFIX :: encodeU64 ts ++ encodeVarU64 n
  | .txnSource s => TXN_SOURCE_PREFIX :: encodeVarU64 s

/-- What the loop's branch for the field does to its locals. -/
def read (st : WriteFields) : WriteField → WriteFields
  | .shortValue v => { st with shortValue := some v }
  | .overlappedRollback => { st with hasOverlappedRollback := true }
  | .gcFence ts => { st with gcFence := some ts }
  | .lastChange ts n => { st with lastChangeTs := ts, estimatedVersionsToLastChange := n }
  | .txnSource s => { st with txnSource := s }

/-- A short value's length fits the byte `to_bytes` writes it in. -/
def Fits : WriteField → Prop
  | .shortValue v => v.length ≤ SHORT_VALUE_MAX_LEN
  | _ => True

theorem toBytes_ne_nil (f : WriteField) : f.toBytes ≠ [] := by
  cases f <;> simp [toBytes]

end WriteField

namespace WriteRef

/-- One turn of the loop reads one field back, whatever follows it. -/
theorem parseField_toBytes (f : WriteField) (hf : f.Fits) (rest : Bytes) (st : WriteFields) :
    parseField (f.toBytes ++ rest) st = some (.ok (rest, f.read st)) := by
  cases f with
  | shortValue v =>
    have hlen : (UInt8.ofNat v.length).toNat = v.length :=
      UInt8.toNat_ofNat_of_lt (by simp only [WriteField.Fits, SHORT_VALUE_MAX_LEN] at hf; change _ < 256; omega)
    simp [WriteField.toBytes, parseField, readU8, hlen, bind, Except.bind, pure, Except.pure,
      WriteField.read]
  | _ =>
    simp +decide [WriteField.toBytes, parseField, bind, Except.bind, pure, Except.pure,
      decodeVarU64_encodeVarU64, decodeU64_encodeU64, WriteField.read]

/-- Run on a tail made of fields, with the fuel `parse` gives it, the loop
ends with every field read. -/
theorem parseFields_flatMap (fs : List WriteField) (hfs : ∀ f ∈ fs, f.Fits) :
    parseFields (fs.flatMap WriteField.toBytes).length (fs.flatMap WriteField.toBytes) {} =
      .ok (fs.foldl WriteField.read {}) :=
  runFields_flatMap_length parseField WriteField.toBytes WriteField.read WriteField.Fits
    WriteField.toBytes_ne_nil parseField_toBytes fs hfs {}

/-- The fields `to_bytes` writes after the header, in its order. -/
def fields (w : WriteRef) : List WriteField :=
  (match w.shortValue with
    | some v => [WriteField.shortValue v]
    | none => []) ++
  (if w.hasOverlappedRollback then [WriteField.overlappedRollback] else []) ++
  (match w.gcFence with
    | some ts => [WriteField.gcFence ts]
    | none => []) ++
  (match w.lastChange with
    | .unknown => []
    | lc => [WriteField.lastChange lc.toParts.1 lc.toParts.2]) ++
  (if w.txnSource ≠ 0 then [WriteField.txnSource w.txnSource] else [])

theorem toBytes_eq_fields (w : WriteRef) :
    w.toBytes = w.writeType.toU8 :: encodeVarU64 w.startTs ++ w.fields.flatMap WriteField.toBytes := by
  rcases w with ⟨wt, ts, sv, ovr, gc, lc, src⟩
  cases sv <;> cases gc <;> cases lc <;>
    simp [toBytes, fields, List.flatMap_append, apply_ite (List.flatMap WriteField.toBytes),
      WriteField.toBytes]

/-- The loop's locals once every field of `w` is read. -/
def toWriteFields (w : WriteRef) : WriteFields where
  shortValue := w.shortValue
  hasOverlappedRollback := w.hasOverlappedRollback
  gcFence := w.gcFence
  lastChangeTs := w.lastChange.toParts.1
  estimatedVersionsToLastChange := w.lastChange.toParts.2
  txnSource := w.txnSource

/-! A field `to_bytes` leaves out leaves its local at the initial value, which
is what the record holds there. The options, the flag and `last_change` each
have their own statement, since their absence is not a value being read. -/

theorem foldl_shortValue (sv : Option Value) (st : WriteFields) (h : st.shortValue = none) :
    (match sv with
      | some v => [WriteField.shortValue v]
      | none => []).foldl WriteField.read st = { st with shortValue := sv } := by
  cases sv with
  | some v => rfl
  | none => cases st; simp_all

theorem foldl_overlappedRollback (ovr : Bool) (st : WriteFields)
    (h : st.hasOverlappedRollback = false) :
    (if ovr = true then [WriteField.overlappedRollback] else []).foldl WriteField.read st =
      { st with hasOverlappedRollback := ovr } := by
  cases ovr with
  | true => rfl
  | false => cases st; simp_all

theorem foldl_gcFence (gc : Option TimeStamp) (st : WriteFields) (h : st.gcFence = none) :
    (match gc with
      | some ts => [WriteField.gcFence ts]
      | none => []).foldl WriteField.read st = { st with gcFence := gc } := by
  cases gc with
  | some ts => rfl
  | none => cases st; simp_all

theorem foldl_lastChange (lc : LastChange) (st : WriteFields) (h1 : st.lastChangeTs = 0)
    (h2 : st.estimatedVersionsToLastChange = 0) :
    (match lc with
      | .unknown => []
      | lc => [WriteField.lastChange lc.toParts.1 lc.toParts.2]).foldl WriteField.read st =
      { st with lastChangeTs := lc.toParts.1, estimatedVersionsToLastChange := lc.toParts.2 } := by
  cases lc with
  | unknown => cases st; simp_all [LastChange.toParts]
  | _ => rfl

/-- Reading back every field `to_bytes` wrote restores every local. -/
theorem foldl_fields (w : WriteRef) : w.fields.foldl WriteField.read {} = w.toWriteFields := by
  rcases w with ⟨wt, ts, sv, ovr, gc, lc, src⟩
  simp only [fields, List.append_assoc]
  -- peel the segments off from the front, each against the locals so far
  rw [List.foldl_append, foldl_shortValue _ _ rfl,
    List.foldl_append, foldl_overlappedRollback _ _ rfl,
    List.foldl_append, foldl_gcFence _ _ rfl,
    List.foldl_append, foldl_lastChange _ _ rfl rfl,
    foldl_ite_singleton (by intro h; simp_all [WriteField.read])]
  rfl

theorem fields_fits (w : WriteRef) (hShort : ∀ v ∈ w.shortValue, isShortValue v) :
    ∀ f ∈ w.fields, f.Fits := by
  rcases w with ⟨wt, ts, sv, ovr, gc, lc, src⟩
  simp only at hShort
  intro f hf
  -- only the short value carries a length
  cases f with
  | shortValue v =>
    have hv : sv = some v := by
      cases sv <;> cases gc <;> cases lc <;> simp_all [fields]
    simpa [WriteField.Fits, isShortValue] using hShort v (Option.mem_def.mpr hv)
  | _ => trivial

/-- The record restored from the locals is the record, when `last_change` is
one `make_exist` could build. -/
theorem fromFields_toWriteFields (w : WriteRef) (hLast : w.lastChange.Valid) :
    fromFields w.writeType w.startTs w.toWriteFields = .ok w := by
  simp [fromFields, toWriteFields, LastChange.fromParts_toParts w.lastChange hLast, bind, Except.bind,
    pure, Except.pure]

/-- `parse` on a header followed by a tail: the field loop over the tail. -/
theorem parse_header (t : WriteType) (ts : TimeStamp) (tail : Bytes) :
    parse (t.toU8 :: encodeVarU64 ts ++ tail) = parseFields tail.length tail {} >>= fromFields t ts := by
  simp only [List.cons_append, parse, readU8, WriteType.fromU8_toU8, readVarU64_encodeVarU64, bind,
    Except.bind, pure, Except.pure]

end WriteRef

namespace Write

/-- `to_owned` undoes `as_ref`. -/
theorem asRef_toOwned (w : Write) : w.asRef.toOwned = w := rfl

/-- The round trip of a write record: `WriteRef::parse(&w.as_ref().to_bytes())`
is `Ok(w.as_ref())`, and its `to_owned()` is `w`. -/
theorem parse_toBytes_toOwned (w : Write) (hShort : ∀ v ∈ w.shortValue, isShortValue v)
    (hLast : w.lastChange.Valid) :
    WriteRef.parse w.asRef.toBytes = .ok w.asRef ∧ w.asRef.toOwned = w := by
  refine ⟨?_, asRef_toOwned w⟩
  rw [WriteRef.toBytes_eq_fields, WriteRef.parse_header,
    WriteRef.parseFields_flatMap _ (WriteRef.fields_fits w.asRef hShort), WriteRef.foldl_fields]
  exact WriteRef.fromFields_toWriteFields w.asRef hLast

theorem parse_toBytes_toOwned_overlapped :
    WriteRef.parse ({
        writeType := .put, startTs := 7, shortValue := some [0x76], hasOverlappedRollback := true,
        gcFence := some 0, lastChange := .notExist, txnSource := 2 } : Write).asRef.toBytes =
      .ok ({
        writeType := .put, startTs := 7, shortValue := some [0x76], hasOverlappedRollback := true,
        gcFence := some 0, lastChange := .notExist, txnSource := 2 } : Write).asRef ∧
    ({
        writeType := .put, startTs := 7, shortValue := some [0x76], hasOverlappedRollback := true,
        gcFence := some 0, lastChange := .notExist, txnSource := 2 } : Write).asRef.toOwned =
      { writeType := .put, startTs := 7, shortValue := some [0x76], hasOverlappedRollback := true,
        gcFence := some 0, lastChange := .notExist, txnSource := 2 } :=
  parse_toBytes_toOwned _ (by decide) (by decide)

end Write

end Tikv.TxnTypes
