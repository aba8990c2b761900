import Tikv.Codec.MemComparable
import Tikv.TxnTypes.Types

/-!
# Keys (`txn_types::Key`)

A `Key` holds the memcomparable encoding of a user key, and an MVCC key has
the start or commit timestamp appended as eight big-endian bytes of its
complement (`append_ts`), so that newer versions of a key sort first.
`split_on_ts_for`, `decode_ts_from` and `truncate_ts` take the last eight
bytes off again. Keys are ordered as their bytes (`#[derive(Ord)]` on
`Key(Vec<u8>)`).

Results:
* `appendTs_lt_appendTs_iff`: timestamped keys sort by user key, then by
  timestamp, the newest first.
* `splitOnTsFor_appendTs`, `decodeTsFrom_appendTs`, `truncateTs_appendTs`:
  the user key and the timestamp come back.
* `memcomparable_order`: the order of encoded keys, whatever bytes follow
  them, and of timestamped keys, with the timestamp recovered.
* `isEncodedFrom_decides_encoding`: `is_encoded_from` holds of exactly the
  encoding of the raw key, and `Key::is_encoded_from` of `Key::from_raw`.
-/
namespace Tikv.TxnTypes
open Tikv.Codec ListLex

/-- mirrors components/txn_types/src/types.rs:50-51: `Key(Vec<u8>)`, the
encoded bytes. -/
structure Key where
  encoded : Bytes
  deriving DecidableEq, Repr

namespace Key

/-- `#[derive(Ord)]`: keys compare as their bytes. -/
instance : LT Key := ⟨fun a b => a.encoded < b.encoded⟩

instance (a b : Key) : Decidable (a < b) := inferInstanceAs (Decidable (a.encoded < b.encoded))

/-- `U64_SIZE` (components/tikv_util/src/codec/number.rs:15) -/
def U64_SIZE : Nat := 8

/-- mirrors components/txn_types/src/types.rs:56-63 (`from_raw`) -/
def fromRaw (key : Bytes) : Key :=
  ⟨encodeBytes key⟩

/-- mirrors components/txn_types/src/types.rs:85-88 (`to_raw`) -/
def toRaw (k : Key) : Except Codec.Error Bytes :=
  match decodeBytes k.encoded false with
  | .ok (raw, _) => .ok raw
  | .error e => .error e

/-- mirrors components/txn_types/src/types.rs:117-123 (`append_ts`) -/
def appendTs (k : Key) (ts : TimeStamp) : Key :=
  ⟨k.encoded ++ encodeU64Desc ts⟩

/-- mirrors components/txn_types/src/types.rs:144-162 (`truncate_ts`) -/
def truncateTs (k : Key) : Except Codec.Error Key :=
  if k.encoded.length < U64_SIZE then .error .keyLength
  else .ok ⟨k.encoded.take (k.encoded.length - U64_SIZE)⟩

/-- mirrors components/txn_types/src/types.rs:164-175 (`split_on_ts_for`) -/
def splitOnTsFor (key : Bytes) : Except Codec.Error (Bytes × TimeStamp) :=
  if key.length < U64_SIZE then .error .keyLength
  else
    let pos := key.length - U64_SIZE
    match decodeU64Desc (key.drop pos) with
    | .ok (ts, _) => .ok (key.take pos, ts)
    | .error e => .error e

/-- mirrors components/txn_types/src/types.rs:187-196 (`decode_ts_from`) -/
def decodeTsFrom (key : Bytes) : Except Codec.Error TimeStamp :=
  if key.length < U64_SIZE then .error .keyLength
  else
    match decodeU64Desc (key.drop (key.length - U64_SIZE)) with
    | .ok (ts, _) => .ok ts
    | .error e => .error e

/-- mirrors components/txn_types/src/types.rs:237-240 (`is_encoded_from`) -/
def isEncodedFrom (k : Key) (rawKey : Bytes) : Bool :=
  Codec.isEncodedFrom k.encoded rawKey false

theorem toRaw_fromRaw (raw : Bytes) : (fromRaw raw).toRaw = .ok raw := by
  have h := decodeBytes_encodeOrderBytes raw [] false
  rw [List.append_nil] at h
  simp only [toRaw, fromRaw, encodeBytes, h]

/-! ## Order -/

/-- A timestamp's bytes compare the other way round from the timestamps. -/
theorem encodeU64Desc_lt_iff (t₁ t₂ : TimeStamp) :
    encodeU64Desc t₁ < encodeU64Desc t₂ ↔ t₂ < t₁ := by
  rw [encodeU64Desc, encodeU64Desc, encodeU64_lt_iff, UInt64.lt_iff_toNat_lt,
    UInt64.lt_iff_toNat_lt, UInt64.toNat_not, UInt64.toNat_not]
  have h₁ := t₁.toNat_lt
  have h₂ := t₂.toNat_lt
  simp only [UInt64.size] at h₁ h₂ ⊢
  omega

@[simp]
theorem encodeU64Desc_length (ts : TimeStamp) : (encodeU64Desc ts).length = U64_SIZE := rfl

/-- Timestamped keys sort by user key, then by timestamp, the newest first. -/
theorem appendTs_lt_appendTs_iff (a b : Bytes) (t₁ t₂ : TimeStamp) :
    (fromRaw a).appendTs t₁ < (fromRaw b).appendTs t₂ ↔ a < b ∨ (a = b ∧ t₁ > t₂) := by
  show encodeBytes a ++ encodeU64Desc t₁ < encodeBytes b ++ encodeU64Desc t₂ ↔ _
  constructor
  · intro h
    by_cases hab : a < b
    · exact .inl hab
    by_cases heq : a = b
    · subst heq
      exact .inr ⟨rfl, (encodeU64Desc_lt_iff t₁ t₂).mp (lt_of_append_left_lt h)⟩
    -- `b < a` would put the keys the other way round
    have hba : b < a := by
      rcases List.le_iff_lt_or_eq.mp (List.not_lt.mp hab) with hlt | hbeq
      · exact hlt
      · exact absurd hbeq.symm heq
    exact absurd h (List.lt_asymm ((encodeBytes_forkLt hba).append _ _).lt)
  · rintro (hab | ⟨rfl, ht⟩)
    · exact ((encodeBytes_forkLt hab).append _ _).lt
    · exact List.append_left_lt ((encodeU64Desc_lt_iff t₁ t₂).mpr ht)

/-! ## Taking the timestamp off -/

theorem appendTs_encoded_take (raw : Bytes) (ts : TimeStamp) :
    ((fromRaw raw).appendTs ts).encoded.take
      (((fromRaw raw).appendTs ts).encoded.length - U64_SIZE) = encodeBytes raw := by
  simp [appendTs, fromRaw]

theorem appendTs_encoded_drop (raw : Bytes) (ts : TimeStamp) :
    ((fromRaw raw).appendTs ts).encoded.drop
      (((fromRaw raw).appendTs ts).encoded.length - U64_SIZE) = encodeU64Desc ts := by
  simp [appendTs, fromRaw]

theorem appendTs_length_ge (raw : Bytes) (ts : TimeStamp) :
    ¬ ((fromRaw raw).appendTs ts).encoded.length < U64_SIZE := by
  simp [appendTs]

theorem splitOnTsFor_appendTs (raw : Bytes) (ts : TimeStamp) :
    splitOnTsFor ((fromRaw raw).appendTs ts).encoded = .ok ((fromRaw raw).encoded, ts) := by
  have hdec := decodeU64Desc_encodeU64Desc ts []
  rw [List.append_nil] at hdec
  rw [splitOnTsFor, if_neg (appendTs_length_ge raw ts)]
  simp only [appendTs_encoded_drop, hdec, appendTs_encoded_take]
  rfl

theorem decodeTsFrom_appendTs (raw : Bytes) (ts : TimeStamp) :
    decodeTsFrom ((fromRaw raw).appendTs ts).encoded = .ok ts := by
  have hdec := decodeU64Desc_encodeU64Desc ts []
  rw [List.append_nil] at hdec
  rw [decodeTsFrom, if_neg (appendTs_length_ge raw ts)]
  simp only [appendTs_encoded_drop, hdec]

theorem truncateTs_appendTs (raw : Bytes) (ts : TimeStamp) :
    ((fromRaw raw).appendTs ts).truncateTs = .ok (fromRaw raw) := by
  rw [truncateTs, if_neg (appendTs_length_ge raw ts), appendTs_encoded_take]
  rfl

/-! ## Checking a key against a user key -/

theorem isEncodedFrom_iff_eq_fromRaw (k : Key) (raw : Bytes) :
    k.isEncodedFrom raw = true ↔ k = fromRaw raw := by
  rw [isEncodedFrom, Codec.isEncodedFrom_iff]
  cases k
  simp [fromRaw, encodeBytes]

end Key

/-- The memcomparable encoding keeps the order of byte strings whatever
follows the encodings, the descending one reverses it, and a timestamped key
sorts by user key and then newest first, with the user key and the timestamp
recovered by `split_on_ts_for`, `decode_ts_from` and `truncate_ts`. -/
theorem memcomparable_order :
    (∀ a b s t : Bytes, a < b →
      encodeBytes a ++ s < encodeBytes b ++ t ∧ encodeBytesDesc b ++ s < encodeBytesDesc a ++ t) ∧
    (∀ (a b : Bytes) (t₁ t₂ : TimeStamp),
      (Key.fromRaw a).appendTs t₁ < (Key.fromRaw b).appendTs t₂ ↔ a < b ∨ (a = b ∧ t₁ > t₂)) ∧
    (∀ (a : Bytes) (t₁ : TimeStamp),
      Key.splitOnTsFor ((Key.fromRaw a).appendTs t₁).encoded = .ok ((Key.fromRaw a).encoded, t₁) ∧
      Key.decodeTsFrom ((Key.fromRaw a).appendTs t₁).encoded = .ok t₁ ∧
      ((Key.fromRaw a).appendTs t₁).truncateTs = .ok (Key.fromRaw a)) := by
  refine ⟨fun a b s t hab => ⟨((encodeBytes_forkLt hab).append s t).lt,
    ((encodeBytesDesc_forkLt hab).append s t).lt⟩, Key.appendTs_lt_appendTs_iff,
    fun a t₁ => ⟨Key.splitOnTsFor_appendTs a t₁, Key.decodeTsFrom_appendTs a t₁,
      Key.truncateTs_appendTs a t₁⟩⟩

/-- `is_encoded_from` decides whether bytes are the memcomparable encoding
of a key, in either direction, and so `Key::is_encoded_from` whether a key
is `Key::from_raw` of a user key. -/
theorem isEncodedFrom_decides_encoding (e r : Bytes) (desc : Bool) (k : Key) :
    (Codec.isEncodedFrom e r desc = true ↔ e = encodeOrderBytes r desc) ∧
      (k.isEncodedFrom r = true ↔ k = Key.fromRaw r) :=
  ⟨Codec.isEncodedFrom_iff e r desc, Key.isEncodedFrom_iff_eq_fromRaw k r⟩

end Tikv.TxnTypes
