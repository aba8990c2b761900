import Tikv.Codec.Bytes
import Tikv.Lib.Decoding

/-!
# Shared transaction types (`txn_types`)

Timestamps are `u64` (`TimeStamp(u64)`); values are byte strings. `LastChange`
is the pointer a `Lock` or `Write` record may carry to the newest `Put` or
`Delete` below it. It is stored as a pair `(ts, versions)`
(components/txn_types/src/types.rs:648-653):

* `(0, 0)` is `Unknown`;
* `(0, n)` with `n > 0` is `NotExist`;
* `(ts, n)` with `ts > 0` is `Exist`, built by `make_exist`, which asserts
  `n > 0` (the process aborts otherwise).

`LastChange.Valid` is what `make_exist` guarantees of every `Exist` value;
`fromParts_toParts` is the round trip of the pair encoding on valid values.
-/
namespace Tikv.TxnTypes
open Tikv.Codec

abbrev TimeStamp := UInt64

abbrev Value := Bytes

/-- mirrors components/txn_types/src/types.rs:23 -/
def SHORT_VALUE_MAX_LEN : Nat := 255

/-- mirrors components/txn_types/src/types.rs:24 (`b'v'`) -/
def SHORT_VALUE_PREFIX : UInt8 := 0x76

/-- mirrors components/txn_types/src/types.rs:26-29 (`is_short_value`) -/
def isShortValue (value : Bytes) : Bool := value.length ≤ SHORT_VALUE_MAX_LEN

/-- `txn_types::ErrorInner`, the variants that decoding raises. `assertionFailed`
stands for an `assert!` or `panic!` of the source: the process aborts there. -/
inductive Error where
  | io (e : Codec.Error)
  | codec (e : Codec.Error)
  | badFormatLock
  | badFormatWrite
  | assertionFailed
  deriving DecidableEq, Repr

/-- `ReadBytesExt::read_u8` on a slice. -/
def readU8 : Bytes → Except Error (UInt8 × Bytes)
  | [] => .error (.io .eof)
  | b :: bs => .ok (b, bs)

/-- `?` on a `tikv_util::codec` result inside `txn_types`. -/
def liftCodec {α : Type} : Except Codec.Error α → Except Error α
  | .ok a => .ok a
  | .error e => .error (.codec e)

@[simp]
theorem liftCodec_ok {α : Type} (a : α) : liftCodec (.ok a : Except Codec.Error α) = .ok a := rfl

/-- mirrors components/txn_types/src/types.rs:619-636 -/
inductive LastChange where
  | unknown
  | exist (lastChangeTs : TimeStamp) (estimatedVersionsToLastChange : UInt64)
  | notExist
  deriving DecidableEq, Repr

namespace LastChange

/-- mirrors components/txn_types/src/types.rs:639-646 (`make_exist`) -/
def makeExist (lastChangeTs : TimeStamp) (estimatedVersionsToLastChange : UInt64) :
    Except Error LastChange :=
  if lastChangeTs ≠ 0 ∧ estimatedVersionsToLastChange > 0 then
    .ok (.exist lastChangeTs estimatedVersionsToLastChange)
  else .error .assertionFailed

/-- mirrors components/txn_types/src/types.rs:655-664 (`to_parts`) -/
def toParts : LastChange → TimeStamp × UInt64
  | .unknown => (0, 0)
  | .exist ts n => (ts, n)
  | .notExist => (0, 1)

/-- mirrors components/txn_types/src/types.rs:666-676 (`from_parts`) -/
def fromParts (lastChangeTs : TimeStamp) (estimatedVersionsToLastChange : UInt64) :
    Except Error LastChange :=
  if lastChangeTs = 0 then
    .ok (if estimatedVersionsToLastChange > 0 then .notExist else .unknown)
  else makeExist lastChangeTs estimatedVersionsToLastChange

/-- The values `make_exist` can build: an `Exist` pointer has a nonzero
timestamp and a nonzero version count. -/
def Valid : LastChange → Prop
  | .exist ts n => ts ≠ 0 ∧ n ≠ 0
  | _ => True

instance (lc : LastChange) : Decidable lc.Valid := by
  cases lc <;> unfold Valid <;> infer_instance

theorem fromParts_toParts (lc : LastChange) (h : lc.Valid) :
    fromParts lc.toParts.1 lc.toParts.2 = .ok lc := by
  cases lc with
  | unknown => rfl
  | notExist => rfl
  | exist ts n =>
    obtain ⟨hts, hn⟩ := h
    have hpos : n > 0 := UInt64.pos_iff_ne_zero.mpr hn
    simp only [toParts, fromParts, hts, if_false, makeExist, ne_eq, not_false_eq_true, true_and,
      hpos, if_true]

end LastChange

end Tikv.TxnTypes
