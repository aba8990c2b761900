import Tikv.Lib.BitRange
import Tikv.Lib.Calendar

/-!
# MySQL date and time values (`codec/mysql/time/mod.rs`)

A `Time` is one `u64` cut into fields by the `bitfield!` macro: year in
bits 63..50, month 49..46, day 45..41, hour 40..36, minute 35..30, second
29..24, microsecond 23..4, and in bits 3..0 `fsp_tt`, the fractional
seconds precision and the time type (`0b1110` for a date). Equality, order
and hashing compare the word with `fsp_tt` cleared.

A `Time` is built from `TimeArgs`, whose components are `u32`: `Time::new`
validates them against the context's SQL mode (`TimeArgs::check`), which
may turn an invalid or zero date into the zero time or into an error, and
writes the result into the fields (`unchecked_new`). `to_packed_u64` and
`from_packed_u64` are the datum format, `(year * 13 + month) << 5 | day`
above a 17-bit `hour:minute:second` above 24 bits of microseconds.
`Time::round_frac` rounds the microseconds to a precision and carries into
the other components (`round_components`).

The context is the part of `EvalContext` these functions read: the SQL
mode flags, the `IGNORE_TRUNCATE` flag, and the time zone, of which only
the conversions the `Timestamp` branches call are kept (`Tz`). Warnings the
handlers append to the context are left out. Components are `Nat`; where
the source casts a `u64` to `u32` the model takes the low 32 bits.
-/
namespace Tikv.Codec.Mysql

/-- The errors of this module: `Error::truncated()`,
`Error::incorrect_datetime_value(..)` with the value it prints,
`invalid_type!("Invalid fsp ..")`, and the boxed error of `set_time_type`. -/
inductive Error where
  | truncated
  | incorrectDatetimeValue (bits : UInt64)
  | invalidFsp (fsp : Int)
  | cannotConvertToTimestamp
  deriving DecidableEq, Repr

/-- `UNSPECIFIED_FSP` -/
def UNSPECIFIED_FSP : Int := -1

/-- `MAX_FSP` -/
def MAX_FSP : Int := 6

/-- `MIN_FSP` -/
def MIN_FSP : Int := 0

/-- `DEFAULT_FSP` -/
def DEFAULT_FSP : Int := 0

/-- `TEN_POW[k]` (codec/mod.rs:35-46), for the indexes `k ≤ 9` it has. -/
def TEN_POW (k : Nat) : Nat := 10 ^ k

/-- `MIN_TIMESTAMP` -/
def MIN_TIMESTAMP : Int := 0

/-- `MAX_TIMESTAMP` -/
def MAX_TIMESTAMP : Int := 2 ^ 31 - 1

/-- mirrors components/tidb_query_datatype/src/codec/mysql/mod.rs:18-26 (`check_fsp`) -/
def checkFsp (fsp : Int) : Except Error Nat :=
  if fsp = UNSPECIFIED_FSP then .ok DEFAULT_FSP.toNat
  else if ¬ (MIN_FSP ≤ fsp ∧ fsp ≤ MAX_FSP) then .error (.invalidFsp fsp)
  else .ok fsp.toNat

/-! ## The calendar and rounding -/

/-- mirrors time/mod.rs:60-62 (`is_leap_year`) -/
def isLeapYear (year : Nat) : Bool :=
  year &&& 3 == 0 && (year % 100 != 0 || year % 400 == 0)

/-- mirrors time/mod.rs:64-70 (`last_day_of_month`) -/
def lastDayOfMonth (year month : Nat) : Nat :=
  match month with
  | 4 | 6 | 9 | 11 => 30
  | 2 => (if isLeapYear year then 1 else 0) + 28
  | _ => 31

/-- The loop of `round_components` (time/mod.rs:93-102) for `i` from `n`
down to 1: a component at or past its modulus (plus one for the 1-based
year, month and day) gives its modulus up and carries one into the
component before it, unless that one is a zero date component or already
past its own modulus. Parts always has seven components. -/
def roundComponentsGo (modulus : List Nat) : Nat → List Nat → Option (List Nat)
  | 0, parts => some parts
  | i + 1, parts =>
    let isYmd := if i + 1 < 3 then 1 else 0
    if parts.getD (i + 1) 0 ≥ modulus.getD (i + 1) 0 + isYmd then
      let parts := parts.set (i + 1) (parts.getD (i + 1) 0 - modulus.getD (i + 1) 0)
      if (i + 1 < 4 && parts.getD i 0 == 0) || parts.getD i 0 > modulus.getD i 0 then none
      else roundComponentsGo modulus i (parts.set i (parts.getD i 0 + 1))
    else roundComponentsGo modulus i parts

/-- mirrors time/mod.rs:81-104 (`round_components`); the day's modulus is
taken once, from the year and month before the carry. -/
def roundComponents (parts : List Nat) : Option (List Nat) :=
  let modulus := [4294967295, 12, lastDayOfMonth (parts.getD 0 0) (parts.getD 1 0), 24, 60, 60, 1000000]
  roundComponentsGo modulus 6 parts

/-- mirrors time/mod.rs:153-165 (`round_frac`): the microseconds rounded
half up to `fsp` digits, and whether they reached a whole second. -/
def roundFrac (frac fsp : Nat) : Bool × Nat :=
  if frac < 1000000 && fsp == 6 then (false, frac)
  else
    let width := if frac ≥ 1000000 then 7 else 6
    let mask := TEN_POW (width - fsp - 1)
    let result := (frac / mask + 5) / 10 * mask * (if width == 6 then 10 else 1)
    (result ≥ 1000000, result)

/-! ## The bitfield -/

/-- mirrors time/mod.rs:205-209 (`TimeType`) -/
inductive TimeType where
  | date
  | dateTime
  | timestamp
  deriving DecidableEq, Repr

/-- mirrors time/mod.rs:167-190 (`bitfield! struct Time(u64)`) -/
structure Time where
  bits : UInt64
  deriving DecidableEq, Repr

namespace Time

/-- `get_year`: bits 63..50 -/
def getYear (t : Time) : Nat := t.bits.bitRange 63 50

/-- `get_month`: bits 49..46 -/
def getMonth (t : Time) : Nat := t.bits.bitRange 49 46

/-- `get_day`: bits 45..41 -/
def getDay (t : Time) : Nat := t.bits.bitRange 45 41

/-- `get_hour`: bits 40..36 -/
def getHour (t : Time) : Nat := t.bits.bitRange 40 36

/-- `get_minute`: bits 35..30 -/
def getMinute (t : Time) : Nat := t.bits.bitRange 35 30

/-- `get_second`: bits 29..24 -/
def getSecond (t : Time) : Nat := t.bits.bitRange 29 24

/-- `get_micro`: bits 23..4 -/
def getMicro (t : Time) : Nat := t.bits.bitRange 23 4

/-- `get_fsp_tt`: bits 3..0 -/
def getFspTt (t : Time) : Nat := t.bits.bitRange 3 0

/-- `set_year` -/
def setYear (t : Time) (v : Nat) : Time := ⟨t.bits.setBitRange 63 50 v⟩

/-- `set_month` -/
def setMonth (t : Time) (v : Nat) : Time := ⟨t.bits.setBitRange 49 46 v⟩

/-- `set_day` -/
def setDay (t : Time) (v : Nat) : Time := ⟨t.bits.setBitRange 45 41 v⟩

/-- `set_hour` -/
def setHour (t : Time) (v : Nat) : Time := ⟨t.bits.setBitRange 40 36 v⟩

/-- `set_minute` -/
def setMinute (t : Time) (v : Nat) : Time := ⟨t.bits.setBitRange 35 30 v⟩

/-- `set_second` -/
def setSecond (t : Time) (v : Nat) : Time := ⟨t.bits.setBitRange 29 24 v⟩

/-- `set_micro` -/
def setMicro (t : Time) (v : Nat) : Time := ⟨t.bits.setBitRange 23 4 v⟩

/-- `set_fsp_tt` -/
def setFspTt (t : Time) (v : Nat) : Time := ⟨t.bits.setBitRange 3 0 v⟩

/-- mirrors time/mod.rs:1352-1363 (`get_time_type`) -/
def getTimeType (t : Time) : TimeType :=
  let ft := t.getFspTt
  if ft >>> 1 == 0b111 then .date
  else if ft &&& 1 == 0 then .dateTime
  else .timestamp

/-- mirrors time/mod.rs:1322-1329 (`fsp`) -/
def fsp (t : Time) : Nat :=
  let fsp := t.getFspTt >>> 1
  match t.getTimeType with
  | .date => 0
  | _ => fsp

/-- mirrors time/mod.rs:1331-1340 (`set_fsp`) -/
def setFsp (t : Time) (fsp : Nat) : Time :=
  if t.getTimeType = .date then t
  else
    let fsp := if fsp > MAX_FSP.toNat then MAX_FSP.toNat else fsp
    t.setFspTt ((fsp <<< 1) ||| (t.getFspTt &&& 1))

/-- mirrors time/mod.rs:1381-1393 (`set_tt`) -/
def setTt (t : Time) (timeType : TimeType) : Time :=
  let ft := t.getFspTt
  let ft := if ft == 0b1110 && timeType != .date then 0 else ft
  let mask := match timeType with
    | .date => 0b1110
    | .dateTime => ft &&& 0b1110
    | .timestamp => ft ||| 1
  t.setFspTt mask

/-- mirrors time/mod.rs:1291-1294 (`is_zero`) -/
def isZero (t : Time) : Bool := (t.setFspTt 0).bits == 0

/-- mirrors time/mod.rs:1170-1181 (`into_array`); `year()` and the other
accessors are the getters. -/
def intoArray (t : Time) : List Nat :=
  [t.getYear, t.getMonth, t.getDay, t.getHour, t.getMinute, t.getSecond, t.getMicro]

/-- mirrors time/mod.rs:2048-2074: `eq` and `cmp` compare the words with
`fsp_tt` cleared (`Hash` hashes the same word). -/
def cmp (a b : Time) : Ordering := compare (a.setFspTt 0).bits (b.setFspTt 0).bits

end Time

/-! ## Validation -/

/-- mirrors time/mod.rs:962-1001 (`TimeArgs`, `Default`) -/
structure TimeArgs where
  year : Nat
  month : Nat
  day : Nat
  hour : Nat
  minute : Nat
  second : Nat
  micro : Nat
  fsp : Int
  timeType : TimeType
  deriving DecidableEq, Repr

/-- The SQL mode flags `TimeArgs::check` reads. -/
structure SqlMode where
  strictAllTables : Bool
  strictTransTables : Bool
  noZeroDate : Bool
  noZeroInDate : Bool
  invalidDates : Bool
  deriving DecidableEq, Repr

/-- The time zone of the context, as the `Timestamp` branches use it through
`chrono`; each reads the seven components of its argument and `none` is a
conversion that fails. -/
structure Tz where
  /-- `chrono_datetime(&tz, ..)` then `timestamp()` -/
  timestamp : TimeArgs → Option Int
  /-- `chrono_datetime(&tz, ..)` then `naive_utc()` -/
  toUtc : TimeArgs → Option TimeArgs
  /-- `chrono_datetime(&Utc, ..)`, then `tz.from_utc_datetime(..)` and `naive_local()` -/
  fromUtc : TimeArgs → Option TimeArgs

/-- The part of `EvalContext` these functions read: `cfg.sql_mode`,
`Flag::IGNORE_TRUNCATE` of `cfg.flag`, and `cfg.tz`. -/
structure EvalContext where
  sqlMode : SqlMode
  ignoreTruncate : Bool
  tz : Tz

/-- `STRICT_ALL_TABLES | STRICT_TRANS_TABLES` -/
def EvalContext.strictMode (ctx : EvalContext) : Bool :=
  ctx.sqlMode.strictAllTables || ctx.sqlMode.strictTransTables

namespace TimeArgs

/-- mirrors time/mod.rs:1003-1015 (`TimeArgs::zero`) -/
def zero (fsp : Int) (timeType : TimeType) : TimeArgs := ⟨0, 0, 0, 0, 0, 0, 0, fsp, timeType⟩

/-- mirrors time/mod.rs:1017-1025 (`clear`) -/
def clear (a : TimeArgs) : TimeArgs :=
  { a with year := 0, month := 0, day := 0, hour := 0, minute := 0, second := 0, micro := 0 }

/-- mirrors time/mod.rs:1027-1035 (`is_zero`) -/
def isZero (a : TimeArgs) : Bool :=
  a.year == 0 && a.month == 0 && a.day == 0 && a.hour == 0 && a.minute == 0 && a.second == 0 &&
    a.micro == 0

end TimeArgs

/-- mirrors time/mod.rs:906-923 (`handle_zero_date`) -/
def handleZeroDate (ctx : EvalContext) (args : TimeArgs) : Except Error (Option TimeArgs) :=
  if ctx.sqlMode.noZeroDate then
    if !ctx.strictMode || ctx.ignoreTruncate then .ok none else .error .truncated
  else .ok (some args)

/-- mirrors time/mod.rs:925-946 (`handle_zero_in_date`) -/
def handleZeroInDate (ctx : EvalContext) (args : TimeArgs) : Except Error (Option TimeArgs) :=
  if ctx.sqlMode.noZeroInDate then
    if !ctx.strictMode || ctx.ignoreTruncate then handleZeroDate ctx args.clear else .error .truncated
  else .ok (some args)

/-- mirrors time/mod.rs:948-954 (`handle_invalid_date`) -/
def handleInvalidDate (ctx : EvalContext) (args : TimeArgs) : Except Error (Option TimeArgs) :=
  if ctx.sqlMode.invalidDates then handleZeroDate ctx args.clear else .error .truncated

/-- mirrors time/mod.rs:1270-1289 (`check_month_and_day`) -/
def checkMonthAndDay (year month day : Nat) (allowInvalidDate : Bool) : Except Error Unit :=
  if month > 12 || day > 31 then .error .truncated
  else if allowInvalidDate then .ok ()
  else if day > lastDayOfMonth year month then .error .truncated
  else .ok ()

namespace TimeArgs

/-- mirrors time/mod.rs:1037-1056 (`check_date`); the year, month and day it
checks last are those it was given, read before the zero handlers. -/
def checkDate (a : TimeArgs) (ctx : EvalContext) : Except Error (Option TimeArgs) := do
  let isRelaxed := ctx.sqlMode.invalidDates
  let some a' ← (if a.isZero then handleZeroDate ctx a else pure (some a)) | return none
  let some a' ← (if a.month == 0 || a.day == 0 then handleZeroInDate ctx a' else pure (some a'))
    | return none
  match checkMonthAndDay a.year a.month a.day isRelaxed with
  | .error _ => handleInvalidDate ctx a'
  | .ok () => if a.year > 9999 then handleInvalidDate ctx a' else return some a'

/-- mirrors time/mod.rs:1058-1074 (`check_datetime`) -/
def checkDatetime (a : TimeArgs) (ctx : EvalContext) : Except Error (Option TimeArgs) := do
  let some d ← a.checkDate ctx | return none
  if d.hour > 23 || d.minute > 59 || d.second > 59 || d.micro > 999999 then handleInvalidDate ctx d
  else return some d

/-- mirrors time/mod.rs:1076-1103 (`check_timestamp`) -/
def checkTimestamp (a : TimeArgs) (ctx : EvalContext) : Except Error (Option TimeArgs) :=
  if a.isZero then handleZeroDate ctx a
  else
    match ctx.tz.timestamp a with
    | none => handleInvalidDate ctx a
    | some ts => if ¬ (MIN_TIMESTAMP ≤ ts ∧ ts ≤ MAX_TIMESTAMP) then handleInvalidDate ctx a else .ok (some a)

/-- mirrors time/mod.rs:992-1001 (`TimeArgs::check`) -/
def check (a : TimeArgs) (ctx : EvalContext) : Option TimeArgs := do
  let fsp ← (checkFsp a.fsp).toOption
  let a := { a with fsp := fsp }
  let r := match a.timeType with
    | .date | .dateTime => a.checkDatetime ctx
    | .timestamp => a.checkTimestamp ctx
  (r.map fun d => d.getD (TimeArgs.zero fsp a.timeType)).toOption

end TimeArgs

namespace Time

/-- mirrors time/mod.rs:1230-1253 (`unchecked_new`); `fsp as u8` is the
`i8` modulo 256. -/
def uncheckedNew (config : TimeArgs) : Time :=
  let time : Time := ⟨0⟩
  let time := time.setYear config.year
  let time := time.setMonth config.month
  let time := time.setDay config.day
  let time := time.setHour config.hour
  let time := time.setMinute config.minute
  let time := time.setSecond config.second
  let time := time.setMicro config.micro
  let time := time.setTt config.timeType
  time.setFsp (config.fsp % 256).toNat

/-- mirrors time/mod.rs:1255-1268 (`Time::new`) -/
def new (ctx : EvalContext) (config : TimeArgs) : Except Error Time :=
  let uncheckedTime := uncheckedNew config
  match config.check ctx with
  | none => .error (.incorrectDatetimeValue uncheckedTime.bits)
  | some checked =>
    let checked := if checked.timeType = .date then
        { checked with hour := 0, minute := 0, second := 0, micro := 0, fsp := 0 }
      else checked
    .ok (uncheckedNew checked)

/-- mirrors time/mod.rs:1110-1133 (`from_slice`) -/
def fromSlice (ctx : EvalContext) (parts : List Nat) (timeType : TimeType) (fsp : Nat) : Option Time :=
  match parts with
  | [year, month, day, hour, minute, second, micro] =>
    (Time.new ctx ⟨year, month, day, hour, minute, second, micro, fsp, timeType⟩).toOption
  | _ => none

/-- mirrors time/mod.rs:1183-1203 (`try_from_chrono_datetime`), on the components of the `chrono` value. -/
def tryFromChronoDatetime (ctx : EvalContext) (datetime : TimeArgs) (timeType : TimeType) (fsp : Int) :
    Except Error Time :=
  Time.new ctx { datetime with fsp := fsp, timeType := timeType }

/-- The components of a time as `TimeArgs`, as `chrono_datetime` is called with them. -/
def toArgs (t : Time) : TimeArgs :=
  ⟨t.getYear, t.getMonth, t.getDay, t.getHour, t.getMinute, t.getSecond, t.getMicro, t.fsp, t.getTimeType⟩

/-- The packing of `to_packed_u64` (time/mod.rs:1451-1457). -/
def packDateTime (t : Time) : UInt64 :=
  let ymd := ((t.getYear.toUInt64 * 13 + t.getMonth.toUInt64) <<< 5) ||| t.getDay.toUInt64
  let hms := (t.getHour.toUInt64 <<< 12) ||| (t.getMinute.toUInt64 <<< 6) ||| t.getSecond.toUInt64
  (((ymd <<< 17) ||| hms) <<< 24) ||| t.getMicro.toUInt64

/-- mirrors time/mod.rs:1438-1458 (`to_packed_u64`); a timestamp is moved to
UTC first. -/
def toPackedU64 (t : Time) (ctx : EvalContext) : Except Error UInt64 :=
  if t.isZero then .ok 0
  else if t.getTimeType = .timestamp then
    match ctx.tz.toUtc t.toArgs with
    | none => .error .truncated
    | some utc => (tryFromChronoDatetime ctx utc t.getTimeType t.fsp).map packDateTime
  else .ok t.packDateTime

/-- mirrors time/mod.rs:1395-1436 (`from_packed_u64`) -/
def fromPackedU64 (ctx : EvalContext) (value : UInt64) (timeType : TimeType) (fsp : Int) :
    Except Error Time := do
  if value = 0 then return ← Time.new ctx (TimeArgs.zero fsp timeType)
  let fsp ← checkFsp fsp
  let ymdhms := value >>> 24
  let ymd := ymdhms >>> 17
  let ym := ymd >>> 5
  let hms := ymdhms &&& (((1 : UInt64) <<< 17) - 1)
  let day := (ymd &&& (((1 : UInt64) <<< 5) - 1)).toUInt32.toNat
  let month := (ym % 13).toUInt32.toNat
  let year := (ym / 13).toUInt32.toNat
  let second := (hms &&& (((1 : UInt64) <<< 6) - 1)).toUInt32.toNat
  let minute := ((hms >>> 6) &&& (((1 : UInt64) <<< 6) - 1)).toUInt32.toNat
  let hour := (hms >>> 12).toUInt32.toNat
  let micro := (value &&& (((1 : UInt64) <<< 24) - 1)).toUInt32.toNat
  let args : TimeArgs := ⟨year, month, day, hour, minute, second, micro, fsp, timeType⟩
  if timeType = .timestamp then
    match ctx.tz.fromUtc args with
    | none => throw .truncated
    | some localTime => tryFromChronoDatetime ctx localTime timeType fsp
  else return uncheckedNew args

/-- mirrors time/mod.rs:1522-1547 (`Time::round_frac`) -/
def roundFrac (t : Time) (ctx : EvalContext) (fsp : Int) : Except Error Time := do
  let timeType := t.getTimeType
  if timeType = .date || t.isZero then return t
  let fsp ← checkFsp fsp
  if fsp > t.fsp then return t.setFsp fsp
  let (carry, frac) := Mysql.roundFrac t.getMicro fsp
  let slice := t.intoArray.set 6 frac
  match (if carry then roundComponents slice else some slice) with
  | none => Time.new ctx (TimeArgs.zero fsp timeType)
  | some slice =>
    match fromSlice ctx slice timeType fsp with
    | some t' => return t'
    | none => throw (.incorrectDatetimeValue t.bits)

end Time


/-! ## The fields -/

namespace Time
open UInt64

/-- Every field is below its width. -/
theorem fields_lt (t : Time) :
    t.getYear < 2 ^ 14 ∧ t.getMonth < 2 ^ 4 ∧ t.getDay < 2 ^ 5 ∧ t.getHour < 2 ^ 5 ∧
      t.getMinute < 2 ^ 6 ∧ t.getSecond < 2 ^ 6 ∧ t.getMicro < 2 ^ 20 ∧ t.getFspTt < 2 ^ 4 :=
  ⟨bitRange_lt _ (by omega) (by omega), bitRange_lt _ (by omega) (by omega),
    bitRange_lt _ (by omega) (by omega), bitRange_lt _ (by omega) (by omega),
    bitRange_lt _ (by omega) (by omega), bitRange_lt _ (by omega) (by omega),
    bitRange_lt _ (by omega) (by omega), bitRange_lt _ (by omega) (by omega)⟩

@[simp]
theorem intoArray_setFspTt (t : Time) (v : Nat) : (t.setFspTt v).intoArray = t.intoArray := by
  simp (disch := omega) only [intoArray, setFspTt, getYear, getMonth, getDay, getHour, getMinute,
    getSecond, getMicro, bitRange_setBitRange_of_disjoint]

@[simp]
theorem getFspTt_setFspTt (t : Time) (v : Nat) : (t.setFspTt v).getFspTt = v % 16 :=
  bitRange_setBitRange_self _ (by omega) (by omega) v

@[simp]
theorem intoArray_setTt (t : Time) (timeType : TimeType) : (t.setTt timeType).intoArray = t.intoArray :=
  intoArray_setFspTt _ _

@[simp]
theorem intoArray_setFsp (t : Time) (fsp : Nat) : (t.setFsp fsp).intoArray = t.intoArray := by
  unfold setFsp
  split
  · rfl
  · exact intoArray_setFspTt _ _

theorem intoArray_uncheckedNew (a : TimeArgs) :
    (uncheckedNew a).intoArray = [a.year % 2 ^ 14, a.month % 2 ^ 4, a.day % 2 ^ 5, a.hour % 2 ^ 5,
      a.minute % 2 ^ 6, a.second % 2 ^ 6, a.micro % 2 ^ 20] := by
  rw [uncheckedNew]
  simp only [intoArray_setFsp, intoArray_setTt]
  simp (disch := omega) only [intoArray, setYear, setMonth, setDay, setHour, setMinute, setSecond, setMicro, getYear, getMonth, getDay, getHour,
    getMinute, getSecond, getMicro, bitRange_setBitRange_of_disjoint, bitRange_setBitRange_self]

/-- The type and the precision, read off `fsp_tt` as numbers. -/
theorem getTimeType_eq (t : Time) :
    t.getTimeType = if t.getFspTt / 2 = 7 then .date else if t.getFspTt % 2 = 0 then .dateTime
      else .timestamp := by
  simp only [getTimeType, Nat.shiftRight_one, Nat.and_one_is_mod, beq_iff_eq]

theorem fsp_eq (t : Time) : t.fsp = if t.getTimeType = .date then 0 else t.getFspTt / 2 := by
  unfold fsp
  split <;> simp_all [Nat.shiftRight_one]

/-- `set_tt` on a word whose `fsp_tt` is clear. -/
theorem getFspTt_setTt_of_zero {t : Time} (h : t.getFspTt = 0) (timeType : TimeType) :
    (t.setTt timeType).getFspTt = match timeType with | .date => 14 | .dateTime => 0 | .timestamp => 1 := by
  cases timeType <;> simp [setTt, h]

/-- `set_fsp` on a time that is not a date keeps the type bit and writes the precision, at most six. -/
theorem getFspTt_setFsp {t : Time} (h : t.getTimeType ≠ .date) (fsp : Nat) :
    (t.setFsp fsp).getFspTt = 2 * min fsp 6 + t.getFspTt % 2 := by
  have hlt := (fields_lt t).2.2.2.2.2.2.2
  have hmin : (if fsp > MAX_FSP.toNat then MAX_FSP.toNat else fsp) = min fsp 6 := by
    simp only [MAX_FSP, gt_iff_lt]
    split <;> omega
  rw [setFsp, if_neg h, hmin, getFspTt_setFspTt, Nat.shiftLeft_eq, Nat.and_one_is_mod, Nat.pow_one,
    Nat.mul_comm, ← Nat.two_pow_add_eq_or_of_lt (i := 1) (Nat.mod_lt _ (by omega)), Nat.pow_one]
  omega

theorem getFspTt_uncheckedNew (a : TimeArgs) :
    (uncheckedNew a).getFspTt = match a.timeType with
      | .date => 14
      | .dateTime => 2 * min (a.fsp % 256).toNat 6
      | .timestamp => 2 * min (a.fsp % 256).toNat 6 + 1 := by
  -- the components are written first, on a clear word
  have h0 : ((((((((⟨0⟩ : Time).setYear a.year).setMonth a.month).setDay a.day).setHour a.hour).setMinute
      a.minute).setSecond a.second).setMicro a.micro).getFspTt = 0 := by
    simp (disch := omega) only [getFspTt, setYear, setMonth, setDay, setHour, setMinute, setSecond,
      setMicro, bitRange_setBitRange_of_disjoint, bitRange_zero]
  rw [uncheckedNew]
  generalize (((((((⟨0⟩ : Time).setYear a.year).setMonth a.month).setDay a.day).setHour a.hour).setMinute
      a.minute).setSecond a.second).setMicro a.micro = t0 at h0 ⊢
  have h1 := getFspTt_setTt_of_zero h0 a.timeType
  cases hty : a.timeType with
  | date =>
    rw [hty] at h1
    have hdate : (t0.setTt .date).getTimeType = .date := by
      rw [getTimeType_eq, h1]
      rfl
    rw [setFsp, if_pos hdate, h1]
  | dateTime =>
    rw [hty] at h1
    rw [getFspTt_setFsp (by rw [getTimeType_eq, h1]; decide), h1]
    rfl
  | timestamp =>
    rw [hty] at h1
    rw [getFspTt_setFsp (by rw [getTimeType_eq, h1]; decide), h1]
    rfl

theorem getTimeType_uncheckedNew (a : TimeArgs) : (uncheckedNew a).getTimeType = a.timeType := by
  have hmin := Nat.min_le_right (a.fsp % 256).toNat 6
  rw [getTimeType_eq, getFspTt_uncheckedNew]
  cases a.timeType <;> dsimp only
  case date => rw [if_pos (by decide)]
  case dateTime => rw [if_neg (by omega), if_pos (by omega)]
  case timestamp => rw [if_neg (by omega), if_neg (by omega)]

theorem fsp_uncheckedNew (a : TimeArgs) :
    (uncheckedNew a).fsp = if a.timeType = .date then 0 else min (a.fsp % 256).toNat 6 := by
  rw [fsp_eq, getTimeType_uncheckedNew, getFspTt_uncheckedNew]
  cases a.timeType <;> dsimp only
  case date => rfl
  case dateTime => simp
  case timestamp => simp only [reduceCtorEq, if_false]; omega

end Time


/-! ## The calendar of the source -/

theorem isLeapYear_iff (year : Nat) : isLeapYear year = true ↔ Calendar.IsLeap year := by
  have h3 : year &&& 3 = year % 4 := Nat.and_two_pow_sub_one_eq_mod year 2
  simp [isLeapYear, Calendar.IsLeap, h3]

/-- `last_day_of_month` is the length of the month in the Gregorian calendar. -/
theorem lastDayOfMonth_eq (year month : Nat) : lastDayOfMonth year month = Calendar.monthLength year month := by
  unfold lastDayOfMonth Calendar.monthLength
  split
  · rfl
  · rfl
  · rfl
  · rfl
  · by_cases h : Calendar.IsLeap year
    · rw [if_pos ((isLeapYear_iff year).mpr h), if_pos h]
      rfl
    · rw [if_neg (mt (isLeapYear_iff year).mp h), if_neg h]
      rfl
  · split <;> simp_all

theorem checkFsp_of_mem {fsp : Int} (h : 0 ≤ fsp ∧ fsp ≤ 6) : checkFsp fsp = .ok fsp.toNat := by
  rw [checkFsp, if_neg (by simp only [UNSPECIFIED_FSP]; omega), if_neg (by simp only [MIN_FSP, MAX_FSP]; omega)]

/-- The modes in which a zero date is neither an error nor a warning turned
into one: not strict, or truncation ignored, or neither `NO_ZERO_DATE` nor
`NO_ZERO_IN_DATE`. -/
def EvalContext.allowsZeroDate (ctx : EvalContext) : Bool :=
  !ctx.strictMode || ctx.ignoreTruncate || !(ctx.sqlMode.noZeroDate || ctx.sqlMode.noZeroInDate)

/-! ## Validation of a date and time -/

namespace TimeArgs

/-- The components, as a date and time of the calendar. -/
def toDateTime (a : TimeArgs) : Calendar.DateTime :=
  ⟨a.year, a.month, a.day, a.hour, a.minute, a.second, a.micro⟩

theorem checkDatetime_of_valid (ctx : EvalContext) {a : TimeArgs} (hv : a.toDateTime.Valid)
    (hy : a.year ≤ 9999) : a.checkDatetime ctx = .ok (some a) := by
  obtain ⟨hm1, hm2, hd1, hd2, hh, hmi, hs, hus⟩ := hv
  simp only [toDateTime] at *
  have hzero : a.isZero = false := by simp [isZero]; omega
  have hmd : (a.month == 0 || a.day == 0) = false := by simp; omega
  have hlen := Calendar.monthLength_le a.year a.month
  have hcheck : checkMonthAndDay a.year a.month a.day ctx.sqlMode.invalidDates = .ok () := by
    rw [checkMonthAndDay, if_neg (by simp; omega)]
    split
    · rfl
    · rw [if_neg (by rw [lastDayOfMonth_eq]; omega)]
  have hdate : a.checkDate ctx = pure (some a) := by
    simp only [checkDate, hzero, hmd, Bool.false_eq_true, if_false, hcheck, pure_bind]
    rw [if_neg (by omega)]
  simp only [checkDatetime, hdate, pure_bind]
  rw [if_neg (by simp; omega)]
  rfl

/-- For a date or a datetime with a precision in range, `check` is `check_datetime`, with a
`None` from the handlers read as the zero time. -/
theorem check_of_ne_timestamp (ctx : EvalContext) {a : TimeArgs} (hty : a.timeType ≠ .timestamp)
    (hfsp : 0 ≤ a.fsp ∧ a.fsp ≤ 6) :
    a.check ctx = ((a.checkDatetime ctx).map fun d => d.getD (zero a.fsp a.timeType)).toOption := by
  have hfa : { a with fsp := (a.fsp.toNat : Int) } = a := by
    rw [Int.toNat_of_nonneg hfsp.1]
  unfold check
  rw [checkFsp_of_mem hfsp]
  simp only [Except.toOption, Option.bind_eq_bind, Option.bind_some]
  rw [hfa, Int.toNat_of_nonneg hfsp.1]
  cases h : a.timeType with
  | date => rfl
  | dateTime => rfl
  | timestamp => exact absurd h hty

theorem check_of_valid (ctx : EvalContext) {a : TimeArgs} (hv : a.toDateTime.Valid) (hy : a.year ≤ 9999)
    (hty : a.timeType = .dateTime) (hfsp : 0 ≤ a.fsp ∧ a.fsp ≤ 6) : a.check ctx = some a := by
  rw [check_of_ne_timestamp ctx (by rw [hty]; decide) hfsp, checkDatetime_of_valid ctx hv hy]
  rfl

theorem checkMonthAndDay_zero (allowInvalidDate : Bool) : checkMonthAndDay 0 0 0 allowInvalidDate = .ok () := by
  cases allowInvalidDate <;> decide

theorem checkDatetime_zero {ctx : EvalContext} (hallow : ctx.allowsZeroDate = true) (fsp : Int)
    (timeType : TimeType) :
    (zero fsp timeType).checkDatetime ctx =
      pure (if ctx.sqlMode.noZeroDate then none else some (zero fsp timeType)) := by
  have hz : (zero fsp timeType).isZero = true := rfl
  have hclear : (zero fsp timeType).clear = zero fsp timeType := rfl
  simp only [EvalContext.allowsZeroDate, Bool.or_eq_true, Bool.not_eq_true'] at hallow
  by_cases hnzd : ctx.sqlMode.noZeroDate
  · -- `NO_ZERO_DATE`: the handler clears the date and `check_date` gives up with `None`
    have hh : handleZeroDate ctx (zero fsp timeType) = pure none := by
      rw [handleZeroDate, if_pos hnzd, if_pos (by simp_all)]
      rfl
    simp only [checkDatetime, checkDate, hz, if_true, hh, pure_bind, hnzd]
  · have hh : handleZeroDate ctx (zero fsp timeType) = pure (some (zero fsp timeType)) := by
      rw [handleZeroDate, if_neg hnzd]
      rfl
    have hin : handleZeroInDate ctx (zero fsp timeType) = pure (some (zero fsp timeType)) := by
      rw [handleZeroInDate]
      split
      · rw [if_pos (by simp_all), hclear, hh]
      · rfl
    simp only [checkDatetime, checkDate, hz, hh, pure_bind, hnzd, hin, ite_self]
    simp [zero, checkMonthAndDay_zero]

theorem check_zero {ctx : EvalContext} (hallow : ctx.allowsZeroDate = true) {fsp : Int}
    (hfsp : 0 ≤ fsp ∧ fsp ≤ 6) {timeType : TimeType} (htt : timeType ≠ .timestamp) :
    (zero fsp timeType).check ctx = some (zero fsp timeType) := by
  rw [check_of_ne_timestamp ctx htt hfsp, checkDatetime_zero hallow]
  split <;> rfl

end TimeArgs

namespace Time

theorem new_of_valid (ctx : EvalContext) {a : TimeArgs} (hv : a.toDateTime.Valid) (hy : a.year ≤ 9999)
    (hty : a.timeType = .dateTime) (hfsp : 0 ≤ a.fsp ∧ a.fsp ≤ 6) : Time.new ctx a = .ok (uncheckedNew a) := by
  rw [Time.new, TimeArgs.check_of_valid ctx hv hy hty hfsp]
  simp only [hty, reduceCtorEq, if_false]

theorem new_zero {ctx : EvalContext} (hallow : ctx.allowsZeroDate = true) {fsp : Int}
    (hfsp : 0 ≤ fsp ∧ fsp ≤ 6) {timeType : TimeType} (htt : timeType ≠ .timestamp) :
    Time.new ctx (TimeArgs.zero fsp timeType) =
      .ok (uncheckedNew (TimeArgs.zero (if timeType = .date then 0 else fsp) timeType)) := by
  rw [Time.new, TimeArgs.check_zero hallow hfsp htt]
  cases timeType <;> rfl

end Time

end Tikv.Codec.Mysql
