import Mathlib.Data.Nat.Bitwise
import Tikv.Lib.Lex

/-!
# Integer codecs (`tikv_util::codec::number`, `codec::number`)

The lock and write records of the transaction layer are built from three
integer encodings:

* `encode_var_u64`: base-128 little-endian varint, continuation bit `0x80`
  on every byte but the last (`NumberEncoder::encode_var_u64`,
  components/tikv_util/src/codec/number.rs:94-100);
* `encode_var_i64`: the zig-zag mapping `(v << 1) ^ (v >> 63)` in front of it;
* `encode_u64`: eight bytes big-endian (`write_u64::<BigEndian>`).

There are two varint decoders. `tikv_util::codec::number::decode_var_u64`
has three branches (a one-byte shortcut, a loop of at most nine bytes plus a
tenth byte that must be `<= 1` when at least ten bytes are left or the
buffer ends in a terminating byte, and a plain loop over a short buffer).
`codec::NumberCodec::try_decode_var_u64` has a fast path for ten bytes or
more, which keeps only bit 0 of a tenth byte, and a slow path.

Results:
* `decodeVarU64_encodeVarU64`, `tryDecodeVarU64_encodeVarU64`: both decoders
  read back every `u64` written by `encode_var_u64`, with any bytes after it,
  through whichever branch the buffer selects.
* `decodeVarI64_encodeVarI64`: the zig-zag pair round-trips every `i64`.
* `decodeU64_encodeU64`: the big-endian pair round-trips.
* `encodeU64_lt_iff`: big-endian words compare as the numbers they write.
* `varint_codecs_agree`: the `codec` crate's writer
  (`NumberCodec::encode_var_u64`, `encode_var_i64`) writes what
  `NumberEncoder` writes, and both crates' decoders, `u64` and zig-zag
  `i64`, read it back.
-/
namespace Tikv.Codec

/-- `Vec<u8>` / `&[u8]`. -/
abbrev Bytes := List UInt8

/-- The errors the decoders raise: both crates report a short buffer as
`io::ErrorKind::UnexpectedEof`; `decode_var_u64` reports a tenth byte above
1 as `InvalidData` ("overflow"); the key codecs report `Error::KeyLength`
and `Error::KeyPadding` (`BadPadding` in the `codec` crate). -/
inductive Error where
  | eof
  | overflow
  | keyLength
  | keyPadding
  deriving DecidableEq, Repr

/-! ## Encoders -/

/-- mirrors components/tikv_util/src/codec/number.rs:94-100 (`encode_var_u64`) -/
def encodeVarU64 (v : UInt64) : Bytes :=
  if v ≥ 0x80 then (v.toUInt8 ||| 0x80) :: encodeVarU64 (v >>> 7) else [v.toUInt8]
termination_by v.toNat
decreasing_by
  have h : (0x80 : UInt64).toNat ≤ v.toNat := by assumption
  simp only [UInt64.toNat_shiftRight, Nat.shiftRight_eq_div_pow] at h ⊢
  simp only [UInt64.reduceToNat, Nat.reduceMod] at h ⊢
  omega

/-- mirrors components/tikv_util/src/codec/number.rs:84-91 (`encode_var_i64`) -/
def encodeVarI64 (v : Int64) : Bytes :=
  let vx := v.toUInt64 <<< 1
  encodeVarU64 (if v < 0 then ~~~vx else vx)

/-- `write_u64::<BigEndian>` (components/tikv_util/src/codec/number.rs:63-65). -/
def encodeU64 (v : UInt64) : Bytes :=
  [56, 48, 40, 32, 24, 16, 8, 0].map fun s : UInt64 => (v >>> s).toUInt8

/-- mirrors components/tikv_util/src/codec/number.rs:72-74 (`encode_u64_desc`) -/
def encodeU64Desc (v : UInt64) : Bytes :=
  encodeU64 (~~~v)

/-! ## Decoders -/

/-- Where a varint byte loop stopped: at a byte below `0x80` after reading
`n` bytes in all, or out of bytes or of iterations. -/
inductive VarLoop where
  | found (res : UInt64) (n : Nat)
  | exhausted (res : UInt64)
  deriving DecidableEq, Repr

/-- The byte loop of `decode_var_u64` (`for i in 0..bound`): byte `i` is ORed
in at shift `i * 7`, and the loop stops after the first byte below `0x80`.
`n` is the number of iterations left. -/
def decodeVarU64Loop : Bytes → Nat → UInt64 → Nat → VarLoop
  | [], _, res, _ => .exhausted res
  | _ :: _, _, res, 0 => .exhausted res
  | b :: bs, i, res, n + 1 =>
    let res := res ||| ((b.toUInt64 &&& 0x7f) <<< UInt64.ofNat (i * 7))
    if b < 0x80 then .found res (i + 1) else decodeVarU64Loop bs (i + 1) res n

/-- mirrors components/tikv_util/src/codec/number.rs:222-264 (`decode_var_u64`);
returns the value and the rest of the slice. -/
def decodeVarU64 (data : Bytes) : Except Error (UInt64 × Bytes) :=
  match data with
  | b0 :: bs =>
    if b0 < 0x80 then .ok (b0.toUInt64 &&& 0x7f, bs)
    else if 10 ≤ data.length ∨ (b0 :: bs).getLast (List.cons_ne_nil _ _) < 0x80 then
      match decodeVarU64Loop data 0 0 9 with
      | .found res n => .ok (res, data.drop n)
      | .exhausted res =>
        let b := data.getD 9 0
        if b ≤ 1 then .ok (res ||| ((b.toUInt64 &&& 0x7f) <<< 63), data.drop 10)
        else .error .overflow
    else
      -- a short buffer that does not end in a terminating byte
      match decodeVarU64Loop data 0 0 data.length with
      | .found res n => .ok (res, data.drop n)
      | .exhausted _ => .error .eof
  | [] => .error .eof

/-- mirrors components/tikv_util/src/codec/number.rs:210-219 (`decode_var_i64`) -/
def decodeVarI64 (data : Bytes) : Except Error (Int64 × Bytes) :=
  match decodeVarU64 data with
  | .ok (v, rest) =>
    let vx := v >>> 1
    .ok (if v &&& 1 = 0 then vx.toInt64 else (~~~vx).toInt64, rest)
  | .error e => .error e

/-- `BigEndian::read_u64` on the first eight bytes. -/
def readU64BE (bs : Bytes) : UInt64 :=
  bs.foldl (fun acc b => (acc <<< 8) ||| b.toUInt64) 0

/-- mirrors components/tikv_util/src/codec/number.rs:143-163 (`read_num_bytes`,
`decode_u64`) -/
def decodeU64 (data : Bytes) : Except Error (UInt64 × Bytes) :=
  if data.length ≥ 8 then .ok (readU64BE (data.take 8), data.drop 8) else .error .eof

/-- mirrors components/tikv_util/src/codec/number.rs:205-208 (`decode_u64_desc`) -/
def decodeU64Desc (data : Bytes) : Except Error (UInt64 × Bytes) :=
  match decodeU64 data with
  | .ok (v, rest) => .ok (~~~v, rest)
  | .error e => .error e

/-- The slow path of `try_decode_var_u64`: `while ptr != end && *ptr >= 0x80`,
then the terminating byte ORed in unmasked. `n` counts the bytes read. -/
def tryDecodeVarU64Slow : Bytes → UInt64 → UInt64 → Nat → Option (UInt64 × Nat)
  | [], _, _, _ => none
  | b :: bs, shift, val, n =>
    if b ≥ 0x80 then tryDecodeVarU64Slow bs (shift + 7) (val ||| ((b &&& 0x7f).toUInt64 <<< shift)) (n + 1)
    else some (val ||| (b.toUInt64 <<< shift), n + 1)

/-- mirrors components/codec/src/number.rs:442-481 (`NumberCodec::try_decode_var_u64`);
returns the value and the number of bytes read. -/
def tryDecodeVarU64 (buf : Bytes) : Except Error (UInt64 × Nat) :=
  if buf.length ≥ 10 then
    match decodeVarU64Loop buf 0 0 9 with
    | .found val n => .ok (val, n)
    | .exhausted val => .ok (val ||| ((buf.getD 9 0).toUInt64 &&& 0x01) <<< 63, 10)
  else
    match tryDecodeVarU64Slow buf 0 0 0 with
    | some r => .ok r
    | none => .error .eof

/-- `NumberDecoder::read_var_u64` (components/codec/src/number.rs:773-780): the
value, and the slice advanced past it. -/
def readVarU64 (buf : Bytes) : Except Error (UInt64 × Bytes) :=
  match tryDecodeVarU64 buf with
  | .ok (v, n) => .ok (v, buf.drop n)
  | .error e => .error e


/-! ## Digits of the encoder -/

theorem toUInt8_or80 (v : UInt64) : (v.toUInt8 ||| 0x80) = UInt8.ofNat (v.toNat % 128 + 128) := by
  apply UInt8.toNat_inj.mp
  have key : ∀ n, n < 256 → n ||| 128 = n % 128 + 128 := by decide +kernel
  rw [UInt8.toNat_or, UInt8.toNat_ofNat']
  simp only [UInt64.toNat_toUInt8, UInt8.reduceToNat]
  rw [key (v.toNat % 256) (Nat.mod_lt _ (by decide))]; omega

/-- One unfolding of the encoder, on naturals. -/
theorem encodeVarU64_eq (v : UInt64) :
    encodeVarU64 v = if v.toNat < 128 then [UInt8.ofNat v.toNat]
      else UInt8.ofNat (v.toNat % 128 + 128) :: encodeVarU64 (v >>> 7) := by
  rw [encodeVarU64]
  by_cases h : v.toNat < 128
  · rw [if_neg (by simp [UInt64.le_iff_toNat_le]; omega), if_pos h]; rfl
  · rw [if_pos (by simp [UInt64.le_iff_toNat_le]; omega), if_neg h, toUInt8_or80]

theorem shr7 (v : UInt64) : (v >>> 7).toNat = v.toNat / 128 := by
  rw [UInt64.toNat_shiftRight]; simp [Nat.shiftRight_eq_div_pow]

theorem encodeVarU64_ne_nil (v : UInt64) : encodeVarU64 v ≠ [] := by
  rw [encodeVarU64_eq]; split <;> simp

theorem ofNat_toNat_of_lt {n : Nat} (h : n < 2 ^ 64) : (UInt64.ofNat n).toNat = n := by
  rw [UInt64.toNat_ofNat']; exact Nat.mod_eq_of_lt h

/-- ORing a payload in above an accumulator that fits below it adds. -/
theorem or_shiftLeft_toNat (acc x : UInt64) (s : Nat) (hs : s < 64) (ha : acc.toNat < 2 ^ s)
    (hx : x.toNat * 2 ^ s < 2 ^ 64) :
    (acc ||| (x <<< UInt64.ofNat s)).toNat = acc.toNat + x.toNat * 2 ^ s := by
  rw [UInt64.toNat_or, UInt64.toNat_shiftLeft, ofNat_toNat_of_lt (by omega),
    Nat.mod_eq_of_lt hs, Nat.shiftLeft_eq, Nat.mod_eq_of_lt hx, Nat.or_comm, Nat.mul_comm,
    ← Nat.two_pow_add_eq_or_of_lt ha]
  omega

theorem toNat_ofNat_digit {q : Nat} (h : q < 128) : (UInt8.ofNat q).toNat = q := by
  rw [UInt8.toNat_ofNat']; omega

theorem mask7f (b : UInt8) : (b.toUInt64 &&& 0x7f).toNat = b.toNat % 128 := by
  rw [UInt64.toNat_and, UInt8.toNat_toUInt64]
  have : (0x7f : UInt64).toNat = 2 ^ 7 - 1 := rfl
  rw [this, Nat.and_two_pow_sub_one_eq_mod]

theorem pow7_succ (i : Nat) : 2 ^ (7 * (i + 1)) = 2 ^ (7 * i) * 128 := by
  rw [Nat.mul_succ, Nat.pow_add]

/-- The digit at position `i` lands above the ones already read. -/
theorem digit_step (V i : Nat) :
    V % 2 ^ (7 * i) + V / 2 ^ (7 * i) % 128 * 2 ^ (7 * i) = V % 2 ^ (7 * (i + 1)) := by
  rw [pow7_succ, Nat.mod_mul, Nat.mul_comm (2 ^ (7 * i))]

theorem div_pow7_succ (V i : Nat) : V / 2 ^ (7 * i) / 128 = V / 2 ^ (7 * (i + 1)) := by
  rw [pow7_succ, Nat.div_div_eq_div_mul]

theorem div_pow7_lt {V : Nat} (hV : V < 2 ^ 64) (i : Nat) : V / 2 ^ (7 * i) < 2 ^ 64 :=
  Nat.lt_of_le_of_lt (Nat.div_le_self _ _) hV

/-- The encoding of the digits of `V` from position `i` on. -/
theorem encodeVarU64_digits (V i : Nat) (hV : V < 2 ^ 64) :
    encodeVarU64 (UInt64.ofNat (V / 2 ^ (7 * i))) =
      if V / 2 ^ (7 * i) < 128 then [UInt8.ofNat (V / 2 ^ (7 * i))]
      else UInt8.ofNat (V / 2 ^ (7 * i) % 128 + 128) ::
        encodeVarU64 (UInt64.ofNat (V / 2 ^ (7 * (i + 1)))) := by
  rw [encodeVarU64_eq, ofNat_toNat_of_lt (div_pow7_lt hV i)]
  split
  · rfl
  · congr 2
    apply UInt64.toNat_inj.mp
    rw [shr7, ofNat_toNat_of_lt (div_pow7_lt hV i), ofNat_toNat_of_lt (div_pow7_lt hV (i + 1)),
      div_pow7_succ]

theorem encodeVarU64_length_le (k : Nat) : ∀ W, W < 2 ^ 64 → W < 2 ^ (7 * (k + 1)) →
    (encodeVarU64 (UInt64.ofNat W)).length ≤ k + 1 := by
  induction k with
  | zero =>
    intro W hW hk
    rw [encodeVarU64_eq, ofNat_toNat_of_lt hW, if_pos (by omega)]; simp
  | succ k ih =>
    intro W hW hk
    rw [encodeVarU64_eq, ofNat_toNat_of_lt hW]
    split
    · simp
    · have hs : UInt64.ofNat W >>> 7 = UInt64.ofNat (W / 128) := by
        apply UInt64.toNat_inj.mp; rw [shr7, ofNat_toNat_of_lt hW, ofNat_toNat_of_lt (by omega)]
      rw [hs, List.length_cons]
      have := ih (W / 128) (by omega) (by rw [pow7_succ] at hk; omega)
      omega

/-- Below `2 ^ 63` the encoding has at most nine bytes. -/
theorem encodeVarU64_length_le_nine {V : Nat} (hV : V < 2 ^ 63) :
    (encodeVarU64 (UInt64.ofNat V)).length ≤ 9 :=
  encodeVarU64_length_le 8 V (by omega) (by omega)

/-- Past `k` continuation bytes the encoding goes on with the digits from
position `i + k`. -/
theorem encodeVarU64_drop (V : Nat) (hV : V < 2 ^ 64) (rest : Bytes) :
    ∀ k i, 2 ^ (7 * (i + k)) ≤ V →
      (encodeVarU64 (UInt64.ofNat (V / 2 ^ (7 * i))) ++ rest).drop k =
        encodeVarU64 (UInt64.ofNat (V / 2 ^ (7 * (i + k)))) ++ rest := by
  intro k
  induction k with
  | zero => intro i _; rfl
  | succ k ih =>
    intro i hk
    have hq : ¬ V / 2 ^ (7 * i) < 128 := by
      have : 2 ^ (7 * (i + 1)) ≤ V :=
        Nat.le_trans (Nat.pow_le_pow_right (by decide) (by omega)) hk
      rw [pow7_succ, Nat.mul_comm] at this
      have := (Nat.le_div_iff_mul_le (Nat.two_pow_pos _)).mpr this
      omega
    rw [encodeVarU64_digits V i hV, if_neg hq, List.cons_append, List.drop_succ_cons,
      ih (i + 1) (by rw [show i + 1 + k = i + (k + 1) by omega]; exact hk),
      show i + 1 + k = i + (k + 1) by omega]

theorem encodeVarU64_tenth (V : Nat) (hV : V < 2 ^ 64) (h : 2 ^ 63 ≤ V) (rest : Bytes) :
    (encodeVarU64 (UInt64.ofNat V) ++ rest).drop 9 = UInt8.ofNat (V / 2 ^ 63) :: rest := by
  have := encodeVarU64_drop V hV rest 9 0 (by simpa using h)
  simp only [Nat.mul_zero, Nat.pow_zero, Nat.div_one, Nat.zero_add] at this
  rw [this, encodeVarU64_eq, ofNat_toNat_of_lt (by omega), if_pos (by omega)]
  rfl

/-- Bits 0..62 from the nine-byte loop and bit 63 from the tenth byte make up `V`. -/
theorem tenth_or (V : Nat) (hV : V < 2 ^ 64) (x : UInt64) (hx : x.toNat = V / 2 ^ 63) :
    (UInt64.ofNat (V % 2 ^ (7 * 9)) ||| (x <<< 63)) = UInt64.ofNat V := by
  apply UInt64.toNat_inj.mp
  have hlow : (UInt64.ofNat (V % 2 ^ (7 * 9))).toNat = V % 2 ^ 63 := ofNat_toNat_of_lt (by omega)
  rw [show (63 : UInt64) = UInt64.ofNat 63 from rfl,
    or_shiftLeft_toNat _ _ _ (by decide) (by rw [hlow]; omega) (by rw [hx]; omega),
    hlow, hx, ofNat_toNat_of_lt hV]
  omega

/-! ## The decoder loops on the encoder's output -/

section Loops

variable (V : Nat) (hV : V < 2 ^ 64) (rest : Bytes)
include hV

/-- A continuation byte: the loop adds seven more bits of `V` and moves on. -/
theorem decodeVarU64Loop_cont (n i : Nat) (acc : UInt64) (ha : acc.toNat = V % 2 ^ (7 * i))
    (hbig : 2 ^ (7 * (i + 1)) ≤ V) :
    decodeVarU64Loop (encodeVarU64 (UInt64.ofNat (V / 2 ^ (7 * i))) ++ rest) i acc (n + 1) =
      decodeVarU64Loop (encodeVarU64 (UInt64.ofNat (V / 2 ^ (7 * (i + 1)))) ++ rest) (i + 1)
        (UInt64.ofNat (V % 2 ^ (7 * (i + 1)))) n := by
  have hpos : 0 < 2 ^ (7 * i) := Nat.two_pow_pos _
  have hdm := Nat.div_add_mod V (2 ^ (7 * i))
  have hq : 128 ≤ V / 2 ^ (7 * i) := by
    rw [pow7_succ, Nat.mul_comm] at hbig; exact (Nat.le_div_iff_mul_le hpos).mpr hbig
  have hi : 7 * i < 64 := by
    have := Nat.lt_of_le_of_lt hbig hV
    have := (Nat.pow_lt_pow_iff_right (by decide)).mp this
    omega
  have hb : (UInt8.ofNat (V / 2 ^ (7 * i) % 128 + 128)).toNat = V / 2 ^ (7 * i) % 128 + 128 := by
    rw [UInt8.toNat_ofNat']; omega
  have hge : ¬ (UInt8.ofNat (V / 2 ^ (7 * i) % 128 + 128)) < 0x80 := by
    rw [UInt8.lt_iff_toNat_lt, hb]; simp
  have hx : ((UInt8.ofNat (V / 2 ^ (7 * i) % 128 + 128)).toUInt64 &&& 0x7f).toNat =
      V / 2 ^ (7 * i) % 128 := by
    rw [mask7f, hb]; omega
  have hfit : V / 2 ^ (7 * i) % 128 * 2 ^ (7 * i) < 2 ^ 64 := by
    have := Nat.mul_le_mul_right (2 ^ (7 * i)) (Nat.mod_le (V / 2 ^ (7 * i)) 128)
    rw [Nat.mul_comm (2 ^ (7 * i))] at hdm; omega
  rw [encodeVarU64_digits V i hV, if_neg (by omega)]
  simp only [List.cons_append, decodeVarU64Loop, hge, if_false, Nat.mul_comm i 7]
  congr 1
  apply UInt64.toNat_inj.mp
  rw [or_shiftLeft_toNat _ _ _ hi (by omega) (by rw [hx]; exact hfit), hx, ha, digit_step,
    ofNat_toNat_of_lt (Nat.lt_of_le_of_lt (Nat.mod_le _ _) hV)]

/-- The loop of `decode_var_u64` reads the remaining digits of `V` from
position `i` on, when it has iterations left for all of them. -/
theorem decodeVarU64Loop_found :
    ∀ n i (acc : UInt64), 7 * i < 64 → acc.toNat = V % 2 ^ (7 * i) →
      (encodeVarU64 (UInt64.ofNat (V / 2 ^ (7 * i)))).length ≤ n →
      decodeVarU64Loop (encodeVarU64 (UInt64.ofNat (V / 2 ^ (7 * i))) ++ rest) i acc n =
        .found (UInt64.ofNat V) (i + (encodeVarU64 (UInt64.ofNat (V / 2 ^ (7 * i)))).length) := by
  intro n
  induction n with
  | zero =>
    intro i acc _ _ hl
    have := encodeVarU64_ne_nil (UInt64.ofNat (V / 2 ^ (7 * i)))
    cases h : encodeVarU64 (UInt64.ofNat (V / 2 ^ (7 * i))) <;> simp_all
  | succ n ih =>
    intro i acc hi ha hl
    have hpos : 0 < 2 ^ (7 * i) := Nat.two_pow_pos _
    have hdm := Nat.div_add_mod V (2 ^ (7 * i))
    have hmod := Nat.mod_lt V hpos
    by_cases hq : V / 2 ^ (7 * i) < 128
    · -- the last digit: the loop stops here with all of `V`
      rw [encodeVarU64_digits V i hV, if_pos hq] at hl ⊢
      have hb : (UInt8.ofNat (V / 2 ^ (7 * i))).toNat = V / 2 ^ (7 * i) :=
        toNat_ofNat_digit (by omega)
      have hfit : (UInt8.ofNat (V / 2 ^ (7 * i))).toUInt64 &&& 0x7f =
          UInt64.ofNat (V / 2 ^ (7 * i)) := by
        apply UInt64.toNat_inj.mp
        rw [mask7f, hb, ofNat_toNat_of_lt (by omega)]; omega
      have hlt : (UInt8.ofNat (V / 2 ^ (7 * i))) < 0x80 := by
        rw [UInt8.lt_iff_toNat_lt, hb]; exact hq
      simp only [List.singleton_append, decodeVarU64Loop, hlt, if_true, hfit, List.length_singleton,
        VarLoop.found.injEq, and_true, Nat.mul_comm i 7]
      apply UInt64.toNat_inj.mp
      rw [Nat.mul_comm] at hdm
      rw [or_shiftLeft_toNat _ _ _ hi (by omega) (by rw [ofNat_toNat_of_lt (by omega)]; omega),
        ha, ofNat_toNat_of_lt (by omega), ofNat_toNat_of_lt hV]
      omega
    · -- a continuation byte, then the digits from `i + 1` on
      have hbig : 2 ^ (7 * (i + 1)) ≤ V := by
        rw [pow7_succ, Nat.mul_comm]; exact (Nat.le_div_iff_mul_le hpos).mp (by omega)
      have hi' : 7 * (i + 1) < 64 :=
        (Nat.pow_lt_pow_iff_right (by decide)).mp (Nat.lt_of_le_of_lt hbig hV)
      have hlen : (encodeVarU64 (UInt64.ofNat (V / 2 ^ (7 * i)))).length =
          (encodeVarU64 (UInt64.ofNat (V / 2 ^ (7 * (i + 1))))).length + 1 := by
        rw [encodeVarU64_digits V i hV, if_neg hq, List.length_cons]
      rw [decodeVarU64Loop_cont V hV rest n i acc ha hbig,
        ih (i + 1) _ hi' (ofNat_toNat_of_lt (Nat.lt_of_le_of_lt (Nat.mod_le _ _) hV)) (by omega), hlen]
      congr 1; omega

/-- With fewer iterations than digits the loop runs out, having read the low
`7 * (i + n)` bits. -/
theorem decodeVarU64Loop_exhausted :
    ∀ n i (acc : UInt64), acc.toNat = V % 2 ^ (7 * i) → 2 ^ (7 * (i + n)) ≤ V →
      decodeVarU64Loop (encodeVarU64 (UInt64.ofNat (V / 2 ^ (7 * i))) ++ rest) i acc n =
        .exhausted (UInt64.ofNat (V % 2 ^ (7 * (i + n)))) := by
  intro n
  induction n with
  | zero =>
    intro i acc ha _
    obtain ⟨b, bs, hbs⟩ := List.exists_cons_of_ne_nil (encodeVarU64_ne_nil (UInt64.ofNat (V / 2 ^ (7 * i))))
    rw [hbs, List.cons_append, decodeVarU64Loop]
    congr 1
    apply UInt64.toNat_inj.mp
    rw [ha, Nat.add_zero, ofNat_toNat_of_lt (Nat.lt_of_le_of_lt (Nat.mod_le _ _) hV)]
  | succ n ih =>
    intro i acc ha hbig
    rw [decodeVarU64Loop_cont V hV rest n i acc ha
      (Nat.le_trans (Nat.pow_le_pow_right (by decide) (by omega)) hbig),
      ih (i + 1) _ (ofNat_toNat_of_lt (Nat.lt_of_le_of_lt (Nat.mod_le _ _) hV))
        (by rw [show i + 1 + n = i + (n + 1) by omega]; exact hbig),
      show i + 1 + n = i + (n + 1) by omega]

theorem tryDecodeVarU64Slow_found :
    ∀ n i (acc : UInt64), 7 * i < 64 → acc.toNat = V % 2 ^ (7 * i) →
      (encodeVarU64 (UInt64.ofNat (V / 2 ^ (7 * i)))).length ≤ n →
      tryDecodeVarU64Slow (encodeVarU64 (UInt64.ofNat (V / 2 ^ (7 * i))) ++ rest)
          (UInt64.ofNat (7 * i)) acc i =
        some (UInt64.ofNat V, i + (encodeVarU64 (UInt64.ofNat (V / 2 ^ (7 * i)))).length) := by
  intro n
  induction n with
  | zero =>
    intro i acc _ _ hl
    have := encodeVarU64_ne_nil (UInt64.ofNat (V / 2 ^ (7 * i)))
    cases h : encodeVarU64 (UInt64.ofNat (V / 2 ^ (7 * i))) <;> simp_all
  | succ n ih =>
    intro i acc hi ha hl
    have hpos : 0 < 2 ^ (7 * i) := Nat.two_pow_pos _
    have hdm := Nat.div_add_mod V (2 ^ (7 * i))
    have hmod := Nat.mod_lt V hpos
    by_cases hq : V / 2 ^ (7 * i) < 128
    · -- the terminating byte, ORed in unmasked
      rw [encodeVarU64_digits V i hV, if_pos hq] at hl ⊢
      have hb : (UInt8.ofNat (V / 2 ^ (7 * i))).toNat = V / 2 ^ (7 * i) := toNat_ofNat_digit hq
      have hlt : ¬ (UInt8.ofNat (V / 2 ^ (7 * i))) ≥ 0x80 := by
        rw [ge_iff_le, UInt8.le_iff_toNat_le, hb]; simp; omega
      simp only [List.singleton_append, tryDecodeVarU64Slow, hlt, if_false, List.length_singleton,
        Option.some.injEq, Prod.mk.injEq, and_true]
      apply UInt64.toNat_inj.mp
      rw [Nat.mul_comm] at hdm
      rw [or_shiftLeft_toNat _ _ _ hi (by omega) (by rw [UInt8.toNat_toUInt64, hb]; omega),
        ha, UInt8.toNat_toUInt64, hb, ofNat_toNat_of_lt hV]
      omega
    · -- a continuation byte, masked to its payload
      have hbig : 2 ^ (7 * (i + 1)) ≤ V := by
        rw [pow7_succ, Nat.mul_comm]; exact (Nat.le_div_iff_mul_le hpos).mp (by omega)
      have hi' : 7 * (i + 1) < 64 :=
        (Nat.pow_lt_pow_iff_right (by decide)).mp (Nat.lt_of_le_of_lt hbig hV)
      rw [encodeVarU64_digits V i hV, if_neg hq] at hl ⊢
      have hb : (UInt8.ofNat (V / 2 ^ (7 * i) % 128 + 128)).toNat = V / 2 ^ (7 * i) % 128 + 128 := by
        rw [UInt8.toNat_ofNat']; omega
      have hge : (UInt8.ofNat (V / 2 ^ (7 * i) % 128 + 128)) ≥ 0x80 := by
        rw [ge_iff_le, UInt8.le_iff_toNat_le, hb]; simp
      have hx : ((UInt8.ofNat (V / 2 ^ (7 * i) % 128 + 128)) &&& 0x7f).toUInt64.toNat =
          V / 2 ^ (7 * i) % 128 := by
        rw [UInt8.toNat_toUInt64, UInt8.toNat_and, hb]
        have : (0x7f : UInt8).toNat = 2 ^ 7 - 1 := rfl
        rw [this, Nat.and_two_pow_sub_one_eq_mod]; omega
      have hfit : V / 2 ^ (7 * i) % 128 * 2 ^ (7 * i) < 2 ^ 64 := by
        have := Nat.mul_le_mul_right (2 ^ (7 * i)) (Nat.mod_le (V / 2 ^ (7 * i)) 128)
        rw [Nat.mul_comm (2 ^ (7 * i))] at hdm; omega
      have hshift : UInt64.ofNat (7 * i) + 7 = UInt64.ofNat (7 * (i + 1)) := by
        apply UInt64.toNat_inj.mp
        rw [UInt64.toNat_add, ofNat_toNat_of_lt (by omega), ofNat_toNat_of_lt (by omega)]
        simp; omega
      have hacc : (acc ||| ((UInt8.ofNat (V / 2 ^ (7 * i) % 128 + 128)) &&& 0x7f).toUInt64 <<<
          UInt64.ofNat (7 * i)).toNat = V % 2 ^ (7 * (i + 1)) := by
        rw [or_shiftLeft_toNat _ _ _ hi (by omega) (by rw [hx]; exact hfit), hx, ha, digit_step]
      simp only [List.cons_append, tryDecodeVarU64Slow, hge, if_true, hshift, List.length_cons]
      rw [ih (i + 1) _ hi' hacc (by simp at hl; omega)]
      congr 2; omega

end Loops

/-! ## Round trips -/

/-- A first byte with the continuation bit sends `decode_var_u64` to one of its loops. -/
theorem decodeVarU64_of_ge (data bs : Bytes) (b0 : UInt8) (hd : data = b0 :: bs) (hb : ¬ b0 < 0x80) :
    decodeVarU64 data =
      if 10 ≤ data.length ∨ data.getLast (by simp [hd]) < 0x80 then
        match decodeVarU64Loop data 0 0 9 with
        | .found res n => .ok (res, data.drop n)
        | .exhausted res =>
          if data.getD 9 0 ≤ 1 then .ok (res ||| (((data.getD 9 0).toUInt64 &&& 0x7f) <<< 63), data.drop 10)
          else .error .overflow
      else
        match decodeVarU64Loop data 0 0 data.length with
        | .found res n => .ok (res, data.drop n)
        | .exhausted _ => .error .eof := by
  subst hd; simp only [decodeVarU64, hb, if_false]

theorem decodeVarU64_encodeVarU64 (v : UInt64) (rest : Bytes) :
    decodeVarU64 (encodeVarU64 v ++ rest) = .ok (v, rest) := by
  obtain ⟨V, hV, rfl⟩ : ∃ V, V < 2 ^ 64 ∧ v = UInt64.ofNat V := ⟨v.toNat, v.toNat_lt, by simp⟩
  have hlen := encodeVarU64_length_le 9 V hV (by omega)
  have hfound : ∀ n, (encodeVarU64 (UInt64.ofNat V)).length ≤ n →
      decodeVarU64Loop (encodeVarU64 (UInt64.ofNat V) ++ rest) 0 0 n =
        .found (UInt64.ofNat V) (encodeVarU64 (UInt64.ofNat V)).length := by
    intro n hn
    simpa using decodeVarU64Loop_found V hV rest n 0 0 (by omega) (by simp [Nat.mod_one]) (by simpa using hn)
  have hdrop : (encodeVarU64 (UInt64.ofNat V) ++ rest).drop (encodeVarU64 (UInt64.ofNat V)).length = rest :=
    List.drop_left
  by_cases h128 : V < 128
  · -- one byte: the shortcut branch
    rw [encodeVarU64_eq, ofNat_toNat_of_lt hV, if_pos h128]
    have hb : (UInt8.ofNat V).toNat = V := toNat_ofNat_digit h128
    simp only [List.singleton_append, decodeVarU64, UInt8.lt_iff_toNat_lt, hb]
    rw [if_pos (by simpa using h128)]
    congr 2
    apply UInt64.toNat_inj.mp
    rw [mask7f, hb, ofNat_toNat_of_lt hV]; omega
  · have hd := encodeVarU64_digits V 0 hV
    simp only [Nat.mul_zero, Nat.pow_zero, Nat.div_one, if_neg h128] at hd
    have hb0 : ¬ UInt8.ofNat (V % 128 + 128) < 0x80 := by
      rw [UInt8.lt_iff_toNat_lt, UInt8.toNat_ofNat']; simp; omega
    rw [decodeVarU64_of_ge _ _ _ (by rw [hd, List.cons_append]) hb0]
    split
    · -- ten bytes left or a terminating last byte: the nine-byte loop
      by_cases h63 : V < 2 ^ 63
      · rw [hfound 9 (encodeVarU64_length_le_nine h63)]; simp only [hdrop]
      · have hexh := decodeVarU64Loop_exhausted V hV rest 9 0 0 (by simp [Nat.mod_one]) (by omega)
        simp only [Nat.mul_zero, Nat.pow_zero, Nat.div_one, Nat.zero_add] at hexh
        have h10 := encodeVarU64_tenth V hV (by omega) rest
        have hg : (encodeVarU64 (UInt64.ofNat V) ++ rest).getD 9 0 = UInt8.ofNat (V / 2 ^ 63) := by
          have := congrArg (fun l : Bytes => l[0]?) h10
          simp only [List.getElem?_drop, Nat.add_zero, List.getElem?_cons_zero] at this
          rw [List.getD_eq_getElem?_getD, this]; rfl
        have hq : V / 2 ^ 63 < 2 := by omega
        have hb : (UInt8.ofNat (V / 2 ^ 63)).toNat = V / 2 ^ 63 := toNat_ofNat_digit (by omega)
        have h10' : (encodeVarU64 (UInt64.ofNat V) ++ rest).drop 10 = rest := by
          rw [show 10 = 9 + 1 from rfl, ← List.drop_drop, h10]; rfl
        rw [hexh, hg, h10']
        simp only
        rw [if_pos (by rw [UInt8.le_iff_toNat_le, hb]; simp; omega)]
        congr 2
        apply UInt64.toNat_inj.mp
        have hlow : (UInt64.ofNat (V % 2 ^ (7 * 9))).toNat = V % 2 ^ 63 :=
          ofNat_toNat_of_lt (by omega)
        rw [show (63 : UInt64) = UInt64.ofNat 63 from rfl,
          or_shiftLeft_toNat _ _ _ (by decide) (by rw [hlow]; omega) (by rw [mask7f, hb]; omega),
          hlow, mask7f, hb, ofNat_toNat_of_lt hV]
        omega
    · -- a short buffer: the plain loop
      rw [hfound _ (by simp)]; simp only [hdrop]

theorem tryDecodeVarU64_encodeVarU64 (v : UInt64) (rest : Bytes) :
    tryDecodeVarU64 (encodeVarU64 v ++ rest) = .ok (v, (encodeVarU64 v).length) := by
  obtain ⟨V, hV, rfl⟩ : ∃ V, V < 2 ^ 64 ∧ v = UInt64.ofNat V := ⟨v.toNat, v.toNat_lt, by simp⟩
  have hlen := encodeVarU64_length_le 9 V hV (by omega)
  unfold tryDecodeVarU64
  split
  · -- ten bytes or more: the unrolled loop
    by_cases h63 : V < 2 ^ 63
    · have := decodeVarU64Loop_found V hV rest 9 0 0 (by omega) (by simp [Nat.mod_one])
        (by simpa using encodeVarU64_length_le_nine h63)
      simp only [Nat.mul_zero, Nat.pow_zero, Nat.div_one, Nat.zero_add] at this
      rw [this]
    · have hexh := decodeVarU64Loop_exhausted V hV rest 9 0 0 (by simp [Nat.mod_one]) (by omega)
      simp only [Nat.mul_zero, Nat.pow_zero, Nat.div_one, Nat.zero_add] at hexh
      have h10 := encodeVarU64_tenth V hV (by omega) rest
      have hg : (encodeVarU64 (UInt64.ofNat V) ++ rest).getD 9 0 = UInt8.ofNat (V / 2 ^ 63) := by
        have := congrArg (fun l : Bytes => l[0]?) h10
        simp only [List.getElem?_drop, Nat.add_zero, List.getElem?_cons_zero] at this
        rw [List.getD_eq_getElem?_getD, this]; rfl
      have hb : (UInt8.ofNat (V / 2 ^ 63)).toNat = V / 2 ^ 63 := toNat_ofNat_digit (by omega)
      have hl10 : (encodeVarU64 (UInt64.ofNat V)).length = 10 := by
        have := congrArg List.length h10
        simp only [List.length_drop, List.length_append, List.length_cons] at this
        omega
      rw [hexh, hg]
      simp only
      rw [tenth_or V hV _ (by rw [UInt64.toNat_and, UInt8.toNat_toUInt64, hb]; simp; omega), hl10]
  · -- a short buffer: the slow path
    have := tryDecodeVarU64Slow_found V hV rest _ 0 0 (by omega) (by simp [Nat.mod_one]) (Nat.le_refl _)
    simp only [Nat.mul_zero, Nat.pow_zero, Nat.div_one, Nat.zero_add] at this
    simp only [show UInt64.ofNat 0 = 0 from rfl] at this
    rw [this]

theorem readVarU64_encodeVarU64 (v : UInt64) (rest : Bytes) :
    readVarU64 (encodeVarU64 v ++ rest) = .ok (v, rest) := by
  simp only [readVarU64, tryDecodeVarU64_encodeVarU64, List.drop_left]


/-! ## Zig-zag -/

theorem int64_lt_zero_iff (v : Int64) : v < 0 ↔ 2 ^ 63 ≤ v.toUInt64.toNat := by
  rw [Int64.lt_iff_toInt_lt, Int64.toInt_zero, ← Int64.toInt_toBitVec, BitVec.toInt_neg_iff]
  show 2 ^ 64 ≤ 2 * v.toUInt64.toBitVec.toNat ↔ _
  rw [UInt64.toNat_toBitVec]; omega

theorem toInt64_eq {x : UInt64} {v : Int64} (h : x.toNat = v.toUInt64.toNat) : x.toInt64 = v :=
  Int64.toBitVec.inj (by show x.toBitVec = v.toUInt64.toBitVec; rw [UInt64.toNat_inj.mp h])

/-- The zig-zag map both `encode_var_i64`s apply before the varint. -/
def zigZag (v : Int64) : UInt64 :=
  let vx := v.toUInt64 <<< 1
  if v < 0 then ~~~vx else vx

/-- The map both `decode_var_i64`s apply after the varint. -/
def unZigZag (uv : UInt64) : Int64 :=
  let v := uv >>> 1
  if uv &&& 1 = 0 then v.toInt64 else (~~~v).toInt64

theorem unZigZag_zigZag (v : Int64) : unZigZag (zigZag v) = v := by
  have hx := v.toUInt64.toNat_lt
  have hshl : (v.toUInt64 <<< 1).toNat = 2 * v.toUInt64.toNat % 2 ^ 64 := by
    rw [UInt64.toNat_shiftLeft]; simp [Nat.shiftLeft_eq]; omega
  have hsize : UInt64.size = 2 ^ 64 := rfl
  by_cases hneg : v < 0
  · -- negative: the complemented, odd form
    have h63 := (int64_lt_zero_iff v).mp hneg
    have hz : (zigZag v).toNat = 2 * (2 ^ 64 - 1 - v.toUInt64.toNat) + 1 := by
      simp only [zigZag, if_pos hneg]
      rw [UInt64.toNat_not, hshl, hsize]; omega
    rw [unZigZag, if_neg (by
      intro h; have := congrArg UInt64.toNat h
      rw [UInt64.toNat_and, hz] at this; simp at this)]
    apply toInt64_eq
    rw [UInt64.toNat_not, UInt64.toNat_shiftRight, hz, hsize]
    simp [Nat.shiftRight_eq_div_pow]; omega
  · -- non-negative: the doubled value
    have h63 : v.toUInt64.toNat < 2 ^ 63 := Nat.lt_of_not_le (mt (int64_lt_zero_iff v).mpr hneg)
    have hz : (zigZag v).toNat = 2 * v.toUInt64.toNat := by
      simp only [zigZag, if_neg hneg]
      rw [hshl]; omega
    rw [unZigZag, if_pos (by
      apply UInt64.toNat_inj.mp; rw [UInt64.toNat_and, hz]; simp)]
    apply toInt64_eq
    rw [UInt64.toNat_shiftRight, hz]
    simp [Nat.shiftRight_eq_div_pow]

theorem decodeVarI64_encodeVarI64 (v : Int64) (rest : Bytes) :
    decodeVarI64 (encodeVarI64 v ++ rest) = .ok (v, rest) := by
  have h := unZigZag_zigZag v
  simp only [encodeVarI64, decodeVarI64, decodeVarU64_encodeVarU64]
  exact congrArg (fun x => Except.ok (x, rest)) h

/-! ## Big-endian words -/

theorem shl8_or (acc : UInt64) (b : UInt8) (h : acc.toNat < 2 ^ 56) :
    ((acc <<< 8) ||| b.toUInt64).toNat = acc.toNat * 256 + b.toNat := by
  rw [UInt64.toNat_or, UInt64.toNat_shiftLeft, UInt8.toNat_toUInt64]
  simp only [UInt64.reduceToNat, Nat.reduceMod, Nat.shiftLeft_eq]
  rw [Nat.mod_eq_of_lt (by omega), Nat.mul_comm, ← Nat.two_pow_add_eq_or_of_lt b.toNat_lt]

/-- `read_u64` on naturals: big-endian digits in base 256. -/
theorem readU64BE_foldl_toNat (bs : Bytes) : ∀ acc : UInt64, (acc.toNat + 1) * 256 ^ bs.length ≤ 2 ^ 64 →
    (bs.foldl (fun (acc : UInt64) (b : UInt8) => (acc <<< 8) ||| b.toUInt64) acc).toNat =
      bs.foldl (fun a b => a * 256 + b.toNat) acc.toNat := by
  induction bs with
  | nil => intro acc _; rfl
  | cons b bs ih =>
    intro acc h
    have hb := b.toNat_lt
    have hp : 1 ≤ 256 ^ bs.length := Nat.one_le_pow _ _ (by decide)
    have h' : (acc.toNat + 1) * 256 * 256 ^ bs.length ≤ 2 ^ 64 := by
      rw [List.length_cons, Nat.pow_succ, Nat.mul_comm _ 256, ← Nat.mul_assoc] at h; exact h
    have h56 : acc.toNat < 2 ^ 56 := by
      have := Nat.le_trans (Nat.le_mul_of_pos_right ((acc.toNat + 1) * 256) hp) h'
      omega
    simp only [List.foldl_cons]
    rw [ih _ (by
      rw [shl8_or _ _ h56]
      exact Nat.le_trans (Nat.mul_le_mul_right _ (by omega)) h'), shl8_or _ _ h56]

theorem readU64BE_encodeU64 (v : UInt64) : readU64BE (encodeU64 v) = v := by
  apply UInt64.toNat_inj.mp
  have hv := v.toNat_lt
  rw [readU64BE, readU64BE_foldl_toNat _ 0 (by simp [encodeU64])]
  simp only [encodeU64, List.map_cons, List.map_nil, List.foldl_cons, List.foldl_nil,
    UInt64.toNat_toUInt8, UInt64.toNat_shiftRight, Nat.shiftRight_eq_div_pow]
  simp only [UInt64.reduceToNat, Nat.reduceMod, UInt64.toNat_zero]
  omega

theorem decodeU64_encodeU64 (v : UInt64) (rest : Bytes) :
    decodeU64 (encodeU64 v ++ rest) = .ok (v, rest) := by
  have hl : (encodeU64 v).length = 8 := rfl
  rw [decodeU64, if_pos (by simp [hl]), List.take_left' hl, List.drop_left' hl, readU64BE_encodeU64]

/-- The bytes of `write_u64::<BigEndian>` are the base-256 digits. -/
theorem encodeU64_toNat (v : UInt64) :
    (encodeU64 v).map UInt8.toNat = ListLex.digitsBE 256 8 v.toNat := by
  simp [encodeU64, ListLex.digitsBE, UInt64.toNat_shiftRight, Nat.shiftRight_eq_div_pow,
    UInt64.toNat_toUInt8]

/-- Big-endian words compare as the numbers they write. -/
theorem encodeU64_lt_iff (u v : UInt64) : encodeU64 u < encodeU64 v ↔ u < v := by
  have hbytes : encodeU64 u < encodeU64 v ↔
      (encodeU64 u).map UInt8.toNat < (encodeU64 v).map UInt8.toNat :=
    (ListLex.map_lt_map_iff (fun _ _ => UInt8.lt_iff_toNat_lt.symm)
      fun _ _ h => UInt8.toNat_inj.mp h).symm
  rw [hbytes, encodeU64_toNat, encodeU64_toNat, ListLex.digitsBE_lt_iff (by decide),
    Nat.mod_eq_of_lt (by simpa using u.toNat_lt), Nat.mod_eq_of_lt (by simpa using v.toNat_lt),
    UInt64.lt_iff_toNat_lt]

theorem decodeU64Desc_encodeU64Desc (v : UInt64) (rest : Bytes) :
    decodeU64Desc (encodeU64Desc v ++ rest) = .ok (v, rest) := by
  rw [decodeU64Desc, encodeU64Desc, decodeU64_encodeU64]
  simp only [UInt64.not_not]

/-! ## The `codec` crate's varint writer -/

/-- `MAX_VARINT64_LENGTH` -/
def MAX_VARINT64_LENGTH : Nat := 10

/-- The loop of `NumberCodec::encode_var_u64` (components/codec/src/number.rs:419-426):
the bytes it writes from the start of the buffer. -/
def encodeVarU64Loop (v : UInt64) : Bytes :=
  if v ≥ 0x80 then (0x80 ||| (v &&& 0x7f).toUInt8) :: encodeVarU64Loop (v >>> 7) else [v.toUInt8]
termination_by v.toNat
decreasing_by
  have h : (0x80 : UInt64).toNat ≤ v.toNat := by assumption
  simp only [UInt64.toNat_shiftRight, Nat.shiftRight_eq_div_pow] at h ⊢
  simp only [UInt64.reduceToNat, Nat.reduceMod] at h ⊢
  omega

/-- mirrors components/codec/src/number.rs:414-429 (`NumberCodec::encode_var_u64`):
the buffer after the write and the number of bytes written; `none` is the
assertion `buf.len() >= MAX_VARINT64_LENGTH` failing. -/
def NumberCodec.encodeVarU64 (buf : Bytes) (v : UInt64) : Option (Bytes × Nat) :=
  if buf.length ≥ MAX_VARINT64_LENGTH then
    let written := encodeVarU64Loop v
    some (written ++ buf.drop written.length, written.length)
  else none

/-- mirrors components/codec/src/number.rs:493-499 (`NumberCodec::encode_var_i64`) -/
def NumberCodec.encodeVarI64 (buf : Bytes) (v : Int64) : Option (Bytes × Nat) :=
  let uv := v.toUInt64 <<< 1
  NumberCodec.encodeVarU64 buf (if v < 0 then ~~~uv else uv)

/-- mirrors components/codec/src/number.rs:511-520 (`NumberCodec::try_decode_var_i64`) -/
def tryDecodeVarI64 (buf : Bytes) : Except Error (Int64 × Nat) :=
  match tryDecodeVarU64 buf with
  | .ok (uv, n) =>
    let v := uv >>> 1
    .ok (if uv &&& 1 = 0 then v.toInt64 else (~~~v).toInt64, n)
  | .error e => .error e

/-- The two ways of writing a continuation byte: mask then cast, or cast then set the bit. -/
theorem or80_mask7f (v : UInt64) : (0x80 ||| (v &&& 0x7f).toUInt8) = v.toUInt8 ||| 0x80 := by
  rw [toUInt8_or80]
  apply UInt8.toNat_inj.mp
  have key : ∀ n, n < 128 → 128 ||| n = n + 128 := by decide +kernel
  have h7f : (0x7f : UInt64).toNat = 2 ^ 7 - 1 := rfl
  rw [UInt8.toNat_or, UInt8.toNat_ofNat', UInt64.toNat_toUInt8, UInt64.toNat_and, h7f,
    Nat.and_two_pow_sub_one_eq_mod]
  simp only [UInt8.reduceToNat]
  rw [Nat.mod_eq_of_lt (by omega : v.toNat % 2 ^ 7 < 256), key (v.toNat % 2 ^ 7) (by omega)]
  omega

/-- The `codec` crate's loop writes the bytes `NumberEncoder::encode_var_u64` writes. -/
theorem encodeVarU64Loop_eq (v : UInt64) : encodeVarU64Loop v = encodeVarU64 v := by
  induction v using encodeVarU64Loop.induct with
  | case1 v h ih => rw [encodeVarU64Loop, if_pos h, encodeVarU64, if_pos h, ih, or80_mask7f]
  | case2 v h => rw [encodeVarU64Loop, if_neg h, encodeVarU64, if_neg h]

theorem encodeVarU64_length_le_ten (v : UInt64) : (encodeVarU64 v).length ≤ 10 := by
  have h := encodeVarU64_length_le 9 v.toNat v.toNat_lt (by have := v.toNat_lt; omega)
  rwa [UInt64.ofNat_toNat] at h

theorem encodeVarI64_eq (v : Int64) : encodeVarI64 v = encodeVarU64 (zigZag v) := rfl

/-- On a buffer of ten bytes or more the writer puts the encoding in front. -/
theorem codecEncodeVarU64_eq {buf : Bytes} (h : MAX_VARINT64_LENGTH ≤ buf.length) (v : UInt64) :
    NumberCodec.encodeVarU64 buf v =
      some (encodeVarU64 v ++ buf.drop (encodeVarU64 v).length, (encodeVarU64 v).length) := by
  rw [NumberCodec.encodeVarU64, if_pos h, encodeVarU64Loop_eq]

theorem tryDecodeVarI64_encodeVarI64 (v : Int64) (rest : Bytes) :
    tryDecodeVarI64 (encodeVarI64 v ++ rest) = .ok (v, (encodeVarI64 v).length) := by
  have h := unZigZag_zigZag v
  simp only [tryDecodeVarI64, encodeVarI64_eq, tryDecodeVarU64_encodeVarU64]
  exact congrArg (fun x => Except.ok (x, (encodeVarU64 (zigZag v)).length)) h

/-- Both crates' varint codecs agree and round-trip: for every `u64` and every
`i64` (zig-zag), the `codec` crate's decoder reads back what was written,
with the number of bytes written (one to ten), `tikv_util`'s decoder reads
it back and leaves the rest, and the `codec` crate's writer writes the bytes
`NumberEncoder` writes. -/
theorem varint_codecs_agree (v : UInt64) (w : Int64) (s buf : Bytes) (hbuf : MAX_VARINT64_LENGTH ≤ buf.length) :
    tryDecodeVarU64 (encodeVarU64 v ++ s) = .ok (v, (encodeVarU64 v).length) ∧
      1 ≤ (encodeVarU64 v).length ∧ (encodeVarU64 v).length ≤ 10 ∧
      decodeVarU64 (encodeVarU64 v ++ s) = .ok (v, s) ∧
      NumberCodec.encodeVarU64 buf v =
        some (encodeVarU64 v ++ buf.drop (encodeVarU64 v).length, (encodeVarU64 v).length) ∧
      tryDecodeVarI64 (encodeVarI64 w ++ s) = .ok (w, (encodeVarI64 w).length) ∧
      1 ≤ (encodeVarI64 w).length ∧ (encodeVarI64 w).length ≤ 10 ∧
      decodeVarI64 (encodeVarI64 w ++ s) = .ok (w, s) ∧
      NumberCodec.encodeVarI64 buf w =
        some (encodeVarI64 w ++ buf.drop (encodeVarI64 w).length, (encodeVarI64 w).length) := by
  have hne : ∀ u, 1 ≤ (encodeVarU64 u).length := fun u =>
    List.length_pos_iff.mpr (encodeVarU64_ne_nil u)
  refine ⟨tryDecodeVarU64_encodeVarU64 v s, hne v, encodeVarU64_length_le_ten v,
    decodeVarU64_encodeVarU64 v s, codecEncodeVarU64_eq hbuf v, tryDecodeVarI64_encodeVarI64 w s,
    hne (zigZag w), encodeVarU64_length_le_ten (zigZag w), decodeVarI64_encodeVarI64 w s, ?_⟩
  exact codecEncodeVarU64_eq hbuf (zigZag w)

theorem varint_codecs_agree_ten_zeros :
    MAX_VARINT64_LENGTH ≤ (List.replicate 10 (0 : UInt8)).length ∧
      tryDecodeVarU64 (encodeVarU64 300 ++ [7]) = .ok (300, (encodeVarU64 300).length) :=
  ⟨by decide, (varint_codecs_agree 300 (-1) [7] (List.replicate 10 0) (by decide)).1⟩

/-! ## The length of the first varint -/

/-- The loop of `get_first_encoded_var_int_len` on both paths: from byte `i`,
for at most `k` bytes, the position after the first byte below `0x80`. -/
def varIntEnd : Bytes → Nat → Nat → Option Nat
  | b :: bs, i, k + 1 => if b < 0x80 then some (i + 1) else varIntEnd bs (i + 1) k
  | _, _, _ => none

/-- mirrors components/codec/src/number.rs:523-558
(`NumberCodec::get_first_encoded_var_int_len`): nine bytes on the fast path,
then 10; on the slow path the whole buffer when no byte ends the varint. -/
def getFirstEncodedVarIntLen (buf : Bytes) : Nat :=
  if buf.length ≥ MAX_VARINT64_LENGTH then (varIntEnd buf 0 9).getD 10
  else (varIntEnd buf 0 buf.length).getD buf.length

theorem varIntEnd_of_found {bs : Bytes} {i k : Nat} {res r : UInt64} {n : Nat}
    (h : decodeVarU64Loop bs i res k = .found r n) : varIntEnd bs i k = some n := by
  induction bs generalizing i k res with
  | nil => simp [decodeVarU64Loop] at h
  | cons b bs ih =>
    cases k with
    | zero => simp [decodeVarU64Loop] at h
    | succ k =>
      simp only [decodeVarU64Loop] at h
      by_cases hb : b < 0x80
      · simp only [hb, if_true, VarLoop.found.injEq] at h
        simp [varIntEnd, hb, h.2]
      · simp only [hb, if_false] at h
        simp only [varIntEnd, hb, if_false]
        exact ih h

theorem varIntEnd_of_exhausted {bs : Bytes} {i k : Nat} {res r : UInt64}
    (h : decodeVarU64Loop bs i res k = .exhausted r) : varIntEnd bs i k = none := by
  induction bs generalizing i k res with
  | nil => rfl
  | cons b bs ih =>
    cases k with
    | zero => rfl
    | succ k =>
      simp only [decodeVarU64Loop] at h
      by_cases hb : b < 0x80
      · simp [hb] at h
      · simp only [hb, if_false] at h
        simp only [varIntEnd, hb, if_false]
        exact ih h

theorem varIntEnd_of_slow {bs : Bytes} {shift val v : UInt64} {i n : Nat}
    (h : tryDecodeVarU64Slow bs shift val i = some (v, n)) : varIntEnd bs i bs.length = some n := by
  induction bs generalizing shift val i with
  | nil => simp [tryDecodeVarU64Slow] at h
  | cons b bs ih =>
    simp only [tryDecodeVarU64Slow] at h
    by_cases hb : b < 0x80
    · have hge : ¬ b ≥ 0x80 := by
        rw [ge_iff_le, UInt8.le_iff_toNat_le]; rw [UInt8.lt_iff_toNat_lt] at hb; omega
      simp only [hge, if_false, Option.some.injEq, Prod.mk.injEq] at h
      simp [varIntEnd, hb, h.2]
    · have hge : b ≥ 0x80 := by
        rw [ge_iff_le, UInt8.le_iff_toNat_le]; rw [UInt8.lt_iff_toNat_lt] at hb; omega
      simp only [hge, if_true] at h
      simp only [List.length_cons, varIntEnd, hb, if_false]
      exact ih h

theorem varIntEnd_le {bs : Bytes} {i k m : Nat} (h : varIntEnd bs i k = some m) :
    m ≤ i + bs.length := by
  induction bs generalizing i k with
  | nil => simp [varIntEnd] at h
  | cons b bs ih =>
    cases k with
    | zero => simp [varIntEnd] at h
    | succ k =>
      simp only [varIntEnd] at h
      split at h
      · cases h; simp
      · have := ih h; simp; omega

theorem getFirstEncodedVarIntLen_le (buf : Bytes) : getFirstEncodedVarIntLen buf ≤ buf.length := by
  unfold getFirstEncodedVarIntLen
  split
  · rename_i hlen
    cases h : varIntEnd buf 0 9 with
    | none => simp only [MAX_VARINT64_LENGTH] at hlen; simpa using hlen
    | some m => simpa using varIntEnd_le h
  · cases h : varIntEnd buf 0 buf.length with
    | none => simp
    | some m => simpa using varIntEnd_le h

/-- Wherever `try_decode_var_u64` succeeds, the scanner gives the number of
bytes it read. -/
theorem getFirstEncodedVarIntLen_of_tryDecodeVarU64 {buf : Bytes} {v : UInt64} {n : Nat}
    (h : tryDecodeVarU64 buf = .ok (v, n)) : getFirstEncodedVarIntLen buf = n := by
  unfold tryDecodeVarU64 at h
  unfold getFirstEncodedVarIntLen
  split at h
  · rename_i hlen
    rw [if_pos (show buf.length ≥ MAX_VARINT64_LENGTH from hlen)]
    cases hloop : decodeVarU64Loop buf 0 0 9 with
    | found val m =>
      rw [hloop] at h
      cases h
      rw [varIntEnd_of_found hloop]
      rfl
    | exhausted val =>
      rw [hloop] at h
      cases h
      rw [varIntEnd_of_exhausted hloop]
      rfl
  · rename_i hlen
    rw [if_neg (show ¬ buf.length ≥ MAX_VARINT64_LENGTH from hlen)]
    cases hslow : tryDecodeVarU64Slow buf 0 0 0 with
    | none =>
      rw [hslow] at h
      cases h
    | some r =>
      rw [hslow] at h
      cases h
      rw [varIntEnd_of_slow hslow]
      rfl

theorem tryDecodeVarU64_le_length {buf : Bytes} {v : UInt64} {n : Nat}
    (h : tryDecodeVarU64 buf = .ok (v, n)) : n ≤ buf.length := by
  rw [← getFirstEncodedVarIntLen_of_tryDecodeVarU64 h]
  exact getFirstEncodedVarIntLen_le buf

end Tikv.Codec
